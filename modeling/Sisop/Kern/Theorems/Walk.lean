import Sisop.Kern.Theorems.PageList
import Sisop.Kern.Theorems.Unmapped

-- The map from virtual pages to slots that `pgdir_walk` reads and extends.

namespace Kern

open Inc Function Library State

-- The present page tables of a page directory are different pages, and none is page 0.
structure DistinctTables (m : Machine) (s : State) (pgdir : Nat) : Prop where
  page : ∀ d < NPDENTRIES, ∀ p, entryPage (s.mem pgdir d) = some p → 0 < p ∧ p < m.npages
  inj  : ∀ d < NPDENTRIES, ∀ d' < NPDENTRIES, ∀ p, entryPage (s.mem pgdir d) = some p →
    entryPage (s.mem pgdir d') = some p → d = d'

-- The pages on the free list are nobody's: no count, not the directory and none of its tables.
structure FreePages (m : Machine) (s : State) (pgdir : Nat) (fl : List Nat) : Prop where
  list  : FreeList s fl
  page  : ∀ p ∈ fl, 0 < p ∧ p < m.npages ∧ p ≠ pgdir
  count : ∀ p ∈ fl, s.ppRef p = 0
  table : ∀ p ∈ fl, ∀ d < NPDENTRIES, entryPage (s.mem pgdir d) ≠ some p

structure WalkInv (m : Machine) (s : State) (pgdir : Nat) (fl : List Nat) : Prop where
  dir    : Directory m s pgdir
  tables : DistinctTables m s pgdir
  free   : FreePages m s pgdir fl

-- What happens to a page directory after a call: further calls, and steps of the kernel that leave it
-- as it is.
inductive WalkStep (m : Machine) (pgdir : Nat) : State → Unit → State → Prop
  | walk {s s' : State} {va : Word} {create : Bool} {r : Option Slot}
      (h : pgdirWalk m s pgdir va create = some (r, s')) : WalkStep m pgdir s () s'
  | other {s s' : State} {fl : List Nat} (hm : s'.mem pgdir = s.mem pgdir)
      (hf : FreePages m s' pgdir fl) : WalkStep m pgdir s () s'

def Later (m : Machine) (pgdir : Nat) (s s' : State) : Prop :=
  Run (WalkStep m pgdir) (fun _ _ => True) s s'

-- What a call changes that creates the page table for `va` and returns `slot`.
structure Created (m : Machine) (pgdir : Nat) (va : Word) (fl : List Nat) (slot : Slot)
    (s s' : State) : Prop where
  taken : ∃ fl', fl = slot.1 :: fl' ∧ FreeList s' fl' ∧ s'.ppRef = update s.ppRef slot.1 1
  empty : ∀ i, s'.mem slot.1 i = 0#32
  same  : ∀ va', PDX va' = PDX va →
    pgdirWalk m s' pgdir va' false = some (some (slot.1, PTX va'), s')
  -- The slot that is the directory entry itself exists where a directory is one of its own tables.
  other : ∀ va' r, PDX va' ≠ PDX va → pgdirWalk m s pgdir va' false = some (r, s) →
    pgdirWalk m s' pgdir va' false = some (r, s') ∧
      ∀ slot' ∈ r, slot' ≠ (pgdir, PDX va) → s'.pte slot' = s.pte slot'

-- What calls with `create` do while the pages `fl` are free.
structure WalkCreate (m : Machine) (s : State) (pgdir : Nat) (fl : List Nat) : Prop where
  full    : ∀ {va}, pgdirWalk m s pgdir va false = some (none, s) → fl = [] →
    pgdirWalk m s pgdir va true = some (none, s)
  created : ∀ {va}, pgdirWalk m s pgdir va false = some (none, s) → fl ≠ [] →
    ∃ slot s', pgdirWalk m s pgdir va true = some (some slot, s') ∧
      Created m pgdir va fl slot s s'
  later   : ∀ {va va' slot create s' s''}, pgdirWalk m s pgdir va true = some (some slot, s') →
    Later m pgdir s' s'' → PGNUM va' = PGNUM va →
    pgdirWalk m s'' pgdir va' create = some (some slot, s'')

structure WalkMap (m : Machine) (s : State) (pgdir : Nat) : Prop where
  total   : ∀ va, ∃ r, pgdirWalk m s pgdir va false = some (r, s)
  slot    : ∀ {va₁ va₂ slot₁ slot₂ s₁ s₂},
    pgdirWalk m s pgdir va₁ false = some (some slot₁, s₁) →
    pgdirWalk m s pgdir va₂ false = some (some slot₂, s₂) →
    (slot₁ = slot₂ ↔ PGNUM va₁ = PGNUM va₂)
  found   : ∀ {va slot}, pgdirWalk m s pgdir va false = some (some slot, s) →
    pgdirWalk m s pgdir va true = some (some slot, s)
  create  : ∀ {fl}, FreePages m s pgdir fl → WalkCreate m s pgdir fl

variable {m : Machine} {s s' : State} {pgdir p : Nat} {fl : List Nat} {va va' : Word} {create : Bool}

-- The virtual page is given by the two indices.
theorem PGNUM_eq_iff : PGNUM va = PGNUM va' ↔ PDX va = PDX va' ∧ PTX va = PTX va' := by
  rw [PGNUM_eq_div, PGNUM_eq_div, PDX_eq_div, PDX_eq_div, PTX_eq_mod, PTX_eq_mod]
  omega

-- Entries that `pgdir_walk` writes.
theorem entryPage_created (h : p < m.npages) :
    entryPage (page2pa p ||| PTE_P ||| PTE_W ||| PTE_U) = some p := by
  have hp : p < 2 ^ 20 := by have := m.npages_le; omega
  have := entryPage_mk hp (show PGNUM (PTE_W ||| PTE_U) = 0 by decide)
  rwa [BitVec.or_assoc, BitVec.or_assoc, BitVec.or_comm PTE_P, ← BitVec.or_assoc]

namespace Directory

variable (h : Directory m s pgdir)
include h

theorem entryPage_eq_none {d : Nat} (hd : d < NPDENTRIES) :
    entryPage (s.mem pgdir d) = none ↔ PTE_ADDR (s.mem pgdir d) = 0#32 := by
  rw [Inc.entryPage_eq_none, ← Bool.not_eq_true, h.present d hd, not_not]

theorem walk_some (he : entryPage (s.mem pgdir (PDX va)) = some p) :
    pgdirWalk m s pgdir va create = some (some (p, PTX va), s) := by
  have h₀ : PTE_ADDR (s.mem pgdir (PDX va)) ≠ 0#32 := by
    refine (h.entryPage_eq_none PDX_lt).not.mp ?_
    rw [he]
    exact Option.some_ne_none p
  obtain ⟨-, hn⟩ := entryPage_eq_some.mp he
  have hl : p < m.npages := hn ▸ h.lt _ PDX_lt h₀
  simp [pgdirWalk, h₀, hn, kaddr, hl]

theorem walk_none (he : entryPage (s.mem pgdir (PDX va)) = none) :
    pgdirWalk m s pgdir va false = some (none, s) := by
  simp [pgdirWalk, (h.entryPage_eq_none PDX_lt).mp he]

-- Without `create` the result is read off the directory entry.
theorem walk_eq : pgdirWalk m s pgdir va false =
    some ((entryPage (s.mem pgdir (PDX va))).map (·, PTX va), s) := by
  cases he : entryPage (s.mem pgdir (PDX va))
  case none   => exact h.walk_none he
  case some p => exact h.walk_some he

end Directory

-- The state after `pgdir_walk` has taken the free page `p` for the table of `va`.
def State.withTable (s : State) (pgdir p : Nat) (va : Word) : State :=
  let s := (s.setPageFreeList (s.pages p).ppLink).setPage p { s.pages p with ppLink := none }
  incRef ((s.fill p (fun _ => 0#32)).store pgdir (PDX va)
    (page2pa p ||| PTE_P ||| PTE_W ||| PTE_U)) p

namespace FreePages

variable (h : FreePages m s pgdir (p :: fl))
include h

theorem withTable_dir : (s.withTable pgdir p va).mem pgdir =
    update (s.mem pgdir) (PDX va) (page2pa p ||| PTE_P ||| PTE_W ||| PTE_U) := by
  obtain ⟨-, -, hne⟩ := h.page p List.mem_cons_self
  simp only [State.withTable, incRef, setPage_mem, store_mem_self, fill_mem_of_ne hne.symm,
    setPageFreeList_mem]

theorem withTable_table : (s.withTable pgdir p va).mem p = fun _ => 0#32 := by
  obtain ⟨-, -, hne⟩ := h.page p List.mem_cons_self
  simp only [State.withTable, incRef, setPage_mem, store_mem_of_ne hne, fill_mem_self]

omit h in
theorem withTable_mem_of_ne {q : Nat} (hp : q ≠ p) (hd : q ≠ pgdir) :
    (s.withTable pgdir p va).mem q = s.mem q := by
  simp only [State.withTable, incRef, setPage_mem, store_mem_of_ne hd, fill_mem_of_ne hp,
    setPageFreeList_mem]

theorem withTable_ppRef : (s.withTable pgdir p va).ppRef = update s.ppRef p 1 := by
  have h₀ : s.ppRef p = 0 := h.count p List.mem_cons_self
  let s₁ := (s.setPageFreeList (s.pages p).ppLink).setPage p { s.pages p with ppLink := none }
  have h₁ : s₁.ppRef = s.ppRef := setPage_ppRef_self rfl
  let s₂ := (s₁.fill p (fun _ => 0#32)).store pgdir (PDX va)
    (page2pa p ||| PTE_P ||| PTE_W ||| PTE_U)
  have h₂ : s₂.ppRef = s.ppRef := h₁
  have hf : (s₂.pages p).ppRef ≠ 0xFFFF#16 := by
    intro hc
    have hz : s₂.ppRef p = 0 := (congrFun h₂ p).trans h₀
    rw [State.ppRef, hc] at hz
    exact absurd hz (by decide)
  rw [show s.withTable pgdir p va = incRef s₂ p from rfl, incRef_ppRef hf, h₂, h₀]

theorem withTable_list : FreeList (s.withTable pgdir p va) fl := by
  have hl := h.list
  have hhead : s.pageFreeList = some p := Chain.head_eq hl
  rw [FreeList, hhead] at hl
  obtain ⟨l, hl, hn, hc⟩ := hl.pop (o := none)
  cases hl
  have hlink : (s.withTable pgdir p va).ppLink = update s.ppLink p none :=
    incRef_ppLink.trans setPage_ppLink
  rw [FreeList, hlink]
  exact hc

omit h in
-- The outcomes of `create` where there is no page table.
theorem walk_full (hd : PTE_ADDR (s.mem pgdir (PDX va)) = 0#32) (hf : s.pageFreeList = none) :
    pgdirWalk m s pgdir va true = some (none, s) := by
  simp [pgdirWalk, hd, pageAlloc, hf]

theorem walk_create (hd : PTE_ADDR (s.mem pgdir (PDX va)) = 0#32) :
    pgdirWalk m s pgdir va true = some (some (p, PTX va), s.withTable pgdir p va) := by
  have hhead : s.pageFreeList = some p := Chain.head_eq h.list
  obtain ⟨-, hlt, -⟩ := h.page p List.mem_cons_self
  simp [pgdirWalk, hd, pageAlloc, hhead, allocZero, kaddr, hlt, State.withTable]

theorem entryPage_withTable (d : Nat) : entryPage ((s.withTable pgdir p va).mem pgdir d) =
    if d = PDX va then some p else entryPage (s.mem pgdir d) := by
  obtain ⟨-, hlt, -⟩ := h.page p List.mem_cons_self
  rw [h.withTable_dir, update_apply]
  split
  case isTrue  => exact entryPage_created hlt
  case isFalse => rfl

end FreePages

-- Whether there is a table for `va` and a free page decides what a call with `create` does.
theorem walk_create_cases (i : WalkInv m s pgdir fl) {r : Option Slot}
    (h : pgdirWalk m s pgdir va true = some (r, s')) :
    (∃ p, entryPage (s.mem pgdir (PDX va)) = some p ∧ r = some (p, PTX va) ∧ s' = s) ∨
    entryPage (s.mem pgdir (PDX va)) = none ∧
      (fl = [] ∧ r = none ∧ s' = s ∨
      ∃ p fl', fl = p :: fl' ∧ r = some (p, PTX va) ∧ s' = s.withTable pgdir p va) := by
  cases he : entryPage (s.mem pgdir (PDX va))
  case some p =>
    rw [i.dir.walk_some he] at h
    simp only [Option.some.injEq, Prod.mk.injEq] at h
    exact .inl ⟨p, rfl, h.left.symm, h.right.symm⟩
  case none =>
    have hd := (i.dir.entryPage_eq_none PDX_lt).mp he
    refine .inr ⟨rfl, ?_⟩
    cases fl
    case nil =>
      rw [FreePages.walk_full hd (Chain.head_eq i.free.list)] at h
      simp only [Option.some.injEq, Prod.mk.injEq] at h
      exact .inl ⟨rfl, h.left.symm, h.right.symm⟩
    case cons p fl =>
      rw [i.free.walk_create hd] at h
      simp only [Option.some.injEq, Prod.mk.injEq] at h
      exact .inr ⟨p, fl, rfl, h.left.symm, h.right.symm⟩

-- Tables are different pages, so slots of different pages are different.
theorem DistinctTables.slot_eq (h : DistinctTables m s pgdir) {q : Nat}
    (hp : entryPage (s.mem pgdir (PDX va)) = some p)
    (hq : entryPage (s.mem pgdir (PDX va')) = some q) :
    (p, PTX va) = (q, PTX va') ↔ PGNUM va = PGNUM va' := by
  rw [PGNUM_eq_iff, Prod.mk.injEq]
  refine and_congr_left fun _ => ⟨?_, fun hd => ?_⟩
  · rintro rfl
    exact h.inj _ PDX_lt _ PDX_lt p hp hq
  · rw [hd, hq] at hp
    exact (Option.some.inj hp).symm

namespace WalkInv

-- A new table keeps the tables apart, because free pages are nobody's.
theorem withTable (i : WalkInv m s pgdir (p :: fl)) :
    WalkInv m (s.withTable pgdir p va) pgdir fl := by
  obtain ⟨hpos, hlt, hne⟩ := i.free.page p List.mem_cons_self
  have he (d : Nat) : entryPage ((s.withTable pgdir p va).mem pgdir d) =
      if d = PDX va then some p else entryPage (s.mem pgdir d) := i.free.entryPage_withTable d
  have hp : p ∉ fl := (List.nodup_cons.mp i.free.list.nodup).left
  have hu := i.free.table p List.mem_cons_self
  have ht (d : Nat) (hd : d < NPDENTRIES) (q : Nat)
      (hq : entryPage ((s.withTable pgdir p va).mem pgdir d) = some q) :
      d = PDX va ∧ q = p ∨ d ≠ PDX va ∧ q ≠ p ∧ entryPage (s.mem pgdir d) = some q := by
    rw [he] at hq
    split at hq
    case isTrue hc  => exact .inl ⟨hc, (Option.some.inj hq).symm⟩
    case isFalse hc =>
      refine .inr ⟨hc, ?_, hq⟩
      rintro rfl
      exact hu d hd hq
  constructor
  case dir =>
    have hpg (d : Nat) (hd : d < NPDENTRIES) (hw : d = PDX va) :
        entryPage ((s.withTable pgdir p va).mem pgdir d) = some p := by rw [he, if_pos hw]
    have hold (d : Nat) (hw : d ≠ PDX va) :
        (s.withTable pgdir p va).mem pgdir d = s.mem pgdir d := by
      rw [i.free.withTable_dir, update_of_ne hw]
    constructor
    case present =>
      intro d hd
      by_cases hw : d = PDX va
      case neg =>
        rw [hold d hw]
        exact i.dir.present d hd
      case pos =>
        obtain ⟨hpr, hg⟩ := entryPage_eq_some.mp (hpg d hd hw)
        refine iff_of_true hpr fun hc => ?_
        have := PTE_ADDR_eq_zero.mp hc
        omega
    case lt =>
      intro d hd hz
      by_cases hw : d = PDX va
      case neg =>
        rw [hold d hw] at hz ⊢
        exact i.dir.lt d hd hz
      case pos =>
        obtain ⟨-, hg⟩ := entryPage_eq_some.mp (hpg d hd hw)
        rw [hg]
        exact hlt
  case tables =>
    constructor
    case page =>
      intro d hd q hq
      obtain ⟨-, rfl⟩ | ⟨-, -, hq⟩ := ht d hd q hq
      · exact ⟨hpos, hlt⟩
      · exact i.tables.page d hd q hq
    case inj =>
      intro d hd d' hd' q hq hq'
      obtain ⟨h₁, rfl⟩ | ⟨-, h₂, hq⟩ := ht d hd q hq <;>
        obtain ⟨h₁', h₂'⟩ | ⟨-, h₂', hq'⟩ := ht d' hd' _ hq'
      · exact h₁.trans h₁'.symm
      · exact absurd rfl h₂'
      · exact absurd h₂' h₂
      · exact i.tables.inj d hd d' hd' q hq hq'
  case free =>
    constructor
    case list => exact i.free.withTable_list
    case page => exact fun q hq => i.free.page q (List.mem_cons_of_mem _ hq)
    case count =>
      intro q hq
      rw [i.free.withTable_ppRef, update_of_ne (ne_of_mem_of_not_mem hq hp)]
      exact i.free.count q (List.mem_cons_of_mem _ hq)
    case table =>
      intro q hq d hd hc
      obtain ⟨-, rfl⟩ | ⟨-, -, hc⟩ := ht d hd q hc
      · exact hp hq
      · exact i.free.table q (List.mem_cons_of_mem _ hq) d hd hc

-- A call keeps the invariant and the tables that are there.
theorem walk (i : WalkInv m s pgdir fl) {r : Option Slot}
    (h : pgdirWalk m s pgdir va create = some (r, s')) :
    ∃ fl', WalkInv m s' pgdir fl' ∧ ∀ d p, entryPage (s.mem pgdir d) = some p →
      entryPage (s'.mem pgdir d) = some p := by
  cases create
  case false =>
    rw [i.dir.walk_eq] at h
    simp only [Option.some.injEq, Prod.mk.injEq] at h
    exact ⟨fl, h.right ▸ i, fun d p he => h.right ▸ he⟩
  case true =>
    obtain ⟨p, -, -, rfl⟩ | ⟨hn, ⟨-, -, rfl⟩ | ⟨p, fl', rfl, -, rfl⟩⟩ := walk_create_cases i h
    · exact ⟨fl, i, fun d p he => he⟩
    · exact ⟨fl, i, fun d p he => he⟩
    · refine ⟨fl', i.withTable, fun d q hq => ?_⟩
      rw [i.free.entryPage_withTable, if_neg]
      · exact hq
      · rintro rfl
        rw [hn] at hq
        cases hq

theorem step (i : WalkInv m s pgdir fl) (h : WalkStep m pgdir s () s') :
    ∃ fl', WalkInv m s' pgdir fl' ∧ ∀ d p, entryPage (s.mem pgdir d) = some p →
      entryPage (s'.mem pgdir d) = some p := by
  cases h
  case walk h        => exact i.walk h
  case other fl' hm hf =>
    refine ⟨fl', ⟨i.dir.congr hm, ?_, hf⟩, fun d p he => hm ▸ he⟩
    constructor
    case page =>
      rw [hm]
      exact i.tables.page
    case inj =>
      rw [hm]
      exact i.tables.inj

-- Once there is a table for a page, it stays.
theorem later (i : WalkInv m s pgdir fl) (h : Later m pgdir s s')
    (he : entryPage (s.mem pgdir (PDX va)) = some p) :
    (∃ fl', WalkInv m s' pgdir fl') ∧ entryPage (s'.mem pgdir (PDX va)) = some p := by
  let inv (s₁ : State) : Prop :=
    (∃ fl', WalkInv m s₁ pgdir fl') ∧ entryPage (s₁.mem pgdir (PDX va)) = some p
  have hi : inv s := ⟨⟨fl, i⟩, he⟩
  have hs {s₁ s₂ : State} {ev : Unit} (h₁ : inv s₁) (hw : WalkStep m pgdir s₁ ev s₂) : inv s₂ := by
    obtain ⟨⟨fl₁, i₁⟩, he₁⟩ := h₁
    obtain ⟨fl₂, i₂, hk⟩ := i₁.step hw
    exact ⟨⟨fl₂, i₂⟩, hk (PDX va) p he₁⟩
  have hr : inv s' := Run.invariant h hi fun h₁ _ hw => hs h₁ hw
  exact hr

-- Slots outside the new table are found as before, and only the directory entry is written.
theorem created (i : WalkInv m s pgdir (p :: fl))
    (hn : entryPage (s.mem pgdir (PDX va)) = none) :
    Created m pgdir va (p :: fl) (p, PTX va) s (s.withTable pgdir p va) := by
  have i' : WalkInv m (s.withTable pgdir p va) pgdir fl := i.withTable
  have he (d : Nat) : entryPage ((s.withTable pgdir p va).mem pgdir d) =
      if d = PDX va then some p else entryPage (s.mem pgdir d) := i.free.entryPage_withTable d
  constructor
  case taken => exact ⟨fl, rfl, i.free.withTable_list, i.free.withTable_ppRef⟩
  case empty => exact congrFun i.free.withTable_table
  case same =>
    intro va' hd
    refine i'.dir.walk_some ?_
    rw [he, if_pos hd]
  case other =>
    intro va' r hd hr
    rw [i.dir.walk_eq] at hr
    simp only [Option.some.injEq, Prod.mk.injEq, and_true] at hr
    refine ⟨?_, ?_⟩
    · rw [i'.dir.walk_eq, he, if_neg hd, hr]
    · intro slot' hslot hne
      rw [← hr, Option.mem_def, Option.map_eq_some_iff] at hslot
      obtain ⟨q, hq, rfl⟩ := hslot
      have hqp : q ≠ p := by
        rintro rfl
        exact i.free.table q List.mem_cons_self _ PDX_lt hq
      by_cases hqd : q = pgdir
      case neg => exact congrFun (FreePages.withTable_mem_of_ne hqp hqd) _
      case pos =>
        subst hqd
        have hx : PTX va' ≠ PDX va := fun hc => hne (by rw [hc])
        rw [State.pte, i.free.withTable_dir, update_of_ne hx, State.pte]

end WalkInv

namespace Directory

variable (h : Directory m s pgdir)
include h

theorem entryPage_of_walk {slot : Slot} {s₁ : State}
    (hw : pgdirWalk m s pgdir va false = some (some slot, s₁)) :
    ∃ p, entryPage (s.mem pgdir (PDX va)) = some p ∧ slot = (p, PTX va) := by
  rw [h.walk_eq] at hw
  simp only [Option.some.injEq, Prod.mk.injEq, Option.map_eq_some_iff] at hw
  obtain ⟨⟨p, he, hs⟩, -⟩ := hw
  exact ⟨p, he, hs.symm⟩

theorem entryPage_of_walk_none (hw : pgdirWalk m s pgdir va false = some (none, s)) :
    entryPage (s.mem pgdir (PDX va)) = none := by
  rw [h.walk_eq] at hw
  simpa using hw

end Directory

theorem WalkInv.walkCreate (i : WalkInv m s pgdir fl) : WalkCreate m s pgdir fl := by
  constructor
  case full =>
    rintro va h rfl
    have hn := (i.dir.entryPage_eq_none PDX_lt).mp (i.dir.entryPage_of_walk_none h)
    exact FreePages.walk_full hn (Chain.head_eq i.free.list)
  case created =>
    intro va h hne
    have hn := i.dir.entryPage_of_walk_none h
    cases fl
    case nil => exact absurd rfl hne
    case cons p fl =>
      have hw := i.free.walk_create ((i.dir.entryPage_eq_none PDX_lt).mp hn)
      exact ⟨(p, PTX va), s.withTable pgdir p va, hw, i.created hn⟩
  case later =>
    intro va va' slot create s' s'' h hl hg
    obtain ⟨hx, hy⟩ := PGNUM_eq_iff.mp hg
    obtain ⟨fl', i', -⟩ := i.walk h
    have he : ∃ p, entryPage (s'.mem pgdir (PDX va)) = some p ∧ slot = (p, PTX va) := by
      obtain ⟨p, hp, hr, rfl⟩ | ⟨hn, ⟨-, hr, -⟩ | ⟨p, fl₁, rfl, hr, rfl⟩⟩ := walk_create_cases i h
      · exact ⟨p, hp, Option.some.inj hr⟩
      · cases hr
      · refine ⟨p, ?_, Option.some.inj hr⟩
        rw [i.free.entryPage_withTable, if_pos rfl]
    obtain ⟨p, hp, rfl⟩ := he
    obtain ⟨⟨fl'', i''⟩, he''⟩ := i'.later hl hp
    rw [← hy]
    exact i''.dir.walk_some (hx ▸ he'')

-- `pgdir_walk` is a partial map from pages to slots, which calls with `create` extend.
theorem pgdir_walk_map (hd : Directory m s pgdir) (ht : DistinctTables m s pgdir) :
    WalkMap m s pgdir := by
  constructor
  case total =>
    intro va
    exact ⟨(entryPage (s.mem pgdir (PDX va))).map (·, PTX va), hd.walk_eq⟩
  case slot =>
    intro va₁ va₂ slot₁ slot₂ s₁ s₂ h₁ h₂
    obtain ⟨p, hp, rfl⟩ := hd.entryPage_of_walk h₁
    obtain ⟨q, hq, rfl⟩ := hd.entryPage_of_walk h₂
    exact ht.slot_eq hp hq
  case found =>
    intro va slot h
    obtain ⟨p, hp, rfl⟩ := hd.entryPage_of_walk h
    exact hd.walk_some hp
  case create => exact fun hf => WalkInv.walkCreate ⟨hd, ht, hf⟩

namespace Sample

-- A state in which page 1 is the page directory `dir`, page 6 is free and all other memory is empty.
def withDir (dir : Nat → Word) : State :=
  { boot with
    pages        := fun _ => ⟨none, 0#16⟩
    pageFreeList := some 6
    mem          := fun p => if p = 1 then dir else fun _ => 0#32 }

-- The second entry still has the address of the first table, and is not present.
def staleDir (d : Nat) : Word :=
  if d = 0 then pde 5 else if d = 1 then page2pa 5 else 0#32

-- The directory is its own page table at `UVPT`, as in every environment.
def selfDir (d : Nat) : Word :=
  if d = 0 then pde 5 else if d = UVPTX then page2pa 1 ||| PTE_P ||| PTE_U else 0#32

theorem entryPage_staleDir (d : Nat) : entryPage (staleDir d) = if d = 0 then some 5 else none := by
  simp only [staleDir]
  split
  case isTrue => decide
  case isFalse =>
    split
    · decide
    · decide

theorem entryPage_selfDir (d : Nat) :
    entryPage (selfDir d) = if d = 0 then some 5 else if d = UVPTX then some 1 else none := by
  simp only [selfDir]
  split
  case isTrue => decide
  case isFalse =>
    split
    · decide
    · decide

theorem withDir_mem {dir : Nat → Word} : (withDir dir).mem 1 = dir := rfl

theorem distinctTables_stale : DistinctTables machine (withDir staleDir) 1 := by
  constructor
  case page =>
    intro d _ p hp
    rw [withDir_mem, entryPage_staleDir] at hp
    split at hp <;> cases hp
    decide
  case inj =>
    intro d _ d' _ p hp hp'
    rw [withDir_mem, entryPage_staleDir] at hp hp'
    split at hp <;> cases hp
    split at hp' <;> cases hp'
    omega

theorem directory_self : Directory machine (withDir selfDir) 1 := by
  have h (d : Nat) : selfDir d = pde 5 ∨ selfDir d = page2pa 1 ||| PTE_P ||| PTE_U ∨
      selfDir d = 0#32 := by
    simp only [selfDir]
    split
    case isTrue  => exact .inl rfl
    case isFalse => split <;> simp
  constructor
  case present =>
    intro d _
    rw [withDir_mem]
    obtain hd | hd | hd := h d <;> rw [hd] <;> decide
  case lt =>
    intro d _
    rw [withDir_mem]
    obtain hd | hd | hd := h d <;> rw [hd] <;> decide

theorem distinctTables_self : DistinctTables machine (withDir selfDir) 1 := by
  constructor
  case page =>
    intro d _ p hp
    rw [withDir_mem, entryPage_selfDir] at hp
    split at hp
    case isTrue =>
      cases hp
      decide
    case isFalse =>
      split at hp <;> cases hp
      decide
  case inj =>
    intro d _ d' _ p hp hp'
    rw [withDir_mem, entryPage_selfDir] at hp hp'
    grind

theorem freePages_self : FreePages machine (withDir selfDir) 1 [6] := by
  constructor
  case list  => exact .cons .nil
  case page  => simp [machine]
  case count =>
    intro p _
    rfl
  case table =>
    intro p hp d _ hc
    rw [withDir_mem, entryPage_selfDir, List.mem_singleton.mp hp] at *
    grind

end Sample

theorem pgdir_walk_map_self : WalkMap Sample.machine (Sample.withDir Sample.selfDir) 1 ∧
    WalkCreate Sample.machine (Sample.withDir Sample.selfDir) 1 [6] :=
  ⟨pgdir_walk_map Sample.directory_self Sample.distinctTables_self,
    (pgdir_walk_map Sample.directory_self Sample.distinctTables_self).create Sample.freePages_self⟩

-- An entry that is not present and still has an address makes two pages share a slot. And where the
-- directory is its own page table, the slot that is the written entry changes.
theorem not_pgdir_walk_map :
    (¬∀ {m s pgdir va₁ va₂ slot s₁ s₂}, DistinctTables m s pgdir →
      pgdirWalk m s pgdir va₁ false = some (some slot, s₁) →
      pgdirWalk m s pgdir va₂ false = some (some slot, s₂) → PGNUM va₁ = PGNUM va₂) ∧
    ¬∀ {m s pgdir fl va va' slot slot' s'}, Directory m s pgdir → DistinctTables m s pgdir →
      FreePages m s pgdir fl → PGNUM va' ≠ PGNUM va →
      pgdirWalk m s pgdir va' false = some (some slot', s) →
      pgdirWalk m s pgdir va true = some (some slot, s') → s'.pte slot' = s.pte slot' := by
  constructor
  · intro h
    have h₁ : pgdirWalk Sample.machine (Sample.withDir Sample.staleDir) 1 0#32 false =
        some (some (5, 0), Sample.withDir Sample.staleDir) := rfl
    have h₂ : pgdirWalk Sample.machine (Sample.withDir Sample.staleDir) 1 0x400000#32 false =
        some (some (5, 0), Sample.withDir Sample.staleDir) := rfl
    exact absurd (h Sample.distinctTables_stale h₁ h₂) (by decide)
  · intro h
    let s := Sample.withDir Sample.selfDir
    let va := 0x400000#32
    have hz : PTE_ADDR (s.mem 1 (PDX va)) = 0#32 := by decide
    have hw := Sample.freePages_self.walk_create hz
    have he : entryPage (s.mem 1 (PDX (UVPT + 0x1000#32))) = some 1 := by decide
    have h₁ : pgdirWalk Sample.machine s 1 (UVPT + 0x1000#32) false = _ :=
      Sample.directory_self.walk_some he
    have hc := h Sample.directory_self Sample.distinctTables_self Sample.freePages_self (by decide)
      h₁ hw
    rw [State.pte, State.pte, Sample.freePages_self.withTable_dir] at hc
    exact absurd hc (by decide)

end Kern

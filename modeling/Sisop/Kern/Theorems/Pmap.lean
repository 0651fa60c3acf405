import Sisop.Kern.Theorems.PageInv

namespace Kern

open Inc Function Library State

-- The indices of an address below `UTOP` in its address space.
def pdx (va : Word) (h : va < UTOP) : Fin UTOPX := ⟨PDX va, PDX_lt_UTOPX h⟩

def ptx (va : Word) : Fin NPDENTRIES := ⟨PTX va, PTX_lt⟩

-- An address space with one entry replaced.
def setEntry (f : EnvPtr → Fin UTOPX → Fin NPDENTRIES → Word) (e : EnvPtr) (d : Fin UTOPX)
    (t : Fin NPDENTRIES) (w : Word) : EnvPtr → Fin UTOPX → Fin NPDENTRIES → Word :=
  fun e' d' t' => if e' = e ∧ d' = d ∧ t' = t then w else f e' d' t'

theorem setEntry_of_ne {f : EnvPtr → Fin UTOPX → Fin NPDENTRIES → Word} {e e' : EnvPtr}
    {d : Fin UTOPX} {t : Fin NPDENTRIES} {w : Word} (h : e' ≠ e) : setEntry f e d t w e' = f e' := by
  funext d' t'
  simp [setEntry, h]

@[simp] theorem setEntry_self {f : EnvPtr → Fin UTOPX → Fin NPDENTRIES → Word} {e : EnvPtr}
    {d : Fin UTOPX} {t : Fin NPDENTRIES} {w : Word} : setEntry f e d t w e d t = w := by
  simp [setEntry]

theorem setEntry_eq_self {f : EnvPtr → Fin UTOPX → Fin NPDENTRIES → Word} {e : EnvPtr}
    {d : Fin UTOPX} {t : Fin NPDENTRIES} {w : Word} (h : f e d t = w) : setEntry f e d t w = f := by
  funext e' d' t'
  simp only [setEntry]
  split
  case isTrue he =>
    obtain ⟨he, hd, ht⟩ := he
    rw [he, hd, ht, h]
  case isFalse => rfl

theorem pageAlloc_eq_none {s s' : State} {f : Word} (h : pageAlloc s f = (none, s')) :
    s' = s ∧ s.pageFreeList = none := by
  simp only [pageAlloc] at h
  cases hp : s.pageFreeList <;> simp [hp] at h
  exact ⟨h.symm, rfl⟩

-- `pgdir_walk` finds no slot only where there is no page table and no memory for one.
theorem pgdirWalk_eq_none {m : Machine} {s s' : State} {pd : Nat} {va : Word}
    (h : pgdirWalk m s pd va true = some (none, s')) : s' = s ∧ s.pageFreeList = none := by
  simp only [pgdirWalk] at h
  split at h
  case isTrue =>
    cases ha : pageAlloc s 1#32 with | mk o s₁ =>
    cases o
    case none =>
      simp only [Bool.not_true, Bool.false_eq_true, if_false, ha, Option.some.injEq, Prod.mk.injEq,
        true_and] at h
      exact h ▸ pageAlloc_eq_none ha
    case some =>
      simp only [Bool.not_true, Bool.false_eq_true, if_false, ha] at h
      obtain ⟨_, _, h⟩ := Option.bind_eq_some_iff.mp h
      simp at h
  case isFalse =>
    obtain ⟨_, _, h⟩ := Option.bind_eq_some_iff.mp h
    simp at h

theorem pageInsert_failed {m : Machine} {s s' : State} {pd p : Nat} {va perm r : Word}
    (h : pageInsert m s pd p va perm = some (r, s')) (hr : r ≠ 0#32) :
    s' = s ∧ s.pageFreeList = none := by
  simp only [pageInsert, Option.bind_eq_bind, Option.bind_eq_some_iff, Prod.exists] at h
  obtain ⟨slot, s₁, hw, h⟩ := h
  cases slot
  case none =>
    cases h
    exact pgdirWalk_eq_none hw
  case some =>
    dsimp only at h
    split at h
    all_goals
      obtain ⟨_, _, h⟩ := Option.bind_eq_some_iff.mp h
      simp only [Option.some.injEq, Prod.mk.injEq] at h
      exact absurd h.left.symm hr

-- A step that changes only the page counters and the list of free pages.
structure SameSpace (s s' : State) : Prop where
  mem         : s'.mem = s.mem
  envs        : s'.envs = s.envs
  envFreeList : s'.envFreeList = s.envFreeList

namespace SameSpace

variable {m : Machine} {s s₁ s₂ : State} {p i : Nat} {w : Word}

theorem refl : SameSpace s s :=
  ⟨rfl, rfl, rfl⟩

theorem trans (h₁ : SameSpace s s₁) (h₂ : SameSpace s₁ s₂) : SameSpace s s₂ where
  mem         := h₂.mem.trans h₁.mem
  envs        := h₂.envs.trans h₁.envs
  envFreeList := h₂.envFreeList.trans h₁.envFreeList

theorem pgdir (h : SameSpace s s₁) : s₁.pgdir = s.pgdir := by
  funext e
  simp [State.pgdir, h.envs]

theorem tableOf (h : SameSpace s s₁) : s₁.tableOf = s.tableOf :=
  tableOf_congr h.mem h.pgdir

theorem entry (h : SameSpace s s₁) : s₁.entry = s.entry :=
  entry_congr h.mem h.pgdir

theorem target (h : SameSpace s s₁) : s₁.target m = s.target m :=
  target_congr h.mem h.pgdir

theorem store (h : SameSpace s s₁) : SameSpace (s.store p i w) (s₁.store p i w) where
  mem         := by simp [State.store, h.mem]
  envs        := h.envs
  envFreeList := h.envFreeList

theorem store_store {v : Word} : SameSpace (s.store p i w) ((s.store p i v).store p i w) where
  mem         := by simp [State.store]
  envs        := rfl
  envFreeList := rfl

theorem incRef : SameSpace s (incRef s p) :=
  ⟨rfl, rfl, rfl⟩

theorem pageFree (h : pageFree s p = some s₁) : SameSpace s s₁ := by
  rw [pageFree_eq_some h]
  exact ⟨rfl, rfl, rfl⟩

theorem pageDecref (h : pageDecref s p = some s₁) : SameSpace s s₁ := by
  simp only [Kern.pageDecref] at h
  split at h
  case isTrue  => exact ⟨(pageFree h).mem, (pageFree h).envs, (pageFree h).envFreeList⟩
  case isFalse =>
    cases h
    exact ⟨rfl, rfl, rfl⟩

end SameSpace

-- What the walks of the page tables rely on.
structure Tables (m : Machine) (s : State) : Prop where
  managed : ∀ {e d pt}, s.tableOf e d = some pt → Managed m pt
  zeroPde : ∀ {e pd} {d : Fin UTOPX}, s.pgdir e = some pd → s.tableOf e d = none → s.mem pd d = 0#32

theorem PageInv.tables {m : Machine} {K : Nat → Nat → Word} {s : State} {own hand : List Nat}
    (i : PageInv m K s own hand) : Tables m s :=
  ⟨i.tableOf_managed, i.zeroPde⟩

namespace Tables

variable {m : Machine} {s s' : State} {e : EnvPtr} {pd pt : Nat} {va : Word} (i : Tables m s)
include i

theorem congr (h : SameSpace s s') : Tables m s' where
  managed := by
    rw [h.tableOf]
    exact i.managed
  zeroPde := by
    rw [h.tableOf, h.pgdir, h.mem]
    exact i.zeroPde

theorem kaddr {d : Fin UTOPX} (ht : s.tableOf e d = some pt) {n : Nat} :
    kaddr m pt n = some (pt, n) :=
  if_pos (i.managed ht).lt_npages

variable (h : s.pgdir e = some pd) (hva : va < UTOP)
include h

-- `pgdir_walk` tests the address part of the entry instead of `PTE_P`, which is the same here.
theorem pde_eq_zero_iff {d : Fin UTOPX} : PTE_ADDR (s.mem pd d) = 0#32 ↔ s.tableOf e d = none := by
  rw [PTE_ADDR_eq_zero]
  constructor
  case mpr =>
    intro hn
    rw [i.zeroPde h hn]
    rfl
  case mp =>
    intro hz
    by_contra hc
    obtain ⟨pt, ht⟩ := Option.ne_none_iff_exists'.mp hc
    have hm := i.managed ht
    rw [tableOf_eq h] at ht
    exact hm.ne_zero ((entryPage_eq_some.mp ht).right ▸ hz)

theorem pgdirWalk_some {create : Bool} (ht : s.tableOf e (pdx va hva) = some pt) :
    pgdirWalk m s pd va create = some (some (pt, PTX va), s) := by
  have hz : ¬PTE_ADDR (s.mem pd (PDX va)) = 0#32 := by
    have := (i.pde_eq_zero_iff h (d := pdx va hva)).not
    exact this.mpr (by simp [ht])
  have hk := i.kaddr ht (n := PTX va)
  rw [tableOf_eq h] at ht
  have hp : PGNUM (s.mem pd (PDX va)) = pt := (entryPage_eq_some.mp ht).right
  simp [pgdirWalk, hz, hp, hk]

theorem pgdirWalk_none (ht : s.tableOf e (pdx va hva) = none) :
    pgdirWalk m s pd va false = some (none, s) := by
  have hz : PTE_ADDR (s.mem pd (PDX va)) = 0#32 :=
    (i.pde_eq_zero_iff h (d := pdx va hva)).mpr ht
  simp [pgdirWalk, hz]

theorem pageLookup_none (ht : s.tableOf e (pdx va hva) = none) :
    pageLookup m s pd va = some none := by
  simp [pageLookup, i.pgdirWalk_none h hva ht]

-- On a slot that is empty, `page_lookup` finds page 0.
theorem pageLookup_some (ht : s.tableOf e (pdx va hva) = some pt) :
    pageLookup m s pd va =
      (pa2page m (PTE_ADDR (s.entry e (pdx va hva) (ptx va)))).map fun p => some (p, (pt, PTX va)) := by
  rw [entry_eq ht]
  simp [pageLookup, i.pgdirWalk_some h hva ht, State.pte, ptx, Option.map_eq_bind]

theorem pageRemove_none (ht : s.tableOf e (pdx va hva) = none) : pageRemove m s pd va = some s := by
  simp [pageRemove, i.pageLookup_none h hva ht]

theorem pageRemove_some (ht : s.tableOf e (pdx va hva) = some pt) :
    pageRemove m s pd va = (pa2page m (PTE_ADDR (s.entry e (pdx va hva) (ptx va)))).bind
      (pageDecref (s.store pt (ptx va) 0#32)) := by
  simp only [pageRemove, i.pageLookup_some h hva ht, i.pgdirWalk_some h hva ht, Option.bind_eq_bind]
  cases pa2page m (PTE_ADDR (s.entry e (pdx va hva) (ptx va))) <;> rfl

end Tables

namespace PageInv

variable {m : Machine} {K : Nat → Nat → Word} {s s' : State} {own hand : List Nat}
  {e : EnvPtr} {p pd pt : Nat} {va w perm : Word}

-- What `pgdir_walk` does when it returns a slot and may create the page table.
structure Walked (m : Machine) (K : Nat → Nat → Word) (own hand : List Nat) (e : EnvPtr)
    (d : Fin UTOPX) (pt : Nat) (s s' : State) : Prop where
  inv         : PageInv m K s' own hand
  envs        : s'.envs = s.envs
  envFreeList : s'.envFreeList = s.envFreeList
  entry       : s'.entry = s.entry
  tableOf     : s'.tableOf e d = some pt
  target      : ∀ {r : Ref}, r ≠ .table e d → s'.target m r = s.target m r
  ppRef       : ∀ {r : Ref} {q}, s.target m r = some q → s'.ppRef q = s.ppRef q

theorem entryPage_pde (h : Managed m p) :
    entryPage (page2pa p ||| PTE_P ||| PTE_W ||| PTE_U) = some p := by
  have := entryPage_mk h.lt (show PGNUM (PTE_W ||| PTE_U) = 0 by decide)
  rwa [BitVec.or_assoc, BitVec.or_assoc, BitVec.or_comm PTE_P, ← BitVec.or_assoc]

theorem pgdirWalk_create (i : PageInv m K s own hand) (h : s.pgdir e = some pd) (hva : va < UTOP)
    {r : Option Slot} (hw : pgdirWalk m s pd va true = some (r, s')) :
    (r = none ∧ s' = s ∧ s.tableOf e (pdx va hva) = none ∧ s.pageFreeList = none) ∨
      ∃ pt, r = some (pt, PTX va) ∧ Walked m K own hand e (pdx va hva) pt s s' := by
  cases ht : s.tableOf e (pdx va hva)
  case some pt =>
    rw [i.tables.pgdirWalk_some h hva ht] at hw
    simp only [Option.some.injEq, Prod.mk.injEq] at hw
    obtain ⟨hr, hs⟩ := hw
    subst hs
    exact .inr ⟨pt, hr.symm, i, rfl, rfl, rfl, ht, fun _ => rfl, fun _ => rfl⟩
  case none =>
    have hz : PTE_ADDR (s.mem pd (PDX va)) = 0#32 :=
      (i.tables.pde_eq_zero_iff h (d := pdx va hva)).mpr ht
    simp only [pgdirWalk, hz, if_true, Bool.not_true, Bool.false_eq_true, if_false] at hw
    cases ha : Kern.pageAlloc s 1#32 with | mk o s₁ =>
    cases o
    case none =>
      obtain ⟨hs, hf⟩ := pageAlloc_eq_none ha
      simp only [ha, Option.some.injEq, Prod.mk.injEq] at hw
      exact .inl ⟨hw.left.symm, hw.right.symm.trans hs, rfl, hf⟩
    case some p =>
      have a := i.pageAlloc ha
      have hm : p ∈ p :: hand := List.mem_cons_self
      have hu (r) : s₁.target m r ≠ some p := a.inv.hand_unref hm r
      have hk : kaddr m p (PTX va) = some (p, PTX va) := if_pos (a.inv.hand_managed hm).lt_npages
      simp only [ha, hk, bind, Option.bind_some, Option.some.injEq, Prod.mk.injEq] at hw
      obtain ⟨hr, hs⟩ := hw
      let w := page2pa p ||| PTE_P ||| PTE_W ||| PTE_U
      -- The store and the count commute.
      have hs : (incRef s₁ p).store pd (pdx va hva) w = s' := hs
      have hp₁ : (incRef s₁ p).pgdir e = some pd := by
        simpa [State.pgdir, incRef, a.envs] using h
      have hd₁ : (incRef s₁ p).tableOf e (pdx va hva) = none :=
        (congrFun a.target (.table e (pdx va hva))).trans ht
      obtain ⟨i₂, hd₂, he₂, ht₂⟩ := a.inv.incRef_hand.install_table hp₁ hd₁
        (congrFun (a.zero (by decide))) hu (entryPage_pde (a.inv.hand_managed hm))
      have h0 := a.inv.hand_ppRef hm
      have hn : (incRef s₁ p).ppRef = update s₁.ppRef p (s₁.ppRef p + 1) :=
        incRef_ppRef (by rw [h0]; decide)
      subst hs
      refine .inr ⟨p, hr.symm, i₂, a.envs, a.envFreeList, he₂.trans a.entry, hd₂, ?_, ?_⟩
      · intro r hr
        exact (ht₂ hr).trans (congrFun a.target r)
      · intro r q hq
        have hne : q ≠ p := fun hc => hu r <| (congrFun a.target r).trans (hc ▸ hq)
        calc (incRef s₁ p).ppRef q = s₁.ppRef q := by rw [hn, update_of_ne hne]
          _ = s.ppRef q := congrFun a.ppRef q

section Remove

variable (i : PageInv m K s own hand) (h : s.pgdir e = some pd) (hva : va < UTOP)
include i h hva

theorem pageRemove_space (hr : pageRemove m s pd va = some s') :
    (s.tableOf e (pdx va hva) = none ∧ s' = s) ∨
      ∃ pt, s.tableOf e (pdx va hva) = some pt ∧ SameSpace (s.store pt (ptx va) 0#32) s' := by
  cases ht : s.tableOf e (pdx va hva)
  case none =>
    rw [i.tables.pageRemove_none h hva ht] at hr
    cases hr
    exact .inl ⟨rfl, rfl⟩
  case some pt =>
    rw [i.tables.pageRemove_some h hva ht, Option.bind_eq_some_iff] at hr
    obtain ⟨p, _, hd⟩ := hr
    exact .inr ⟨pt, rfl, .pageDecref hd⟩

theorem pageRemove_entry (hr : pageRemove m s pd va = some s') :
    s'.entry = setEntry s.entry e (pdx va hva) (ptx va) 0#32 := by
  cases i.pageRemove_space h hva hr
  case inl hs =>
    obtain ⟨ht, hs⟩ := hs
    rw [hs, setEntry_eq_self (entry_eq_zero ht)]
  case inr hs =>
    obtain ⟨pt, ht, hs⟩ := hs
    rw [hs.entry]
    funext e' d' t'
    exact entry_store_pte i.unique ht

theorem pageRemove_frame (hr : pageRemove m s pd va = some s') : Frame e s s' := by
  refine ⟨?_, ?_, fun hne => ?_⟩
  case refine_3 => rw [i.pageRemove_entry h hva hr, setEntry_of_ne hne]
  all_goals
    cases i.pageRemove_space h hva hr
    case inl hs => rw [hs.right]
    case inr hs =>
      obtain ⟨_, _, hs⟩ := hs
      first | exact hs.envs | exact hs.envFreeList

-- No reference appears.
theorem pageRemove_target (hr : pageRemove m s pd va = some s') {r : Ref}
    (ht : s'.target m r = some p) : s.target m r = some p := by
  cases i.pageRemove_space h hva hr
  case inl hs => rwa [hs.right] at ht
  case inr hs =>
    obtain ⟨pt, hpt, hs⟩ := hs
    rw [hs.target, target_store_pte i.unique hpt (i.tableOf_managed hpt).ne_kernPgdir] at ht
    by_cases hr : r = .pte e (pdx va hva) (ptx va)
    · rw [hr, update_self, entryPage_zero] at ht
      cases ht
    · rwa [update_of_ne hr] at ht

theorem pageRemove_tableOf (hr : pageRemove m s pd va = some s') : s'.tableOf = s.tableOf := by
  cases i.pageRemove_space h hva hr
  case inl hs => rw [hs.right]
  case inr hs =>
    obtain ⟨pt, hpt, hs⟩ := hs
    rw [hs.tableOf]
    funext e' d'
    exact tableOf_store_pte i.unique hpt

-- On an empty slot `page_remove` counts page 0 down. It must not come to free that page.
theorem pageRemove (hr : pageRemove m s pd va = some s')
    (hg : s.tableOf e (pdx va hva) ≠ none → s.entry e (pdx va hva) (ptx va) = 0#32 →
      (s.pages 0).ppRef ≠ 1#16) : PageInv m K s' own hand := by
  cases ht : s.tableOf e (pdx va hva)
  case none =>
    rw [i.tables.pageRemove_none h hva ht] at hr
    cases hr
    exact i
  case some pt =>
    rw [i.tables.pageRemove_some h hva ht, Option.bind_eq_some_iff] at hr
    obtain ⟨p, hp, hd⟩ := hr
    have hpn : p = PGNUM (s.entry e (pdx va hva) (ptx va)) := by
      simp only [pa2page, PGNUM_PTE_ADDR, Option.ite_none_right_eq_some, Option.some.injEq] at hp
      exact hp.right.symm
    cases hpr : present (s.entry e (pdx va hva) (ptx va))
    case true =>
      have htgt : s.target m (.pte e (pdx va hva) (ptx va)) = some p :=
        entryPage_eq_some.mpr ⟨hpr, hpn.symm⟩
      exact (i.unmap_pte ht htgt).pageDecref hd
    case false =>
      have h0 := i.zeroPte hpr
      have hp0 : p = 0 := by rw [hpn, h0]; rfl
      rw [hp0] at hd
      exact (i.zero_pte ht h0).decref_unmanaged hd (·.ne_zero rfl) (hg (by simp [ht]) h0)

end Remove

section Insert

variable (i : PageInv m K s own hand) (h : s.pgdir e = some pd) (hva : va < UTOP)
include i h hva

-- The two outcomes of `page_insert`: no page table could be allocated, or the entry was written,
-- after `page_remove` if it was in use.
theorem pageInsert_cases {r : Word} (hr : pageInsert m s pd p va perm = some (r, s')) :
    (r = err E_NO_MEM ∧ s' = s ∧ s.tableOf e (pdx va hva) = none ∧ s.pageFreeList = none) ∨
      ∃ pt s₁ s₂, r = 0#32 ∧ Walked m K own hand e (pdx va hva) pt s s₁ ∧
        (if present (s₁.entry e (pdx va hva) (ptx va)) then
          Kern.pageRemove m (incRef s₁ p) pd va else some (incRef s₁ p)) = some s₂ ∧
        s' = s₂.store pt (ptx va) (page2pa p ||| perm ||| PTE_P) := by
  simp only [pageInsert, Option.bind_eq_bind, Option.bind_eq_some_iff, Prod.exists] at hr
  obtain ⟨slot, s₁, hw, hx⟩ := hr
  cases i.pgdirWalk_create h hva hw
  case inl hn =>
    obtain ⟨hs, hs₁, ht, hf⟩ := hn
    simp only [hs, Option.some.injEq, Prod.mk.injEq] at hx
    exact .inl ⟨hx.left.symm, hx.right.symm.trans hs₁, ht, hf⟩
  case inr hn =>
    obtain ⟨pt, hs, w⟩ := hn
    have hpte : (incRef s₁ p).pte (pt, PTX va) = s₁.entry e (pdx va hva) (ptx va) :=
      (entry_eq (t := ptx va) w.tableOf).symm
    simp only [hs, hpte] at hx
    split at hx
    all_goals
      rename_i hp
      obtain ⟨s₂, hs₂, h₂⟩ := Option.bind_eq_some_iff.mp hx
      simp only [Option.some.injEq, Prod.mk.injEq] at h₂
      exact .inr ⟨pt, s₁, s₂, h₂.left.symm, w, by simpa [hp] using hs₂, h₂.right.symm⟩

-- The pages and counters apart, `page_insert` writes one entry.
theorem pageInsert_space {r : Word} (hr : pageInsert m s pd p va perm = some (r, s')) :
    (r = err E_NO_MEM ∧ s' = s ∧ s.tableOf e (pdx va hva) = none ∧ s.pageFreeList = none) ∨
      ∃ pt s₁, r = 0#32 ∧ Walked m K own hand e (pdx va hva) pt s s₁ ∧
        SameSpace (s₁.store pt (ptx va) (page2pa p ||| perm ||| PTE_P)) s' := by
  cases i.pageInsert_cases h hva hr
  case inl hn => exact .inl hn
  case inr hn =>
    obtain ⟨pt, s₁, s₂, hr, w, hs₂, hs'⟩ := hn
    refine .inr ⟨pt, s₁, hr, w, ?_⟩
    rw [hs']
    split at hs₂
    case isFalse =>
      cases hs₂
      exact SameSpace.incRef.store
    case isTrue =>
      have ht : (incRef s₁ p).tableOf e (pdx va hva) = some pt := w.tableOf
      have hp : (incRef s₁ p).pgdir e = some pd := by
        simpa [State.pgdir, incRef, w.envs] using h
      have i₁ := w.inv.tables.congr (SameSpace.incRef (p := p))
      rw [i₁.pageRemove_some hp hva ht, Option.bind_eq_some_iff] at hs₂
      obtain ⟨_, _, hd⟩ := hs₂
      exact (SameSpace.store_store.trans SameSpace.incRef.store.store).trans (SameSpace.pageDecref hd).store

theorem pageInsert_entry {r : Word} (hr : pageInsert m s pd p va perm = some (r, s')) :
    s'.entry = if r = 0#32 then
      setEntry s.entry e (pdx va hva) (ptx va) (page2pa p ||| perm ||| PTE_P) else s.entry := by
  cases i.pageInsert_space h hva hr
  case inl hn =>
    rw [hn.left, hn.right.left]
    rfl
  case inr hn =>
    obtain ⟨pt, s₁, h0, w, hs⟩ := hn
    rw [if_pos h0, hs.entry, ← w.entry]
    funext e' d' t'
    exact entry_store_pte w.inv.unique w.tableOf

theorem pageInsert_frame {r : Word} (hr : pageInsert m s pd p va perm = some (r, s')) :
    Frame e s s' := by
  have he := i.pageInsert_entry h hva hr
  cases i.pageInsert_space h hva hr
  case inl hn => rw [hn.right.left]; exact .refl
  case inr hn =>
    obtain ⟨pt, s₁, h0, w, hs⟩ := hn
    refine ⟨hs.envs.trans w.envs, hs.envFreeList.trans w.envFreeList, fun hne => ?_⟩
    rw [he, if_pos h0, setEntry_of_ne hne]

variable (hperm : PGNUM perm = 0)
include hperm

-- The page is mapped with its new reference already counted in `s₁`.
omit i in
theorem pageInsert_counted {s₁ s₂ : State} (w : Walked m K own hand e (pdx va hva) pt s s₁)
    {hand' : List Nat} (i₁ : PageInv m K (incRef s₁ p) (p :: own) hand')
    (hn : ∀ {r}, r.IsTable → s₁.target m r ≠ some p)
    (hs : (if present (s₁.entry e (pdx va hva) (ptx va)) then
      Kern.pageRemove m (incRef s₁ p) pd va else some (incRef s₁ p)) = some s₂) :
    PageInv m K (s₂.store pt (ptx va) (page2pa p ||| perm ||| PTE_P)) own hand' := by
  have hp : (incRef s₁ p).pgdir e = some pd := by
    simpa [State.pgdir, incRef, w.envs] using h
  have hw := entryPage_mk (i₁.own_managed List.mem_cons_self).lt hperm
  split at hs
  case isFalse hpr =>
    cases hs
    exact i₁.map_pte w.tableOf (w.inv.zeroPte (by simpa using hpr)) hw hn
  case isTrue hpr =>
    have hg (_ : (incRef s₁ p).tableOf e (pdx va hva) ≠ none)
        (hz : (incRef s₁ p).entry e (pdx va hva) (ptx va) = 0#32) :
        ((incRef s₁ p).pages 0).ppRef ≠ 1#16 := by
      have hz : s₁.entry e (pdx va hva) (ptx va) = 0#32 := hz
      simp [hz] at hpr
    have i₂ := i₁.pageRemove hp hva hs hg
    have ht : s₂.tableOf e (pdx va hva) = some pt := by
      rw [i₁.pageRemove_tableOf hp hva hs]
      exact w.tableOf
    have h0 : s₂.entry e (pdx va hva) (ptx va) = 0#32 := by
      rw [i₁.pageRemove_entry hp hva hs, setEntry_self]
    exact i₂.map_pte ht h0 hw fun hr hc => hn hr (i₁.pageRemove_target hp hva hs hc)

-- Mapping a page that was just allocated.
omit i in
theorem pageInsert_hand {hand : List Nat} (i : PageInv m K s own (p :: hand))
    (hr : pageInsert m s pd p va perm = some (0#32, s')) : PageInv m K s' own hand := by
  cases i.pageInsert_cases h hva hr
  case inl hn => exact absurd hn.left (by decide)
  case inr hn =>
    obtain ⟨pt, s₁, s₂, _, w, hs₂, hs'⟩ := hn
    rw [hs']
    refine pageInsert_counted h hva hperm w w.inv.incRef_hand ?_ hs₂
    exact fun _ => w.inv.hand_unref List.mem_cons_self _

-- Mapping a page again where it is already mapped only replaces the permissions.
theorem pageInsert_same (hr : pageInsert m s pd p va perm = some (0#32, s'))
    (ht : s.target m (.pte e (pdx va hva) (ptx va)) = some p) : PageInv m K s' own hand := by
  cases i.pageInsert_cases h hva hr
  case inl hn => exact absurd hn.left (by decide)
  case inr hn =>
    obtain ⟨pt, s₁, s₂, _, w, hs₂, hs'⟩ := hn
    have ht₁ : s₁.target m (.pte e (pdx va hva) (ptx va)) = some p :=
      (w.target (by simp)).trans ht
    obtain ⟨hpr, hpg⟩ := entryPage_eq_some.mp ht₁
    have hmp := w.inv.target_managed ht₁
    have hp : (incRef s₁ p).pgdir e = some pd := by
      simpa [State.pgdir, incRef, w.envs] using h
    have i₁ := w.inv.tables.congr (SameSpace.incRef (p := p))
    have hlook : pa2page m (PTE_ADDR ((incRef s₁ p).entry e (pdx va hva) (ptx va))) = some p := by
      have hpg : PGNUM ((incRef s₁ p).entry e (pdx va hva) (ptx va)) = p := hpg
      simp [pa2page, PGNUM_PTE_ADDR, hpg, hmp.lt_npages]
    rw [if_pos hpr, i₁.pageRemove_some hp hva w.tableOf, hlook, Option.bind_some] at hs₂
    -- The counter goes up and down again.
    have hcnt : (s₁.pages p).ppRef ≠ 0#16 := by
      obtain ⟨_, _, b⟩ := w.inv.refs
      have := b.cnt_pos ht₁
      intro hc
      simp [State.ppRef, hc] at this
    have hpages : (decRef ((incRef s₁ p).store pt (ptx va) 0#32) p).pages = s₁.pages := by
      simp [decRef, incRef, BitVec.add_sub_cancel]
    have hs₂ : decRef ((incRef s₁ p).store pt (ptx va) 0#32) p = s₂ := by
      simpa [Kern.pageDecref, hpages, hcnt] using hs₂
    have hw := entryPage_mk hmp.lt hperm
    have i₃ : PageInv m K (s₁.store pt (ptx va) (page2pa p ||| perm ||| PTE_P)) own hand := by
      refine w.inv.store_pte w.tableOf ?_ ?_ ?_
      · simp [(entryPage_eq_some.mp hw).left]
      · intro q r hq hr hc
        rw [hw] at hq
        cases hq
        have := w.inv.unique hr hc ht₁
        rw [← this] at hr
        exact hr
      · intro fl b
        rw [hw, ← ht₁, update_eq_self]
        exact b
    have hsp : SameSpace (s₁.store pt (ptx va) (page2pa p ||| perm ||| PTE_P)) s' := by
      rw [hs', ← hs₂]
      exact SameSpace.store_store.trans (SameSpace.store ⟨rfl, rfl, rfl⟩)
    refine i₃.congr s' hsp.mem hsp.pgdir ?_
    have hpg' : s'.pages = s₁.pages := by
      rw [hs', ← hs₂]
      exact hpages
    have hl : s'.ppLink = s₁.ppLink := by
      funext q
      simp [State.ppLink, hpg']
    have hc : s'.ppRef = s₁.ppRef := by
      funext q
      simp [State.ppRef, hpg']
    have hf : s'.pageFreeList = s₁.pageFreeList := by
      rw [hs', ← hs₂]
      rfl
    rw [hl, hc, hf]
    exact i₃.refs

-- Mapping a page that is already mapped somewhere else.
theorem pageInsert_shared (hr : pageInsert m s pd p va perm = some (0#32, s'))
    {e' : EnvPtr} {d : Fin UTOPX} {t : Fin NPDENTRIES} (ht : s.target m (.pte e' d t) = some p)
    (hg : (s.pages p).ppRef = 0xFFFF#16 → s.target m (.pte e (pdx va hva) (ptx va)) = some p) :
    PageInv m K s' own hand := by
  by_cases ho : (s.pages p).ppRef = 0xFFFF#16
  case pos => exact i.pageInsert_same h hva hperm hr (hg ho)
  case neg =>
    cases i.pageInsert_cases h hva hr
    case inl hn => exact absurd hn.left (by decide)
    case inr hn =>
      obtain ⟨pt, s₁, s₂, _, w, hs₂, hs'⟩ := hn
      have ht₁ : s₁.target m (.pte e' d t) = some p := (w.target (by simp)).trans ht
      have ho₁ : (s₁.pages p).ppRef ≠ 0xFFFF#16 := fun hc =>
        ho <| BitVec.eq_of_toNat_eq <| (w.ppRef ht).symm.trans <| congrArg BitVec.toNat hc
      rw [hs']
      refine pageInsert_counted h hva hperm w (w.inv.incRef_target ht₁ ho₁) ?_ hs₂
      intro r hr hc
      have := w.inv.unique hr hc ht₁
      rw [← this] at hr
      exact hr

end Insert

end PageInv

end Kern

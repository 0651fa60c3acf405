import Sisop.Kern.Pse
import Sisop.Kern.Sample
import Sisop.Library.While
import Sisop.Kern.Theorems.PageList

-- What `boot_map_region` maps, with large pages and without.

namespace Kern.Pse

open Inc Function Library State

variable {m : Machine} {s s₁ s' : State} {pgdir p pt n k : Nat} {va va' pa perm w size : Word} {slot : Slot}

-- The page table that an entry of the directory refers to.
def table (s : State) (pgdir d : Nat) : Option Nat :=
  let pde := s.mem pgdir d
  if present pde ∧ pde &&& PTE_PS = 0#32 then some (PGNUM pde) else none

-- The present entry that maps `va`, and whether it is one of the directory, for a large page.
def leaf (s : State) (pgdir : Nat) (va : Word) : Option (Bool × Word) :=
  let pde := s.mem pgdir (PDX va)
  if !present pde then none
  else if pde &&& PTE_PS ≠ 0#32 then some (true, pde)
  else
    let pte := s.mem (PGNUM pde) (PTX va)
    if present pte then some (false, pte) else none

def leafAddr (va : Word) (e : Bool × Word) : Word :=
  if e.1 then PGADDR (PDX e.2) (PTX va) (PGOFF va) else PTE_ADDR e.2

-- The permission bits of an entry: the low 12 but for `PTE_PS`.
def permBits (e : Bool × Word) : Word := e.2 &&& 0xF7F#32

-- The permissions at `va`, which are 0 where nothing is mapped.
def perms (s : State) (pgdir : Nat) (va : Word) : Word := ((leaf s pgdir va).map permBits).getD 0#32

-- A page directory with its page tables, some of whose entries may be for large pages. The directory may
-- also refer to itself, as `kern_pgdir` does at `UVPT`.
structure PageDir (m : Machine) (s : State) (pgdir : Nat) : Prop where
  free   : ∃ fl, FreeList s fl ∧ ∀ p ∈ fl, p ≠ 0 ∧ p < m.npages ∧ p ≠ pgdir ∧
    ∀ d < 1024, table s pgdir d ≠ some p
  lt     : ∀ {d pt}, d < 1024 → table s pgdir d = some pt → pt < m.npages
  unique : ∀ {d d' pt}, d < 1024 → d' < 1024 → table s pgdir d = some pt → table s pgdir d' = some pt →
    d = d' ∨ pt = pgdir
  zero   : ∀ {d}, d < 1024 → present (s.mem pgdir d) = false → s.mem pgdir d = 0#32
  addr   : ∀ {d pt}, d < 1024 → table s pgdir d = some pt → pt ≠ 0

-- `va` is in the window in which the directory shows its page tables.
def InWindow (s : State) (pgdir : Nat) (va : Word) : Prop := table s pgdir (PDX va) = some pgdir

section Bits

theorem PTE_ADDR_or {x y : Word} : PTE_ADDR (x ||| y) = PTE_ADDR x ||| PTE_ADDR y :=
  BitVec.and_or_distrib_right

theorem PTE_ADDR_low (h : w.toNat < 4096) : PTE_ADDR w = 0#32 :=
  BitVec.eq_of_toNat_eq (by rw [PTE_ADDR_toNat]; simp; omega)

theorem PGNUM_low (h : w.toNat < 4096) : PGNUM w = 0 := by
  rw [PGNUM_eq_div]
  omega

theorem PDX_eq_PGNUM : PDX w = PGNUM w / 1024 := by
  rw [PDX_eq_div, PGNUM_eq_div]
  omega

theorem present_mk : present (w ||| perm ||| PTE_P) = true := present_or_PTE_P

-- The entry for a small page: where it leads, and its permissions.
theorem small_addr (h : pa.toNat % 4096 = 0) (hp : perm.toNat < 4096) :
    PTE_ADDR (pa ||| perm ||| PTE_P) = pa := by
  rw [PTE_ADDR_or, PTE_ADDR_or, PTE_ADDR_aligned h, PTE_ADDR_low hp, PTE_ADDR_low (by decide)]
  simp

theorem small_perms (h : pa.toNat % 4096 = 0) :
    (pa ||| perm ||| PTE_P) &&& 0xF7F#32 = (perm ||| PTE_P) &&& 0xF7F#32 := by
  rw [BitVec.or_assoc, BitVec.and_or_distrib_right, and_aligned h (by decide), BitVec.zero_or]

-- The entry for a large page.
theorem large_present : present (pa ||| PTE_P ||| PTE_PS ||| perm) = true := by
  have he : pa ||| PTE_P ||| PTE_PS ||| perm = pa ||| PTE_PS ||| perm ||| PTE_P := by ac_rfl
  rw [he]
  exact present_or_PTE_P

theorem large_PS : (pa ||| PTE_P ||| PTE_PS ||| perm) &&& PTE_PS ≠ 0#32 := by
  intro hc
  have := congrArg (·[7]) hc
  simp [PTE_PS] at this

theorem large_PDX (h : pa.toNat % 4194304 = 0) (hp : perm.toNat < 4096) :
    PDX (pa ||| PTE_P ||| PTE_PS ||| perm) = pa.toNat / 4194304 := by
  have hP : PGNUM PTE_P = 0 := by decide
  have hS : PGNUM PTE_PS = 0 := by decide
  rw [PDX_eq_PGNUM, PGNUM_or, PGNUM_or, PGNUM_or, PGNUM_low hp, hP, hS, PGNUM_eq_div]
  simp only [Nat.or_zero]
  omega

theorem large_perms (h : pa.toNat % 4096 = 0) :
    (pa ||| PTE_P ||| PTE_PS ||| perm) &&& 0xF7F#32 = (perm ||| PTE_P) &&& 0xF7F#32 := by
  have hS : PTE_PS &&& 0xF7F#32 = 0#32 := by decide
  rw [BitVec.and_or_distrib_right, BitVec.and_or_distrib_right, BitVec.and_or_distrib_right, BitVec.and_or_distrib_right, and_aligned h (by decide), hS, BitVec.zero_or, BitVec.or_zero, BitVec.or_comm]

theorem PTE_ADDR_PGADDR {d : Nat} (hd : d < 1024) :
    (PTE_ADDR (PGADDR d (PTX va) (PGOFF va))).toNat = d * 4194304 + va.toNat / 4096 % 1024 * 4096 := by
  have he : PGADDR d (PTX va) (PGOFF va) = PGADDR d (PTX va) 0#32 ||| PGOFF va := by
    simp [PGADDR]
  have hn := PGADDR_toNat (t := PTX va) hd PTX_lt
  have ho : (PGOFF va).toNat < 4096 := by
    rw [PGOFF_toNat]
    exact Nat.mod_lt _ (by decide)
  rw [he, PTE_ADDR_or, PTE_ADDR_low ho, BitVec.or_zero, PTE_ADDR_aligned (by rw [hn]; omega), hn, PTX_eq_mod]

end Bits

section Leaf

theorem leaf_none (h : s.mem pgdir (PDX va) = 0#32) : leaf s pgdir va = none := by
  simp [leaf, h]

theorem leaf_table (h : table s pgdir (PDX va) = some pt) :
    leaf s pgdir va = if present (s.mem pt (PTX va)) then some (false, s.mem pt (PTX va)) else none := by
  simp only [table, Option.ite_none_right_eq_some, Option.some.injEq] at h
  obtain ⟨⟨hp, hs⟩, rfl⟩ := h
  simp [leaf, hp, hs]

theorem leaf_congr (h : s'.mem pgdir (PDX va) = s.mem pgdir (PDX va))
    (ht : ∀ pt, table s pgdir (PDX va) = some pt → s'.mem pt (PTX va) = s.mem pt (PTX va)) :
    leaf s' pgdir va = leaf s pgdir va := by
  simp only [leaf, h]
  split
  case isTrue => rfl
  case isFalse hp =>
    split
    case isTrue => rfl
    case isFalse hs =>
      have htab : table s pgdir (PDX va) = some (PGNUM (s.mem pgdir (PDX va))) :=
        if_pos ⟨by simpa using hp, not_not.mp hs⟩
      rw [ht _ htab]

-- `check_va2pa` follows the entries.
theorem PageDir.checkVa2pa_eq (D : PageDir m s pgdir) :
    checkVa2pa m s pgdir va = some (((leaf s pgdir va).map (leafAddr va)).getD (~~~0#32)) := by
  simp only [checkVa2pa, leaf]
  split
  case isTrue => rfl
  case isFalse hp =>
    split
    case isTrue => simp [leafAddr]
    case isFalse hs =>
      have htab : table s pgdir (PDX va) = some (PGNUM (s.mem pgdir (PDX va))) :=
        if_pos ⟨by simpa using hp, not_not.mp hs⟩
      have hk : kaddr m (PGNUM (s.mem pgdir (PDX va))) (PTX va) =
          some (PGNUM (s.mem pgdir (PDX va)), PTX va) := if_pos (D.lt PDX_lt htab)
      rw [hk]
      cases hq : present (s.mem (PGNUM (s.mem pgdir (PDX va))) (PTX va)) <;> simp [State.pte, hq, leafAddr]

theorem table_congr {d : Nat} (h : s'.mem pgdir d = s.mem pgdir d) : table s' pgdir d = table s pgdir d := by
  simp only [table, h]

theorem PageDir.congr (D : PageDir m s pgdir) (hm : s'.mem pgdir = s.mem pgdir)
    (hf : ∀ fl, FreeList s fl → FreeList s' fl) : PageDir m s' pgdir := by
  have ht : table s' pgdir = table s pgdir := funext fun d => table_congr (congrFun hm d)
  obtain ⟨fl, hfl, hp⟩ := D.free
  refine ⟨⟨fl, hf fl hfl, ?_⟩, ?_, ?_, ?_, ?_⟩
  · rw [ht]
    exact hp
  · rw [ht]
    exact D.lt
  · rw [ht]
    exact D.unique
  · rw [hm]
    exact D.zero
  · rw [ht]
    exact D.addr

-- One entry of the directory is changed, for a page table that is not in use or for a large page.
theorem PageDir.setEntry {d₀ : Nat} {o : Option Nat} (D : PageDir m s pgdir)
    (ht : table s' pgdir d₀ = o) (hm : ∀ d, d ≠ d₀ → s'.mem pgdir d = s.mem pgdir d)
    (hfree : ∃ fl, FreeList s' fl ∧ ∀ p ∈ fl, (p ≠ 0 ∧ p < m.npages ∧ p ≠ pgdir ∧
      ∀ d < 1024, table s pgdir d ≠ some p) ∧ o ≠ some p)
    (ho : ∀ pt, o = some pt → pt < m.npages ∧ pt ≠ 0 ∧ ∀ d < 1024, table s pgdir d ≠ some pt)
    (hz : present (s'.mem pgdir d₀) = true) : PageDir m s' pgdir := by
  have other : ∀ {d}, d ≠ d₀ → table s' pgdir d = table s pgdir d := fun hd => table_congr (hm _ hd)
  obtain ⟨fl, hfl, hp⟩ := hfree
  refine ⟨⟨fl, hfl, fun p hmem => ?_⟩, fun {d pt} hd h => ?_, fun {d d' pt} hd hd' h h' => ?_,
    fun {d} hd h => ?_, fun {d pt} hd h => ?_⟩
  · obtain ⟨⟨h₀, h₁, h₂, h₃⟩, hne⟩ := hp p hmem
    refine ⟨h₀, h₁, h₂, fun d hd => ?_⟩
    by_cases hdd : d = d₀
    · rw [hdd, ht]
      exact hne
    · rw [other hdd]
      exact h₃ d hd
  · by_cases hdd : d = d₀
    · exact (ho pt (ht.symm.trans (hdd ▸ h))).left
    · exact D.lt hd (other hdd ▸ h)
  · by_cases hdd : d = d₀
    · by_cases hdd' : d' = d₀
      · exact .inl (hdd.trans hdd'.symm)
      · exact absurd (other hdd' ▸ h') ((ho pt (ht.symm.trans (hdd ▸ h))).right.right d' hd')
    · by_cases hdd' : d' = d₀
      · exact absurd (other hdd ▸ h) ((ho pt (ht.symm.trans (hdd' ▸ h'))).right.right d hd)
      · exact D.unique hd hd' (other hdd ▸ h) (other hdd' ▸ h')
  · by_cases hdd : d = d₀
    · subst hdd
      rw [hz] at h
      cases h
    · rw [hm d hdd] at h ⊢
      exact D.zero hd h
  · by_cases hdd : d = d₀
    · exact (ho pt (ht.symm.trans (hdd ▸ h))).right.left
    · exact D.addr hd (other hdd ▸ h)

end Leaf

section Walk

theorem pageAlloc_zero (h : pageAlloc s 1#32 = (some p, s₁)) :
    s₁.mem = update s.mem p fun _ => 0#32 := by
  simp only [Kern.pageAlloc] at h
  cases hp : s.pageFreeList
  case none   => simp [hp] at h
  case some q =>
    simp only [hp, Prod.mk.injEq, Option.some.injEq] at h
    obtain ⟨rfl, rfl⟩ := h
    rfl

theorem pde_bits (hp : p < 2 ^ 20) : present (page2pa p ||| PTE_P ||| PTE_W ||| PTE_U) = true ∧
    (page2pa p ||| PTE_P ||| PTE_W ||| PTE_U) &&& PTE_PS = 0#32 ∧
    PGNUM (page2pa p ||| PTE_P ||| PTE_W ||| PTE_U) = p := by
  have he : page2pa p ||| PTE_P ||| PTE_W ||| PTE_U = page2pa p ||| (PTE_W ||| PTE_U) ||| PTE_P := by
    ac_rfl
  have hpage : entryPage (page2pa p ||| (PTE_W ||| PTE_U) ||| PTE_P) = some p := entryPage_mk hp (by decide)
  have hlow : (page2pa p).toNat % 4096 = 0 := by
    rw [page2pa, BitVec.toNat_shiftLeft, Nat.shiftLeft_eq]
    omega
  rw [he]
  refine ⟨(entryPage_eq_some.mp hpage).left, ?_, (entryPage_eq_some.mp hpage).right⟩
  rw [BitVec.or_assoc, BitVec.and_or_distrib_right, and_aligned hlow (by decide)]
  decide

-- What `pgdir_walk` leaves when it finds or makes the page table `pt` for `va`.
structure Walked (m : Machine) (pgdir : Nat) (va : Word) (pt : Nat) (s s' : State) : Prop where
  dir    : PageDir m s' pgdir
  table  : table s' pgdir (PDX va) = some pt
  ne     : pt ≠ pgdir
  window : ∀ va', InWindow s' pgdir va' ↔ InWindow s pgdir va'
  leaf   : ∀ va', ¬InWindow s pgdir va' → leaf s' pgdir va' = leaf s pgdir va'

theorem PageDir.newTable (D : PageDir m s pgdir) (ha : pageAlloc s 1#32 = (some p, s₁))
    (h0 : s.mem pgdir (PDX va) = 0#32) : p < m.npages ∧ Walked m pgdir va p s
      (incRef (s₁.store pgdir (PDX va) (page2pa p ||| PTE_P ||| PTE_W ||| PTE_U)) p) := by
  obtain ⟨fl, hfl, hp⟩ := D.free
  obtain ⟨l, rfl, hn, hl⟩ := hfl.pageAlloc ha
  obtain ⟨hp0, hlt, hpd, htab⟩ := hp p List.mem_cons_self
  have hbits := pde_bits (p := p) (by have := m.npages_le; omega)
  obtain ⟨w, hw⟩ : ∃ w, w = page2pa p ||| PTE_P ||| PTE_W ||| PTE_U := ⟨_, rfl⟩
  rw [← hw] at hbits ⊢
  obtain ⟨s', hs'⟩ : ∃ s', s' = incRef (s₁.store pgdir (PDX va) w) p := ⟨_, rfl⟩
  rw [← hs']
  have hmem : s'.mem = update (update s.mem p fun _ => 0#32) pgdir (update (s.mem pgdir) (PDX va) w) := by
    rw [hs', ← pageAlloc_zero ha]
    have hpg : s₁.mem pgdir = s.mem pgdir := by
      rw [pageAlloc_zero ha]
      exact update_of_ne hpd.symm _ _
    simp only [incRef, State.setPage_mem, State.store, hpg]
  have hself : s'.mem pgdir (PDX va) = w := by rw [hmem]; simp
  have hother : ∀ d, d ≠ PDX va → s'.mem pgdir d = s.mem pgdir d := fun d hd => by rw [hmem]; simp [hd]
  have hzero : s'.mem p = fun _ => 0#32 := by rw [hmem, update_of_ne hpd, update_self]
  have hrest : ∀ {q}, q ≠ p → q ≠ pgdir → s'.mem q = s.mem q := fun h₁ h₂ => by
    rw [hmem, update_of_ne h₂, update_of_ne h₁]
  have ht : table s' pgdir (PDX va) = some p := by
    rw [table, hself, if_pos ⟨hbits.left, hbits.right.left⟩, hbits.right.right]
  have ht0 : table s pgdir (PDX va) = none := by simp [table, h0]
  refine ⟨hlt, ?_, ht, hpd, fun va' => ?_, fun va' hv => ?_⟩
  · refine D.setEntry ht hother ⟨l, ?_, fun q hq => ⟨hp q (List.mem_cons_of_mem _ hq), ?_⟩⟩ ?_
      (hself ▸ hbits.left)
    · rw [hs', FreeList, incRef_ppLink]
      exact hl
    · intro hc
      exact hn (Option.some.inj hc ▸ hq)
    · intro pt hpt
      cases hpt
      exact ⟨hlt, hp0, htab⟩
  · by_cases hd : PDX va' = PDX va
    · simp only [InWindow, hd, ht, ht0, Option.some.injEq]
      exact iff_of_false hpd (by simp)
    · simp only [InWindow, table_congr (hother _ hd)]
  · by_cases hd : PDX va' = PDX va
    · have hnone : Kern.Pse.leaf s pgdir va' = none := leaf_none (by rw [hd, h0])
      rw [hnone, leaf_table (hd ▸ ht), hzero]
      exact if_neg (by simp)
    · refine leaf_congr (hother _ hd) fun pt hpt => ?_
      have h₁ : pt ≠ p := fun hc => htab _ PDX_lt (hc ▸ hpt)
      have h₂ : pt ≠ pgdir := fun hc => hv (hc ▸ hpt)
      rw [hrest h₁ h₂]

theorem PageDir.walk (D : PageDir m s pgdir) (hv : ¬InWindow s pgdir va) (hl : leaf s pgdir va = none)
    (h : pgdirWalk m s pgdir va true = some (some slot, s')) :
    slot.2 = PTX va ∧ Walked m pgdir va slot.1 s s' := by
  have htab : present (s.mem pgdir (PDX va)) = true →
      table s pgdir (PDX va) = some (PGNUM (s.mem pgdir (PDX va))) := fun hp => by
    refine if_pos ⟨hp, ?_⟩
    by_contra hc
    simp [leaf, hp, hc] at hl
  simp only [pgdirWalk] at h
  split at h
  case isFalse hz =>
    simp only [kaddr, Option.bind_eq_bind, Option.bind_eq_some_iff, Option.some.injEq,
      Prod.mk.injEq, Option.ite_none_right_eq_some] at h
    obtain ⟨_, ⟨_, hs⟩, hs', hss⟩ := h
    subst hss hs
    have hp : present (s.mem pgdir (PDX va)) = true := by
      by_contra hc
      rw [D.zero PDX_lt (Bool.not_eq_true _ ▸ hc)] at hz
      exact hz (by decide)
    subst hs'
    exact ⟨rfl, D, htab hp, fun hc => hv ((htab hp).trans (congrArg some hc)), fun _ => Iff.rfl, fun _ _ => rfl⟩
  case isTrue hz =>
    simp only [Bool.not_true, Bool.false_eq_true, if_false] at h
    cases ha : pageAlloc s 1#32 with | mk o s₁ =>
    cases o
    case none => simp [ha] at h
    case some p =>
      have h0 : s.mem pgdir (PDX va) = 0#32 := by
        refine D.zero PDX_lt ?_
        by_contra hc
        exact D.addr PDX_lt (htab (Bool.not_eq_false _ ▸ hc)) (PTE_ADDR_eq_zero.mp hz)
      obtain ⟨hlt, k⟩ := D.newTable ha h0
      have hk : kaddr m p (PTX va) = some (p, PTX va) := if_pos hlt
      simp only [ha, hk, Option.bind_eq_bind, Option.bind_some, Option.some.injEq,
        Prod.mk.injEq] at h
      obtain ⟨rfl, rfl⟩ := h
      exact ⟨rfl, k⟩

-- A store to the page table that serves `va`.
theorem leaf_store (D : PageDir m s pgdir) (ht : table s pgdir (PDX va) = some pt) (hne : pt ≠ pgdir)
    (hw : present w = true) :
    leaf (s.store pt (PTX va) w) pgdir va' =
      if va'.toNat / 4096 = va.toNat / 4096 then some (false, w) else leaf s pgdir va' := by
  have hmem : (s.store pt (PTX va) w).mem pgdir = s.mem pgdir := store_mem_of_ne hne.symm
  by_cases hd : PDX va' = PDX va
  · have htab : table s pgdir (PDX va') = some pt := hd ▸ ht
    have htab' : table (s.store pt (PTX va) w) pgdir (PDX va') = some pt :=
      (table_congr (congrFun hmem _)).trans htab
    rw [leaf_table htab', leaf_table htab, store_mem_self, update_apply]
    have hiff : PTX va' = PTX va ↔ va'.toNat / 4096 = va.toNat / 4096 := by
      rw [PDX_eq_div, PDX_eq_div] at hd
      rw [PTX_eq_mod, PTX_eq_mod]
      omega
    by_cases hp : PTX va' = PTX va
    · simp only [if_pos hp, if_pos (hiff.mp hp), if_pos hw]
    · simp only [if_neg hp, if_neg fun hc => hp (hiff.mpr hc)]
  · have hpage : ¬va'.toNat / 4096 = va.toNat / 4096 := fun hc => hd <| by
      rw [PDX_eq_div, PDX_eq_div]
      omega
    rw [if_neg hpage]
    refine leaf_congr (congrFun hmem _) fun pt' hpt' => ?_
    have hpp : pt' ≠ pt := fun hc =>
      (D.unique PDX_lt PDX_lt (hc ▸ hpt') ht).elim hd fun hc => hne hc
    rw [store_mem_of_ne hpp]

end Walk

section Mapped

-- Where an entry leads for `va'` in a region at `va`, and with which permissions.
def Leads (va pa perm va' : Word) (e : Bool × Word) : Prop :=
  PTE_ADDR (leafAddr va' e) = PTE_ADDR (pa + (va' - va)) ∧ permBits e = (perm ||| PTE_P) &&& 0xF7F#32

def Inside (va : Word) (n : Nat) (va' : Word) : Prop :=
  va.toNat ≤ va'.toNat ∧ va'.toNat < va.toNat + n

-- The first `n` bytes of the region are mapped, and apart from the window nothing else has changed.
structure Mapped (m : Machine) (pgdir : Nat) (va pa perm : Word) (s : State) (n : Nat) (s' : State) :
    Prop where
  dir     : PageDir m s' pgdir
  window  : ∀ va', InWindow s' pgdir va' ↔ InWindow s pgdir va'
  inside  : ∀ va', Inside va n va' → ¬InWindow s pgdir va' →
    ∃ e, leaf s' pgdir va' = some e ∧ Leads va pa perm va' e
  outside : ∀ va', ¬Inside va n va' → ¬InWindow s pgdir va' → leaf s' pgdir va' = leaf s pgdir va'

theorem PageDir.mapped (D : PageDir m s pgdir) : Mapped m pgdir va pa perm s 0 s where
  dir         := D
  window  _   := Iff.rfl
  inside  _ h := absurd h.right (Nat.not_lt.mpr h.left)
  outside _   := fun _ _ => rfl

-- A region of which no address is mapped, or in the window.
def Unmapped (s : State) (pgdir : Nat) (va : Word) (n : Nat) : Prop :=
  ∀ va', Inside va n va' → leaf s pgdir va' = none ∧ ¬InWindow s pgdir va'

-- The next small page.
theorem Mapped.small (M : Mapped m pgdir va pa perm s n s₁) (hu : Unmapped s pgdir va (n + 4096))
    (hva : va.toNat % 4096 = 0) (hpa : pa.toNat % 4096 = 0) (hn : n % 4096 = 0)
    (hend : va.toNat + n + 4096 ≤ 4294967296) (hperm : perm.toNat < 4096)
    (h : bootMapPage m s₁ pgdir (va + BitVec.ofNat 32 n) (pa + BitVec.ofNat 32 n) perm = some s') :
    Mapped m pgdir va pa perm s (n + 4096) s' := by
  have hvn : (va + BitVec.ofNat 32 n).toNat = va.toNat + n := by
    rw [BitVec.toNat_add, BitVec.toNat_ofNat]
    omega
  have hpn : (pa + BitVec.ofNat 32 n).toNat % 4096 = 0 := by
    rw [BitVec.toNat_add, BitVec.toNat_ofNat]
    omega
  have ⟨hl, hv⟩ := hu (va + BitVec.ofNat 32 n) ⟨by omega, by omega⟩
  have hl₁ : leaf s₁ pgdir (va + BitVec.ofNat 32 n) = none :=
    (M.outside _ (fun hc => by have := hc.right; omega) hv).trans hl
  simp only [Kern.bootMapPage, Option.bind_eq_bind, Option.bind_eq_some_iff, Prod.exists] at h
  obtain ⟨o, s₂, hw, hx⟩ := h
  cases o
  case none => cases hx
  case some slot =>
    cases hx
    obtain ⟨hs, k⟩ := M.dir.walk (fun hc => hv ((M.window _).mp hc)) hl₁ hw
    rw [hs]
    have hstore : ∀ {va'}, ¬InWindow s pgdir va' → leaf (s₂.store slot.1 (PTX (va + BitVec.ofNat 32 n))
        (pa + BitVec.ofNat 32 n ||| perm ||| PTE_P)) pgdir va' =
          if va'.toNat / 4096 = (va + BitVec.ofNat 32 n).toNat / 4096 then
            some (false, pa + BitVec.ofNat 32 n ||| perm ||| PTE_P) else leaf s₁ pgdir va' := fun hv' => by
      rw [leaf_store k.dir k.table k.ne present_mk, k.leaf _ fun hc => hv' ((M.window _).mp hc)]
    have hmem : (s₂.store slot.1 (PTX (va + BitVec.ofNat 32 n))
        (pa + BitVec.ofNat 32 n ||| perm ||| PTE_P)).mem pgdir = s₂.mem pgdir := store_mem_of_ne k.ne.symm
    refine ⟨k.dir.congr hmem fun _ hfl => hfl, fun va' => ?_, fun va' hi hv' => ?_, fun va' hi hv' => ?_⟩
    · rw [InWindow, table_congr (congrFun hmem _)]
      exact (k.window va').trans (M.window va')
    · rw [hstore hv']
      by_cases hp : va'.toNat / 4096 = (va + BitVec.ofNat 32 n).toNat / 4096
      · rw [if_pos hp]
        refine ⟨_, rfl, ?_, small_perms hpn⟩
        show PTE_ADDR (PTE_ADDR _) = _
        rw [small_addr hpn hperm, PTE_ADDR_aligned hpn]
        apply BitVec.eq_of_toNat_eq
        have hlo := hi.left
        rw [PTE_ADDR_toNat, BitVec.toNat_add, BitVec.toNat_add, BitVec.toNat_sub_of_le hi.left,
          BitVec.toNat_ofNat]
        omega
      · rw [if_neg hp]
        refine M.inside va' ⟨hi.left, ?_⟩ hv'
        have := hi.right
        have := hi.left
        omega
    · have hp : ¬va'.toNat / 4096 = (va + BitVec.ofNat 32 n).toNat / 4096 := fun hc =>
        hi ⟨by omega, by omega⟩
      rw [hstore hv', if_neg hp]
      exact M.outside va' (fun hc => hi ⟨hc.left, by have := hc.right; omega⟩) hv'

-- The next large page.
theorem Mapped.large (M : Mapped m pgdir va pa perm s n s₁) (hu : Unmapped s pgdir va (n + 4194304))
    (hva : (va.toNat + n) % 4194304 = 0) (hpa : (pa + BitVec.ofNat 32 n).toNat % 4194304 = 0)
    (hend : va.toNat + n + 4194304 ≤ 4294967296) (hperm : perm.toNat < 4096) :
    Mapped m pgdir va pa perm s (n + 4194304) (s₁.store pgdir (PDX (va + BitVec.ofNat 32 n))
      (pa + BitVec.ofNat 32 n ||| PTE_P ||| PTE_PS ||| perm)) := by
  have hvn : (va + BitVec.ofNat 32 n).toNat = va.toNat + n := by
    rw [BitVec.toNat_add, BitVec.toNat_ofNat]
    omega
  obtain ⟨w, hw⟩ : ∃ w, w = pa + BitVec.ofNat 32 n ||| PTE_P ||| PTE_PS ||| perm := ⟨_, rfl⟩
  obtain ⟨d, hd⟩ : ∃ d, d = PDX (va + BitVec.ofNat 32 n) := ⟨_, rfl⟩
  obtain ⟨s', hs'⟩ : ∃ s', s' = s₁.store pgdir d w := ⟨_, rfl⟩
  have hdv : d = (va.toNat + n) / 4194304 := by rw [hd, PDX_eq_div, hvn]
  rw [← hw, ← hd, ← hs']
  have hP : present w = true := hw ▸ large_present
  have hS : w &&& PTE_PS ≠ 0#32 := hw ▸ large_PS
  have ⟨_, hv⟩ := hu (va + BitVec.ofNat 32 n) ⟨by omega, by omega⟩
  have hv₁ : table s₁ pgdir d ≠ some pgdir := fun hc => hv ((M.window _).mp (by rw [InWindow, ← hd]; exact hc))
  have hself : s'.mem pgdir d = w := by rw [hs', store_mem_self, update_self]
  have hother : ∀ d', d' ≠ d → s'.mem pgdir d' = s₁.mem pgdir d' := fun d' h => by
    rw [hs', store_mem_self, update_of_ne h]
  have ht : table s' pgdir d = none := by
    rw [table, hself]
    exact if_neg fun hc => hS hc.right
  have hleaf : ∀ {va'}, PDX va' = d → leaf s' pgdir va' = some (true, w) := fun h => by
    simp [leaf, h, hself, hP, hS]
  obtain ⟨fl, hfl, hp⟩ := M.dir.free
  refine ⟨M.dir.setEntry ht hother ⟨fl, ?_, fun p h => ⟨hp p h, nofun⟩⟩ nofun (hself ▸ hP), fun va' => ?_,
    fun va' hi hv' => ?_, fun va' hi hv' => ?_⟩
  · rw [hs']
    exact hfl
  · refine Iff.trans ?_ (M.window va')
    by_cases hdd : PDX va' = d
    · simp only [InWindow, hdd, ht]
      exact iff_of_false nofun hv₁
    · simp only [InWindow, table_congr (hother _ hdd)]
  · by_cases hdd : PDX va' = d
    · refine ⟨_, hleaf hdd, ?_, ?_⟩
      · show PTE_ADDR (PGADDR (PDX w) (PTX va') (PGOFF va')) = _
        apply BitVec.eq_of_toNat_eq
        have hlt := (pa + BitVec.ofNat 32 n).isLt
        have hlo := hi.left
        rw [PTE_ADDR_PGADDR PDX_lt, hw, large_PDX hpa hperm, PTE_ADDR_toNat]
        rw [PDX_eq_div, hdv] at hdd
        rw [BitVec.toNat_add, BitVec.toNat_ofNat] at hpa hlt ⊢
        rw [BitVec.toNat_add, BitVec.toNat_sub_of_le hi.left]
        omega
      · show w &&& 0xF7F#32 = _
        rw [hw]
        exact large_perms (by omega)
    · have hl : leaf s' pgdir va' = leaf s₁ pgdir va' := by
        refine leaf_congr (hother _ hdd) fun pt hpt => ?_
        have hne : pt ≠ pgdir := fun hc => hv' ((M.window _).mp (hc ▸ hpt))
        rw [hs', store_mem_of_ne hne]
      rw [hl]
      refine M.inside va' ⟨hi.left, ?_⟩ hv'
      rw [PDX_eq_div, hdv] at hdd
      have := hi.right
      have := hi.left
      omega
  · have hdd : PDX va' ≠ d := fun hc => hi <| by
      rw [PDX_eq_div, hdv] at hc
      exact ⟨by omega, by omega⟩
    have hl : leaf s' pgdir va' = leaf s₁ pgdir va' := by
      refine leaf_congr (hother _ hdd) fun pt hpt => ?_
      have hne : pt ≠ pgdir := fun hc => hv' ((M.window _).mp (hc ▸ hpt))
      rw [hs', store_mem_of_ne hne]
    rw [hl]
    exact M.outside va' (fun hc => hi ⟨hc.left, by have := hc.right; omega⟩) hv'

end Mapped

section Loop

theorem Unmapped.mono {n' : Nat} (h : Unmapped s pgdir va n) (hn : n' ≤ n) : Unmapped s pgdir va n' :=
  fun va' hi => h va' ⟨hi.left, by have := hi.right; omega⟩

theorem add_ofNat {v : Word} {a b : Nat} :
    v + BitVec.ofNat 32 a + BitVec.ofNat 32 b = v + BitVec.ofNat 32 (a + b) := by
  rw [BitVec.add_assoc, BitVec.ofNat_add]

-- The loop over small pages.
theorem Mapped.smalls (D : PageDir m s pgdir) (hu : Unmapped s pgdir va (n * 4096))
    (hva : va.toNat % 4096 = 0) (hpa : pa.toNat % 4096 = 0)
    (hend : va.toNat + n * 4096 ≤ 4294967296) (hperm : perm.toNat < 4096)
    (h : (List.range n).foldlM (fun s i => bootMapPage m s pgdir (va + BitVec.ofNat 32 (i * PGSIZE))
      (pa + BitVec.ofNat 32 (i * PGSIZE)) perm) s = some s') :
    Mapped m pgdir va pa perm s (n * 4096) s' := by
  refine foldlM_range (P := fun k s' => Mapped m pgdir va pa perm s (k * 4096) s') h ?_ ?_
  · rw [Nat.zero_mul]
    exact D.mapped
  · intro s₁ s₂ k hk M hs
    have hkn : k * 4096 + 4096 ≤ n * 4096 := by omega
    have := M.small (hu.mono hkn) hva hpa (by omega) (by omega) hperm hs
    rwa [Nat.succ_mul]

-- As long as the addresses are not both aligned the turns of the loop are those of the other version.
theorem small_phase (h : (List.range n).foldlM (fun s i => bootMapPage m s pgdir
      (va + BitVec.ofNat 32 (i * PGSIZE)) (pa + BitVec.ofNat 32 (i * PGSIZE)) perm) s = some s')
    (hno : ∀ k < n, ¬((va + BitVec.ofNat 32 (k * PGSIZE)).toNat % PTSIZE = 0 ∧
      (pa + BitVec.ofNat 32 (k * PGSIZE)).toNat % PTSIZE = 0))
    (hlt : n * 4096 ≤ size.toNat) (fuel : Nat) :
    bootMapRegion m pgdir perm (fuel + n) s va pa size =
      bootMapRegion m pgdir perm fuel s' (va + BitVec.ofNat 32 (n * 4096)) (pa + BitVec.ofNat 32 (n * 4096))
        (size - BitVec.ofNat 32 (n * 4096)) := by
  induction n generalizing s' fuel
  case zero =>
    cases h
    simp
  case succ n hi =>
    obtain ⟨s₁, h₁, h₂⟩ := foldlM_range_succ h
    have hsize := size.isLt
    have hne : size - BitVec.ofNat 32 (n * 4096) ≠ 0#32 := fun hc => by
      have := congrArg BitVec.toNat hc
      rw [BitVec.toNat_sub_of_le (by rw [BitVec.le_def, BitVec.toNat_ofNat]; omega), BitVec.toNat_ofNat] at this
      simp at this
      omega
    rw [Nat.succ_mul] at hlt
    have hle : n * 4096 ≤ size.toNat := Nat.le_trans (Nat.le_add_right _ _) hlt
    have hal := hno n (Nat.lt_succ_self n)
    have hsub : size - BitVec.ofNat 32 (n * 4096) - BitVec.ofNat 32 4096 =
        size - BitVec.ofNat 32 (n * 4096 + 4096) := by
      rw [BitVec.ofNat_add]
      bv_omega
    rw [Nat.add_comm n 1, ← Nat.add_assoc, hi h₁ (fun k hk => hno k (Nat.lt_succ_of_lt hk)) hle,
      bootMapRegion, if_neg hne]
    simp only [PGSIZE] at hal h₂ ⊢
    rw [if_neg hal, h₂]
    simp only [add_ofNat, hsub, Nat.add_mul, Nat.one_mul, Nat.add_comm (1 * 4096)]

-- From where both are aligned all pages are large.
theorem large_phase {q : Nat} (M : Mapped m pgdir va pa perm s n s₁)
    (hu : Unmapped s pgdir va (n + q * 4194304)) (hva : (va.toNat + n) % 4194304 = 0)
    (hpa : (pa.toNat + n) % 4194304 = 0) (hend : va.toNat + n + q * 4194304 ≤ 4294967296)
    (hq : q * 4194304 < 4294967296) (hperm : perm.toNat < 4096) :
    ∃ s', Mapped m pgdir va pa perm s (n + q * 4194304) s' ∧ ∀ fuel, bootMapRegion m pgdir perm (fuel + q + 1)
      s₁ (va + BitVec.ofNat 32 n) (pa + BitVec.ofNat 32 n) (BitVec.ofNat 32 (q * 4194304)) = some (some s') := by
  induction q generalizing n s₁
  case zero =>
    refine ⟨s₁, by simpa using M, fun fuel => ?_⟩
    simp [bootMapRegion]
  case succ q hi =>
    rw [Nat.succ_mul] at hu hend hq
    have hvn : (va + BitVec.ofNat 32 n).toNat % 4194304 = 0 := by
      rw [BitVec.toNat_add, BitVec.toNat_ofNat]
      omega
    have hpn : (pa + BitVec.ofNat 32 n).toNat % 4194304 = 0 := by
      rw [BitVec.toNat_add, BitVec.toNat_ofNat]
      omega
    have hne : BitVec.ofNat 32 ((q + 1) * 4194304) ≠ 0#32 := fun hc => by
      have := congrArg BitVec.toNat hc
      rw [Nat.succ_mul, BitVec.toNat_ofNat] at this
      simp at this
      omega
    have hsub : BitVec.ofNat 32 ((q + 1) * 4194304) - BitVec.ofNat 32 PTSIZE =
        BitVec.ofNat 32 (q * 4194304) := by
      rw [Nat.add_mul, BitVec.ofNat_add, PTSIZE, PGSIZE, NPDENTRIES]
      bv_omega
    have M' := M.large (hu.mono (by linarith)) hva hpn (by linarith) hperm
    obtain ⟨s', M'', hr⟩ := hi M' (hu.mono (by linarith)) (by omega) (by omega) (by linarith) (by linarith)
    refine ⟨s', by rw [Nat.add_mul]; rwa [Nat.add_assoc, Nat.add_comm 4194304] at M'', fun fuel => ?_⟩
    rw [bootMapRegion, if_neg hne, if_pos ⟨hvn, hpn⟩]
    simp only [hsub, add_ofNat]
    exact hr fuel

-- With less than a large page left there, the count passes 0.
theorem never_ends {fuel : Nat} (hva : va.toNat % 4194304 = 0) (hpa : pa.toNat % 4194304 = 0)
    (hsize : size.toNat % 4194304 ≠ 0) : bootMapRegion m pgdir perm fuel s va pa size = none := by
  induction fuel generalizing s va pa size
  case zero => rfl
  case succ fuel hi =>
    have hne : size ≠ 0#32 := fun hc => hsize (by rw [hc]; rfl)
    have hp : (BitVec.ofNat 32 PTSIZE).toNat = 4194304 := rfl
    rw [bootMapRegion, if_neg hne, if_pos ⟨hva, hpa⟩]
    refine hi ?_ ?_ ?_
    · rw [BitVec.toNat_add, hp]
      omega
    · rw [BitVec.toNat_add, hp]
      omega
    · rw [BitVec.toNat_sub, hp]
      omega

end Loop

section Region

-- Where the loop ends: the two addresses are never both aligned, or the region ends before they are,
-- or else at the end of a large page.
def Ends (va pa size : Word) : Prop :=
  va.toNat % PTSIZE ≠ pa.toNat % PTSIZE ∨ size.toNat ≤ (PTSIZE - va.toNat % PTSIZE) % PTSIZE ∨
  (va.toNat + size.toNat) % PTSIZE = 0

-- The region is mapped as `check_va2pa` sees it, which gives the page of an address in a small page, and
-- outside of it and of the window nothing has changed.
structure Maps (m : Machine) (pgdir : Nat) (va size pa perm : Word) (s s' : State) : Prop where
  inside  : ∀ va', Inside va size.toNat va' →
    (∃ w, checkVa2pa m s' pgdir va' = some w ∧ PTE_ADDR w = PTE_ADDR (pa + (va' - va))) ∧
    perms s' pgdir va' = (perm ||| PTE_P) &&& 0xF7F#32
  outside : ∀ va', ¬Inside va size.toNat va' → ¬InWindow s pgdir va' →
    checkVa2pa m s' pgdir va' = checkVa2pa m s pgdir va' ∧ perms s' pgdir va' = perms s pgdir va'

theorem Mapped.maps (M : Mapped m pgdir va pa perm s size.toNat s') (D : PageDir m s pgdir)
    (hu : Unmapped s pgdir va size.toNat) : Maps m pgdir va size pa perm s s' := by
  refine ⟨fun va' hi => ?_, fun va' hi hv => ?_⟩
  · obtain ⟨e, he, ha, hp⟩ := M.inside va' hi (hu va' hi).right
    refine ⟨⟨leafAddr va' e, ?_, ha⟩, ?_⟩
    · rw [M.dir.checkVa2pa_eq, he]
      rfl
    · rw [perms, he]
      exact hp
  · rw [M.dir.checkVa2pa_eq, D.checkVa2pa_eq, perms, perms, M.outside va' hi hv]
    exact ⟨rfl, rfl⟩

theorem bootMapRegion_mapped {s₄ : State} (D : PageDir m s pgdir) (hu : Unmapped s pgdir va size.toNat)
    (hva : va.toNat % PGSIZE = 0) (hpa : pa.toNat % PGSIZE = 0) (hsize : size.toNat % PGSIZE = 0)
    (hend : va.toNat + size.toNat ≤ 2 ^ 32) (hperm : perm.toNat < 4096)
    (h : Kern.bootMapRegion m s pgdir va size pa perm = some s₄) :
    Mapped m pgdir va pa perm s size.toNat s₄ := by
  rw [PGSIZE] at hva hpa hsize
  have hn : size.toNat / PGSIZE * 4096 = size.toNat := by
    rw [PGSIZE]
    omega
  have := Mapped.smalls (n := size.toNat / PGSIZE) D (by rwa [hn]) hva hpa (by omega) hperm h
  rwa [hn] at this

theorem bootMapRegion_pse {s₄ : State} (D : PageDir m s pgdir) (hu : Unmapped s pgdir va size.toNat)
    (hva : va.toNat % PGSIZE = 0) (hpa : pa.toNat % PGSIZE = 0) (hsize : size.toNat % PGSIZE = 0)
    (hend : va.toNat + size.toNat ≤ 2 ^ 32) (hperm : perm.toNat < 4096)
    (h : Kern.bootMapRegion m s pgdir va size pa perm = some s₄) (he : Ends va pa size) :
    ∃ n s', (∀ fuel ≥ n, bootMapRegion m pgdir perm fuel s va pa size = some (some s')) ∧
      Mapped m pgdir va pa perm s size.toNat s' := by
  have M₄ := bootMapRegion_mapped D hu hva hpa hsize hend hperm h
  obtain ⟨n, hn⟩ : ∃ n, n = size.toNat / PGSIZE := ⟨_, rfl⟩
  rw [Kern.bootMapRegion, ← hn] at h
  rw [PGSIZE] at hva hpa hsize hn
  simp only [Ends, PTSIZE, PGSIZE, NPDENTRIES, Nat.reduceMul] at he
  have toNat_add : ∀ {v : Word} {k : Nat}, (v + BitVec.ofNat 32 (k * PGSIZE)).toNat % 4194304 =
      (v.toNat + k * 4096) % 4194304 := fun {v k} => by
    rw [BitVec.toNat_add, BitVec.toNat_ofNat, PGSIZE]
    omega
  by_cases hsmall : ∀ k < n, ¬((va.toNat + k * 4096) % 4194304 = 0 ∧ (pa.toNat + k * 4096) % 4194304 = 0)
  case pos =>
    refine ⟨n + 1, s₄, fun fuel hf => ?_, M₄⟩
    obtain ⟨f, rfl⟩ : ∃ f, fuel = f + 1 + n := ⟨fuel - (n + 1), by omega⟩
    rw [small_phase h (fun k hk hc => hsmall k hk ⟨toNat_add ▸ hc.left, toNat_add ▸ hc.right⟩) (by omega)]
    have hz : size - BitVec.ofNat 32 (n * 4096) = 0#32 := by
      have : n * 4096 = size.toNat := by omega
      rw [this, BitVec.ofNat_toNat, BitVec.setWidth_eq, BitVec.sub_self]
    rw [bootMapRegion, if_pos hz]
  case neg =>
    -- The first page at which both are aligned.
    obtain ⟨d, hd⟩ : ∃ d, d = (4194304 - va.toNat % 4194304) % 4194304 := ⟨_, rfl⟩
    have hal : va.toNat % 4194304 = pa.toNat % 4194304 ∧ d < size.toNat := by
      by_contra hc
      refine hsmall fun k hk ⟨h₁, h₂⟩ => hc ⟨by omega, by omega⟩
    obtain ⟨j, hj⟩ : ∃ j, j * 4096 = d := ⟨d / 4096, by omega⟩
    have hrest : (size.toNat - d) % 4194304 = 0 := by
      obtain he | he | he := he
      · exact absurd hal.left he
      · rw [← hd] at he
        exact absurd hal.right (Nat.not_lt.mpr he)
      · omega
    obtain ⟨q, hq⟩ : ∃ q, j * 4096 + q * 4194304 = size.toNat := by
      obtain ⟨q, hq⟩ := Nat.dvd_of_mod_eq_zero hrest
      exact ⟨q, by rw [hj]; omega⟩
    have hsz := size.isLt
    obtain ⟨s₁, h₁⟩ := foldlM_range_prefix h (show j ≤ n by omega)
    have M₁ := Mapped.smalls D (hu.mono (by linarith)) hva hpa (by linarith) hperm h₁
    obtain ⟨s', M', hr⟩ := large_phase (q := q) M₁ (hu.mono (Nat.le_of_eq hq)) (by omega) (by omega)
      (by linarith) (by linarith) hperm
    refine ⟨q + 1 + j, s', fun fuel hf => ?_, by rwa [hq] at M'⟩
    obtain ⟨f, rfl⟩ : ∃ f, fuel = f + q + 1 + j := ⟨fuel - (q + 1 + j), by omega⟩
    rw [small_phase h₁ (fun k hk hc => ?_) (by linarith)]
    · have hrest : size - BitVec.ofNat 32 (j * 4096) = BitVec.ofNat 32 (q * 4194304) := by
        apply BitVec.eq_of_toNat_eq
        rw [BitVec.toNat_sub_of_le (by rw [BitVec.le_def, BitVec.toNat_ofNat]; omega), BitVec.toNat_ofNat,
          BitVec.toNat_ofNat]
        omega
      rw [hrest]
      exact hr f
    · have := hc.left
      simp only [PTSIZE, PGSIZE, NPDENTRIES, Nat.reduceMul] at this
      have h4 := toNat_add (v := va) (k := k)
      rw [PGSIZE] at h4
      omega

end Region

-- Both versions map the region alike, where the one with large pages comes to its end and the other one
-- finds the pages that it needs for page tables.
theorem boot_map_region_alike {s₄ : State} (D : PageDir m s pgdir) (hva : va.toNat % PGSIZE = 0)
    (hpa : pa.toNat % PGSIZE = 0) (hsize : size.toNat % PGSIZE = 0)
    (hend : va.toNat + size.toNat ≤ 2 ^ 32) (hperm : perm.toNat < 4096)
    (hu : Unmapped s pgdir va size.toNat) (he : Ends va pa size)
    (h : Kern.bootMapRegion m s pgdir va size pa perm = some s₄) :
    Maps m pgdir va size pa perm s s₄ ∧
    ∃ n s', (∀ fuel ≥ n, bootMapRegion m pgdir perm fuel s va pa size = some (some s')) ∧
      Maps m pgdir va size pa perm s s' := by
  have M₄ := bootMapRegion_mapped D hu hva hpa hsize hend hperm h
  obtain ⟨n, s', hr, M⟩ := bootMapRegion_pse D hu hva hpa hsize hend hperm h he
  exact ⟨M₄.maps D hu, n, s', hr, M.maps D hu⟩

-- A page directory at page 2000 that shows itself at `UVPT`, and one free page.
def sampleDir : State where
  pages _      := ⟨none, 0#16⟩
  pageFreeList := some 3000
  mem p i      := if p = 2000 ∧ i = 957 then page2pa 2000 ||| PTE_U ||| PTE_P else 0#32
  envs         := Sample.boot.envs
  envFreeList  := none

theorem sampleDir_table {d : Nat} (h : table sampleDir 2000 d = some pt) : d = 957 ∧ pt = 2000 := by
  by_cases hd : d = 957
  · subst hd
    have ht : table sampleDir 2000 957 = some 2000 := by decide
    exact ⟨rfl, Option.some.inj (h.symm.trans ht)⟩
  · have hz : sampleDir.mem 2000 d = 0#32 := if_neg fun hc => hd hc.right
    simp [table, hz] at h

theorem pageDir_sample : PageDir Sample.machine sampleDir 2000 where
  free   := by
    refine ⟨[3000], .cons .nil, fun p hp => ?_⟩
    rw [List.mem_singleton.mp hp]
    refine ⟨by decide, by decide, by decide, fun d _ h => ?_⟩
    exact absurd (sampleDir_table h).right (by decide)
  lt _ h          := (sampleDir_table h).right ▸ by decide
  unique _ _ h h' := .inl ((sampleDir_table h).left.trans (sampleDir_table h').left.symm)
  zero {d} _ h    := by
    by_cases hd : d = 957
    · subst hd
      exact absurd h (by decide)
    · exact if_neg fun hc => hd hc.right
  addr _ h        := (sampleDir_table h).right ▸ by decide

theorem unmapped_sample : Unmapped sampleDir 2000 0xF0001000#32 4096 := by
  intro va hi
  have hd : PDX va = 960 := by
    have h₁ : 4026535936 ≤ va.toNat := hi.left
    have h₂ : va.toNat < 4026535936 + 4096 := hi.right
    rw [PDX_eq_div]
    omega
  refine ⟨leaf_none (by rw [hd]; rfl), fun hc => ?_⟩
  have := (sampleDir_table hc).left
  omega

theorem boot_map_region_alike_sample : ∃ s₄,
    Kern.bootMapRegion Sample.machine sampleDir 2000 0xF0001000#32 4096#32 0#32 PTE_W = some s₄ ∧
    Maps Sample.machine 2000 0xF0001000#32 4096#32 0#32 PTE_W sampleDir s₄ ∧
    ∃ n s', (∀ fuel ≥ n, bootMapRegion Sample.machine 2000 PTE_W fuel sampleDir 0xF0001000#32 0#32 4096#32 =
      some (some s')) ∧ Maps Sample.machine 2000 0xF0001000#32 4096#32 0#32 PTE_W sampleDir s' :=
  ⟨_, rfl, boot_map_region_alike pageDir_sample (by decide) (by decide) (by decide) (by decide) (by decide)
    unmapped_sample (.inl (by decide)) rfl⟩

-- With both addresses aligned and one small page to map, the loop goes on for ever; and either version
-- changes what is seen in the window.
theorem not_boot_map_region_alike :
    (∀ fuel, bootMapRegion Sample.machine 2000 PTE_W fuel sampleDir 0xF0000000#32 0#32 4096#32 = none) ∧
    ∃ s₄, Kern.bootMapRegion Sample.machine sampleDir 2000 0xF0000000#32 4096#32 0#32 PTE_W = some s₄ ∧
      checkVa2pa Sample.machine sampleDir 2000 0xEF7C0000#32 = some 0xFFFFFFFF#32 ∧
      checkVa2pa Sample.machine s₄ 2000 0xEF7C0000#32 = some (page2pa 3000) := by
  refine ⟨fun fuel => never_ends (by decide) (by decide) (by decide), _, rfl, ?_, ?_⟩
  · decide
  · decide

end Kern.Pse

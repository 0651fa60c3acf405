import Sisop.Kern.BootAlloc

-- Where the memory is that `boot_alloc` hands out.

namespace Kern

open Inc

variable {kernEnd npages nextfree n r w : Word} {ns : List Word} {rs : List (Word × Word)}

-- A region of `n` bytes at `r` is in physical memory, and the addresses in it and the end of its last
-- page are numbers of 32 bits.
structure InMemory (npages r n : Word) : Prop where
  aligned  : r.toNat % PGSIZE = 0
  kernbase : KERNBASE ≤ r
  physical : r.toNat - KERNBASE.toNat + n.toNat ≤ npages.toNat * PGSIZE
  noWrap   : 0#32 < n → r.toNat + n.toNat + (PGSIZE - 1) < 2 ^ 32

-- One region lies behind another.
def Before (x y : Word × Word) : Prop :=
  0#32 < x.2 → x.1.toNat + x.2.toNat ≤ y.1.toNat

structure RegionsSound (npages : Word) (rs : List (Word × Word)) : Prop where
  inMemory : ∀ x ∈ rs, InMemory npages x.1 x.2
  disjoint : rs.Pairwise Before

-- The test that makes `boot_alloc` panic.
def Exhausted (npages r : Word) : Prop := r < KERNBASE ∨ npages * 4096#32 ≤ r - KERNBASE

-- `n` bytes and the rest of the last page fit in memory and in the kernel's part of the address space.
def FitsMemory (npages r n : Word) : Prop :=
  r.toNat - KERNBASE.toNat + n.toNat ≤ npages.toNat * PGSIZE ∧
    r.toNat + n.toNat + (PGSIZE - 1) < 2 ^ 32

-- The requests that `boot_alloc` does not panic at fit.
def AllFit (kernEnd npages : Word) : Word → List Word → Prop
  | _,        []      => True
  | nextfree, n :: ns =>
    let r := firstFree kernEnd nextfree
    Exhausted npages r ∨ (n = 0#32 ∨ FitsMemory npages r n) ∧
      AllFit kernEnd npages (if 0#32 < n then ROUNDUP (r + n) 4096#32 else r) ns

theorem kernbase_toNat : KERNBASE.toNat = 4026531840 := by decide

theorem word_pos : 0#32 < n ↔ n ≠ 0#32 := by
  rw [BitVec.lt_def, ne_eq, ← BitVec.toNat_inj, show (0#32).toNat = 0 by rfl]
  omega

theorem roundup_aligned : (ROUNDUP w 4096#32).toNat % 4096 = 0 := by
  rw [ROUNDUP, ROUNDDOWN_toNat]
  omega

theorem firstFree_aligned (h : nextfree.toNat % 4096 = 0) :
    (firstFree kernEnd nextfree).toNat % 4096 = 0 := by
  rw [firstFree]
  split
  · exact roundup_aligned
  · exact h

-- What one call does.
theorem bootAlloc_spec (kernEnd npages nextfree n : Word) : bootAlloc kernEnd npages nextfree n = none ∧
      Exhausted npages (firstFree kernEnd nextfree) ∨
    ¬Exhausted npages (firstFree kernEnd nextfree) ∧ bootAlloc kernEnd npages nextfree n =
      some (firstFree kernEnd nextfree, if 0#32 < n then
        ROUNDUP (firstFree kernEnd nextfree + n) 4096#32 else firstFree kernEnd nextfree) := by
  simp only [bootAlloc, PADDR, Exhausted, Option.bind_eq_bind]
  by_cases hk : firstFree kernEnd nextfree < KERNBASE
  · exact .inl ⟨by simp [hk], .inl hk⟩
  · by_cases hp : npages * 4096#32 ≤ firstFree kernEnd nextfree - KERNBASE
    · exact .inl ⟨by simp [hk, hp], .inr hp⟩
    · exact .inr ⟨by simp [hk, hp], by simp [hk, hp]⟩

-- A region that starts in memory is there if it fits.
theorem inMemory_iff (ha : r.toNat % 4096 = 0) (he : ¬Exhausted npages r) :
    InMemory npages r n ↔ n = 0#32 ∨ FitsMemory npages r n := by
  simp only [Exhausted, not_or, BitVec.not_lt, BitVec.not_le] at he
  obtain ⟨hk, hp⟩ := he
  constructor
  · intro i
    by_cases hn : n = 0#32
    · exact .inl hn
    · exact .inr ⟨i.physical, i.noWrap (word_pos.mpr hn)⟩
  · intro h
    refine ⟨ha, hk, ?_, fun hn => (h.resolve_left (word_pos.mp hn)).right⟩
    rcases h with rfl | h
    · rw [BitVec.le_def, kernbase_toNat] at hk
      rw [BitVec.lt_def, BitVec.toNat_sub, BitVec.toNat_mul, kernbase_toNat,
        show (4096#32).toNat = 4096 by rfl] at hp
      rw [kernbase_toNat, show (0#32).toNat = 0 by rfl, PGSIZE]
      have := r.isLt
      omega
    · exact h.left

-- Where requests fit, the next one starts behind the last one.
theorem next_le (he : ¬Exhausted npages r) (h : n = 0#32 ∨ FitsMemory npages r n) :
    let next := if 0#32 < n then ROUNDUP (r + n) 4096#32 else r
    r.toNat + n.toNat ≤ next.toNat ∧ next ≠ 0#32 := by
  have hk : KERNBASE.toNat ≤ r.toNat := BitVec.le_def.mp (BitVec.not_lt.mp fun hc => he (.inl hc))
  rw [kernbase_toNat] at hk
  have hr : ∀ v : Word, r.toNat ≤ v.toNat → v ≠ 0#32 := by
    rintro v hv rfl
    rw [show (0#32).toNat = 0 by rfl] at hv
    omega
  by_cases hn : 0#32 < n
  · obtain ⟨_, hw⟩ := h.resolve_left (word_pos.mp hn)
    rw [PGSIZE] at hw
    have hs : (r + n).toNat = r.toNat + n.toNat := by
      rw [BitVec.toNat_add]
      omega
    have hu : (ROUNDUP (r + n) 4096#32).toNat = (r.toNat + n.toNat + 4095) / 4096 * 4096 := by
      rw [ROUNDUP_toNat (by omega), hs]
    simp only [if_pos hn]
    exact ⟨by omega, hr _ (by omega)⟩
  · have hz : n = 0#32 := by
      by_contra hz
      exact hn (word_pos.mpr hz)
    simp only [hz, show ¬(0#32 : Word) < 0#32 by decide, if_false]
    exact ⟨le_rfl, hr _ le_rfl⟩

theorem bootAllocs_ge (hz : nextfree ≠ 0#32) (h : AllFit kernEnd npages nextfree ns) :
    ∀ x ∈ bootAllocs kernEnd npages nextfree ns, nextfree.toNat ≤ x.1.toNat := by
  induction ns generalizing nextfree
  case nil => simp [bootAllocs]
  case cons n ns i =>
    have hf : firstFree kernEnd nextfree = nextfree := if_neg hz
    intro x hx
    rcases bootAlloc_spec kernEnd npages nextfree n with ⟨hb, _⟩ | ⟨he, hb⟩
    · rw [bootAllocs, hb] at hx
      cases hx
    · rw [AllFit, hf] at h
      rw [hf] at he
      obtain ⟨hfit, hall⟩ := h.resolve_left he
      obtain ⟨hle, hne⟩ := next_le he hfit
      rw [bootAllocs, hb, hf] at hx
      rcases List.mem_cons.mp hx with rfl | hx
      · exact le_rfl
      · have := i hne hall x hx
        omega

-- The run from any value that `nextfree` can have.
theorem bootAllocs_sound (ha : nextfree.toNat % PGSIZE = 0) :
    RegionsSound npages (bootAllocs kernEnd npages nextfree ns) ↔ AllFit kernEnd npages nextfree ns := by
  induction ns generalizing nextfree
  case nil => exact iff_of_true ⟨by simp [bootAllocs], List.Pairwise.nil⟩ trivial
  case cons n ns i =>
    have hr : (firstFree kernEnd nextfree).toNat % 4096 = 0 := firstFree_aligned ha
    rcases bootAlloc_spec kernEnd npages nextfree n with ⟨hb, he⟩ | ⟨he, hb⟩
    · have hx : bootAllocs kernEnd npages nextfree (n :: ns) = [] := by rw [bootAllocs, hb]
      rw [hx]
      exact iff_of_true ⟨by simp, List.Pairwise.nil⟩ (.inl he)
    · have hnext : (if 0#32 < n then ROUNDUP (firstFree kernEnd nextfree + n) 4096#32
          else firstFree kernEnd nextfree).toNat % PGSIZE = 0 := by
        split
        · exact roundup_aligned
        · exact hr
      have hx : bootAllocs kernEnd npages nextfree (n :: ns) = (firstFree kernEnd nextfree, n) ::
          bootAllocs kernEnd npages (if 0#32 < n then ROUNDUP (firstFree kernEnd nextfree + n) 4096#32
            else firstFree kernEnd nextfree) ns := by rw [bootAllocs, hb]
      rw [hx, AllFit]
      simp only [he, false_or]
      rw [← i hnext, ← inMemory_iff hr he]
      constructor
      · rintro ⟨him, hd⟩
        obtain ⟨_, hd⟩ := List.pairwise_cons.mp hd
        exact ⟨him _ List.mem_cons_self, fun x hx => him x (List.mem_cons_of_mem _ hx), hd⟩
      · rintro ⟨him, hs⟩
        obtain ⟨hle, hne⟩ := next_le he ((inMemory_iff hr he).mp him)
        have hge := bootAllocs_ge hne ((i hnext).mp hs)
        refine ⟨fun x hx => ?_, List.pairwise_cons.mpr ⟨fun x hx _ => ?_, hs.disjoint⟩⟩
        · rcases List.mem_cons.mp hx with rfl | hx
          · exact him
          · exact hs.inMemory x hx
        · exact hle.trans (hge x hx)

-- The regions that `boot_alloc` hands out are disjoint parts of memory exactly if the requests fit.
theorem boot_alloc_exact : RegionsSound npages (bootAllocs kernEnd npages 0#32 ns) ↔
    AllFit kernEnd npages 0#32 ns :=
  bootAllocs_sound rfl

-- 128MB are requested on a machine that has 128MB with the kernel in it.
theorem not_boot_alloc_exact : ¬∀ kernEnd npages ns,
    RegionsSound npages (bootAllocs kernEnd npages 0#32 ns) := by
  intro h
  have hs := (h 0xF0114000#32 32768#32 [0x08000000#32]).inMemory (0xF0114000#32, 0x08000000#32)
    (by decide)
  exact absurd hs.physical (by decide)

end Kern

import Sisop.Kern.BootAlloc
import Sisop.Library.Run

-- The addresses of the pages that `page_alloc` returns.

namespace Kern.MemInit

open Inc Library

variable {npages kernEnd nextfree first : Word} {p q endKernel : Nat} {free l : List Nat} {cmos : Cmos}

-- The kernel's window above `KERNBASE` has 256MB.
def windowPages : Nat := 65536

structure RoundTrip (npages : Word) (free : List Nat) (p : Nat) : Prop where
  kva      : ∃ kva, page2kva npages p = some kva ∧ KERNBASE ≤ kva ∧ PADDR kva = some (page2pa p)
  page     : pa2page npages (page2pa p) = some p
  disjoint : ∀ q kva kva', Returns npages free q → q ≠ p → page2kva npages p = some kva →
    page2kva npages q = some kva' →
    kva.toNat + PGSIZE ≤ kva'.toNat ∨ kva'.toNat + PGSIZE ≤ kva.toNat
  shift    : (page2pa p).toNat = p * PGSIZE
  window   : (page2pa p).toNat + KERNBASE.toNat + PGSIZE ≤ 2 ^ 32
  memory   : npages.toNat * PGSIZE < 2 ^ 32

-- The pages that `page_init` puts on the list.
theorem mem_pageInit : p ∈ pageInit npages endKernel ↔ 0 < p ∧ p < npages.toNat ∧
    ¬(IOPHYSMEM / PGSIZE ≤ p ∧ p < endKernel) ∧ p ≠ MPENTRY_PADDR / PGSIZE := by
  have hn (n : Nat) (free : List Nat) (h : ∀ p, p ∈ free ↔ 0 < p ∧ p < n + 1 ∧
      ¬(IOPHYSMEM / PGSIZE ≤ p ∧ p < endKernel) ∧ p ≠ MPENTRY_PADDR / PGSIZE) (p : Nat) :
      p ∈ (if IOPHYSMEM / PGSIZE ≤ n + 1 ∧ n + 1 < endKernel then free
        else if n + 1 = MPENTRY_PADDR / PGSIZE then free else (n + 1) :: free) ↔
        0 < p ∧ p < n + 1 + 1 ∧ ¬(IOPHYSMEM / PGSIZE ≤ p ∧ p < endKernel) ∧
          p ≠ MPENTRY_PADDR / PGSIZE := by
    have hp := h p
    by_cases he : p = n + 1
    · subst he
      split
      · simp_all
      · split <;> simp_all
    · have hlt : p < n + 1 + 1 ↔ p < n + 1 := by omega
      split
      · rw [hp, hlt]
      · split
        · rw [hp, hlt]
        · rw [List.mem_cons, hp, hlt]
          simp [he]
  have hr := foldl_range (f := fun free i =>
      if IOPHYSMEM / PGSIZE ≤ i + 1 ∧ i + 1 < endKernel then free
      else if i + 1 = MPENTRY_PADDR / PGSIZE then free else (i + 1) :: free)
    (s := ([] : List Nat)) (n := npages.toNat - 1)
    (P := fun n free => ∀ p, p ∈ free ↔ 0 < p ∧ p < n + 1 ∧
      ¬(IOPHYSMEM / PGSIZE ≤ p ∧ p < endKernel) ∧ p ≠ MPENTRY_PADDR / PGSIZE)
    (fun p => by simp; omega) (fun {free n} _ h => hn n free h)
  rw [pageInit, hr p]
  omega

theorem mem_checkPageFreeList {free' : List Nat} (h : checkPageFreeList npages first free = some free') :
    ∀ p, p ∈ free' ↔ p ∈ free := by
  simp only [checkPageFreeList] at h
  split at h
  case isTrue =>
    cases h
    intro p
    simp only [List.mem_append, List.mem_filter]
    cases decide (PDX (page2pa p) < 1) <;> simp
  case isFalse => cases h

theorem checkFreePage_of_mem {free' : List Nat} (h : checkPageFreeList npages first free = some free')
    (hp : p ∈ free) : checkFreePage npages first p = true := by
  have hm := (mem_checkPageFreeList h p).mpr hp
  simp only [checkPageFreeList] at h
  split at h
  case isTrue hc =>
    cases h
    rw [Bool.and_eq_true, Bool.and_eq_true] at hc
    exact List.all_eq_true.mp hc.left.left p hm
  case isFalse => cases h

-- The address of the first page behind the window is 0.
theorem not_checkFreePage (h : KERNBASE ≤ first) :
    checkFreePage npages first windowPages = false := by
  have hpa : page2pa windowPages = 0x10000000#32 := by decide
  have hz : 0x10000000#32 + KERNBASE = 0#32 := by decide
  have hk : ¬first ≤ 0#32 := by
    have hK : KERNBASE.toNat = 4026531840 := by decide
    rw [BitVec.le_def, hK] at h
    rw [BitVec.le_def, show (0#32).toNat = 0 by rfl]
    omega
  have hkva : (page2kva npages windowPages).elim false (fun kva => decide (first ≤ kva)) = false := by
    rw [page2kva, KADDR, hpa, hz]
    split
    · rfl
    · exact decide_eq_false hk
  simp only [checkFreePage, hpa, hkva]
  simp [EXTPHYSMEM]

-- A kernel that gets to its first `page_alloc` has no more memory than the window.
theorem npages_le (h : memInit kernEnd cmos = some (npages, free)) :
    npages.toNat ≤ windowPages ∧ ∀ p ∈ free, p < npages.toNat := by
  simp only [memInit, Option.bind_eq_bind, Option.bind_eq_some_iff, Option.some.injEq] at h
  obtain ⟨_, _, _, _, _, _, end', _, endKernel, hend, first, hfirst, free', hc, he⟩ := h
  cases he
  have hlt {p : Nat} (hp : p ∈ free) : p < (i386DetectMemory cmos).toNat :=
    (mem_pageInit.mp ((mem_checkPageFreeList hc p).mp hp)).right.left
  refine ⟨?_, fun p => hlt⟩
  have hk : KERNBASE ≤ first.1 := by
    simp only [bootAlloc, Option.bind_eq_bind, Option.bind_eq_some_iff] at hfirst
    obtain ⟨_, hp, hx⟩ := hfirst
    rw [PADDR] at hp
    split at hp
    · cases hp
    split at hx
    · cases hx
    cases hx
    exact BitVec.not_lt.mp ‹_›
  by_contra hn
  have hw : endKernel.toNat / PGSIZE ≤ windowPages := by
    rw [PADDR] at hend
    split at hend
    · cases hend
    cases hend
    have := end'.1.isLt
    have hb := BitVec.le_def.mp (BitVec.not_lt.mp ‹_›)
    have hK : KERNBASE.toNat = 4026531840 := by decide
    rw [BitVec.toNat_sub, hK, PGSIZE, windowPages]
    omega
  have hm : windowPages ∈ pageInit (i386DetectMemory cmos) (endKernel.toNat / PGSIZE) := by
    refine mem_pageInit.mpr ⟨by decide, by omega, fun hc => by omega, by decide⟩
  have ht := checkFreePage_of_mem hc hm
  rw [not_checkFreePage hk] at ht
  cases ht

theorem Lists.lt (h : Lists npages free l) (hf : ∀ p ∈ free, p < npages.toNat) :
    ∀ p ∈ l, p < npages.toNat := by
  induction h
  case init         => exact hf
  case alloc i      => exact fun p hp => i p (List.mem_cons_of_mem _ hp)
  case free hp i    =>
    intro q hq
    rcases List.mem_cons.mp hq with rfl | hq
    · exact hp
    · exact i q hq

section Window

variable (hw : npages.toNat ≤ windowPages) (hp : p < npages.toNat)
include hw hp

theorem page2pa_toNat : (page2pa p).toNat = p * PGSIZE := by
  rw [windowPages] at hw
  rw [page2pa, BitVec.toNat_shiftLeft, BitVec.toNat_ofNat, Nat.shiftLeft_eq, PGSIZE]
  omega

theorem PGNUM_page : PGNUM (page2pa p) = p := by
  rw [windowPages] at hw
  exact PGNUM_page2pa (by omega)

theorem page2kva_eq : page2kva npages p = some (page2pa p + KERNBASE) := by
  rw [page2kva, KADDR, PGNUM_page hw hp, if_neg (by omega)]

theorem kva_toNat : (page2pa p + KERNBASE).toNat = p * PGSIZE + KERNBASE.toNat := by
  have hK : KERNBASE.toNat = 4026531840 := by decide
  rw [BitVec.toNat_add, page2pa_toNat hw hp, hK, PGSIZE]
  rw [windowPages] at hw
  omega

end Window

-- The conversions between a page and its addresses are inverse to each other, for the pages that
-- `page_alloc` can return on a machine with any memory.
theorem page2kva_round_trip (h : memInit kernEnd cmos = some (npages, free))
    (hp : Returns npages free p) : RoundTrip npages free p := by
  obtain ⟨hw, hf⟩ := npages_le h
  have hlt {q : Nat} (hq : Returns npages free q) : q < npages.toNat := by
    obtain ⟨l, hl⟩ := hq
    exact hl.lt hf q List.mem_cons_self
  have hK : KERNBASE.toNat = 4026531840 := by decide
  have hkva := kva_toNat hw (hlt hp)
  have hk : KERNBASE ≤ page2pa p + KERNBASE := by
    rw [BitVec.le_def, hkva]
    omega
  refine { kva := ⟨_, page2kva_eq hw (hlt hp), hk, ?_⟩, page := ?_, disjoint := ?_,
           shift := page2pa_toNat hw (hlt hp), window := ?_, memory := ?_ }
  · rw [PADDR, if_neg (BitVec.not_lt.mpr hk), BitVec.add_sub_cancel]
  · have := hlt hp
    rw [pa2page, PGNUM_page hw (hlt hp), if_neg (by omega)]
  · intro q kva kva' hq hne h₁ h₂
    rw [page2kva_eq hw (hlt hp)] at h₁
    rw [page2kva_eq hw (hlt hq)] at h₂
    rw [← Option.some.inj h₁, ← Option.some.inj h₂, hkva, kva_toNat hw (hlt hq), PGSIZE]
    omega
  · have := hlt hp
    rw [windowPages] at hw
    rw [page2pa_toNat hw (hlt hp), hK, PGSIZE]
    omega
  · rw [windowPages] at hw
    rw [PGSIZE]
    omega

-- The first page that a machine with 1200KB returns.
theorem page2kva_round_trip_first : RoundTrip 300#32 (pageInit 300#32 290) 299 := by
  have hm : memInit 0xF0101000#32 ⟨640#16, 176#16, 0#16⟩ = some (300#32, pageInit 300#32 290) := by
    decide +kernel
  have hf : pageInit 300#32 290 = 299 :: (pageInit 300#32 290).tail := by decide +kernel
  have hl : Lists 300#32 (pageInit 300#32 290) (299 :: (pageInit 300#32 290).tail) := hf ▸ .init
  exact page2kva_round_trip hm ⟨_, hl⟩

end Kern.MemInit

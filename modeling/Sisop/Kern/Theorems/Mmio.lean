import Sisop.Kern.Theorems.Sample

-- The reservations that `mmio_map_region` makes.

namespace Kern

open Inc Function Library State

variable {m : Machine} {s s' s₁ : State} {va va' pa perm w base base' size : Word} {slot : Slot}

-- The page table entry that serves `va` in `kern_pgdir`, which is zero where there is no page table.
def kernPte (m : Machine) (s : State) (va : Word) : Word :=
  (entryPage (s.mem m.kernPgdir (PDX va))).elim 0#32 fun pt => s.mem pt (PTX va)

section Walk

theorem kernPte_eq {pt : Nat} (h : entryPage (s.mem m.kernPgdir (PDX va)) = some pt) :
    kernPte m s va = s.mem pt (PTX va) := by
  rw [kernPte, h, Option.elim_some]

theorem kernPte_eq_zero (h : entryPage (s.mem m.kernPgdir (PDX va)) = none) : kernPte m s va = 0#32 := by
  rw [kernPte, h, Option.elim_none]

theorem samePage_iff : va'.toNat / PGSIZE = va.toNat / PGSIZE ↔ PDX va' = PDX va ∧ PTX va' = PTX va := by
  rw [PDX_eq_div, PDX_eq_div, PTX_eq_mod, PTX_eq_mod, PGSIZE]
  have := va.isLt
  have := va'.isLt
  omega

-- Apart from `UVPT`, the directory refers to page tables, which are managed pages.
theorem BootInv.kernTarget (i : BootInv m s [] []) (hv : PDX va ≠ UVPTX) {pt : Nat}
    (h : entryPage (s.mem m.kernPgdir (PDX va)) = some pt) :
    s.target m (.ktable ⟨PDX va, PDX_lt⟩) = some pt := by
  by_cases hx : UTOPX ≤ PDX va
  · exact (if_pos ⟨hx, hv⟩ : s.target m (.ktable ⟨PDX va, PDX_lt⟩) = _).trans h
  · have hz : s.mem m.kernPgdir (PDX va) = 0#32 := i.page.kern.below ⟨PDX va, Nat.lt_of_not_le hx⟩
    rw [hz, entryPage_zero] at h
    cases h

-- What `pgdir_walk` leaves of `kern_pgdir` when it makes a page table for `va`.
structure WalkKept (m : Machine) (va : Word) (s s' : State) : Prop where
  pdes : ∀ d, d ≠ PDX va ∨ present (s.mem m.kernPgdir d) → s'.mem m.kernPgdir d = s.mem m.kernPgdir d
  ptes : ∀ va', PDX va' ≠ UVPTX → kernPte m s' va' = kernPte m s va'

theorem WalkKept.refl : WalkKept m va s s :=
  ⟨fun _ _ => rfl, fun _ _ => rfl⟩

-- A fresh page table is put in an empty entry.
theorem BootInv.newTable {p : Nat} (i : BootInv m s [] [])
    (a : PageInv.Allocated m s.mem [] [] 1#32 p s s₁)
    (h0 : s.mem m.kernPgdir (PDX va) = 0#32) :
    WalkKept m va s ((incRef s₁ p).store m.kernPgdir (PDX va)
      (page2pa p ||| PTE_P ||| PTE_W ||| PTE_U)) := by
  have hm : p ∈ [p] := List.mem_cons_self
  have hp := a.inv.hand_managed hm
  have hdir : (incRef s₁ p).mem m.kernPgdir = s.mem m.kernPgdir := a.mem hp.ne_kernPgdir.symm
  have hzero : (incRef s₁ p).mem p = fun _ => 0#32 := a.zero (by decide)
  have hw := PageInv.entryPage_pde hp
  refine ⟨fun d hd => ?_, fun va' hv => ?_⟩
  · have hne : d ≠ PDX va := by
      rintro rfl
      rw [h0] at hd
      exact hd.elim (· rfl) (by simp)
    rw [store_mem_self, update_of_ne hne, hdir]
  · by_cases hd : PDX va' = PDX va
    · have hpde : entryPage (((incRef s₁ p).store m.kernPgdir (PDX va)
          (page2pa p ||| PTE_P ||| PTE_W ||| PTE_U)).mem m.kernPgdir (PDX va')) = some p := by
        rw [store_mem_self, hd, update_self]
        exact hw
      have hold : kernPte m s va' = 0#32 := kernPte_eq_zero (by rw [hd, h0, entryPage_zero])
      rw [hold, kernPte_eq hpde, store_mem_of_ne hp.ne_kernPgdir, hzero]
    · have hpde : ((incRef s₁ p).store m.kernPgdir (PDX va)
          (page2pa p ||| PTE_P ||| PTE_W ||| PTE_U)).mem m.kernPgdir (PDX va') =
          s.mem m.kernPgdir (PDX va') := by
        rw [store_mem_self, update_of_ne hd, hdir]
      cases ht : entryPage (s.mem m.kernPgdir (PDX va'))
      case none =>
        rw [kernPte_eq_zero ht, kernPte_eq_zero (hpde ▸ ht)]
      case some pt =>
        have htgt := i.kernTarget hv ht
        have hk : pt ≠ m.kernPgdir := (i.page.target_managed htgt).ne_kernPgdir
        have hne : pt ≠ p := fun hc => a.inv.hand_unref hm _ (a.target ▸ hc ▸ htgt)
        rw [kernPte_eq ht, kernPte_eq (hpde ▸ ht), store_mem_of_ne hk]
        exact congrFun (a.mem hne) _

theorem BootInv.bootMapWalk_kept (i : BootInv m s [] []) (h : KernIndex va)
    (hw : pgdirWalk m s m.kernPgdir va true = some (some slot, s')) :
    slot.2 = PTX va ∧ WalkKept m va s s' := by
  simp only [pgdirWalk] at hw
  split at hw
  case isFalse hz =>
    simp only [kaddr, Option.bind_eq_bind, Option.bind_eq_some_iff, Option.some.injEq,
      Prod.mk.injEq, Option.ite_none_right_eq_some] at hw
    obtain ⟨_, ⟨_, hs⟩, hs', hss⟩ := hw
    subst hss
    exact ⟨by rw [← hs', ← hs], .refl⟩
  case isTrue hz =>
    simp only [Bool.not_true, Bool.false_eq_true, if_false] at hw
    cases ha : pageAlloc s 1#32 with | mk o s₁ =>
    cases o
    case none => simp [ha] at hw
    case some p =>
      have h0 : s.mem m.kernPgdir (PDX va) = 0#32 := by
        refine i.zero (d := ⟨PDX va, PDX_lt⟩) h.left h.right ?_
        by_contra hc
        obtain ⟨pt, ht⟩ := Option.ne_none_iff_exists'.mp hc
        have hm := i.page.target_managed ht
        have ht : entryPage (s.mem m.kernPgdir (PDX va)) = some pt :=
          (if_pos ⟨h.left, h.right⟩ : s.target m (.ktable ⟨PDX va, PDX_lt⟩) = _).symm.trans ht
        exact hm.ne_zero ((entryPage_eq_some.mp ht).right ▸ PTE_ADDR_eq_zero.mp hz)
      have a := i.page.pageAlloc ha
      have hmg := a.inv.hand_managed List.mem_cons_self
      have hk : kaddr m p (PTX va) = some (p, PTX va) := if_pos hmg.lt_npages
      simp only [ha, hk, Option.bind_eq_bind, Option.bind_some, Option.some.injEq,
        Prod.mk.injEq] at hw
      obtain ⟨hslot, rfl⟩ := hw
      exact ⟨by rw [← hslot], i.newTable a h0⟩

-- A store to the page table that serves `va`.
theorem BootInv.kernPte_store {pt : Nat} (i : BootInv m s [] [])
    (h : s.target m (.ktable ⟨PDX va, PDX_lt⟩) = some pt) (hv : PDX va' ≠ UVPTX) :
    kernPte m (s.store pt (PTX va) w) va' =
      if va'.toNat / PGSIZE = va.toNat / PGSIZE then w else kernPte m s va' := by
  have hk : m.kernPgdir ≠ pt := (i.page.target_managed h).ne_kernPgdir.symm
  have hpde : (s.store pt (PTX va) w).mem m.kernPgdir = s.mem m.kernPgdir := store_mem_of_ne hk
  cases ht : entryPage (s.mem m.kernPgdir (PDX va'))
  case none =>
    have hne : ¬va'.toNat / PGSIZE = va.toNat / PGSIZE := fun hc => by
      obtain ⟨hd, _⟩ := samePage_iff.mp hc
      simp only [State.target] at h
      split at h
      · rw [← hd, ht] at h
        cases h
      · cases h
    rw [if_neg hne, kernPte_eq_zero ht, kernPte_eq_zero (by rw [hpde]; exact ht)]
  case some pt' =>
    have htgt := i.kernTarget hv ht
    rw [kernPte_eq ht, kernPte_eq (by rw [hpde]; exact ht)]
    by_cases hp : pt' = pt
    · subst hp
      have hd : Ref.ktable ⟨PDX va', PDX_lt⟩ = .ktable ⟨PDX va, PDX_lt⟩ := i.page.unique trivial h htgt
      have hd : PDX va' = PDX va := Fin.mk.inj (Ref.ktable.inj hd)
      rw [store_mem_self, update_apply]
      exact if_congr (by rw [samePage_iff]; exact (and_iff_right hd).symm) rfl rfl
    · have hne : ¬va'.toNat / PGSIZE = va.toNat / PGSIZE := fun hc => hp <| by
        obtain ⟨hd, _⟩ := samePage_iff.mp hc
        have hf : (⟨PDX va', PDX_lt⟩ : Fin NPDENTRIES) = ⟨PDX va, PDX_lt⟩ := Fin.ext hd
        rw [hf, h] at htgt
        exact (Option.some.inj htgt).symm
      rw [if_neg hne, store_mem_of_ne hp]

-- One iteration of `boot_map_region`.
theorem BootInv.bootMapPage_kept (i : BootInv m s [] []) (h : KernIndex va)
    (hr : Kern.bootMapPage m s m.kernPgdir va pa perm = some s') :
    (∀ d, d ≠ PDX va ∨ present (s.mem m.kernPgdir d) → s'.mem m.kernPgdir d = s.mem m.kernPgdir d) ∧
      ∀ va', PDX va' ≠ UVPTX → kernPte m s' va' =
        if va'.toNat / PGSIZE = va.toNat / PGSIZE then pa ||| perm ||| PTE_P else kernPte m s va' := by
  simp only [Kern.bootMapPage, Option.bind_eq_bind, Option.bind_eq_some_iff, Prod.exists] at hr
  obtain ⟨o, s₁, hw, hx⟩ := hr
  cases o
  case none => cases hx
  case some slot =>
    cases hx
    obtain ⟨i₁, ht⟩ := i.bootMapWalk h hw
    obtain ⟨hs, k⟩ := i.bootMapWalk_kept h hw
    have hk : m.kernPgdir ≠ slot.1 := (i₁.page.target_managed ht).ne_kernPgdir.symm
    refine ⟨fun d hd => ?_, fun va' hv => ?_⟩
    · rw [store_mem_of_ne hk]
      exact k.pdes d hd
    · rw [hs, i₁.kernPte_store ht hv, k.ptes va' hv]

end Walk

-- `base + size`, rounded up to whole pages, is a number of 32 bits.
def NoWrap (base size : Word) : Prop :=
  base.toNat + (size.toNat + (PGSIZE - 1)) / PGSIZE * PGSIZE < 2 ^ 32

structure Reservation where
  base : Word
  pa : Word
  size : Word

-- Runs of `mmio_map_region` from the first call on, which return the value of `base` and the
-- reservations that were made. `guard` looks at `base` and `size` before each call.
inductive MmioRun (m : Machine) (guard : Word → Word → Prop) (s : State) :
    List Reservation → Word → State → Prop
  | refl : MmioRun m guard s [] MMIOBASE s
  | tail {s₁ s₂ : State} {rs : List Reservation} {base base' pa size : Word} :
    MmioRun m guard s rs base s₁ → pa.toNat % PGSIZE = 0 → 0#32 < size → guard base size →
    mmioMapRegion m s₁ base pa size = some (base', s₂) →
    MmioRun m guard s (rs ++ [⟨base, pa, size⟩]) base' s₂

-- The entry maps the page at `pa` for the kernel only, and uncached.
structure DeviceEntry (pa pte : Word) : Prop where
  addr     : PTE_ADDR pte = pa
  present  : pte &&& PTE_P = PTE_P
  uncached : pte &&& (PTE_PCD ||| PTE_PWT) = PTE_PCD ||| PTE_PWT
  kernel   : pte &&& PTE_U = 0#32

structure Reservation.Sound (m : Machine) (s : State) (r : Reservation) : Prop where
  aligned : r.base.toNat % PGSIZE = 0
  base_le : MMIOBASE ≤ r.base
  le_lim  : r.base.toNat + r.size.toNat ≤ MMIOLIM.toNat
  mapped  : ∀ k, k * PGSIZE < r.size.toNat → DeviceEntry (r.pa + BitVec.ofNat 32 (k * PGSIZE))
    (kernPte m s (r.base + BitVec.ofNat 32 (k * PGSIZE)))

-- What is not in the MMIO region, down to the directory entries. The window at `UVPT` shows those.
structure OutsideKept (m : Machine) (s s' : State) : Prop where
  pdes : ∀ d, d ≠ PDX MMIOBASE ∨ present (s.mem m.kernPgdir d) →
    s'.mem m.kernPgdir d = s.mem m.kernPgdir d
  ptes : ∀ va, va < MMIOBASE ∨ MMIOLIM ≤ va → PDX va ≠ PDX UVPT → kernPte m s' va = kernPte m s va

structure MmioSound (m : Machine) (s : State) (rs : List Reservation) (s' : State) : Prop where
  reserved : ∀ r ∈ rs, r.Sound m s'
  disjoint : rs.Pairwise fun r r' => r.base.toNat + r.size.toNat ≤ r'.base.toNat
  outside  : OutsideKept m s s'

theorem mmiobase_toNat : MMIOBASE.toNat = 4018143232 := by decide

theorem mmiolim_toNat : MMIOLIM.toNat = 4022337536 := by decide

theorem deviceEntry (h : pa.toNat % 4096 = 0) :
    DeviceEntry pa (pa ||| (PTE_PCD ||| PTE_PWT ||| PTE_W) ||| PTE_P) := by
  have hor (v : Word) : (pa ||| (PTE_PCD ||| PTE_PWT ||| PTE_W) ||| PTE_P) &&& v =
      (pa &&& v) ||| ((PTE_PCD ||| PTE_PWT ||| PTE_W ||| PTE_P) &&& v) := by
    rw [BitVec.or_assoc, BitVec.and_or_distrib_right]
  refine ⟨?_, ?_, ?_, ?_⟩
  · rw [PTE_ADDR, hor, ← PTE_ADDR, PTE_ADDR_aligned h]
    exact BitVec.or_zero
  all_goals
    rw [hor, and_aligned h (by decide)]
    decide

section Region

variable {n : Nat}

-- The address of page `k` of a region in the MMIO window.
theorem region_toNat {k : Nat} (hl : base.toNat + n * PGSIZE ≤ MMIOLIM.toNat)
    (hk : k < n) : (base + BitVec.ofNat 32 (k * PGSIZE)).toNat = base.toNat + k * PGSIZE := by
  rw [mmiolim_toNat, PGSIZE] at hl
  rw [BitVec.toNat_add, BitVec.toNat_ofNat, PGSIZE]
  omega

theorem kernIndex_region {k : Nat} (hb : MMIOBASE ≤ base)
    (hl : base.toNat + n * PGSIZE ≤ MMIOLIM.toNat) (hk : k < n) :
    BootInv.KernIndex (base + BitVec.ofNat 32 (k * PGSIZE)) := by
  have ht := region_toNat hl hk
  rw [BitVec.le_def, mmiobase_toNat] at hb
  rw [mmiolim_toNat, PGSIZE] at hl
  rw [PGSIZE] at ht
  rw [BootInv.kernIndex_iff, PGSIZE, ht]
  omega

theorem PDX_region {k : Nat} (hb : MMIOBASE ≤ base)
    (hl : base.toNat + n * PGSIZE ≤ MMIOLIM.toNat) (hk : k < n) :
    PDX (base + BitVec.ofNat 32 (k * PGSIZE)) = PDX MMIOBASE := by
  have ht := region_toNat hl hk
  rw [BitVec.le_def, mmiobase_toNat] at hb
  rw [mmiolim_toNat, PGSIZE] at hl
  rw [PGSIZE] at ht
  rw [PDX_eq_div, PDX_eq_div, PGSIZE, ht, mmiobase_toNat]
  omega

-- The region is mapped, and nothing else.
structure RegionMapped (m : Machine) (base pa perm : Word) (n : Nat) (s s' : State) : Prop where
  inv  : BootInv m s' [] []
  pdes : ∀ d, d ≠ PDX MMIOBASE ∨ present (s.mem m.kernPgdir d) →
    s'.mem m.kernPgdir d = s.mem m.kernPgdir d
  new  : ∀ k < n, ∀ va, PDX va ≠ UVPTX → va.toNat / PGSIZE = base.toNat / PGSIZE + k →
    kernPte m s' va = pa + BitVec.ofNat 32 (k * PGSIZE) ||| perm ||| PTE_P
  old  : ∀ va, PDX va ≠ UVPTX → (∀ k < n, va.toNat / PGSIZE ≠ base.toNat / PGSIZE + k) →
    kernPte m s' va = kernPte m s va

theorem bootMapRegion_mapped (i : BootInv m s [] []) (hb : MMIOBASE ≤ base)
    (hl : base.toNat + size.toNat / PGSIZE * PGSIZE ≤ MMIOLIM.toNat)
    (hr : bootMapRegion m s m.kernPgdir base size pa perm = some s') :
    RegionMapped m base pa perm (size.toNat / PGSIZE) s s' := by
  refine foldlM_range (P := fun n s' => RegionMapped m base pa perm n s s') hr ?_ ?_
  · exact ⟨i, fun _ _ => rfl, fun k hk => absurd hk (Nat.not_lt_zero k), fun _ _ _ => rfl⟩
  intro s₁ s₂ k hk r hs
  have hki := kernIndex_region hb hl hk
  obtain ⟨hpde, hpte⟩ := r.inv.bootMapPage_kept hki hs
  rw [PDX_region hb hl hk] at hpde
  have hpg : (base + BitVec.ofNat 32 (k * PGSIZE)).toNat / PGSIZE = base.toNat / PGSIZE + k := by
    rw [region_toNat hl hk, PGSIZE]
    omega
  simp only [hpg] at hpte
  refine ⟨r.inv.bootMapPage hki hs, fun d hd => ?_, fun j hj va hv hva => ?_, fun va hv hva => ?_⟩
  · have hd₁ : d ≠ PDX MMIOBASE ∨ present (s₁.mem m.kernPgdir d) := by
      rcases hd with hd | hd
      · exact .inl hd
      · rw [r.pdes d (.inr hd)]
        exact .inr hd
    rw [hpde d hd₁, r.pdes d hd]
  · rw [hpte va hv]
    by_cases hjk : j = k
    · rw [hjk] at hva ⊢
      rw [if_pos hva]
    · rw [if_neg (by omega)]
      exact r.new j (by omega) va hv hva
  · rw [hpte va hv, if_neg (hva k (Nat.lt_succ_self k))]
    exact r.old va hv fun j hj => hva j (Nat.lt_succ_of_lt hj)

end Region

section Run

variable {rs : List Reservation}

-- The pages of a reservation of `size` bytes.
def pagesOf (size : Word) : Nat := (size.toNat + (PGSIZE - 1)) / PGSIZE

theorem roundup_size (hb : MMIOBASE ≤ base) (hw : NoWrap base size) :
    (ROUNDUP size 4096#32).toNat = pagesOf size * PGSIZE := by
  rw [BitVec.le_def, mmiobase_toNat] at hb
  rw [NoWrap, PGSIZE] at hw
  rw [ROUNDUP_toNat (by omega), pagesOf, PGSIZE]

-- A call that returns, where the sizes do not wrap.
theorem mmioMapRegion_mapped (i : BootInv m s [] []) (hb : MMIOBASE ≤ base) (hw : NoWrap base size)
    (hr : mmioMapRegion m s base pa size = some (base', s')) :
    base'.toNat = base.toNat + pagesOf size * PGSIZE ∧ base' < MMIOLIM ∧
      RegionMapped m base pa (PTE_PCD ||| PTE_PWT ||| PTE_W) (pagesOf size) s s' := by
  have hsz := roundup_size hb hw
  have hn : (ROUNDUP size 4096#32).toNat / PGSIZE = pagesOf size := by
    rw [hsz, PGSIZE]
    omega
  have hsum : (base + ROUNDUP size 4096#32).toNat = base.toNat + pagesOf size * PGSIZE := by
    rw [BitVec.toNat_add, hsz]
    exact Nat.mod_eq_of_lt hw
  simp only [Kern.mmioMapRegion] at hr
  split at hr
  case isTrue => cases hr
  case isFalse hlt =>
    simp only [Option.bind_eq_bind, Option.bind_eq_some_iff, Option.some.injEq, Prod.mk.injEq] at hr
    obtain ⟨s₁, h₁, rfl, rfl⟩ := hr
    have hlim := BitVec.lt_def.mp (BitVec.not_le.mp hlt)
    have h := bootMapRegion_mapped i hb (by rw [hn, ← hsum]; exact hlim.le) h₁
    rw [hn] at h
    exact ⟨hsum, BitVec.not_le.mp hlt, h⟩

-- What holds between the calls of a run: the next reservation starts behind the others.
structure MmioInv (m : Machine) (s : State) (rs : List Reservation) (base : Word) (s' : State) : Prop where
  inv     : BootInv m s' [] []
  sound   : MmioSound m s rs s'
  aligned : base.toNat % PGSIZE = 0
  base_le : MMIOBASE ≤ base
  lt_lim  : base < MMIOLIM
  behind  : ∀ r ∈ rs, r.base.toNat + pagesOf r.size * PGSIZE ≤ base.toNat

theorem MmioInv.refl (i : BootInv m s [] []) : MmioInv m s [] MMIOBASE s where
  inv     := i
  sound   := ⟨fun _ hr => absurd hr List.not_mem_nil, .nil, fun _ _ => rfl, fun _ _ _ => rfl⟩
  aligned := by decide
  base_le := BitVec.le_refl _
  lt_lim  := by decide
  behind  := fun _ hr => absurd hr List.not_mem_nil

theorem pagesOf_le {k : Nat} (h : k * PGSIZE < size.toNat) : k < pagesOf size := by
  rw [PGSIZE] at h
  rw [pagesOf, PGSIZE]
  omega

theorem le_pagesOf : size.toNat ≤ pagesOf size * PGSIZE := by
  rw [pagesOf, PGSIZE]
  omega

-- The addresses of the window are not served by the entry for `UVPT`.
theorem PDX_mmio (hb : MMIOBASE ≤ va) (hl : va < MMIOLIM) : PDX va ≠ UVPTX :=
  (BootInv.kernIndex_mmio hb hl).right

theorem MmioInv.tail (i : MmioInv m s rs base s₁) (hp : pa.toNat % PGSIZE = 0) (hw : NoWrap base size)
    (hr : mmioMapRegion m s₁ base pa size = some (base', s')) :
    MmioInv m s (rs ++ [⟨base, pa, size⟩]) base' s' := by
  obtain ⟨hb', hl', r⟩ := mmioMapRegion_mapped i.inv i.base_le hw hr
  have hb := i.base_le
  have hl := hl'
  have ha := i.aligned
  rw [BitVec.le_def, mmiobase_toNat] at hb
  rw [BitVec.lt_def, mmiolim_toNat, hb', PGSIZE] at hl
  rw [PGSIZE] at ha
  have hn : base.toNat + pagesOf size * PGSIZE ≤ MMIOLIM.toNat := by
    rw [mmiolim_toNat, PGSIZE]
    omega
  refine { inv := r.inv, sound := ?sound, aligned := ?aligned, base_le := ?base_le,
           lt_lim := hl', behind := ?behind }
  case aligned =>
    rw [hb', PGSIZE]
    omega
  case base_le =>
    rw [BitVec.le_def, mmiobase_toNat, hb', PGSIZE]
    omega
  case behind =>
    intro x hx
    rcases List.mem_append.mp hx with hx | hx
    · have := i.behind x hx
      rw [hb']
      omega
    · rw [List.mem_singleton.mp hx, hb']
  case sound =>
    refine ⟨fun x hx => ?_, ?_, fun d hd => ?_, fun va hva hv => ?_⟩
    · rcases List.mem_append.mp hx with hx | hx
      · -- The pages of an earlier reservation are below `base`.
        have hs := i.sound.reserved x hx
        refine { hs with mapped := fun k hk => ?_ }
        have hbx := BitVec.le_def.mp hs.base_le
        have hax := hs.aligned
        have hle := i.behind x hx
        have hkx := pagesOf_le hk
        have hmul : k * PGSIZE + PGSIZE ≤ pagesOf x.size * PGSIZE := by
          rw [← Nat.succ_mul]
          exact Nat.mul_le_mul_right _ hkx
        rw [mmiobase_toNat] at hbx
        rw [PGSIZE] at hax hle hmul
        have hva : (x.base + BitVec.ofNat 32 (k * PGSIZE)).toNat = x.base.toNat + k * PGSIZE :=
          region_toNat (n := pagesOf x.size) (by rw [mmiolim_toNat, PGSIZE]; omega) hkx
        rw [PGSIZE] at hva
        rw [r.old]
        · exact hs.mapped k hk
        · refine PDX_mmio ?_ ?_
          · rw [BitVec.le_def, mmiobase_toNat, PGSIZE, hva]
            omega
          · rw [BitVec.lt_def, mmiolim_toNat, PGSIZE, hva]
            omega
        · intro j _
          rw [PGSIZE, hva]
          omega
      · rw [List.mem_singleton.mp hx]
        refine ⟨i.aligned, i.base_le, (Nat.add_le_add_left le_pagesOf _).trans hn, fun k hk => ?_⟩
        have hkn := pagesOf_le hk
        have hva := region_toNat hn hkn
        have hpk : (pa + BitVec.ofNat 32 (k * PGSIZE)).toNat % 4096 = 0 := by
          rw [BitVec.toNat_add, BitVec.toNat_ofNat, PGSIZE]
          rw [PGSIZE] at hp
          omega
        rw [r.new k hkn]
        · exact deviceEntry hpk
        · exact (kernIndex_region i.base_le hn hkn).right
        · rw [hva, PGSIZE]
          omega
    · refine List.pairwise_append.mpr ⟨i.sound.disjoint, List.pairwise_singleton .., fun x hx y hy => ?_⟩
      rw [List.mem_singleton.mp hy]
      exact (Nat.add_le_add_left le_pagesOf _).trans (i.behind x hx)
    · have hd₁ : d ≠ PDX MMIOBASE ∨ present (s₁.mem m.kernPgdir d) := by
        rcases hd with hd | hd
        · exact .inl hd
        · rw [i.sound.outside.pdes d (.inr hd)]
          exact .inr hd
      rw [r.pdes d hd₁, i.sound.outside.pdes d hd]
    · rw [r.old va (UVPTX_eq ▸ hv) fun j hj => ?_, i.sound.outside.ptes va hva hv]
      simp only [BitVec.lt_def, BitVec.le_def, mmiobase_toNat, mmiolim_toNat] at hva
      rw [PGSIZE]
      omega

theorem MmioRun.mmioInv (i : BootInv m s [] []) (r : MmioRun m NoWrap s rs base s') :
    MmioInv m s rs base s' := by
  induction r
  case refl                => exact .refl i
  case tail hp _ hw hr hi  => exact hi.tail hp hw hr

-- While no size wraps, the reservations are disjoint mapped parts of the MMIO region, and nothing else
-- changes. A call for which it wraps does not panic at the limit and is not inside.
theorem mmio_map_region_exact (i : BootInv m s [] []) (r : MmioRun m NoWrap s rs base s') :
    MmioSound m s rs s' ∧ ∀ pa size base' s'', mmioMapRegion m s' base pa size = some (base', s'') →
      (base.toNat + size.toNat ≤ MMIOLIM.toNat ↔ NoWrap base size) := by
  have hi := r.mmioInv i
  refine ⟨hi.sound, fun pa size base' s'' hr => ⟨fun h => ?_, fun hw => ?_⟩⟩
  · rw [mmiolim_toNat] at h
    rw [NoWrap, PGSIZE]
    omega
  · obtain ⟨hb', hl', _⟩ := mmioMapRegion_mapped hi.inv hi.base_le hw hr
    have hle : size.toNat ≤ pagesOf size * PGSIZE := le_pagesOf
    have := BitVec.lt_def.mp hl'
    omega

-- A device with two pages.
theorem mmio_map_region_exact_device : ∃ base s, MmioSound Sample.machine Sample.boot
    [⟨MMIOBASE, 0xFEE00000#32, 4097#32⟩] s ∧ base = MMIOBASE + 8192#32 := by
  have hs : (mmioMapRegion Sample.machine Sample.boot MMIOBASE 0xFEE00000#32 4097#32).isSome := by
    decide +kernel
  have hb : ((mmioMapRegion Sample.machine Sample.boot MMIOBASE 0xFEE00000#32 4097#32).map (·.1)) =
      some (MMIOBASE + 8192#32) := by decide +kernel
  obtain ⟨⟨base, s⟩, hr⟩ := Option.isSome_iff_exists.mp hs
  rw [hr] at hb
  have r₀ : MmioRun Sample.machine NoWrap Sample.boot [] MMIOBASE Sample.boot := .refl
  have r := r₀.tail (by decide) (by decide) (by rw [NoWrap]; decide) hr
  exact ⟨base, s, (mmio_map_region_exact Sample.boot_boot.bootInv r).left, Option.some.inj hb⟩

-- The size is rounded up to 0, and nothing is mapped.
theorem not_mmio_map_region_exact : ¬∀ {m s rs base s'}, BootInv m s [] [] →
    MmioRun m (fun _ _ => True) s rs base s' → MmioSound m s rs s' := by
  intro h
  have r₀ : MmioRun Sample.machine (fun _ _ => True) Sample.boot [] MMIOBASE Sample.boot := .refl
  have hr : mmioMapRegion Sample.machine Sample.boot MMIOBASE 0#32 0xFFFFFFFF#32 =
    some (MMIOBASE + ROUNDUP 0xFFFFFFFF#32 4096#32, Sample.boot) := rfl
  have r := r₀.tail (by decide) (by decide) trivial hr
  have hs := (h Sample.boot_boot.bootInv r).reserved _ (List.mem_append_right _ List.mem_cons_self)
  exact absurd hs.le_lim (by decide)

end Run

end Kern

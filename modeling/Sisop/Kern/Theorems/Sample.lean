import Sisop.Kern.Theorems.Init
import Sisop.Kern.Sample
import Mathlib.Tactic.Ring

namespace Kern.Sample

open Inc Function Library

section PageInit

-- The state of the loop in `page_init` after the pages up to `k`.
def initStage (k : Nat) : State where
  pages p      := if p = 0 ∨ k < p then ⟨none, 0#16⟩ else page p
  pageFreeList := lastFree k
  mem p        := if p = 1024 then kernDir 0 else fun _ => 0#32
  envs _       := .zero
  envFreeList  := none

theorem pageInitPage_eq {k : Nat} (hk : k < 32767) :
    pageInitPage machine (initStage k) (k + 1) = initStage (k + 1) := by
  have hio : IOPHYSMEM / PGSIZE = 160 := rfl
  have hend : machine.endPageKernel = 1120 := rfl
  have hmp : MPENTRY_PADDR / PGSIZE = 7 := rfl
  have hpages (i : PageInfo) (hi : i = page (k + 1)) :
      update (initStage k).pages (k + 1) i = (initStage (k + 1)).pages := by
    funext p
    by_cases hp : p = k + 1
    · subst hp
      simp [initStage, hi]
    · have : (p = 0 ∨ k < p) ↔ (p = 0 ∨ k + 1 < p) := by omega
      simp [initStage, hp, this]
  simp only [pageInitPage, hio, hend, hmp]
  split
  case isTrue h =>
    ext1
    · exact hpages ⟨none, 1#16⟩ (by rw [page, if_neg (by omega), if_pos (.inl h)])
    · simp only [initStage, State.setPage, lastFree]
      split_ifs <;> first | rfl | omega | (congr 1; omega)
    all_goals rfl
  case isFalse h =>
    split
    case isTrue h' =>
      ext1
      · exact hpages ⟨none, 1#16⟩ (by rw [page, if_neg (by omega), if_pos (.inr h')])
      · simp [initStage, State.setPage, lastFree, show k = 6 by omega]
      all_goals rfl
    case isFalse h' =>
      ext1
      · exact hpages _ (by
          rw [page, if_neg (by omega), if_neg (by omega)]
          rfl)
      · simp [initStage, State.setPageFreeList, lastFree, h']
        omega
      all_goals rfl

theorem pageInit_eq {c : Nat → Nat → Word} :
    pageInit machine (bootState machine fun _ _ => 0#32) = stage (fun _ => .zero) none 0 c := by
  have h₀ : bootState machine (fun _ _ => 0#32) = initStage 0 := by
    ext1
    · funext p
      simp [bootState, initStage]
    · rfl
    · funext p
      by_cases hp : p = 1024
      · subst hp
        funext d
        have hd : PDX UVPT = 957 := UVPTX_eq
        simp [bootState, initStage, Machine.kernPgdir, machine, kernDir, hd, update_apply]
      · simp [bootState, initStage, Machine.kernPgdir, machine, hp]
    all_goals rfl
  have h₁ : pageInit machine (initStage 0) = initStage 32767 :=
    foldl_range (P := fun k s => s = initStage k) rfl fun hk hs => by
      rw [hs]
      exact pageInitPage_eq hk
  rw [h₀, h₁]
  ext1
  · funext p
    simp only [initStage, stage, page]
    split_ifs <;> first | rfl | omega
  · rfl
  · funext p
    simp only [initStage, stage]
    split_ifs <;> first | rfl | omega
  all_goals rfl

end PageInit

section Stage

variable {v : EnvPtr → Env} {l : Option EnvPtr} {n k lo cnt : Nat} {c : Nat → Nat → Word}
  {va pa perm : Word}

theorem kernDir_eq {d : Nat} (hx : 955 ≤ d ∧ d < 1024 ∧ d ≠ 957) :
    kernDir n d = if order d < n then pde (32767 - order d) else 0#32 := by
  obtain ⟨h₁, h₂, h₃⟩ := hx
  simp only [kernDir, if_neg h₃, h₁, h₂, true_and]

theorem order_inj {d d' : Nat} (h : 955 ≤ d ∧ d < 1024 ∧ d ≠ 957) (h' : 955 ≤ d' ∧ d' < 1024 ∧ d' ≠ 957)
    (ho : order d = order d') : d = d' := by
  simp only [order] at ho
  split_ifs at ho <;> omega

theorem PGNUM_pde (h : n < 68) : PGNUM (pde (32767 - n)) = 32767 - n ∧ PTE_ADDR (pde (32767 - n)) ≠ 0#32 := by
  have hp : PGNUM (pde (32767 - n)) = 32767 - n := by
    have hm : Managed machine (32767 - n) := by
      have h₁ : MPENTRY_PADDR / PGSIZE = 7 := rfl
      have h₂ : machine.endPageKernel = 1120 := rfl
      have h₃ : machine.npages = 32768 := rfl
      simp only [Managed, h₁, h₂, h₃]
      omega
    exact (entryPage_eq_some.mp (PageInv.entryPage_pde hm)).right
  refine ⟨hp, fun hc => ?_⟩
  rw [PTE_ADDR_eq_zero, hp] at hc
  omega

-- The page table with number `k` is found.
theorem walk_stage (create : Bool) (hx : 955 ≤ PDX va ∧ PDX va < 1024 ∧ PDX va ≠ 957)
    (ho : order (PDX va) = k) (hk : k < n) (hn : n ≤ 68) :
    pgdirWalk machine (stage v l n c) 1024 va create =
      some (some (32767 - k, PTX va), stage v l n c) := by
  obtain ⟨hp, hz⟩ := PGNUM_pde (show k < 68 by omega)
  have hd : (stage v l n c).mem 1024 (PDX va) = pde (32767 - k) := by
    simp only [stage, if_true]
    rw [kernDir_eq hx, if_pos (by omega), ho]
  have hk : kaddr machine (32767 - k) (PTX va) = some (32767 - k, PTX va) :=
    if_pos (show 32767 - k < 32768 by omega)
  simp [pgdirWalk, hd, hz, hp, hk]

-- The next page table is allocated.
theorem walk_new (hx : 955 ≤ PDX va ∧ PDX va < 1024 ∧ PDX va ≠ 957) (ho : order (PDX va) = n)
    (hn : n < 68) :
    pgdirWalk machine (stage v l n c) 1024 va true =
      some (some (32767 - n, PTX va), stage v l (n + 1) (update c n fun _ => 0#32)) := by
  have hd : (stage v l n c).mem 1024 (PDX va) = 0#32 := by
    simp only [stage, if_true]
    rw [kernDir_eq hx, if_neg (by omega)]
  have hz : PTE_ADDR 0#32 = 0#32 := by decide
  have hk : kaddr machine (32767 - n) (PTX va) = some (32767 - n, PTX va) :=
    if_pos (show 32767 - n < 32768 by omega)
  have hpage : (stage v l n c).pages (32767 - n) = ⟨some (32767 - (n + 1)), 0#16⟩ := by
    simp only [stage, page, lastFree]
    rw [if_neg (by omega), if_neg (by omega), if_neg (by omega), if_neg (by omega),
      if_neg (by omega), if_neg (by omega)]
    rfl
  have hzero : allocZero 1#32 = true := by decide
  simp only [pgdirWalk, hd, hz, if_true, Bool.not_true, Bool.false_eq_true, if_false, pageAlloc,
    show (stage v l n c).pageFreeList = some (32767 - n) from rfl, hpage, hzero, hk,
    Option.bind_eq_bind, Option.bind_some, Option.some.injEq, Prod.mk.injEq, true_and]
  ext1
  · funext p
    by_cases hp : p = 32767 - n
    · have hnew : (stage v l (n + 1) (update c n fun _ => 0#32)).pages p = ⟨none, 1#16⟩ :=
        if_pos (by omega)
      rw [hnew, hp]
      simp [incRef, hpage]
    · have : (32768 ≤ p + n ∧ p < 32768) ↔ (32768 ≤ p + (n + 1) ∧ p < 32768) := by omega
      simp [incRef, stage, State.store, State.fill, hp, this]
  · rfl
  · funext p
    by_cases hp : p = 1024
    · subst hp
      funext d
      have hne : 1024 ≠ 32767 - n := by omega
      simp only [incRef, State.setPage_mem, State.store_mem_self, State.fill_mem_of_ne hne, stage,
        if_true, update_apply, State.setPageFreeList_mem]
      by_cases hd : d = PDX va
      · rw [if_pos hd, hd, kernDir_eq hx, if_pos (by omega), ho]
        rfl
      · rw [if_neg hd]
        simp only [kernDir]
        split
        · rfl
        · have : order d ≠ n ∨ ¬(955 ≤ d ∧ d < 1024) := by
            by_contra hc
            simp only [not_or, not_not] at hc
            exact hd (order_inj ⟨hc.right.left, hc.right.right, by assumption⟩ hx (hc.left.trans ho.symm))
          have : (955 ≤ d ∧ d < 1024 ∧ order d < n) ↔ (955 ≤ d ∧ d < 1024 ∧ order d < n + 1) := by
            omega
          simp only [this]
    · simp only [incRef, State.setPage_mem, State.store_mem_of_ne hp, stage, if_neg hp]
      by_cases hpn : p = 32767 - n
      · have hin : 32768 ≤ p + (n + 1) ∧ p < 32768 := by omega
        rw [if_pos hin, ← hpn, State.fill_mem_self, show 32767 - p = n by omega, update_self]
      · have : (32768 ≤ p + n ∧ p < 32768) ↔ (32768 ≤ p + (n + 1) ∧ p < 32768) := by omega
        rw [State.fill_mem_of_ne hpn]
        simp only [State.setPage_mem, State.setPageFreeList_mem, if_neg hp, this]
        split
        · rw [update_of_ne (by omega)]
        · rfl
  all_goals rfl

-- A store into the page table with number `k`.
theorem store_stage (hk : k < n) (hn : n ≤ 68) {i : Nat} {w : Word} :
    (stage v l n c).store (32767 - k) i w = stage v l n (update c k (update (c k) i w)) := by
  have hc : ¬32767 - k = 1024 := by omega
  have hin : 32768 ≤ 32767 - k + n ∧ 32767 - k < 32768 := by omega
  have hmem : (stage v l n c).mem (32767 - k) = c k := by
    simp only [stage, if_neg hc, if_pos hin]
    congr 1
    omega
  ext1
  · rfl
  · rfl
  · funext p
    by_cases hp : p = 32767 - k
    · rw [hp, State.store_mem_self, hmem]
      simp only [stage, if_neg hc, if_pos hin]
      rw [show 32767 - (32767 - k) = k by omega, update_self]
    · rw [State.store_mem_of_ne hp]
      simp only [stage]
      split
      · rfl
      · split
        · rw [update_of_ne (by omega)]
        · rfl
  all_goals rfl

theorem region_succ {j : Nat} {old : Nat → Word} :
    update (region lo j pa perm old) (lo + j) (pa + BitVec.ofNat 32 (j * PGSIZE) ||| perm ||| PTE_P) =
      region lo (j + 1) pa perm old := by
  funext i
  by_cases hi : i = lo + j
  · subst hi
    simp [region]
  · have : (lo ≤ i ∧ i < lo + j) ↔ (lo ≤ i ∧ i < lo + (j + 1)) := by omega
    simp [region, hi, this]

-- The indices of the pages in a region that one page table serves.
structure InTable (d lo cnt : Nat) (va : Word) : Prop where
  index : va.toNat = d * 4194304 + lo * 4096
  dir   : 955 ≤ d ∧ d < 1024 ∧ d ≠ 957
  fits  : lo + cnt ≤ 1024

theorem InTable.page {d j : Nat} (h : InTable d lo cnt va) (hj : j < cnt) :
    PDX (va + BitVec.ofNat 32 (j * PGSIZE)) = d ∧ PTX (va + BitVec.ofNat 32 (j * PGSIZE)) = lo + j := by
  obtain ⟨h₁, ⟨h₂, h₃, _⟩, h₄⟩ := h
  have hj : j * 4096 < 4294967296 := by linarith
  have hv : d * 4194304 + lo * 4096 + j * 4096 < 4294967296 := by linarith
  have : (va + BitVec.ofNat 32 (j * PGSIZE)).toNat = d * 4194304 + lo * 4096 + j * 4096 := by
    rw [BitVec.toNat_add, BitVec.toNat_ofNat, PGSIZE, Nat.mod_eq_of_lt hj, h₁, Nat.mod_eq_of_lt hv]
  rw [PDX_eq_div, PTX_eq_mod, this]
  omega

-- A region inside a page table that exists.
theorem mapRegion_stage {d : Nat} {size : Word} (h : InTable d lo cnt va) (ho : order d = k)
    (hk : k < n) (hn : n ≤ 68) (hs : size.toNat / PGSIZE = cnt) :
    bootMapRegion machine (stage v l n c) 1024 va size pa perm =
      some (stage v l n (update c k (region lo cnt pa perm (c k)))) := by
  have h0 : stage v l n c = stage v l n (update c k (region lo 0 pa perm (c k))) := by
    have : region lo 0 pa perm (c k) = c k := by
      funext i
      simp only [region]
      rw [if_neg (by omega)]
    rw [this, update_eq_self]
  rw [bootMapRegion, hs, h0]
  refine foldlM_range_eq (S := fun j => stage v l n (update c k (region lo j pa perm (c k)))) ?_
  intro j hj
  obtain ⟨hd, ht⟩ := h.page hj
  have hw := walk_stage (v := v) (l := l) (c := update c k (region lo j pa perm (c k))) true
    (hd.symm ▸ h.dir) (hd.symm ▸ ho) hk hn
  refine Option.bind_eq_some_iff.mpr ⟨_, hw, ?_⟩
  simp only [Option.some.injEq]
  rw [store_stage hk hn, update_self, update_idem, ht, region_succ]

-- A region at the start of which the page table is allocated.
theorem mapRegion_new {d : Nat} {size : Word} (h : InTable d lo cnt va) (ho : order d = n)
    (hn : n < 68) (hs : size.toNat / PGSIZE = cnt) (hc : 0 < cnt) :
    bootMapRegion machine (stage v l n c) 1024 va size pa perm =
      some (stage v l (n + 1) (update c n (region lo cnt pa perm fun _ => 0#32))) := by
  obtain ⟨hd, _⟩ := h.page hc
  have hx := hd.symm ▸ h.dir
  have hw := walk_new (v := v) (l := l) (c := c) hx (hd.symm ▸ ho) hn
  have hw' := walk_stage (v := v) (l := l) (c := update c n fun _ => 0#32) true hx (hd.symm ▸ ho)
    (Nat.lt_succ_self n) hn
  have hstep : bootMapRegion machine (stage v l n c) 1024 va size pa perm =
      bootMapRegion machine (stage v l (n + 1) (update c n fun _ => 0#32)) 1024 va size pa perm := by
    obtain ⟨j, hj⟩ := Nat.exists_eq_succ_of_ne_zero (Nat.ne_of_gt hc)
    simp only [bootMapRegion, hs, hj, Nat.succ_eq_add_one, List.range_succ_eq_map, List.foldlM_cons,
      bootMapPage, hw, hw']
  rw [hstep, mapRegion_stage h ho (Nat.lt_succ_self n) hn hs, update_self, update_idem]

end Stage

section Boot

variable {v : EnvPtr → Env} {l : Option EnvPtr} {c : Nat → Nat → Word}

theorem stage_congr {n : Nat} {c' : Nat → Nat → Word} (h : ∀ k < n, c k = c' k) :
    stage v l n c = stage v l n c' := by
  ext1
  · rfl
  · rfl
  · funext p
    simp only [stage]
    split
    · rfl
    · split
      · exact h _ (by omega)
      · rfl
  all_goals rfl

def mmioPerm : Word := PTE_PCD ||| PTE_PWT ||| PTE_W

theorem mmio_stage {n lo cnt : Nat} {base pa size : Word} (h : InTable 958 lo cnt base) (h0 : 0 < n)
    (hn : n ≤ 68) (hs : (ROUNDUP size 4096#32).toNat / PGSIZE = cnt)
    (hb : ¬MMIOLIM ≤ base + ROUNDUP size 4096#32) :
    mmioMapRegion machine (stage v l n c) base pa size = some (base + ROUNDUP size 4096#32,
      stage v l n (update c 0 (region lo cnt pa mmioPerm (c 0)))) := by
  rw [mmioMapRegion, if_neg hb]
  exact Option.bind_eq_some_iff.mpr ⟨_, mapRegion_stage h rfl h0 hn hs, rfl⟩

theorem mmio_new {lo cnt : Nat} {base pa size : Word} (h : InTable 958 lo cnt base) (hc : 0 < cnt)
    (hs : (ROUNDUP size 4096#32).toNat / PGSIZE = cnt)
    (hb : ¬MMIOLIM ≤ base + ROUNDUP size 4096#32) :
    mmioMapRegion machine (stage v l 0 c) base pa size = some (base + ROUNDUP size 4096#32,
      stage v l 1 (update c 0 (region lo cnt pa mmioPerm fun _ => 0#32))) := by
  rw [mmioMapRegion, if_neg hb]
  exact Option.bind_eq_some_iff.mpr ⟨_, mapRegion_new h rfl (by omega) hs hc, rfl⟩

-- Clearing an entry in the test of `mmio_map_region`.
theorem clear_stage {i : Nat} (hi : i < 3) :
    clearEntry machine (stage v l 1 c) (MMIOBASE + BitVec.ofNat 32 (i * PGSIZE)) =
      some (stage v l 1 (update c 0 (update (c 0) i 0#32))) := by
  have h : InTable 958 0 3 MMIOBASE := ⟨rfl, by omega, by omega⟩
  obtain ⟨hd, ht⟩ := h.page hi
  have hw := walk_stage (v := v) (l := l) (n := 1) (k := 0) (c := c) false (hd.symm ▸ h.dir)
    (hd.symm ▸ rfl) (by omega) (by omega)
  rw [ht, Nat.zero_add] at hw
  rw [clearEntry, show machine.kernPgdir = 1024 from rfl, hw]
  simp only [Option.bind_eq_bind, Option.bind_some]
  rw [store_stage (by omega) (by omega)]

theorem checkMmio_eq : checkMmio machine (stage v l 0 c) =
    some (MMIOBASE + 12288#32, stage v l 1 (update c 0 fun _ => 0#32)) := by
  have h₁ : InTable 958 0 2 MMIOBASE := ⟨rfl, by omega, by omega⟩
  have h₂ : InTable 958 2 1 (MMIOBASE + 8192#32) := ⟨rfl, by omega, by omega⟩
  have e₁ : mmioMapRegion machine (stage v l 0 c) MMIOBASE 0#32 4097#32 = some (MMIOBASE + 8192#32, _) :=
    mmio_new h₁ (by omega) rfl (by decide)
  have e₂ (c) : mmioMapRegion machine (stage v l 1 c) (MMIOBASE + 8192#32) 0#32 4096#32 =
      some (MMIOBASE + 12288#32, _) := mmio_stage h₂ (by omega) (by omega) rfl (by decide)
  have e₃ (c) : clearEntry machine (stage v l 1 c) MMIOBASE = some _ := clear_stage (i := 0) (by omega)
  have e₄ (c) : clearEntry machine (stage v l 1 c) (MMIOBASE + 4096#32) = some _ :=
    clear_stage (i := 1) (by omega)
  have e₅ (c) : clearEntry machine (stage v l 1 c) (MMIOBASE + 8192#32) = some _ :=
    clear_stage (i := 2) (by omega)
  have hz : update (update (update (region 2 1 0#32 mmioPerm
      (region 0 2 0#32 mmioPerm fun _ => 0#32)) 0 0#32) 1 0#32) 2 0#32 = fun _ => 0#32 := by
    funext i
    simp only [update_apply, region]
    split_ifs <;> first | rfl | omega
  simp only [checkMmio, e₁, e₂, e₃, e₄, e₅, Option.bind_eq_bind, Option.bind_some, update_self,
    update_idem, hz]

-- The tables up to number `n`, from the fourth on, map physical memory from 0 on.
def memTables (c : Nat → Nat → Word) (n k : Nat) : Nat → Word :=
  if 4 ≤ k ∧ k < n then region 0 1024 (BitVec.ofNat 32 ((k - 4) * PTSIZE)) PTE_W fun _ => 0#32
  else c k

theorem memTables_succ {j : Nat} :
    update (memTables c (4 + j)) (4 + j) (region 0 1024 (BitVec.ofNat 32 (j * PTSIZE)) PTE_W
      fun _ => 0#32) = memTables c (4 + (j + 1)) := by
  funext k
  by_cases hk : k = 4 + j
  · subst hk
    rw [update_self, memTables, if_pos (by omega), show 4 + j - 4 = j by omega]
  · have : (4 ≤ k ∧ k < 4 + j) ↔ (4 ≤ k ∧ k < 4 + (j + 1)) := by omega
    rw [update_of_ne hk]
    simp only [memTables, this]

-- One iteration of the loop in `boot_map_region`, at `KERNBASE`.
def mapMemoryPage (s : State) (i : Nat) : Option State :=
  bootMapPage machine s 1024 (KERNBASE + BitVec.ofNat 32 (i * PGSIZE))
    (0#32 + BitVec.ofNat 32 (i * PGSIZE)) PTE_W

theorem mapMemoryPage_add {s : State} {i j : Nat} : mapMemoryPage s (j * 1024 + i) =
    bootMapPage machine s 1024 (KERNBASE + BitVec.ofNat 32 (j * PTSIZE) + BitVec.ofNat 32 (i * PGSIZE))
      (BitVec.ofNat 32 (j * PTSIZE) + BitVec.ofNat 32 (i * PGSIZE)) PTE_W := by
  have he : (j * 1024 + i) * PGSIZE = j * PTSIZE + i * PGSIZE := by
    rw [PTSIZE, NPDENTRIES]
    ring
  rw [mapMemoryPage, he, BitVec.ofNat_add, BitVec.zero_add, BitVec.add_assoc]

-- Each table is a region of its own.
theorem mapMemory_table {j : Nat} (hj : j < 64) : (List.range 1024).foldlM
    (fun s i => mapMemoryPage s (j * 1024 + i)) (stage v l (4 + j) (memTables c (4 + j))) =
      some (stage v l (4 + (j + 1)) (memTables c (4 + (j + 1)))) := by
  let va := KERNBASE + BitVec.ofNat 32 (j * PTSIZE)
  have hva : va.toNat = (960 + j) * 4194304 + 0 * 4096 := by
    have h₁ : j * 4194304 < 2 ^ 32 := by linarith
    have h₂ : 4026531840 + j * 4194304 < 2 ^ 32 := by linarith
    rw [BitVec.toNat_add, BitVec.toNat_ofNat, show PTSIZE = 4194304 from rfl,
      show KERNBASE.toNat = 4026531840 from rfl, Nat.mod_eq_of_lt h₁, Nat.mod_eq_of_lt h₂]
    linarith
  have hin : InTable (960 + j) 0 1024 va := ⟨hva, by omega, by omega⟩
  have hord : order (960 + j) = 4 + j := by
    simp only [order]
    split_ifs <;> omega
  have hmap : bootMapRegion machine (stage v l (4 + j) (memTables c (4 + j))) 1024 va
      (BitVec.ofNat 32 PTSIZE) (BitVec.ofNat 32 (j * PTSIZE)) PTE_W = some _ :=
    mapRegion_new hin hord (by omega) rfl (by omega)
  rw [bootMapRegion, show (BitVec.ofNat 32 PTSIZE).toNat / PGSIZE = 1024 from rfl, memTables_succ] at hmap
  simp only [mapMemoryPage_add]
  rw [hmap, Nat.add_assoc]

theorem mapMemory_rec {j : Nat} (hj : j ≤ 64) :
    (List.range (j * 1024)).foldlM mapMemoryPage (stage v l 4 c) =
      some (stage v l (4 + j) (memTables c (4 + j))) := by
  induction j
  case zero =>
    have : memTables c 4 = c := by
      funext k
      rw [memTables, if_neg (by omega)]
    simp [this]
  case succ j ih =>
    rw [show (j + 1) * 1024 = j * 1024 + 1024 by ring, List.range_add, List.foldlM_append,
      ih (by omega), Option.bind_eq_bind,
      Option.bind_some, List.foldlM_map, mapMemory_table (by omega)]

-- The mapping of all of physical memory at `KERNBASE`, table by table.
theorem mapMemory_eq : bootMapRegion machine (stage v l 4 c) 1024 KERNBASE (-KERNBASE) 0#32 PTE_W =
    some (stage v l 68 (memTables c 68)) := by
  have hn : (-KERNBASE).toNat / PGSIZE = 64 * 1024 := rfl
  have h := mapMemory_rec (v := v) (l := l) (c := c) (show 64 ≤ 64 by omega)
  rw [bootMapRegion, hn]
  exact h

-- The kernel stacks, which replace the mapping of `bootstack`.
def kstacks (n : Nat) (old : Nat → Word) : Nat → Word :=
  (List.range n).foldl (fun old i => region (1016 - i * 16) 8 (machine.percpuKstacks i) PTE_W old) old

theorem kstacks_succ {n : Nat} {old : Nat → Word} : kstacks (n + 1) old =
    region (1016 - n * 16) 8 (machine.percpuKstacks n) PTE_W (kstacks n old) := by
  rw [kstacks, List.range_succ, List.foldl_append]
  rfl

theorem memInitMp_eq :
    memInitMp machine (stage v l 68 c) = some (stage v l 68 (update c 3 (kstacks NCPU (c 3)))) := by
  have h0 : stage v l 68 c = stage v l 68 (update c 3 (kstacks 0 (c 3))) := by
    rw [kstacks, List.range_zero, List.foldl_nil, update_eq_self]
  rw [h0]
  refine foldlM_range_eq (S := fun n => stage v l 68 (update c 3 (kstacks n (c 3)))) fun n hn => ?_
  have hn : n < 8 := hn
  have hva : (KSTACKTOP - BitVec.ofNat 32 (n * (KSTKSIZE + KSTKGAP)) -
      BitVec.ofNat 32 KSTKSIZE).toNat = 959 * 4194304 + (1016 - n * 16) * 4096 := by
    interval_cases n <;> rfl
  have hin : InTable 959 (1016 - n * 16) 8 _ := ⟨hva, by omega, by omega⟩
  have hmap : bootMapRegion machine (stage v l 68 (update c 3 (kstacks n (c 3)))) 1024
      (KSTACKTOP - BitVec.ofNat 32 (n * (KSTKSIZE + KSTKGAP)) - BitVec.ofNat 32 KSTKSIZE)
      (BitVec.ofNat 32 KSTKSIZE) (machine.percpuKstacks n) PTE_W = some _ :=
    mapRegion_stage hin (show order 959 = 3 from rfl) (by omega) (by omega) rfl
  rw [update_self, update_idem, ← kstacks_succ] at hmap
  exact hmap

theorem mapKernel_eq : mapKernel machine (stage v l 1 (update c 0 fun _ => 0#32)) =
    some (stage v l 68 (update tables 0 fun _ => 0#32)) := by
  have h₁ : InTable 956 0 64 UPAGES := ⟨by decide, by omega, by omega⟩
  have h₂ : InTable 955 0 1024 UENVS := ⟨by decide, by omega, by omega⟩
  have h₃ : InTable 959 1016 8 (KSTACKTOP - BitVec.ofNat 32 KSTKSIZE) :=
    ⟨by decide, by omega, by omega⟩
  have n₁ : (ROUNDUP (BitVec.ofNat 32 (machine.npages * 8)) 4096#32).toNat / PGSIZE = 64 := by decide
  have e₁ (c) : bootMapRegion machine (stage v l 1 c) 1024 UPAGES
      (ROUNDUP (BitVec.ofNat 32 (machine.npages * 8)) 4096#32) machine.pagesPa (PTE_U ||| PTE_P) =
      some (stage v l 2 _) := mapRegion_new h₁ rfl (by omega) n₁ (by omega)
  have e₂ (c) : bootMapRegion machine (stage v l 2 c) 1024 UENVS (BitVec.ofNat 32 PTSIZE)
      machine.envsPa (PTE_U ||| PTE_P) = some (stage v l 3 _) :=
    mapRegion_new h₂ rfl (by omega) rfl (by omega)
  have e₃ (c) : bootMapRegion machine (stage v l 3 c) 1024 (KSTACKTOP - BitVec.ofNat 32 KSTKSIZE)
      (BitVec.ofNat 32 KSTKSIZE) machine.bootstack PTE_W = some (stage v l 4 _) :=
    mapRegion_new h₃ rfl (by omega) rfl (by omega)
  have e₄ (c) : bootMapRegion machine (stage v l 4 c) 1024 KERNBASE (-KERNBASE) 0#32 PTE_W =
      some (stage v l 68 (memTables c 68)) := mapMemory_eq
  refine Option.bind_eq_some_iff.mpr ⟨_, e₁ _, Option.bind_eq_some_iff.mpr ⟨_, e₂ _,
    Option.bind_eq_some_iff.mpr ⟨_, e₃ _, Option.bind_eq_some_iff.mpr ⟨_, e₄ _, ?_⟩⟩⟩⟩
  refine memInitMp_eq.trans (congrArg some (stage_congr fun k hk => ?_))
  have hd : k = 0 ∨ k = 1 ∨ k = 2 ∨ k = 3 ∨ (4 ≤ k ∧ k < 68) := by omega
  rcases hd with rfl | rfl | rfl | rfl | hd
  · simp [memTables]
  · simp [memTables, tables]
  · simp [memTables, tables]
  · simp [memTables, tables, kstacks]
  · have h0 : k ≠ 0 := by omega
    have h1 : k ≠ 1 := by omega
    have h2 : k ≠ 2 := by omega
    have h3 : k ≠ 3 := by omega
    rw [update_of_ne h3, update_of_ne h0]
    simp only [memTables, tables, hd, h1, h2, h3, and_self, if_true, if_false]

theorem lapicInits_eq : lapicInits machine (stage v l 68 (update tables 0 fun _ => 0#32))
    (MMIOBASE + 12288#32) = some (stage v l 68 (update tables 0 lapicTable)) := by
  have h₁ : InTable 958 3 1 (MMIOBASE + 12288#32) := ⟨by decide, by omega, by omega⟩
  have h₂ : InTable 958 4 1 (MMIOBASE + 16384#32) := ⟨by decide, by omega, by omega⟩
  have e₁ (c) : mmioMapRegion machine (stage v l 68 c) (MMIOBASE + 12288#32) machine.lapicaddr 4096#32 =
      some (MMIOBASE + 16384#32, _) := mmio_stage h₁ (by omega) (by omega) rfl (by decide)
  have e₂ (c) : mmioMapRegion machine (stage v l 68 c) (MMIOBASE + 16384#32) machine.lapicaddr 4096#32 =
      some (MMIOBASE + 20480#32, _) := mmio_stage h₂ (by omega) (by omega) rfl (by decide)
  have hl : machine.lapicaddr ≠ 0#32 := by decide
  rw [lapicInits, if_neg hl]
  refine Option.bind_eq_some_iff.mpr ⟨_, Option.bind_eq_some_iff.mpr ⟨_, e₁ _,
    Option.bind_eq_some_iff.mpr ⟨_, e₂ _, rfl⟩⟩, ?_⟩
  simp only [update_self, update_idem]
  rfl

theorem boot_boot : Boot machine boot := by
  have refl (s : State) : Checked s s := ⟨rfl, rfl, rfl, fun h => ⟨_, h, .refl _, fun _ => rfl⟩⟩
  have h₁ : pageInit machine (bootState machine fun _ _ => 0#32) =
      stage (fun _ => .zero) none 0 fun _ _ => 0#32 := pageInit_eq
  have h₄ := lapicInits_eq (v := (envInit (stage (fun _ => .zero) none 68 (update tables 0 fun _ => 0#32))).envs)
    (l := some 0)
  exact ⟨by decide, fun _ _ => 0#32, _, _, _, _, _, refl _, h₁ ▸ checkMmio_eq, mapKernel_eq, refl _, h₄⟩

theorem uniLapicInits_eq : lapicInits uni (stage v l 68 (update tables 0 fun _ => 0#32))
    (MMIOBASE + 12288#32) = some (stage v l 68 (update tables 0 uniLapicTable)) := by
  have h₁ : InTable 958 3 1 (MMIOBASE + 12288#32) := ⟨by decide, by omega, by omega⟩
  have e₁ (c) : mmioMapRegion machine (stage v l 68 c) (MMIOBASE + 12288#32) machine.lapicaddr 4096#32 =
      some (MMIOBASE + 16384#32, _) := mmio_stage h₁ (by omega) (by omega) rfl (by decide)
  have hl : uni.lapicaddr ≠ 0#32 := by decide
  rw [lapicInits, if_neg hl]
  refine Option.bind_eq_some_iff.mpr ⟨_, Option.bind_eq_some_iff.mpr ⟨_, e₁ _, rfl⟩, ?_⟩
  simp only [update_self, update_idem]
  rfl

theorem boot_uniBoot : Boot uni uniBoot := by
  have refl (s : State) : Checked s s := ⟨rfl, rfl, rfl, fun h => ⟨_, h, .refl _, fun _ => rfl⟩⟩
  have h₁ : pageInit machine (bootState machine fun _ _ => 0#32) =
      stage (fun _ => .zero) none 0 fun _ _ => 0#32 := pageInit_eq
  have h₄ := uniLapicInits_eq (v := (envInit (stage (fun _ => .zero) none 68 (update tables 0 fun _ => 0#32))).envs)
    (l := some 0)
  exact ⟨by decide, fun _ _ => 0#32, _, _, _, _, _, refl _, h₁ ▸ checkMmio_eq, mapKernel_eq, refl _, h₄⟩

end Boot

section Run

variable {s s' : State} {evs : List Event} {guard : State → Event → Prop}

theorem step_exec {ev : Event} (h : exec s (ev :: evs) = some s') :
    ∃ s₁, Step machine s ev s₁ ∧ exec s₁ evs = some s' := by
  cases ev <;>
  · obtain ⟨x, hx, h⟩ := Option.bind_eq_some_iff.mp h
    exact ⟨_, by constructor; exact hx, h⟩

theorem run_exec (h : exec s evs = some s') (hg : ∀ ev ∈ evs, ∀ s, guard s ev) :
    Run (Step machine) guard s s' := by
  induction evs generalizing s
  case nil =>
    cases h
    exact .refl
  case cons ev evs i =>
    obtain ⟨s₁, h₁, h₂⟩ := step_exec h
    have hr := i h₂ fun ev hev => hg ev (List.mem_cons_of_mem _ hev)
    exact (Run.single (hg ev List.mem_cons_self s) h₁).trans hr

theorem start_eq : envCreates machine boot [(elf, .fs), (elf, .user)] = start := by
  simp [envCreates, start]

-- What holds after the given steps holds in some state that the kernel reaches.
theorem reachable_exec {P : State → Prop} [DecidablePred P] (evs : List Event)
    (hg : ∀ ev ∈ evs, ∀ s, guard s ev) (h : (start >>= (exec · evs)).any (decide <| P ·)) :
    ∃ s, Reachable machine guard boot s ∧ P s := by
  obtain ⟨s, hs, hp⟩ := (Option.any_eq_true _ _).mp h
  obtain ⟨s₁, h₁, h₂⟩ := Option.bind_eq_some_iff.mp hs
  exact ⟨s, ⟨boot_boot, _, s₁, start_eq ▸ h₁, run_exec h₂ hg⟩, of_decide_eq_true hp⟩

theorem alloc_safe : ∀ ev ∈ alloc, ∀ s, SafeStep machine s ev := by
  simp only [alloc, List.mem_cons, List.not_mem_nil, or_false, forall_eq_or_imp, forall_eq]
  exact ⟨fun _ => trivial, fun _ _ _ => ⟨nofun, nofun, nofun⟩⟩

theorem smpRun_exec {s s' : Smp} {evs : List (Nat × Input)} {guard : Smp → Nat × Input → Prop}
    (h : smpExec machine s evs = some s') (hg : ∀ ev ∈ evs, ∀ s, guard s ev) :
    Run (SmpStep machine) guard s s' := by
  induction evs generalizing s
  case nil =>
    cases h
    exact .refl
  case cons ev evs i =>
    simp only [smpExec] at h
    split at h
    case isTrue hc =>
      obtain ⟨s₁, h₁, h₂⟩ := Option.bind_eq_some_iff.mp h
      have hr := i h₂ fun ev hev => hg ev (List.mem_cons_of_mem _ hev)
      exact (Run.single (hg ev List.mem_cons_self s) ⟨hc, h₁⟩).trans hr
    case isFalse => cases h

theorem smpReachable_exec {P : Smp → Prop} [DecidablePred P] {guard : Smp → Nat × Input → Prop}
    (evs : List (Nat × Input)) (hg : ∀ ev ∈ evs, ∀ s, guard s ev)
    (h : (smpExec machine (.boot boot 0) evs).any (decide <| P ·)) :
    ∃ s, SmpReachable machine guard s ∧ P s := by
  obtain ⟨s, hs, hp⟩ := (Option.any_eq_true _ _).mp h
  exact ⟨s, ⟨_, 0, boot_boot, by decide, smpRun_exec hs hg⟩, of_decide_eq_true hp⟩

end Run

end Kern.Sample

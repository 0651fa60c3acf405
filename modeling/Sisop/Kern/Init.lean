import Sisop.Kern.Refs

-- The boot code in kern/pmap.c, kern/env.c, kern/lapic.c and kern/init.c

namespace Kern

open Inc Function Library

variable (m : Machine)

def NCPU : Nat := 8

-- The physical addresses of the arrays that `mem_init` takes from `boot_alloc`.
def Machine.pagesPa (m : Machine) : Word := page2pa (m.kernelEnd + 1)

def Machine.envsPa (m : Machine) : Word :=
  page2pa (m.kernelEnd + 1 + (8 * m.npages + 4095) / 4096)

-- `mem_init` up to `page_init`. The `memset` of the arrays leaves zeroed elements.
def bootState (mem : Nat → Nat → Word) : State where
  pages _      := ⟨none, 0#16⟩
  pageFreeList := none
  mem          := update mem m.kernPgdir <|
    update (fun _ => 0#32) (PDX UVPT) (page2pa m.kernPgdir ||| PTE_U ||| PTE_P)
  envs _       := .zero
  envFreeList  := none

-- One iteration of the loop in `page_init`.
def pageInitPage (s : State) (i : Nat) : State :=
  if IOPHYSMEM / PGSIZE ≤ i ∧ i < m.endPageKernel then s.setPage i ⟨none, 1#16⟩
  else if i = MPENTRY_PADDR / PGSIZE then s.setPage i ⟨none, 1#16⟩
  else (s.setPage i ⟨s.pageFreeList, 0#16⟩).setPageFreeList (some i)

def pageInit (s : State) : State :=
  (List.range (m.npages - 1)).foldl (fun s i => pageInitPage m s (i + 1)) s

-- One iteration of the loop in `boot_map_region`, without `TP1_PSE`; `none` is a panic.
def bootMapPage (s : State) (pgdir : Nat) (va pa perm : Word) : Option State := do
  match ← pgdirWalk m s pgdir va true with
  | (none, _)      => none
  | (some slot, s) => some (s.store slot.1 slot.2 (pa ||| perm ||| PTE_P))

def bootMapRegion (s : State) (pgdir : Nat) (va size pa perm : Word) : Option State :=
  (List.range (size.toNat / PGSIZE)).foldlM (fun s i =>
    bootMapPage m s pgdir (va + BitVec.ofNat 32 (i * PGSIZE)) (pa + BitVec.ofNat 32 (i * PGSIZE)) perm) s

-- `base` is the static variable of `mmio_map_region`, whose new value is returned.
def mmioMapRegion (s : State) (base pa size : Word) : Option (Word × State) := do
  let size := ROUNDUP size 4096#32
  if MMIOLIM ≤ base + size then none
  else
    let s ← bootMapRegion m s m.kernPgdir base size pa (PTE_PCD ||| PTE_PWT ||| PTE_W)
    some (base + size, s)

-- What is left of the checking functions that `mem_init` calls: they take and return free pages, so
-- that these end up in another order and with other contents.
structure Checked (s s' : State) : Prop where
  envs        : s'.envs = s.envs
  envFreeList : s'.envFreeList = s.envFreeList
  ppRef       : s'.ppRef = s.ppRef
  free        : ∀ {fl}, Chain s.ppLink s.pageFreeList fl →
    ∃ fl', Chain s'.ppLink s'.pageFreeList fl' ∧ fl'.Perm fl ∧ ∀ {p}, p ∉ fl → s'.mem p = s.mem p

-- `*pgdir_walk(kern_pgdir, va, 0) = 0`
def clearEntry (s : State) (va : Word) : Option State := do
  match ← pgdirWalk m s m.kernPgdir va false with
  | (none, _)      => none
  | (some slot, s) => some (s.store slot.1 slot.2 0#32)

-- The test of `mmio_map_region` in `check_page`, which clears the entries it has made but keeps the
-- page table.
def checkMmio (s : State) : Option (Word × State) := do
  let mm1 := MMIOBASE
  let (mm2, s) ← mmioMapRegion m s mm1 0#32 4097#32
  let (base, s) ← mmioMapRegion m s mm2 0#32 4096#32
  let s ← clearEntry m s mm1
  let s ← clearEntry m s (mm1 + 4096#32)
  let s ← clearEntry m s mm2
  some (base, s)

def memInitMp (s : State) : Option State :=
  (List.range NCPU).foldlM (fun s i =>
    let kstacktop := KSTACKTOP - BitVec.ofNat 32 (i * (KSTKSIZE + KSTKGAP))
    bootMapRegion m s m.kernPgdir (kstacktop - BitVec.ofNat 32 KSTKSIZE) (BitVec.ofNat 32 KSTKSIZE)
      (m.percpuKstacks i) PTE_W) s

-- The part of `mem_init` that maps the kernel's half of the address space.
def mapKernel (s : State) : Option State := do
  let size := ROUNDUP (BitVec.ofNat 32 (m.npages * 8)) 4096#32
  let s ← bootMapRegion m s m.kernPgdir UPAGES size m.pagesPa (PTE_U ||| PTE_P)
  let s ← bootMapRegion m s m.kernPgdir UENVS (BitVec.ofNat 32 PTSIZE) m.envsPa (PTE_U ||| PTE_P)
  let s ← bootMapRegion m s m.kernPgdir (KSTACKTOP - BitVec.ofNat 32 KSTKSIZE)
    (BitVec.ofNat 32 KSTKSIZE) m.bootstack PTE_W
  let s ← bootMapRegion m s m.kernPgdir KERNBASE (-KERNBASE) 0#32 PTE_W
  memInitMp m s

def envInit (s : State) : State :=
  { s with
    envs := fun e => { s.envs e with
      envId := 0#32
      envStatus := .free
      envLink := if h : e.val + 1 < NENV then some ⟨e.val + 1, h⟩ else none }
    envFreeList := some 0 }

-- `lapic_init` maps the local APIC once for each CPU.
def lapicInits (s : State) (base : Word) : Option State := do
  if m.lapicaddr = 0#32 then some s
  else
    let (_, s) ← (List.range m.ncpu).foldlM
      (fun (base, s) _ => mmioMapRegion m s base m.lapicaddr 4096#32) (base, s)
    some s

-- The states in which `i386_init` creates the first environment.
def Boot (s : State) : Prop :=
  m.endPageKernel < m.npages ∧ ∃ mem s₁ s₂ s₃ s₄ base,
    Checked (pageInit m (bootState m mem)) s₁ ∧ checkMmio m s₁ = some (base, s₂) ∧
    mapKernel m s₂ = some s₃ ∧ Checked s₃ s₄ ∧ lapicInits m (envInit s₄) base = some s

end Kern

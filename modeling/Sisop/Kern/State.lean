import Sisop.Inc.Env
import Sisop.Library.RefCount

namespace Kern

open Inc Function

-- The values that the boot code finds out about the machine and the kernel image, and that stay
-- fixed afterwards.
structure Machine where
  npages : Nat
  -- The number of the first page after the kernel image, `ROUNDUP(end, PGSIZE)`.
  kernelEnd : Nat
  -- The physical addresses of the kernel stacks and of the local APIC.
  bootstack : Word
  percpuKstacks : Nat → Word
  lapicaddr : Word
  -- How many CPUs `mp_init` found.
  ncpu : Nat
  -- The kernel is loaded at `EXTPHYSMEM`.
  extphysmem_le : EXTPHYSMEM / PGSIZE ≤ kernelEnd
  -- `KERNBASE` leaves room for at most 256MB (see the comment at `PADDR`).
  npages_le : npages ≤ 65536

structure PageInfo where
  ppLink : Option Nat
  ppRef : BitVec 16
  deriving DecidableEq

-- The kernel's data, except for what is private to a CPU. Pointers to `struct PageInfo` are page
-- numbers, and `mem p i` is the `i`th word of physical page `p`. Only the pages that hold page
-- tables are ever read back, so the contents of other pages are not kept up to date.
@[ext] structure State where
  pages : Nat → PageInfo
  pageFreeList : Option Nat
  mem : Nat → Nat → Word
  envs : EnvPtr → Env
  envFreeList : Option EnvPtr

namespace State

variable (s : State)

def setPage (p : Nat) (i : PageInfo) : State :=
  { s with pages := update s.pages p i }

def setPageFreeList (l : Option Nat) : State :=
  { s with pageFreeList := l }

-- Writes one word of a physical page.
def store (p i : Nat) (w : Word) : State :=
  { s with mem := update s.mem p (update (s.mem p) i w) }

-- Overwrites a whole physical page.
def fill (p : Nat) (c : Nat → Word) : State :=
  { s with mem := update s.mem p c }

def setEnv (e : EnvPtr) (v : Env) : State :=
  { s with envs := update s.envs e v }

def setEnvFreeList (l : Option EnvPtr) : State :=
  { s with envFreeList := l }

def ppRef (p : Nat) : Nat := (s.pages p).ppRef.toNat

def ppLink (p : Nat) : Option Nat := (s.pages p).ppLink

def status (e : EnvPtr) : EnvStatus := (s.envs e).envStatus

def pgdir (e : EnvPtr) : Option Nat := (s.envs e).envPgdir

def envLink (e : EnvPtr) : Option EnvPtr := (s.envs e).envLink

variable (p i : Nat) (w : Word) (c : Nat → Word) (pi : PageInfo) (l : Option Nat) (e : EnvPtr)
  (v : Env) (el : Option EnvPtr)

@[simp] theorem setPage_mem : (s.setPage p pi).mem = s.mem := rfl
@[simp] theorem setPage_envs : (s.setPage p pi).envs = s.envs := rfl
@[simp] theorem setPage_pageFreeList : (s.setPage p pi).pageFreeList = s.pageFreeList := rfl
@[simp] theorem setPage_envFreeList : (s.setPage p pi).envFreeList = s.envFreeList := rfl
@[simp] theorem setPage_pages : (s.setPage p pi).pages = update s.pages p pi := rfl

@[simp] theorem setPageFreeList_mem : (s.setPageFreeList l).mem = s.mem := rfl
@[simp] theorem setPageFreeList_envs : (s.setPageFreeList l).envs = s.envs := rfl
@[simp] theorem setPageFreeList_pages : (s.setPageFreeList l).pages = s.pages := rfl
@[simp] theorem setPageFreeList_pageFreeList : (s.setPageFreeList l).pageFreeList = l := rfl
@[simp] theorem setPageFreeList_envFreeList :
    (s.setPageFreeList l).envFreeList = s.envFreeList := rfl

@[simp] theorem store_envs : (s.store p i w).envs = s.envs := rfl
@[simp] theorem store_pages : (s.store p i w).pages = s.pages := rfl
@[simp] theorem store_pageFreeList : (s.store p i w).pageFreeList = s.pageFreeList := rfl
@[simp] theorem store_envFreeList : (s.store p i w).envFreeList = s.envFreeList := rfl

@[simp] theorem fill_envs : (s.fill p c).envs = s.envs := rfl
@[simp] theorem fill_pages : (s.fill p c).pages = s.pages := rfl
@[simp] theorem fill_pageFreeList : (s.fill p c).pageFreeList = s.pageFreeList := rfl
@[simp] theorem fill_envFreeList : (s.fill p c).envFreeList = s.envFreeList := rfl
@[simp] theorem fill_mem_self : (s.fill p c).mem p = c := by simp [fill]

@[simp] theorem setEnv_mem : (s.setEnv e v).mem = s.mem := rfl
@[simp] theorem setEnv_pages : (s.setEnv e v).pages = s.pages := rfl
@[simp] theorem setEnv_pageFreeList : (s.setEnv e v).pageFreeList = s.pageFreeList := rfl
@[simp] theorem setEnv_envFreeList : (s.setEnv e v).envFreeList = s.envFreeList := rfl
@[simp] theorem setEnv_envs_self : (s.setEnv e v).envs e = v := by simp [setEnv]

@[simp] theorem setEnvFreeList_mem : (s.setEnvFreeList el).mem = s.mem := rfl
@[simp] theorem setEnvFreeList_envs : (s.setEnvFreeList el).envs = s.envs := rfl
@[simp] theorem setEnvFreeList_pages : (s.setEnvFreeList el).pages = s.pages := rfl
@[simp] theorem setEnvFreeList_pageFreeList :
    (s.setEnvFreeList el).pageFreeList = s.pageFreeList := rfl
@[simp] theorem setEnvFreeList_envFreeList : (s.setEnvFreeList el).envFreeList = el := rfl

variable {s p i w c pi e v}

theorem fill_mem_of_ne {q : Nat} (h : q ≠ p) : (s.fill p c).mem q = s.mem q := by
  simp [fill, h]

theorem store_mem_of_ne {q : Nat} (h : q ≠ p) : (s.store p i w).mem q = s.mem q := by
  simp [store, h]

theorem store_mem_self : (s.store p i w).mem p = update (s.mem p) i w := by
  simp [store]

section Update

variable {s' : State} (h : s'.envs = update s.envs e v)
include h

theorem pgdir_update : s'.pgdir = update s.pgdir e v.envPgdir := by
  funext e'
  simp only [pgdir, h, update_apply]
  split <;> rfl

theorem status_update : s'.status = update s.status e v.envStatus := by
  funext e'
  simp only [status, h, update_apply]
  split <;> rfl

theorem envLink_update : s'.envLink = update s.envLink e v.envLink := by
  funext e'
  simp only [envLink, h, update_apply]
  split <;> rfl

end Update

theorem setEnv_envs_of_ne {e' : EnvPtr} (h : e' ≠ e) : (s.setEnv e v).envs e' = s.envs e' := by
  simp [setEnv, h]

end State

end Kern

import Sisop.Inc.Mmu
import Sisop.Library.Prog
import Mathlib.Logic.Function.Basic

-- lib/fd.c

namespace Lib.Fd

open Library Function

def PGSIZE : Nat := 4096
def UTOP : Nat := 0xEEC00000
def MAXFD : Nat := 32
def FDTABLE : Nat := 0xD0000000
def FILEDATA : Nat := FDTABLE + MAXFD * PGSIZE

def E_INVAL : Int := 3

-- The physical pages of the environment by their virtual addresses.
abbrev Pages := Nat → Option Nat

-- The addresses are computed in 32 bits.
def INDEX2FD (i : Int) : Nat := ((FDTABLE + i * PGSIZE) % 2 ^ 32).toNat
def INDEX2DATA (i : Int) : Nat := ((FILEDATA + i * PGSIZE) % 2 ^ 32).toNat

def fd2num (fd : Nat) : Int := ((fd + 2 ^ 32 - FDTABLE) % 2 ^ 32 / PGSIZE : Nat)

def fd2data (fd : Nat) : Nat := INDEX2DATA (fd2num fd)

inductive Dev
  | devfile
  | devpipe
  | devcons
  deriving DecidableEq

-- What the functions go by besides the pages: the field of a file descriptor in a physical page, the answer of
-- the file server, and those of the kernel for the mappings of `dup`.
structure Outside where
  fd_dev_id : Nat → Int
  flush : Int
  mapData : Int
  mapFd : Int

-- `pgdir_walk` needs a page for a page table where none of its pages is mapped.
def NoTable (s : Pages) (va : Nat) : Prop := ∀ i < 1024, s (va / 2 ^ 22 * 2 ^ 22 + PGSIZE * i) = none

instance {s : Pages} {va : Nat} : Decidable (NoTable s va) := Nat.decidableBallLT _ _

-- `sys_page_map(0, srcva, 0, dstva, uvpt[PGNUM(srcva)] & PTE_SYSCALL)`, where the kernel may be out of memory.
def sys_page_map (answer : Int) (srcva dstva : Nat) : Prog Pages Int Unit := do
  let s ← .get
  match s srcva with
  | none    => .throw (-E_INVAL)
  | some pg =>
    if UTOP ≤ dstva then .throw (-E_INVAL)
    else if answer < 0 ∧ NoTable s dstva then .throw answer
    else .modify fun s => update s dstva (some pg)

def unmap (va : Nat) (s : Pages) : Pages := if va < UTOP then update s va none else s

def sys_page_unmap (va : Nat) : Prog Pages Int Unit := .modify (unmap va)

def fd_lookup (fdnum : Int) : Prog Pages Int Nat := do
  if fdnum < 0 ∨ MAXFD ≤ fdnum then .throw (-E_INVAL)
  else if (← .get) (INDEX2FD fdnum) = none then .throw (-E_INVAL)
  else pure (INDEX2FD fdnum)

def dev_lookup (dev_id : Int) : Option Dev :=
  if dev_id = 102 then some .devfile
  else if dev_id = 112 then some .devpipe
  else if dev_id = 99 then some .devcons
  else none

section Calls

variable (x : Outside)

def devpipe_close (fd : Nat) : Prog Pages Int Int := do
  sys_page_unmap fd
  sys_page_unmap (fd2data fd)
  pure 0

def dev_close (fd : Nat) : Dev → Prog Pages Int Int
  | .devfile => pure x.flush
  | .devpipe => devpipe_close fd
  | .devcons => pure 0

def fd_close (fd : Nat) (must_exist : Bool) : Prog Pages Int Int := do
  match ← .attempt (fd_lookup (fd2num fd)) with
  | .error r => if must_exist then .throw r else pure 0
  | .ok fd2  =>
    if fd ≠ fd2 then pure 0
    else
      match (← .get) fd with
      | none    => .panic
      | some pg =>
        let r ← match dev_lookup (x.fd_dev_id pg) with
          | none     => pure (-E_INVAL)
          | some dev => dev_close x fd dev
        sys_page_unmap fd
        pure r

def close (fdnum : Int) : Prog Pages Int Int := do
  let fd ← fd_lookup fdnum
  fd_close x fd true

-- The part of `dup` that may go to its label `err`.
def dupMaps (ova nva oldfd newfd : Nat) : Prog Pages Int Unit := do
  if (← .get) ova ≠ none then sys_page_map x.mapData ova nva
  sys_page_map x.mapFd oldfd newfd

def dup (oldfdnum newfdnum : Int) : Prog Pages Int Int := do
  let oldfd ← fd_lookup oldfdnum
  let _ ← .attempt (close x newfdnum)
  let newfd := INDEX2FD newfdnum
  let ova := fd2data oldfd
  let nva := fd2data newfd
  match ← .attempt (dupMaps x ova nva oldfd newfd) with
  | .error r =>
    sys_page_unmap newfd
    sys_page_unmap nva
    .throw r
  | .ok _    => pure newfdnum

end Calls

end Lib.Fd

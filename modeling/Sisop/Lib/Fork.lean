import Sisop.Kern.Syscall

-- lib/fork.c: `pgfault` and `fork_v0`, in terms of pages

namespace Lib

open Inc Function Kern

def PTE_COW : Word := 0x800#32

-- The numbers of the pages at these addresses.
def UTEMP : Nat := PTSIZE / PGSIZE
def PFTEMP : Nat := UTEMP + PTSIZE / PGSIZE - 1
def UXSTACK : Nat := PGNUM UXSTACKTOP - 1

-- The physical page and the flags of a page table entry.
structure Pte where
  page : Nat
  perm : Word

abbrev Space := Nat → Option Pte

abbrev Pages := Nat → Nat → BitVec 8

-- `upcall` is whether page faults go to `pgfault`.
structure Process where
  space : Space
  upcall : Bool

-- The physical pages from `nextPage` on are free.
structure Fork where
  parent : Process
  child : Process
  mem : Pages
  nextPage : Nat

-- The system calls; `none` stands for an error, on which their callers panic.
def sysPageMap (src : Space) (srcpn : Nat) (dst : Space) (dstpn : Nat) (perm : Word) :
    Option Space :=
  if badPerm perm then none
  else
    match src srcpn with
    | none     => none
    | some pte =>
      if badWrite pte.perm perm then none else some (update dst dstpn (some ⟨pte.page, perm⟩))

namespace Fork

variable (s : Fork)

def setParent (space : Space) : Fork := { s with parent := { s.parent with space := space } }

def setChild (space : Space) : Fork := { s with child := { s.child with space := space } }

-- `sys_page_alloc(dstenv, va, perm)`
def pageAlloc (pn : Nat) (perm : Word) : Option Fork :=
  if badPerm perm then none
  else some { s.setChild (update s.child.space pn (some ⟨s.nextPage, perm⟩)) with
    mem      := update s.mem s.nextPage fun _ => 0#8
    nextPage := s.nextPage + 1 }

-- `memmove(dst, src, PGSIZE)` in the parent; `none` is a page fault.
def memmove (dst src : Nat) : Option Fork :=
  match s.parent.space dst, s.parent.space src with
  | some d, some p =>
    if d.perm &&& PTE_W = 0#32 then none else some { s with mem := update s.mem d.page (s.mem p.page) }
  | _, _           => none

-- `fails` is whether there is no memory for one of the system calls.
def dupOrShare (fails : Bool) (pn : Nat) (perm : Word) : Option Fork :=
  if fails then none
  else if perm &&& PTE_W = 0#32 then do
    let space ← sysPageMap s.parent.space pn s.child.space pn perm
    some (s.setChild space)
  else do
    let s ← s.pageAlloc pn perm
    let space ← sysPageMap s.child.space pn s.parent.space UTEMP perm
    let s ← (s.setParent space).memmove UTEMP pn
    some (s.setParent (update s.parent.space UTEMP none))

-- The turn of the loop of `fork_v0` for one page.
def copyPage (fails : Nat → Bool) (pn : Nat) : Option Fork :=
  match s.parent.space pn with
  | none     => some s
  | some pte => s.dupOrShare (fails pn) pn (pte.perm &&& PTE_SYSCALL)

-- The parent's side of `fork_v0`, up to its return; `noEnv` is whether `sys_exofork` fails. The child has
-- no pages and no handler at first.
def forkV0 (noEnv : Bool) (fails : Nat → Bool) : Option Fork :=
  if noEnv then none
  else (List.range (PGNUM UTOP)).foldlM (copyPage · fails) { s with child := ⟨fun _ => none, false⟩ }

end Fork

-- `pgfault` for a write to the page `pn`; the page `new` is free. `none` is a panic.
def pgfault (space : Space) (mem : Pages) (new pn : Nat) : Option (Space × Pages) :=
  match space pn with
  | none     => none
  | some pte =>
    if pte.perm &&& PTE_COW = 0#32 then none
    else
      let space := update space PFTEMP (some ⟨new, PTE_W ||| PTE_U ||| PTE_P⟩)
      let mem := update mem new fun _ => 0#8
      match space pn with
      | none     => none
      | some pte =>
        let mem := update mem new (mem pte.page)
        let space := update space pn (some ⟨new, PTE_W ||| PTE_U ||| PTE_P⟩)
        some (update space PFTEMP none, mem)

def store (mem : Pages) (page off : Nat) (b : BitVec 8) : Pages :=
  update mem page (update (mem page) off b)

def read (space : Space) (mem : Pages) (pn off : Nat) : Option (BitVec 8) :=
  (space pn).map fun pte => mem pte.page off

-- A write of a process, directly or after a page fault. Without a handler, the fault destroys it.
def write (p : Process) (mem : Pages) (new pn off : Nat) (b : BitVec 8) : Option (Process × Pages) :=
  match p.space pn with
  | none     => none
  | some pte =>
    if pte.perm &&& PTE_W ≠ 0#32 then some (p, store mem pte.page off b)
    else if p.upcall then do
      let (space, mem) ← pgfault p.space mem new pn
      match space pn with
      | none     => none
      | some pte => some (⟨space, true⟩, store mem pte.page off b)
    else none

end Lib

import Sisop.Lib.Fork

-- lib/fork.c: `pgfault`, `duppage` and `fork`, one system call at a time, in any number of environments

namespace Lib.Cow

open Inc Function Kern

def PTE_SHARE : Word := 0x400#32

-- A write that has to be made.
structure Write where
  pn : Nat
  off : Nat
  byte : BitVec 8

-- Where an environment is in `fork`: before which system call of `set_pgfault_handler`, of `fork` itself
-- or of `duppage`. The pages are those the loop has yet to come to.
inductive ForkPc
  | idle
  | handlerAlloc
  | handlerUpcall
  | exofork
  | stackAlloc (envid : Nat)
  | setUpcall (envid : Nat)
  | loop (envid : Nat) (pages : List Nat)
  | mapPage (envid pn : Nat) (perm : Word) (pages : List Nat)
  | mapCow (envid pn : Nat) (pages : List Nat)
  | markCow (envid pn : Nat) (pages : List Nat)
  deriving DecidableEq

-- Where it is in `pgfault`, or before the write that has to be made again.
inductive FaultPc
  | idle
  | pageAlloc (w : Write)
  | memcpy (w : Write)
  | pageMap (w : Write)
  | pageUnmap (w : Write)
  | again (w : Write)

-- A panic ends in a loop of breakpoints.
inductive Status
  | free
  | notRunnable
  | runnable
  | panicked
  deriving DecidableEq

-- `upcall` is whether page faults go to `pgfault`.
structure Proc where
  space : Space
  upcall : Bool
  status : Status
  fork : ForkPc
  fault : FaultPc

structure Sys where
  proc : Nat → Proc
  mem : Pages

-- The turns of the loop in `fork`.
@[irreducible] def pages : List Nat := (List.range (PGNUM UTOP)).filter (· ≠ UXSTACK)

-- What `duppage` has to do for the page `pn`, if there is one.
def duppage (pte : Option Pte) (envid pn : Nat) (pages : List Nat) : ForkPc :=
  match pte with
  | none     => .loop envid pages
  | some pte =>
    if pte.perm &&& PTE_SHARE ≠ 0#32 then .mapPage envid pn (pte.perm &&& PTE_SYSCALL) pages
    else if pte.perm &&& PTE_W ≠ 0#32 ∨ pte.perm &&& PTE_COW ≠ 0#32 then .mapCow envid pn pages
    else .mapPage envid pn (PTE_U ||| PTE_P) pages

-- The tests of `pgfault` for a write; `none` is a panic.
def pgfault (pte : Option Pte) (w : Write) : Option FaultPc :=
  match pte with
  | none     => none
  | some pte => if pte.perm &&& PTE_COW = 0#32 then none else some (.pageAlloc w)

namespace Sys

variable (s : Sys)

def setProc (p : Nat) (x : Proc) : Sys := { s with proc := update s.proc p x }

def setSpace (p pn : Nat) (pte : Option Pte) : Sys :=
  s.setProc p { s.proc p with space := update (s.proc p).space pn pte }

def setStatus (p : Nat) (status : Status) : Sys := s.setProc p { s.proc p with status := status }

def setUpcall (p : Nat) : Sys := s.setProc p { s.proc p with upcall := true }

def setFork (p : Nat) (pc : ForkPc) : Sys := s.setProc p { s.proc p with fork := pc }

def setFault (p : Nat) (pc : FaultPc) : Sys := s.setProc p { s.proc p with fault := pc }

def setMem (page : Nat) (b : Nat → BitVec 8) : Sys := { s with mem := update s.mem page b }

-- The system calls, which fail with `none`; `new` is the page that the kernel takes.
def pageAlloc (envid pn new : Nat) (perm : Word) : Option Sys :=
  if (s.proc envid).status = .free ∨ badPerm perm then none
  else some ((s.setSpace envid pn (some ⟨new, perm⟩)).setMem new fun _ => 0#8)

def pageMap (p srcpn envid dstpn : Nat) (perm : Word) : Option Sys :=
  if (s.proc envid).status = .free ∨ badPerm perm then none
  else
    match (s.proc p).space srcpn with
    | none     => none
    | some pte =>
      if badWrite pte.perm perm then none else some (s.setSpace envid dstpn (some ⟨pte.page, perm⟩))

-- `memcpy(dst, src, PGSIZE)`
def memcpy (p dst src : Nat) : Option Sys :=
  match (s.proc p).space dst, (s.proc p).space src with
  | some d, some f => if d.perm &&& PTE_W = 0#32 then none else some (s.setMem d.page (s.mem f.page))
  | _, _           => none

def store (p : Nat) (w : Write) : Option Sys :=
  match (s.proc p).space w.pn with
  | none     => none
  | some pte =>
    if pte.perm &&& PTE_W = 0#32 then none
    else some (s.setMem pte.page (update (s.mem pte.page) w.off w.byte))

-- The next step of `fork`; `none` is a panic. `child` is the environment that `sys_exofork` takes.
def forkStep (p new child : Nat) : Option Sys :=
  match (s.proc p).fork with
  | .idle              => none
  | .handlerAlloc      => do
    let s ← s.pageAlloc p UXSTACK new (PTE_W ||| PTE_U ||| PTE_P)
    some (s.setFork p .handlerUpcall)
  | .handlerUpcall     => some ((s.setUpcall p).setFork p .exofork)
  | .exofork           =>
    some ((s.setProc child ⟨fun _ => none, false, .notRunnable, .idle, .idle⟩).setFork p (.stackAlloc child))
  | .stackAlloc c      => do
    let s ← s.pageAlloc c UXSTACK new (PTE_P ||| PTE_W ||| PTE_U)
    some (s.setFork p (.setUpcall c))
  | .setUpcall c       => some ((s.setUpcall c).setFork p (.loop c pages))
  | .loop c []         => some ((s.setStatus c .runnable).setFork p .idle)
  | .loop c (pn :: l)  => some (s.setFork p (duppage ((s.proc p).space pn) c pn l))
  | .mapPage c pn perm l => do
    let s ← s.pageMap p pn c pn perm
    some (s.setFork p (.loop c l))
  | .mapCow c pn l     => do
    let s ← s.pageMap p pn c pn (PTE_COW ||| PTE_U ||| PTE_P)
    some (s.setFork p (.markCow c pn l))
  | .markCow c pn l    => do
    let s ← s.pageMap p pn p pn (PTE_COW ||| PTE_U ||| PTE_P)
    some (s.setFork p (.loop c l))

-- The next step of `pgfault`, and the write after it.
def faultStep (p new : Nat) : Option Sys :=
  match (s.proc p).fault with
  | .idle        => none
  | .pageAlloc w => do
    let s ← s.pageAlloc p PFTEMP new (PTE_W ||| PTE_U ||| PTE_P)
    some (s.setFault p (.memcpy w))
  | .memcpy w    => do
    let s ← s.memcpy p PFTEMP w.pn
    some (s.setFault p (.pageMap w))
  | .pageMap w   => do
    let s ← s.pageMap p PFTEMP p w.pn (PTE_W ||| PTE_U ||| PTE_P)
    some (s.setFault p (.pageUnmap w))
  | .pageUnmap w => some ((s.setSpace p PFTEMP none).setFault p (.again w))
  | .again w     => do
    let s ← s.store p w
    some (s.setFault p .idle)

def exit (p : Nat) : Sys := s.setProc p ⟨fun _ => none, false, .free, .idle, .idle⟩

-- The kernel's part in a page fault: it pushes a frame on the exception stack, whose page is `stack`
-- afterwards, or destroys the environment.
def pageFault (p : Nat) (w : Write) (stack : Nat → BitVec 8) : Sys :=
  if (s.proc p).upcall then
    match (s.proc p).space UXSTACK with
    | none    => s.exit p
    | some ux =>
      if ux.perm &&& PTE_W = 0#32 then s.exit p
      else
        match pgfault ((s.proc p).space w.pn) w with
        | none    => (s.setMem ux.page stack).setStatus p .panicked
        | some pc => (s.setMem ux.page stack).setFault p pc
  else s.exit p

end Sys

-- What the environment `p` does, or what happens to it. Its writes are those of the program, and those
-- of the code of `fork` to its stack.
inductive Event
  | write (p : Nat) (w : Write) (stack : Nat → BitVec 8)
  | sysPageAlloc (p pn new : Nat) (perm : Word)
  | sysPageUnmap (p pn : Nat)
  | fork (p : Nat)
  | step (p new child : Nat)
  | panic (p : Nat)
  | exit (p : Nat)

def FaultPc.isIdle : FaultPc → Bool
  | .idle => true
  | _     => false

-- `p` runs, outside of `pgfault`.
def Sys.runs (s : Sys) (p : Nat) : Bool := (s.proc p).status == .runnable && (s.proc p).fault.isIdle

def Sys.next (s : Sys) : Event → Option Sys
  | .write p w stack            =>
    if s.runs p then some ((s.store p w).getD (s.pageFault p w stack)) else none
  | .sysPageAlloc p pn new perm =>
    if s.runs p ∧ (s.proc p).fork = .idle then s.pageAlloc p pn new perm else none
  | .sysPageUnmap p pn          =>
    if s.runs p ∧ (s.proc p).fork = .idle then some (s.setSpace p pn none) else none
  | .fork p                     =>
    if s.runs p ∧ (s.proc p).fork = .idle then
      some (s.setFork p (if (s.proc p).upcall then .exofork else .handlerAlloc))
    else none
  | .step p new child           =>
    if s.runs p then
      if (s.proc p).fork = .idle then none
      else some ((s.forkStep p new child).getD (s.setStatus p .panicked))
    else if (s.proc p).status = .runnable then
      some ((s.faultStep p new).getD (s.setStatus p .panicked))
    else none
  | .panic p                    =>
    if (s.proc p).status = .runnable then some (s.setStatus p .panicked) else none
  -- Only its parent, which is in `fork`, may destroy an environment that does not run yet.
  | .exit p                     => if (s.proc p).status = .notRunnable then none else some (s.exit p)

def read (s : Sys) (p pn off : Nat) : Option (BitVec 8) := Lib.read (s.proc p).space s.mem pn off

end Lib.Cow

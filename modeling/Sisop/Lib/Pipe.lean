import Sisop.Library.RefCount
import Sisop.Library.Run
import Mathlib.Data.Fintype.Prod
import Mathlib.Data.Fintype.Sum
import Mathlib.Tactic.DeriveFintype

-- lib/fd.c, lib/pipe.c, lib/fork.c and lib/exit.c, as far as they deal with the pages of file descriptors

namespace Lib.Fds

open Library Function

def MAXFD : Nat := 32

abbrev FdNum := Fin MAXFD

-- The virtual pages of file descriptors.
inductive Slot
  | INDEX2FD (i : FdNum)
  | INDEX2DATA (i : FdNum)
  deriving DecidableEq, Fintype

open Slot

-- The slots in the order of their addresses.
def slots : List Slot := (List.finRange MAXFD).map INDEX2FD ++ (List.finRange MAXFD).map INDEX2DATA

-- The physical pages that an environment maps there.
abbrev Space := Slot → Option Nat

inductive Omode
  | O_RDONLY
  | O_WRONLY
  deriving DecidableEq

-- What `close` returns to.
inductive After
  | user
  | dup (oldfdnum : FdNum)
  | closeAll (next : Nat)

-- Where an environment is: between calls of the library, or before one of its system calls. An
-- environment is preempted there only.
inductive Pc (ε : Type)
  | free
  -- made by `sys_exofork`, and not yet runnable
  | embryo
  | user
  | pipeFd0 (fd0 : FdNum)
  | pipeFd1 (fd0 fd1 : FdNum)
  | pipeData (fd0 fd1 : FdNum)
  | pipeMap (fd0 fd1 : FdNum)
  | pipeErr3 (fd0 fd1 : FdNum)
  | pipeErr2 (fd0 fd1 : FdNum)
  | pipeErr1 (fd0 : FdNum)
  | closeFd (fd : FdNum) (k : After)
  | closeData (fd : FdNum) (k : After)
  | closeAgain (fd : FdNum) (k : After)
  | dupData (oldfd newfd : FdNum)
  | dupFd (oldfd newfd : FdNum)
  | dupErrFd (newfd : FdNum)
  | dupErrData (newfd : FdNum)
  | exofork
  | forkStack (child : ε)
  | forkUpcall (child : ε)
  | forkPages (child : ε) (todo : List Slot)
  -- `fork` does not get on after an error
  | forkPanic (child : Option ε) (todo : List Slot)
  | closeAll (next : Nat)
  | envDestroy

-- Page numbers stand for allocations: a page that is freed and allocated again gets a new one. `ends` is
-- what `pipe` has stored in the `struct Fd` of a page, with the data page of the pipe.
structure Sys (ε : Type) where
  space : ε → Space
  pc : ε → Pc ε
  ends : Nat → Option (Omode × Nat)
  nextPage : Nat

-- What a program asks for.
inductive Request
  | pipe
  | dup (oldfdnum newfdnum : FdNum)
  | close (fdnum : FdNum)
  | fork
  | exit

-- What is decided outside: the request of a program, whether the system call fails, and the
-- environment that `sys_exofork` finds.
structure Input (ε : Type) where
  request : Request
  fails : Bool
  child : ε

variable {ε : Type} [DecidableEq ε]

namespace Sys

variable (s : Sys ε) (e : ε)

def goto (q : Pc ε) : Sys ε := { s with pc := update s.pc e q }

def map (v : Slot) (p : Option Nat) : Sys ε :=
  { s with space := update s.space e (update (s.space e) v p) }

-- `sys_page_alloc(0, v, ..)`
def pageAlloc (v : Slot) : Sys ε :=
  { s.map e v (some s.nextPage) with nextPage := s.nextPage + 1 }

def fdLookup (i : FdNum) : Bool := (s.space e (INDEX2FD i)).isSome

def fdAlloc : Option FdNum := (List.finRange MAXFD).find? fun i => !s.fdLookup e i

-- Where an environment goes on after `close` of `fd`.
def resume (fd : FdNum) : After → Pc ε
  | .user          => .user
  | .dup oldfd     =>
    if (s.space e (INDEX2DATA oldfd)).isSome then .dupData oldfd fd else .dupFd oldfd fd
  | .closeAll next => .closeAll next

-- `close(fd)`, for one of the file descriptors of a pipe.
def close (fd : FdNum) (k : After) : Sys ε :=
  if s.fdLookup e fd then s.goto e (.closeFd fd k) else s.goto e (s.resume e fd k)

-- The end of `pipe`: the `struct Fd` are set up.
def setFds (fd0 fd1 : FdNum) : Sys ε :=
  match s.space e (INDEX2FD fd0), s.space e (INDEX2FD fd1), s.space e (INDEX2DATA fd0) with
  | some p₀, some p₁, some d =>
    { s with ends := update (update s.ends p₀ (some (.O_RDONLY, d))) p₁ (some (.O_WRONLY, d)) }
  | _, _, _                  => s

-- One system call of `e`, and what it does until it is before the next one.
def next (inp : Input ε) : Option (Sys ε) :=
  match s.pc e with
  | .free            => none
  | .embryo          => none
  | .user            =>
    match inp.request with
    | .pipe            =>
      match s.fdAlloc e with
      | some fd0 => some (s.goto e (.pipeFd0 fd0))
      | none     => some s
    | .dup oldfd newfd =>
      if s.fdLookup e oldfd then some (s.close e newfd (.dup oldfd)) else some s
    | .close fd        => some (s.close e fd .user)
    | .fork            => some (s.goto e .exofork)
    | .exit            => some (s.goto e (.closeAll 0))
  | .pipeFd0 fd0     =>
    if inp.fails then some (s.goto e .user)
    else
      let s := s.pageAlloc e (INDEX2FD fd0)
      match s.fdAlloc e with
      | some fd1 => some (s.goto e (.pipeFd1 fd0 fd1))
      | none     => some (s.goto e (.pipeErr1 fd0))
  | .pipeFd1 fd0 fd1 =>
    if inp.fails then some (s.goto e (.pipeErr1 fd0))
    else some ((s.pageAlloc e (INDEX2FD fd1)).goto e (.pipeData fd0 fd1))
  | .pipeData fd0 fd1 =>
    if inp.fails then some (s.goto e (.pipeErr2 fd0 fd1))
    else some ((s.pageAlloc e (INDEX2DATA fd0)).goto e (.pipeMap fd0 fd1))
  | .pipeMap fd0 fd1 =>
    if inp.fails then some (s.goto e (.pipeErr3 fd0 fd1))
    else some (((s.map e (INDEX2DATA fd1) (s.space e (INDEX2DATA fd0))).setFds e fd0 fd1).goto e .user)
  | .pipeErr3 fd0 fd1 => some ((s.map e (INDEX2DATA fd0) none).goto e (.pipeErr2 fd0 fd1))
  | .pipeErr2 fd0 fd1 => some ((s.map e (INDEX2FD fd1) none).goto e (.pipeErr1 fd0))
  | .pipeErr1 fd0    => some ((s.map e (INDEX2FD fd0) none).goto e .user)
  | .closeFd fd k    => some ((s.map e (INDEX2FD fd) none).goto e (.closeData fd k))
  | .closeData fd k  => some ((s.map e (INDEX2DATA fd) none).goto e (.closeAgain fd k))
  | .closeAgain fd k =>
    let s := s.map e (INDEX2FD fd) none
    some (s.goto e (s.resume e fd k))
  | .dupData oldfd newfd =>
    if inp.fails ∨ s.space e (INDEX2DATA oldfd) = none then some (s.goto e (.dupErrFd newfd))
    else some ((s.map e (INDEX2DATA newfd) (s.space e (INDEX2DATA oldfd))).goto e (.dupFd oldfd newfd))
  | .dupFd oldfd newfd =>
    if inp.fails ∨ s.space e (INDEX2FD oldfd) = none then some (s.goto e (.dupErrFd newfd))
    else some ((s.map e (INDEX2FD newfd) (s.space e (INDEX2FD oldfd))).goto e .user)
  | .dupErrFd newfd  => some ((s.map e (INDEX2FD newfd) none).goto e (.dupErrData newfd))
  | .dupErrData newfd => some ((s.map e (INDEX2DATA newfd) none).goto e .user)
  | .exofork         =>
    if inp.fails then some (s.goto e (.forkPanic none []))
    else
      match s.pc inp.child with
      | .free => some (({ s with space := update s.space inp.child fun _ => none }.goto inp.child
        .embryo).goto e (.forkStack inp.child))
      | _     => none
  | .forkStack c     =>
    if inp.fails then some (s.goto e (.forkPanic (some c) slots))
    else some (s.goto e (.forkUpcall c))
  | .forkUpcall c    =>
    if inp.fails then some (s.goto e (.forkPanic (some c) slots))
    else some (s.goto e (.forkPages c slots))
  | .forkPages c []  =>
    if inp.fails then some (s.goto e (.forkPanic (some c) []))
    else some ((s.goto c .user).goto e .user)
  | .forkPages c (v :: todo) =>
    if s.space e v = none then some (s.goto e (.forkPages c todo))
    else if inp.fails then some (s.goto e (.forkPanic (some c) (v :: todo)))
    else some ((s.map c v (s.space e v)).goto e (.forkPages c todo))
  | .forkPanic _ _   => none
  | .closeAll i      =>
    if h : i < MAXFD then some (s.close e ⟨i, h⟩ (.closeAll (i + 1))) else some (s.goto e .envDestroy)
  | .envDestroy      => some ({ s with space := update s.space e fun _ => none }.goto e .free)

section PageRef

variable [Fintype ε]

-- `pageref` of the page `p`: how often it is mapped.
def refsOf (p : Nat) : Nat := count (fun r : ε × Slot => s.space r.1 r.2) p

def pageref (v : Slot) : Nat := ((s.space e v).map s.refsOf).getD 0

-- `pipeisclosed(fdnum)`
def pipeisclosed (fdnum : FdNum) : Bool :=
  s.fdLookup e fdnum && s.pageref e (INDEX2FD fdnum) = s.pageref e (INDEX2DATA fdnum)

end PageRef

end Sys

-- The system starts with one environment that has no file descriptors.
def init (e : ε) : Sys ε where
  space    := fun _ _ => none
  pc       := fun e' => if e' = e then .user else .free
  ends     := fun _ => none
  nextPage := 0

end Lib.Fds

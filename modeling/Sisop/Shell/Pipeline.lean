import Mathlib.Logic.Function.Basic
import Sisop.Shell.Exec

-- labs/shell: case_pipe_cmd in exec.c, and the processes that it starts.

namespace Shell

open Function

-- The way from the root of a tree of commands to one of them, from its end; true is right. A process has
-- the name of the first command that it comes to, and a pipe that of the process that made it.
abbrev Way := List Bool

-- What a descriptor is open on.
inductive Desc
  | inherited (fd : Nat)
  | read (pipe : Way)
  | write (pipe : Way)
  | file (fd : Nat) (name : List Char)
deriving DecidableEq

abbrev Fds := Nat → Option Desc

def Desc.stream : Desc → Stream
  | inherited fd => .inherited fd
  | read _       => .pipe
  | write _      => .pipe
  | file fd name => .file fd name

def Fds.stream (t : Fds) (fd : Nat) : Stream :=
  match t fd with
  | some d => d.stream
  | none   => .inherited fd

def Fds.process (t : Fds) (env : Env) : Process := ⟨env, t.stream 0, t.stream 1, t.stream 2, []⟩

def Fds.close (t : Fds) (fd : Nat) : Fds := update t fd none

def Fds.dup2 (t : Fds) (old new : Nat) : Fds := if t old = none then t else update t new (t old)

-- The descriptors with which the program of a command runs, if the files could be opened.
def redirFds (e : ExecCmd) (t : Fds) : Fds :=
  match e.type with
  | .exec  => t
  | .redir =>
    let t := if 0 < e.inFile.length then update t 0 (some (.file 0 e.inFile)) else t
    let t := if 0 < e.outFile.length then update t 1 (some (.file 1 e.outFile)) else t
    if 0 < e.errFile.length then
      if e.errFile = ['&', '1'] then update t 2 (t 1) else update t 2 (some (.file 2 e.errFile))
    else t

-- Where a process is in `exec_cmd`.
inductive Point
  | execCmd (c : Cmd)
  -- `case_pipe_cmd` behind `pipe`, with `fds`.
  | forkIzq (l r : Cmd) (fd0 fd1 : Nat)
  | forkDer (r : Cmd) (fd0 fd1 : Nat)
  | close0 (fd0 fd1 : Nat)
  | close1 (fd1 : Nat)
  | waitIzq
  | waitDer
  -- The left child before `exec_cmd`, and the right one.
  | izqClose0 (c : Cmd) (fd0 fd1 : Nat)
  | izqDup (c : Cmd) (fd1 : Nat)
  | izqClose1 (c : Cmd) (fd1 : Nat)
  | derClose1 (c : Cmd) (fd0 fd1 : Nat)
  | derDup (c : Cmd) (fd0 : Nat)
  | derClose0 (c : Cmd) (fd0 : Nat)
  | program (q : Program)
  | exited
  -- Back in `run_cmd`, in the process that has all the others as descendants.
  | returned

structure Proc where
  fds : Fds
  pc : Point

abbrev Procs := Way → Option Proc

-- Whether a system call succeeds, and the descriptors that `pipe` takes.
structure Outcome where
  ok : Bool
  fd0 : Nat
  fd1 : Nat

namespace Procs

variable (canOpen : List Char → Bool) (env : Env) (s : Procs) (w : Way)

def goto (t : Fds) (pc : Point) : Procs := update s w (some ⟨t, pc⟩)

-- A process that exits closes its descriptors.
def exit : Procs := s.goto w (fun _ => none) .exited

def hasExited : Bool :=
  match s w with
  | some ⟨_, .exited⟩ => true
  | _                 => false

-- `exec_cmd` for EXEC and REDIR; the program can exit at any time.
def runProgram (t : Fds) (e : ExecCmd) (ok : Bool) : Procs :=
  match Shell.execCmd canOpen e (t.process env) with
  | some q => if ok then s.goto w (redirFds e t) (.program q) else s.exit w
  | none   => s.exit w

-- A step of one process; `none` if it has to wait.
def next (o : Outcome) : Option Procs :=
  match s w with
  | none         => none
  | some ⟨t, pc⟩ =>
    match pc with
    | .execCmd .null       => some (s.exit w)
    | .execCmd (.exec e)   => some (s.runProgram canOpen env w t e o.ok)
    | .execCmd (.back _ e) => some (s.runProgram canOpen env w t e o.ok)
    | .execCmd (.pipe l r) =>
      if o.ok then
        if t o.fd0 = none ∧ t o.fd1 = none ∧ o.fd0 ≠ o.fd1 then
          some (s.goto w (update (update t o.fd0 (some (.read w))) o.fd1 (some (.write w)))
            (.forkIzq l r o.fd0 o.fd1))
        else none
      else some (s.exit w)
    | .forkIzq l r fd0 fd1 =>
      if o.ok then some ((s.goto w t (.forkDer r fd0 fd1)).goto (false :: w) t (.izqClose0 l fd0 fd1))
      else some (s.exit w)
    | .forkDer r fd0 fd1   =>
      if o.ok then some ((s.goto w t (.close0 fd0 fd1)).goto (true :: w) t (.derClose1 r fd0 fd1))
      else some (s.exit w)
    | .close0 fd0 fd1      => some (s.goto w (t.close fd0) (.close1 fd1))
    | .close1 fd1          => some (s.goto w (t.close fd1) .waitIzq)
    | .waitIzq             => if s.hasExited (false :: w) then some (s.goto w t .waitDer) else none
    | .waitDer             =>
      if s.hasExited (true :: w) then
        -- A child calls `_exit` when `exec_cmd` returns.
        if w = [] then some (s.goto w t .returned) else some (s.exit w)
      else none
    | .izqClose0 c fd0 fd1 => some (s.goto w (t.close fd0) (.izqDup c fd1))
    | .izqDup c fd1        => some (s.goto w (t.dup2 fd1 1) (.izqClose1 c fd1))
    | .izqClose1 c fd1     => some (s.goto w (t.close fd1) (.execCmd c))
    | .derClose1 c fd0 fd1 => some (s.goto w (t.close fd1) (.derDup c fd0))
    | .derDup c fd0        => some (s.goto w (t.dup2 fd0 0) (.derClose0 c fd0))
    | .derClose0 c fd0     => some (s.goto w (t.close fd0) (.execCmd c))
    | .program _           => some (s.exit w)
    | .exited              => none
    | .returned            => none

-- The process that `run_cmd` forks, with the descriptors that are open in the shell.
def start (c : Cmd) (isOpen : Nat → Bool) : Procs :=
  update (fun _ => none) []
    (some ⟨fun fd => if isOpen fd then some (.inherited fd) else none, .execCmd c⟩)

end Procs

def ProcsStep (canOpen : List Char → Bool) (env : Env) (s : Procs) (ev : Way × Outcome) (s' : Procs) : Prop :=
  s.next canOpen env ev.1 ev.2 = some s'

end Shell

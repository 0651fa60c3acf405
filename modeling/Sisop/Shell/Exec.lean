import Sisop.Shell.Parsing

-- labs/shell: exec.c

namespace Shell

abbrev Env := List Char → Option (List Char)

-- What a descriptor is bound to: what it was bound to in the shell, an end of a pipe, or a file that was opened
-- for this descriptor.
inductive Stream
  | inherited (fd : Nat)
  | pipe
  | file (fd : Nat) (name : List Char)
deriving DecidableEq

-- A call of `open`. All of them have O_RDWR and O_CLOEXEC.
structure Open where
  name : List Char
  trunc : Bool
  append : Bool
  creat : Bool
deriving DecidableEq

structure Process where
  env : Env
  stdin : Stream
  stdout : Stream
  stderr : Stream
  opens : List Open

-- The arguments of `execvp`, and the process that calls it.
structure Program where
  argv : List (Option (List Char))
  process : Process

def setenv (env : Env) (key value : List Char) : Env := fun k => if k = key then some value else env k

def getEnvironKey (arg : List Char) : List Char := arg.takeWhile (· ≠ '=')

def getEnvironValue (arg : List Char) (idx : Nat) : List Char := arg.drop (idx + 1)

-- `none` is a read or a write outside of an array.
def setEnvironVars : List (List Char) → Env → Option Env
  | [], env           => some env
  | arg :: eargv, env =>
    match blockContains arg '=' with
    | none     => none
    | some pos =>
      let key := getEnvironKey arg
      let value := getEnvironValue arg pos
      if key.length < MAXARGS ∧ value.length < MAXARGS then setEnvironVars eargv (setenv env key value)
      else none

def caseExecCmd (e : ExecCmd) (p : Process) : Program := ⟨e.argv, p⟩

section Redir

-- The files that can be opened for reading and writing.
variable (canOpen : List Char → Bool)

def openRedirFd (o : Open) (p : Process) : Option Process :=
  if canOpen o.name then some { p with opens := p.opens ++ [o] } else none

def redirIn (r : ExecCmd) (p : Process) : Option Process :=
  if 0 < r.inFile.length then
    (openRedirFd canOpen ⟨r.inFile, false, false, false⟩ p).map fun p =>
      { p with stdin := .file 0 r.inFile }
  else some p

def redirOut (r : ExecCmd) (p : Process) : Option Process :=
  if 0 < r.outFile.length then
    let toOut : Bool := r.errFile = ['&', '1']
    (openRedirFd canOpen ⟨r.outFile, !toOut, toOut, true⟩ p).map fun p =>
      { p with stdout := .file 1 r.outFile }
  else some p

def redirErr (r : ExecCmd) (p : Process) : Option Process :=
  if 0 < r.errFile.length then
    if r.errFile = ['&', '1'] then some { p with stderr := p.stdout }
    else
      (openRedirFd canOpen ⟨r.errFile, true, false, true⟩ p).map fun p =>
        { p with stderr := .file 2 r.errFile }
  else some p

-- `none` is `_exit(-1)`.
def caseRedirMd (r : ExecCmd) (p : Process) : Option Program := do
  let p ← redirIn canOpen r p
  let p ← redirOut canOpen r p
  let p ← redirErr canOpen r p
  pure (caseExecCmd r p)

-- `exec_cmd` for EXEC and REDIR.
def execCmd (e : ExecCmd) (p : Process) : Option Program :=
  match e.type with
  | .exec  => (setEnvironVars e.eargv p.env).map fun env => caseExecCmd e { p with env }
  | .redir => caseRedirMd canOpen e p

end Redir

-- `exec_cmd` for a tree comes to a command in a process, by itself or in a child.
inductive Reaches : Cmd → Process → ExecCmd → Process → Prop
  | exec : Reaches (.exec e) p e p
  | back : Reaches (.back scmd e) p e p
  | left : Reaches l { p with stdout := .pipe } e p' → Reaches (.pipe l r) p e p'
  | right : Reaches r { p with stdin := .pipe } e p' → Reaches (.pipe l r) p e p'

end Shell

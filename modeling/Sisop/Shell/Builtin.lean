import Sisop.Shell.Parsing

-- labs/shell: builtin.c, and the start of run_cmd in runcmd.c

namespace Shell

-- What `run_cmd` does with a line: `fails` is a null pointer that is compared, `chdir` has the argument of the
-- call, and `command` goes on to `parse_line`.
inductive Builtin
  | fails
  | nothing
  | chdir (dir : Option (List Char))
  | exit
  | pwd
  | command
deriving DecidableEq

-- The next token, and the rest of the string behind it; `none` is null.
def strtok (s : List Char) : Option (List Char × List Char) :=
  let s := s.dropWhile (· = SPACE)
  if s = [] then none else some (getToken s, (s.drop (getToken s).length).drop 1)

def exitShell (cmd : List Char) : Bool := cmd = ['e', 'x', 'i', 't']

def pwd (cmd : List Char) : Bool := cmd = ['p', 'w', 'd']

-- `home` is what `getenv` returns for HOME.
def cd (home : Option (List Char)) (cmd : List Char) : Option Builtin :=
  match strtok cmd with
  | none                  => some .fails
  | some (primer, resto) =>
    if primer = ['c', 'd'] then
      match strtok resto with
      | none              => some (.chdir home)
      | some (segundo, _) => some (.chdir (removerCaracter segundo '/'))
    else none

def runCmd (home : Option (List Char)) (cmd : List Char) : Builtin :=
  if cmd = [] then .nothing
  else
    match cd home cmd with
    | some b => b
    | none   => if exitShell cmd then .exit else if pwd cmd then .pwd else .command

end Shell

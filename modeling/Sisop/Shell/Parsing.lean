import Mathlib.Data.List.Basic

-- labs/shell: parsing.c, utils.c, createcmd.c

namespace Shell

def SPACE : Char := ' '
def END_STRING : Char := Char.ofNat 0

def MAXARGS : Nat := 20

inductive CmdType
  | exec
  | redir
deriving DecidableEq

-- The first `argc` entries of `argv` and the first `eargc` of `eargv`; the others are null. An entry of
-- `argv` can be null, too.
structure ExecCmd where
  type : CmdType
  scmd : List Char
  argv : List (Option (List Char))
  eargv : List (List Char)
  outFile : List Char
  inFile : List Char
  errFile : List Char
deriving DecidableEq

-- `null` is the null pointer.
inductive Cmd
  | null
  | exec (c : ExecCmd)
  | back (scmd : List Char) (c : ExecCmd)
  | pipe (left right : Cmd)
deriving DecidableEq

-- The string at the start of a buffer. Strings are without `END_STRING`.
def cstr (buf : List Char) : List Char := buf.takeWhile (· ≠ END_STRING)

-- The left string with its terminator, the character before the right part, and the right part, which is
-- the rest of the buffer.
def splitLine (buf : List Char) (splitter : Char) : List Char × Char × List Char :=
  let left := buf.takeWhile fun c => c ≠ splitter ∧ c ≠ END_STRING
  let right := buf.drop (left.length + 1)
  (left ++ [END_STRING], (right.takeWhile (· = SPACE)).getLastD END_STRING,
    right.dropWhile (· = SPACE))

-- `none` is `-1`.
def blockContains (s : List Char) (c : Char) : Option Nat := s.findIdx? (· = c)

-- Removes the first `caracter`.
def removerCaracter (arg : List Char) (caracter : Char) : List Char := arg.erase caracter

def execCmdCreate (s : List Char) : ExecCmd := ⟨.exec, s, [], [], [], [], []⟩

def pipeCmdCreate (left right : Cmd) : Cmd :=
  if right = .null then left else .pipe left right

def getToken (s : List Char) : List Char := s.takeWhile (· ≠ SPACE)

-- `none` is false.
def parseRedirFlow (c : ExecCmd) (arg : List Char) : Option ExecCmd :=
  match blockContains arg '>' with
  | some 0 => some { c with outFile := arg.drop 1, type := .redir }
  | some 1 => some { c with errFile := arg.drop 2, type := .redir }
  | some _ => some { c with type := .redir }
  | none   =>
    if (blockContains arg '<').isSome then some { c with inFile := arg.drop 1, type := .redir }
    else none

-- Whether `parse_environ_var` takes the argument.
def isEnvironVar (arg : List Char) : Bool :=
  (blockContains arg '=').any (0 < ·) && (blockContains arg '-').isNone

section Parse

variable (getenv : List Char → Option (List Char))

-- `none` is the null pointer.
def expandEnvironVar (arg : List Char) : Option (List Char) :=
  if blockContains arg '$' = some 0 then
    if blockContains arg '?' = some 1 then none
    else some ((getenv (removerCaracter arg '$')).getD [])
  else some arg

-- What `parse_exec` does with one token; `none` is a write behind `argv` or `eargv`.
def parseToken (c : ExecCmd) (tok : List Char) : Option ExecCmd :=
  match parseRedirFlow c tok with
  | some c => some c
  | none   =>
    if isEnvironVar tok then
      if c.eargv.length < MAXARGS then some { c with eargv := c.eargv ++ [tok] } else none
    else if c.argv.length < MAXARGS then
      some { c with argv := c.argv ++ [expandEnvironVar getenv tok] }
    else none

def parseTokens (c : ExecCmd) (s : List Char) : Option ExecCmd :=
  if _h : s = [] then some c
  else do
    let c ← parseToken getenv c (getToken s)
    parseTokens c ((s.drop (getToken s).length).drop 1)
termination_by s.length
decreasing_by
  have := List.length_pos_of_ne_nil _h
  simp only [List.length_drop]
  cases s
  case nil => exact absurd rfl _h
  case cons c s =>
    by_cases hc : c = SPACE <;> simp [getToken, hc]
    omega

-- The entry after the last one becomes null.
def parseExec (buf : List Char) : Option ExecCmd := do
  let c ← parseTokens getenv (execCmdCreate (cstr buf)) (cstr buf)
  if c.argv.length < MAXARGS then some c else none

-- The command, and the buffer after it.
def parseBack (buf : List Char) : Option (Cmd × List Char) := do
  let buf := buf.set (buf.findIdx (· = '&')) END_STRING
  let e ← parseExec getenv buf
  pure (.back e.scmd e, buf)

-- Whether a command has an `&` that is not after `>`; `prev` is the character before the string.
def isBack (prev : Char) (s : List Char) : Bool :=
  match blockContains s '&' with
  | some idx => (s.take idx).getLastD prev ≠ '>'
  | none     => false

def parseCmd (prev : Char) (buf : List Char) : Option (Cmd × List Char) :=
  if (cstr buf).length = 0 then some (.null, buf)
  else if isBack prev (cstr buf) then parseBack getenv buf
  else do
    let e ← parseExec getenv buf
    pure (.exec e, buf)

-- Whether there is a `|` that is not the first character.
def hasPipe (buf : List Char) : Bool := (blockContains (cstr buf) '|').any (0 < ·)

theorem parseCmd_length {prev : Char} {buf buf' : List Char} {c : Cmd}
    (h : parseCmd getenv prev buf = some (c, buf')) : buf'.length = buf.length := by
  unfold parseCmd at h
  split_ifs at h
  · cases h
    rfl
  · simp only [parseBack, Option.bind_eq_bind, Option.bind_eq_some_iff, Option.pure_def,
      Option.some.injEq, Prod.mk.injEq] at h
    obtain ⟨_, -, -, rfl⟩ := h
    exact List.length_set
  · simp only [Option.bind_eq_bind, Option.bind_eq_some_iff, Option.pure_def, Option.some.injEq,
      Prod.mk.injEq] at h
    obtain ⟨_, -, -, rfl⟩ := h
    rfl

-- `prev` is the character before the line. The first parse of the right part counts for what it does to
-- the buffer, and for its errors.
def parseLine (prev : Char) (buf : List Char) : Option Cmd :=
  match _hs : splitLine buf '|' with
  | (left, prev', right) =>
    match parseCmd getenv prev left, _h : parseCmd getenv prev' right with
    | some (l, _), some (r, right') =>
      if _hp : hasPipe right' then do
        let r ← parseLine prev' right'
        pure (pipeCmdCreate l r)
      else some (pipeCmdCreate l r)
    | _, _ => none
termination_by buf.length
decreasing_by
  have hr := parseCmd_length getenv _h
  have hne : right' ≠ [] := by
    rintro rfl
    cases _hp
  have hlt : 0 < right'.length := List.length_pos_of_ne_nil hne
  simp only [splitLine, Prod.mk.injEq] at _hs
  have hle := (List.dropWhile_sublist (· = SPACE)
    (l := buf.drop ((buf.takeWhile fun c => c ≠ '|' ∧ c ≠ END_STRING).length + 1))).length_le
  rw [_hs.2.2, List.length_drop] at hle
  omega

end Parse

end Shell

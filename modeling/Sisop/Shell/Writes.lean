import Sisop.Shell.Exec

-- labs/shell: the writes of readline.c, parsing.c and exec.c

namespace Shell

def BUFLEN : Nat := 1024
def ARGSIZE : Nat := 1024
def FNAMESIZE : Nat := 1024

-- Writes into an array up to an index.
structure Write where
  size : Nat
  last : Nat

def Write.Inside (w : Write) : Prop := w.last < w.size

-- The line goes into the buffer with its terminator.
def readLineWrites (line : List Char) : List Write := [⟨BUFLEN, line.length⟩]

-- The buffer after `read_line`, and the memory behind it.
def buffer (line after : List Char) : List Char :=
  line ++ List.replicate (BUFLEN - line.length) END_STRING ++ after

section Parse

variable (getenv : List Char → Option (List Char))

-- The last index is one more if the character is the last one.
def removerCaracterWrites (arg : List Char) : List Write :=
  [⟨ARGSIZE, if arg.length = 1 then 1 else arg.length - 1⟩]

-- `realloc` makes room for the value without its terminator.
def expandWrites (arg : List Char) : List Write :=
  if blockContains arg '$' = some 0 then
    if blockContains arg '?' = some 1 then []
    else
      removerCaracterWrites arg ++
        match getenv (removerCaracter arg '$') with
        | none           => [⟨ARGSIZE, 0⟩]
        | some []        => [⟨ARGSIZE, 0⟩]
        | some (c :: cs) => [⟨(c :: cs).length, (c :: cs).length⟩]
  else []

def redirWrites (arg : List Char) : List Write :=
  match blockContains arg '>' with
  | some 0 => [⟨FNAMESIZE, arg.length - 1⟩]
  | some 1 => [⟨FNAMESIZE, arg.length - 2⟩]
  | some _ => []
  | none   => [⟨FNAMESIZE, arg.length - 1⟩]

def getTokenWrites (tok : List Char) : List Write := if tok = [] then [] else [⟨ARGSIZE, tok.length - 1⟩]

def tokenWrites (c : ExecCmd) (tok : List Char) : List Write :=
  getTokenWrites tok ++
    match parseRedirFlow c tok with
    | some _ => redirWrites tok
    | none   =>
      if isEnvironVar tok then [⟨MAXARGS, c.eargv.length⟩]
      else expandWrites getenv tok ++ [⟨MAXARGS, c.argv.length⟩]

theorem getToken_lt {s : List Char} (h : s ≠ []) :
    ((s.drop (getToken s).length).drop 1).length < s.length := by
  have hpos := List.length_pos_of_ne_nil h
  simp only [List.length_drop]
  cases s
  case nil => exact absurd rfl h
  case cons c s =>
    by_cases hc : c = SPACE <;> simp [getToken, hc]
    omega

-- The loop of `parse_exec`, and the null pointer at the end. A write outside ends it.
def tokensWrites (c : ExecCmd) (s : List Char) : List Write :=
  if _h : s = [] then [⟨MAXARGS, c.argv.length⟩]
  else
    tokenWrites getenv c (getToken s) ++
      match parseToken getenv c (getToken s) with
      | some c => tokensWrites c ((s.drop (getToken s).length).drop 1)
      | none   => []
termination_by s.length
decreasing_by exact getToken_lt _h

def execWrites (buf : List Char) : List Write :=
  ⟨BUFLEN, (cstr buf).length⟩ :: tokensWrites getenv (execCmdCreate (cstr buf)) (cstr buf)

-- `pos` is the position of the command in the buffer.
def cmdWrites (pos : Nat) (prev : Char) (buf : List Char) : List Write :=
  if (cstr buf).length = 0 then []
  else if isBack prev (cstr buf) then
    let i := buf.findIdx (· = '&')
    let buf := buf.set i END_STRING
    ⟨BUFLEN, pos + i⟩ :: (execWrites getenv buf ++ [⟨BUFLEN, (cstr buf).length⟩])
  else execWrites getenv buf

theorem splitLine_lt {buf left right : List Char} {prev : Char}
    (hs : splitLine buf '|' = (left, prev, right)) (hne : right ≠ []) : right.length < buf.length := by
  have hlt : 0 < right.length := List.length_pos_of_ne_nil hne
  simp only [splitLine, Prod.mk.injEq] at hs
  have hle := (List.dropWhile_sublist (· = SPACE)
    (l := buf.drop ((buf.takeWhile fun c => c ≠ '|' ∧ c ≠ END_STRING).length + 1))).length_le
  rw [hs.2.2, List.length_drop] at hle
  omega

def lineWrites (pos : Nat) (prev : Char) (buf : List Char) : List Write :=
  match _hs : splitLine buf '|' with
  | (left, prev', right) =>
    let pos' := pos + (buf.length - right.length)
    ⟨BUFLEN, pos + (left.length - 1)⟩ :: (cmdWrites getenv pos prev left ++
      (cmdWrites getenv pos' prev' right ++
        match _h : parseCmd getenv prev' right with
        | some (_, right') => if _hp : hasPipe right' then lineWrites pos' prev' right' else []
        | none             => []))
termination_by buf.length
decreasing_by
  have hr := parseCmd_length getenv _h
  rw [hr]
  refine splitLine_lt _hs ?_
  rintro rfl
  rw [List.eq_nil_of_length_eq_zero hr] at _hp
  cases _hp

-- The keys and the values of the commands that `exec_cmd` comes to.
def environWrites : Cmd → List Write
  | .null     => []
  | .exec e   => leafWrites e
  | .back _ e => leafWrites e
  | .pipe l r => environWrites l ++ environWrites r
where
  leafWrites (e : ExecCmd) : List Write :=
    match e.type with
    | .exec  => e.eargv.flatMap fun arg =>
      [⟨MAXARGS, (getEnvironKey arg).length⟩,
        ⟨MAXARGS, (getEnvironValue arg ((blockContains arg '=').getD 0)).length⟩]
    | .redir => []

-- All writes for a line; `prev` and `after` are what stands around the buffer.
def shellWrites (prev : Char) (line after : List Char) : List Write :=
  readLineWrites line ++ (lineWrites getenv 0 prev (buffer line after) ++
    match parseLine getenv prev (buffer line after) with
    | some t => environWrites t
    | none   => [])

end Parse

end Shell

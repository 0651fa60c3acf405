import Sisop.Library.Memory
import Sisop.Library.While

-- user/sh.c, lib/string.c and lib/readline.c

namespace User.Sh

open Library

abbrev Byte := BitVec 8

def char (c : Char) : Byte := BitVec.ofNat 8 c.toNat

def WHITESPACE : List Byte := [char ' ', char '\t', char '\r', char '\n']
def SYMBOLS : List Byte :=
  [char '<', char '|', char '>', char '&', char ';', char '(', char ')']

-- The place of `c` in a string, which is given without its terminator; `none` is the null pointer.
def strchr (s : List Byte) (c : Byte) : Option Nat := s.findIdx? (· = c)

-- The pointer `s` of `_gettoken` with the memory, and the places it has pointed to.
structure Scan where
  mem : Memory
  s : Nat
  seen : List Nat

namespace Scan

def cur (x : Scan) : Byte := x.mem x.s

def next (x : Scan) : Scan := { x with s := x.s + 1, seen := (x.s + 1) :: x.seen }

def zero (x : Scan) : Scan := { x with mem := x.mem.write x.s 1 fun _ => 0 }

def isWhite (x : Scan) : Prop := (strchr WHITESPACE x.cur).isSome

def inWord (x : Scan) : Prop := x.cur ≠ 0 ∧ (strchr (WHITESPACE ++ SYMBOLS) x.cur).isNone

instance : DecidablePred isWhite := fun _ => inferInstanceAs (Decidable (_ = true))

instance : DecidablePred inWord := fun _ => inferInstanceAs (Decidable (_ ∧ _))

-- `while (strchr(WHITESPACE, *s)) *s++ = 0`, for at most `n` turns
def skipWhite (n : Nat) (x : Scan) : Scan := whileLoop isWhite (fun x => x.zero.next) n x

-- `while (*s && !strchr(WHITESPACE SYMBOLS, *s)) s++`
def skipWord (n : Nat) (x : Scan) : Scan := whileLoop inWord next n x

end Scan

-- The static variables of `gettoken`, and the memory.
structure Lexer where
  mem : Memory
  seen : List Nat
  nc : Byte
  np1 : Nat
  np2 : Nat

-- A null pointer `s` leaves `*p1` and `*p2` as they are.
def _gettoken (n s : Nat) (x : Lexer) : Byte × Lexer :=
  if s = 0 then (0, x)
  else
    let y := Scan.skipWhite n ⟨x.mem, s, s :: x.seen⟩
    if y.cur = 0 then (0, { x with mem := y.mem, seen := y.seen, np1 := 0, np2 := 0 })
    else if (strchr SYMBOLS y.cur).isSome then
      let z := y.zero.next
      (y.cur, { x with mem := z.mem, seen := z.seen, np1 := y.s, np2 := z.s })
    else
      let z := Scan.skipWord n y
      (char 'w', { x with mem := z.mem, seen := z.seen, np1 := y.s, np2 := z.s })

-- `t` is what the caller's token pointer holds; it is set where `s` is null.
def gettoken (n s t : Nat) (x : Lexer) : Byte × Nat × Lexer :=
  if s ≠ 0 then
    let (c, y) := _gettoken n s x
    (0, t, { y with nc := c })
  else
    let (c, y) := _gettoken n x.np2 x
    (x.nc, x.np1, { y with nc := c })

def MAXARGS : Nat := 16
def BUFSIZ : Nat := 1024
def BUFLEN : Nat := 1024

-- A store into one of the two arrays of `runcmd`, with its index.
inductive Store
  | argv (i : Nat)
  | argv0buf (i : Nat)
deriving DecidableEq

-- How `runcmd` leaves its loop: it exits after a message, or it panics, or it is at `runit`.
inductive Loop
  | exit
  | panic
  | runit
deriving DecidableEq

-- `calls` counts the answers of `open`, `pipe` and `fork` that have been used.
structure Cmd where
  lexer : Lexer
  t : Nat
  argc : Nat
  argv : Nat → Nat
  stores : List Store
  calls : Nat

section Runcmd

variable (answer : Nat → Int) (n : Nat)

def Cmd.gettoken (x : Cmd) : Byte × Cmd :=
  let (c, t, lexer) := Sh.gettoken n 0 x.t x.lexer
  (c, { x with lexer, t })

-- `argv[argc++] = t`
def Cmd.push (x : Cmd) : Cmd :=
  { x with
    argc := x.argc + 1
    argv := Function.update x.argv x.argc x.t
    stores := .argv x.argc :: x.stores }

-- One turn of the loop; `none` is that the loop goes on, from its start or from `again`.
def turn (x : Cmd) : Option Loop × Cmd :=
  let (c, x) := x.gettoken n
  if c = char 'w' then
    if x.argc = MAXARGS then (some .exit, x) else (none, x.push)
  else if c = char '<' then
    let (c, x) := x.gettoken n
    if c ≠ char 'w' then (some .exit, x) else (some .panic, x)
  else if c = char '>' then
    let (c, x) := x.gettoken n
    if c ≠ char 'w' then (some .exit, x)
    else if answer x.calls < 0 then (some .exit, x)
    else (none, { x with calls := x.calls + 1 })
  else if c = char '|' then
    if answer x.calls < 0 then (some .exit, x)
    else if answer (x.calls + 1) < 0 then (some .exit, x)
    else if answer (x.calls + 1) = 0 then (none, { x with calls := x.calls + 2, argc := 0 })
    else (some .runit, { x with calls := x.calls + 2 })
  else if c = 0 then (some .runit, x)
  else (some .panic, x)

-- The loop, for at most the given number of turns.
def turns : Nat → Cmd → Option Loop × Cmd
  | 0,     x => (none, x)
  | k + 1, x =>
    match turn answer n x with
    | (none, x)   => turns k x
    | (some l, x) => (some l, x)

-- The length of the string at `a`.
def strlen (m : Memory) (a : Nat) : Nat := whileLoop (fun i => m (a + i) ≠ 0) (· + 1) n 0

-- `argv0buf[0] = '/'` and `strcpy(argv0buf + 1, argv[0])`, and the two stores into `argv`.
def runit (x : Cmd) : Cmd :=
  if x.argc = 0 then x
  else
    let m := x.lexer.mem
    let a := x.argv 0
    let x := if m a = char '/' then x else
      { x with
        stores := .argv 0 :: ((List.range (strlen n m a + 1)).map fun i => .argv0buf (i + 1)) ++
          .argv0buf 0 :: x.stores }
    { x with stores := .argv x.argc :: x.stores }

-- What `runcmd` does until it calls `spawn`, exits or returns.
def runcmd (s : Nat) (x : Lexer) : Option Loop × Cmd :=
  let (_, t, x) := gettoken n s 0 x
  match turns answer n n ⟨x, t, 0, fun _ => 0, [], 0⟩ with
  | (some .runit, x) => (some .runit, runit n x)
  | r                => r

end Runcmd

-- The line `readline` returns for what `getchar` gives, where `none` is a negative number; the result
-- `none` is that it returns no line.
def readline : List Byte → List (Option Byte) → Option (List Byte)
  | _,   []           => none
  | _,   none :: _    => none
  | buf, some c :: cs =>
    if (c = 8 ∨ c = 127) ∧ 0 < buf.length then readline buf.dropLast cs
    else if 32 ≤ c.toNat ∧ buf.length < BUFLEN - 1 then readline (buf ++ [c]) cs
    else if c = char '\n' ∨ c = char '\r' then some buf
    else readline buf cs

end User.Sh

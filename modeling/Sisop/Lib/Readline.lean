import Sisop.Library.Memory

-- lib/readline.c

namespace Lib.Readline

open Library

abbrev Byte := BitVec 8

def BUFLEN : Nat := 1024

-- `stores` are the indices that have been written, and `out` what has been echoed, the last one first.
structure State where
  buf : Memory
  i : Nat
  stores : List Nat
  out : List Int

-- `buf[k] = c`
def store (k : Nat) (c : Int) (s : State) : State :=
  { s with buf := s.buf.write k 1 fun _ => BitVec.ofInt 8 c, stores := k :: s.stores }

variable (echoing : Bool)

def cputchar (c : Int) (s : State) : State := if echoing then { s with out := c :: s.out } else s

-- One turn of the loop: the state to go on with, or the end with null or with the buffer.
def turn (c : Int) (s : State) : State × Option (Option Memory) :=
  if c < 0 then (s, some none)
  else if (c = 8 ∨ c = 0x7F) ∧ 0 < s.i then
    let s := cputchar echoing 8 s
    ({ s with i := s.i - 1 }, none)
  else if 0x20 ≤ c ∧ s.i < BUFLEN - 1 then
    let s := cputchar echoing c s
    ({ store s.i c s with i := s.i + 1 }, none)
  else if c = 10 ∨ c = 13 then
    let s := store s.i 0 (cputchar echoing 10 s)
    (s, some (some s.buf))
  else (s, none)

-- `getchar` gives the numbers of the list, one after the other; `none` is that there is nothing more to read.
def loop : List Int → State → Option (Option Memory × State)
  | [],      _ => none
  | c :: cs, s =>
    match turn echoing c s with
    | (s, some r) => some (r, s)
    | (s, none)   => loop cs s

def readline (cs : List Int) (buf : Memory) : Option (Option Memory × State) :=
  loop echoing cs ⟨buf, 0, [], []⟩

end Lib.Readline

import Sisop.Kern.Crt
import Sisop.Kern.Pmap

-- kern/syscall.c: what `sys_cputs` prints after its check, with the loop of `%.*s` in lib/printfmt.c

namespace Kern

open Inc

-- The byte that the kernel reads at `va`, where `ram` is what the physical memory holds. `none` is a page
-- fault, at which the kernel panics.
def kernelRead (s : State) (pgdir : Nat) (ram : Word → BitVec 8) (va : Word) : Option (BitVec 8) :=
  let pde := s.mem pgdir (PDX va)
  let pte := s.mem (PGNUM pde) (PTX va)
  if present pde && present pte then some (ram (PTE_ADDR pte ||| PGOFF va)) else none

-- The loop over the string, which looks at a byte before it looks at the precision.
def stringLoop (read : Word → Option (BitVec 8)) : Nat → Word → Option (List Word)
  | 0, p             => (read p).map fun _ => []
  | precision + 1, p => do
    let ch ← read p
    if ch = 0#8 then some [] else (stringLoop read precision (p + 1#32)).map (ch.signExtend 32 :: ·)

-- With a negative precision only a zero byte ends the loop. It does not return if it has been everywhere.
def endlessLoop (read : Word → Option (BitVec 8)) : Nat → Word → Option (List Word)
  | 0, _     => none
  | n + 1, p => do
    let ch ← read p
    if ch = 0#8 then some [] else (endlessLoop read n (p + 1#32)).map (ch.signExtend 32 :: ·)

-- "(null)"
def nullString : List Word := [0x28#32, 0x6E#32, 0x75#32, 0x6C#32, 0x6C#32, 0x29#32]

-- `cprintf("%.*s", len, s)`
def printString (read : Word → Option (BitVec 8)) (s len : Word) (crt : Crt) : Option Crt :=
  if s = 0#32 then some (crt.puts (nullString.take len.toNat))
  else if len.toInt < 0 then (endlessLoop read 4294967296 s).map (crt.puts ·)
  else (stringLoop read len.toNat s).map (crt.puts ·)

end Kern

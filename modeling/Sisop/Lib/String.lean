import Sisop.Inc.Mmu
import Sisop.Library.While

-- lib/string.c

namespace Lib

open Inc Library Function

-- The contents of the address space. Addresses wrap.
abbrev Bytes := Word → BitVec 8

-- The memory after the `n` bytes at `s` have been read and then stored at `d`.
def move (m : Bytes) (d s : Word) (n : Nat) : Bytes := fun x =>
  if (x - d).toNat < n then m (s + (x - d)) else m x

-- `s < d && s + n > d`
def overlaps (d s n : Word) : Prop := s < d ∧ d < s + n

instance {d s n : Word} : Decidable (overlaps d s n) := inferInstanceAs (Decidable (_ ∧ _))

namespace Asm

-- The processor, as far as the string instructions use it.
structure Cpu where
  mem : Bytes
  edi : Word
  esi : Word
  ecx : Word
  df : Bool

def std (c : Cpu) : Cpu := { c with df := true }

def cld (c : Cpu) : Cpu := { c with df := false }

-- `movsb` and `movsl`, whose elements have 1 and 4 bytes, with the count of `rep`.
def movs (w : Nat) (c : Cpu) : Cpu :=
  { c with
    mem := move c.mem c.edi c.esi w
    edi := if c.df then c.edi - BitVec.ofNat 32 w else c.edi + BitVec.ofNat 32 w
    esi := if c.df then c.esi - BitVec.ofNat 32 w else c.esi + BitVec.ofNat 32 w
    ecx := c.ecx - 1#32 }

-- `rep` repeats an instruction until `ecx` is zero, which it counts down.
def rep (f : Cpu → Cpu) (c : Cpu) : Cpu := whileLoop (·.ecx ≠ 0#32) f c.ecx.toNat c

-- `asm volatile("…; rep movs…" :: "D" (d), "S" (s), "c" (n) : "cc", "memory")`
def repMovs (w : Nat) (c : Cpu) (d s n : Word) : Cpu :=
  rep (movs w) { c with edi := d, esi := s, ecx := n }

-- The copies with elements of `w` bytes, from the ends `d` and `s` down and from `d` and `s` up.
def copyDown (w : Nat) (c : Cpu) (d s n : Word) : Cpu :=
  cld (repMovs w (std c) (d - BitVec.ofNat 32 w) (s - BitVec.ofNat 32 w) n)

def copyUp (w : Nat) (c : Cpu) (d s n : Word) : Cpu :=
  repMovs w (cld c) d s n

-- `(int)s%4 == 0 && (int)d%4 == 0 && n%4 == 0`
def aligned (d s n : Word) : Prop :=
  s.srem 4#32 = 0#32 ∧ d.srem 4#32 = 0#32 ∧ n % 4#32 = 0#32

instance {d s n : Word} : Decidable (aligned d s n) := inferInstanceAs (Decidable (_ ∧ _))

def memmove (c : Cpu) (dst src n : Word) : Word × Cpu :=
  let s := src
  let d := dst
  if overlaps d s n then
    let s := s + n
    let d := d + n
    if aligned d s n then (dst, copyDown 4 c d s (n / 4#32))
    else (dst, copyDown 1 c d s n)
  else if aligned d s n then (dst, copyUp 4 c d s (n / 4#32))
  else (dst, copyUp 1 c d s n)

end Asm

-- What is compiled without `ASM`.
namespace NoAsm

-- The variables of the loops.
structure Copy where
  mem : Bytes
  d : Word
  s : Word
  n : Word

-- `*--d = *--s`
def down (c : Copy) : Copy :=
  let d := c.d - 1#32
  let s := c.s - 1#32
  ⟨update c.mem d (c.mem s), d, s, c.n - 1#32⟩

-- `*d++ = *s++`
def up (c : Copy) : Copy :=
  ⟨update c.mem c.d (c.mem c.s), c.d + 1#32, c.s + 1#32, c.n - 1#32⟩

-- `while (n-- > 0)`
def loop (f : Copy → Copy) (c : Copy) : Copy := whileLoop (0#32 < ·.n) f c.n.toNat c

def memmove (m : Bytes) (dst src n : Word) : Word × Bytes :=
  let s := src
  let d := dst
  if overlaps d s n then
    let s := s + n
    let d := d + n
    (dst, (loop down ⟨m, d, s, n⟩).mem)
  else (dst, (loop up ⟨m, d, s, n⟩).mem)

end NoAsm

end Lib

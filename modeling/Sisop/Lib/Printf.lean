import Sisop.Kern.Cputs

-- lib/printf.c

namespace Lib.Printf

open Inc Kern Function

structure Printbuf where
  idx : Nat
  cnt : Nat
  buf : Nat → BitVec 8

namespace Printbuf

-- What the kernel reads at an address, when the buffer lies at `addr`. Nothing is known of what is around it.
def read (b : Printbuf) (addr a : Word) : Option (BitVec 8) :=
  if (a - addr).toNat < 256 then some (b.buf (a - addr).toNat) else none

def sysCputs (addr : Word) (b : Printbuf) (crt : Crt) : Option Crt :=
  printString (b.read addr) addr (BitVec.ofNat 32 b.idx) crt

def putch (addr : Word) (p : Printbuf × Crt) (ch : Word) : Option (Printbuf × Crt) :=
  let (b, crt) := p
  let b := { b with buf := update b.buf b.idx (ch.setWidth 8), idx := b.idx + 1 }
  if b.idx = 256 - 1 then
    (b.sysCputs addr crt).map fun crt => ({ b with idx := 0, cnt := b.cnt + 1 }, crt)
  else some ({ b with cnt := b.cnt + 1 }, crt)

end Printbuf

-- `chs` are the characters that `vprintfmt` puts, and `buf` is what the buffer holds before. The result is the
-- count.
def vcprintf (addr : Word) (buf : Nat → BitVec 8) (chs : List Word) (crt : Crt) : Option (Nat × Crt) := do
  let (b, crt) ← chs.foldlM (Printbuf.putch addr) (⟨0, 0, buf⟩, crt)
  let crt ← b.sysCputs addr crt
  some (b.cnt, crt)

end Lib.Printf

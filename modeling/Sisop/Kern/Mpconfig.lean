import Sisop.Inc.Mmu
import Sisop.Library.Memory

-- kern/mpconfig.c

namespace Kern.Mpconfig

open Inc Library Function

def NCPU : Nat := 8
def MPPROC_BOOT : BitVec 8 := 2

def load16 (m : Memory) (a : Nat) : Nat := (m (a + 1) ++ m a).toNat

def isText (m : Memory) (a : Nat) (text : List Char) : Bool :=
  (List.range text.length).all fun i => (m (a + i)).toNat = (text.getD i ' ').toNat

def sum (m : Memory) (a len : Nat) : BitVec 8 := (List.range len).foldl (fun s i => s + m (a + i)) 0

section Search

-- The physical memory, which has `npages` pages.
variable (npages : Nat) (m : Memory)

-- A kernel address is given by its physical address; `none` is a panic.
def KADDR (pa : Nat) : Option Nat := if pa / PGSIZE < npages then some pa else none

-- The inner `none` is the null pointer.
def mpsearch1 (a len : Nat) : Option (Option Nat) := do
  let mp ← KADDR npages a
  let _ ← KADDR npages (a + len)
  some (((List.range (len / 16)).find? fun i =>
    isText m (mp + 16 * i) ['_', 'M', 'P', '_'] ∧ sum m (mp + 16 * i) 16 = 0).map fun i => mp + 16 * i)

def mpsearch : Option (Option Nat) := do
  let bda ← KADDR npages 0x400
  let p := load16 m (bda + 0x0E)
  let mp ←
    if p ≠ 0 then mpsearch1 npages m (p * 16) 1024
    else mpsearch1 npages m ((load16 m (bda + 0x13) * 1024 + 2 ^ 32 - 1024) % 2 ^ 32) 1024
  match mp with
  | some mp => some (some mp)
  | none    => mpsearch1 npages m 0xF0000 0x10000

-- A read of the table: of its byte at an offset, or of a byte of the extended table that follows it.
inductive Read
  | table (off : Nat)
  | extended (off : Nat)
deriving DecidableEq

-- The two tables: `mp` and `conf`; and the reads of `conf` in the order in which they are made.
structure Conf where
  mp : Nat
  conf : Nat
  reads : List Read
deriving DecidableEq

def Conf.length (m : Memory) (c : Conf) : Nat := load16 m (c.conf + 4)
def Conf.entry (m : Memory) (c : Conf) : Nat := load16 m (c.conf + 34)
def Conf.lapicaddr (m : Memory) (c : Conf) : BitVec 32 := m.load32 (c.conf + 36)
def Conf.xlength (m : Memory) (c : Conf) : Nat := load16 m (c.conf + 40)

-- The reads of `len` bytes from `off` on.
def bytes (off len : Nat) : List Read := (List.range len).map fun i => .table (off + i)

def mpconfig : Option (Option Conf) := do
  match ← mpsearch npages m with
  | none => some none
  | some mp =>
    let physaddr := (m.load32 (mp + 4)).toNat
    if physaddr = 0 ∨ m (mp + 11) ≠ 0 then some none
    else
      let conf ← KADDR npages physaddr
      if !isText m conf ['P', 'C', 'M', 'P'] then some none
      else
        let length := load16 m (conf + 4)
        if sum m conf length ≠ 0 then some none
        else if m (conf + 6) ≠ 1 ∧ m (conf + 6) ≠ 4 then some none
        else
          let xlength := load16 m (conf + 40)
          if sum m (conf + length) xlength + m (conf + 42) ≠ 0 then some none
          else
            some (some ⟨mp, conf, bytes 0 4 ++ bytes 4 2 ++ bytes 0 length ++ bytes 6 1 ++ bytes 4 2 ++
              bytes 40 2 ++ (List.range xlength).map .extended ++ bytes 42 1⟩)

end Search

-- The variables of `mp_init`; `bootcpu` is an index of `cpus`, and so is `started`, the CPU whose status
-- is `CPU_STARTED`; `imcr` is that the IMCR has been set.
structure Mp where
  ncpu : Nat
  bootcpu : Nat
  ismp : Bool
  lapicaddr : BitVec 32
  cpuId : Nat → Nat
  started : Option Nat
  imcr : Bool
  p : Nat
  reads : List Read

section Init

variable (m : Memory) (conf : Nat)

-- `case MPPROC`
def mpproc (x : Mp) : Mp :=
  let x := { x with reads := x.reads ++ bytes (x.p + 3) 1 }
  let x := if m (conf + x.p + 3) &&& MPPROC_BOOT ≠ 0 then { x with bootcpu := x.ncpu } else x
  let x :=
    if x.ncpu < NCPU then { x with cpuId := update x.cpuId x.ncpu x.ncpu, ncpu := x.ncpu + 1 }
    else { x with reads := x.reads ++ bytes (x.p + 1) 1 }
  { x with p := x.p + 20 }

-- The turns of the loop that are left; `conf->entry`, which each turn reads again, is recorded by `mp_init`.
-- An entry of an unknown type is the last one that is looked at.
def scan : Nat → Mp → Mp
  | 0,     x => x
  | k + 1, x =>
    let x := { x with reads := x.reads ++ bytes x.p 1 }
    let type := (m (conf + x.p)).toNat
    if type = 0 then scan k (mpproc m conf x)
    else if type ≤ 4 then scan k { x with p := x.p + 8 }
    else { x with ismp := false }

end Init

-- The state at boot, after `bootcpu = &cpus[0]`.
def boot : Mp where
  ncpu      := 0
  bootcpu   := 0
  ismp      := false
  lapicaddr := 0
  cpuId     := fun _ => 0
  started   := none
  imcr      := false
  p         := 44
  reads     := []

def mp_init (npages : Nat) (m : Memory) : Option Mp := do
  match ← mpconfig npages m with
  | none   => some boot
  | some c =>
    let x := { boot with
      ismp := true, lapicaddr := c.lapicaddr m, reads := c.reads ++ bytes 36 4 ++ bytes 34 2 }
    let x := scan m c.conf (c.entry m) x
    let x := { x with started := some x.bootcpu }
    if !x.ismp then some { x with ncpu := 1, lapicaddr := 0 }
    else some { x with imcr := m (c.mp + 12) ≠ 0 }

end Kern.Mpconfig

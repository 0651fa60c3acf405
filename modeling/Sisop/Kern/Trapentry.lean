import Sisop.Kern.Init
import Sisop.Library.Gate

-- kern/trapentry.S, `trap_init` of kern/trap.c, and the instructions of `env_pop_tf` in kern/env.c

namespace Kern.Trapentry

open Inc Library X86

-- inc/trap.h

def T_DIVIDE : Word := 0#32
def T_DEBUG : Word := 1#32
def T_NMI : Word := 2#32
def T_OFLOW : Word := 4#32
def T_BOUND : Word := 5#32
def T_ILLOP : Word := 6#32
def T_DEVICE : Word := 7#32
def T_DBLFLT : Word := 8#32
def T_TSS : Word := 10#32
def T_SEGNP : Word := 11#32
def T_STACK : Word := 12#32
def T_GPFLT : Word := 13#32
def T_FPERR : Word := 16#32
def T_ALIGN : Word := 17#32
def T_MCHK : Word := 18#32
def T_SIMDERR : Word := 19#32

def GD_KD : BitVec 16 := 0x10#16

-- The code that the macros define: the words that it pushes before it jumps to `_alltraps`.
structure Handler where
  pushed : List Word
  deriving DecidableEq

def TRAPHANDLER (num : Word) : Handler := ⟨[num]⟩

def TRAPHANDLER_NOEC (num : Word) : Handler := ⟨[0#32, num]⟩

def thnDivide : Handler := TRAPHANDLER_NOEC T_DIVIDE
def thnDebug : Handler := TRAPHANDLER_NOEC T_DEBUG
def thnNmi : Handler := TRAPHANDLER_NOEC T_NMI
def thnBrkpt : Handler := TRAPHANDLER_NOEC T_BRKPT
def thnOflow : Handler := TRAPHANDLER_NOEC T_OFLOW
def thnBound : Handler := TRAPHANDLER_NOEC T_BOUND
def thnIllop : Handler := TRAPHANDLER_NOEC T_ILLOP
def thnDevice : Handler := TRAPHANDLER_NOEC T_DEVICE
def thnFperr : Handler := TRAPHANDLER_NOEC T_FPERR
def thnMchk : Handler := TRAPHANDLER_NOEC T_MCHK
def thnSimderr : Handler := TRAPHANDLER_NOEC T_SIMDERR
def thnSyscall : Handler := TRAPHANDLER_NOEC T_SYSCALL
def thnIrqTimer : Handler := TRAPHANDLER_NOEC (IRQ_OFFSET + IRQ_TIMER)
def thDblflt : Handler := TRAPHANDLER T_DBLFLT
def thTss : Handler := TRAPHANDLER T_TSS
def thSegnp : Handler := TRAPHANDLER T_SEGNP
def thStack : Handler := TRAPHANDLER T_STACK
def thGpflt : Handler := TRAPHANDLER T_GPFLT
def thPgflt : Handler := TRAPHANDLER T_PGFLT
def thAlign : Handler := TRAPHANDLER T_ALIGN

-- What `SETGATE` puts into an interrupt or trap gate.
structure Gatedesc where
  istrap : Bool
  sel : BitVec 16
  off : Handler
  dpl : Nat
  deriving DecidableEq

-- The gates of `trap_init`, in its order.
def trapInit : List (Word × Gatedesc) :=
  [ (T_DIVIDE, ⟨false, GD_KT, thnDivide, 0⟩),
    (T_DEBUG, ⟨false, GD_KT, thnDebug, 0⟩),
    (T_NMI, ⟨false, GD_KT, thnNmi, 0⟩),
    (T_BRKPT, ⟨false, GD_KT, thnBrkpt, 3⟩),
    (T_OFLOW, ⟨false, GD_KT, thnOflow, 0⟩),
    (T_BOUND, ⟨false, GD_KT, thnBound, 0⟩),
    (T_ILLOP, ⟨false, GD_KT, thnIllop, 0⟩),
    (T_DEVICE, ⟨false, GD_KT, thnDevice, 0⟩),
    (T_FPERR, ⟨false, GD_KT, thnFperr, 0⟩),
    (T_MCHK, ⟨false, GD_KT, thnMchk, 0⟩),
    (T_SYSCALL, ⟨false, GD_KT, thnSyscall, 3⟩),
    (IRQ_OFFSET + IRQ_TIMER, ⟨false, GD_KT, thnIrqTimer, 0⟩),
    (T_SIMDERR, ⟨false, GD_KT, thnSimderr, 0⟩),
    (T_DBLFLT, ⟨false, GD_KT, thDblflt, 0⟩),
    (T_TSS, ⟨false, GD_KT, thTss, 0⟩),
    (T_SEGNP, ⟨false, GD_KT, thSegnp, 0⟩),
    (T_STACK, ⟨false, GD_KT, thStack, 0⟩),
    (T_GPFLT, ⟨false, GD_KT, thGpflt, 0⟩),
    (T_PGFLT, ⟨false, GD_KT, thPgflt, 0⟩),
    (T_ALIGN, ⟨false, GD_KT, thAlign, 0⟩) ]

-- The other entries of `idt` are 0.
def idt (vector : Word) : Option Gatedesc := trapInit.lookup vector

-- What makes the processor leave user mode: an interrupt or exception, or an `int` instruction, with the
-- error code, if it has one, and whether `RF` is saved.
structure Cause where
  vector : Word
  err    : Word
  int    : Bool
  resume : Bool

-- The exceptions for which the processor pushes an error code.
def errs : List Word := [T_DBLFLT, T_TSS, T_SEGNP, T_STACK, T_GPFLT, T_PGFLT, T_ALIGN]

-- The trap that the processor takes, with its error code. If there is no gate, or `int` may not use it,
-- there is a general protection fault instead, whose error code refers to `idt` (bit 1) and, unless the
-- program asked for it, to an external event (bit 0).
structure Taken where
  vector : Word
  gate   : Gatedesc
  err    : Option Word
  resume : Bool

def Cause.taken (e : Cause) : Option Taken :=
  match idt e.vector with
  | some g =>
    if e.int then
      if g.dpl = 3 then some ⟨e.vector, g, none, e.resume⟩ else fault 2#32
    else some ⟨e.vector, g, if errs.contains e.vector then some e.err else none, e.resume⟩
  | none => fault (if e.int then 2#32 else 3#32)
where
  fault (bits : Word) : Option Taken :=
    (idt T_GPFLT).map fun g => ⟨T_GPFLT, g, some (e.vector * 8#32 + bits), true⟩

-- A CPU in the kernel's address space or with the kernel mapped.
abbrev Machine := X86.Machine 0x100000000

-- The addresses of the code, and what is left open of the processor.
structure Image where
  alu  : Alu
  sel  : Selector
  off  : Handler → Word
  trap : Word
  -- The return address of `call trap`, which does not return.
  next : Word

-- `ts_esp0` and `ts_ss0` of CPU `id`.
def tss (id : Nat) : Tss where
  esp0 := KSTACKTOP - BitVec.ofNat 32 (id * (KSTKSIZE + KSTKGAP))
  ss0  := GD_KD

variable (p : Image)

-- `%ax` is the lower half of `%eax`.
def setAx (s : Machine) (v : BitVec 16) : Machine :=
  { s with regs := { s.regs with eax := (s.regs.eax >>> 16).setWidth 16 ++ v } }

-- `_alltraps`, up to the first instruction of `trap`.
def alltraps (s : Machine) : Option Machine := do
  let s ← s.pushes [p.sel.word s.segs.ds]
  let s ← s.pushes [p.sel.word s.segs.es]
  let s ← s.pushal
  let s := setAx s GD_KD
  let s := { s with segs := { s.segs with ds := GD_KD } }
  let s := { s with segs := { s.segs with es := GD_KD } }
  let s ← s.pushes [s.esp]
  let s ← s.pushes [p.next]
  some { s with eip := p.trap }

-- From a program on CPU `id` to `trap`.
def enter (id : Nat) (e : Cause) (s : Machine) : Option Machine := do
  let t ← e.taken
  let s ← s.enter p.sel (tss id) t.gate.sel (p.off t.gate.off) t.gate.istrap t.resume t.err
  let s ← s.pushes t.gate.off.pushed
  alltraps p s

-- The argument of `trap`.
def arg (s : Machine) : Word := s.mem.load32 (s.esp.toNat + 4)

-- inc/trap.h: the fields of a `struct Trapframe` at `a`.
def loadTf (m : Memory) (a : Nat) : Trapframe where
  tfRegs := {
    regEdi  := m.load32 a
    regEsi  := m.load32 (a + 4)
    regEbp  := m.load32 (a + 8)
    regOesp := m.load32 (a + 12)
    regEbx  := m.load32 (a + 16)
    regEdx  := m.load32 (a + 20)
    regEcx  := m.load32 (a + 24)
    regEax  := m.load32 (a + 28) }
  tfEs     := (m.load32 (a + 32)).setWidth 16
  tfDs     := (m.load32 (a + 36)).setWidth 16
  tfTrapno := m.load32 (a + 40)
  tfErr    := m.load32 (a + 44)
  tfEip    := m.load32 (a + 48)
  tfCs     := (m.load32 (a + 52)).setWidth 16
  tfEflags := m.load32 (a + 56)
  tfEsp    := m.load32 (a + 60)
  tfSs     := (m.load32 (a + 64)).setWidth 16

def sizeofTrapframe : Nat := 68

-- The instructions of `env_pop_tf`.
def envPopTf (tf : Word) (s : Machine) : Option Machine := do
  let s := { s with esp := tf }
  let s ← s.popal
  let s ← s.popEs
  let s ← s.popDs
  let s := s.addlEsp p.alu 8#32
  s.iret

end Kern.Trapentry

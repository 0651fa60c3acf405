import Sisop.Kern.Trap
import Sisop.Library.X86

-- lib/pfentry.S, and what `page_fault_handler` in kern/trap.c stores for it.

namespace Lib.Pfentry

open Inc Library X86
open Kern (utrapframeAddr sizeofUTrapframe)

-- A user program: its registers and its memory, of which it can only write what is below `UTOP`.
abbrev User := X86.State UTOP.toNat

-- The status flags of the processor, and where the program has `_pgfault_upcall` and the variable
-- `_pgfault_handler`.
structure Image where
  alu            : Alu
  pgfaultUpcall  : Word
  pgfaultHandler : Word

-- What is not in the registers of the program: `%cr2`, the error code, and the `%esp` that `pushal`
-- saves in the kernel.
structure Fault where
  faultVa : Word
  err     : Word
  oesp    : Word

-- inc/trap.h: the offsets in a `struct UTrapframe`.
def utfFaultVa : Nat := 0
def utfErr : Nat := 4
def utfRegs : Nat := 8
def utfEip : Nat := 40
def utfEflags : Nat := 44
def utfEsp : Nat := 48

-- A `struct PushRegs` at `a`.
def storeRegs (m : Memory) (a : Nat) (r : Regs) (oesp : Word) : Memory :=
  let m := m.store32 a r.edi
  let m := m.store32 (a + 4) r.esi
  let m := m.store32 (a + 8) r.ebp
  let m := m.store32 (a + 12) oesp
  let m := m.store32 (a + 16) r.ebx
  let m := m.store32 (a + 20) r.edx
  let m := m.store32 (a + 24) r.ecx
  m.store32 (a + 28) r.eax

-- `*u = …`, in the order of `page_fault_handler`.
def storeFrame (m : Memory) (u : Nat) (c : Cpu) (f : Fault) : Memory :=
  let m := m.store32 (u + utfFaultVa) f.faultVa
  let m := m.store32 (u + utfEsp) c.esp
  let m := m.store32 (u + utfEflags) (c.eflags.val ||| RF)
  let m := m.store32 (u + utfEip) c.eip
  let m := storeRegs m (u + utfRegs) c.regs f.oesp
  m.store32 (u + utfErr) f.err

-- The blank word that is only reserved for a recursive fault.
def storeScratch (s : User) (recursive : Bool) : Option User :=
  if recursive then s.store (s.esp - 4#32) 0#32 else some s

-- A fault of a program whose upcall is `_pgfault_upcall`. Without the frame, the kernel panics, or the
-- environment is destroyed.
def pageFaultHandler (p : Image) (f : Fault) (s : User) : Option User := do
  let (u, recursive) := utrapframeAddr s.esp
  let s₁ ← storeScratch s recursive
  if s₁.pages.CanWrite u.toNat sizeofUTrapframe then
    some { s₁ with mem := storeFrame s₁.mem u.toNat s.toCpu f, eip := p.pgfaultUpcall, esp := u }
  else none

-- The return address of the handler: `pushl`, `movl` and `call` take 8 bytes.
def Image.next (p : Image) : Word := p.pgfaultUpcall + 8#32

-- `_pgfault_upcall` up to the call of the C handler.
def pgfaultUpcall (p : Image) (s : User) : Option User := do
  let s ← s.pushl s.esp
  let eax ← s.load p.pgfaultHandler
  let s := { s with regs := { s.regs with eax := eax } }
  s.call eax p.next

-- `_pgfault_upcall` from the return of the C handler on.
def pushEip (p : Image) (s : User) : Option User := do
  let s := s.addlEsp p.alu 4#32
  let ecx ← s.load (s.esp + 0x30#32)
  let s := { s with regs := { s.regs with ecx := ecx } }
  let s := s.sublEcx p.alu 4#32
  let s ← s.store (s.esp + 0x30#32) s.regs.ecx
  let edx ← s.load (s.esp + 0x28#32)
  let s := { s with regs := { s.regs with edx := edx } }
  s.store s.regs.ecx s.regs.edx

def restore (p : Image) (s : User) : Option User := do
  let s := s.addlEsp p.alu 8#32
  let s ← s.popal
  let s := s.addlEsp p.alu 4#32
  let s ← s.popfl
  let s ← s.popEsp
  s.ret

def resume (p : Image) (s : User) : Option User := do
  let s ← pushEip p s
  restore p s

-- The enclosing handlers have their frames and scratch words between here and `UXSTACKTOP`.
def enclosing (s : User) : Nat :=
  if (utrapframeAddr s.esp).2 then s.esp.toNat else UXSTACKTOP.toNat

variable (p : Image)

-- `s` faults, and the C handler is called.
structure Entered (f : Fault) (s s₁ s₂ : User) : Prop where
  push : pageFaultHandler p f s = some s₁
  call : pgfaultUpcall p s₁ = some s₂

-- What instructions of a C handler and system calls can do, where `c` are the enclosing handlers.
structure Own (c : Nat) (s s' : User) : Prop where
  kept   : ∀ x, c ≤ x → x < UXSTACKTOP.toNat → s'.mem x = s.mem x
  system : s'.eflags.system = s.eflags.system

-- The C handler for the fault of `s` returns in `t`, with its frame as in `s₁`.
structure Returned (s s₁ t : User) : Prop where
  eip    : t.eip = p.next
  esp    : t.esp = s₁.esp - 4#32
  frame  : Memory.AgreeOn s₁.esp.toNat sizeofUTrapframe s₁.mem t.mem
  mapped : t.pages.CanWrite s₁.esp.toNat sizeofUTrapframe
  below  : t.pages.CanWrite (s.esp - 4#32).toNat 4

-- The run of a C handler with the frame at `u`. It may fault with its stack below the frame.
inductive Runs : Nat → Nat → User → User → Prop
  | refl {c u : Nat} {s : User} : Runs c u s s
  | own {c u : Nat} {s s' t : User} (h : Own c s s') (r : Runs c u s' t) : Runs c u s t
  | fault {c u : Nat} {f : Fault} {s s₁ s₂ s₃ s' t : User} (inside : UXSTACKTOP - 4096#32 ≤ s.esp)
      (le : s.esp.toNat ≤ u) (entered : Entered p f s s₁ s₂)
      (handler : Runs (enclosing s) s₁.esp.toNat s₂ s₃) (returned : Returned p s s₁ s₃)
      (resumed : resume p s₃ = some s') (r : Runs c u s' t) : Runs c u s t

end Lib.Pfentry

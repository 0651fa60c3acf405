import Sisop.Library.Memory
import Mathlib.Algebra.Order.Ring.Nat

-- The part of the instruction set of a 32-bit processor that switches stacks.

namespace Library.X86

-- The flags that additions and subtractions set, and the other ones that `popfl` sets in user mode.
def STATUS : BitVec 32 := 0x8D5#32
def POPPED : BitVec 32 := 0x244DD5#32

-- The interrupt flag, which `popfl` only sets with the privilege level `IOPL`, and the resume flag.
def IF : BitVec 32 := 0x200#32
def IOPL : BitVec 32 := 0x3000#32
def RF : BitVec 32 := 0x10000#32

-- Where `mask` is set, the bits of `v`, and otherwise those of `w`.
def blend (mask w v : BitVec 32) : BitVec 32 := w &&& ~~~mask ||| v &&& mask

-- The register of flags. A fault saves it with `RF`, but each instruction clears that flag.
structure Flags where
  val : BitVec 32
  rf  : val &&& RF = 0#32
  deriving DecidableEq

-- The flags that `popfl` sets.
def popMask (v : BitVec 32) : BitVec 32 := if v &&& IOPL = IOPL then POPPED ||| IF else POPPED

-- The flags that a program in user mode cannot change.
def Flags.system (f : Flags) : BitVec 32 := f.val &&& ~~~popMask f.val

section Blend

variable {mask v w : BitVec 32}

theorem blend_and (n : BitVec 32) (h : mask &&& n = 0#32) : blend mask w v &&& n = w &&& n := by
  have hb (i : Nat) : (mask.getLsbD i && n.getLsbD i) = false := by
    rw [← BitVec.getLsbD_and, h, BitVec.getLsbD_zero]
  apply BitVec.eq_of_getLsbD_eq
  intro i hi
  have := hb i
  simp only [blend, BitVec.getLsbD_and, BitVec.getLsbD_or, BitVec.getLsbD_not, hi, decide_true]
  grind

-- The same bits blended again give the word.
theorem blend_of_eq {n : BitVec 32} (h : w &&& ~~~mask = v &&& ~~~mask) (hn : mask &&& n = 0#32) :
    blend mask w (v ||| n) = v := by
  have hb (i : Nat) : (mask.getLsbD i && n.getLsbD i) = false := by
    rw [← BitVec.getLsbD_and, hn, BitVec.getLsbD_zero]
  rw [blend, h]
  apply BitVec.eq_of_getLsbD_eq
  intro i hi
  have := hb i
  simp only [BitVec.getLsbD_and, BitVec.getLsbD_or, BitVec.getLsbD_not, hi, decide_true]
  grind

end Blend

theorem popMask_and_RF (v : BitVec 32) : popMask v &&& RF = 0#32 := by
  rw [popMask]
  split <;> rfl

theorem popMask_and_IOPL (v : BitVec 32) : popMask v &&& IOPL = 0#32 := by
  rw [popMask]
  split <;> rfl

namespace Flags

variable (f g : Flags)

-- The flags after an addition or a subtraction that sets the status flags to those of `v`.
def status (v : BitVec 32) : Flags where
  val := blend STATUS f.val v
  rf  := (blend_and RF rfl).trans f.rf

-- The flags after `popfl` of `v`.
def pop (v : BitVec 32) : Flags where
  val := blend (popMask f.val) f.val v
  rf  := (blend_and RF (popMask_and_RF f.val)).trans f.rf

variable {f g}

theorem and_IOPL : f.system &&& IOPL = f.val &&& IOPL := by
  have h := popMask_and_IOPL f.val
  rw [system, BitVec.and_assoc]
  apply congrArg
  apply BitVec.eq_of_getLsbD_eq
  intro i hi
  have hb : ((popMask f.val).getLsbD i && IOPL.getLsbD i) = false := by
    rw [← BitVec.getLsbD_and, h, BitVec.getLsbD_zero]
  simp only [BitVec.getLsbD_and, BitVec.getLsbD_not, hi, decide_true]
  grind

theorem popMask_congr (h : g.system = f.system) : popMask g.val = popMask f.val := by
  rw [popMask, popMask, ← and_IOPL, h, and_IOPL]

theorem system_status {v : BitVec 32} : (f.status v).system = f.system := by
  have hi : (f.status v).val &&& IOPL = f.val &&& IOPL := blend_and IOPL rfl
  have hm : popMask (f.status v).val = popMask f.val := by rw [popMask, popMask, hi]
  rw [system, system, hm]
  refine blend_and _ ?_
  rw [popMask]
  split <;> rfl

-- `popfl` of saved flags restores them.
theorem pop_eq (h : g.system = f.system) : g.pop (f.val ||| RF) = f := by
  have hm := popMask_congr h
  rw [system, system, hm] at h
  have hv : (g.pop (f.val ||| RF)).val = f.val := by
    change blend (popMask g.val) g.val (f.val ||| RF) = f.val
    rw [hm]
    exact blend_of_eq h (popMask_and_RF f.val)
  cases f
  exact Flags.mk.injEq .. |>.mpr hv

end Flags

-- The bytes that a program may read and write. From `top` on, it may not write.
structure Pages (top : Nat) where
  readable : Nat → Bool
  writable : Nat → Bool
  read     : ∀ {x}, writable x → readable x
  lt_top   : ∀ {x}, writable x → x < top

namespace Pages

variable {top : Nat} {g : Pages top} {a b k n : Nat}

def CanRead (g : Pages top) (a n : Nat) : Prop := ∀ i < n, g.readable (a + i)

def CanWrite (g : Pages top) (a n : Nat) : Prop := ∀ i < n, g.writable (a + i)

instance : Decidable (CanRead g a n) := by
  unfold CanRead
  infer_instance

instance : Decidable (CanWrite g a n) := by
  unfold CanWrite
  infer_instance

theorem CanWrite.canRead (h : g.CanWrite a n) : g.CanRead a n := fun i hi => g.read (h i hi)

theorem CanRead.mono (h : g.CanRead a n) (h₁ : a ≤ b) (h₂ : b + k ≤ a + n) : g.CanRead b k := by
  intro i hi
  have he : b + i = a + (b - a + i) := by omega
  rw [he]
  exact h _ (by omega)

theorem CanWrite.mono (h : g.CanWrite a n) (h₁ : a ≤ b) (h₂ : b + k ≤ a + n) : g.CanWrite b k := by
  intro i hi
  have he : b + i = a + (b - a + i) := by omega
  rw [he]
  exact h _ (by omega)

theorem CanWrite.le_top (h : g.CanWrite a (n + 1)) : a + (n + 1) ≤ top :=
  g.lt_top (h n (Nat.lt_succ_self n))

end Pages

structure Regs where
  edi : BitVec 32
  esi : BitVec 32
  ebp : BitVec 32
  ebx : BitVec 32
  edx : BitVec 32
  ecx : BitVec 32
  eax : BitVec 32
  deriving DecidableEq

structure Cpu where
  regs   : Regs
  esp    : BitVec 32
  eip    : BitVec 32
  eflags : Flags
  deriving DecidableEq

structure State (top : Nat) extends Cpu where
  mem   : Memory
  pages : Pages top

-- The status flags of a sum and of a difference.
structure Alu where
  add : BitVec 32 → BitVec 32 → BitVec 32
  sub : BitVec 32 → BitVec 32 → BitVec 32

namespace State

variable {top : Nat} (alu : Alu) (s : State top)

-- Accesses to words fail where the program faults.
def load (a : BitVec 32) : Option (BitVec 32) :=
  if s.pages.CanRead a.toNat 4 then some (s.mem.load32 a.toNat) else none

def store (a v : BitVec 32) : Option (State top) :=
  if s.pages.CanWrite a.toNat 4 then some { s with mem := s.mem.store32 a.toNat v } else none

def pushl (v : BitVec 32) : Option (State top) := do
  let s ← s.store (s.esp - 4#32) v
  some { s with esp := s.esp - 4#32 }

def popl : Option (BitVec 32 × State top) := do
  let v ← s.load s.esp
  some (v, { s with esp := s.esp + 4#32 })

-- The saved `%esp` is not popped.
def popal : Option (State top) := do
  let (edi, s) ← s.popl
  let (esi, s) ← s.popl
  let (ebp, s) ← s.popl
  let (_, s) ← s.popl
  let (ebx, s) ← s.popl
  let (edx, s) ← s.popl
  let (ecx, s) ← s.popl
  let (eax, s) ← s.popl
  some { s with regs := ⟨edi, esi, ebp, ebx, edx, ecx, eax⟩ }

def popfl : Option (State top) := do
  let (v, s) ← s.popl
  some { s with eflags := s.eflags.pop v }

-- `pop %esp` does not add to the popped word.
def popEsp : Option (State top) := do
  let v ← s.load s.esp
  some { s with esp := v }

def call (f next : BitVec 32) : Option (State top) := do
  let s ← s.pushl next
  some { s with eip := f }

def ret : Option (State top) := do
  let (v, s) ← s.popl
  some { s with eip := v }

def addlEsp (n : BitVec 32) : State top :=
  { s with esp := s.esp + n, eflags := s.eflags.status (alu.add s.esp n) }

def sublEcx (n : BitVec 32) : State top :=
  { s with
    regs   := { s.regs with ecx := s.regs.ecx - n }
    eflags := s.eflags.status (alu.sub s.regs.ecx n) }

variable {s} {a : Nat} {v w : BitVec 32}

theorem load_of_canRead (h : s.pages.CanRead v.toNat 4) : s.load v = some (s.mem.load32 v.toNat) :=
  if_pos h

theorem load_eq (ha : a < 2 ^ 32) (h : s.pages.CanRead a 4) :
    s.load (BitVec.ofNat 32 a) = some (s.mem.load32 a) := by
  have hn : (BitVec.ofNat 32 a).toNat = a := Nat.mod_eq_of_lt ha
  rw [load, hn, if_pos h]

theorem store_cases {t : State top} (h : s.store v w = some t) :
    s.pages.CanWrite v.toNat 4 ∧ t = { s with mem := s.mem.store32 v.toNat w } := by
  rw [store] at h
  split at h
  case isTrue hw => exact ⟨hw, (Option.some.inj h).symm⟩
  case isFalse   => cases h

theorem popl_eq (he : s.esp = BitVec.ofNat 32 a) (ha : a < 2 ^ 32) (h : s.pages.CanRead a 4) :
    s.popl = some (s.mem.load32 a, { s with esp := BitVec.ofNat 32 (a + 4) }) := by
  rw [popl, he, load_eq ha h, BitVec.ofNat_add]
  rfl

theorem popal_eq (he : s.esp = BitVec.ofNat 32 a) (ha : a + 32 ≤ 2 ^ 32) (h : s.pages.CanRead a 32) :
    s.popal = some { s with
      esp  := BitVec.ofNat 32 (a + 32)
      regs := ⟨s.mem.load32 a, s.mem.load32 (a + 4), s.mem.load32 (a + 8), s.mem.load32 (a + 16),
        s.mem.load32 (a + 20), s.mem.load32 (a + 24), s.mem.load32 (a + 28)⟩ } := by
  have hp {k : Nat} (hk : k + 4 ≤ 32) : ({ s with esp := BitVec.ofNat 32 (a + k) } : State top).popl =
      some (s.mem.load32 (a + k), { s with esp := BitVec.ofNat 32 (a + (k + 4)) }) :=
    popl_eq rfl (by omega) (h.mono (by omega) (by omega))
  rw [popal, popl_eq he (by omega) (h.mono (by omega) (by omega))]
  simp only [Option.bind_eq_bind, Option.bind_some, hp, Nat.reduceAdd, Nat.reduceLeDiff]

theorem ret_of_canRead (h : s.pages.CanRead s.esp.toNat 4) :
    s.ret = some { s with esp := s.esp + 4#32, eip := s.mem.load32 s.esp.toNat } := by
  rw [ret, popl, load_of_canRead h]
  rfl

theorem ret_esp {t : State top} (h : s.ret = some t) : t.esp = s.esp + 4#32 := by
  rw [ret, popl, load] at h
  split at h <;> cases h
  rfl

theorem pushl_cases {t : State top} (h : s.pushl v = some t) :
    t = { s with esp := s.esp - 4#32, mem := s.mem.store32 (s.esp - 4#32).toNat v } := by
  rw [pushl, Option.bind_eq_bind, Option.bind_eq_some_iff] at h
  obtain ⟨t', ht, h⟩ := h
  obtain ⟨-, rfl⟩ := store_cases ht
  exact (Option.some.inj h).symm

theorem popfl_eq (he : s.esp = BitVec.ofNat 32 a) (ha : a < 2 ^ 32) (h : s.pages.CanRead a 4) :
    s.popfl = some { s with
      esp    := BitVec.ofNat 32 (a + 4)
      eflags := s.eflags.pop (s.mem.load32 a) } := by
  rw [popfl, popl_eq he ha h]
  rfl

theorem popEsp_eq (he : s.esp = BitVec.ofNat 32 a) (ha : a < 2 ^ 32) (h : s.pages.CanRead a 4) :
    s.popEsp = some { s with esp := s.mem.load32 a } := by
  rw [popEsp, he, load_eq ha h]
  rfl

end State

end Library.X86

import Sisop.Library.X86

-- Traps from user mode to a kernel stack, and the way back.

namespace Library.X86

structure Segs where
  cs : BitVec 16
  ds : BitVec 16
  es : BitVec 16
  ss : BitVec 16
  deriving DecidableEq

-- The words that the processor pushes for a selector, whose upper half means nothing.
structure Selector where
  word : BitVec 16 → BitVec 32
  low  : ∀ sel, (word sel).setWidth 16 = sel

-- What user mode can see of a processor.
structure Context extends Cpu where
  segs : Segs
  deriving DecidableEq

structure Machine (top : Nat) extends State top where
  segs : Segs

-- The kernel stack in a task state segment.
structure Tss where
  esp0 : BitVec 32
  ss0  : BitVec 16

-- The flags that a gate clears: `IF`, `TF`, `NT` and `VM`.
def CLEARED : BitVec 32 := 0x24300#32

def Flags.ofWord (v : BitVec 32) : Flags where
  val := v &&& ~~~RF
  rf  := by
    rw [BitVec.and_assoc]
    simp [RF]

theorem Flags.ofWord_val (f : Flags) : Flags.ofWord f.val = f := by
  have h := f.rf
  have he : f.val &&& ~~~RF = f.val := by
    apply BitVec.eq_of_getLsbD_eq
    intro i hi
    have hb : (f.val.getLsbD i && RF.getLsbD i) = false := by
      rw [← BitVec.getLsbD_and, h, BitVec.getLsbD_zero]
    simp only [BitVec.getLsbD_and, BitVec.getLsbD_not, hi, decide_true]
    grind
  cases f
  exact Flags.mk.injEq .. |>.mpr he

theorem Flags.ofWord_or (f : Flags) : Flags.ofWord (f.val ||| RF) = f := by
  have he : (f.val ||| RF) &&& ~~~RF = f.val &&& ~~~RF := by
    rw [BitVec.and_comm, BitVec.and_or_distrib_left, BitVec.and_comm]
    simp
  have ho : Flags.ofWord (f.val ||| RF) = Flags.ofWord f.val := Flags.mk.injEq .. |>.mpr he
  exact ho.trans f.ofWord_val

namespace State

variable {top : Nat} (s : State top)

-- Several words are pushed one after the other.
def pushes (l : List (BitVec 32)) : Option (State top) := l.foldlM pushl s

end State

namespace Machine

variable {top : Nat} (sel : Selector) (s : Machine top)

def context : Context := ⟨s.toCpu, s.segs⟩

def pushes (l : List (BitVec 32)) : Option (Machine top) :=
  (s.toState.pushes l).map fun t => { t with segs := s.segs }

-- `pushal` pushes the `%esp` that it finds.
def pushal : Option (Machine top) :=
  s.pushes [s.regs.eax, s.regs.ecx, s.regs.edx, s.regs.ebx, s.esp, s.regs.ebp, s.regs.esi, s.regs.edi]

def popal : Option (Machine top) := s.toState.popal.map fun t => { t with segs := s.segs }

def addlEsp (alu : Alu) (n : BitVec 32) : Machine top := { s.toState.addlEsp alu n with segs := s.segs }

-- A trap from user mode through a gate with the selector `cs` and the offset `off`, which clears flags if
-- it is not a trap gate. A fault saves `RF`, and some traps have an error code.
def enter (tss : Tss) (cs : BitVec 16) (off : BitVec 32) (isTrap resume : Bool)
    (err : Option (BitVec 32)) : Option (Machine top) := do
  let eflags := if resume then s.eflags.val ||| RF else s.eflags.val
  let frame := [sel.word s.segs.ss, s.esp, eflags, sel.word s.segs.cs, s.eip] ++ err.toList
  let t ← { s with esp := tss.esp0, segs := { s.segs with ss := tss.ss0 } }.pushes frame
  some { t with
    eip    := off
    segs   := { t.segs with cs := cs }
    eflags := if isTrap then t.eflags else .ofWord (t.eflags.val &&& ~~~CLEARED) }

def popSel : Option (BitVec 16 × Machine top) := do
  let (v, t) ← s.toState.popl
  some (v.setWidth 16, { t with segs := s.segs })

def popEs : Option (Machine top) := do
  let (v, s) ← s.popSel
  some { s with segs := { s.segs with es := v } }

def popDs : Option (Machine top) := do
  let (v, s) ← s.popSel
  some { s with segs := { s.segs with ds := v } }

-- In the kernel. A return to the kernel leaves the stack alone.
def iret : Option (Machine top) := do
  let (eip, t) ← s.toState.popl
  let (cs, t) ← t.popl
  let (eflags, t) ← t.popl
  let cs := cs.setWidth 16
  let t := { t with eip := eip, eflags := .ofWord eflags }
  if cs &&& 3#16 = 0#16 then some { t with segs := { s.segs with cs := cs } }
  else
    let (esp, t) ← t.popl
    let (ss, t) ← t.popl
    some { t with esp := esp, segs := { s.segs with cs := cs, ss := ss.setWidth 16 } }

end Machine

-- The memory after `l` has been pushed from `a` down.
def pushed (m : Memory) (a : Nat) : List (BitVec 32) → Memory
  | []     => m
  | v :: l => pushed (m.store32 (a - 4) v) (a - 4) l

section Pushed

variable {m : Memory} {a : Nat} {l l' : List (BitVec 32)}

theorem pushed_append : pushed m a (l ++ l') = pushed (pushed m a l) (a - 4 * l.length) l' := by
  induction l generalizing m a
  case nil => rfl
  case cons v l hi =>
    have he : a - 4 - 4 * l.length = a - 4 * (l.length + 1) := by omega
    rw [List.cons_append, pushed, hi, he]
    rfl

theorem pushed_of_not_mem {x : Nat} (ha : 4 * l.length ≤ a) (h : x < a - 4 * l.length ∨ a ≤ x) :
    pushed m a l x = m x := by
  induction l generalizing m a
  case nil => rfl
  case cons v l hi =>
    rw [List.length_cons] at ha h
    rw [pushed, hi (by omega) (by omega), Memory.store32_of_not_mem (by omega)]

-- What has been pushed last is the first word on the stack.
theorem load32_pushed {i : Nat} (ha : 4 * l.length ≤ a) (hi : i < l.length) :
    (pushed m a l).load32 (a - 4 * (i + 1)) = l[i] := by
  induction l generalizing m a i
  case nil => cases hi
  case cons v l ih =>
    rw [List.length_cons] at ha hi
    rw [pushed]
    cases i with
    | zero =>
      have hk : Memory.AgreeOn (a - 4) 4 (m.store32 (a - 4) v) (pushed (m.store32 (a - 4) v) (a - 4) l) :=
        fun x _ _ => pushed_of_not_mem (by omega) (by omega)
      rw [Nat.zero_add, Nat.mul_one, Memory.load32_congr hk, Memory.load32_store32_self]
      rfl
    | succ i =>
      have he : a - 4 * (i + 1 + 1) = a - 4 - 4 * (i + 1) := by omega
      rw [he, ih (by omega) (by omega)]
      rfl

end Pushed

namespace State

variable {top : Nat} {s : State top} {a : Nat} {l : List (BitVec 32)}

theorem pushes_eq (he : s.esp = BitVec.ofNat 32 a) (ha : a < 2 ^ 32) (hl : 4 * l.length ≤ a)
    (hw : s.pages.CanWrite (a - 4 * l.length) (4 * l.length)) :
    s.pushes l = some { s with esp := BitVec.ofNat 32 (a - 4 * l.length), mem := pushed s.mem a l } := by
  induction l generalizing s a
  case nil =>
    rw [List.length_nil, Nat.mul_zero, Nat.sub_zero, ← he]
    rfl
  case cons v l hi =>
    rw [List.length_cons] at hl hw ⊢
    have hs : s.esp - 4#32 = BitVec.ofNat 32 (a - 4) := by
      rw [he]
      apply BitVec.eq_of_toNat_eq
      simp only [BitVec.toNat_sub, BitVec.toNat_ofNat]
      omega
    have hn : (s.esp - 4#32).toNat = a - 4 := by
      rw [hs]
      exact Nat.mod_eq_of_lt (by omega)
    have hp : s.pushl v = some { s with
        esp := BitVec.ofNat 32 (a - 4), mem := s.mem.store32 (a - 4) v } := by
      rw [pushl, store, hn, if_pos (hw.mono (by omega) (by omega)), ← hs]
      rfl
    have hd : a - 4 - 4 * l.length = a - 4 * (l.length + 1) := by omega
    rw [pushes, List.foldlM_cons, hp, Option.bind_eq_bind, Option.bind_some]
    let t : State top := { s with esp := BitVec.ofNat 32 (a - 4), mem := s.mem.store32 (a - 4) v }
    have ht := hi (s := t) rfl (by omega) (by omega) (hw.mono (by omega) (by omega))
    rw [hd] at ht
    exact ht

end State

namespace Machine

variable {top : Nat} {s : Machine top} {a : Nat} {l : List (BitVec 32)}

theorem pushes_eq (he : s.esp = BitVec.ofNat 32 a) (ha : a < 2 ^ 32) (hl : 4 * l.length ≤ a)
    (hw : s.pages.CanWrite (a - 4 * l.length) (4 * l.length)) :
    s.pushes l = some { s with esp := BitVec.ofNat 32 (a - 4 * l.length), mem := pushed s.mem a l } := by
  rw [pushes, State.pushes_eq he ha hl hw]
  rfl

-- A part of a frame that has been begun.
theorem pushes_onto {m : Memory} {w : List (BitVec 32)} (he : s.esp = BitVec.ofNat 32 (a - 4 * w.length))
    (hm : s.mem = pushed m a w) (ha : a < 2 ^ 32) (hl : 4 * (w.length + l.length) ≤ a)
    (hw : s.pages.CanWrite (a - 4 * (w.length + l.length)) (4 * (w.length + l.length))) :
    s.pushes l = some { s with
      esp := BitVec.ofNat 32 (a - 4 * (w.length + l.length)), mem := pushed m a (w ++ l) } := by
  have hd : a - 4 * w.length - 4 * l.length = a - 4 * (w.length + l.length) := by omega
  rw [pushes_eq he (by omega) (by omega) (hw.mono (by omega) (by omega)), hd, hm, pushed_append]

theorem popal_eq (he : s.esp = BitVec.ofNat 32 a) (ha : a + 32 ≤ 2 ^ 32) (hr : s.pages.CanRead a 32) :
    s.popal = some { s with
      esp  := BitVec.ofNat 32 (a + 32)
      regs := ⟨s.mem.load32 a, s.mem.load32 (a + 4), s.mem.load32 (a + 8), s.mem.load32 (a + 16),
        s.mem.load32 (a + 20), s.mem.load32 (a + 24), s.mem.load32 (a + 28)⟩ } := by
  rw [popal, State.popal_eq he ha hr]
  rfl

theorem popSel_eq (he : s.esp = BitVec.ofNat 32 a) (ha : a < 2 ^ 32) (hr : s.pages.CanRead a 4) :
    s.popSel = some ((s.mem.load32 a).setWidth 16, { s with esp := BitVec.ofNat 32 (a + 4) }) := by
  rw [popSel, State.popl_eq he ha hr]
  rfl

-- The words that `iret` finds for a return to user mode.
theorem iret_eq (he : s.esp = BitVec.ofNat 32 a) (ha : a + 20 ≤ 2 ^ 32) (hr : s.pages.CanRead a 20)
    (hu : (s.mem.load32 (a + 4)).setWidth 16 &&& 3#16 ≠ 0#16) : s.iret = some { s with
      eip    := s.mem.load32 a
      esp    := s.mem.load32 (a + 12)
      eflags := .ofWord (s.mem.load32 (a + 8))
      segs   := { s.segs with
        cs := (s.mem.load32 (a + 4)).setWidth 16, ss := (s.mem.load32 (a + 16)).setWidth 16 } } := by
  have hp {k : Nat} {r : Regs} {e : BitVec 32} {f : Flags} (hk : k + 4 ≤ 20) :
      (⟨⟨r, BitVec.ofNat 32 (a + k), e, f⟩, s.mem, s.pages⟩ : State top).popl =
        some (s.mem.load32 (a + k), ⟨⟨r, BitVec.ofNat 32 (a + (k + 4)), e, f⟩, s.mem, s.pages⟩) :=
    State.popl_eq rfl (by omega) (hr.mono (by omega) (by omega))
  rw [iret, State.popl_eq he (by omega) (hr.mono (by omega) (by omega))]
  simp only [Option.bind_eq_bind, Option.bind_some, hp, Nat.reduceAdd, Nat.reduceLeDiff, if_neg hu]

end Machine

end Library.X86

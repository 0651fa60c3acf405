import Sisop.Kern.Step
import Sisop.Library.Ring

-- kern/console.c: the input buffer, and the system calls that read from it

namespace Kern

open Inc

def CONSBUFSIZE : Nat := 512

-- The circular buffer `cons`.
abbrev Cons := Library.Ring (BitVec 8) CONSBUFSIZE

def Cons.zero : Cons where
  buf _   := 0#8
  rpos    := 0
  wpos    := 0
  rpos_lt := by decide
  wpos_lt := by decide

-- One iteration of the loop in `cons_intr`.
def consChar (cons : Cons) (c : BitVec 8) : Cons :=
  if c = 0#8 then cons else cons.put c

-- `cs` is what `proc` returns before it returns -1.
def consIntr (cons : Cons) (cs : List (BitVec 8)) : Cons := cs.foldl consChar cons

-- `serial` and `kbd` are what the polled devices have.
def consGetc (cons : Cons) (serial kbd : List (BitVec 8)) : Word × Cons :=
  let cons := consIntr (consIntr cons serial) kbd
  match cons.get with
  | some (c, cons) => (c.zeroExtend 32, cons)
  | none           => (0#32, cons)

-- Whether the system call `no` gets to `cons_getc`: the case of `SYS_cputs` falls through to that of
-- `SYS_cgetc` if `user_mem_assert` returns.
def callsGetc (m : Machine) (s : State) (c : EnvPtr) (no a1 a2 : Word) : Bool :=
  if no = SYS_cgetc then true
  else if no = SYS_cputs then
    match userMemAssert m s c a1 a2 PTE_U with
    | some none => true
    | _         => false
  else false

-- A system call in a trap of an environment that is not a zombie.
def isSyscall (s : State) (c : EnvPtr) (tf : Trapframe) : Bool :=
  s.status c != .dying && tf.tfTrapno == T_SYSCALL

def trapGetc (m : Machine) (s : State) (c : EnvPtr) (tf : Trapframe) : Bool :=
  let r := tf.tfRegs
  isSyscall s c tf && callsGetc m (s.saveTf c tf) c r.regEax r.regEdx r.regEcx

def Exit.result : Exit → Word
  | ret r _ => r
  | _       => 0#32

-- The kernel with its input buffer, the characters that have arrived, and the results of `SYS_cgetc`
-- other than 0.
structure ConsState where
  kern : State
  cons : Cons
  arrived : List (BitVec 8)
  got : List Word

-- The devices are polled outside of system calls, or `trap` and `env_run` take their steps.
inductive ConsEvent
  | intr (cs : List (BitVec 8))
  | trap (c : EnvPtr) (serial kbd : List (BitVec 8)) (tf : Trapframe)
  | run (curenv : Option EnvPtr) (e : EnvPtr) (cpunum : Nat)

-- What a trap leaves that ends with `x`.
def ConsState.trap (m : Machine) (s : ConsState) (c : EnvPtr) (serial kbd : List (BitVec 8))
    (tf : Trapframe) (x : Exit) : ConsState :=
  let got := if isSyscall s.kern c tf ∧ tf.tfRegs.regEax = SYS_cgetc ∧ x.result ≠ 0#32 then [x.result]
    else []
  if trapGetc m s.kern c tf then
    ⟨x.state, (consGetc s.cons serial kbd).snd, s.arrived ++ serial ++ kbd, s.got ++ got⟩
  else ⟨x.state, s.cons, s.arrived, s.got ++ got⟩

-- One step.
def ConsState.next (m : Machine) (s : ConsState) : ConsEvent → Option ConsState
  | .intr cs              => some { s with cons := consIntr s.cons cs, arrived := s.arrived ++ cs }
  | .trap c serial kbd tf =>
    (trapUser m s.kern c (consGetc s.cons serial kbd).fst tf).map (s.trap m c serial kbd tf)
  | .run cur e n          => (envRun s.kern cur e n).map ({ s with kern := · })

-- The states that are reached by steps that all meet `guard`.
def ConsReachable (m : Machine) (guard : ConsState → ConsEvent → Prop) (s : ConsState) : Prop :=
  ∃ s₀ l s₁, Boot m s₀ ∧ envCreates m s₀ l = some s₁ ∧
    Library.Run (fun s ev s' => s.next m ev = some s') guard ⟨s₁, .zero, [], []⟩ s

-- The characters that `cons_intr` stores.
def stored (cs : List (BitVec 8)) : List (BitVec 8) := cs.filter (· ≠ 0#8)

-- At most 511 characters are pending.
def Fits (m : Machine) (s : ConsState) : ConsEvent → Prop
  | .intr cs              => s.cons.length + (stored cs).length < CONSBUFSIZE
  | .trap c serial kbd tf => trapGetc m s.kern c tf →
    s.cons.length + (stored (serial ++ kbd)).length < CONSBUFSIZE
  | .run ..               => True

-- `SYS_cputs` falls through only when there is no input.
def PutsQuietly (m : Machine) (s : ConsState) : ConsEvent → Prop
  | .trap c serial kbd tf => trapGetc m s.kern c tf → tf.tfRegs.regEax = SYS_cputs →
    s.cons.contents = [] ∧ stored (serial ++ kbd) = []
  | _                     => True

end Kern

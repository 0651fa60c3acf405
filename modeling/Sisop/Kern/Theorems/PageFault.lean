import Sisop.Kern.Theorems.Insert
import Sisop.Kern.Theorems.Unmapped

-- What `page_fault_handler` does to user memory, in which order.

namespace Kern

open Inc Function

variable {m : Machine} {s : State} {c : EnvPtr} {pd a : Nat} {va u esp : Word} {tf : Trapframe}

-- `user_mem_assert` for a range with `PTE_W | PTE_U`, and the store of a word.
inductive Access
  | assert (va len : Word)
  | store (va : Word)

-- The words of the `struct UTrapframe` at `u`.
def frameWords (u : Word) : List Word :=
  (List.range (sizeofUTrapframe / 4)).map fun i => u + BitVec.ofNat 32 (4 * i)

def pageFaultAccesses (upcall esp : Word) : List Access :=
  if upcall = 0#32 then []
  else
    let (u, recursive) := utrapframeAddr esp
    (if recursive then [.store (esp - 4#32)] else []) ++
      .assert u (BitVec.ofNat 32 sizeofUTrapframe) :: (frameWords u).map .store

-- The bytes of the word at `va` are in pages of the range that is asserted.
def Access.Covers : Access → Word → Prop
  | assert w len, va => ∀ a, va.toNat ≤ a → a < va.toNat + 4 →
    ∃ b, w.toNat ≤ b ∧ b < w.toNat + len.toNat ∧ b / 4096 = a / 4096
  | store _, _       => False

-- What `page_fault_handler` should do: a word is only stored after a check of its page, and the
-- environment goes on at its upcall with a frame on the exception stack, or is destroyed.
structure FaultHandled (m : Machine) (s : State) (c : EnvPtr) (pd : Nat) (tf : Trapframe) : Prop where
  verified : ∀ l₁ va l₂, pageFaultAccesses (s.envs c).envPgfaultUpcall tf.tfEsp = l₁ ++ .store va :: l₂ →
    ∃ x ∈ l₁, x.Covers va
  outcome  : (pageFaultHandler m s c tf = envDestroy m s c c ∧
      ((s.envs c).envPgfaultUpcall = 0#32 ∨ ∃ a, (utrapframeAddr tf.tfEsp).1.toNat ≤ a ∧
        a < (utrapframeAddr tf.tfEsp).1.toNat + sizeofUTrapframe ∧
          ¬Accessible s pd (PTE_W ||| PTE_U) a)) ∨
    ∃ u : Word, pageFaultHandler m s c tf = some (.run <| s.setEnv c { s.envs c with
        envTf := { (s.envs c).envTf with tfEip := (s.envs c).envPgfaultUpcall, tfEsp := u } }) ∧
      UXSTACKTOP.toNat - PGSIZE ≤ u.toNat ∧ u.toNat + sizeofUTrapframe ≤ UXSTACKTOP.toNat ∧
      ∀ a, u.toNat ≤ a → a < u.toNat + sizeofUTrapframe → Accessible s pd (PTE_W ||| PTE_U) a

-- The frame at the top of the exception stack.
def topFrame : Word := UXSTACKTOP - BitVec.ofNat 32 sizeofUTrapframe

def Recursive (esp : Word) : Prop := UXSTACKTOP - 4096#32 ≤ esp ∧ esp < UXSTACKTOP

theorem utrapframeAddr_top (h : ¬Recursive esp) : utrapframeAddr esp = (topFrame, false) := if_neg h

theorem utrapframeAddr_recursive (h : Recursive esp) : (utrapframeAddr esp).2 = true := by
  have hu : utrapframeAddr esp = (esp - 4#32 - BitVec.ofNat 32 sizeofUTrapframe, true) := if_pos h
  rw [hu]

theorem frameWords_top (h : va ∈ frameWords topFrame) :
    topFrame.toNat ≤ va.toNat ∧ va.toNat + 4 ≤ topFrame.toNat + sizeofUTrapframe := by
  obtain ⟨i, hi, rfl⟩ := List.mem_map.mp h
  have hi : i < 13 := List.mem_range.mp hi
  have ht : topFrame.toNat = 4005560268 := by decide
  rw [BitVec.toNat_add, BitVec.toNat_ofNat, ht, sizeofUTrapframe]
  omega

-- The frame is checked before it is written.
theorem frame_verified {l₁ l₂ : List Access}
    (h : Access.assert topFrame (BitVec.ofNat 32 sizeofUTrapframe) :: (frameWords topFrame).map .store =
      l₁ ++ .store va :: l₂) : ∃ x ∈ l₁, x.Covers va := by
  rcases List.cons_eq_append_iff.mp h with ⟨_, hx⟩ | ⟨l, rfl, hx⟩
  · cases hx
  have hm : Access.store va ∈ (frameWords topFrame).map Access.store := by
    rw [hx]
    exact List.mem_append_right _ List.mem_cons_self
  obtain ⟨_, hw, hv⟩ := List.mem_map.mp hm
  cases hv
  have hr := frameWords_top hw
  have hlen : (BitVec.ofNat 32 sizeofUTrapframe).toNat = sizeofUTrapframe := rfl
  refine ⟨_, List.mem_cons_self, fun a h₁ h₂ => ⟨a, by omega, ?_, rfl⟩⟩
  rw [hlen]
  omega

theorem pageFaultHandler_top (hp : s.pgdir c = some pd) (h : Directory m s pd)
    (hu : (s.envs c).envPgfaultUpcall ≠ 0#32) (hr : ¬Recursive tf.tfEsp) :
    (pageFaultHandler m s c tf = envDestroy m s c c ∧ ∃ a, topFrame.toNat ≤ a ∧
      a < topFrame.toNat + sizeofUTrapframe ∧ ¬Accessible s pd (PTE_W ||| PTE_U) a) ∨
    pageFaultHandler m s c tf = some (.run <| s.setEnv c { s.envs c with
        envTf := { (s.envs c).envTf with
          tfEip := (s.envs c).envPgfaultUpcall, tfEsp := topFrame } }) ∧
      ∀ a, topFrame.toNat ≤ a → a < topFrame.toNat + sizeofUTrapframe →
        Accessible s pd (PTE_W ||| PTE_U) a := by
  have hperm : PTE_W ||| PTE_U ||| PTE_U = PTE_W ||| PTE_U := by decide
  have hlen : (BitVec.ofNat 32 sizeofUTrapframe).toNat = sizeofUTrapframe := rfl
  have hc : MemChecked s pd topFrame (BitVec.ofNat 32 sizeofUTrapframe) (PTE_W ||| PTE_U)
      (userMemCheck m s pd topFrame (BitVec.ofNat 32 sizeofUTrapframe) (PTE_W ||| PTE_U)) :=
    memChecked_inReach h (by rw [InReach]; decide) (by decide)
  rw [MemChecked, hlen] at hc
  simp only [pageFaultHandler, if_neg hu, hp, utrapframeAddr_top hr, Bool.false_and, userMemAssert,
    hperm, Option.bind_eq_bind, Option.bind_some]
  rcases hc with ⟨hn, hall⟩ | ⟨w, hw, hl⟩
  · refine .inr ⟨?_, hall⟩
    simp [hn]
  · refine .inl ⟨?_, w.toNat, hl.1⟩
    rw [hw]
    cases envDestroy m s c c <;> rfl

-- The scratch word is stored without a check, and the kernel panics where it cannot be written.
theorem pageFaultHandler_panics (hp : s.pgdir c = some pd) (hu : (s.envs c).envPgfaultUpcall ≠ 0#32)
    (hr : Recursive tf.tfEsp) (hw : kernelCanWrite s pd (tf.tfEsp - 4#32) = false) :
    pageFaultHandler m s c tf = none := by
  obtain ⟨u, ha⟩ : ∃ u, utrapframeAddr tf.tfEsp = (u, true) :=
    ⟨_, Prod.ext rfl (utrapframeAddr_recursive hr)⟩
  simp [pageFaultHandler, hu, hp, ha, hw]

-- Faults are handled well exactly where the scratch word is not needed.
theorem page_fault_exact (hp : s.pgdir c = some pd) (h : Directory m s pd) :
    FaultHandled m s c pd tf ↔ (s.envs c).envPgfaultUpcall = 0#32 ∨ ¬Recursive tf.tfEsp := by
  constructor
  case mp =>
    intro hf
    by_contra hc
    rw [not_or, not_not] at hc
    obtain ⟨u, hu⟩ : ∃ u, utrapframeAddr tf.tfEsp = (u, true) :=
      ⟨_, Prod.ext rfl (utrapframeAddr_recursive hc.2)⟩
    obtain ⟨x, hx, _⟩ := hf.verified [] (tf.tfEsp - 4#32) _ (by
      rw [pageFaultAccesses, if_neg hc.1, hu]
      rfl)
    cases hx
  case mpr =>
    intro hc
    by_cases hu : (s.envs c).envPgfaultUpcall = 0#32
    case pos =>
      constructor
      case verified =>
        intro l₁ va l₂ hl
        rw [pageFaultAccesses, if_pos hu] at hl
        simp at hl
      case outcome => exact .inl ⟨if_pos hu, .inl hu⟩
    case neg =>
      have hr := hc.resolve_left hu
      constructor
      case verified =>
        intro l₁ va l₂ hl
        rw [pageFaultAccesses, if_neg hu, utrapframeAddr_top hr] at hl
        exact frame_verified hl
      case outcome =>
        rw [utrapframeAddr_top hr]
        rcases pageFaultHandler_top hp h hu hr with ⟨hx, ha⟩ | ⟨hx, ha⟩
        · exact .inl ⟨hx, .inr ha⟩
        · exact .inr ⟨topFrame, hx, by decide, by decide, ha⟩

namespace Sample

-- The file server has an upcall, and its stack pointer is at the lower end of the exception stack,
-- which is not mapped.
def upcall : State := bare.setEnv fs { bare.envs fs with envPgfaultUpcall := 0x00800000#32 }

def atEnd : Trapframe := { Trapframe.zero with tfEsp := UXSTACKTOP - 4096#32 }

theorem upcall_spec : ∃ pd, upcall.pgdir fs = some pd ∧ Directory machine upcall pd := by
  obtain ⟨pd, i, hp⟩ := bare_spec
  have hk : Directory machine bare machine.kernPgdir := directory_boot.congr i.kern.pgdir
  refine ⟨pd, ?_, (i.directory hk hp).congr rfl⟩
  have he : upcall.pgdir fs = bare.pgdir fs := by
    simp [State.pgdir, upcall]
  rw [he, hp]

end Sample

-- A fault on the user stack.
theorem page_fault_exact_upcall : ∃ pd, Sample.upcall.pgdir Sample.fs = some pd ∧
    (FaultHandled Sample.machine Sample.upcall Sample.fs pd
      { Trapframe.zero with tfEsp := USTACKTOP } ↔
      (Sample.upcall.envs Sample.fs).envPgfaultUpcall = 0#32 ∨ ¬Recursive USTACKTOP) := by
  obtain ⟨pd, hp, h⟩ := Sample.upcall_spec
  exact ⟨pd, hp, page_fault_exact hp h⟩

-- The scratch word is stored first; where the stack pointer is at the lower end of the exception stack,
-- below it.
theorem not_page_fault_exact : ¬∀ {m s c pd tf}, s.pgdir c = some pd → Directory m s pd →
    FaultHandled m s c pd tf := by
  intro h
  obtain ⟨pd, hp, hd⟩ := Sample.upcall_spec
  have hf : FaultHandled _ _ _ pd Sample.atEnd := h hp hd
  have hu : (Sample.upcall.envs Sample.fs).envPgfaultUpcall = 0x00800000#32 := by
    simp [Sample.upcall]
  obtain ⟨x, hx, _⟩ := hf.verified [] (UXSTACKTOP - 4096#32 - 4#32) _ (by
    rw [hu]
    rfl)
  cases hx

end Kern

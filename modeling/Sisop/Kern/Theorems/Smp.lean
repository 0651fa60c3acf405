import Sisop.Kern.Smp
import Sisop.Kern.Theorems.Envs

-- What one step of a CPU does to the kernel's data, to `curenv` and to the control flow.

namespace Kern

open Inc Function Library

variable {m : Machine} {s s' : Smp} {i j : Nat} {inp : Input} {c e : EnvPtr} {x : Exit} {pc : Pc}

namespace Smp

theorem lockKernel_eq (h : s.lockKernel i pc = some s') :
    s' = { s with lock := ⟨true, some i⟩ }.goto i pc := by
  simp only [lockKernel] at h
  split at h <;> cases h
  rfl

theorem unlockKernel_eq (h : s.unlockKernel i pc = some s') :
    s' = { s with lock := ⟨false, none⟩ }.goto i pc := by
  simp only [unlockKernel] at h
  split at h <;> cases h
  rfl

@[simp] theorem goto_pc_self : (s.goto i pc).pc i = pc := by simp [goto]

@[simp] theorem goto_kern : (s.goto i pc).kern = s.kern := rfl

@[simp] theorem goto_curenv : (s.goto i pc).curenv j = s.curenv j := rfl

@[simp] theorem setKern_kern {k : State} : (s.setKern k).kern = k := rfl

@[simp] theorem setKern_curenv {k : State} : (s.setKern k).curenv j = s.curenv j := rfl

@[simp] theorem setCurenv_kern {o : Option EnvPtr} : (s.setCurenv i o).kern = s.kern := rfl

@[simp] theorem setCurenv_curenv_self {o : Option EnvPtr} : (s.setCurenv i o).curenv i = o := by
  simp [setCurenv, curenv]

@[simp] theorem setStatus_kern {st : CpuStatus} : (s.setStatus i st).kern = s.kern := rfl

@[simp] theorem setStatus_curenv {st : CpuStatus} : (s.setStatus i st).curenv j = s.curenv j := by
  simp only [setStatus, curenv, update_apply]
  split
  case isTrue h  => rw [h]
  case isFalse _ => rfl

theorem goto_pc_of_ne (h : j ≠ i) : (s.goto i pc).pc j = s.pc j := by
  simp [goto, h]

theorem setCurenv_curenv_of_ne {o : Option EnvPtr} (h : j ≠ i) :
    (s.setCurenv i o).curenv j = s.curenv j := by
  simp [setCurenv, curenv, h]

end Smp

-- `curenv` when the kernel leaves a function that was called on behalf of `c`.
def Exit.curenv (c : EnvPtr) : Exit → Option EnvPtr
  | sched cur _ => cur
  | _           => some c

-- What a step of CPU `i` makes of the kernel's data and of its `curenv`.
inductive KernStep (m : Machine) (s : Smp) (i : Nat) (inp : Input) : State → Option EnvPtr → Prop
  | same : KernStep m s i inp s.kern (s.curenv i)
  | halt (hpc : s.pc i = .schedHalt) : KernStep m s i inp s.kern none
  | create {k} (hpc : s.pc i = .envCreates) (h : Kern.envCreates m s.kern inp.binaries = some k) :
    KernStep m s i inp k (s.curenv i)
  | run {y k} (hpc : s.pc i = .envRun y) (h : Kern.envRun s.kern (s.curenv i) y i = some k) :
    KernStep m s i inp k (some y)
  | zombie {tf y k} (hpc : s.pc i = .trapZombie tf) (hc : s.curenv i = some y)
    (hd : s.kern.status y = .dying) (h : Freed s.kern y k) : KernStep m s i inp k none
  | saveTf {tf y} (hpc : s.pc i = .trapZombie tf) (hc : s.curenv i = some y)
    (hd : s.kern.status y ≠ .dying) : KernStep m s i inp (s.kern.saveTf y tf) (some y)
  | dispatch {tf y z} (hpc : s.pc i = .trapDispatch tf) (hc : s.curenv i = some y)
    (h : DispatchEffect m s.kern y tf z) : KernStep m s i inp z.state (z.curenv y)

theorem next_kern (h : s.next m i inp = some s') : KernStep m s i inp s'.kern (s'.curenv i) := by
  replace h := next_cases h
  cases h
  case i386Init h        => exact Smp.lockKernel_eq h ▸ .same
  case mpMainLock h      => exact Smp.lockKernel_eq h ▸ .same
  case haltedLock h      => exact Smp.lockKernel_eq h ▸ .same
  case userLock h        => exact Smp.lockKernel_eq h ▸ .same
  case schedHaltUnlock h => exact Smp.unlockKernel_eq h ▸ .same
  case envRunUnlock h    => exact Smp.unlockKernel_eq h ▸ .same
  case schedHalt hpc _   => simpa using .halt hpc
  case envCreates hpc h  => exact .create hpc h
  case envRun hpc h      => simpa using .run hpc h
  case zombie hpc hc hd h =>
    simpa using .zombie hpc hc hd (envFree_freed h)
  case saveTf hpc hc hd  =>
    have h : KernStep m s i inp _ _ := .saveTf hpc hc hd
    simpa [hc] using h
  case dispatch x hpc _ hc h =>
    have h : KernStep m s i inp _ _ := .dispatch hpc hc (trapDispatch_effect h)
    cases x <;> simpa [Smp.resume, Exit.state, Exit.curenv, hc] using h
  all_goals simpa using .same

theorem next_curenv_of_ne (h : s.next m i inp = some s') (hj : j ≠ i) : s'.curenv j = s.curenv j := by
  replace h := next_cases h
  cases h
  case i386Init h        => exact Smp.lockKernel_eq h ▸ rfl
  case mpMainLock h      => exact Smp.lockKernel_eq h ▸ rfl
  case haltedLock h      => exact Smp.lockKernel_eq h ▸ rfl
  case userLock h        => exact Smp.lockKernel_eq h ▸ rfl
  case schedHaltUnlock h => exact Smp.unlockKernel_eq h ▸ rfl
  case envRunUnlock h    => exact Smp.unlockKernel_eq h ▸ rfl
  case dispatch x _ _ _ _ => cases x <;> simp [Smp.resume, Smp.setCurenv_curenv_of_ne hj]
  all_goals simp [Smp.setCurenv_curenv_of_ne hj]

section Curenv

variable {k : State}

theorem Destroyed.curenv (h : Destroyed k c e x) : x.curenv c = some c ∨ x.curenv c = none := by
  cases h
  case dying   => exact .inl rfl
  case freed _ =>
    split
    · exact .inr rfl
    · exact .inl rfl

theorem SyscallEffect.curenv {no a1 a2 a3 a4 : Word} (h : SyscallEffect m k c no a1 a2 a3 a4 x) :
    x.curenv c = some c ∨ x.curenv c = none := by
  cases h
  case exit h    => exact h.curenv
  case destroy h => exact h.curenv
  all_goals exact .inl rfl

theorem DispatchEffect.curenv {tf : Trapframe} (h : DispatchEffect m k c tf x) :
    x.curenv c = some c ∨ x.curenv c = none := by
  cases h
  case exit h     => exact h.curenv
  case call y _ h =>
    have hy : (y.setEax c).curenv c = y.curenv c := by cases y <;> rfl
    exact hy ▸ h.curenv
  all_goals exact .inl rfl

end Curenv

-- Only `env_run` gives a CPU another `curenv`.
theorem next_curenv (h : s.next m i inp = some s') (hc : s'.curenv i = some c) :
    s.pc i = .envRun c ∧ Kern.envRun s.kern (s.curenv i) c i = some s'.kern ∨
      (∀ z, s.pc i ≠ .envRun z) ∧ s.curenv i = some c := by
  replace h := next_cases h
  cases h
  case envRun hpc h =>
    simp only [Smp.goto_curenv, Smp.setCurenv_curenv_self, Option.some.injEq] at hc
    subst hc
    exact .inl ⟨hpc, h⟩
  case i386Init hpc h        => rw [Smp.lockKernel_eq h] at hc; exact .inr ⟨by simp [hpc], hc⟩
  case mpMainLock hpc h      => rw [Smp.lockKernel_eq h] at hc; exact .inr ⟨by simp [hpc], hc⟩
  case haltedLock hpc h      => rw [Smp.lockKernel_eq h] at hc; exact .inr ⟨by simp [hpc], hc⟩
  case userLock hpc h        => rw [Smp.lockKernel_eq h] at hc; exact .inr ⟨by simp [hpc], hc⟩
  case schedHaltUnlock hpc h => rw [Smp.unlockKernel_eq h] at hc; exact .inr ⟨by simp [hpc], hc⟩
  case envRunUnlock hpc h    => rw [Smp.unlockKernel_eq h] at hc; exact .inr ⟨by simp [hpc], hc⟩
  case schedHalt             => simp at hc
  case zombie                => simp at hc
  case dispatch x hpc _ hc' h =>
    refine .inr ⟨by simp [hpc], ?_⟩
    have hx := (trapDispatch_effect h).curenv
    cases x <;> simp_all [Smp.resume, Exit.curenv]
  all_goals exact .inr ⟨by simp [*], by simpa using hc⟩

-- No step moves another CPU, apart from the start of one.
theorem next_pc_of_ne (h : s.next m i inp = some s') (hj : j ≠ i) :
    s'.pc j = s.pc j ∨ s.pc j = .off ∧ s'.pc j = .mpMain := by
  have hg {s : Smp} {pc : Pc} : (s.goto i pc).pc j = s.pc j := Smp.goto_pc_of_ne hj
  replace h := next_cases h
  cases h
  case i386Init h        => exact .inl (Smp.lockKernel_eq h ▸ hg)
  case mpMainLock h      => exact .inl (Smp.lockKernel_eq h ▸ hg)
  case haltedLock h      => exact .inl (Smp.lockKernel_eq h ▸ hg)
  case userLock h        => exact .inl (Smp.lockKernel_eq h ▸ hg)
  case schedHaltUnlock h => exact .inl (Smp.unlockKernel_eq h ▸ hg)
  case envRunUnlock h    => exact .inl (Smp.unlockKernel_eq h ▸ hg)
  case startap c hpc hc hoff =>
    rw [hg]
    by_cases hjc : j = c
    · subst hjc
      exact .inr ⟨hoff, Smp.goto_pc_self⟩
    · exact .inl (Smp.goto_pc_of_ne hjc)
  case dispatch x _ _ _ _ => cases x <;> exact .inl hg
  all_goals exact .inl hg

-- The ways to `env_run`.
inductive RunStep (s : Smp) (i : Nat) : EnvPtr → Prop
  | pick {y} (hpc : s.pc i = .schedYield) (h : Kern.schedYield s.kern (s.curenv i) = some y) :
    RunStep s i y
  | resume {y} (hpc : s.pc i ≠ .schedYield) (hpc' : ∀ z, s.pc i ≠ .envRun z)
    (hc : s.curenv i = some y) : RunStep s i y

theorem next_envRun (h : s.next m i inp = some s') (hp : s'.pc i = .envRun e) : RunStep s i e := by
  replace h := next_cases h
  cases h
  case schedYield hpc h     =>
    rw [Smp.goto_pc_self] at hp
    cases hp
    exact .pick hpc h
  case resume hpc hc _      =>
    rw [Smp.goto_pc_self] at hp
    cases hp
    exact .resume (by simp [hpc]) (by simp [hpc]) hc
  case dispatch x hpc _ hc _ =>
    cases x <;> simp only [Smp.resume, Smp.goto_pc_self] at hp <;> cases hp
    exact .resume (by simp [hpc]) (by simp [hpc]) hc
  case i386Init h        => rw [Smp.lockKernel_eq h, Smp.goto_pc_self] at hp; cases hp
  case mpMainLock h      => rw [Smp.lockKernel_eq h, Smp.goto_pc_self] at hp; cases hp
  case haltedLock h      => rw [Smp.lockKernel_eq h, Smp.goto_pc_self] at hp; cases hp
  case userLock h        => rw [Smp.lockKernel_eq h, Smp.goto_pc_self] at hp; cases hp
  case schedHaltUnlock h => rw [Smp.unlockKernel_eq h, Smp.goto_pc_self] at hp; cases hp
  case envRunUnlock h    => rw [Smp.unlockKernel_eq h, Smp.goto_pc_self] at hp; cases hp
  all_goals (rw [Smp.goto_pc_self] at hp; cases hp)

end Kern

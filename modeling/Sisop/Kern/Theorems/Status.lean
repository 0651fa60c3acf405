import Sisop.Kern.Theorems.Smp

-- What traps and `env_run` make of the status of environments.

namespace Kern

open Inc Function Library

variable {m : Machine} {k k' : State} {s s' : Smp} {i j : Nat} {c e : EnvPtr} {x : Exit} {tf : Trapframe}
  {inp : Input} {w : Env}

-- `ENV_RUNNING` or `ENV_DYING`: some CPU has the environment.
def Active (st : EnvStatus) : Prop := st = .running ∨ st = .dying

-- The trap is a call that writes the status of `e`, other than the destruction of a running environment.
def Rewrites (k : State) (c : EnvPtr) (tf : Trapframe) (e : EnvPtr) : Prop :=
  let r := tf.tfRegs
  tf.tfTrapno = T_SYSCALL ∧
    (r.regEax = SYS_env_set_status ∧ (settableStatus r.regEcx).isSome ∧
        envid2env k c r.regEdx true = .ok e ∨
      r.regEax = SYS_ipc_try_send ∧ (k.envs e).envIpcRecving ∧ envid2env k c r.regEdx false = .ok e ∨
      r.regEax = SYS_env_destroy ∧ k.status e ≠ .running ∧ envid2env k c r.regEdx true = .ok e)

-- What a trap of `c` can make of the status of `e`.
inductive StatusChange (k : State) (c : EnvPtr) (tf : Trapframe) (e : EnvPtr) (st : EnvStatus) : Prop
  | same (h : st = k.status e)
  | killed (h : k.status e = .running) (hst : st = .dying)
  | own (h : e = c) (hst : ¬Active st)
  | new (h : k.envFreeList = some e) (hst : ¬Active st)
  | named (h : Rewrites k c tf e) (hst : ¬Active st)

namespace StatusChange

theorem active {st : EnvStatus} (h : StatusChange k c tf e st) (ha : Active st) : Active (k.status e) := by
  cases h
  case same h      => exact h ▸ ha
  case killed h _  => exact .inl h
  case own hst     => exact absurd ha hst
  case new hst     => exact absurd ha hst
  case named hst   => exact absurd ha hst

end StatusChange

theorem status_setEnv : (k.setEnv e w).status = update k.status e w.envStatus := State.status_update rfl

theorem status_setEnv_self (h : w.envStatus = k.status e) : (k.setEnv e w).status = k.status := by
  rw [status_setEnv, h, update_eq_self]

theorem setEax_status : (x.setEax c).state.status = x.state.status := by
  cases x
  case ret => exact status_setEnv_self rfl
  case sched => rfl
  case run => rfl

theorem setEax_curenv : (x.setEax c).curenv c = x.curenv c := by
  cases x <;> rfl

theorem Freed.status (h : Freed k e k') : k'.status = update k.status e .free := State.status_update h.envs

section Effects

variable {st : EnvStatus} {e' : EnvPtr} {no a1 a2 a3 a4 : Word}

theorem settable_not_active {w : Word} (h : settableStatus w = some st) : ¬Active st := by
  simp only [settableStatus] at h
  split_ifs at h <;> cases h <;> simp [Active]

theorem status_own (h : Destroyed k c c x) :
    x.curenv c = none ∧ x.state.status = update k.status c .free := by
  cases h
  case dying hc   => exact absurd rfl hc
  case freed hs h =>
    rw [if_pos rfl]
    exact ⟨rfl, h.status⟩

theorem status_destroyed (hc : c ≠ e) (h : Destroyed k c e x) : x.curenv c = some c ∧
    (k.status e = .running ∧ x.state.status = update k.status e .dying ∨
      k.status e ≠ .running ∧ x.state.status = update k.status e .free) := by
  cases h
  case dying hs _ => exact ⟨rfl, .inl ⟨hs, status_setEnv⟩⟩
  case freed hs h =>
    rw [if_neg hc]
    refine ⟨rfl, .inr ⟨fun hr => hs ⟨hr, hc⟩, h.status⟩⟩

theorem StatusChange.update (hu : k'.status = Function.update k.status e' st)
    (h : e' = e → StatusChange k c tf e st) : StatusChange k c tf e (k'.status e) := by
  rw [hu, update_apply]
  split
  case isTrue he => exact h he.symm
  case isFalse   => exact .same rfl

theorem StatusChange.free (hst : st = .free) : ¬Active st := by
  rw [hst]
  simp [Active]

theorem syscall_status (hn : tf.tfTrapno = T_SYSCALL)
    (h : SyscallEffect m k c tf.tfRegs.regEax tf.tfRegs.regEdx tf.tfRegs.regEcx tf.tfRegs.regEbx
      tf.tfRegs.regEdi x) : StatusChange k c tf e (x.state.status e) := by
  cases h
  case quiet h =>
    refine .same ?_
    rw [Exit.state, h.status]
  case yield => exact .same rfl
  case exit h =>
    exact .update (status_own h).right fun he => .own he.symm (StatusChange.free rfl)
  case destroy e' hno he' h =>
    by_cases hc : c = e'
    case pos =>
      subst hc
      exact .update (status_own h).right fun he => .own he.symm (StatusChange.free rfl)
    case neg =>
      obtain ⟨-, ⟨hr, hs⟩ | ⟨hr, hs⟩⟩ := status_destroyed hc h
      · exact .update hs fun he => .killed (he ▸ hr) rfl
      · exact .update hs fun he =>
          .named ⟨hn, .inr (.inr ⟨hno, he ▸ hr, he ▸ he'⟩)⟩ (StatusChange.free rfl)
  case exofork n hst =>
    refine .update (State.status_update n.envs) fun he => .new (he ▸ n.head) ?_
    rw [hst]
    simp [Active]
  case setStatus hno hst he' =>
    refine .update status_setEnv fun he =>
      .named ⟨hn, .inl ⟨hno, ?_, he ▸ he'⟩⟩ (settable_not_active hst)
    rw [hst]
    rfl
  case setUpcall =>
    refine .same (congrFun (status_setEnv_self ?_) e)
    rfl
  case recv =>
    exact .update status_setEnv fun he => .own he.symm (by simp [Active])
  case send e' perm s₁ hno he' hd hs =>
    have hu : (s₁.setEnv e' (deliver (k.envs e') (k.envs c) tf.tfRegs.regEcx perm)).status =
        Function.update k.status e' .runnable := by
      rw [status_setEnv, hs.status]
      rfl
    exact .update hu fun he =>
      .named ⟨hn, .inr (.inl ⟨hno, he ▸ hd.recving, he ▸ he'⟩)⟩ (by simp [Active])

theorem dispatch_status (h : DispatchEffect m k c tf x) : StatusChange k c tf e (x.state.status e) := by
  cases h
  case exit h =>
    exact .update (status_own h).right fun he => .own he.symm (StatusChange.free rfl)
  case call y hn h =>
    rw [setEax_status]
    exact syscall_status hn h
  case upcall =>
    refine .same (congrFun (status_setEnv_self ?_) e)
    rfl
  case resume => exact .same rfl
  case timer  => exact .same rfl

-- A trap leaves its environment to the CPU, or frees it.
def Kept (c : EnvPtr) (x : Exit) : Prop :=
  x.curenv c = some c ∧ x.state.status c ≠ .free ∧ x.state.status c ≠ .dying ∨
    x.curenv c = none ∧ x.state.status c = .free

theorem kept_own (h : Destroyed k c c x) : Kept c x := by
  obtain ⟨hc, hs⟩ := status_own h
  refine .inr ⟨hc, ?_⟩
  rw [hs, update_self]

theorem Kept.update (hx : x.curenv c = some c) (hu : x.state.status = Function.update k.status e' st)
    (hc : k.status c = .running) (h : e' = c → st ≠ .free ∧ st ≠ .dying) : Kept c x := by
  refine .inl ⟨hx, ?_⟩
  rw [hu, update_apply]
  split
  case isTrue he => exact h he.symm
  case isFalse   => simp [hc]

theorem Kept.same (hx : x.curenv c = some c) (hs : x.state.status = k.status)
    (hc : k.status c = .running) : Kept c x := by
  refine .inl ⟨hx, ?_⟩
  simp [hs, hc]

theorem syscall_kept (hc : k.status c = .running)
    (h : SyscallEffect m k c no a1 a2 a3 a4 x) : Kept c x := by
  cases h
  case quiet h => exact .same rfl h.status hc
  case yield   => exact .same rfl rfl hc
  case exit h  => exact kept_own h
  case destroy e' _ _ h =>
    by_cases hce : c = e'
    case pos =>
      subst hce
      exact kept_own h
    case neg =>
      obtain ⟨hx, ⟨-, hs⟩ | ⟨-, hs⟩⟩ := status_destroyed hce h
      · exact .update hx hs hc fun he => absurd he.symm hce
      · exact .update hx hs hc fun he => absurd he.symm hce
  case exofork e' v s' n hst =>
    refine .update rfl (State.status_update n.envs) hc fun he => ?_
    rw [hst]
    simp
  case setStatus hst _ =>
    refine .update rfl status_setEnv hc fun _ => ?_
    simp only [settableStatus] at hst
    split_ifs at hst <;> cases hst <;> simp
  case setUpcall => exact .same rfl (status_setEnv_self rfl) hc
  case recv      => exact .update rfl status_setEnv hc fun _ => by simp
  case send hs   =>
    refine .update rfl status_setEnv ?_ fun _ => by simp [deliver]
    rw [hs.status, hc]

theorem dispatch_kept (hc : k.status c = .running)
    (h : DispatchEffect m k c tf x) : Kept c x := by
  cases h
  case exit h => exact kept_own h
  case call h =>
    rw [Kept, setEax_status, setEax_curenv]
    exact syscall_kept hc h
  case upcall => exact .same rfl (status_setEnv_self rfl) hc
  case resume => exact .same rfl rfl hc
  case timer  => exact .same rfl rfl hc

end Effects

section Run

variable {y : EnvPtr} {cur : Option EnvPtr}

theorem schedYield_some (h : schedYield k cur = some y) :
    k.status y = .runnable ∨ cur = some y := by
  unfold schedYield at h
  split at h
  case h_1 idle hf =>
    have hp := List.find?_some hf
    obtain rfl : idle = y := Option.some.inj h
    exact .inl (of_decide_eq_true hp)
  case h_2 => exact .inr (Option.filter_eq_some_iff.mp h).left

theorem schedYield_none (h : schedYield k (some c) = none) : k.status c ≠ .running := by
  unfold schedYield at h
  split at h
  case h_1 => cases h
  case h_2 =>
    intro hr
    have hc : (some c).filter (k.status · = .running) = some c :=
      Option.filter_eq_some_iff.mpr ⟨rfl, decide_eq_true hr⟩
    rw [hc] at h
    cases h

theorem status_preempt : (preempt k cur).status e = k.status e ∨
    cur = some e ∧ k.status e = .running ∧ (preempt k cur).status e = .runnable := by
  cases cur
  case none   => exact .inl rfl
  case some c =>
    simp only [preempt]
    split
    case isFalse => exact .inl rfl
    case isTrue hr =>
      rw [status_setEnv, update_apply]
      split
      case isFalse   => exact .inl rfl
      case isTrue he => exact .inr ⟨congrArg some he.symm, he ▸ hr, rfl⟩

theorem envRun_spec {n : Nat} (hl : EnvList k) (h : envRun k cur y n = some k') :
    EnvList k' ∧ k'.status = update (preempt k cur).status y .running := by
  have hp : EnvList (preempt k cur) := by
    cases cur
    case none   => exact hl
    case some c =>
      simp only [preempt]
      split
      case isTrue  => exact hl.setEnv rfl rfl
      case isFalse => exact hl
  simp only [envRun] at h
  split at h
  case isTrue  => cases h
  case isFalse =>
    cases h
    exact ⟨hp.setEnv rfl rfl, status_setEnv⟩

theorem envCreates_spec {l : List (Elf × EnvType)} (hl : EnvList k) (h : envCreates m k l = some k') :
    EnvList k' ∧ ∀ {e}, Active (k'.status e) → Active (k.status e) := by
  refine foldlM_list (P := fun k₁ => EnvList k₁ ∧ ∀ {e}, Active (k₁.status e) → Active (k.status e)) h
    ⟨hl, id⟩ ?_
  intro k₁ k₂ a _ ⟨hl₁, ha⟩ hc
  obtain ⟨e', w, n, hst⟩ := envCreate_newEnv hc
  refine ⟨hl₁.newEnv n, fun {e} he => ha ?_⟩
  rw [State.status_update n.envs, update_apply] at he
  split at he
  case isTrue  =>
    rw [hst] at he
    simp [Active] at he
  case isFalse => exact he

end Run

end Kern

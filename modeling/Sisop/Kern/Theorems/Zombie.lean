import Sisop.Kern.Theorems.Curenv

-- The environments that are destroyed while another CPU runs them.

namespace Kern

open Inc Function Library

variable {m : Machine} {k k' : State} {s s' : Smp} {i j : Nat} {c e e' : EnvPtr} {x : Exit}
  {tf : Trapframe} {inp : Input} {ev : Nat × Input} {w : Env}

-- The trap is a call of `sys_env_destroy` for `e`.
def Destroys (k : State) (c : EnvPtr) (tf : Trapframe) (e : EnvPtr) : Prop :=
  tf.tfTrapno = T_SYSCALL ∧ tf.tfRegs.regEax = SYS_env_destroy ∧
    envid2env k c tf.tfRegs.regEdx true = .ok e

theorem trapDispatch_destroys {getc : Word} (h : trapDispatch m k c getc tf = some x)
    (hd : Destroys k c tf e) (hr : k.status e = .running) (hc : c ≠ e) : x.state.status e = .dying := by
  obtain ⟨hn, hno, he⟩ := hd
  have hs : syscall m k c getc SYS_env_destroy tf.tfRegs.regEdx tf.tfRegs.regEcx tf.tfRegs.regEbx
      tf.tfRegs.regEdi tf.tfRegs.regEsi =
      some (.ret 0#32 (k.setEnv e { k.envs e with envStatus := .dying })) := by
    have hd : sysEnvDestroy m k c tf.tfRegs.regEdx =
        some (.ret 0#32 (k.setEnv e { k.envs e with envStatus := .dying })) := by
      rw [sysEnvDestroy, he]
      exact if_pos ⟨hr, hc⟩
    rw [← hd]
    rfl
  have hx : trapDispatch m k c getc tf =
      some ((Exit.ret 0#32 (k.setEnv e { k.envs e with envStatus := .dying })).setEax c) := by
    have hp : ¬T_SYSCALL = T_PGFLT := by decide
    have hb : ¬T_SYSCALL = T_BRKPT := by decide
    simp only [trapDispatch, hn, hno, if_neg hp, if_neg hb, if_true, hs]
    rfl
  cases h.symm.trans hx
  rw [setEax_status]
  exact congrFun status_setEnv e |>.trans (update_self ..)

section Slots

-- An environment with a page directory keeps its id.
structure SlotsKept (k k' : State) : Prop where
  envId : ∀ {e}, k.pgdir e ≠ none → (k'.envs e).envId = (k.envs e).envId

theorem envId_setEnv (hw : w.envId = (k.envs e').envId) :
    ((k.setEnv e' w).envs e).envId = (k.envs e).envId := by
  simp only [State.setEnv, update_apply]
  split
  case isTrue hee => exact hee ▸ hw
  case isFalse    => rfl

namespace SlotsKept

theorem update (h : k'.envs = update k.envs e' w) (hw : k.pgdir e' ≠ none → w.envId = (k.envs e').envId) :
    SlotsKept k k' := by
  refine ⟨fun {e} he => ?_⟩
  rw [h, update_apply]
  split
  case isTrue hee => exact hee ▸ hw (hee ▸ he)
  case isFalse    => rfl

theorem refl : SlotsKept k k := ⟨fun _ => rfl⟩

theorem setEnv (h : SlotsKept k k') (hw : w.envId = (k'.envs e').envId) : SlotsKept k (k'.setEnv e' w) :=
  ⟨fun he => (envId_setEnv hw).trans (h.envId he)⟩

theorem newEnv {parentId : Word} (l : EnvList k) (n : NewEnv k parentId e' w k') : SlotsKept k k' :=
  update n.envs fun he => absurd (l.head_pgdir n.head) he

theorem freed (h : Freed k e' k') : SlotsKept k k' := update h.envs fun _ => rfl

theorem destroyed (h : Destroyed k c e' x) : SlotsKept k x.state := by
  cases h
  case dying   => exact refl.setEnv rfl
  case freed h =>
    split
    · exact freed h
    · exact freed h

theorem syscall {no a1 a2 a3 a4 : Word} (l : EnvList k) (h : SyscallEffect m k c no a1 a2 a3 a4 x) :
    SlotsKept k x.state := by
  cases h
  case quiet h     => exact ⟨fun _ => by rw [Exit.state, h.envs]⟩
  case yield       => exact refl
  case exit h      => exact destroyed h
  case destroy h   => exact destroyed h
  case exofork n _ => exact newEnv l n
  case setStatus   => exact refl.setEnv rfl
  case setUpcall   => exact refl.setEnv rfl
  case recv        => exact refl.setEnv rfl
  case send e' perm s₁ _ _ _ h =>
    have hs : (s₁.setEnv e' (deliver (k.envs e') (k.envs c) a2 perm)).envs =
        Function.update k.envs e' (deliver (k.envs e') (k.envs c) a2 perm) := by
      rw [State.setEnv, h.envs]
    exact update hs fun _ => rfl

theorem dispatch (l : EnvList k) (h : DispatchEffect m k c tf x) : SlotsKept k x.state := by
  cases h
  case exit h     => exact destroyed h
  case call y _ h =>
    have hs := syscall l h
    cases y
    case ret => exact hs.setEnv rfl
    all_goals exact hs
  case upcall     => exact refl.setEnv rfl
  case resume     => exact refl
  case timer      => exact refl

theorem envRun {cur : Option EnvPtr} {n : Nat} (h : envRun k cur e' n = some k') : SlotsKept k k' := by
  have hp : SlotsKept k (preempt k cur) := by
    cases cur
    case none   => exact refl
    case some c =>
      simp only [preempt]
      split
      case isTrue  => exact refl.setEnv rfl
      case isFalse => exact refl
  simp only [Kern.envRun] at h
  split at h
  case isTrue  => cases h
  case isFalse =>
    cases h
    exact hp.setEnv rfl

end SlotsKept

-- The slots of the environments that the CPUs have are not reallocated.
theorem CurInv.envId (v : CurInv s) (h : s.next m i inp = some s') (hc : s.curenv j = some e) :
    (s'.kern.envs e).envId = (s.kern.envs e).envId := by
  have hd := v.dirs.pgdir (Pc.ne_free (v.fits hc))
  have hk : SlotsKept s.kern s'.kern := by
    have h := next_kern h
    generalize s'.kern = k', s'.curenv i = o at h ⊢
    cases h
    case same           => exact .refl
    case halt           => exact .refl
    case create hpc _   =>
      rw [v.boots (i := i) (by rw [hpc]; rfl)] at hc
      cases hc
    case run h          => exact .envRun h
    case zombie h       => exact .freed h
    case saveTf         => exact SlotsKept.refl.setEnv rfl
    case dispatch h     => exact .dispatch v.list h
  exact hk.envId hd

end Slots

-- In user mode, or in `trap` before the test for a zombie.
def Pc.testAhead : Pc → Bool
  | user | trap _ | trapMode _ | trapUser _ | trapZombie _ => true
  | _                                                      => false

theorem Pc.testAhead_of_fits {pc : Pc} (h : pc.fits .dying) : pc.testAhead := by
  cases pc
  case user         => rfl
  case trap         => rfl
  case trapMode     => rfl
  case trapUser     => rfl
  case trapZombie   => rfl
  case trapDispatch => cases h.right
  case envRunUnlock => cases h
  case schedHalt    => cases h <;> contradiction
  case schedYield   => exact absurd rfl h.right
  case envRun       => exact absurd rfl h.right
  case trapRet      => exact absurd rfl h.right
  case monitor      => exact absurd rfl h.right
  all_goals exact h.elim

-- The environment of CPU `j` is a zombie.
structure Doomed (s : Smp) (j : Nat) (e : EnvPtr) : Prop where
  status : s.kern.status e = .dying
  curenv : s.curenv j = some e
  ahead  : (s.pc j).testAhead

-- A step of the CPU that has the zombie.
theorem Doomed.owner_step (hd : Doomed s j e) (h : s.next m j inp = some s') :
    s'.kern = s.kern ∧ s'.curenv j = s.curenv j ∨
      (∃ tf, s.pc j = .trapZombie tf) ∧ s'.kern.status e = .free ∧ s'.curenv j = none := by
  have hk := next_kern h
  have ha := hd.ahead
  generalize s'.kern = k', s'.curenv j = o at hk ⊢
  cases hk
  case same              => exact .inl ⟨rfl, rfl⟩
  case halt hpc          => rw [hpc] at ha; cases ha
  case create hpc _      => rw [hpc] at ha; cases ha
  case run hpc _         => rw [hpc] at ha; cases ha
  case dispatch hpc _ _  => rw [hpc] at ha; cases ha
  case zombie hpc hc _ h =>
    obtain rfl := Option.some.inj (hc.symm.trans hd.curenv)
    exact .inr ⟨⟨_, hpc⟩, by rw [h.status, update_self], rfl⟩
  case saveTf hpc hc hs  =>
    obtain rfl := Option.some.inj (hc.symm.trans hd.curenv)
    exact absurd hd.status hs

-- CPU `j` frees its zombie `e`, and gives it up.
structure Reaps (m : Machine) (s : Smp) (j : Nat) (e : EnvPtr) (s' : Smp) : Prop where
  doomed : Doomed s j e
  test   : ∃ tf, s.pc j = .trapZombie tf
  step   : ∃ inp, SmpStep m s (j, inp) s'
  status : s'.kern.status e = .free
  curenv : s'.curenv j = none

-- What becomes of the environments of the CPUs, from `s` on, in steps that meet `guard`.
structure ZombieProtocol (m : Machine) (guard : Smp → Nat × Input → Prop) (s : Smp) : Prop where
  live    : ∀ {j e}, s.curenv j = some e → s.kern.status e ≠ .free
  slot    : ∀ {j e ev s'}, guard s ev → SmpStep m s ev s' → s.curenv j = some e →
    (s'.kern.envs e).envId = (s.kern.envs e).envId
  free    : ∀ {j e ev s'}, guard s ev → SmpStep m s ev s' → s.curenv j = some e →
    s'.kern.status e = .free → ev.1 = j ∧ s'.curenv j = none
  destroy : ∀ {i j c e inp s' tf}, guard s (i, inp) → SmpStep m s (i, inp) s' →
    s.pc i = .trapDispatch tf → s.curenv i = some c → Destroys s.kern c tf e →
      j ≠ i → s.curenv j = some e → Doomed s' j e
  owner   : ∀ {e}, s.kern.status e = .dying → ∃ j, Doomed s j e
  -- Until CPU `j` frees it, a zombie stays one.
  reap    : ∀ {j e s'}, Doomed s j e → Run (SmpStep m) guard s s' → Doomed s' j e ∨
    ∃ s₁ s₂, Run (SmpStep m) (fun t ev => guard t ev ∧ Doomed t j e) s s₁ ∧
      Reaps m s₁ j e s₂ ∧ Run (SmpStep m) guard s₂ s'

namespace CurInv

theorem doomed (v : CurInv s) (hs : s.kern.status e = .dying) (hc : s.curenv j = some e) : Doomed s j e :=
  ⟨hs, hc, Pc.testAhead_of_fits (hs ▸ v.fits hc)⟩

-- `env_run` frees nothing.
theorem run_free {y : EnvPtr} (v : CurInv s) (hpc : s.pc i = .envRun y) (h : s.next m i inp = some s')
    (hf : s'.kern.status e = .free) : s.kern.status e = .free := by
  simp only [Smp.next, hpc, Option.bind_eq_bind, Option.bind_eq_some_iff, Option.some.injEq] at h
  obtain ⟨k, hk, rfl⟩ := h
  obtain ⟨-, hs⟩ := envRun_spec v.list hk
  have hf : k.status e = .free := hf
  rw [hs, update_apply] at hf
  split at hf
  case isTrue  => cases hf
  case isFalse =>
    obtain hp | ⟨-, -, hp⟩ := @status_preempt s.kern e (s.curenv i)
    · exact hp ▸ hf
    · cases hf.symm.trans hp

theorem free (v : CurInv s) (g : Undisturbed s (i, inp)) (h : s.next m i inp = some s')
    (hc : s.curenv j = some e) (hf : s'.kern.status e = .free) : i = j ∧ s'.curenv j = none := by
  have mv := v.moves g h
  have hij : i = j := by
    by_contra hij
    obtain hs | ⟨-, hs⟩ := mv.others (Ne.symm hij) hc
    · exact Pc.ne_free (v.fits hc) (hs ▸ hf)
    · cases hf.symm.trans hs
  subst hij
  refine ⟨rfl, ?_⟩
  obtain hk | hk | ⟨y, hpc, hk⟩ := mv.keeps
  · exact absurd hf (Pc.ne_free ((v.step g h).fits (hk.trans hc)))
  · exact hk
  · exact absurd (v.run_free hpc h hf) (Pc.ne_free (v.fits hc))

theorem destroy (v : CurInv s) (g : Undisturbed s (i, inp)) (h : s.next m i inp = some s')
    (hpc : s.pc i = .trapDispatch tf) (hc : s.curenv i = some c) (hd : Destroys s.kern c tf e) (hj : j ≠ i)
    (he : s.curenv j = some e) : Doomed s' j e := by
  have hr : s.kern.status e = .running := by
    by_contra hr
    exact g _ _ _ _ hpc hc hj he ⟨hd.left, .inr (.inr ⟨hd.right.left, hr, hd.right.right⟩)⟩
  have hce : c ≠ e := fun hce => hj (v.unique he (hce ▸ hc))
  refine (v.step g h).doomed ?_ ((next_curenv_of_ne h hj).trans he)
  have hu : fromUser tf = true := by
    have hf : (Pc.trapDispatch tf).fits (s.kern.status c) := hpc ▸ v.fits hc
    exact hf.left
  have hb : ¬tf.tfTrapno = T_BRKPT := by
    rw [hd.left]
    decide
  simp only [Smp.next, hpc, hu, if_true, hc, hb, if_false, Option.bind_eq_bind, Option.bind_some,
    Option.bind_eq_some_iff, Option.some.injEq] at h
  obtain ⟨x, hx, rfl⟩ := h
  have hs := trapDispatch_destroys hx hd hr hce
  cases x <;> exact hs

-- A step leaves a zombie to its CPU, or is the one in which that CPU frees it.
theorem reap (v : CurInv s) (g : Undisturbed s ev) (h : SmpStep m s ev s') (hd : Doomed s j e) :
    Doomed s' j e ∨ Reaps m s j e s' := by
  obtain ⟨i, inp⟩ := ev
  by_cases hij : j = i
  case neg =>
    refine .inl ((v.step g h.right).doomed ?_ ((next_curenv_of_ne h.right hij).trans hd.curenv))
    obtain hs | ⟨hs, -⟩ := (v.moves g h.right).others hij hd.curenv
    · exact hs.trans hd.status
    · cases hs.symm.trans hd.status
  case pos =>
    subst hij
    obtain ⟨hs, hc⟩ | ⟨ht, hs, hc⟩ := hd.owner_step h.right
    · exact .inl ((v.step g h.right).doomed (hs ▸ hd.status) (hc.trans hd.curenv))
    · exact .inr ⟨hd, ht, ⟨inp, h⟩, hs, hc⟩

theorem reap_run (v : CurInv s) (hd : Doomed s j e) (r : Run (SmpStep m) Undisturbed s s') :
    Doomed s' j e ∧ Run (SmpStep m) (fun t ev => Undisturbed t ev ∧ Doomed t j e) s s' ∨
      ∃ s₁ s₂, Run (SmpStep m) (fun t ev => Undisturbed t ev ∧ Doomed t j e) s s₁ ∧
        Reaps m s₁ j e s₂ ∧ Run (SmpStep m) Undisturbed s₂ s' := by
  induction r
  case refl => exact .inl ⟨hd, .refl⟩
  case tail t t' ev r g h i =>
    have vt : CurInv t := r.invariant v fun v g h => v.step g h.right
    obtain ⟨hdt, rt⟩ | ⟨s₁, s₂, r₁, hr, r₂⟩ := i
    · obtain hd' | hr := vt.reap g h hdt
      · exact .inl ⟨hd', rt.tail ⟨g, hdt⟩ h⟩
      · exact .inr ⟨t, t', rt, hr, .refl⟩
    · exact .inr ⟨s₁, s₂, r₁, hr, r₂.tail g h⟩

end CurInv

-- As long as no call writes the status of an environment that another CPU has, zombies are freed by the
-- CPU that runs them.
theorem zombie_protocol (r : SmpReachable m Undisturbed s) : ZombieProtocol m Undisturbed s := by
  have v := CurInv.reachable r
  constructor
  case live    => exact fun hc => Pc.ne_free (v.fits hc)
  case slot    => exact fun _ h hc => v.envId h.right hc
  case free    => exact fun g h hc hf => v.free g h.right hc hf
  case destroy => exact fun g h => v.destroy g h.right
  case owner   =>
    intro e hs
    obtain ⟨j, hc⟩ := v.held (.inr hs)
    exact ⟨j, v.doomed hs hc⟩
  case reap    => exact fun hd r => (v.reap_run hd r).imp And.left id

-- The file server destroys its child while CPU 1 runs it.
theorem zombie_protocol_child : ∃ s, SmpReachable Sample.machine Undisturbed s ∧
    (s.kern.status Sample.user = .dying ∧ s.curenv 1 = some Sample.user) ∧
      ZombieProtocol Sample.machine Undisturbed s := by
  obtain ⟨s, r, hc⟩ := Sample.undisturbed_exec
    (P := fun s => s.kern.status Sample.user = .dying ∧ s.curenv 1 = some Sample.user)
    (Sample.child ++ Sample.trap 0 (Sample.call SYS_env_destroy 0x1001 0 0 0 0)) (by decide +kernel)
  exact ⟨s, r, hc, zombie_protocol r⟩

-- The file server destroys its child twice while CPU 1 runs it.
theorem not_zombie_protocol :
    ¬∀ {m s}, SmpReachable m (fun _ _ => True) s → ZombieProtocol m (fun _ _ => True) s := by
  intro h
  let destroys := Sample.trap 0 (Sample.call SYS_env_destroy 0x1001 0 0 0 0)
  obtain ⟨s, r, h1, hs⟩ := Sample.smpReachable_exec
    (P := fun s => s.curenv 1 = some Sample.user ∧ s.kern.status Sample.user = .free)
    (Sample.child ++ destroys ++ destroys) (fun _ _ _ => trivial) (by decide +kernel)
  exact (h r).live h1 hs

end Kern

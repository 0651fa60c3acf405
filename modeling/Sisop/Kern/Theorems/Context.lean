import Sisop.Kern.Theorems.Curenv

-- The registers of environments that do not run.

namespace Kern

open Inc Function Library

variable {m : Machine} {k k' : State} {s s' s₁ s₂ : Smp} {i j : Nat} {c e y : EnvPtr} {x : Exit}
  {tf tf' : Trapframe} {inp : Input} {w : Env}

-- With which registers an environment goes on that trapped with `tf`.
def Resumes (tf tf' : Trapframe) : Prop :=
  if tf.tfTrapno = T_SYSCALL then ∃ r, tf' = tf.setEax r
  else if tf.tfTrapno = T_PGFLT then
    ∃ upcall, upcall ≠ 0#32 ∧ tf' = { tf with tfEip := upcall, tfEsp := (utrapframeAddr tf.tfEsp).fst }
  else tf' = tf

def State.envTf (k : State) (e : EnvPtr) : Trapframe := (k.envs e).envTf

section Frames

theorem State.envTf_update (h : k'.envs = update k.envs e w) : k'.envTf = update k.envTf e w.envTf := by
  funext y
  simp only [State.envTf, h, update_apply]
  split <;> rfl

theorem envTf_setEnv : (k.setEnv e w).envTf = update k.envTf e w.envTf := State.envTf_update rfl

theorem envTf_setEnv_self (h : w.envTf = k.envTf e) : (k.setEnv e w).envTf = k.envTf := by
  rw [envTf_setEnv, h, update_eq_self]

theorem SameEnvs.envTf (h : SameEnvs k k') : k'.envTf = k.envTf := by
  funext y
  rw [State.envTf, State.envTf, h.envs]

theorem Freed.envTf (h : Freed k e k') : k'.envTf = k.envTf := by
  rw [State.envTf_update h.envs]
  apply update_eq_self

theorem Destroyed.envTf (h : Destroyed k c e x) : x.state.envTf = k.envTf := by
  cases h
  case dying   => exact envTf_setEnv_self rfl
  case freed h => split <;> exact h.envTf

theorem NewEnv.envTf {id : Word} (h : NewEnv k id e w k') (hne : y ≠ e) : k'.envTf y = k.envTf y := by
  rw [State.envTf_update h.envs, update_of_ne hne]

theorem envTf_preempt {cur : Option EnvPtr} : (preempt k cur).envTf = k.envTf := by
  cases cur
  case none => rfl
  case some =>
    simp only [preempt]
    split
    case isTrue  => exact envTf_setEnv_self rfl
    case isFalse => rfl

theorem envTf_envRun {cur : Option EnvPtr} {n : Nat} (h : envRun k cur y n = some k') : k'.envTf = k.envTf := by
  simp only [envRun] at h
  split at h
  case isTrue => cases h
  case isFalse =>
    cases h
    rw [← @envTf_preempt k cur]
    exact envTf_setEnv_self rfl

theorem envTf_envCreates {l : List (Elf × EnvType)} (hl : EnvList k) (hp : k.pgdir e ≠ none)
    (h : envCreates m k l = some k') : k'.envTf e = k.envTf e := by
  refine (foldlM_list (P := fun k₁ => EnvList k₁ ∧ k₁.pgdir e ≠ none ∧ k₁.envTf e = k.envTf e) h
    ⟨hl, hp, rfl⟩ ?_).right.right
  intro k₁ k₂ a _ ⟨hl₁, hp₁, ht⟩ hc
  obtain ⟨y, _, n, -⟩ := envCreate_newEnv hc
  have hne : e ≠ y := by
    intro he
    rw [he] at hp₁
    exact hp₁ (hl₁.head_pgdir n.head)
  refine ⟨hl₁.newEnv n, ?_, (n.envTf hne).trans ht⟩
  rw [State.pgdir_update n.envs, update_of_ne hne]
  exact hp₁

end Frames

section Dispatch

variable {no a1 a2 a3 a4 : Word}

-- A system call leaves the frames alone, apart from that of a new environment; `sys_ipc_recv` sets its
-- own result.
theorem syscall_envTf (hl : k.envFreeList ≠ some e) (h : SyscallEffect m k c no a1 a2 a3 a4 x) :
    x.state.envTf e = k.envTf e ∨ e = c ∧ x.state.envTf c = (k.envTf c).setEax 0#32 := by
  cases h
  case quiet h     => exact .inl (congrFun h.envTf e)
  case yield       => exact .inl rfl
  case exit h      => exact .inl (congrFun h.envTf e)
  case destroy h   => exact .inl (congrFun h.envTf e)
  case exofork n _ => exact .inl (n.envTf fun he => hl (he ▸ n.head))
  case setStatus   =>
    refine .inl (congrFun (envTf_setEnv_self ?_) e)
    rfl
  case setUpcall   =>
    refine .inl (congrFun (envTf_setEnv_self ?_) e)
    rfl
  case recv =>
    by_cases he : e = c
    case pos => exact .inr ⟨he, by rw [Exit.state, envTf_setEnv, update_self]; rfl⟩
    case neg => exact .inl (by rw [Exit.state, envTf_setEnv, update_of_ne he])
  case send s₁ _ _ _ h =>
    refine .inl ?_
    rw [← h.envTf]
    refine congrFun (envTf_setEnv_self ?_) e
    rw [h.envTf]
    rfl

theorem setEax_envTf : (x.setEax c).state.envTf e = x.state.envTf e ∨
    e = c ∧ ∃ r, (x.setEax c).state.envTf c = (x.state.envTf c).setEax r := by
  cases x
  case ret r k =>
    by_cases he : e = c
    case pos => exact .inr ⟨he, r, by rw [Exit.setEax, Exit.state, envTf_setEnv, update_self]; rfl⟩
    case neg => exact .inl (by rw [Exit.setEax, Exit.state, envTf_setEnv, update_of_ne he]; rfl)
  case sched => exact .inl rfl
  case run   => exact .inl rfl

-- A trap leaves the frames of the others alone.
theorem dispatch_envTf_of_ne (hl : k.envFreeList ≠ some e) (hne : e ≠ c) (h : DispatchEffect m k c tf x) :
    x.state.envTf e = k.envTf e := by
  cases h
  case exit h => exact congrFun h.envTf e
  case call y _ h =>
    have hx := setEax_envTf (x := y) (c := c) (e := e)
    have hy := syscall_envTf hl h
    exact (hx.resolve_right fun hx => hne hx.left).trans (hy.resolve_right fun hy => hne hy.left)
  case upcall tf' =>
    rw [Exit.state, State.saveTf, envTf_setEnv, update_of_ne hne]
  case resume => rfl
  case timer  => rfl

-- What a trap makes of the frame of its own environment.
theorem dispatch_resumes {getc : Word} (hl : k.envFreeList ≠ some c) (ht : k.envTf c = tf)
    (h : trapDispatch m k c getc tf = some x) : x.state.status c = .free ∨ Resumes tf (x.state.envTf c) := by
  have free (h : Destroyed k c c x) : x.state.status c = .free := by
    rw [(status_own h).right, update_self]
  simp only [trapDispatch] at h
  split_ifs at h with hp _ hs
  case pos =>
    simp only [pageFaultHandler] at h
    split at h
    case isTrue     => exact .inl (free (envDestroy_destroyed h))
    case isFalse hu =>
      simp only [Option.bind_eq_bind, Option.bind_eq_some_iff] at h
      obtain ⟨_, _, h⟩ := h
      split at h
      case isTrue  => cases h
      case isFalse =>
        obtain ⟨r, hr, hx⟩ := Option.bind_eq_some_iff.mp h
        cases r
        case some _ => cases hx; exact .inl (free (userMemAssert_destroyed hr))
        case none   =>
          cases hx
          have hns : tf.tfTrapno ≠ T_SYSCALL := by rw [hp]; decide
          refine .inr ?_
          rw [Resumes, if_neg hns, if_pos hp, Exit.state, envTf_setEnv, update_self, ← ht]
          exact ⟨_, hu, rfl⟩
  case pos =>
    obtain ⟨y, hy, hx⟩ := Option.bind_eq_some_iff.mp h
    cases hx
    refine .inr ?_
    rw [Resumes, if_pos hs]
    -- Whether or not the call has set `eax` itself, and whether or not it returns a value.
    have hc : ∃ r, y.state.envTf c = tf.setEax r := by
      rcases syscall_envTf hl (syscall_effect hy) with hc | ⟨-, hc⟩
      · exact ⟨tf.tfRegs.regEax, hc.trans ht⟩
      · exact ⟨0#32, hc.trans (congrArg (·.setEax 0#32) ht)⟩
    obtain ⟨r, hr⟩ := hc
    rcases setEax_envTf (x := y) (c := c) (e := c) with hx | ⟨-, r', hx⟩
    · exact ⟨r, hx.trans hr⟩
    · exact ⟨r', hx.trans (congrArg (·.setEax r') hr)⟩
  case pos hi =>
    cases h
    refine .inr ?_
    rw [Resumes, if_neg hs, if_neg hp]
    exact ht
  case pos hi =>
    cases h
    refine .inr ?_
    rw [Resumes, if_neg hs, if_neg hp]
    exact ht
  case neg => exact .inl (free (envDestroy_destroyed h))

end Dispatch

namespace Pc

-- In `trap`, with the frame `tf` of its environment not yet handled.
def trapping (tf : Trapframe) (pc : Pc) : Prop :=
  pc = .trap tf ∨ pc = .trapMode tf ∨ pc = .trapUser tf ∨ pc = .trapZombie tf ∨ pc = .trapDispatch tf

-- Neither in user mode nor with a frame that is not yet handled.
def settled : Pc → Prop
  | user | trap _ | trapHalted _ | trapMode _ | trapUser _ | trapZombie _ | trapDispatch _ => False
  | _                                                                                     => True

theorem not_settled_of_trapping {pc : Pc} (h : pc.trapping tf) : ¬pc.settled := by
  rcases h with rfl | rfl | rfl | rfl | rfl <;> exact id

end Pc

-- The frame that `trap` has saved is the one it dispatches.
structure Saved (s : Smp) : Prop where
  frame : ∀ {i tf c}, s.pc i = .trapDispatch tf → s.curenv i = some c → s.kern.envTf c = tf

-- `c` waits for its next turn, to go on with `tf`.
structure Suspended (c : EnvPtr) (tf : Trapframe) (s : Smp) : Prop where
  frame : s.kern.envTf c = tf
  away  : ∀ {i}, s.curenv i = some c → (s.pc i).settled

-- `c` is not in user mode, and it is not freed.
def Rests (c : EnvPtr) (s : Smp) (ev : Nat × Input) : Prop :=
  Undisturbed s ev ∧ s.kern.status c ≠ .free ∧ ¬(s.pc ev.1 = .envRunUnlock ∧ s.curenv ev.1 = some c)

namespace CurInv

variable (v : CurInv s)
include v

theorem head_ne (hc : s.kern.status c ≠ .free) : s.kern.envFreeList ≠ some c :=
  fun hl => v.dirs.pgdir hc (v.list.head_pgdir hl)

-- A step of a CPU that does not handle a trap of `c` leaves its frame alone.
theorem envTf_of_ne (h : s.next m i inp = some s') (hst : s.kern.status c ≠ .free)
    (hi : ∀ {tf}, (s.pc i).trapping tf → s.curenv i ≠ some c) : s'.kern.envTf c = s.kern.envTf c := by
  have hn := next_kern h
  generalize s'.kern = k at hn ⊢
  generalize s'.curenv i = cur at hn
  cases hn
  case same       => rfl
  case halt       => rfl
  case create h   => exact envTf_envCreates v.list (v.dirs.pgdir hst) h
  case run h      => exact congrFun (envTf_envRun h) c
  case zombie h   => exact congrFun h.envTf c
  case saveTf tf' y hpc hc _ =>
    have hne : c ≠ y := by
      rintro rfl
      exact hi (.inr (.inr (.inr (.inl hpc)))) hc
    rw [State.saveTf, envTf_setEnv, update_of_ne hne]
  case dispatch tf' y _ hpc hc h =>
    refine dispatch_envTf_of_ne (v.head_ne hst) ?_ h
    rintro rfl
    exact hi (.inr (.inr (.inr (.inr hpc)))) hc

end CurInv

section Next

-- The way to `trap_dispatch`.
theorem next_trapDispatch (h : s.next m i inp = some s') (hp : s'.pc i = .trapDispatch tf) :
    fromUser tf = false ∨ s'.kern.envTf = update s.kern.envTf c tf ∨ s.curenv i ≠ some c := by
  replace h := next_cases h
  cases h
  case kernelMode hpc hu =>
    rw [Smp.goto_pc_self] at hp
    cases hp
    exact .inl hu
  case saveTf y hpc hc hd =>
    rw [Smp.goto_pc_self] at hp
    cases hp
    by_cases hy : y = c
    case pos =>
      subst hy
      exact .inr (.inl envTf_setEnv)
    case neg =>
      refine .inr (.inr fun hc' => hy ?_)
      rw [hc] at hc'
      exact Option.some.inj hc'
  case dispatch x _ _ _ _ => cases x <;> simp only [Smp.resume, Smp.goto_pc_self] at hp <;> cases hp
  case i386Init h        => rw [Smp.lockKernel_eq h, Smp.goto_pc_self] at hp; cases hp
  case mpMainLock h      => rw [Smp.lockKernel_eq h, Smp.goto_pc_self] at hp; cases hp
  case haltedLock h      => rw [Smp.lockKernel_eq h, Smp.goto_pc_self] at hp; cases hp
  case userLock h        => rw [Smp.lockKernel_eq h, Smp.goto_pc_self] at hp; cases hp
  case schedHaltUnlock h => rw [Smp.unlockKernel_eq h, Smp.goto_pc_self] at hp; cases hp
  case envRunUnlock h    => rw [Smp.unlockKernel_eq h, Smp.goto_pc_self] at hp; cases hp
  all_goals (rw [Smp.goto_pc_self] at hp; cases hp)

-- The ways into user mode, and into `trap`.
theorem next_settled (h : s.next m i inp = some s') (hp : (s.pc i).settled) :
    (s'.pc i).settled ∨ s.pc i = .envRunUnlock ∨ s.pc i = .halted := by
  replace h := next_cases h
  cases h
  case envRunUnlock hpc _    => exact .inr (.inl hpc)
  case halted hpc _          => exact .inr (.inr hpc)
  case i386Init h            => rw [Smp.lockKernel_eq h, Smp.goto_pc_self]; exact .inl trivial
  case mpMainLock h          => rw [Smp.lockKernel_eq h, Smp.goto_pc_self]; exact .inl trivial
  case schedHaltUnlock h     => rw [Smp.unlockKernel_eq h, Smp.goto_pc_self]; exact .inl trivial
  case user hpc _            => rw [hpc] at hp; exact hp.elim
  case trapHalted hpc _      => rw [hpc] at hp; exact hp.elim
  case trapStarted hpc _     => rw [hpc] at hp; exact hp.elim
  case haltedLock hpc _      => rw [hpc] at hp; exact hp.elim
  case userMode hpc _        => rw [hpc] at hp; exact hp.elim
  case kernelMode hpc _      => rw [hpc] at hp; exact hp.elim
  case userLock hpc _        => rw [hpc] at hp; exact hp.elim
  case saveTf hpc _ _        => rw [hpc] at hp; exact hp.elim
  case dispatch hpc _ _ _    => rw [hpc] at hp; exact hp.elim
  all_goals (rw [Smp.goto_pc_self]; exact .inl trivial)

-- How a CPU goes on that handles a trap of `c`.
inductive TrapStep (m : Machine) (s : Smp) (i : Nat) (inp : Input) (c : EnvPtr) (tf : Trapframe) :
    Smp → Prop
  | stays {t} (hc : t.curenv i = some c) (ht : (t.pc i).trapping tf) : TrapStep m s i inp c tf t
  | freed {t} (h : t.kern.status c = .free) : TrapStep m s i inp c tf t
  | breakpoint (hn : tf.tfTrapno = T_BRKPT) (hpc : s.pc i = .trapDispatch tf) :
    TrapStep m s i inp c tf (s.goto i .monitor)
  | dispatch {z} (hpc : s.pc i = .trapDispatch tf) (h : Kern.trapDispatch m s.kern c inp.getc tf = some z) :
    TrapStep m s i inp c tf (s.resume i c z)

theorem next_trapping (h : s.next m i inp = some s') (hc : s.curenv i = some c) (ht : (s.pc i).trapping tf)
    (hu : fromUser tf) (hh : (s.cpus i).cpuStatus = .halted → s.pc i ≠ .trap tf) :
    TrapStep m s i inp c tf s' := by
  rcases ht with hpc | hpc | hpc | hpc | hpc
  · rw [Smp.next, hpc] at h
    dsimp only at h
    rw [if_neg fun hs => hh hs hpc] at h
    cases h
    refine .stays (by simpa using hc) (.inr (.inl Smp.goto_pc_self))
  · rw [Smp.next, hpc] at h
    dsimp only at h
    rw [if_pos hu] at h
    cases h
    exact .stays hc (.inr (.inr (.inl Smp.goto_pc_self)))
  · rw [Smp.next, hpc] at h
    cases Smp.lockKernel_eq h
    exact .stays hc (.inr (.inr (.inr (.inl Smp.goto_pc_self))))
  · rw [Smp.next, hpc] at h
    simp only [hc, Option.bind_eq_bind, Option.bind_some] at h
    split at h
    case isTrue hd =>
      obtain ⟨k, hk, h⟩ := Option.bind_eq_some_iff.mp h
      cases h
      refine .freed ?_
      simp [(envFree_freed hk).status]
    case isFalse =>
      cases h
      exact .stays hc (.inr (.inr (.inr (.inr Smp.goto_pc_self))))
  · rw [Smp.next, hpc] at h
    simp only [hu, if_true, hc, Option.bind_eq_bind, Option.bind_some] at h
    split at h
    case isTrue hn  => cases h; exact .breakpoint hn hpc
    case isFalse hn =>
      obtain ⟨x, hx, h⟩ := Option.bind_eq_some_iff.mp h
      cases h
      exact .dispatch hpc hx

end Next

namespace CurInv

variable (v : CurInv s)
include v

theorem not_halted (hc : s.curenv i = some c) (hh : (s.cpus i).cpuStatus = .halted) : s.pc i ≠ .trap tf := by
  intro hpc
  have hf := v.fits hc
  have hm := (v.lock.status i).mp hh
  rw [hpc] at hf hm
  rw [Pc.halting, hf.left] at hm
  cases hm

theorem fromUser_of_trapping (hc : s.curenv i = some c) (ht : (s.pc i).trapping tf) : fromUser tf := by
  have hf := v.fits hc
  rcases ht with hpc | hpc | hpc | hpc | hpc <;> (rw [hpc] at hf; exact hf.left)

-- What a step makes of the frames that are being dispatched.
theorem saved_step (v' : CurInv s') (hs : Saved s) (g : Undisturbed s (i, inp))
    (h : s.next m i inp = some s') : Saved s' := by
  refine ⟨fun {j tf c} hpc hc => ?_⟩
  by_cases hj : j = i
  case pos =>
    subst hj
    have hu := v'.fromUser_of_trapping hc (.inr (.inr (.inr (.inr hpc))))
    have hc₀ : s.curenv j = some c := by
      rcases next_curenv h hc with ⟨hrun, -⟩ | ⟨-, hc₀⟩
      case inr => exact hc₀
      case inl =>
        have hn := next_settled h (by rw [hrun]; trivial)
        simp [hrun, hpc, Pc.settled] at hn
    rcases next_trapDispatch h hpc (c := c) with hf | ht | hne
    · rw [hu] at hf
      cases hf
    · rw [ht, update_self]
    · exact absurd hc₀ hne
  case neg =>
    rw [next_curenv_of_ne h hj] at hc
    rcases next_pc_of_ne h hj with hp | ⟨-, hp⟩
    case inr =>
      rw [hpc] at hp
      cases hp
    case inl =>
      rw [hpc] at hp
      have hl : (s.pc j).locked := by rw [← hp]; rfl
      rcases (v.moves g h).kern with hk | hi
      · rw [hk]
        exact hs.frame hp.symm hc
      · rw [← v.lock.holding] at hl hi
        exact absurd (Spinlock.holding_unique hl hi) hj

end CurInv

-- What a step makes of an environment that waits for its turn.
theorem Suspended.step (hs : Suspended c tf s) (v : CurInv s) (g : Rests c s (i, inp))
    (h : s.next m i inp = some s') : Suspended c tf s' := by
  obtain ⟨-, hst, hrun⟩ := g
  constructor
  case frame =>
    rw [v.envTf_of_ne h hst fun ht hc => Pc.not_settled_of_trapping ht (hs.away hc)]
    exact hs.frame
  case away =>
    intro j hc
    by_cases hj : j = i
    case neg =>
      rw [next_curenv_of_ne h hj] at hc
      rcases next_pc_of_ne h hj with hp | ⟨-, hp⟩
      · rw [hp]
        exact hs.away hc
      · rw [hp]
        trivial
    case pos =>
      subst hj
      rcases next_curenv h hc with ⟨hpc, -⟩ | ⟨-, hc₀⟩
      case inl =>
        have hn := next_settled h (by rw [hpc]; trivial)
        exact hn.resolve_right (by simp [hpc])
      case inr =>
        rcases next_settled h (hs.away hc₀) with hn | hpc | hpc
        · exact hn
        · exact absurd ⟨hpc, hc₀⟩ hrun
        · have hf := v.fits hc₀
          rw [hpc] at hf
          exact hf.elim

-- An environment that traps with `tf` and goes on later.
def Away (c : EnvPtr) (tf : Trapframe) (s : Smp) : Prop :=
  (∃ i, s.curenv i = some c ∧ (s.pc i).trapping tf) ∨ ∃ tf', Resumes tf tf' ∧ Suspended c tf' s

-- What a step makes of an environment whose trap is being handled.
theorem CurInv.away_trapping (v : CurInv s) (hsv : Saved s) (g : Rests c s (i, inp))
    (h : s.next m i inp = some s') (hc : s.curenv j = some c) (ht : (s.pc j).trapping tf)
    (hst : s'.kern.status c ≠ .free) : Away c tf s' := by
  by_cases hj : j = i
  case neg =>
    refine .inl ⟨j, (next_curenv_of_ne h hj).trans hc, ?_⟩
    rcases next_pc_of_ne h hj with hp | ⟨hp, -⟩
    · rw [hp]
      exact ht
    · rw [hp] at ht
      exact absurd trivial (Pc.not_settled_of_trapping ht)
  case pos =>
    subst hj
    -- No other CPU has `c`.
    have others {a : Nat} (ha : a ≠ j) : s'.curenv a ≠ some c := by
      rw [next_curenv_of_ne h ha]
      exact fun hac => ha (v.unique hac hc)
    have hn := next_trapping h hc ht (v.fromUser_of_trapping hc ht) (v.not_halted hc)
    cases hn
    case stays hc' ht' => exact .inl ⟨j, hc', ht'⟩
    case freed hf      => exact absurd hf hst
    case breakpoint hn hpc =>
      refine .inr ⟨tf, ?_, hsv.frame hpc hc, fun {a} hac => ?_⟩
      · have hs : tf.tfTrapno ≠ T_SYSCALL := by rw [hn]; decide
        have hp : tf.tfTrapno ≠ T_PGFLT := by rw [hn]; decide
        rw [Resumes, if_neg hs, if_neg hp]
      · by_cases ha : a = j
        case neg => exact absurd hac (others ha)
        case pos =>
          rw [ha, Smp.goto_pc_self]
          trivial
    case dispatch x hpc hx =>
      have hk : (s.resume j c x).kern = x.state := by cases x <;> rfl
      rw [hk] at hst
      have hr := (dispatch_resumes (v.head_ne g.right.left) (hsv.frame hpc hc) hx).resolve_left hst
      refine .inr ⟨_, hr, by rw [hk], fun {a} hac => ?_⟩
      by_cases ha : a = j
      case neg => exact absurd hac (others ha)
      case pos =>
        rw [ha]
        cases x <;> (rw [Smp.resume, Smp.goto_pc_self]; trivial)

theorem Saved.boot {b : Nat} : Saved (.boot k b) := by
  refine ⟨fun _ hc => ?_⟩
  cases hc

theorem Saved.reachable (r : SmpReachable m Undisturbed s) : Saved s := by
  obtain ⟨_, _, hb, _, r⟩ := r
  let inv (s : Smp) : Prop := CurInv s ∧ Saved s
  have h : inv s := by
    refine r.invariant ⟨.boot hb, .boot⟩ fun hi g h => ?_
    have v' := hi.left.step g h.right
    exact ⟨v', hi.left.saved_step v' hi.right g h.right⟩
  exact h.right

-- What a run makes of it.
theorem Away.run (v : CurInv s) (hsv : Saved s) (ha : s.kern.status c ≠ .free → Away c tf s)
    (r : Run (SmpStep m) (Rests c) s s') :
    CurInv s' ∧ Saved s' ∧ (s'.kern.status c ≠ .free → Away c tf s') := by
  let inv (s : Smp) : Prop := CurInv s ∧ Saved s ∧ (s.kern.status c ≠ .free → Away c tf s)
  have h : inv s' := by
    refine r.invariant ⟨v, hsv, ha⟩ ?_
    intro s ev s' ⟨v, hsv, ha⟩ g h
    have v' := v.step g.left h.right
    refine ⟨v', v.saved_step v' hsv g.left h.right, fun hst => ?_⟩
    rcases ha g.right.left with ⟨j, hc, ht⟩ | ⟨tf', hr, hs⟩
    · exact v.away_trapping hsv g h.right hc ht hst
    · exact .inr ⟨tf', hr, hs.step v g h.right⟩
  exact h

-- With any number of CPUs, an environment that has trapped goes on, on whichever CPU, with the registers it
-- had at the trap: a system call changes only `eax`, the upcall for a page fault only `eip` and `esp`, and an
-- interrupt nothing, whatever the other environments did in between.
theorem context_kept (r : SmpReachable m Undisturbed s) (hpc : s.pc i = .user) (hc : s.curenv i = some c)
    (g : Undisturbed s (i, inp)) (h : SmpStep m s (i, inp) s₁) (run : Run (SmpStep m) (Rests c) s₁ s₂)
    (hpc₂ : s₂.pc j = .envRunUnlock) (hc₂ : s₂.curenv j = some c) :
    Resumes inp.tf (s₂.kern.envTf c) := by
  have v := CurInv.reachable r
  have v₁ := v.step g h.right
  have hsv₁ := v.saved_step v₁ (Saved.reachable r) g h.right
  have ha₁ : Away c inp.tf s₁ := by
    have hn := h.right
    rw [Smp.next, hpc] at hn
    dsimp only at hn
    split at hn
    case isFalse => cases hn
    case isTrue  =>
      cases hn
      exact .inl ⟨i, hc, .inl Smp.goto_pc_self⟩
  obtain ⟨v₂, -, ha₂⟩ := Away.run v₁ hsv₁ (fun _ => ha₁) run
  have hf := v₂.fits hc₂
  rw [hpc₂] at hf
  rcases ha₂ (by rw [show s₂.kern.status c = .running from hf]; decide) with ⟨a, hac, ht⟩ | ⟨tf', hr, hs⟩
  · rw [v₂.unique hac hc₂, hpc₂] at ht
    exact absurd trivial (Pc.not_settled_of_trapping ht)
  · rw [hs.frame]
    exact hr

-- The CPUs that `mp_init` has not found have no environment.
theorem curenv_none {guard} (r : SmpReachable m guard s) (hj : m.ncpu ≤ j) : s.curenv j = none := by
  obtain ⟨_, _, _, _, r⟩ := r
  let inv (s : Smp) : Prop := s.curenv j = none
  have hi : inv s := by
    refine r.invariant rfl fun {_ ev _} hi _ h => ?_
    have hne := Nat.ne_of_gt (Nat.lt_of_lt_of_le h.left hj)
    exact (next_curenv_of_ne h.right hne).trans hi
  exact hi

namespace Sample

-- `e` stays away from user mode, and the CPUs of `machine` leave each other's environments alone.
def rests (e : EnvPtr) (s : Smp) (ev : Nat × Input) : Prop :=
  calm s ev ∧ s.kern.status e ≠ .free ∧ ¬(s.pc ev.1 = .envRunUnlock ∧ s.curenv ev.1 = some e)

instance : Decidable (rests e s ev) := inferInstanceAs (Decidable (_ ∧ _))

theorem rests_follow {evs : List (Nat × Input)} (hn : ∀ j ≥ machine.ncpu, s.curenv j = none)
    (h : Run.follow next (rests e) s evs = some s') : Run (SmpStep machine) (Rests e) s s' := by
  let inv (t : Smp) : Prop := Run (SmpStep machine) (Rests e) s t ∧ ∀ j ≥ machine.ncpu, t.curenv j = none
  have hi : inv s' := by
    refine (Run.of_follow step_next h).invariant ⟨.refl, hn⟩ fun {t _ _} hi g h => ?_
    refine ⟨hi.left.tail ⟨undisturbed_of_calm g.left hi.right, g.right⟩ h, fun j hj => ?_⟩
    have hne := Nat.ne_of_gt (Nat.lt_of_lt_of_le h.left hj)
    exact (next_curenv_of_ne h.right hne).trans (hi.right j hj)
  exact hi.left

-- Of three environments, the first two are run.
def three : List (Nat × Input) :=
  bootCpus.map (·, idle) ++ (0, { idle with binaries := [(elf, .fs), (elf, .user), (elf, .user)] }) ::
    List.replicate 3 (0, idle) ++ List.replicate 4 (1, idle)

-- The time of an environment is up that has something in its registers.
def busy : Input := trapped { timer.tf with tfRegs := (call 5 6 7 8 9 10).tfRegs, tfEip := 0x800020#32 }

-- CPU 0 goes on with the third environment, and CPU 1 with the first one.
def switch : List (Nat × Input) :=
  List.replicate 8 (0, idle) ++ (1, timer) :: List.replicate 7 (1, idle)

end Sample

-- The file server moves to another CPU.
theorem context_kept_switch : ∃ s : Smp, s.pc 1 = .envRunUnlock ∧ s.curenv 1 = some Sample.fs ∧
    s.kern.envTf Sample.fs = Sample.busy.tf := by
  obtain ⟨s, r, hpc, hc, hp⟩ := Sample.undisturbed_exec
    (P := fun s => s.pc 0 = .user ∧ s.curenv 0 = some Sample.fs ∧
      (Sample.next s (0, Sample.busy)).any fun s₁ =>
        (Run.follow Sample.next (Sample.rests Sample.fs) s₁ Sample.switch).any fun s₂ =>
          s₂.pc 1 = .envRunUnlock ∧ s₂.curenv 1 = some Sample.fs) Sample.three (by decide +kernel)
  obtain ⟨s₁, hs₁, hp⟩ := (Option.any_eq_true _ _).mp hp
  obtain ⟨s₂, hs₂, hp⟩ := (Option.any_eq_true _ _).mp hp
  obtain ⟨hpc₂, hc₂⟩ := of_decide_eq_true hp
  have g : Undisturbed s (0, Sample.busy) := by
    intro tf c j e ht
    rw [hpc] at ht
    cases ht
  have hn {j : Nat} (hj : j ≥ Sample.machine.ncpu) : s₁.curenv j = none := by
    have hne : j ≠ 0 := Nat.ne_of_gt (Nat.lt_of_lt_of_le (by decide) hj)
    exact (next_curenv_of_ne (Sample.step_next hs₁).right hne).trans (curenv_none r hj)
  have h := context_kept r hpc hc g (Sample.step_next hs₁) (Sample.rests_follow (fun _ => hn) hs₂) hpc₂ hc₂
  exact ⟨s₂, hpc₂, hc₂, h⟩

-- The frame with which `e` enters user mode the next time, if it is not freed before.
def Enters (m : Machine) (e : EnvPtr) (s : Smp) (tf : Trapframe) : Prop :=
  ∀ {s' j}, Run (SmpStep m) (Rests e) s s' → s'.pc j = .envRunUnlock → s'.curenv j = some e →
    s'.kern.envTf e = tf

theorem Suspended.enters (hs : Suspended e tf s) (v : CurInv s) : Enters m e s tf := by
  intro s' j r hpc hc
  let inv (s : Smp) : Prop := CurInv s ∧ Suspended e tf s
  have h : inv s' := by
    refine r.invariant ⟨v, hs⟩ fun hi g h => ?_
    exact ⟨hi.left.step g.left h.right, hi.right.step hi.left g h.right⟩
  exact h.right.frame

-- What `sys_exofork` makes of the frames.
theorem exofork_envTf {getc : Word} (hn : tf.tfTrapno = T_SYSCALL) (hno : tf.tfRegs.regEax = SYS_exofork)
    (hl : k.envFreeList ≠ some c) (ht : k.envTf c = tf) (h : trapDispatch m k c getc tf = some x)
    (he : k.status e = .free) (he' : x.state.status e ≠ .free) :
    ∃ k', x = .ret (k'.envs e).envId k' ∧ k'.envTf c = tf.setEax (k'.envs e).envId ∧
      k'.envTf e = tf.setEax 0#32 := by
  have hnp : tf.tfTrapno ≠ T_PGFLT := by rw [hn]; decide
  have hnb : tf.tfTrapno ≠ T_BRKPT := by rw [hn]; decide
  simp only [trapDispatch, if_neg hnp, if_neg hnb, if_pos hn, hno] at h
  obtain ⟨y, hy, hx⟩ := Option.bind_eq_some_iff.mp h
  replace hy : sysExofork m k c = y := Option.some.inj hy
  cases hx
  rw [setEax_status] at he'
  simp only [sysExofork] at hy
  split at hy
  case h_1 ha =>
    rw [envAlloc_failed ha] at hy
    exact absurd (hy ▸ he) he'
  case h_2 e₁ k₁ ha =>
    let w := { k₁.envs e₁ with
      envStatus := .notRunnable
      envTf := (k₁.envs c).envTf.setEax 0#32 }
    have n : NewEnv k (k.envs c).envId e₁ w (k₁.setEnv e₁ w) := (envAlloc_newEnv ha).left.modify rfl rfl rfl
    have hce : c ≠ e₁ := fun hc => hl (hc ▸ n.head)
    have hw : w.envTf = tf.setEax 0#32 := by
      rw [← ht, ← (envAlloc_newEnv ha).left.envTf hce]
      rfl
    have hee : e = e₁ := by
      by_contra hne
      rw [← hy, Exit.state, State.status_update n.envs, update_of_ne hne] at he'
      exact he' he
    subst hee
    generalize k₁.setEnv e w = k₂ at n hy
    refine ⟨k₂.setEnv c { k₂.envs c with envTf := (k₂.envs c).envTf.setEax (k₂.envs e).envId }, ?_, ?_, ?_⟩
    · rw [← hy, Exit.setEax, State.setEnv_envs_of_ne (Ne.symm hce)]
    · rw [envTf_setEnv, update_self, State.setEnv_envs_of_ne (Ne.symm hce)]
      have htc := (n.envTf hce).trans ht
      rw [← htc]
      rfl
    · rw [envTf_setEnv, update_of_ne (Ne.symm hce), State.envTf_update n.envs, update_self, hw]

-- `sys_exofork` returns twice: both environments go on with the registers of the call, the parent with the
-- child's id in `eax` and the child with 0, on whichever CPUs and whatever the other environments do.
theorem exofork_resumes (r : SmpReachable m Undisturbed s) (hpc : s.pc i = .trapDispatch tf)
    (hc : s.curenv i = some c) (hn : tf.tfTrapno = T_SYSCALL) (hno : tf.tfRegs.regEax = SYS_exofork)
    (g : Undisturbed s (i, inp)) (h : SmpStep m s (i, inp) s₁) (he : s.kern.status e = .free)
    (he₁ : s₁.kern.status e ≠ .free) :
    Enters m c s₁ (tf.setEax (s₁.kern.envs e).envId) ∧ Enters m e s₁ (tf.setEax 0#32) := by
  have v := CurInv.reachable r
  have v₁ := v.step g h.right
  have hu := v.fromUser_of_trapping hc (.inr (.inr (.inr (.inr hpc))))
  have hnb : tf.tfTrapno ≠ T_BRKPT := by rw [hn]; decide
  have hst : s.kern.status c ≠ .free := Pc.ne_free (v.fits hc)
  -- No CPU has the new environment, and only CPU `i` its parent.
  have hce : c ≠ e := fun heq => hst (heq ▸ he)
  have none {a : Nat} : s.curenv a ≠ some e := fun ha => Pc.ne_free (v.fits ha) he
  have hs := h.right
  rw [Smp.next, hpc] at hs
  simp only [hu, if_true, hc, Option.bind_eq_bind, Option.bind_some, if_neg hnb] at hs
  obtain ⟨x, hx, hs⟩ := Option.bind_eq_some_iff.mp hs
  cases hs
  have hk : (s.resume i c x).kern = x.state := by cases x <;> rfl
  rw [hk] at he₁
  have hf := (Saved.reachable r).frame hpc hc
  obtain ⟨k', rfl, htc, hte⟩ := exofork_envTf hn hno (v.head_ne hst) hf hx he he₁
  have hcur {a : Nat} : (s.resume i c (.ret (k'.envs e).envId k')).curenv a = s.curenv a := rfl
  refine ⟨Suspended.enters ⟨htc, fun {a} ha => ?_⟩ v₁, Suspended.enters ⟨hte, fun {a} ha => ?_⟩ v₁⟩
  · rw [hcur] at ha
    rw [v.unique ha hc, Smp.resume, Smp.goto_pc_self]
    trivial
  · exact absurd ha none

-- The file server calls `sys_exofork` while CPU 1 is halted.
theorem exofork_resumes_child : ∃ s : Smp, s.kern.status Sample.user = .notRunnable ∧
    Enters Sample.machine Sample.fs s
      ((Sample.trapped (Sample.call SYS_exofork 1 2 3 4 5)).tf.setEax 0x1001#32) ∧
    Enters Sample.machine Sample.user s
      ((Sample.trapped (Sample.call SYS_exofork 1 2 3 4 5)).tf.setEax 0#32) := by
  let inp := Sample.trapped (Sample.call SYS_exofork 1 2 3 4 5)
  let evs := Sample.bootCpus.map (·, Sample.idle) ++
    (0, { Sample.idle with binaries := [(Sample.elf, .fs)] }) :: List.replicate 3 (0, Sample.idle) ++
      (0, inp) :: List.replicate 4 (0, Sample.idle)
  obtain ⟨s, r, hpc, hc, hj, he, hp⟩ := Sample.undisturbed_exec
    (P := fun s => s.pc 0 = .trapDispatch inp.tf ∧ s.curenv 0 = some Sample.fs ∧ s.curenv 1 = none ∧
      s.kern.status Sample.user = .free ∧ (Sample.next s (0, Sample.idle)).any fun s₁ =>
        s₁.kern.status Sample.user = .notRunnable ∧ (s₁.kern.envs Sample.user).envId = 0x1001#32) evs
    (by decide +kernel)
  obtain ⟨s₁, hs₁, hp⟩ := (Option.any_eq_true _ _).mp hp
  obtain ⟨he₁, hid⟩ := of_decide_eq_true hp
  have g : Undisturbed s (0, Sample.idle) := by
    intro tf c j e _ _ hne hje
    by_cases h₁ : j = 1
    case pos =>
      rw [h₁, hj] at hje
      cases hje
    case neg =>
      have hge : Sample.machine.ncpu ≤ j := by
        have hn : Sample.machine.ncpu = 2 := rfl
        omega
      rw [curenv_none r hge] at hje
      cases hje
  have h := exofork_resumes r hpc hc rfl rfl g (Sample.step_next hs₁) he (by rw [he₁]; decide)
  rw [hid] at h
  exact ⟨s₁, he₁, h⟩

end Kern

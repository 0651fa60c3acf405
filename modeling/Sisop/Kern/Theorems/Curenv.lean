import Sisop.Kern.Theorems.Lock
import Sisop.Kern.Theorems.Isolation
import Sisop.Kern.Theorems.Status

-- Which environments the CPUs have, and which ones `sched_yield` can find.

namespace Kern

open Inc Function Library

variable {m : Machine} {k k' : State} {s s' : Smp} {i j : Nat} {c e : EnvPtr} {x : Exit} {tf : Trapframe}
  {inp : Input}

namespace Pc

-- The status that `curenv` can have at a point of the control flow.
def fits : Pc → EnvStatus → Prop
  | user, st            => Active st
  | trap tf, st         => fromUser tf ∧ Active st
  | trapMode tf, st     => fromUser tf ∧ Active st
  | trapUser tf, st     => fromUser tf ∧ Active st
  | trapZombie tf, st   => fromUser tf ∧ Active st
  | trapDispatch tf, st => fromUser tf ∧ st = .running
  | envRunUnlock, st    => st = .running
  | schedHalt, st       => st = .runnable ∨ st = .notRunnable
  | schedYield, st      => st ≠ .free ∧ st ≠ .dying
  | envRun _, st        => st ≠ .free ∧ st ≠ .dying
  | trapRet, st         => st ≠ .free ∧ st ≠ .dying
  | monitor, st         => st ≠ .free ∧ st ≠ .dying
  | _, _                => False

-- In `i386_init`.
def boots : Pc → Bool
  | i386Init | bootAps _ | bootApsWait _ | envCreates => true
  | _                                                 => false

-- Neither in `i386_init` nor at `env_run`.
def plain : Pc → Bool
  | i386Init | bootAps _ | bootApsWait _ | envCreates | envRun _ => false
  | _                                                            => true

variable {pc : Pc} {st : EnvStatus}

theorem not_boots_of_plain (h : pc.plain) : pc.boots = false := by
  cases pc <;> first | rfl | cases h

theorem ne_free (h : pc.fits st) : st ≠ .free := by
  intro hst
  subst hst
  have ha : ¬Active .free := by simp [Active]
  cases pc
  case user         => exact ha h
  case trap         => exact ha h.right
  case trapMode     => exact ha h.right
  case trapUser     => exact ha h.right
  case trapZombie   => exact ha h.right
  case trapDispatch => cases h.right
  case envRunUnlock => cases h
  case schedHalt    => cases h <;> contradiction
  case schedYield   => exact h.left rfl
  case envRun       => exact h.left rfl
  case trapRet      => exact h.left rfl
  case monitor      => exact h.left rfl
  all_goals exact h.elim

theorem active_of_fits (hl : pc.locked = false) (h : pc.fits st) : Active st := by
  cases pc
  case user       => exact h
  case trap       => exact h.right
  case trapMode   => exact h.right
  case trapUser   => exact h.right
  case off        => exact h.elim
  case i386Init   => exact h.elim
  case mpMain     => exact h.elim
  case mpMainLock => exact h.elim
  case halted     => exact h.elim
  case trapHalted => exact h.elim
  all_goals cases hl

theorem fits_schedHalt (h : schedYield.fits st) (hr : st ≠ .running) : schedHalt.fits st := by
  cases st
  case free        => exact absurd rfl h.left
  case dying       => exact absurd rfl h.right
  case runnable    => exact .inl rfl
  case running     => exact absurd rfl hr
  case notRunnable => exact .inr rfl

theorem fits_monitor (h : schedHalt.fits st) : monitor.fits st := by
  obtain h | h := h <;> rw [h] <;> exact ⟨by decide, by decide⟩

theorem fits_dying (hl : pc.locked = false) (h : pc.fits st) : pc.fits .dying := by
  cases pc
  case user       => exact .inr rfl
  case trap       => exact ⟨h.left, .inr rfl⟩
  case trapMode   => exact ⟨h.left, .inr rfl⟩
  case trapUser   => exact ⟨h.left, .inr rfl⟩
  case off        => exact h.elim
  case i386Init   => exact h.elim
  case mpMain     => exact h.elim
  case mpMainLock => exact h.elim
  case halted     => exact h.elim
  case trapHalted => exact h.elim
  all_goals cases hl

end Pc

-- What holds of the environments of the CPUs, and of the ones that are about to run.
structure CurInv (s : Smp) : Prop where
  lock   : LockInv s
  list   : EnvList s.kern
  dirs   : LiveDirs s.kern
  unique : ∀ {i j e}, s.curenv i = some e → s.curenv j = some e → i = j
  fits   : ∀ {i e}, s.curenv i = some e → (s.pc i).fits (s.kern.status e)
  next   : ∀ {i e}, s.pc i = .envRun e → s.kern.status e = .runnable ∨ s.curenv i = some e
  held   : ∀ {e}, Active (s.kern.status e) → ∃ i, s.curenv i = some e
  init   : ∀ {i j}, s.pc i = .i386Init → j ≠ i → s.pc j = .off
  boots  : ∀ {i j}, (s.pc i).boots → s.curenv j = none

-- What a step of CPU `i` makes of the kernel's data, its `curenv` and its control flow.
structure Move (s : Smp) (i : Nat) (k : State) (cur : Option EnvPtr) (pc : Pc) : Prop where
  kern   : k = s.kern ∨ (s.pc i).locked
  list   : EnvList k
  dirs   : LiveDirs k
  keeps  : cur = s.curenv i ∨ cur = none ∨ ∃ e, s.pc i = .envRun e ∧ cur = some e
  own    : ∀ {e}, s.curenv i = some e → cur = some e ∨ ¬Active (k.status e)
  others : ∀ {j e}, j ≠ i → s.curenv j = some e →
    k.status e = s.kern.status e ∨ s.kern.status e = .running ∧ k.status e = .dying
  active : ∀ {e}, Active (k.status e) → Active (s.kern.status e) ∨ cur = some e
  fits   : ∀ {e}, cur = some e → pc.fits (k.status e)
  next   : ∀ {e}, pc = .envRun e → k.status e = .runnable ∨ cur = some e
  init   : pc ≠ .i386Init
  boots  : pc.boots → (s.pc i).boots ∧ cur = s.curenv i

namespace CurInv

variable (v : CurInv s)
include v

-- While CPU `i` is in the kernel, the environments of the others are active.
theorem others_active (hl : (s.pc i).locked) (hj : j ≠ i) (hc : s.curenv j = some e) :
    (s.pc j).locked = false ∧ Active (s.kern.status e) := by
  have hn : (s.pc j).locked = false := by
    rw [← v.lock.holding] at hl ⊢
    rw [Bool.eq_false_iff]
    exact fun hh => hj (Spinlock.holding_unique hh hl)
  exact ⟨hn, Pc.active_of_fits hn (v.fits hc)⟩

-- The step lemma.
theorem move (h : s.next m i inp = some s') (mv : Move s i s'.kern (s'.curenv i) (s'.pc i)) :
    CurInv s' := by
  have hcur {a : Nat} (ha : a ≠ i) : s'.curenv a = s.curenv a := next_curenv_of_ne h ha
  constructor
  case lock => exact v.lock.next h
  case list => exact mv.list
  case dirs => exact mv.dirs
  case unique =>
    have hne {b : Nat} {e : EnvPtr} (hb : b ≠ i) (hi : s'.curenv i = some e)
        (hbc : s.curenv b = some e) : False := by
      obtain hc | hc | ⟨y, hpc, hc⟩ := mv.keeps
      · exact hb (v.unique hbc (hc ▸ hi))
      · rw [hc] at hi
        cases hi
      · obtain rfl : y = e := Option.some.inj (hc.symm.trans hi)
        obtain hr | hr := v.next hpc
        · obtain ⟨-, ha⟩ := v.others_active (by rw [hpc]; rfl) hb hbc
          rw [hr] at ha
          simp [Active] at ha
        · exact hb (v.unique hbc hr)
    intro a b e ha hb
    by_cases hai : a = i <;> by_cases hbi : b = i
    · rw [hai, hbi]
    · subst hai
      exact (hne hbi ha (hcur hbi ▸ hb)).elim
    · subst hbi
      exact (hne hai hb (hcur hai ▸ ha)).elim
    · rw [hcur hai] at ha
      rw [hcur hbi] at hb
      exact v.unique ha hb
  case fits =>
    intro a e ha
    by_cases hai : a = i
    case pos =>
      subst hai
      exact mv.fits ha
    case neg =>
      rw [hcur hai] at ha
      have hf := v.fits ha
      obtain hpc | ⟨hoff, -⟩ := next_pc_of_ne h hai
      case inr =>
        rw [hoff] at hf
        exact hf.elim
      case inl =>
        rw [hpc]
        obtain hs | ⟨hr, hd⟩ := mv.others hai ha
        · exact hs ▸ hf
        · obtain hk | hl := mv.kern
          · rw [hk, hr] at hd
            cases hd
          · rw [hd]
            exact Pc.fits_dying (v.others_active hl hai ha).left hf
  case next =>
    intro a e ha
    by_cases hai : a = i
    case pos =>
      subst hai
      exact mv.next ha
    case neg =>
      obtain hpc | ⟨-, hpc⟩ := next_pc_of_ne h hai
      case inr =>
        rw [ha] at hpc
        cases hpc
      case inl =>
        rw [ha] at hpc
        rw [hcur hai]
        obtain hk | hl := mv.kern
        · exact hk ▸ v.next hpc.symm
        · have hla : (s.pc a).locked := by rw [← hpc]; rfl
          rw [← v.lock.holding] at hl hla
          exact absurd (Spinlock.holding_unique hla hl) hai
  case held =>
    intro e ha
    obtain ha' | hc := mv.active ha
    case inr => exact ⟨i, hc⟩
    case inl =>
      obtain ⟨b, hb⟩ := v.held ha'
      by_cases hbi : b = i
      case pos =>
        subst hbi
        exact ⟨b, (mv.own hb).resolve_right (not_not.mpr ha)⟩
      case neg => exact ⟨b, (hcur hbi).trans hb⟩
  case init =>
    intro a b ha hb
    by_cases hai : a = i
    case pos => exact absurd (hai ▸ ha) mv.init
    case neg =>
      obtain hpc | ⟨-, hpc⟩ := next_pc_of_ne h hai
      · have hoff := v.init (hpc ▸ ha) (Ne.symm hai)
        rw [Smp.next, hoff] at h
        cases h
      · rw [ha] at hpc
        cases hpc
  case boots =>
    intro a b ha
    by_cases hai : a = i
    case pos =>
      subst hai
      obtain ⟨hb, hc⟩ := mv.boots ha
      by_cases hba : b = a
      · rw [hba, hc]
        exact v.boots hb
      · rw [hcur hba]
        exact v.boots hb
    case neg =>
      have hpa : (s.pc a).boots := by
        obtain hpc | ⟨-, hpc⟩ := next_pc_of_ne h hai
        · exact hpc ▸ ha
        · rw [hpc] at ha
          cases ha
      by_cases hbi : b = i
      case neg =>
        rw [hcur hbi]
        exact v.boots hpa
      case pos =>
        subst hbi
        obtain hc | hc | ⟨y, hpc, -⟩ := mv.keeps
        · exact hc.trans (v.boots hpa)
        · exact hc
        · have hl : (s.pc b).locked := by rw [hpc]; rfl
          have hla : (s.pc a).locked := by
            cases hpca : s.pc a <;> rw [hpca] at hpa
            case i386Init =>
              have hoff := v.init hpca (Ne.symm hai)
              rw [hpc] at hoff
              cases hoff
            case bootAps     => rfl
            case bootApsWait => rfl
            case envCreates  => rfl
            all_goals cases hpa
          rw [← v.lock.holding] at hl hla
          exact absurd (Spinlock.holding_unique hla hl) hai

end CurInv

-- No trap writes the status of an environment that another CPU has.
def Undisturbed (s : Smp) (ev : Nat × Input) : Prop :=
  ∀ tf c j e, s.pc ev.1 = .trapDispatch tf → s.curenv ev.1 = some c → j ≠ ev.1 →
    s.curenv j = some e → ¬Rewrites s.kern c tf e

namespace CurInv

variable {pc pc₀ : Pc} {y : EnvPtr} (v : CurInv s)
include v

-- A step that leaves the kernel's data alone.
theorem still {cur : Option EnvPtr} (hk : cur = s.curenv i ∨ cur = none)
    (ho : ∀ {e}, s.curenv i = some e → cur = some e ∨ ¬Active (s.kern.status e))
    (hf : ∀ {e}, cur = some e → pc.fits (s.kern.status e))
    (hn : ∀ {e}, pc = .envRun e → s.kern.status e = .runnable ∨ cur = some e) (hi : pc ≠ .i386Init)
    (hb : pc.boots → (s.pc i).boots ∧ cur = s.curenv i) : Move s i s.kern cur pc where
  kern       := .inl rfl
  list       := v.list
  dirs       := v.dirs
  keeps      := hk.imp id .inl
  own        := ho
  others _ _ := .inl rfl
  active     := .inl
  fits       := hf
  next       := hn
  init       := hi
  boots      := hb

-- A step that only moves the CPU.
theorem stay (hf : ∀ {e}, s.curenv i = some e → pc.fits (s.kern.status e)) (hp : pc.plain) :
    Move s i s.kern (s.curenv i) pc := by
  refine v.still (.inl rfl) .inl hf (fun he => ?_) (fun hi => ?_) fun hb => ?_
  · rw [he] at hp
    cases hp
  · rw [hi] at hp
    cases hp
  · rw [Pc.not_boots_of_plain hp] at hb
    cases hb

theorem goto (hpc : s.pc i = pc₀) (hf : ∀ {st}, pc₀.fits st → pc.fits st) (hp : pc.plain) :
    Move s i s.kern (s.curenv i) pc :=
  v.stay (fun hc => hf (hpc ▸ v.fits hc)) hp

-- A step inside `i386_init`, while no CPU has an environment.
theorem gotoBoot (hpc : s.pc i = pc₀) (hb₀ : pc₀.boots) (hb : pc.boots) (hi : pc ≠ .i386Init) :
    Move s i s.kern (s.curenv i) pc := by
  refine v.still (.inl rfl) .inl (fun hc => ?_) (fun he => ?_) hi fun _ => ⟨hpc ▸ hb₀, rfl⟩
  · rw [v.boots (i := i) (hpc ▸ hb₀)] at hc
    cases hc
  · rw [he] at hb
    cases hb

-- The way to `env_run`.
theorem gotoRun (hpc : s.pc i = pc₀) (hf : ∀ {st}, pc₀.fits st → (Pc.envRun y).fits st)
    (hn : s.kern.status y = .runnable ∨ s.curenv i = some y) :
    Move s i s.kern (s.curenv i) (.envRun y) := by
  refine v.still (.inl rfl) .inl (fun hc => hf (hpc ▸ v.fits hc)) (fun he => ?_) (by simp) (by simp [Pc.boots])
  cases he
  exact hn

-- `sched_halt` gives the environment up.
theorem halt (hpc : s.pc i = .schedHalt) : Move s i s.kern none .schedHaltUnlock := by
  refine v.still (.inr rfl) (fun {e} hc => .inr fun ha => ?_) (by simp) (by simp) (by simp) (by simp [Pc.boots])
  have hf : (Pc.schedHalt).fits (s.kern.status e) := hpc ▸ v.fits hc
  obtain hf | hf := hf <;> rw [hf] at ha <;> simp [Active] at ha

-- `i386_init` creates environments before any CPU has one.
theorem create {l : List (Elf × EnvType)} (hpc : s.pc i = .envCreates)
    (h : Kern.envCreates m s.kern l = some k) : Move s i k (s.curenv i) .schedYield := by
  have hn (j : Nat) : s.curenv j = none := v.boots (i := i) (by rw [hpc]; rfl)
  obtain ⟨hl, ha⟩ := envCreates_spec v.list h
  constructor
  case kern   => exact .inr (by rw [hpc]; rfl)
  case list   => exact hl
  case dirs   => exact v.dirs.envCreates h
  case keeps  => exact .inl rfl
  case own    =>
    intro e hc
    rw [hn] at hc
    cases hc
  case others =>
    intro j e _ hc
    rw [hn] at hc
    cases hc
  case active => exact fun he => .inl (ha he)
  case fits   =>
    intro e hc
    rw [hn] at hc
    cases hc
  case next   => simp
  case init   => simp
  case boots  => simp [Pc.boots]

-- `env_run` of an environment that no other CPU has.
theorem run (hpc : s.pc i = .envRun y) (h : Kern.envRun s.kern (s.curenv i) y i = some k) :
    Move s i k (some y) .envRunUnlock := by
  have hl : (s.pc i).locked := by rw [hpc]; rfl
  obtain ⟨hlist, hst⟩ := envRun_spec v.list h
  constructor
  case kern   => exact .inr hl
  case list   => exact hlist
  case dirs   => exact v.dirs.envRun h
  case keeps  => exact .inr (.inr ⟨y, hpc, rfl⟩)
  case own    =>
    intro e hc
    by_cases he : e = y
    case pos => exact .inl (congrArg some he.symm)
    case neg =>
      refine .inr fun ha => ?_
      have hf : (Pc.envRun y).fits (s.kern.status e) := hpc ▸ v.fits hc
      rw [hst, update_of_ne he] at ha
      obtain hs | ⟨-, -, hs⟩ := @status_preempt s.kern e (s.curenv i) <;> rw [hs] at ha
      · obtain ha | ha := ha
        · obtain hs' | ⟨-, -, hs'⟩ := @status_preempt s.kern e (s.curenv i)
          · have hp : (preempt s.kern (s.curenv i)).status e = .runnable := by
              rw [hc, preempt, if_pos ha, status_setEnv, update_self]
            rw [hs, ha] at hp
            cases hp
          · rw [hs, ha] at hs'
            cases hs'
        · exact hf.right ha
      · simp [Active] at ha
  case others =>
    intro j e hj hc
    obtain ⟨-, ha⟩ := v.others_active hl hj hc
    have he : e ≠ y := by
      intro he
      subst he
      obtain hr | hr := v.next hpc
      · rw [hr] at ha
        simp [Active] at ha
      · exact hj (v.unique hc hr)
    rw [hst, update_of_ne he]
    obtain hs | ⟨hs, -, -⟩ := @status_preempt s.kern e (s.curenv i)
    · exact .inl hs
    · exact absurd (v.unique hc hs) hj
  case active =>
    intro e ha
    by_cases he : e = y
    case pos => exact .inr (congrArg some he.symm)
    case neg =>
      rw [hst, update_of_ne he] at ha
      obtain hs | ⟨-, -, hs⟩ := @status_preempt s.kern e (s.curenv i) <;> rw [hs] at ha
      · exact .inl ha
      · simp [Active] at ha
  case fits   =>
    intro e he
    cases he
    rw [hst, update_self]
    rfl
  case next   => simp
  case init   => simp
  case boots  => simp [Pc.boots]

-- A zombie is freed by the CPU that has it.
theorem zombie (hpc : s.pc i = .trapZombie tf) (hc : s.curenv i = some c) (h : Freed s.kern c k) :
    Move s i k none .schedYield := by
  have hst := h.status
  constructor
  case kern   => exact .inr (by rw [hpc]; rfl)
  case list   => exact v.list.freed h
  case dirs   => exact v.dirs.freed h
  case keeps  => exact .inr (.inl rfl)
  case own    =>
    intro e he
    obtain rfl : c = e := Option.some.inj (hc.symm.trans he)
    refine .inr ?_
    rw [hst, update_self]
    simp [Active]
  case others =>
    intro j e hj he
    have hne : e ≠ c := fun hec => hj (v.unique he (hec ▸ hc))
    rw [hst, update_of_ne hne]
    exact .inl rfl
  case active =>
    intro e ha
    rw [hst, update_apply] at ha
    split at ha
    case isTrue  => simp [Active] at ha
    case isFalse => exact .inl ha
  case fits   => simp
  case next   => simp
  case init   => simp
  case boots  => simp [Pc.boots]

theorem saveTf (hpc : s.pc i = .trapZombie tf) (hc : s.curenv i = some c)
    (hd : s.kern.status c ≠ .dying) :
    Move s i (s.kern.saveTf c tf) (s.curenv i) (.trapDispatch tf) := by
  have hst : (s.kern.saveTf c tf).status = s.kern.status := by
    refine status_setEnv_self ?_
    rfl
  constructor
  case kern   => exact .inr (by rw [hpc]; rfl)
  case list   => exact v.list.setEnv rfl rfl
  case dirs   => exact v.dirs.saveTf
  case keeps  => exact .inl rfl
  case own    => exact .inl
  case others =>
    intro j e _ _
    rw [hst]
    exact .inl rfl
  case active =>
    intro e ha
    rw [hst] at ha
    exact .inl ha
  case fits   =>
    intro e he
    obtain rfl : c = e := Option.some.inj (hc.symm.trans he)
    have hf : (Pc.trapZombie tf).fits (s.kern.status c) := hpc ▸ v.fits hc
    rw [hst]
    exact ⟨hf.left, hf.right.resolve_right hd⟩
  case next   => simp
  case init   => simp
  case boots  => simp [Pc.boots]

end CurInv

-- Where `trap` goes on after `trap_dispatch`.
def Exit.pc (c : EnvPtr) : Exit → Pc
  | ret ..   => .trapRet
  | sched .. => .schedYield
  | run _    => .envRun c

namespace CurInv

variable (v : CurInv s)
include v

-- A trap does not change the environments of the other CPUs, unless it kills them or a call names them.
theorem dispatch_others (hpc : s.pc i = .trapDispatch tf) (hc : s.curenv i = some c)
    (g : Undisturbed s (i, inp)) (h : DispatchEffect m s.kern c tf x) (hj : j ≠ i) (he : s.curenv j = some e) :
    x.state.status e = s.kern.status e ∨ s.kern.status e = .running ∧ x.state.status e = .dying := by
  cases dispatch_status h (e := e)
  case same h        => exact .inl h
  case killed h hst  => exact .inr ⟨h, hst⟩
  case own hec _     => exact absurd (v.unique he (hec ▸ hc)) hj
  case new hl _      => exact absurd (v.list.head_pgdir hl) (v.dirs.pgdir (Pc.ne_free (v.fits he)))
  case named hr _    => exact absurd hr (g _ _ _ _ hpc hc hj he)

theorem dispatch (hpc : s.pc i = .trapDispatch tf) (hc : s.curenv i = some c) (g : Undisturbed s (i, inp))
    (h : DispatchEffect m s.kern c tf x) : Move s i x.state (x.curenv c) (x.pc c) := by
  have hf : (Pc.trapDispatch tf).fits (s.kern.status c) := hpc ▸ v.fits hc
  have hk := dispatch_kept hf.right h
  constructor
  case kern   => exact .inr (by rw [hpc]; rfl)
  case list   => exact v.list.dispatch h
  case dirs   => exact v.dirs.dispatch (Pc.ne_free hf) h
  case keeps  =>
    obtain hx | hx := h.curenv
    · exact .inl (hx.trans hc.symm)
    · exact .inr (.inl hx)
  case own    =>
    intro e he
    obtain rfl : c = e := Option.some.inj (hc.symm.trans he)
    obtain ⟨hx, -⟩ | ⟨-, hst⟩ := hk
    · exact .inl hx
    · exact .inr (StatusChange.free hst)
  case others => exact fun hj he => v.dispatch_others hpc hc g h hj he
  case active => exact fun ha => .inl ((dispatch_status h).active ha)
  case fits   =>
    intro e he
    obtain ⟨hx, hst⟩ | ⟨hx, -⟩ := hk
    · obtain rfl : c = e := Option.some.inj (hx.symm.trans he)
      cases x <;> exact hst
    · cases hx.symm.trans he
  case next   =>
    intro e he
    cases x <;> cases he
    exact .inr rfl
  case init   => cases x <;> simp [Exit.pc]
  case boots  => cases x <;> simp [Exit.pc, Pc.boots]

end CurInv

theorem Move.of_goto {s₁ : Smp} {pc : Pc} (mv : Move s i s₁.kern (s₁.curenv i) pc) :
    Move s i (s₁.goto i pc).kern ((s₁.goto i pc).curenv i) ((s₁.goto i pc).pc i) := by
  rw [Smp.goto_pc_self]
  exact mv

namespace CurInv

theorem moves (v : CurInv s) (g : Undisturbed s (i, inp)) (h : s.next m i inp = some s') :
    Move s i s'.kern (s'.curenv i) (s'.pc i) := by
  replace h := next_cases h
  cases h
  case i386Init hpc h        =>
    exact Smp.lockKernel_eq h ▸ .of_goto (v.gotoBoot hpc rfl rfl (by simp))
  case bootAps hpc           => exact .of_goto (v.gotoBoot hpc rfl rfl (by simp))
  case bootApsEnd hpc        => exact .of_goto (v.gotoBoot hpc rfl rfl (by simp))
  case startap hpc _ _       => exact .of_goto (v.gotoBoot hpc rfl rfl (by simp))
  case bootApsWait hpc       => exact .of_goto (v.gotoBoot hpc rfl rfl (by simp))
  case envCreates hpc h      => exact .of_goto (v.create hpc h)
  case mpMain hpc            =>
    refine .of_goto ?_
    rw [Smp.setStatus_curenv]
    exact v.goto hpc id rfl
  case mpMainLock hpc h      =>
    exact Smp.lockKernel_eq h ▸ .of_goto (v.goto hpc False.elim rfl)
  case schedYield hpc h      => exact .of_goto (v.gotoRun hpc id (schedYield_some h))
  case schedNone hpc h       =>
    refine .of_goto (v.stay (fun {e} hc => ?_) rfl)
    have hf : (Pc.schedYield).fits (s.kern.status e) := hpc ▸ v.fits hc
    rw [hc] at h
    exact Pc.fits_schedHalt hf (schedYield_none h)
  case schedHalt hpc _       =>
    refine .of_goto ?_
    rw [Smp.setStatus_curenv, Smp.setCurenv_curenv_self]
    exact v.halt hpc
  case noEnvs hpc            => exact .of_goto (v.goto hpc Pc.fits_monitor rfl)
  case schedHaltUnlock hpc h =>
    exact Smp.unlockKernel_eq h ▸ .of_goto (v.goto hpc False.elim rfl)
  case halted hpc _          => exact .of_goto (v.goto hpc False.elim rfl)
  case envRun hpc h          =>
    refine .of_goto ?_
    rw [Smp.setCurenv_curenv_self]
    exact v.run hpc h
  case envRunUnlock hpc h    => exact Smp.unlockKernel_eq h ▸ .of_goto (v.goto hpc .inl rfl)
  case user hpc hu           => exact .of_goto (v.goto hpc (⟨hu, ·⟩) rfl)
  case trapHalted tf hpc hh  =>
    refine .of_goto ?_
    rw [Smp.setStatus_curenv]
    refine v.goto hpc (fun hf => ?_) rfl
    have hm : (Pc.trap tf).halting := hpc ▸ (v.lock.status i).mp hh
    rw [Pc.halting, hf.left] at hm
    cases hm
  case trapStarted hpc _     =>
    refine .of_goto ?_
    rw [Smp.setStatus_curenv]
    exact v.goto hpc id rfl
  case haltedLock hpc h      =>
    exact Smp.lockKernel_eq h ▸ .of_goto (v.goto hpc False.elim rfl)
  case userMode hpc _        => exact .of_goto (v.goto hpc id rfl)
  case kernelMode hpc hu     =>
    exact .of_goto (v.goto hpc (fun hf => absurd hf.left (by simp [hu])) rfl)
  case userLock hpc h        => exact Smp.lockKernel_eq h ▸ .of_goto (v.goto hpc id rfl)
  case zombie hpc hc _ h     =>
    refine .of_goto ?_
    rw [Smp.setCurenv_curenv_self]
    exact v.zombie hpc hc (envFree_freed h)
  case saveTf hpc hc hd      => exact .of_goto (v.saveTf hpc hc hd)
  case breakpoint hpc        =>
    refine .of_goto (v.goto hpc (fun hf => ?_) rfl)
    rw [hf.right]
    exact ⟨by decide, by decide⟩
  case dispatch x hpc _ hc h =>
    have mv := v.dispatch hpc hc g (trapDispatch_effect h)
    cases x
    case ret   => exact .of_goto (hc ▸ mv)
    case sched =>
      refine .of_goto ?_
      rw [Smp.setCurenv_curenv_self]
      exact mv
    case run   => exact .of_goto (hc ▸ mv)
  case spurious hpc hu       =>
    exact .of_goto (v.goto hpc (fun hf => absurd hf.left (by simp [hu])) rfl)
  case timer hpc hu          =>
    exact .of_goto (v.goto hpc (fun hf => absurd hf.left (by simp [hu])) rfl)
  case resume hpc hc _       => exact .of_goto (v.gotoRun hpc id (.inr hc))
  case yield hpc _           => exact .of_goto (v.goto hpc id rfl)

-- What one step preserves.
theorem step (v : CurInv s) (g : Undisturbed s (i, inp)) (h : s.next m i inp = some s') : CurInv s' :=
  v.move h (v.moves g h)

theorem boot {b : Nat} (h : Boot m k) : CurInv (.boot k b) := by
  have hpc {a : Nat} : (Smp.boot k b).pc a = if a = b then .i386Init else .off := rfl
  constructor
  case lock   => exact LockInv.boot
  case list   => exact h.kernInv.envs
  case dirs   => exact ⟨fun he => absurd (boot_status h _) he⟩
  case unique => simp [Smp.boot, Smp.curenv]
  case fits   => simp [Smp.boot, Smp.curenv]
  case next   =>
    intro a e ha
    rw [hpc] at ha
    split at ha <;> cases ha
  case held   =>
    intro e ha
    rw [Smp.boot, boot_status h] at ha
    simp [Active] at ha
  case init   =>
    intro a c ha hc
    rw [hpc] at ha ⊢
    split at ha
    case isFalse    => cases ha
    case isTrue hab => exact if_neg fun hcb => hc (hcb.trans hab.symm)
  case boots  => exact fun _ => rfl

-- What a run preserves.
theorem reachable (r : SmpReachable m Undisturbed s) : CurInv s := by
  obtain ⟨_, _, hb, _, r⟩ := r
  exact r.invariant (boot hb) fun v g h => v.step g h.right

end CurInv

-- How the environments are divided among the CPUs. A CPU that does not hold the lock executes its
-- environment in user mode, or waits for the lock in `trap`.
structure Exclusive (s : Smp) : Prop where
  unique   : ∀ {i j e}, s.curenv i = some e → s.curenv j = some e → i = j
  running  : ∀ {i e}, (s.pc i).locked = false → s.curenv i = some e → s.kern.status e ≠ .runnable
  dispatch : ∀ {i j e}, (s.pc i).locked = false → s.curenv i = some e → j ≠ i →
    schedYield s.kern (s.curenv j) ≠ some e

theorem CurInv.running (v : CurInv s) (hl : (s.pc i).locked = false) (hc : s.curenv i = some e) :
    s.kern.status e ≠ .runnable := by
  intro hr
  have ha := Pc.active_of_fits hl (v.fits hc)
  rw [hr] at ha
  simp [Active] at ha

-- As long as no call writes the status of an environment that another CPU has, no two CPUs run the same.
theorem curenv_exclusive (r : SmpReachable m Undisturbed s) : Exclusive s := by
  have v := CurInv.reachable r
  constructor
  case unique   => exact v.unique
  case running  => exact v.running
  case dispatch =>
    intro i j e hl hc hj hs
    obtain hr | he := schedYield_some hs
    · exact v.running hl hc hr
    · exact hj (v.unique he hc)

namespace Sample

def next (s : Smp) (ev : Nat × Input) : Option Smp :=
  if ev.1 < machine.ncpu then s.next machine ev.1 ev.2 else none

theorem step_next {ev : Nat × Input} (h : next s ev = some s') : SmpStep machine s ev s' := by
  simp only [next] at h
  split at h
  case isTrue hc => exact ⟨hc, h⟩
  case isFalse   => cases h

-- The call leaves the status of `e` alone, or kills it.
def spares (k : State) (tf : Trapframe) (e : EnvPtr) : Bool :=
  tf.tfRegs.regEax ≠ SYS_env_set_status && tf.tfRegs.regEax ≠ SYS_ipc_try_send && k.status e = .running

-- The CPUs of `machine` leave each other's environments alone.
def calm (s : Smp) (ev : Nat × Input) : Bool :=
  match s.pc ev.1 with
  | .trapDispatch tf => (List.range machine.ncpu).all fun j => j = ev.1 || (s.curenv j).all (spares s.kern tf)
  | _                => true

theorem undisturbed_of_calm {ev : Nat × Input} (h : calm s ev)
    (hn : ∀ j ≥ machine.ncpu, s.curenv j = none) : Undisturbed s ev := by
  intro tf c j e hpc _ hj he ⟨_, hr⟩
  by_cases hlt : j < machine.ncpu
  case neg =>
    rw [hn j (Nat.le_of_not_lt hlt)] at he
    cases he
  case pos =>
    simp only [calm, hpc, List.all_eq_true, List.mem_range] at h
    have hs := h j hlt
    simp only [hj, he, decide_false, Bool.false_or, Option.all_some, spares, Bool.and_eq_true,
      decide_eq_true_eq] at hs
    obtain ⟨⟨h₁, h₂⟩, h₃⟩ := hs
    obtain ⟨hno, -⟩ | ⟨hno, -⟩ | ⟨-, hr, -⟩ := hr
    · exact h₁ hno
    · exact h₂ hno
    · exact hr h₃

-- What holds after the given steps, in which the CPUs leave each other's environments alone, holds in
-- some state that the machine reaches.
theorem undisturbed_exec {P : Smp → Prop} [DecidablePred P] (evs : List (Nat × Input))
    (h : (Run.follow next (calm · ·) (.boot boot 0) evs).any (decide <| P ·)) :
    ∃ s, SmpReachable machine Undisturbed s ∧ P s := by
  obtain ⟨s, hs, hp⟩ := (Option.any_eq_true _ _).mp h
  let inv (s : Smp) : Prop :=
    Run (SmpStep machine) Undisturbed (.boot boot 0) s ∧ ∀ j ≥ machine.ncpu, s.curenv j = none
  have hi : inv s := by
    refine (Run.of_follow step_next hs).invariant ⟨.refl, fun _ _ => rfl⟩ fun {t _ _} hi g h => ?_
    refine ⟨hi.left.tail (undisturbed_of_calm g hi.right) h, fun j hj => ?_⟩
    have hne := Nat.ne_of_gt (Nat.lt_of_lt_of_le h.left hj)
    exact (next_curenv_of_ne h.right hne).trans (hi.right j hj)
  exact ⟨s, ⟨_, 0, boot_boot, by decide, hi.left⟩, of_decide_eq_true hp⟩

-- A trap on CPU `i`, up to the point where the CPU is in user mode again, or halted.
def trap (i : Nat) (tf : Trapframe) : List (Nat × Input) := (i, trapped tf) :: List.replicate 8 (i, idle)

-- The file server creates a child, which CPU 1 then runs.
def child : List (Nat × Input) :=
  bootCpus.map (·, idle) ++ (0, { idle with binaries := [(elf, .fs)] }) :: List.replicate 3 (0, idle) ++
    trap 0 (call SYS_exofork 0 0 0 0 0) ++ trap 0 (call SYS_env_set_status 0x1001 ENV_RUNNABLE 0 0 0) ++
    List.replicate 4 (1, idle)

end Sample

-- Both CPUs run an environment.
theorem curenv_exclusive_child : ∃ s, SmpReachable Sample.machine Undisturbed s ∧
    (s.curenv 0 = some Sample.fs ∧ s.curenv 1 = some Sample.user) ∧ Exclusive s := by
  obtain ⟨s, r, hc⟩ := Sample.undisturbed_exec
    (P := fun s => s.curenv 0 = some Sample.fs ∧ s.curenv 1 = some Sample.user) Sample.child
    (by decide +kernel)
  exact ⟨s, r, hc, curenv_exclusive r⟩

-- The file server makes its child runnable again while CPU 1 runs it.
theorem not_curenv_exclusive :
    ¬∀ {m s}, SmpReachable m (fun _ _ => True) s → Exclusive s := by
  intro h
  let evs := Sample.child ++ Sample.trap 0 (Sample.call SYS_env_set_status 0x1001 ENV_RUNNABLE 0 0 0) ++
    Sample.trap 0 Sample.timer.tf
  obtain ⟨s, r, h0, h1⟩ := Sample.smpReachable_exec
    (P := fun s => s.curenv 0 = some Sample.user ∧ s.curenv 1 = some Sample.user) evs (fun _ _ _ => trivial)
    (by decide +kernel)
  cases (h r).unique h0 h1

end Kern

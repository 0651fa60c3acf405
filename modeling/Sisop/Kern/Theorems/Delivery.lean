import Sisop.Kern.Theorems.Curenv
import Sisop.Kern.Theorems.IpcCalls

-- The messages that an environment receives.

namespace Kern

open Inc Function Library

variable {m : Machine} {k k' : State} {s s' : Smp} {i : Nat} {c e : EnvPtr} {x : Exit} {tf : Trapframe}
  {inp : Input} {ev : Nat × Input} {getc : Word}

-- The receiver has called `sys_ipc_recv` and has not returned from it.
def outstanding (log : List IpcEvent) : Bool :=
  match log.getLast? with
  | some (.ask _) | some (.send ..) => true
  | _                               => false

-- The machine, with what has concerned `e` since its slot was allocated.
structure Observed where
  smp : Smp
  log : List IpcEvent

namespace Observed

variable (m : Machine) (e : EnvPtr) (t : Observed) (ev : Nat × Input)

def event : Option IpcEvent :=
  match t.smp.pc ev.1 with
  | .trapDispatch tf => (t.smp.curenv ev.1).bind (ipcCall m t.smp.kern · e tf)
  | .envRun y        =>
    if y = e ∧ outstanding t.log then some (.wake (t.smp.kern.envs e).envTf) else none
  | _                => none

def logAfter (s' : Smp) : List IpcEvent :=
  if s'.kern.status e = .free then [] else t.log ++ (t.event m e ev).toList

def Step (t' : Observed) : Prop :=
  SmpStep m t.smp ev t'.smp ∧ t'.log = t.logAfter m e ev t'.smp

def Reachable (guard : Smp → Nat × Input → Prop) (t : Observed) : Prop :=
  ∃ k b, Boot m k ∧ b < m.ncpu ∧ Run (Step m e) (fun t ev => guard t.smp ev) ⟨.boot k b, []⟩ t

end Observed

-- A message that has been received.
structure Round where
  ask : Trapframe
  sender : Word
  value : Word

-- `sys_ipc_recv` returns 0.
def Round.events (r : Round) : List IpcEvent :=
  [.ask r.ask, .send r.sender r.value, .wake (r.ask.setEax 0#32)]

inductive Pending
  | idle
  | asked (tf : Trapframe)
  | sent (tf : Trapframe) (sender value : Word)

def Pending.events : Pending → List IpcEvent
  | idle                 => []
  | asked tf             => [.ask tf]
  | sent tf sender value => [.ask tf, .send sender value]

-- What the kernel has of a receiver, after the given rounds.
inductive Phase (k : State) (e : EnvPtr) (rounds : List Round) : Pending → Prop
  | idle (hr : (k.envs e).envIpcRecving = false)
    (hm : ∀ r ∈ rounds.getLast?, (k.envs e).envIpcFrom = r.sender ∧ (k.envs e).envIpcValue = r.value) :
    Phase k e rounds .idle
  | asked {f : Trapframe} (hr : (k.envs e).envIpcRecving) (hs : k.status e = .notRunnable)
    (hf : (k.envs e).envTf = f.setEax 0#32) : Phase k e rounds (.asked f)
  | sent {f : Trapframe} {sender value : Word} (hr : (k.envs e).envIpcRecving = false)
    (hs : k.status e = .runnable ∨ k.status e = .notRunnable)
    (hm : (k.envs e).envIpcFrom = sender ∧ (k.envs e).envIpcValue = value)
    (hf : (k.envs e).envTf = f.setEax 0#32) : Phase k e rounds (.sent f sender value)

-- The log consists of rounds, and the last one may not be over.
def Rounds (k : State) (e : EnvPtr) (log : List IpcEvent) : Prop :=
  ∃ (rounds : List Round) (p : Pending), log = rounds.flatMap Round.events ++ p.events ∧ Phase k e rounds p

theorem outstanding_rounds {rounds : List Round} : outstanding (rounds.flatMap Round.events) = false := by
  obtain rfl | ⟨rounds', r, rfl⟩ := rounds.eq_nil_or_concat
  · rfl
  · simp [outstanding, Round.events]

theorem outstanding_sent {log : List IpcEvent} {sender value : Word} :
    outstanding (log ++ (Pending.sent tf sender value).events) = true := by
  simp [outstanding, Pending.events]

namespace Rounds

variable {log : List IpcEvent}

-- Nothing happens to `e`.
theorem same (h : Rounds k e log) (hi : SameIpc (k.envs e) (k'.envs e))
    (hf : (k'.envs e).envTf = (k.envs e).envTf) (hs : k'.status e = k.status e) : Rounds k' e log := by
  obtain ⟨rounds, p, hl, h⟩ := h
  refine ⟨rounds, p, hl, ?_⟩
  cases h
  case idle hr hm       => exact .idle (hi.recving.trans hr) (by rw [hi.sender, hi.value]; exact hm)
  case asked hr hst ht  => exact .asked (hi.recving.trans hr) (hs.trans hst) (hf.trans ht)
  case sent hr hst hm ht =>
    exact .sent (hi.recving.trans hr) (hs ▸ hst) (by rw [hi.sender, hi.value]; exact hm) (hf.trans ht)

theorem of_envs (h : Rounds k e log) (he : k'.envs e = k.envs e) : Rounds k' e log :=
  h.same (he ▸ .refl) (he ▸ rfl) (congrArg Env.envStatus he)

-- An environment that a CPU has is not in `sys_ipc_recv`.
theorem idle_of_active (h : Rounds k e log) (ha : Active (k.status e)) :
    (k.envs e).envIpcRecving = false ∧ ∃ rounds : List Round, log = rounds.flatMap Round.events ∧
      ∀ r ∈ rounds.getLast?, (k.envs e).envIpcFrom = r.sender ∧ (k.envs e).envIpcValue = r.value := by
  obtain ⟨rounds, p, hl, h⟩ := h
  cases h
  case idle hr hm      => exact ⟨hr, rounds, by rw [hl, Pending.events, List.append_nil], hm⟩
  case asked _ hst _   =>
    rw [hst] at ha
    simp [Active] at ha
  case sent _ hst _ _  =>
    obtain hst | hst := hst <;> rw [hst] at ha <;> simp [Active] at ha

theorem active (h : Rounds k e log) (ha : Active (k.status e)) (hi : SameIpc (k.envs e) (k'.envs e)) :
    Rounds k' e log := by
  obtain ⟨hr, rounds, hl, hm⟩ := h.idle_of_active ha
  refine ⟨rounds, .idle, by rw [hl, Pending.events, List.append_nil], .idle (hi.recving.trans hr) ?_⟩
  rw [hi.sender, hi.value]
  exact hm

theorem nil (hr : (k.envs e).envIpcRecving = false) : Rounds k e [] :=
  ⟨[], .idle, rfl, .idle hr (by simp)⟩

theorem ask (h : Rounds k e log) (hc : k.status e = .running) (hf : (k.envs e).envTf = tf)
    (hk : k' = k.setEnv e { k.envs e with
      envIpcRecving := true
      envIpcDstva := tf.tfRegs.regEdx
      envStatus := .notRunnable
      envTf := (k.envs e).envTf.setEax 0#32 }) : Rounds k' e (log ++ [.ask tf]) := by
  obtain ⟨-, rounds, hl, -⟩ := h.idle_of_active (.inl hc)
  have he : k'.envs e = _ := hk ▸ State.setEnv_envs_self ..
  refine ⟨rounds, .asked tf, by rw [hl]; rfl, .asked ?_ ?_ ?_⟩
  · rw [he]
  · rw [State.status, he]
  · rw [he, hf]

theorem send {value perm : Word} {v : Env} (h : Rounds k e log)
    (hr : (k.envs e).envIpcRecving) (hk : k'.envs e = deliver (k.envs e) v value perm) :
    Rounds k' e (log ++ [.send v.envId value]) := by
  obtain ⟨rounds, p, hl, h⟩ := h
  cases h
  case idle hn _         => exact absurd (hn.symm.trans hr) (by decide)
  case sent hn _ _ _     => exact absurd (hn.symm.trans hr) (by decide)
  case asked tf _ hst ht =>
    refine ⟨rounds, .sent tf v.envId value, by rw [hl, List.append_assoc]; rfl, .sent ?_ ?_ ?_ ?_⟩
    · rw [hk, deliver]
    · rw [State.status, hk, deliver]
      exact .inl rfl
    · rw [hk, deliver]
      exact ⟨rfl, rfl⟩
    · rw [hk, deliver]
      exact ht

-- `env_run` of `e`.
theorem wake (h : Rounds k e log) (hs : k.status e = .runnable ∨ k.status e = .running)
    (hi : SameIpc (k.envs e) (k'.envs e)) :
    Rounds k' e (log ++ (if outstanding log then some (.wake (k.envs e).envTf) else none).toList) := by
  obtain ⟨rounds, p, hl, h⟩ := h
  cases h
  case idle hr hm       =>
    rw [Pending.events, List.append_nil] at hl
    rw [hl, outstanding_rounds]
    refine ⟨rounds, .idle, rfl, .idle (hi.recving.trans hr) ?_⟩
    rw [hi.sender, hi.value]
    exact hm
  case asked _ hst _    =>
    rw [hst] at hs
    simp at hs
  case sent f sender value hr _ hm hf =>
    rw [hl, outstanding_sent, if_pos rfl, hf]
    refine ⟨rounds ++ [⟨f, sender, value⟩], .idle, ?_, .idle (hi.recving.trans hr) ?_⟩
    · simp [Round.events, Pending.events]
    · rw [hi.sender, hi.value]
      simpa using hm

theorem setStatus (h : Rounds k e log) (hr : (k.envs e).envIpcRecving = false)
    (hi : SameIpc (k.envs e) (k'.envs e)) (hf : (k'.envs e).envTf = (k.envs e).envTf)
    (hs : k'.status e = .runnable ∨ k'.status e = .notRunnable) : Rounds k' e log := by
  obtain ⟨rounds, p, hl, h⟩ := h
  refine ⟨rounds, p, hl, ?_⟩
  cases h
  case idle hm       => exact .idle (hi.recving.trans hr) (by rw [hi.sender, hi.value]; exact hm)
  case asked hr' _ _ => exact absurd (hr.symm.trans hr') (by decide)
  case sent _ _ hm ht =>
    exact .sent (hi.recving.trans hr) hs (by rw [hi.sender, hi.value]; exact hm) (hf.trans ht)

-- A trap of `c` from user mode.
theorem dispatch (l : EnvList k) (d : LiveDirs k) (hc : k.status c = .running) (hf : (k.envs c).envTf = tf)
    (h₀ : k.status e = .free → log = []) (h : k.status e ≠ .free → Rounds k e log)
    (hb : SetsStatus k c e tf → (k.envs e).envIpcRecving = false) (hx : trapDispatch m k c getc tf = some x)
    (hne : x.state.status e ≠ .free) : Rounds x.state e (log ++ (ipcCall m k c e tf).toList) := by
  have hlive {perm : Bool} {envid : Word} (he : envid2env k c envid perm = .ok e) : k.status e ≠ .free := by
    obtain he | he := envid2env_live he
    · rw [he, hc]
      decide
    · exact he
  have hspec := ipcCall_spec (e := e) hx
  generalize ipcCall m k c e tf = o at hspec
  cases hspec
  case ask hce hx =>
    subst hce
    exact (h (by rw [hc]; decide)).ask hc hf hx
  case send k₁ perm hs hr hk hx =>
    have hr' := h (hlive hs.right.right)
    have hce : e ≠ c := by
      intro hce
      have := (hr'.idle_of_active (.inl (hce ▸ hc))).left
      rw [hr] at this
      cases this
    have he : x.state.envs e = deliver (k.envs e) (k.envs c) tf.tfRegs.regEcx perm := by
      rw [hx]
      exact (State.setEnv_envs_of_ne hce).trans (State.setEnv_envs_self ..)
    exact hr'.send hr he
  case other t =>
    rw [Option.toList_none, List.append_nil]
    cases t
    case own hce hi            => exact (h (by rw [← hce, hc]; decide)).active (.inl (hce ▸ hc)) hi
    case same hi ht hs         => exact (h (hs ▸ hne)).same hi ht hs
    case dying hr hi _         => exact (h (by rw [hr]; decide)).active (.inl hr) hi
    case freed hs              => exact absurd hs hne
    case new hl hr             =>
      have he : k.status e = .free := by
        by_contra he
        exact d.pgdir he (l.head_pgdir hl)
      rw [h₀ he]
      exact nil hr
    case setStatus hs hi ht hst => exact (h (hlive hs.right.right)).setStatus (hb hs) hi ht hst

end Rounds

-- What `trap_dispatch` and `env_run` find.
structure TrapInv (s : Smp) : Prop where
  frame : ∀ {i tf c}, s.pc i = .trapDispatch tf → s.curenv i = some c → (s.kern.envs c).envTf = tf
  ready : ∀ {i y}, s.pc i = .envRun y → s.kern.status y = .runnable ∨ s.kern.status y = .running

namespace TrapInv

theorem schedYield_ready {cur : Option EnvPtr} {y : EnvPtr} (h : schedYield k cur = some y) :
    k.status y = .runnable ∨ k.status y = .running := by
  unfold schedYield at h
  split at h
  case h_1 idle hf =>
    have hp := List.find?_some hf
    obtain rfl : idle = y := Option.some.inj h
    exact .inl (of_decide_eq_true hp)
  case h_2 => exact .inr (of_decide_eq_true (Option.filter_eq_some_iff.mp h).right)

theorem destroyed_ne_run (h : Destroyed k c e x) : x ≠ .run k' := by
  cases h
  case dying => simp
  case freed => split <;> simp

theorem syscall_ne_run {no a1 a2 a3 a4 : Word} (h : SyscallEffect m k c no a1 a2 a3 a4 x) :
    x ≠ .run k' := by
  cases h
  case exit h    => exact destroyed_ne_run h
  case destroy h => exact destroyed_ne_run h
  all_goals simp

-- A trap that goes on with `env_run` leaves the status of its environment alone.
theorem dispatch_run (h : DispatchEffect m k c tf x) (hx : x = .run k') : k'.status = k.status := by
  cases h
  case exit h     => exact absurd hx (destroyed_ne_run h)
  case call y _ h =>
    cases y
    case ret   => cases hx
    case sched => cases hx
    case run   => exact absurd rfl (syscall_ne_run h)
  case upcall     =>
    cases hx
    refine status_setEnv_self ?_
    rfl
  case resume     => cases hx
  case timer      => cases hx

theorem boot {b : Nat} : TrapInv (.boot k b) := by
  have hpc {a : Nat} : (Smp.boot k b).pc a = if a = b then .i386Init else .off := rfl
  constructor
  case frame =>
    intro a f c ha
    rw [hpc] at ha
    split at ha <;> cases ha
  case ready =>
    intro a y ha
    rw [hpc] at ha
    split at ha <;> cases ha

theorem next_frame (v : CurInv s) (g : Undisturbed s (i, inp)) (h : s.next m i inp = some s')
    (hp : s'.pc i = .trapDispatch tf) (hc : s'.curenv i = some c) : (s'.kern.envs c).envTf = tf := by
  have hf : (Pc.trapDispatch tf).fits (s'.kern.status c) := hp ▸ (v.step g h).fits hc
  replace h := next_cases h
  cases h
  case kernelMode f hpc hu =>
    rw [Smp.goto_pc_self] at hp
    cases hp
    exact absurd hf.left (by simp [hu])
  case saveTf f y hpc hy hd =>
    rw [Smp.goto_pc_self] at hp
    cases hp
    obtain rfl : y = c := Option.some.inj (hy.symm.trans hc)
    exact congrArg Env.envTf (State.setEnv_envs_self ..)
  case i386Init h        => rw [Smp.lockKernel_eq h, Smp.goto_pc_self] at hp; cases hp
  case mpMainLock h      => rw [Smp.lockKernel_eq h, Smp.goto_pc_self] at hp; cases hp
  case haltedLock h      => rw [Smp.lockKernel_eq h, Smp.goto_pc_self] at hp; cases hp
  case userLock h        => rw [Smp.lockKernel_eq h, Smp.goto_pc_self] at hp; cases hp
  case schedHaltUnlock h => rw [Smp.unlockKernel_eq h, Smp.goto_pc_self] at hp; cases hp
  case envRunUnlock h    => rw [Smp.unlockKernel_eq h, Smp.goto_pc_self] at hp; cases hp
  case dispatch x _ _ _ _ => cases x <;> rw [Smp.resume, Smp.goto_pc_self] at hp <;> cases hp
  all_goals (rw [Smp.goto_pc_self] at hp; cases hp)

theorem next_ready {y : EnvPtr} (v : CurInv s) (h : s.next m i inp = some s') (hp : s'.pc i = .envRun y) :
    s'.kern.status y = .runnable ∨ s'.kern.status y = .running := by
  replace h := next_cases h
  cases h
  case schedYield hpc h  =>
    rw [Smp.goto_pc_self] at hp
    cases hp
    exact schedYield_ready h
  case resume hpc hc hr  =>
    rw [Smp.goto_pc_self] at hp
    cases hp
    exact .inr hr
  case dispatch f c x hpc hu hc h =>
    have hf : (Pc.trapDispatch f).fits (s.kern.status c) := hpc ▸ v.fits hc
    cases x
    case ret   => rw [Smp.resume, Smp.goto_pc_self] at hp; cases hp
    case sched => rw [Smp.resume, Smp.goto_pc_self] at hp; cases hp
    case run k =>
      rw [Smp.resume, Smp.goto_pc_self] at hp
      cases hp
      exact .inr ((congrFun (dispatch_run (trapDispatch_effect h) rfl) _).trans hf.right)
  case i386Init h        => rw [Smp.lockKernel_eq h, Smp.goto_pc_self] at hp; cases hp
  case mpMainLock h      => rw [Smp.lockKernel_eq h, Smp.goto_pc_self] at hp; cases hp
  case haltedLock h      => rw [Smp.lockKernel_eq h, Smp.goto_pc_self] at hp; cases hp
  case userLock h        => rw [Smp.lockKernel_eq h, Smp.goto_pc_self] at hp; cases hp
  case schedHaltUnlock h => rw [Smp.unlockKernel_eq h, Smp.goto_pc_self] at hp; cases hp
  case envRunUnlock h    => rw [Smp.unlockKernel_eq h, Smp.goto_pc_self] at hp; cases hp
  all_goals (rw [Smp.goto_pc_self] at hp; cases hp)

theorem step (v : CurInv s) (g : Undisturbed s (i, inp)) (f : TrapInv s) (h : s.next m i inp = some s') :
    TrapInv s' := by
  have hkern {a : Nat} (ha : a ≠ i) (hl : (s.pc a).locked) : s'.kern = s.kern := by
    refine (v.moves g h).kern.resolve_right fun hi => ha ?_
    rw [← v.lock.holding] at hl hi
    exact Spinlock.holding_unique hl hi
  have hpc {a : Nat} {pc : Pc} (ha : a ≠ i) (hp : s'.pc a = pc) (hm : pc ≠ .mpMain) : s.pc a = pc := by
    obtain hpc | ⟨-, hpc⟩ := next_pc_of_ne h ha
    · exact hpc ▸ hp
    · exact absurd (hp.symm.trans hpc) hm
  constructor
  case frame =>
    intro a tf c hp hc
    by_cases ha : a = i
    case pos => exact next_frame v g h (ha ▸ hp) (ha ▸ hc)
    case neg =>
      have hp := hpc ha hp (by simp)
      rw [hkern ha (by rw [hp]; rfl)]
      exact f.frame hp ((next_curenv_of_ne h ha) ▸ hc)
  case ready =>
    intro a y hp
    by_cases ha : a = i
    case pos => exact next_ready v h (ha ▸ hp)
    case neg =>
      have hp := hpc ha hp (by simp)
      rw [hkern ha (by rw [hp]; rfl)]
      exact f.ready hp

end TrapInv

-- No call of `sys_env_set_status` for `e` while `e` is blocked in `sys_ipc_recv`.
def LeavesBlocked (e : EnvPtr) (s : Smp) (ev : Nat × Input) : Prop :=
  ∀ tf c, s.pc ev.1 = .trapDispatch tf → s.curenv ev.1 = some c → SetsStatus s.kern c e tf →
    (s.kern.envs e).envIpcRecving = false

-- What holds in all runs without such calls in which the CPUs leave each other's environments alone.
structure Delivered (e : EnvPtr) (t : Observed) : Prop where
  cur    : CurInv t.smp
  trap   : TrapInv t.smp
  fresh  : t.smp.kern.status e = .free → t.log = []
  rounds : t.smp.kern.status e ≠ .free → Rounds t.smp.kern e t.log

namespace Delivered

variable {t t' : Observed}

theorem boot {b : Nat} (h : Boot m k) : Delivered e ⟨.boot k b, []⟩ :=
  ⟨.boot h, .boot, fun _ => rfl, fun he => absurd (boot_status h e) he⟩

-- The trap that a CPU dispatches.
theorem next_dispatch (v : CurInv s) (hpc : s.pc i = .trapDispatch tf) (h : s.next m i inp = some s') :
    s'.kern = s.kern ∧ (s.curenv i).bind (ipcCall m s.kern · e tf) = none ∨
      ∃ c x, s.curenv i = some c ∧ trapDispatch m s.kern c inp.getc tf = some x ∧ s'.kern = x.state := by
  cases hc : s.curenv i
  case none =>
    refine .inl ⟨?_, rfl⟩
    simp only [Smp.next, hpc, hc] at h
    split at h
    case isTrue  => cases h
    case isFalse => split_ifs at h <;> cases h <;> rfl
  case some c =>
    have hf : (Pc.trapDispatch tf).fits (s.kern.status c) := hpc ▸ v.fits hc
    simp only [Smp.next, hpc, hf.left, if_true, hc, Option.bind_eq_bind, Option.bind_some] at h
    split at h
    case isTrue hb =>
      cases h
      refine .inl ⟨rfl, ?_⟩
      have hn : tf.tfTrapno ≠ T_SYSCALL := by
        rw [hb]
        decide
      rw [Option.bind_some, ipcCall, if_neg fun hc => hn hc.left.left, if_neg fun hc => hn hc.left.left]
    case isFalse =>
      obtain ⟨x, hx, h⟩ := Option.bind_eq_some_iff.mp h
      cases h
      refine .inr ⟨c, x, rfl, hx, ?_⟩
      cases x <;> rfl

-- The steps that are neither traps nor `env_run`.
theorem rounds_other {o : Option EnvPtr} (d : Delivered e t) (hk : KernStep m t.smp i inp k' o)
    (ht : ∀ tf, t.smp.pc i ≠ .trapDispatch tf) (hr : ∀ y, t.smp.pc i ≠ .envRun y)
    (hne : k'.status e ≠ .free) : Rounds k' e t.log := by
  have hsame (he : k'.envs e = t.smp.kern.envs e) : Rounds k' e t.log := by
    have hs : k'.status e = t.smp.kern.status e := congrArg Env.envStatus he
    exact (d.rounds (hs ▸ hne)).of_envs he
  cases hk
  case same                => exact d.rounds hne
  case halt                => exact d.rounds hne
  case create hpc h        =>
    obtain he | ⟨hp, hr⟩ := envCreates_env d.cur.list h
    · exact hsame he
    · have hf : t.smp.kern.status e = .free := by
        by_contra hf
        exact d.cur.dirs.pgdir hf hp
      rw [d.fresh hf]
      exact .nil hr
  case run hpc _           => exact absurd hpc (hr _)
  case dispatch hpc _ _    => exact absurd hpc (ht _)
  case zombie y hpc hc hd h =>
    by_cases he : e = y
    case pos =>
      rw [h.status, he, update_self] at hne
      exact absurd rfl hne
    case neg => exact hsame (by rw [h.envs, update_of_ne he])
  case saveTf f y hpc hc hd =>
    by_cases he : e = y
    case pos =>
      subst he
      have hf : (Pc.trapZombie f).fits (t.smp.kern.status e) := hpc ▸ d.cur.fits hc
      refine (d.rounds (Pc.ne_free hf)).active hf.right ?_
      rw [State.saveTf, State.setEnv_envs_self]
      exact ⟨rfl, rfl, rfl, rfl, rfl⟩
    case neg => exact hsame (State.setEnv_envs_of_ne he)

theorem rounds_run {y : EnvPtr} (d : Delivered e t) (hpc : t.smp.pc i = .envRun y)
    (h : envRun t.smp.kern (t.smp.curenv i) y i = some k') (hne : k'.status e ≠ .free) :
    Rounds k' e (t.log ++ (t.event m e (i, inp)).toList) := by
  obtain ⟨hi, hf⟩ := envRun_env (e := e) h
  obtain ⟨-, hst⟩ := envRun_spec d.cur.list h
  have hev : t.event m e (i, inp) =
      if y = e ∧ outstanding t.log then some (.wake (t.smp.kern.envs e).envTf) else none := by
    rw [Observed.event, hpc]
  by_cases he : y = e
  case pos =>
    subst he
    have hs := d.trap.ready hpc
    have hr := d.rounds (by obtain hs | hs := hs <;> rw [hs] <;> decide)
    simp only [hev, true_and]
    exact hr.wake hs hi
  case neg =>
    rw [hev, if_neg fun hc => he hc.left, Option.toList_none, List.append_nil]
    rw [hst, update_of_ne (Ne.symm he)] at hne
    obtain hs | ⟨-, hs, -⟩ := @status_preempt t.smp.kern e (t.smp.curenv i)
    · refine (d.rounds (hs ▸ hne)).same hi hf ?_
      rw [hst, update_of_ne (Ne.symm he), hs]
    · exact (d.rounds (by rw [hs]; decide)).active (.inl hs) hi

theorem rounds_dispatch (d : Delivered e t) (g : LeavesBlocked e t.smp (i, inp))
    (hpc : t.smp.pc i = .trapDispatch tf) (h : t.smp.next m i inp = some s')
    (hne : s'.kern.status e ≠ .free) : Rounds s'.kern e (t.log ++ (t.event m e (i, inp)).toList) := by
  have he : t.event m e (i, inp) = (t.smp.curenv i).bind (ipcCall m t.smp.kern · e tf) := by
    rw [Observed.event, hpc]
  rw [he]
  obtain ⟨hk, ho⟩ | ⟨c, x, hc, hx, hk⟩ := next_dispatch (e := e) d.cur hpc h
  · rw [ho, Option.toList_none, List.append_nil, hk]
    exact d.rounds (hk ▸ hne)
  · have hf : (Pc.trapDispatch tf).fits (t.smp.kern.status c) := hpc ▸ d.cur.fits hc
    rw [hk] at hne ⊢
    rw [hc, Option.bind_some]
    exact Rounds.dispatch d.cur.list d.cur.dirs hf.right (d.trap.frame hpc hc) d.fresh d.rounds
      (g tf c hpc hc) hx hne

-- What one step preserves.
theorem step (d : Delivered e t) (g : Undisturbed t.smp ev ∧ LeavesBlocked e t.smp ev)
    (h : Observed.Step m e t ev t') : Delivered e t' := by
  obtain ⟨i, inp⟩ := ev
  obtain ⟨⟨-, h⟩, hl⟩ := h
  constructor
  case cur    => exact d.cur.step g.left h
  case trap   => exact TrapInv.step d.cur g.left d.trap h
  case fresh  =>
    intro he
    rw [hl, Observed.logAfter, if_pos he]
  case rounds =>
    intro hne
    rw [hl, Observed.logAfter, if_neg hne]
    by_cases ht : ∃ tf, t.smp.pc i = .trapDispatch tf
    case pos =>
      obtain ⟨tf, hpc⟩ := ht
      exact d.rounds_dispatch g.right hpc h hne
    by_cases hr : ∃ y, t.smp.pc i = .envRun y
    case pos =>
      obtain ⟨y, hpc⟩ := hr
      simp only [Smp.next, hpc, Option.bind_eq_bind, Option.bind_eq_some_iff, Option.some.injEq] at h
      obtain ⟨k', hk, hs⟩ := h
      have hkern : t'.smp.kern = k' := hs ▸ rfl
      rw [hkern] at hne ⊢
      exact d.rounds_run hpc hk hne
    case neg =>
      have ht (tf : Trapframe) : t.smp.pc i ≠ .trapDispatch tf := fun hpc => ht ⟨tf, hpc⟩
      have hr (y : EnvPtr) : t.smp.pc i ≠ .envRun y := fun hpc => hr ⟨y, hpc⟩
      have he : t.event m e (i, inp) = none := by
        rw [Observed.event]
        split
        case h_1 tf hpc => exact absurd hpc (ht tf)
        case h_2 y hpc  => exact absurd hpc (hr y)
        case h_3        => rfl
      rw [he, Option.toList_none, List.append_nil]
      exact d.rounds_other (next_kern h) ht hr hne

-- What a run preserves.
theorem reachable (r : Observed.Reachable m e (fun s ev => Undisturbed s ev ∧ LeavesBlocked e s ev) t) :
    Delivered e t := by
  obtain ⟨_, _, hb, _, r⟩ := r
  exact r.invariant (boot hb) fun d g h => d.step g h

end Delivered

-- How messages reach `e`: in rounds, each of which has one call of `sys_ipc_recv`, one call of
-- `sys_ipc_try_send` that returns 0, and one return from `sys_ipc_recv`.
structure ExactlyOnce (m : Machine) (e : EnvPtr) (t : Observed) : Prop where
  rounds : t.smp.kern.status e ≠ .free → Rounds t.smp.kern e t.log
  failed : ∀ {i inp tf c s'}, t.smp.pc i = .trapDispatch tf → t.smp.curenv i = some c →
    tf.tfTrapno = T_SYSCALL → tf.tfRegs.regEax = SYS_ipc_try_send →
    (sendResult m t.smp.kern c tf).any (·.returns 0#32) = false → SmpStep m t.smp (i, inp) s' →
      SameIpc (t.smp.kern.envs e) (s'.kern.envs e)

-- As long as no call writes the status of an environment that another CPU has, or that is blocked,
-- messages are delivered exactly once.
theorem ipc_exactly_once {t : Observed}
    (r : Observed.Reachable m e (fun s ev => Undisturbed s ev ∧ LeavesBlocked e s ev) t) :
    ExactlyOnce m e t := by
  have d := Delivered.reachable r
  refine ⟨d.rounds, fun {i inp tf c s'} hpc hc hn hno hr h => ?_⟩
  obtain ⟨hk, -⟩ | ⟨c', x, hc', hx, hk⟩ := Delivered.next_dispatch (e := e) d.cur hpc h.right
  · exact hk ▸ .refl
  · obtain rfl : c = c' := Option.some.inj (hc.symm.trans hc')
    exact hk ▸ trapDispatch_sameIpc hn hno hr hx

namespace Sample

def observe (e : EnvPtr) (t : Observed) (ev : Nat × Input) : Option Observed :=
  (next t.smp ev).map fun s' => ⟨s', t.logAfter machine e ev s'⟩

theorem step_observe {t t' : Observed} (h : observe e t ev = some t') : Observed.Step machine e t ev t' := by
  obtain ⟨s', hs, rfl⟩ := Option.map_eq_some_iff.mp h
  exact ⟨step_next hs, rfl⟩

-- A trap leaves the status of `e` alone while `e` is blocked.
def leaves (e : EnvPtr) (s : Smp) (ev : Nat × Input) : Bool :=
  match s.pc ev.1 with
  | .trapDispatch tf => tf.tfRegs.regEax ≠ SYS_env_set_status || !(s.kern.envs e).envIpcRecving
  | _                => true

theorem leavesBlocked_of_leaves (h : leaves e s ev) : LeavesBlocked e s ev := by
  intro tf c hpc _ hs
  simpa [leaves, hpc, hs.right.left] using h

-- What holds after the given steps, in which the CPUs leave each other's environments alone, holds in
-- some state that the machine reaches.
theorem delivered_exec {P : Observed → Prop} [DecidablePred P] (evs : List (Nat × Input))
    (h : (Run.follow (observe e) (fun t ev => calm t.smp ev && leaves e t.smp ev)
      ⟨.boot boot 0, []⟩ evs).any (decide <| P ·)) :
    ∃ t, Observed.Reachable machine e (fun s ev => Undisturbed s ev ∧ LeavesBlocked e s ev) t ∧ P t := by
  obtain ⟨t, ht, hp⟩ := (Option.any_eq_true _ _).mp h
  let guard (t : Observed) (ev : Nat × Input) : Prop := Undisturbed t.smp ev ∧ LeavesBlocked e t.smp ev
  let inv (t : Observed) : Prop :=
    Run (Observed.Step machine e) guard ⟨.boot boot 0, []⟩ t ∧
      ∀ j ≥ machine.ncpu, t.smp.curenv j = none
  have hi : inv t := by
    refine (Run.of_follow step_observe ht).invariant ⟨.refl, fun _ _ => rfl⟩ fun {t _ _} hi g h => ?_
    obtain ⟨gc, gl⟩ := Bool.and_eq_true_iff.mp g
    have g := And.intro (undisturbed_of_calm gc hi.right) (leavesBlocked_of_leaves gl)
    refine ⟨hi.left.tail g h, fun j hj => ?_⟩
    have hne := Nat.ne_of_gt (Nat.lt_of_lt_of_le h.left.left hj)
    exact (next_curenv_of_ne h.left.right hne).trans (hi.right j hj)
  exact ⟨t, ⟨_, 0, boot_boot, by decide, hi.left⟩, of_decide_eq_true hp⟩

end Sample

-- The child waits for a message and gets one from the file server.
theorem ipc_exactly_once_child : ∃ t, Observed.Reachable Sample.machine Sample.user
    (fun s ev => Undisturbed s ev ∧ LeavesBlocked Sample.user s ev) t ∧
      (t.log.length = 3 ∧ (t.smp.kern.envs Sample.user).envIpcFrom = 0x1000#32 ∧
        (t.smp.kern.envs Sample.user).envIpcValue = 7#32) ∧ ExactlyOnce Sample.machine Sample.user t := by
  obtain ⟨t, r, hp⟩ := Sample.delivered_exec (e := Sample.user)
    (P := fun t => t.log.length = 3 ∧ (t.smp.kern.envs Sample.user).envIpcFrom = 0x1000#32 ∧
      (t.smp.kern.envs Sample.user).envIpcValue = 7#32)
    (Sample.child ++ Sample.trap 1 (Sample.call SYS_ipc_recv UTOP 0 0 0 0) ++
      Sample.trap 0 (Sample.call SYS_ipc_try_send 0x1001 7 UTOP 0 0) ++ Sample.trap 0 Sample.timer.tf)
    (by decide +kernel)
  exact ⟨t, r, hp, ipc_exactly_once r⟩

-- `sys_ipc_recv` returns nothing but 0.
theorem Rounds.wake_eax {log : List IpcEvent} (h : Rounds k e log) (hw : .wake tf ∈ log) :
    tf.tfRegs.regEax = 0#32 := by
  obtain ⟨rounds, p, rfl, -⟩ := h
  obtain hw | hw := List.mem_append.mp hw
  · obtain ⟨r, -, hr⟩ := List.mem_flatMap.mp hw
    simp only [Round.events, List.mem_cons, reduceCtorEq, IpcEvent.wake.injEq, List.not_mem_nil,
      or_false, false_or] at hr
    rw [hr]
    rfl
  · cases p <;> simp [Pending.events] at hw

-- The child runs on both CPUs. On one it waits for a message, on the other it goes on; then it gets the
-- message and goes on there once more.
theorem not_ipc_exactly_once :
    ¬∀ {m e t}, Observed.Reachable m e (LeavesBlocked e) t → ExactlyOnce m e t := by
  intro h
  let busy : Trapframe := { Sample.timer.tf with tfRegs := (Sample.call 5 0 0 0 0 0).tfRegs }
  let evs := Sample.child ++ Sample.trap 0 (Sample.call SYS_env_set_status 0x1001 ENV_RUNNABLE 0 0 0) ++
    Sample.trap 0 Sample.timer.tf ++ Sample.trap 1 (Sample.call SYS_ipc_recv UTOP 0 0 0 0) ++
    Sample.trap 0 busy ++ Sample.trap 1 (Sample.call SYS_ipc_try_send 0x1001 7 UTOP 0 0) ++
    Sample.trap 1 Sample.timer.tf
  have hrun : (Run.follow (Sample.observe Sample.user) (fun t ev => Sample.leaves Sample.user t.smp ev)
      ⟨.boot Sample.boot 0, []⟩ evs).any fun t => t.smp.kern.status Sample.user ≠ .free ∧
        .wake { busy with tfCs := 0x1B#16 } ∈ t.log := by
    decide +kernel
  obtain ⟨t, ht, hp⟩ := (Option.any_eq_true _ _).mp hrun
  obtain ⟨hne, hw⟩ := of_decide_eq_true hp
  have r : Observed.Reachable Sample.machine Sample.user (LeavesBlocked Sample.user) t :=
    ⟨_, 0, Sample.boot_boot, by decide,
      (Run.of_follow Sample.step_observe ht).weaken Sample.leavesBlocked_of_leaves⟩
  exact absurd (((h r).rounds hne).wake_eax hw) (by decide)

end Kern

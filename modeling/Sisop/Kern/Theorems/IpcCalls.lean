import Sisop.Kern.Theorems.Ipc
import Sisop.Kern.Theorems.Status

-- What a trap does to the fields for messages.

namespace Kern

open Inc Function Library

variable {m : Machine} {k k' : State} {c e e' : EnvPtr} {x y : Exit} {tf : Trapframe} {w : Env} {getc : Word}

-- What concerns a receiver: its call of `sys_ipc_recv` with the frame that `trap` gets, a call of
-- `sys_ipc_try_send` that returns 0, with the id of the sender and the value, and the return from
-- `sys_ipc_recv`, with the frame that `env_pop_tf` gets.
inductive IpcEvent
  | ask (tf : Trapframe)
  | send (sender value : Word)
  | wake (tf : Trapframe)
  deriving DecidableEq

section Calls

variable (m : Machine) (k : State) (c e : EnvPtr) (tf : Trapframe)

-- A call of `sys_ipc_recv` that does not fail.
def Receives : Prop :=
  tf.tfTrapno = T_SYSCALL ∧ tf.tfRegs.regEax = SYS_ipc_recv ∧
    (sysIpcRecv k c tf.tfRegs.regEdx).returns (err E_INVAL) = false

-- A call of `sys_ipc_try_send` to `e`.
def SendsTo : Prop :=
  tf.tfTrapno = T_SYSCALL ∧ tf.tfRegs.regEax = SYS_ipc_try_send ∧
    envid2env k c tf.tfRegs.regEdx false = .ok e

-- A call of `sys_env_set_status` for `e`.
def SetsStatus : Prop :=
  tf.tfTrapno = T_SYSCALL ∧ tf.tfRegs.regEax = SYS_env_set_status ∧
    envid2env k c tf.tfRegs.regEdx true = .ok e

def sendResult : Option Exit :=
  sysIpcTrySend m k c tf.tfRegs.regEdx tf.tfRegs.regEcx tf.tfRegs.regEbx tf.tfRegs.regEdi

instance : Decidable (Receives k c tf) := inferInstanceAs (Decidable (_ ∧ _ ∧ _))

instance : Decidable (SendsTo k c e tf) := inferInstanceAs (Decidable (_ ∧ _ ∧ _))

instance : Decidable (SetsStatus k c e tf) := inferInstanceAs (Decidable (_ ∧ _ ∧ _))

-- What a trap of `c` means to `e`.
def ipcCall : Option IpcEvent :=
  if Receives k c tf ∧ c = e then some (.ask tf)
  else if SendsTo k c e tf ∧ (sendResult m k c tf).any (·.returns 0#32) then
    some (.send (k.envs c).envId tf.tfRegs.regEcx)
  else none

end Calls

-- The fields for messages are the same.
structure SameIpc (v w : Env) : Prop where
  recving : w.envIpcRecving = v.envIpcRecving
  dstva   : w.envIpcDstva = v.envIpcDstva
  value   : w.envIpcValue = v.envIpcValue
  sender  : w.envIpcFrom = v.envIpcFrom
  perm    : w.envIpcPerm = v.envIpcPerm

namespace SameIpc

variable {u v w : Env}

theorem refl : SameIpc v v := ⟨rfl, rfl, rfl, rfl, rfl⟩

theorem trans (h : SameIpc u v) (h' : SameIpc v w) : SameIpc u w :=
  ⟨h'.recving.trans h.recving, h'.dstva.trans h.dstva, h'.value.trans h.value, h'.sender.trans h.sender,
    h'.perm.trans h.perm⟩

theorem setEax : SameIpc (x.state.envs e) ((x.setEax c).state.envs e) := by
  cases x
  case sched => exact refl
  case run   => exact refl
  case ret r k =>
    by_cases hc : e = c
    case pos =>
      subst hc
      have he : ((Exit.ret r k).setEax e).state.envs e =
          { k.envs e with envTf := (k.envs e).envTf.setEax r } := State.setEnv_envs_self ..
      rw [he]
      exact ⟨rfl, rfl, rfl, rfl, rfl⟩
    case neg =>
      have he : ((Exit.ret r k).setEax c).state.envs e = k.envs e := State.setEnv_envs_of_ne hc
      rw [he]
      exact refl

end SameIpc

-- What a trap of `c` can make of `e`, if it neither starts to receive nor sends to `e`.
inductive Touched (k : State) (c e : EnvPtr) (tf : Trapframe) (k' : State) : Prop
  | own (hc : c = e) (h : SameIpc (k.envs e) (k'.envs e))
  | same (h : SameIpc (k.envs e) (k'.envs e)) (hf : (k'.envs e).envTf = (k.envs e).envTf)
    (hs : k'.status e = k.status e)
  | dying (hr : k.status e = .running) (h : SameIpc (k.envs e) (k'.envs e)) (hs : k'.status e = .dying)
  | freed (hs : k'.status e = .free)
  | new (hl : k.envFreeList = some e) (hr : (k'.envs e).envIpcRecving = false)
  | setStatus (hc : SetsStatus k c e tf) (h : SameIpc (k.envs e) (k'.envs e))
    (hf : (k'.envs e).envTf = (k.envs e).envTf)
    (hs : k'.status e = .runnable ∨ k'.status e = .notRunnable)

namespace Touched

theorem of_envs (h : k'.envs e = k.envs e) : Touched k c e tf k' :=
  .same (h ▸ .refl) (h ▸ rfl) (congrArg Env.envStatus h)

theorem refl : Touched k c e tf k := of_envs rfl

-- A change of `e'`.
theorem update (hu : k'.envs = update k.envs e' w) (h : e' = e → Touched k c e tf k') :
    Touched k c e tf k' := by
  by_cases he : e' = e
  case pos => exact h he
  case neg => exact of_envs (by rw [hu, update_of_ne (Ne.symm he)])

-- It depends on `e` alone.
theorem congr {k'' : State} (t : Touched k c e tf k') (h : k''.envs e = k'.envs e) :
    Touched k c e tf k'' := by
  have hs : k''.status e = k'.status e := congrArg Env.envStatus h
  cases t
  case own hc hi            => exact .own hc (h ▸ hi)
  case same hi hf hst       => exact .same (h ▸ hi) (h ▸ hf) (hs.trans hst)
  case dying hr hi hst      => exact .dying hr (h ▸ hi) (hs.trans hst)
  case freed hst            => exact .freed (hs.trans hst)
  case new hl hr            => exact .new hl (h ▸ hr)
  case setStatus hc hi hf hst => exact .setStatus hc (h ▸ hi) (h ▸ hf) (hs ▸ hst)

theorem freed_of (h : Freed k e' k') : Touched k c e tf k' :=
  update h.envs fun he => .freed (by rw [h.status, he, update_self])

theorem destroyed (h : Destroyed k c e' x) : Touched k c e tf x.state := by
  cases h
  case dying hs _ =>
    refine update rfl fun he => ?_
    subst he
    have he : (k.setEnv e' { k.envs e' with envStatus := .dying }).envs e' = _ := State.setEnv_envs_self ..
    refine .dying hs ?_ (congrArg Env.envStatus he)
    rw [Exit.state, he]
    exact ⟨rfl, rfl, rfl, rfl, rfl⟩
  case freed h    =>
    split
    · exact freed_of h
    · exact freed_of h

-- The caller changes something else of its own.
theorem setEnv_own (h : SameIpc (k.envs c) w) : Touched k c e tf (k.setEnv c w) := by
  refine update rfl fun he => .own he ?_
  subst he
  rw [State.setEnv_envs_self]
  exact h

theorem setEnv_same (h : SameIpc (k.envs e') w) (hf : w.envTf = (k.envs e').envTf)
    (hs : w.envStatus = k.status e') : Touched k c e tf (k.setEnv e' w) := by
  refine update rfl fun he => ?_
  subst he
  have he : (k.setEnv e' w).envs e' = w := State.setEnv_envs_self ..
  refine .same ?_ ?_ ((congrArg Env.envStatus he).trans hs)
  · rw [he]
    exact h
  · rw [he]
    exact hf

theorem setEax (t : Touched k c e tf y.state) : Touched k c e tf (y.setEax c).state := by
  by_cases hc : e = c
  case neg =>
    refine t.congr ?_
    cases y
    case ret   => exact State.setEnv_envs_of_ne hc
    case sched => rfl
    case run   => rfl
  case pos =>
    have hs : (y.setEax c).state.status e = y.state.status e := congrFun setEax_status e
    cases t
    case own h           => exact .own hc.symm (h.trans .setEax)
    case same h _ _      => exact .own hc.symm (h.trans .setEax)
    case dying hr h hst  => exact .dying hr (h.trans .setEax) (hs.trans hst)
    case freed hst       => exact .freed (hs.trans hst)
    case new hl hr       => exact .new hl (SameIpc.setEax.recving.trans hr)
    case setStatus h _ _ => exact .own hc.symm (h.trans .setEax)

end Touched

-- Calls other than those that receive or send.
theorem syscall_touched (hn : tf.tfTrapno = T_SYSCALL) (hr : tf.tfRegs.regEax ≠ SYS_ipc_recv)
    (hs : tf.tfRegs.regEax ≠ SYS_ipc_try_send)
    (h : SyscallEffect m k c tf.tfRegs.regEax tf.tfRegs.regEdx tf.tfRegs.regEcx tf.tfRegs.regEbx
      tf.tfRegs.regEdi x) : Touched k c e tf x.state := by
  cases h
  case quiet h      => exact .of_envs (congrFun h.envs e)
  case yield        => exact .refl
  case exit h       => exact .destroyed h
  case destroy h    => exact .destroyed h
  case exofork n _  =>
    refine .update n.envs fun he => .new (he ▸ n.head) ?_
    rw [Exit.state, n.envs, he, update_self]
    exact n.recving
  case setStatus e' st hno hst he' =>
    refine .update rfl fun he => ?_
    subst he
    have he : (k.setEnv e' { k.envs e' with envStatus := st }).envs e' = _ := State.setEnv_envs_self ..
    refine .setStatus ⟨hn, hno, he'⟩ ?_ ?_ ?_ <;> try rw [Exit.state, he]
    · exact ⟨rfl, rfl, rfl, rfl, rfl⟩
    have hst' : (k.setEnv e' { k.envs e' with envStatus := st }).status e' = st := congrArg Env.envStatus he
    rw [Exit.state, hst']
    simp only [settableStatus] at hst
    split_ifs at hst <;> cases hst <;> simp
  case setUpcall    => exact .setEnv_same ⟨rfl, rfl, rfl, rfl, rfl⟩ rfl rfl
  case recv hno     => exact absurd hno hr
  case send hno _ _ _ => exact absurd hno hs

theorem dispatch_touched (hn : tf.tfTrapno ≠ T_SYSCALL) (h : DispatchEffect m k c tf x) :
    Touched k c e tf x.state := by
  cases h
  case exit h    => exact .destroyed h
  case call hn' _ => exact absurd hn' hn
  case upcall    => exact .setEnv_own ⟨rfl, rfl, rfl, rfl, rfl⟩
  case resume    => exact .refl
  case timer     => exact .refl

theorem sendResult_recving (h : SendsTo k c e tf) (hr : sendResult m k c tf = some (.ret 0#32 k')) :
    (k.envs e).envIpcRecving := by
  by_contra hn
  have hz : ¬err E_IPC_NOT_RECV = 0#32 := by decide
  simp only [Bool.not_eq_true] at hn
  simp only [sendResult, sysIpcTrySend, h.right.right, hn, Bool.not_false, if_true, Option.some.injEq,
    Exit.ret.injEq] at hr
  exact hz hr.left

-- The effect of a trap of `c` on `e`, with what is logged for `e`.
inductive IpcEffect (k : State) (c e : EnvPtr) (tf : Trapframe) (x : Exit) : Option IpcEvent → Prop
  | ask (hc : c = e) (hx : x.state = k.setEnv e { k.envs e with
      envIpcRecving := true
      envIpcDstva := tf.tfRegs.regEdx
      envStatus := .notRunnable
      envTf := (k.envs e).envTf.setEax 0#32 }) : IpcEffect k c e tf x (some (.ask tf))
  | send {k₁ perm} (hs : SendsTo k c e tf) (hr : (k.envs e).envIpcRecving) (hk : SameEnvs k k₁)
    (hx : x = (Exit.ret 0#32 (k₁.setEnv e (deliver (k.envs e) (k.envs c) tf.tfRegs.regEcx perm))).setEax c) :
    IpcEffect k c e tf x (some (.send (k.envs c).envId tf.tfRegs.regEcx))
  | other (h : Touched k c e tf x.state) : IpcEffect k c e tf x none

theorem receives_spec (hn : tf.tfTrapno = T_SYSCALL) (hno : tf.tfRegs.regEax = SYS_ipc_recv)
    (h : sysIpcRecv k c tf.tfRegs.regEdx = y) : IpcEffect k c e tf (y.setEax c) (ipcCall m k c e tf) := by
  have hs : ¬SendsTo k c e tf := fun hs => by
    rw [SendsTo, hno] at hs
    exact absurd hs.right.left (by decide)
  by_cases hd : tf.tfRegs.regEdx < UTOP ∧ PGOFF tf.tfRegs.regEdx ≠ 0#32
  case pos =>
    rw [sysIpcRecv, if_pos hd] at h
    have hr : ¬Receives k c tf := fun hr => by
      rw [Receives, sysIpcRecv, if_pos hd] at hr
      simp [Exit.returns] at hr
    subst h
    rw [ipcCall, if_neg fun hc => hr hc.left, if_neg fun hc => hs hc.left]
    exact .other (Touched.refl (k := k)).setEax
  case neg =>
    have hr : Receives k c tf := by
      refine ⟨hn, hno, ?_⟩
      rw [sysIpcRecv, if_neg hd]
      rfl
    rw [sysIpcRecv, if_neg hd] at h
    subst h
    by_cases hc : c = e
    case pos =>
      subst hc
      rw [ipcCall, if_pos ⟨hr, rfl⟩]
      exact .ask rfl rfl
    case neg =>
      rw [ipcCall, if_neg fun h => hc h.right, if_neg fun hc => hs hc.left]
      exact .other (Touched.of_envs (State.setEnv_envs_of_ne (Ne.symm hc)))

theorem sends_spec (hn : tf.tfTrapno = T_SYSCALL) (hno : tf.tfRegs.regEax = SYS_ipc_try_send)
    (h : sendResult m k c tf = some y) : IpcEffect k c e tf (y.setEax c) (ipcCall m k c e tf) := by
  have hr : ¬Receives k c tf := fun hr => by
    rw [Receives, hno] at hr
    exact absurd hr.right.left (by decide)
  rw [ipcCall, if_neg fun hc => hr hc.left, h]
  by_cases hs : SendsTo k c e tf ∧ (some y).any (·.returns 0#32)
  case pos =>
    rw [if_pos hs]
    obtain ⟨k', rfl⟩ := Exit.returns_iff.mp hs.right
    have hrecv := sendResult_recving hs.left h
    have hok := sysIpcTrySend_ok hs.left.right.right h
    obtain ⟨_, _, _, p, _, k₁, -, -, -, -, -, hi, hk⟩ | ⟨-, hk⟩ := hok
    · have hsame := SameEnvs.pageInsert hi
      subst hk
      rw [hsame.envs]
      exact .send hs.left hrecv hsame rfl
    · subst hk
      exact .send hs.left hrecv .refl rfl
  case neg =>
    rw [if_neg hs]
    refine .other (Touched.setEax ?_)
    obtain ⟨r, k', rfl, hk⟩ | ⟨e', perm, k₁, rfl, he', -, hk⟩ := sysIpcTrySend_effect h
    · exact .of_envs (congrFun hk.envs e)
    · have hu : (k₁.setEnv e' (deliver (k.envs e') (k.envs c) tf.tfRegs.regEcx perm)).envs =
          Function.update k.envs e' (deliver (k.envs e') (k.envs c) tf.tfRegs.regEcx perm) := by
        rw [State.setEnv, hk.envs]
      refine .update hu fun he => ?_
      subst he
      exact absurd ⟨⟨hn, hno, he'⟩, rfl⟩ hs

-- A trap that is a system call.
theorem trapDispatch_call (hn : tf.tfTrapno = T_SYSCALL) (h : trapDispatch m k c getc tf = some x) :
    ∃ y, syscall m k c getc tf.tfRegs.regEax tf.tfRegs.regEdx tf.tfRegs.regEcx tf.tfRegs.regEbx
      tf.tfRegs.regEdi tf.tfRegs.regEsi = some y ∧ y.setEax c = x := by
  have hp : ¬T_SYSCALL = T_PGFLT := by decide
  have hb : ¬T_SYSCALL = T_BRKPT := by decide
  simpa only [trapDispatch, hn, if_neg hp, if_neg hb, if_true, Option.bind_eq_bind,
    Option.bind_eq_some_iff, Option.some.injEq] using h

theorem ipcCall_spec (h : trapDispatch m k c getc tf = some x) :
    IpcEffect k c e tf x (ipcCall m k c e tf) := by
  by_cases hn : tf.tfTrapno = T_SYSCALL
  case neg =>
    rw [ipcCall, if_neg fun hc => hn hc.left.left, if_neg fun hc => hn hc.left.left]
    exact .other (dispatch_touched hn (trapDispatch_effect h))
  case pos =>
    obtain ⟨y, hy, rfl⟩ := trapDispatch_call hn h
    by_cases hr : tf.tfRegs.regEax = SYS_ipc_recv
    case pos =>
      rw [hr] at hy
      exact receives_spec hn hr (Option.some.inj hy)
    by_cases hs : tf.tfRegs.regEax = SYS_ipc_try_send
    case pos =>
      rw [hs] at hy
      exact sends_spec hn hs hy
    case neg =>
      rw [ipcCall, if_neg fun hc => hr hc.left.right.left, if_neg fun hc => hs hc.left.right.left]
      exact .other (syscall_touched hn hr hs (syscall_effect hy)).setEax

-- A call of `sys_ipc_try_send` that fails leaves all fields for messages alone.
theorem trapDispatch_sameIpc (hn : tf.tfTrapno = T_SYSCALL) (hno : tf.tfRegs.regEax = SYS_ipc_try_send)
    (hr : (sendResult m k c tf).any (·.returns 0#32) = false) (h : trapDispatch m k c getc tf = some x) :
    SameIpc (k.envs e) (x.state.envs e) := by
  obtain ⟨y, hy, rfl⟩ := trapDispatch_call hn h
  rw [hno] at hy
  have hy : sendResult m k c tf = some y := hy
  rw [hy] at hr
  obtain ⟨r, k', rfl, hk⟩ | ⟨_, _, _, rfl, -, -, -⟩ := sysIpcTrySend_effect hy
  case inr => cases hr
  case inl =>
    have hk : SameIpc (k.envs e) ((Exit.ret r k').state.envs e) := hk.envs ▸ .refl
    exact hk.trans .setEax

-- `env_run` leaves the fields for messages and the frames alone.
theorem envRun_env {cur : Option EnvPtr} {y : EnvPtr} {n : Nat} (h : envRun k cur y n = some k') :
    SameIpc (k.envs e) (k'.envs e) ∧ (k'.envs e).envTf = (k.envs e).envTf := by
  have hset {k : State} {e' : EnvPtr} {w : Env} (hi : SameIpc (k.envs e') w)
      (hf : w.envTf = (k.envs e').envTf) :
      SameIpc (k.envs e) ((k.setEnv e' w).envs e) ∧ ((k.setEnv e' w).envs e).envTf = (k.envs e).envTf := by
    by_cases he : e = e'
    · subst he
      rw [State.setEnv_envs_self]
      exact ⟨hi, hf⟩
    · rw [State.setEnv_envs_of_ne he]
      exact ⟨.refl, rfl⟩
  have hp : SameIpc (k.envs e) ((preempt k cur).envs e) ∧
      ((preempt k cur).envs e).envTf = (k.envs e).envTf := by
    cases cur
    case none   => exact ⟨.refl, rfl⟩
    case some c =>
      simp only [preempt]
      split
      case isTrue  => exact hset ⟨rfl, rfl, rfl, rfl, rfl⟩ rfl
      case isFalse => exact ⟨.refl, rfl⟩
  simp only [envRun] at h
  split at h
  case isTrue  => cases h
  case isFalse =>
    cases h
    let v : Env := { (preempt k cur).envs y with
      envStatus := .running
      envRuns := ((preempt k cur).envs y).envRuns + 1#32
      envCpunum := n }
    have hi : SameIpc ((preempt k cur).envs y) v := ⟨rfl, rfl, rfl, rfl, rfl⟩
    obtain ⟨hi, hf⟩ := hset hi rfl
    exact ⟨hp.left.trans hi, hf.trans hp.right⟩

theorem envCreates_env {l : List (Elf × EnvType)} (hl : EnvList k) (h : envCreates m k l = some k') :
    k'.envs e = k.envs e ∨ k.pgdir e = none ∧ (k'.envs e).envIpcRecving = false := by
  let inv (k₁ : State) : Prop :=
    EnvList k₁ ∧ (k₁.envs e = k.envs e ∨ k.pgdir e = none ∧ (k₁.envs e).envIpcRecving = false)
  have hi : inv k' := by
    refine foldlM_list h ⟨hl, .inl rfl⟩ ?_
    intro k₁ k₂ a _ ⟨hl₁, he⟩ hc
    obtain ⟨e', w, n, -⟩ := envCreate_newEnv hc
    refine ⟨hl₁.newEnv n, ?_⟩
    rw [n.envs]
    by_cases hee : e = e'
    case neg =>
      rw [update_of_ne hee]
      exact he
    case pos =>
      subst hee
      have hp : k₁.pgdir e = none := hl₁.head_pgdir n.head
      rw [update_self]
      refine .inr ⟨?_, n.recving⟩
      obtain he | ⟨he, -⟩ := he
      · exact (congrArg Env.envPgdir he).symm.trans hp
      · exact he
  exact hi.right

end Kern

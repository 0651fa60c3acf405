import Sisop.Kern.Step
import Sisop.Kern.Theorems.Pmap

-- What the kernel's functions do to the environments, whatever the state of the page tables.

namespace Kern

open Inc Function Library

-- A step that leaves the environments alone.
structure SameEnvs (s s' : State) : Prop where
  envs        : s'.envs = s.envs
  envFreeList : s'.envFreeList = s.envFreeList

namespace SameEnvs

variable {m : Machine} {s s₁ s₂ s' : State} {va perm : Word} {pd p : Nat}

theorem refl : SameEnvs s s :=
  ⟨rfl, rfl⟩

theorem trans (h₁ : SameEnvs s s₁) (h₂ : SameEnvs s₁ s₂) : SameEnvs s s₂ :=
  ⟨h₂.envs.trans h₁.envs, h₂.envFreeList.trans h₁.envFreeList⟩

theorem pgdir (h : SameEnvs s s') : s'.pgdir = s.pgdir := by
  funext e
  simp [State.pgdir, h.envs]

theorem status (h : SameEnvs s s') : s'.status = s.status := by
  funext e
  simp [State.status, h.envs]

theorem envLink (h : SameEnvs s s') : s'.envLink = s.envLink := by
  funext e
  simp [State.envLink, h.envs]

theorem pageAlloc {f : Word} {o : Option Nat} (h : pageAlloc s f = (o, s')) : SameEnvs s s' := by
  simp only [Kern.pageAlloc] at h
  split at h
  · cases h
    exact refl
  · simp only [Prod.mk.injEq] at h
    obtain ⟨_, h⟩ := h
    split at h <;> (cases h; exact ⟨rfl, rfl⟩)

theorem pageFree (h : pageFree s p = some s') : SameEnvs s s' :=
  have h := SameSpace.pageFree h
  ⟨h.envs, h.envFreeList⟩

theorem pageDecref (h : pageDecref s p = some s') : SameEnvs s s' :=
  have h := SameSpace.pageDecref h
  ⟨h.envs, h.envFreeList⟩

theorem pgdirWalk {create : Bool} {o : Option Slot}
    (h : pgdirWalk m s pd va create = some (o, s')) : SameEnvs s s' := by
  simp only [Kern.pgdirWalk] at h
  split at h
  case isTrue =>
    split at h
    case isTrue =>
      cases h
      exact refl
    case isFalse =>
      cases ha : Kern.pageAlloc s 1#32 with | mk p s₁ =>
      have hs := pageAlloc ha
      cases p
      case none =>
        simp only [ha, Option.some.injEq, Prod.mk.injEq] at h
        exact h.right ▸ hs
      case some p =>
        simp only [ha, Option.bind_eq_bind, Option.bind_eq_some_iff, Option.some.injEq,
          Prod.mk.injEq] at h
        obtain ⟨_, _, _, h⟩ := h
        exact h ▸ ⟨hs.envs, hs.envFreeList⟩
  case isFalse =>
    simp only [Option.bind_eq_bind, Option.bind_eq_some_iff, Option.some.injEq, Prod.mk.injEq] at h
    obtain ⟨_, _, _, h⟩ := h
    exact h ▸ refl

theorem pageRemove (h : pageRemove m s pd va = some s') : SameEnvs s s' := by
  simp only [Kern.pageRemove, Option.bind_eq_bind, Option.bind_eq_some_iff] at h
  obtain ⟨o, _, h⟩ := h
  cases o
  case none =>
    cases h
    exact refl
  case some =>
    simp only [Option.bind_eq_some_iff, Prod.exists] at h
    obtain ⟨slot, s₁, hw, hd⟩ := h
    have hs := pgdirWalk hw
    cases slot <;> exact hs.trans ⟨(pageDecref hd).envs, (pageDecref hd).envFreeList⟩

theorem pageInsert {r : Word} (h : pageInsert m s pd p va perm = some (r, s')) :
    SameEnvs s s' := by
  simp only [Kern.pageInsert, Option.bind_eq_bind, Option.bind_eq_some_iff, Prod.exists] at h
  obtain ⟨slot, s₁, hw, h⟩ := h
  have hs := pgdirWalk hw
  cases slot
  case none =>
    cases h
    exact hs
  case some =>
    dsimp only at h
    split at h
    case isTrue =>
      obtain ⟨s₂, hr, h⟩ := Option.bind_eq_some_iff.mp h
      cases h
      have hr := pageRemove hr
      exact hs.trans ⟨hr.envs, hr.envFreeList⟩
    case isFalse =>
      cases h
      exact hs.trans ⟨rfl, rfl⟩

theorem foldlM {α : Type} {f : State → α → Option State} {l : List α} (h : l.foldlM f s = some s')
    (i : ∀ {s s' a}, f s a = some s' → SameEnvs s s') : SameEnvs s s' :=
  foldlM_list (P := SameEnvs s) h refl fun _ hs hf => hs.trans (i hf)

theorem envFreeTable {pt pdeno : Nat} (h : envFreeTable m s pd pt pdeno = some s') :
    SameEnvs s s' := by
  refine foldlM h fun hf => ?_
  split at hf
  case isTrue  => exact pageRemove hf
  case isFalse =>
    cases hf
    exact refl

theorem envFreePde {pdeno : Nat} (h : envFreePde m s pd pdeno = some s') : SameEnvs s s' := by
  simp only [Kern.envFreePde] at h
  split at h
  case isTrue =>
    cases h
    exact refl
  case isFalse =>
    simp only [Option.bind_eq_bind, Option.bind_eq_some_iff] at h
    obtain ⟨_, _, s₁, ht, _, _, hd⟩ := h
    have hd := pageDecref hd
    exact (envFreeTable ht).trans ⟨hd.envs, hd.envFreeList⟩

end SameEnvs

-- `env_free_list` holds the environments without a page directory.
def EnvList (s : State) : Prop :=
  ∃ el, Chain s.envLink s.envFreeList el ∧ ∀ {e}, e ∈ el ↔ s.pgdir e = none

-- The effect of `env_free`.
structure Freed (s : State) (e : EnvPtr) (s' : State) : Prop where
  pgdir       : s.pgdir e ≠ none
  envs        : s'.envs = update s.envs e
    { s.envs e with envPgdir := none, envStatus := .free, envLink := s.envFreeList }
  envFreeList : s'.envFreeList = some e

-- The effect of `env_destroy` of `e`, when `c` runs.
inductive Destroyed (s : State) (c e : EnvPtr) : Exit → Prop
  | dying (hs : s.status e = .running) (hc : c ≠ e) :
    Destroyed s c e (.ret 0#32 (s.setEnv e { s.envs e with envStatus := .dying }))
  | freed {s'} (hs : ¬(s.status e = .running ∧ c ≠ e)) (h : Freed s e s') :
    Destroyed s c e (if c = e then .sched none s' else .ret 0#32 s')

-- The environment `e` is allocated, with the contents `v`.
structure NewEnv (s : State) (parentId : Word) (e : EnvPtr) (v : Env) (s' : State) : Prop where
  head        : s.envFreeList = some e
  envs        : s'.envs = update s.envs e v
  envFreeList : s'.envFreeList = s.envLink e
  link        : v.envLink = s.envLink e
  pgdir       : v.envPgdir ≠ none
  envId       : v.envId = generateEnvId (s.envs e).envId e
  parentId    : v.envParentId = parentId
  recving     : v.envIpcRecving = false

-- Whether a message from `c` with the page at `srcva` can be delivered to `e`: `e` waits for one, the
-- page, if there is one, passes the checks, and there is memory for a page table that it needs.
structure Deliverable (m : Machine) (s : State) (c e : EnvPtr) (srcva perm : Word) : Prop where
  recving : (s.envs e).envIpcRecving
  checks  : srcva < UTOP → ∃ x, sysIpcTrySendChecks m s c srcva perm = some (.ok x)
  memory  : srcva < UTOP → ∀ {pd}, s.pgdir e = some pd →
    PTE_ADDR (s.mem pd (PDX (s.envs e).envIpcDstva)) = 0#32 → s.pageFreeList ≠ none

-- The effects of a system call.
inductive SyscallEffect (m : Machine) (s : State) (c : EnvPtr) (no a1 a2 a3 a4 : Word) : Exit → Prop
  | quiet {r s'} (h : SameEnvs s s') : SyscallEffect m s c no a1 a2 a3 a4 (.ret r s')
  | yield : SyscallEffect m s c no a1 a2 a3 a4 (.sched (some c) s)
  | exit {x} (h : Destroyed s c c x) : SyscallEffect m s c no a1 a2 a3 a4 x
  | destroy {e x} (hn : no = SYS_env_destroy) (he : envid2env s c a1 true = .ok e)
    (h : Destroyed s c e x) : SyscallEffect m s c no a1 a2 a3 a4 x
  | exofork {e v s'} (h : NewEnv s (s.envs c).envId e v s') (hst : v.envStatus = .notRunnable) :
    SyscallEffect m s c no a1 a2 a3 a4 (.ret v.envId s')
  | setStatus {e st} (hn : no = SYS_env_set_status) (hst : settableStatus a2 = some st)
    (he : envid2env s c a1 true = .ok e) : SyscallEffect m s c no a1 a2 a3 a4
      (.ret 0#32 (s.setEnv e { s.envs e with envStatus := st }))
  | setUpcall {e} (he : envid2env s c a1 true = .ok e) : SyscallEffect m s c no a1 a2 a3 a4
      (.ret 0#32 (s.setEnv e { s.envs e with envPgfaultUpcall := a2 }))
  | recv (hn : no = SYS_ipc_recv) : SyscallEffect m s c no a1 a2 a3 a4 (.sched (some c) (s.setEnv c
      { s.envs c with
        envIpcRecving := true
        envIpcDstva := a1
        envStatus := .notRunnable
        envTf := (s.envs c).envTf.setEax 0#32 }))
  | send {e perm s₁} (hn : no = SYS_ipc_try_send) (he : envid2env s c a1 false = .ok e)
    (hd : Deliverable m s c e a3 a4) (h : SameEnvs s s₁) : SyscallEffect m s c no a1 a2 a3 a4
      (.ret 0#32 (s₁.setEnv e (deliver (s.envs e) (s.envs c) a2 perm)))

-- The effects of `trap_dispatch` for a trap from user mode.
inductive DispatchEffect (m : Machine) (s : State) (c : EnvPtr) (tf : Trapframe) : Exit → Prop
  | exit {x} (h : Destroyed s c c x) : DispatchEffect m s c tf x
  | call {y} (hn : tf.tfTrapno = T_SYSCALL)
    (h : SyscallEffect m s c tf.tfRegs.regEax tf.tfRegs.regEdx tf.tfRegs.regEcx tf.tfRegs.regEbx
      tf.tfRegs.regEdi y) : DispatchEffect m s c tf (y.setEax c)
  | upcall {tf'} : DispatchEffect m s c tf (.run (s.saveTf c tf'))
  | resume : DispatchEffect m s c tf (.ret 0#32 s)
  | timer : DispatchEffect m s c tf (.sched (some c) s)

-- The effects of a trap from user mode.
inductive TrapEffect (m : Machine) (s : State) (c : EnvPtr) (tf : Trapframe) : Exit → Prop
  | zombie {s'} (hs : s.status c = .dying) (h : Freed s c s') : TrapEffect m s c tf (.sched none s')
  | dispatch {x} (hs : s.status c ≠ .dying) (h : DispatchEffect m (s.saveTf c tf) c tf x) :
    TrapEffect m s c tf x

namespace EnvList

variable {s s' : State} {e : EnvPtr} {v : Env}

theorem head_pgdir (l : EnvList s) (h : s.envFreeList = some e) : s.pgdir e = none := by
  obtain ⟨el, hc, hel⟩ := l
  rw [h] at hc
  obtain ⟨_, hl, _⟩ := hc.pop (o := none)
  exact hel.mp (hl ▸ List.mem_cons_self)

theorem sameEnvs (l : EnvList s) (h : SameEnvs s s') : EnvList s' := by
  rw [EnvList, h.envLink, h.envFreeList, h.pgdir]
  exact l

theorem setEnv (l : EnvList s) (hp : v.envPgdir = s.pgdir e) (hl : v.envLink = s.envLink e) :
    EnvList (s.setEnv e v) := by
  have hp' : (s.setEnv e v).pgdir = s.pgdir := State.pgdir_setEnv_self hp
  have hl' : (s.setEnv e v).envLink = s.envLink := by
    rw [State.envLink_update rfl, hl, update_eq_self]
  rw [EnvList, hl', hp']
  exact l

theorem freed (l : EnvList s) (h : Freed s e s') : EnvList s' := by
  obtain ⟨el, hc, hel⟩ := l
  have he : e ∉ el := fun hc => h.pgdir (hel.mp hc)
  refine ⟨e :: el, ?_, fun {e'} => ?_⟩
  · rw [State.envLink_update h.envs, h.envFreeList]
    exact hc.push he
  · rw [State.pgdir_update h.envs]
    by_cases he' : e' = e
    · simp [he']
    · rw [update_of_ne he', ← hel]
      simp [he']

theorem newEnv {parentId : Word} (l : EnvList s) (n : NewEnv s parentId e v s') : EnvList s' := by
  obtain ⟨el, hc, hel⟩ := l
  rw [n.head] at hc
  obtain ⟨el', hl, he, hc'⟩ := hc.pop (o := s.envLink e)
  refine ⟨el', ?_, fun {e'} => ?_⟩
  · rw [State.envLink_update n.envs, n.link, n.envFreeList]
    exact hc'
  · rw [State.pgdir_update n.envs]
    by_cases he' : e' = e
    · simp [he', he, n.pgdir]
    · rw [update_of_ne he', ← hel, hl]
      simp [he']

end EnvList

section Effect

variable {m : Machine} {s s' : State} {c e : EnvPtr} {x : Exit}

theorem envFree_freed (h : envFree m s e = some s') : Freed s e s' := by
  simp only [envFree, Option.bind_eq_bind, Option.bind_eq_some_iff, Option.some.injEq] at h
  obtain ⟨pd, hp, s₁, h₁, s₂, h₂, hs⟩ := h
  have h₁ := SameEnvs.foldlM h₁ SameEnvs.envFreePde
  have h₂ := SameEnvs.pageDecref h₂
  have he : s₂.envs = update s.envs e { s.envs e with envPgdir := none } := by
    rw [h₂.envs, State.setEnv, h₁.envs]
  have hf : s₂.envFreeList = s.envFreeList := h₂.envFreeList.trans h₁.envFreeList
  subst hs
  refine ⟨by simp [hp], ?_, rfl⟩
  simp only [State.setEnvFreeList_envs, State.setEnv, he, hf, update_self, update_idem]

theorem envDestroy_destroyed (h : envDestroy m s c e = some x) : Destroyed s c e x := by
  simp only [envDestroy] at h
  split at h
  case isTrue hs =>
    cases h
    exact .dying hs.left hs.right
  case isFalse hs =>
    simp only [Option.bind_eq_bind, Option.bind_eq_some_iff, Option.some.injEq] at h
    obtain ⟨s₁, h₁, hx⟩ := h
    exact hx ▸ .freed hs (envFree_freed h₁)

theorem userMemAssert_destroyed {va len perm : Word}
    (h : userMemAssert m s c va len perm = some (some x)) : Destroyed s c c x := by
  simp only [userMemAssert, Option.bind_eq_bind, Option.bind_eq_some_iff] at h
  obtain ⟨_, _, r, _, hx⟩ := h
  cases r
  case none   => simp at hx
  case some _ =>
    simp only [Option.bind_eq_some_iff, Option.some.injEq] at hx
    obtain ⟨y, hy, hyx⟩ := hx
    exact hyx ▸ envDestroy_destroyed hy

theorem envSetupVm_envs {r : Word} (h : envSetupVm m s e = (r, s')) (hr : negative r = false) :
    ∃ p, s'.envs = update s.envs e { s.envs e with envPgdir := some p } ∧
      s'.envFreeList = s.envFreeList := by
  simp only [envSetupVm] at h
  cases ha : pageAlloc s 1#32 with | mk o s₁ =>
  have hs := SameEnvs.pageAlloc ha
  cases o
  case none =>
    simp only [ha, Prod.mk.injEq] at h
    exact absurd (h.left ▸ hr) (by decide)
  case some p =>
    simp only [ha, Prod.mk.injEq] at h
    refine ⟨p, ?_, ?_⟩
    · rw [← h.right, State.fill_envs, State.setEnv, incRef, State.setPage_envs, hs.envs]
    · rw [← h.right, State.fill_envFreeList]
      exact hs.envFreeList

theorem envAlloc_failed {parentId : Word} (h : envAlloc m s parentId = (.error r, s')) : s' = s := by
  simp only [envAlloc] at h
  split at h
  case h_1 => cases h; rfl
  case h_2 =>
    simp only [envSetupVm] at h
    cases ha : pageAlloc s 1#32 with | mk o s₁ =>
    cases o
    case none =>
      have hn : negative (err E_NO_MEM) = true := by decide
      simp only [ha, hn, if_true, Prod.mk.injEq] at h
      exact h.right.symm.trans (pageAlloc_eq_none ha).left
    case some =>
      have hn : negative 0#32 = false := by decide
      simp [ha, hn] at h

theorem envAlloc_newEnv {parentId : Word} (h : envAlloc m s parentId = (.ok e, s')) :
    NewEnv s parentId e (s'.envs e) s' ∧ s'.status e = .runnable := by
  simp only [envAlloc] at h
  split at h
  case h_1 => cases h
  case h_2 e' he =>
    cases hs : envSetupVm m s e' with | mk q s₁ =>
    simp only [hs] at h
    split at h
    case isTrue => cases h
    case isFalse hq =>
      obtain ⟨p, henvs, _⟩ := envSetupVm_envs hs (by simpa using hq)
      cases h
      refine ⟨?_, by simp [State.status]⟩
      constructor
      case head => exact he
      case envs => simp [State.setEnv, henvs]
      all_goals simp [henvs, State.envLink]

-- Changes to the environment while it is set up.
theorem NewEnv.modify {s₁ : State} {parentId : Word} {v w : Env} (n : NewEnv s parentId e v s₁)
    (he : s'.envs = update s₁.envs e w) (hf : s'.envFreeList = s₁.envFreeList)
    (hw : w = { v with envTf := w.envTf, envType := w.envType, envStatus := w.envStatus }) :
    NewEnv s parentId e w s' where
  head        := n.head
  envs        := by rw [he, n.envs, update_idem]
  envFreeList := hf.trans n.envFreeList
  link        := by rw [hw]; exact n.link
  pgdir       := by rw [hw]; exact n.pgdir
  envId       := by rw [hw]; exact n.envId
  parentId    := by rw [hw]; exact n.parentId
  recving     := by rw [hw]; exact n.recving

theorem SameEnvs.regionAlloc {pd : Nat} {va len : Word} (h : regionAlloc m s pd va len = some s') :
    SameEnvs s s' := by
  simp only [Kern.regionAlloc] at h
  split at h
  case isTrue  => cases h
  case isFalse =>
    refine foldlM h fun {s₁ _ _} hf => ?_
    simp only [regionAllocPage] at hf
    cases ha : Kern.pageAlloc s₁ 0#32 with | mk o s₂ =>
    cases o <;> simp only [ha] at hf
    case none   => cases hf
    case some p =>
      simp only [Option.bind_eq_bind, Option.bind_eq_some_iff, Prod.exists] at hf
      obtain ⟨_, _, hi, hf⟩ := hf
      split at hf <;> cases hf
      exact (pageAlloc ha).trans (pageInsert hi)

theorem loadIcode_envs {binary : Elf} (h : loadIcode m s e binary = some s') :
    ∃ tf, s'.envs = update s.envs e { s.envs e with envTf := tf } ∧ s'.envFreeList = s.envFreeList := by
  simp only [loadIcode] at h
  split at h
  case isTrue  => cases h
  case isFalse =>
    simp only [Option.bind_eq_bind, Option.bind_eq_some_iff] at h
    obtain ⟨pd, _, s₁, h₁, h₂⟩ := h
    have h₁ : SameEnvs s s₁ := by
      refine .foldlM h₁ fun hf => ?_
      split at hf
      case isTrue => cases hf; exact .refl
      split at hf
      case isTrue  => cases hf
      case isFalse => exact .regionAlloc hf
    have h₂ := SameEnvs.regionAlloc h₂
    refine ⟨{ (s.envs e).envTf with tfEip := binary.eEntry }, ?_, h₂.envFreeList.trans h₁.envFreeList⟩
    rw [h₂.envs, State.setEnv, h₁.envs]

theorem envCreate_newEnv {binary : Elf} {type : EnvType} (h : envCreate m s binary type = some s') :
    ∃ e v, NewEnv s 0#32 e v s' ∧ v.envStatus = .runnable := by
  simp only [envCreate] at h
  cases ha : envAlloc m s 0#32 with | mk r s₁ =>
  cases r
  case error => simp [ha] at h
  case ok e  =>
    simp only [ha, Option.bind_eq_bind, Option.bind_eq_some_iff, Option.some.injEq] at h
    obtain ⟨s₂, hl, hs⟩ := h
    obtain ⟨n, hst⟩ := envAlloc_newEnv ha
    obtain ⟨tf, he, hf⟩ := loadIcode_envs hl
    have hv : s₂.envs e = { s₁.envs e with envTf := tf } := by rw [he, update_self]
    have n₂ : NewEnv s 0#32 e (s₂.envs e) s₂ := n.modify (hv ▸ he) hf (by rw [hv])
    subst hs
    exact ⟨e, _, n₂.modify rfl rfl rfl, by rw [hv]; exact hst⟩

theorem sysExofork_effect (h : sysExofork m s c = x) :
    (∃ r, x = .ret r s) ∨
      ∃ e v s', x = .ret v.envId s' ∧ NewEnv s (s.envs c).envId e v s' ∧ v.envStatus = .notRunnable := by
  simp only [sysExofork] at h
  split at h
  case h_1 r _ ha => exact .inl ⟨r, envAlloc_failed ha ▸ h.symm⟩
  case h_2 e s₁ ha =>
    let v := { s₁.envs e with
      envStatus := .notRunnable
      envTf := (s₁.envs c).envTf.setEax 0#32 }
    refine .inr ⟨e, v, s₁.setEnv e v, ?_, (envAlloc_newEnv ha).left.modify rfl rfl rfl, rfl⟩
    rw [← h, State.setEnv_envs_self]

theorem pageInsert_no_memory {pd p : Nat} {va perm r : Word}
    (h : pageInsert m s pd p va perm = some (r, s')) (hz : PTE_ADDR (s.mem pd (PDX va)) = 0#32)
    (hf : s.pageFreeList = none) : r ≠ 0#32 := by
  have hw : pgdirWalk m s pd va true = some (none, s) := by
    simp [pgdirWalk, hz, pageAlloc, hf]
  simp only [pageInsert, hw, Option.bind_eq_bind, Option.bind_some, Option.some.injEq,
    Prod.mk.injEq] at h
  exact h.left ▸ by decide

theorem sysIpcTrySend_effect {envid value srcva perm : Word}
    (h : sysIpcTrySend m s c envid value srcva perm = some x) : (∃ r s', x = .ret r s' ∧ SameEnvs s s') ∨
      ∃ e perm' s₁, x = .ret 0#32 (s₁.setEnv e (deliver (s.envs e) (s.envs c) value perm')) ∧
        envid2env s c envid false = .ok e ∧ Deliverable m s c e srcva perm ∧ SameEnvs s s₁ := by
  simp only [sysIpcTrySend] at h
  split at h
  case h_1 => cases h; exact .inl ⟨_, _, rfl, .refl⟩
  case h_2 e he =>
    split at h
    case isTrue => cases h; exact .inl ⟨_, _, rfl, .refl⟩
    case isFalse hr =>
      have hr : (s.envs e).envIpcRecving := by simpa using hr
      split at h
      case isFalse hva =>
        cases h
        exact .inr ⟨e, _, s, rfl, he, ⟨hr, fun h => absurd h hva, fun h => absurd h hva⟩, .refl⟩
      case isTrue hva =>
        simp only [Option.bind_eq_bind, Option.bind_eq_some_iff] at h
        obtain ⟨y, hy, h⟩ := h
        cases y
        case error => cases h; exact .inl ⟨_, _, rfl, .refl⟩
        case ok y =>
          simp only [Option.bind_eq_some_iff, Prod.exists] at h
          obtain ⟨pd, hpd, r, s₁, hi, h⟩ := h
          have hs := SameEnvs.pageInsert hi
          split at h
          case isTrue =>
            cases h
            exact .inl ⟨_, _, rfl, hs⟩
          case isFalse h0 =>
            cases h
            refine .inr ⟨e, perm, s₁, by rw [hs.envs], he, ⟨hr, fun _ => ⟨y, hy⟩, ?_⟩, hs⟩
            intro _ pd' hpd' hz hl
            cases hpd.symm.trans hpd'
            exact h0 (pageInsert_no_memory hi hz hl)

-- The calls that only change address spaces.
theorem sysPageAlloc_quiet {envid va perm : Word} (h : sysPageAlloc m s c envid va perm = some x) :
    ∃ r s', x = .ret r s' ∧ SameEnvs s s' := by
  simp only [sysPageAlloc] at h
  split at h
  case isTrue => cases h; exact ⟨_, _, rfl, .refl⟩
  split at h
  case isTrue => cases h; exact ⟨_, _, rfl, .refl⟩
  split at h
  case h_1 => cases h; exact ⟨_, _, rfl, .refl⟩
  case h_2 =>
    cases ha : pageAlloc s perm with | mk o s₁ =>
    have hs := SameEnvs.pageAlloc ha
    cases o
    case none =>
      simp only [ha, Option.some.injEq] at h
      exact ⟨_, _, h.symm, hs⟩
    case some p =>
      simp only [ha, Option.bind_eq_bind, Option.bind_eq_some_iff, Prod.exists] at h
      obtain ⟨_, _, r, s₂, hi, h⟩ := h
      have hs₂ := hs.trans (.pageInsert hi)
      split at h
      case isTrue =>
        obtain ⟨s₃, hf, h⟩ := Option.bind_eq_some_iff.mp h
        cases h
        exact ⟨_, _, rfl, hs₂.trans (.pageFree hf)⟩
      case isFalse => cases h; exact ⟨_, _, rfl, hs₂⟩

theorem sysPageMap_quiet {srcenvid srcva dstenvid dstva perm : Word}
    (h : sysPageMap m s c srcenvid srcva dstenvid dstva perm = some x) :
    ∃ r s', x = .ret r s' ∧ SameEnvs s s' := by
  simp only [sysPageMap, Option.bind_eq_bind, Option.bind_eq_some_iff] at h
  obtain ⟨y, _, h⟩ := h
  cases y
  case error => cases h; exact ⟨_, _, rfl, .refl⟩
  case ok =>
    simp only [Option.bind_eq_some_iff, Prod.exists, Option.some.injEq] at h
    obtain ⟨_, _, _, _, hi, h⟩ := h
    exact ⟨_, _, h.symm, .pageInsert hi⟩

theorem sysPageUnmap_quiet {envid va : Word} (h : sysPageUnmap m s c envid va = some x) :
    ∃ r s', x = .ret r s' ∧ SameEnvs s s' := by
  simp only [sysPageUnmap] at h
  split at h
  case isTrue => cases h; exact ⟨_, _, rfl, .refl⟩
  split at h
  case h_1 => cases h; exact ⟨_, _, rfl, .refl⟩
  case h_2 =>
    simp only [Option.bind_eq_bind, Option.bind_eq_some_iff, Option.some.injEq] at h
    obtain ⟨_, _, _, hr, h⟩ := h
    exact ⟨_, _, h.symm, .pageRemove hr⟩

theorem syscall_effect {getc no a1 a2 a3 a4 a5 : Word}
    (h : syscall m s c getc no a1 a2 a3 a4 a5 = some x) : SyscallEffect m s c no a1 a2 a3 a4 x := by
  cases syscall_cases h
  case cputs _ hx =>
    simp only [sysCputs, Option.bind_eq_bind, Option.bind_eq_some_iff] at hx
    obtain ⟨r, hr, hx⟩ := hx
    cases r
    case none   => cases hx; exact .quiet .refl
    case some _ => cases hx; exact .exit (userMemAssert_destroyed hr)
  case cgetc _ hx    => exact hx ▸ .quiet .refl
  case getenvid _ hx => exact hx ▸ .quiet .refl
  case envDestroy hn hx =>
    simp only [sysEnvDestroy] at hx
    split at hx
    case h_1    => cases hx; exact .quiet .refl
    case h_2 he => exact .destroy hn he (envDestroy_destroyed hx)
  case yield _ hx => exact hx ▸ .yield
  case exofork _ hx =>
    rcases sysExofork_effect hx with ⟨r, hr⟩ | ⟨e, v, s', hr, n, hst⟩
    · exact hr ▸ .quiet .refl
    · exact hr ▸ .exofork n hst
  case envSetStatus hn hx =>
    simp only [sysEnvSetStatus] at hx
    split at hx
    case h_1 => exact hx ▸ .quiet .refl
    case h_2 st hst =>
      split at hx
      case h_1    => exact hx ▸ .quiet .refl
      case h_2 he => exact hx ▸ .setStatus hn hst he
  case pageAlloc _ hx =>
    obtain ⟨_, _, hr, hs⟩ := sysPageAlloc_quiet hx
    exact hr ▸ .quiet hs
  case pageMap _ hx =>
    obtain ⟨_, _, hr, hs⟩ := sysPageMap_quiet hx
    exact hr ▸ .quiet hs
  case pageUnmap _ hx =>
    obtain ⟨_, _, hr, hs⟩ := sysPageUnmap_quiet hx
    exact hr ▸ .quiet hs
  case ipcRecv hn hx =>
    simp only [sysIpcRecv] at hx
    split at hx
    case isTrue  => exact hx ▸ .quiet .refl
    case isFalse => exact hx ▸ .recv hn
  case ipcTrySend hn hx =>
    rcases sysIpcTrySend_effect hx with ⟨r, s', hr, hs⟩ | ⟨e, perm, s₁, hr, he, hd, hs⟩
    · exact hr ▸ .quiet hs
    · exact hr ▸ .send hn he hd hs
  case envSetPgfaultUpcall _ hx =>
    simp only [sysEnvSetPgfaultUpcall] at hx
    split at hx
    case h_1    => exact hx ▸ .quiet .refl
    case h_2 he => exact hx ▸ .setUpcall he
  case invalid hx => exact hx ▸ .quiet .refl

theorem pageFaultHandler_effect {tf : Trapframe} (h : pageFaultHandler m s c tf = some x) :
    DispatchEffect m s c tf x := by
  simp only [pageFaultHandler] at h
  split at h
  case isTrue  => exact .exit (envDestroy_destroyed h)
  case isFalse =>
    simp only [Option.bind_eq_bind, Option.bind_eq_some_iff] at h
    obtain ⟨_, _, h⟩ := h
    split at h
    case isTrue  => cases h
    case isFalse =>
      obtain ⟨r, hr, hx⟩ := Option.bind_eq_some_iff.mp h
      cases r
      case none   => cases hx; exact .upcall
      case some _ => cases hx; exact .exit (userMemAssert_destroyed hr)

theorem trapDispatch_effect {getc : Word} {tf : Trapframe}
    (h : trapDispatch m s c getc tf = some x) : DispatchEffect m s c tf x := by
  simp only [trapDispatch] at h
  split_ifs at h with _ _ hs
  case pos => exact pageFaultHandler_effect h
  case pos =>
    obtain ⟨y, hy, hx⟩ := Option.bind_eq_some_iff.mp h
    cases hx
    exact .call hs (syscall_effect hy)
  case pos => cases h; exact .resume
  case pos => cases h; exact .timer
  case neg => exact .exit (envDestroy_destroyed h)

theorem trapUser_effect {getc : Word} {tf : Trapframe} (h : trapUser m s c getc tf = some x) :
    TrapEffect m s c tf x := by
  simp only [trapUser] at h
  split at h
  case isTrue hd =>
    obtain ⟨_, hf, hx⟩ := Option.bind_eq_some_iff.mp h
    cases hx
    exact .zombie hd (envFree_freed hf)
  case isFalse hd => exact .dispatch hd (trapDispatch_effect h)

end Effect

section Envid2env

variable {s : State} {c e : EnvPtr} {envid : Word}

theorem envid2env_error {perm : Bool} {r : Word} (h : envid2env s c envid perm = .error r) :
    r = err E_BAD_ENV := by
  simp only [envid2env] at h
  split at h
  case isTrue => cases h
  split at h
  case isTrue => cases h; rfl
  split at h
  case isTrue  => cases h; rfl
  case isFalse => cases h

-- A call that needs permission acts on the caller or on one of its children.
theorem envid2env_perm (h : envid2env s c envid true = .ok e) :
    e = c ∨ s.status e ≠ .free ∧ (s.envs e).envParentId = (s.envs c).envId := by
  simp only [envid2env] at h
  split at h
  case isTrue => cases h; exact .inl rfl
  split at h
  case isTrue => cases h
  case isFalse hf =>
    split at h
    case isTrue  => cases h
    case isFalse hp =>
      cases h
      simp only [not_or, not_and, not_not] at hf hp
      by_cases he : ENVX envid = c
      · exact .inl he
      · exact .inr ⟨hf.left, hp trivial he⟩

theorem envid2env_live {perm : Bool} (h : envid2env s c envid perm = .ok e) :
    e = c ∨ s.status e ≠ .free := by
  simp only [envid2env] at h
  split at h
  case isTrue => cases h; exact .inl rfl
  split at h
  case isTrue => cases h
  case isFalse hf =>
    simp only [not_or] at hf
    split at h <;> cases h
    exact .inr hf.left

end Envid2env

namespace EnvList

variable {m : Machine} {s : State} {c e : EnvPtr} {x : Exit}

theorem destroyed (l : EnvList s) (h : Destroyed s c e x) : EnvList x.state := by
  cases h
  case dying   => exact l.setEnv rfl rfl
  case freed h =>
    split
    · exact l.freed h
    · exact l.freed h

theorem syscall {no a1 a2 a3 a4 : Word} (l : EnvList s)
    (h : SyscallEffect m s c no a1 a2 a3 a4 x) : EnvList x.state := by
  cases h
  case quiet h     => exact l.sameEnvs h
  case yield       => exact l
  case exit h      => exact l.destroyed h
  case destroy h   => exact l.destroyed h
  case exofork n _ => exact l.newEnv n
  case setStatus   => exact l.setEnv rfl rfl
  case setUpcall   => exact l.setEnv rfl rfl
  case recv        => exact l.setEnv rfl rfl
  case send h      =>
    refine (l.sameEnvs h).setEnv ?_ ?_
    · rw [h.pgdir]
      rfl
    · rw [h.envLink]
      rfl

theorem dispatch {tf : Trapframe} (l : EnvList s) (h : DispatchEffect m s c tf x) : EnvList x.state := by
  cases h
  case exit h     => exact l.destroyed h
  case call y _ h =>
    have l₁ := l.syscall h
    cases y
    case ret => exact l₁.setEnv rfl rfl
    all_goals exact l₁
  case upcall     => exact l.setEnv rfl rfl
  case resume     => exact l
  case timer      => exact l

end EnvList

-- An environment that is not free has a page directory.
structure LiveDirs (s : State) : Prop where
  pgdir : ∀ {e}, s.status e ≠ .free → s.pgdir e ≠ none

namespace LiveDirs

variable {m : Machine} {s s' : State} {c e : EnvPtr} {v : Env} {x : Exit}

theorem sameEnvs (l : LiveDirs s) (h : SameEnvs s s') : LiveDirs s' := by
  refine ⟨fun {e} he => ?_⟩
  rw [h.status] at he
  rw [h.pgdir]
  exact l.pgdir he

theorem update (l : LiveDirs s) (h : s'.envs = update s.envs e v)
    (hv : v.envStatus ≠ .free → v.envPgdir ≠ none) : LiveDirs s' := by
  refine ⟨fun {e'} he => ?_⟩
  rw [State.status_update h] at he
  rw [State.pgdir_update h]
  by_cases hee : e' = e
  · subst hee
    rw [update_self] at he ⊢
    exact hv he
  · rw [update_of_ne hee] at he ⊢
    exact l.pgdir he

theorem setEnv (l : LiveDirs s) (hv : v.envStatus ≠ .free → v.envPgdir ≠ none) :
    LiveDirs (s.setEnv e v) :=
  l.update rfl hv

theorem saveTf {tf : Trapframe} (l : LiveDirs s) : LiveDirs (s.saveTf c tf) :=
  l.setEnv fun h => l.pgdir h

theorem freed (l : LiveDirs s) (h : Freed s e s') : LiveDirs s' :=
  l.update h.envs fun hc => absurd rfl hc

theorem newEnv {parentId : Word} (l : LiveDirs s) (n : NewEnv s parentId e v s') : LiveDirs s' :=
  l.update n.envs fun _ => n.pgdir

theorem destroyed (l : LiveDirs s) (h : Destroyed s c e x) : LiveDirs x.state := by
  cases h
  case dying hs _ => exact l.setEnv fun _ => l.pgdir (by rw [hs]; decide)
  case freed h    =>
    split
    · exact l.freed h
    · exact l.freed h

theorem syscall {no a1 a2 a3 a4 : Word} (l : LiveDirs s) (hc : s.status c ≠ .free)
    (h : SyscallEffect m s c no a1 a2 a3 a4 x) : LiveDirs x.state := by
  cases h
  case quiet h          => exact l.sameEnvs h
  case yield            => exact l
  case exit h           => exact l.destroyed h
  case destroy h        => exact l.destroyed h
  case exofork n _      => exact l.newEnv n
  case setUpcall        => exact l.setEnv fun h => l.pgdir h
  case recv             => exact l.setEnv fun _ => l.pgdir hc
  case setStatus he     =>
    refine l.setEnv fun _ => l.pgdir ?_
    rcases envid2env_live he with he | he
    · exact he ▸ hc
    · exact he
  case send he _ h      =>
    refine (l.sameEnvs h).setEnv fun _ => l.pgdir ?_
    rcases envid2env_live he with he | he
    · exact he ▸ hc
    · exact he

theorem dispatch {tf : Trapframe} (l : LiveDirs s) (hc : s.status c ≠ .free)
    (h : DispatchEffect m s c tf x) : LiveDirs x.state := by
  cases h
  case exit h     => exact l.destroyed h
  case call y _ h =>
    have l₁ := l.syscall hc h
    cases y
    case ret => exact l₁.setEnv fun h => l₁.pgdir h
    all_goals exact l₁
  case upcall     => exact l.saveTf
  case resume     => exact l
  case timer      => exact l

theorem trap {tf : Trapframe} (l : LiveDirs s) (hc : s.status c ≠ .free)
    (h : TrapEffect m s c tf x) : LiveDirs x.state := by
  cases h
  case zombie h   => exact l.freed h
  case dispatch h =>
    have hst : (s.saveTf c tf).status = s.status := by
      rw [State.status_update (s := s) rfl]
      exact update_eq_self ..
    exact l.saveTf.dispatch (hst ▸ hc) h

theorem envRun {cur : Option EnvPtr} {n : Nat} (l : LiveDirs s) (h : envRun s cur e n = some s') :
    LiveDirs s' := by
  have lp : LiveDirs (preempt s cur) := by
    cases cur
    case none => exact l
    case some c =>
      simp only [preempt]
      split
      case isTrue hr => exact l.setEnv fun _ => l.pgdir (by rw [hr]; decide)
      case isFalse   => exact l
  simp only [Kern.envRun] at h
  split at h
  case isTrue     => cases h
  case isFalse hp => cases h; exact lp.setEnv fun _ => hp

end LiveDirs

end Kern

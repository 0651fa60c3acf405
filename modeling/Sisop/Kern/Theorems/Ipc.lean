import Sisop.Kern.Theorems.Reachable
import Sisop.Kern.Theorems.Envs
import Sisop.Kern.Theorems.Failure

-- What a successful `sys_ipc_try_send` transfers.

namespace Kern

open Inc Function Library State

variable {m : Machine} {K : Nat → Nat → Word} {s₀ s s' : State} {own hand : List Nat} {c e : EnvPtr}
  {envid value srcva perm : Word} {x : Exit} {ev : Event}

section Send

-- The page that `e` maps at `va`.
def State.pageAt (s : State) (e : EnvPtr) (va : Word) : Option Nat := (s.lookup e va).bind entryPage

-- The sender `c` offers a page, and the receiver `e` asks for one.
def Wanted (s : State) (e : EnvPtr) (srcva : Word) : Prop :=
  srcva < UTOP ∧ (s.envs e).envIpcDstva < UTOP

instance : Decidable (Wanted s e srcva) := inferInstanceAs (Decidable (_ ∧ _))

-- What a message should do: transfer a page where both sides ask for it, and nothing elsewhere.
structure Transferred (s : State) (c e : EnvPtr) (srcva perm : Word) (s' : State) : Prop where
  page   : srcva < UTOP → ∀ hd : (s.envs e).envIpcDstva < UTOP, ∃ p, s.pageAt c srcva = some p ∧
    s'.entry = setEntry s.entry e (pdx (s.envs e).envIpcDstva hd) (ptx (s.envs e).envIpcDstva)
      (page2pa p ||| perm ||| PTE_P) ∧ (s'.envs e).envIpcPerm = perm
  noPage : ¬Wanted s e srcva → s'.mem = s.mem ∧ s'.pages = s.pages ∧
    s'.pageFreeList = s.pageFreeList ∧ (s'.envs e).envIpcPerm = 0#32
  perm   : (s'.envs e).envIpcPerm ≠ 0#32 ↔ Wanted s e srcva

theorem ne_zero_of_badPerm (h : badPerm perm = false) : perm ≠ 0#32 := by
  rintro rfl
  revert h
  decide

theorem sysIpcTrySendChecks_error {r : Word}
    (h : sysIpcTrySendChecks m s c srcva perm = some (.error r)) : r = err E_INVAL := by
  simp only [sysIpcTrySendChecks] at h
  split at h
  case isTrue => cases h; rfl
  split at h
  case isTrue => cases h; rfl
  simp only [Option.bind_eq_bind, Option.bind_eq_some_iff] at h
  obtain ⟨_, _, l, _, h⟩ := h
  cases l
  case none => cases h; rfl
  case some =>
    dsimp only at h
    split at h
    case isTrue  => cases h; rfl
    case isFalse => cases h

-- The two ways in which `sys_ipc_try_send` succeeds.
theorem sysIpcTrySend_ok (he : envid2env s c envid false = .ok e)
    (h : sysIpcTrySend m s c envid value srcva perm = some (.ret 0#32 s')) :
    (srcva < UTOP ∧ ∃ pd pd' p slot s₁, PGNUM perm = 0 ∧ perm ≠ 0#32 ∧ s.pgdir c = some pd ∧
      s.pgdir e = some pd' ∧ pageLookup m s pd srcva = some (some (p, slot)) ∧
      pageInsert m s pd' p (s.envs e).envIpcDstva perm = some (0#32, s₁) ∧
      s' = s₁.setEnv e (deliver (s₁.envs e) (s₁.envs c) value perm)) ∨
    (¬srcva < UTOP ∧ s' = s.setEnv e (deliver (s.envs e) (s.envs c) value 0#32)) := by
  have hrecv : ¬err E_IPC_NOT_RECV = 0#32 := by decide
  have hinval : ¬err E_INVAL = 0#32 := by decide
  simp only [sysIpcTrySend, he] at h
  split at h
  case isTrue =>
    simp only [Option.some.injEq, Exit.ret.injEq] at h
    exact absurd h.left hrecv
  split at h
  case isFalse hs =>
    simp only [Option.some.injEq, Exit.ret.injEq, true_and] at h
    exact .inr ⟨hs, h.symm⟩
  case isTrue hs =>
    simp only [Option.bind_eq_bind, Option.bind_eq_some_iff] at h
    obtain ⟨r, hr, hx⟩ := h
    cases r
    case error r =>
      simp only [Option.some.injEq, Exit.ret.injEq] at hx
      exact absurd ((sysIpcTrySendChecks_error hr).symm.trans hx.left) hinval
    case ok a =>
      obtain ⟨p, slot⟩ := a
      obtain ⟨pd, hperm, hpd, hl, _⟩ := KernInv.sysIpcTrySendChecks_ok hr
      have hp : badPerm perm = false := by
        by_contra hc
        rw [Bool.not_eq_false] at hc
        rw [sysIpcTrySendChecks, if_pos hc] at hr
        split at hr <;> cases hr
      simp only [Option.bind_eq_some_iff, Prod.exists] at hx
      obtain ⟨pd', hpd', r, s₁, hi, hx⟩ := hx
      split at hx
      case isTrue hne =>
        simp only [Option.some.injEq, Exit.ret.injEq] at hx
        exact absurd hx.left hne
      case isFalse hz =>
        rw [not_not] at hz
        simp only [Option.some.injEq, Exit.ret.injEq, true_and] at hx
        rw [hz] at hi
        exact .inl ⟨hs, pd, pd', p, slot, s₁, hperm, ne_zero_of_badPerm hp, hpd, hpd', hl, hi, hx.symm⟩

-- `page_lookup` finds no other page than the one that is mapped, but page 0 where there is none.
theorem PageInv.pageLookup_pageAt {pd p q : Nat} {va : Word} {slot : Slot}
    (i : PageInv m K s own hand) (h : s.pgdir e = some pd)
    (hl : pageLookup m s pd va = some (some (p, slot))) (hva : va < UTOP)
    (hq : s.pageAt e va = some q) : q = p := by
  rw [State.pageAt, lookup_bind hva] at hq
  have ht : ∃ pt, s.tableOf e (pdx va hva) = some pt := by
    by_contra hc
    have hn : s.tableOf e (pdx va hva) = none := by
      rw [← Option.not_isSome_iff_eq_none, Option.isSome_iff_exists]
      exact hc
    rw [i.tables.pageLookup_none h hva hn] at hl
    cases hl
  obtain ⟨pt, ht⟩ := ht
  have hp : present (s.pte slot) := by
    rw [i.tables.pageLookup_some h hva ht] at hl
    obtain ⟨_, _, hl⟩ := Option.map_eq_some_iff.mp hl
    cases hl
    rw [show s.pte (pt, PTX va) = s.entry e (pdx va hva) (ptx va) from (entry_eq (t := ptx va) ht).symm]
    exact (entryPage_eq_some.mp hq).left
  exact Option.some.inj (hq.symm.trans (i.pageLookup_present h hva hl hp))

-- A page arrives exactly as both sides asked, if an offered page is there and the receiver asks for one.
theorem ipc_transfer (i : PageInv m K s own hand) (he : envid2env s c envid false = .ok e)
    (h : sysIpcTrySend m s c envid value srcva perm = some (.ret 0#32 s')) :
    Transferred s c e srcva perm s' ↔
      (srcva < UTOP → (s.envs e).envIpcDstva < UTOP ∧ s.pageAt c srcva ≠ none) := by
  rcases sysIpcTrySend_ok he h with ⟨hs, pd, pd', p, slot, s₁, hperm, hne, hpd, hpd', hl, hi, hx⟩ | ⟨hs, hx⟩
  case inr =>
    refine iff_of_true ?_ fun hc => absurd hc hs
    subst hx
    constructor
    case page   => exact fun hc => absurd hc hs
    case noPage =>
      intro _
      refine ⟨rfl, rfl, rfl, ?_⟩
      rw [setEnv_envs_self, deliver]
    case perm   =>
      rw [setEnv_envs_self, deliver]
      exact iff_of_false (absurd rfl) fun hw => hs hw.left
  case inl =>
    have hp : (s'.envs e).envIpcPerm = perm := by
      rw [hx, setEnv_envs_self, deliver]
    constructor
    case mp =>
      intro t _
      have hd : Wanted s e srcva := t.perm.mp (hp ▸ hne)
      obtain ⟨q, hq, _⟩ := t.page hs hd.right
      exact ⟨hd.right, by simp [hq]⟩
    case mpr =>
      intro hc
      obtain ⟨hd, hq⟩ := hc hs
      have hw : Wanted s e srcva := ⟨hs, hd⟩
      obtain ⟨q, hq⟩ := Option.ne_none_iff_exists'.mp hq
      have hqp : q = p := i.pageLookup_pageAt hpd hl hs hq
      have hs' : s'.entry = s₁.entry := by
        rw [hx]
        exact entry_setEnv rfl
      refine ⟨fun _ _ => ⟨q, hq, ?_, hp⟩, fun hc => absurd hw hc, iff_of_true (hp ▸ hne) hw⟩
      rw [hs', hqp, i.pageInsert_entry hpd' hd hi, if_pos rfl]

namespace Sample

-- The user program waits for a page at `dstva`, and the file server gets one.
def waiting (dstva : Word) : List Event := [
  .run none user 0,
  .trap user 0#32 (call SYS_ipc_recv dstva 0 0 0 0),
  .run (some user) fs 0,
  .trap fs 0#32 (call SYS_page_alloc 0 0x1000 (PTE_U ||| PTE_P) 0 0)]

-- The file server sends the page.
def send (s : State) : Option Exit := sysIpcTrySend machine s fs 0x1001 7 0x1000 (PTE_U ||| PTE_P)

theorem waiting_safe {dstva : Word} : ∀ ev ∈ waiting dstva, ∀ s, SafeStep machine s ev := by
  simp only [waiting, List.mem_cons, List.not_mem_nil, or_false, forall_eq_or_imp, forall_eq]
  exact ⟨fun _ => trivial, fun _ _ _ => ⟨nofun, nofun, nofun⟩, fun _ => trivial,
    fun _ _ _ => ⟨nofun, nofun, nofun⟩⟩

-- A program that waits at `dstva` gets the message.
theorem reachable_send (dstva : Word) {P : State → State → Prop} [∀ s, DecidablePred (P s)]
    (h : (start >>= (exec · (waiting dstva))).any fun s =>
      decide (envid2env s fs 0x1001 false = .ok user) && (send s).any fun x =>
        x.returns 0#32 && decide (P s x.state)) :
    ∃ s s', KernInv machine boot.mem s ∧ envid2env s fs 0x1001 false = .ok user ∧
      send s = some (.ret 0#32 s') ∧ P s s' := by
  obtain ⟨s, hr, hp⟩ := reachable_exec (P := fun s =>
    (decide (envid2env s fs 0x1001 false = .ok user) && (send s).any fun x =>
      x.returns 0#32 && decide (P s x.state)) = true) (waiting dstva) waiting_safe (by simpa using h)
  obtain ⟨he, hx⟩ := Bool.and_eq_true_iff.mp hp
  obtain ⟨x, hx, hp⟩ := (Option.any_eq_true _ _).mp hx
  obtain ⟨hr', hp⟩ := Bool.and_eq_true_iff.mp hp
  obtain ⟨s', hs⟩ := Exit.returns_iff.mp hr'
  subst hs
  exact ⟨s, s', hr.kernInv, of_decide_eq_true he, hx, of_decide_eq_true hp⟩

end Sample

theorem ipc_transfer_waiting : ∃ s s', Sample.send s = some (.ret 0#32 s') ∧
    (s'.envs Sample.user).envIpcPerm = PTE_U ||| PTE_P ∧
    (Transferred s Sample.fs Sample.user 0x1000 (PTE_U ||| PTE_P) s' ↔
      (0x1000#32 < UTOP → (s.envs Sample.user).envIpcDstva < UTOP ∧
        s.pageAt Sample.fs 0x1000 ≠ none)) := by
  obtain ⟨s, s', i, he, hs, hp⟩ := Sample.reachable_send 0x2000#32
    (P := fun _ s' => (s'.envs Sample.user).envIpcPerm = PTE_U ||| PTE_P) (by decide +kernel)
  exact ⟨s, s', hs, hp, ipc_transfer i.page he hs⟩

-- The user program asks for no page, as `ipc_recv` does, and gets one.
theorem not_ipc_transfer : ¬∀ {m K s s' own hand c e envid value srcva perm}, PageInv m K s own hand →
    envid2env s c envid false = .ok e →
    sysIpcTrySend m s c envid value srcva perm = some (.ret 0#32 s') →
    Transferred s c e srcva perm s' := by
  intro h
  obtain ⟨s, s', i, he, hs, hd⟩ := Sample.reachable_send UTOP
    (P := fun s s' => ¬(s.envs Sample.user).envIpcDstva < UTOP ∧
      (s'.envs Sample.user).envIpcPerm ≠ 0#32) (by decide +kernel)
  exact hd.left ((h i.page he hs).perm.mp hd.right).right

end Send

section Wish

-- Where `e` waits for a message, it did so before, with the same `env_ipc_dstva`.
def Waited (e : EnvPtr) (s s' : State) : Prop :=
  (s'.envs e).envIpcRecving →
    (s.envs e).envIpcRecving ∧ (s'.envs e).envIpcDstva = (s.envs e).envIpcDstva

namespace Waited

variable {e' : EnvPtr} {v : Env} {s₁ s₂ : State}

theorem refl : Waited e s s := fun h => ⟨h, rfl⟩

theorem trans (h₁ : Waited e s s₁) (h₂ : Waited e s₁ s₂) : Waited e s s₂ := fun h =>
  ⟨(h₁ (h₂ h).left).left, (h₂ h).right.trans (h₁ (h₂ h).left).right⟩

theorem sameEnvs (h : SameEnvs s s') : Waited e s s' := by
  rw [Waited, h.envs]
  exact fun hr => ⟨hr, rfl⟩

theorem update (h : s'.envs = update s.envs e' v)
    (hv : v.envIpcRecving → (s.envs e').envIpcRecving ∧ v.envIpcDstva = (s.envs e').envIpcDstva) :
    Waited e s s' := by
  rw [Waited, h]
  by_cases he : e = e'
  · rw [he, update_self]
    exact hv
  · rw [update_of_ne he]
    exact fun hr => ⟨hr, rfl⟩

theorem setEnv (hv : v.envIpcRecving → (s.envs e').envIpcRecving ∧
    v.envIpcDstva = (s.envs e').envIpcDstva) : Waited e s (s.setEnv e' v) :=
  update rfl hv

theorem freed (h : Freed s e' s') : Waited e s s' :=
  update h.envs fun hr => ⟨hr, rfl⟩

theorem newEnv {parentId : Word} (h : NewEnv s parentId e' v s') : Waited e s s' :=
  update h.envs fun hr => absurd (h.recving.symm.trans hr) (by decide)

theorem destroyed (h : Destroyed s c e' x) : Waited e s x.state := by
  cases h
  case dying => exact setEnv fun hr => ⟨hr, rfl⟩
  case freed h =>
    split <;> exact freed h

end Waited

-- The step by which `e` starts to wait.
def Asks (e : EnvPtr) (ev : Event) (dstva : Word) : Prop :=
  ∃ getc tf, ev = .trap e getc tf ∧ tf.tfTrapno = T_SYSCALL ∧ tf.tfRegs.regEax = SYS_ipc_recv ∧
    tf.tfRegs.regEdx = dstva

-- After a step, `e` waits with the address that it had or that it asks with.
theorem step_dstva (h : Step m s ev s') :
    Waited e s s' ∨ Asks e ev (s'.envs e).envIpcDstva := by
  cases h
  case run cur e' n h =>
    refine .inl ?_
    simp only [envRun] at h
    split at h
    case isTrue  => cases h
    case isFalse =>
      cases h
      have hp : Waited e s (preempt s cur) := by
        cases cur
        case none   => exact .refl
        case some c =>
          simp only [preempt]
          split
          · exact .setEnv fun hr => ⟨hr, rfl⟩
          · exact .refl
      exact hp.trans (.setEnv fun hr => ⟨hr, rfl⟩)
  case trap c getc tf x h =>
    have ht : TrapEffect m s c tf x := trapUser_effect h
    clear h
    cases ht
    case zombie hf   => exact .inl (.freed hf)
    case dispatch hd =>
      have hs : Waited e s (s.saveTf c tf) := .setEnv fun hr => ⟨hr, rfl⟩
      cases hd
      case exit hd => exact .inl (hs.trans (.destroyed hd))
      case upcall  => exact .inl (hs.trans (.setEnv fun hr => ⟨hr, rfl⟩))
      case resume  => exact .inl hs
      case timer   => exact .inl hs
      case call y hn h =>
        have hx : Waited e y.state (y.setEax c).state := by
          cases y
          case ret => exact .setEnv fun hr => ⟨hr, rfl⟩
          all_goals exact .refl
        refine Or.imp_left (fun hw : Waited e (s.saveTf c tf) y.state => hs.trans (hw.trans hx)) ?_
        cases h
        case quiet h       => exact .inl (.sameEnvs h)
        case yield         => exact .inl .refl
        case exit h        => exact .inl (.destroyed h)
        case destroy h     => exact .inl (.destroyed h)
        case exofork h _   => exact .inl (.newEnv h)
        case setStatus     => exact .inl (.setEnv fun hr => ⟨hr, rfl⟩)
        case setUpcall     => exact .inl (.setEnv fun hr => ⟨hr, rfl⟩)
        case recv hr       =>
          by_cases he : e = c
          · subst he
            refine .inr ⟨getc, tf, rfl, hn, hr, ?_⟩
            simp only [Exit.setEax, Exit.state, State.setEnv_envs_self]
          · refine .inl fun hr => ?_
            rw [Exit.state, State.setEnv_envs_of_ne he] at hr ⊢
            exact ⟨hr, rfl⟩
        case send h        => exact .inl ((Waited.sameEnvs h).trans (.setEnv fun hr => absurd hr Bool.false_ne_true))

-- While `e` waits, `env_ipc_dstva` is what it passed to `sys_ipc_recv` last.
theorem run_dstva {guard : State → Event → Prop} (r : Run (Step m) guard s s')
    (h₀ : (s.envs e).envIpcRecving = false) (h : (s'.envs e).envIpcRecving) :
    ∃ s₁ ev s₂, Run (Step m) guard s s₁ ∧ Step m s₁ ev s₂ ∧ Asks e ev (s'.envs e).envIpcDstva ∧
      Run (Step m) guard s₂ s' := by
  induction r
  case refl => exact absurd (h₀.symm.trans h) (by decide)
  case tail s₁ s₂ ev r hg hs hi =>
    rcases step_dstva (e := e) hs with hw | ha
    case inl =>
      obtain ⟨hr, hd⟩ := hw h
      obtain ⟨s₃, ev', s₄, r₃, hs', ha, r₄⟩ := hi hr
      exact ⟨s₃, ev', s₄, r₃, hs', hd ▸ ha, r₄.tail hg hs⟩
    case inr => exact ⟨s₁, ev, s₂, r, hs, ha, .refl⟩

end Wish

end Kern

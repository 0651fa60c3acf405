import Sisop.Kern.Theorems.Entry
import Sisop.Kern.Theorems.Reachable
import Sisop.Kern.Theorems.Failure

namespace Kern

open Inc Function Library State

variable {m : Machine} {K : Nat → Nat → Word} {s₀ s s' : State} {c d e : EnvPtr} {x : Exit}
  {getc no a1 a2 a3 a4 a5 : Word}

section Isolation

-- The environment `c` may act on `d`.
def Controls (s : State) (c d : EnvPtr) : Prop :=
  d = c ∨ (s.envs d).envParentId = (s.envs c).envId

instance : Decidable (Controls s c d) := inferInstanceAs (Decidable (_ ∨ _))

-- Steps without the defects of the page functions, and traps of environments that still exist.
def OrderlyStep (m : Machine) (s : State) (ev : Event) : Prop :=
  SafeStep m s ev ∧ match ev with
    | .trap c .. => s.status c ≠ .free
    | .run ..    => True

theorem boot_status (b : Boot m s) (e : EnvPtr) : s.status e = .free := by
  obtain ⟨_, mem, s₁, s₂, s₃, s₄, base, _, _, _, _, h⟩ := b
  have h := lapicInits_envs h
  rw [h.status]
  rfl

theorem LiveDirs.envCreates {l : List (Elf × EnvType)} (i : LiveDirs s)
    (h : envCreates m s l = some s') : LiveDirs s' := by
  refine foldlM_list h i fun _ i hc => ?_
  obtain ⟨_, _, n, _⟩ := envCreate_newEnv hc
  exact i.newEnv n

theorem Reachable.liveDirs (r : Reachable m (OrderlyStep m) s₀ s) : LiveDirs s := by
  obtain ⟨hb, _, s₁, hc, hr⟩ := r
  have i₁ : LiveDirs s₁ := LiveDirs.envCreates ⟨fun h => absurd (boot_status hb _) h⟩ hc
  refine hr.invariant i₁ fun i g h => ?_
  cases h
  case trap h => exact i.trap g.right (trapUser_effect h)
  case run h  => exact i.envRun h

theorem Reachable.orderly (r : Reachable m (OrderlyStep m) s₀ s) : KernInv m s₀.mem s :=
  have ⟨hb, l, s₁, hc, hr⟩ := r
  Reachable.kernInv ⟨hb, l, s₁, hc, hr.weaken And.left⟩

-- A system call other than `sys_ipc_try_send` writes only environments that the caller controls, and
-- new ones.
theorem envs_of_not_controls (i : EnvList s) (l : LiveDirs s) (hd : s.status d ≠ .free)
    (hc : ¬Controls s c d) (hn : no ≠ SYS_ipc_try_send) (h : SyscallEffect m s c no a1 a2 a3 a4 x) :
    x.state.envs d = s.envs d := by
  simp only [Controls, not_or] at hc
  have hperm {e : EnvPtr} {envid : Word} (he : envid2env s c envid true = .ok e) : d ≠ e := by
    rintro rfl
    rcases envid2env_perm he with he | he
    · exact hc.left he
    · exact hc.right he.right
  have hdest {x : Exit} {e : EnvPtr} (hde : d ≠ e) (h : Destroyed s c e x) :
      x.state.envs d = s.envs d := by
    cases h
    case dying => exact State.setEnv_envs_of_ne hde
    case freed h =>
      split <;> (rw [Exit.state, h.envs, update_of_ne hde])
  cases h
  case quiet h       => rw [Exit.state, h.envs]
  case yield         => rfl
  case exit h        => exact hdest hc.left h
  case destroy he h  => exact hdest (hperm he) h
  case exofork n _   =>
    have hde : d ≠ _ := fun hde => l.pgdir hd (hde ▸ i.head_pgdir n.head)
    rw [Exit.state, n.envs, update_of_ne hde]
  case setStatus he  => exact State.setEnv_envs_of_ne (hperm he)
  case setUpcall he  => exact State.setEnv_envs_of_ne (hperm he)
  case recv          => exact State.setEnv_envs_of_ne hc.left
  case send hn' _ _ _ => exact absurd hn' hn

theorem entry_of_not_controls (hc : ¬Controls s c d) (hn : no ≠ SYS_ipc_try_send)
    (h : EntryEffect m s c no a1 a2 a3 a4 a5 s') : s'.entry d = s.entry d := by
  simp only [Controls, not_or] at hc
  have hperm {e : EnvPtr} {envid : Word} (he : envid2env s c envid true = .ok e) : d ≠ e := by
    rintro rfl
    rcases envid2env_perm he with he | he
    · exact hc.left he
    · exact hc.right he.right
  cases h
  case same h         => rw [h]
  case alloc he _ _ h => rw [h, setEntry_of_ne (hperm he)]
  case map he _ _ _ _ h => rw [h, setEntry_of_ne (hperm he)]
  case unmap he h     => rw [h, setEntry_of_ne (hperm he)]
  case destroy he h _ =>
    rcases he with he | he
    · exact h (he ▸ hc.left)
    · exact h (hperm he.right)
  case send hn' _ _ _ _ _ _ => exact absurd hn' hn

-- A call by `c` names the environment `d`, by its id or an older one.
def Names (envid : Word) (d : EnvPtr) : Prop := envid ≠ 0#32 ∧ ENVX envid = d

theorem envid2env_refused {envid : Word} (hc : ¬Controls s c d) (hn : Names envid d) :
    envid2env s c envid true = .error (err E_BAD_ENV) := by
  simp only [Controls, not_or] at hc
  obtain ⟨h0, hd⟩ := hn
  subst hd
  simp [envid2env, h0, hc]

-- The calls that need permission for the environment they name in their first argument.
def permCalls : List Word :=
  [SYS_env_destroy, SYS_env_set_status, SYS_env_set_pgfault_upcall, SYS_page_alloc, SYS_page_map,
    SYS_page_unmap]

-- The arguments that such a call checks before it looks at environments are invalid.
def invalidArgs (no a2 a3 a4 a5 : Word) : Bool :=
  if no = SYS_env_set_status then (settableStatus a2).isNone
  else if no = SYS_page_alloc then badVa a2 || badPerm a3
  else if no = SYS_page_map then badVa a2 || badVa a4 || badPerm a5
  else if no = SYS_page_unmap then badVa a2
  else false

theorem sysPageMap_refused {srcenvid srcva dstenvid dstva perm : Word} (hc : ¬Controls s c d)
    (hn : Names srcenvid d ∨ Names dstenvid d) :
    sysPageMap m s c srcenvid srcva dstenvid dstva perm = some (.ret
      (if badVa srcva || badVa dstva || badPerm perm then err E_INVAL else err E_BAD_ENV) s) := by
  simp only [sysPageMap, sysPageMapChecks]
  by_cases h₁ : badVa srcva
  · simp [h₁]
  by_cases h₂ : badVa dstva
  · simp [h₁, h₂]
  by_cases h₃ : badPerm perm
  · simp [h₁, h₂, h₃]
  cases hs : envid2env s c srcenvid true
  case error r => simp [h₁, h₂, h₃, envid2env_error hs]
  case ok =>
    have hd : Names dstenvid d := by
      refine hn.resolve_left fun hn => ?_
      rw [envid2env_refused hc hn] at hs
      cases hs
    simp [h₁, h₂, h₃, envid2env_refused hc hd]

theorem syscall_refused (hc : ¬Controls s c d)
    (hn : no ∈ permCalls ∧ Names a1 d ∨ no = SYS_page_map ∧ Names a3 d) :
    syscall m s c getc no a1 a2 a3 a4 a5 = some (.ret
      (if invalidArgs no a2 a3 a4 a5 then err E_INVAL else err E_BAD_ENV) s) := by
  rcases hn with ⟨hn, hd⟩ | ⟨hn, hd⟩
  case inr =>
    subst hn
    exact sysPageMap_refused hc (.inr hd)
  case inl =>
    have he := envid2env_refused hc hd
    simp only [permCalls, List.mem_cons, List.not_mem_nil, or_false] at hn
    rcases hn with hn | hn | hn | hn | hn | hn <;> subst hn
    · show sysEnvDestroy m s c a1 = _
      simp only [sysEnvDestroy, he]
      rfl
    · show some (sysEnvSetStatus s c a1 a2) = _
      simp only [sysEnvSetStatus, he, invalidArgs, if_true]
      cases settableStatus a2 <;> rfl
    · show some (sysEnvSetPgfaultUpcall s c a1 a2) = _
      simp only [sysEnvSetPgfaultUpcall, he]
      rfl
    · show sysPageAlloc m s c a1 a2 a3 = _
      have hi : invalidArgs SYS_page_alloc a2 a3 a4 a5 = (badVa a2 || badPerm a3) := rfl
      rw [hi, sysPageAlloc, he]
      cases badVa a2 <;> cases badPerm a3 <;> rfl
    · exact sysPageMap_refused hc (.inl hd)
    · show sysPageUnmap m s c a1 a2 = _
      have hi : invalidArgs SYS_page_unmap a2 a3 a4 a5 = badVa a2 := rfl
      rw [hi, sysPageUnmap, he]
      cases badVa a2 <;> rfl

-- What the calls of other environments leave of `d`.
structure Isolated (d : EnvPtr) (s s' : State) : Prop where
  entry    : s'.entry d = s.entry d
  tf       : (s'.envs d).envTf = (s.envs d).envTf
  upcall   : (s'.envs d).envPgfaultUpcall = (s.envs d).envPgfaultUpcall
  parentId : (s'.envs d).envParentId = (s.envs d).envParentId
  recving  : (s'.envs d).envIpcRecving = (s.envs d).envIpcRecving
  dstva    : (s'.envs d).envIpcDstva = (s.envs d).envIpcDstva
  value    : (s'.envs d).envIpcValue = (s.envs d).envIpcValue
  sender   : (s'.envs d).envIpcFrom = (s.envs d).envIpcFrom
  perm     : (s'.envs d).envIpcPerm = (s.envs d).envIpcPerm

-- The environments that `c` does not control are isolated from its system calls.
theorem isolated {tf : Trapframe} (r : Reachable m (OrderlyStep m) s₀ s) (hd : s.status d ≠ .free)
    (hc : ¬Controls s c d) :
    (no ≠ SYS_ipc_try_send → syscall m (s.saveTf c tf) c getc no a1 a2 a3 a4 a5 = some x →
      Isolated d s x.state) ∧
    (no ∈ permCalls ∧ Names a1 d ∨ no = SYS_page_map ∧ Names a3 d →
      syscall m (s.saveTf c tf) c getc no a1 a2 a3 a4 a5 = some (.ret
        (if invalidArgs no a2 a3 a4 a5 then err E_INVAL else err E_BAD_ENV) (s.saveTf c tf))) := by
  have hdc : d ≠ c := fun h => hc (.inl h)
  have hd' : (s.saveTf c tf).envs d = s.envs d := State.setEnv_envs_of_ne hdc
  have hst : (s.saveTf c tf).status d ≠ .free := by
    rw [State.status, hd']
    exact hd
  have hc' : ¬Controls (s.saveTf c tf) c d := by
    have hid : ((s.saveTf c tf).envs c).envId = (s.envs c).envId := by
      simp [State.saveTf, State.setEnv]
    rw [Controls, hd', hid]
    exact hc
  refine ⟨fun hn h => ?_, syscall_refused hc'⟩
  have i : KernInv m s₀.mem (s.saveTf c tf) := r.orderly.saveTf
  have hent := entry_of_not_controls hc' hn (i.syscall_entry h fun hn' => absurd hn' hn)
  have henv := envs_of_not_controls i.envs r.liveDirs.saveTf hst hc' hn (syscall_effect h)
  have hent' : (s.saveTf c tf).entry d = s.entry d := by
    rw [State.saveTf, entry_setEnv]
    rfl
  rw [hd'] at henv
  refine ⟨hent.trans hent', ?_, ?_, ?_, ?_, ?_, ?_, ?_, ?_⟩ <;> rw [henv]

-- The file server allocates a page, and may not allocate one for the user program.
theorem isolated_user : ∃ s, Reachable Sample.machine (OrderlyStep Sample.machine) Sample.boot s ∧
    (∃ x, syscall Sample.machine (s.saveTf Sample.fs .zero) Sample.fs 0 SYS_page_alloc 0 0 7 0 0 =
      some x ∧ x.state.pageFreeList ≠ s.pageFreeList ∧ Isolated Sample.user s x.state) ∧
    syscall Sample.machine (s.saveTf Sample.fs .zero) Sample.fs 0 SYS_page_alloc 0x1001 0 7 0 0 =
      some (.ret (err E_BAD_ENV) (s.saveTf Sample.fs .zero)) := by
  have hg : ∀ ev ∈ [Event.run none Sample.fs 0], ∀ s, OrderlyStep Sample.machine s ev := by
    simp only [List.mem_singleton, forall_eq]
    exact fun _ => ⟨trivial, trivial⟩
  obtain ⟨s, hr, hd, hc, hx⟩ := Sample.reachable_exec
    (P := fun s => s.status Sample.user ≠ .free ∧ ¬Controls s Sample.fs Sample.user ∧
      (syscall Sample.machine (s.saveTf Sample.fs .zero) Sample.fs 0 SYS_page_alloc 0 0 7 0 0).any
        fun x => x.state.pageFreeList ≠ s.pageFreeList)
    [.run none Sample.fs 0] hg (by decide +kernel)
  obtain ⟨x, hx, hp⟩ := (Option.any_eq_true _ _).mp hx
  have hn : SYS_page_alloc ∈ permCalls := by decide
  refine ⟨s, hr, ⟨x, hx, of_decide_eq_true hp, (isolated hr hd hc).left (by decide) hx⟩, ?_⟩
  exact (isolated (x := x) hr hd hc).right (.inl ⟨hn, by decide, rfl⟩)

-- A call with invalid arguments fails before it looks at the environment that it names.
theorem not_refused_bad_env : ¬∀ {m s₀ s c d getc no a1 a2 a3 a4 a5},
    Reachable m (OrderlyStep m) s₀ s → s.status d ≠ .free → ¬Controls s c d →
      no ∈ permCalls → Names a1 d →
        syscall m s c getc no a1 a2 a3 a4 a5 = some (.ret (err E_BAD_ENV) s) := by
  intro h
  obtain ⟨s, hr, hd, hc, hx⟩ := Sample.reachable_exec
    (P := fun s => s.status Sample.user ≠ .free ∧ ¬Controls s Sample.fs Sample.user ∧
      (syscall Sample.machine s Sample.fs 0 SYS_page_alloc 0x1001 UTOP 7 0 0).any
        fun x => !x.returns (err E_BAD_ENV))
    [] nofun (by decide +kernel)
  have hx' : syscall Sample.machine s Sample.fs 0 SYS_page_alloc 0x1001 UTOP 7 0 0 =
      some (.ret (err E_BAD_ENV) s) :=
    h hr hd hc (by decide) ⟨by decide, rfl⟩
  rw [hx'] at hx
  simp [Exit.returns] at hx

end Isolation

end Kern

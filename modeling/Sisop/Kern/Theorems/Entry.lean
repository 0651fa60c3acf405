import Sisop.Kern.Theorems.Step

-- What the system calls do to address spaces.

namespace Kern

open Inc Function Library State

-- The effect of a system call on the address spaces below `UTOP`.
inductive EntryEffect (m : Machine) (s : State) (c : EnvPtr) (no a1 a2 a3 a4 a5 : Word) (s' : State) :
    Prop
  | same (h : s'.entry = s.entry)
  | alloc {e p} (hva : a2 < UTOP) (hn : no = SYS_page_alloc) (he : envid2env s c a1 true = .ok e)
    (hp : s.pageFreeList = some p) (hperm : PGNUM a3 = 0)
    (h : s'.entry = setEntry s.entry e (pdx a2 hva) (ptx a2) (page2pa p ||| a3 ||| PTE_P))
  | map {src dst pd p slot} (hsrc : a2 < UTOP) (hdst : a4 < UTOP) (hn : no = SYS_page_map)
    (he : envid2env s c a1 true = .ok src) (he' : envid2env s c a3 true = .ok dst)
    (hpd : s.pgdir src = some pd) (hl : pageLookup m s pd a2 = some (some (p, slot)))
    (hw : badWrite (s.pte slot) a5 = false) (hperm : PGNUM a5 = 0)
    (h : s'.entry = setEntry s.entry dst (pdx a4 hdst) (ptx a4) (page2pa p ||| a5 ||| PTE_P))
  | unmap {e} (hva : a2 < UTOP) (hn : no = SYS_page_unmap) (he : envid2env s c a1 true = .ok e)
    (h : s'.entry = setEntry s.entry e (pdx a2 hva) (ptx a2) 0#32)
  | destroy {e} (he : e = c ∨ no = SYS_env_destroy ∧ envid2env s c a1 true = .ok e)
    (h : ∀ {e'}, e' ≠ e → s'.entry e' = s.entry e')
    (h0 : ∀ {d t}, s'.entry e d t = s.entry e d t ∨ s'.entry e d t = 0#32)
  | send {e pd p slot} (hsrc : a3 < UTOP) (hdst : (s.envs e).envIpcDstva < UTOP)
    (hn : no = SYS_ipc_try_send) (he : envid2env s c a1 false = .ok e)
    (hpd : s.pgdir c = some pd) (hl : pageLookup m s pd a3 = some (some (p, slot)))
    (hw : badWrite (s.pte slot) a4 = false) (hperm : PGNUM a4 = 0)
    (h : s'.entry = setEntry s.entry e (pdx (s.envs e).envIpcDstva hdst) (ptx (s.envs e).envIpcDstva)
      (page2pa p ||| a4 ||| PTE_P))

namespace KernInv

variable {m : Machine} {K : Nat → Nat → Word} {s s' : State} {c e : EnvPtr} {x : Exit}
  {no a1 a2 a3 a4 a5 : Word}

theorem envDestroy_entry (i : KernInv m K s) (h : Kern.envDestroy m s c e = some x) :
    (∀ {e'}, e' ≠ e → x.state.entry e' = s.entry e') ∧
      ∀ {d t}, x.state.entry e d t = s.entry e d t ∨ x.state.entry e d t = 0#32 := by
  simp only [Kern.envDestroy] at h
  split at h
  case isTrue =>
    cases h
    let v := { s.envs e with envStatus := .dying }
    have he : (s.setEnv e v).entry = s.entry := entry_setEnv rfl
    exact ⟨fun _ => congrFun he _, .inl (congrFun (congrFun (congrFun he e) _) _)⟩
  case isFalse =>
    simp only [Option.bind_eq_bind, Option.bind_eq_some_iff, Option.some.injEq] at h
    obtain ⟨s₁, h₁, hx⟩ := h
    have hs : x.state = s₁ := by
      rw [← hx]
      split <;> rfl
    have hd : s₁.pgdir e = none := by rw [pgdir_update (envFree_freed h₁).envs, update_self]
    rw [hs]
    exact ⟨(envFree_spec i h₁).right, .inr (entry_eq_zero (tableOf_eq_none hd))⟩

theorem userMemAssert_entry {va len perm : Word} (i : KernInv m K s)
    (h : Kern.userMemAssert m s c va len perm = some (some x)) :
    (∀ {e'}, e' ≠ c → x.state.entry e' = s.entry e') ∧
      ∀ {d t}, x.state.entry c d t = s.entry c d t ∨ x.state.entry c d t = 0#32 := by
  simp only [Kern.userMemAssert, Option.bind_eq_bind, Option.bind_eq_some_iff] at h
  obtain ⟨_, _, r, _, hx⟩ := h
  cases r
  case none   => simp at hx
  case some _ =>
    simp only [Option.bind_eq_some_iff, Option.some.injEq] at hx
    obtain ⟨y, hy, hyx⟩ := hx
    exact hyx ▸ i.envDestroy_entry hy

theorem sysPageAlloc_entry (i : KernInv m K s) (hn : no = SYS_page_alloc)
    (h : Kern.sysPageAlloc m s c a1 a2 a3 = some x) :
    EntryEffect m s c no a1 a2 a3 a4 a5 x.state := by
  simp only [Kern.sysPageAlloc] at h
  split at h
  case isTrue => cases h; exact .same rfl
  split at h
  case isTrue => cases h; exact .same rfl
  rename_i hva hperm
  simp only [Bool.not_eq_true] at hva hperm
  have hva := lt_UTOP_of_badVa hva
  cases he : envid2env s c a1 true <;> simp only [he] at h
  case error => cases h; exact .same rfl
  case ok e =>
    cases ha : Kern.pageAlloc s a3 with | mk o s₁ =>
    cases o <;> simp only [ha] at h
    case none =>
      cases h
      exact .same (by rw [Exit.state, (pageAlloc_eq_none ha).left])
    case some p =>
      have a := i.page.pageAlloc ha
      have hp : s.pageFreeList = some p := by
        cases hl : s.pageFreeList <;> simp_all [Kern.pageAlloc]
      simp only [Option.bind_eq_bind, Option.bind_eq_some_iff, Prod.exists] at h
      obtain ⟨pd, hpd, r, s₂, hr, hx⟩ := h
      have hent := a.inv.pageInsert_entry hpd hva hr
      split at hx
      case isTrue h0 =>
        obtain ⟨s₃, hf, hx⟩ := Option.bind_eq_some_iff.mp hx
        cases hx
        rw [if_neg h0, a.entry] at hent
        exact .same (by rw [Exit.state, (SameSpace.pageFree hf).entry, hent])
      case isFalse h0 =>
        cases hx
        have h0 : r = 0#32 := by simpa using h0
        rw [if_pos h0, a.entry] at hent
        exact .alloc hva hn he hp (PGNUM_of_badPerm hperm) hent

theorem sysPageMap_entry (i : KernInv m K s) (hn : no = SYS_page_map)
    (h : Kern.sysPageMap m s c a1 a2 a3 a4 a5 = some x) :
    EntryEffect m s c no a1 a2 a3 a4 a5 x.state := by
  simp only [Kern.sysPageMap, Option.bind_eq_bind, Option.bind_eq_some_iff] at h
  obtain ⟨r, hr, hx⟩ := h
  cases r
  case error => cases hx; exact .same rfl
  case ok a =>
    obtain ⟨dst, p, slot⟩ := a
    obtain ⟨src, pd, hsrc, hdst, hperm, he, he', hpd, hl, hw⟩ := sysPageMapChecks_ok hr
    simp only [Option.bind_eq_some_iff, Prod.exists, Option.some.injEq] at hx
    obtain ⟨pd', hpd', r, s₁, hi, hx⟩ := hx
    subst hx
    have hent := i.page.pageInsert_entry hpd' hdst hi
    by_cases h0 : r = 0#32
    · rw [if_pos h0] at hent
      exact .map hsrc hdst hn he he' hpd hl hw hperm hent
    · rw [if_neg h0] at hent
      exact .same hent

theorem sysPageUnmap_entry (i : KernInv m K s) (hn : no = SYS_page_unmap)
    (h : Kern.sysPageUnmap m s c a1 a2 = some x) : EntryEffect m s c no a1 a2 a3 a4 a5 x.state := by
  simp only [Kern.sysPageUnmap] at h
  split at h
  case isTrue => cases h; exact .same rfl
  rename_i hva
  simp only [Bool.not_eq_true] at hva
  cases he : envid2env s c a1 true <;> simp only [he] at h
  case error => cases h; exact .same rfl
  case ok e =>
    simp only [Option.bind_eq_bind, Option.bind_eq_some_iff, Option.some.injEq] at h
    obtain ⟨pd, hpd, s₁, hr, hx⟩ := h
    subst hx
    have hva := lt_UTOP_of_badVa hva
    exact .unmap hva hn he (i.page.pageRemove_entry hpd hva hr)

theorem sysIpcTrySend_entry (i : KernInv m K s) (hn : no = SYS_ipc_try_send)
    (h : Kern.sysIpcTrySend m s c a1 a2 a3 a4 = some x)
    (g : ∀ {e p slot}, envid2env s c a1 false = .ok e → (s.envs e).envIpcRecving → a3 < UTOP →
      sysIpcTrySendChecks m s c a3 a4 = some (.ok (p, slot)) → (s.envs e).envIpcDstva < UTOP) :
    EntryEffect m s c no a1 a2 a3 a4 a5 x.state := by
  simp only [Kern.sysIpcTrySend] at h
  cases he : envid2env s c a1 false <;> simp only [he] at h
  case error => cases h; exact .same rfl
  case ok e =>
    split at h
    case isTrue => cases h; exact .same rfl
    rename_i hrecv
    simp only [Bool.not_eq_true', Bool.not_eq_false] at hrecv
    split at h
    case isFalse =>
      cases h
      exact .same (entry_setEnv rfl)
    rename_i hsrc
    simp only [Option.bind_eq_bind, Option.bind_eq_some_iff] at h
    obtain ⟨r, hr, hx⟩ := h
    cases r
    case error => cases hx; exact .same rfl
    case ok a =>
      obtain ⟨p, slot⟩ := a
      have hdst := g he hrecv hsrc hr
      obtain ⟨pd, hperm, hpd, hl, hw⟩ := sysIpcTrySendChecks_ok hr
      simp only [Option.bind_eq_some_iff, Prod.exists] at hx
      obtain ⟨pd', hpd', r, s₁, hi, hx⟩ := hx
      have hent := i.page.pageInsert_entry hpd' hdst hi
      split at hx
      case isTrue h0 =>
        cases hx
        rw [if_neg h0] at hent
        exact .same hent
      case isFalse h0 =>
        cases hx
        have h0 : r = 0#32 := by simpa using h0
        rw [if_pos h0] at hent
        refine .send hsrc hdst hn he hpd hl hw hperm ((entry_setEnv ?_).trans hent)
        rfl

theorem syscall_entry {getc : Word} (i : KernInv m K s)
    (h : Kern.syscall m s c getc no a1 a2 a3 a4 a5 = some x)
    (g : no = SYS_ipc_try_send → ∀ {e p slot}, envid2env s c a1 false = .ok e →
      (s.envs e).envIpcRecving → a3 < UTOP → sysIpcTrySendChecks m s c a3 a4 = some (.ok (p, slot)) →
        (s.envs e).envIpcDstva < UTOP) : EntryEffect m s c no a1 a2 a3 a4 a5 x.state := by
  cases syscall_cases h
  case cputs hx =>
    simp only [Kern.sysCputs, Option.bind_eq_bind, Option.bind_eq_some_iff] at hx
    obtain ⟨r, hr, hx⟩ := hx
    cases r
    case none => cases hx; exact .same rfl
    case some _ =>
      cases hx
      obtain ⟨h₁, h₂⟩ := i.userMemAssert_entry hr
      exact .destroy (.inl rfl) h₁ h₂
  case cgetc hx    => exact .same (hx ▸ rfl)
  case getenvid hx => exact .same (hx ▸ rfl)
  case envDestroy hn hx =>
    simp only [Kern.sysEnvDestroy] at hx
    split at hx
    case h_1 => cases hx; exact .same rfl
    case h_2 he =>
      obtain ⟨h₁, h₂⟩ := i.envDestroy_entry hx
      exact .destroy (.inr ⟨hn, he⟩) h₁ h₂
  case yield hx => exact .same (hx ▸ rfl)
  case exofork hx =>
    simp only [Kern.sysExofork] at hx
    cases ha : Kern.envAlloc m s (s.envs c).envId with | mk r s₁ =>
    have hent := (i.envAlloc ha).right
    cases r <;> simp only [ha] at hx <;> subst hx
    case error => exact .same hent
    case ok =>
      refine .same ((entry_setEnv ?_).trans hent)
      rfl
  case envSetStatus hx =>
    simp only [Kern.sysEnvSetStatus] at hx
    cases hst : settableStatus a2 <;> simp only [hst] at hx
    case none => exact .same (hx ▸ rfl)
    case some =>
      cases he : envid2env s c a1 true <;> simp only [he] at hx <;> subst hx
      case error => exact .same rfl
      case ok    => exact .same (entry_setEnv rfl)
  case pageAlloc hn hx     => exact i.sysPageAlloc_entry hn hx
  case pageMap hn hx       => exact i.sysPageMap_entry hn hx
  case pageUnmap hn hx     => exact i.sysPageUnmap_entry hn hx
  case ipcTrySend hn hx    => exact i.sysIpcTrySend_entry hn hx (g hn)
  case ipcRecv hx =>
    simp only [Kern.sysIpcRecv] at hx
    split at hx <;> subst hx
    · exact .same rfl
    · exact .same (entry_setEnv rfl)
  case envSetPgfaultUpcall hx =>
    simp only [Kern.sysEnvSetPgfaultUpcall] at hx
    cases he : envid2env s c a1 true <;> simp only [he] at hx <;> subst hx
    case error => exact .same rfl
    case ok    => exact .same (entry_setEnv rfl)
  case invalid hx => exact .same (hx ▸ rfl)

end KernInv

end Kern

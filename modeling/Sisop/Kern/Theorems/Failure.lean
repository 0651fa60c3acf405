import Sisop.Kern.Theorems.Envs
import Sisop.Kern.Theorems.Sample

namespace Kern

open Inc Function

variable {m : Machine} {s s' : State} {c e : EnvPtr} {r : Word}

-- What a failed system call leaves behind: it may have cleared the first free page.
structure Unchanged (s s' : State) : Prop where
  pages        : s'.pages = s.pages
  pageFreeList : s'.pageFreeList = s.pageFreeList
  envs         : s'.envs = s.envs
  envFreeList  : s'.envFreeList = s.envFreeList
  mem          : ∀ {p}, s.pageFreeList ≠ some p → s'.mem p = s.mem p

theorem Unchanged.refl : Unchanged s s :=
  ⟨rfl, rfl, rfl, rfl, fun _ => rfl⟩

-- A page that could not be mapped goes back to where it came from.
theorem Unchanged.pageFree {flags : Word} {p : Nat} {s₁ : State} (ha : pageAlloc s flags = (some p, s₁))
    (hf : s₁.pageFreeList = none) (h : Kern.pageFree s₁ p = some s') : Unchanged s s' := by
  have hl : s.pageFreeList = some p := by
    cases hl : s.pageFreeList <;> simp_all [pageAlloc]
  have h₁ : s₁.pages = update s.pages p { s.pages p with ppLink := none } ∧ s₁.envs = s.envs ∧
      s₁.envFreeList = s.envFreeList ∧ s₁.pageFreeList = (s.pages p).ppLink ∧
      ∀ {q}, q ≠ p → s₁.mem q = s.mem q := by
    simp only [pageAlloc, hl, Prod.mk.injEq, true_and] at ha
    subst ha
    split
    case isTrue  => exact ⟨rfl, rfl, rfl, rfl, fun hq => by rw [State.fill_mem_of_ne hq]; rfl⟩
    case isFalse => exact ⟨rfl, rfl, rfl, rfl, fun _ => rfl⟩
  obtain ⟨hp, he, hef, hn, hm⟩ := h₁
  simp only [Kern.pageFree, Option.ite_none_left_eq_some, Option.some.injEq] at h
  obtain ⟨_, _, h⟩ := h
  subst h
  refine ⟨?_, hl.symm, he, hef, fun {q} hq => hm fun hc => hq (hc ▸ hl)⟩
  funext q
  by_cases hq : q = p
  · subst hq
    simp only [State.setPageFreeList_pages, State.setPage_pages, update_self, hf, hp]
    rw [← hn.symm.trans hf]
  · simp [hp, hq]

theorem sysPageAlloc_failed {envid va perm : Word}
    (h : sysPageAlloc m s c envid va perm = some (.ret r s')) (hr : negative r) : Unchanged s s' := by
  simp only [sysPageAlloc] at h
  split at h
  case isTrue => cases h; exact .refl
  split at h
  case isTrue => cases h; exact .refl
  split at h
  case h_1 => cases h; exact .refl
  case h_2 =>
    cases ha : pageAlloc s perm with | mk o s₁ =>
    cases o
    case none =>
      simp only [ha, Option.some.injEq, Exit.ret.injEq] at h
      have hs : s₁ = s := by
        cases hl : s.pageFreeList <;> simp_all [pageAlloc]
      exact h.right ▸ hs ▸ .refl
    case some p =>
      simp only [ha, Option.bind_eq_bind, Option.bind_eq_some_iff, Prod.exists] at h
      obtain ⟨pd, _, r₁, s₂, hi, hx⟩ := h
      split at hx
      case isFalse =>
        cases hx
        exact absurd hr (by decide)
      case isTrue h0 =>
        obtain ⟨hs, hf⟩ := pageInsert_failed hi h0
        subst hs
        obtain ⟨s₃, h₃, hx⟩ := Option.bind_eq_some_iff.mp hx
        cases hx
        exact Unchanged.pageFree ha hf h₃

theorem sysPageMap_failed {srcenvid srcva dstenvid dstva perm : Word}
    (h : sysPageMap m s c srcenvid srcva dstenvid dstva perm = some (.ret r s')) (hr : negative r) :
    Unchanged s s' := by
  simp only [sysPageMap, Option.bind_eq_bind, Option.bind_eq_some_iff] at h
  obtain ⟨x, _, h⟩ := h
  cases x
  case error => cases h; exact .refl
  case ok =>
    simp only [Option.bind_eq_some_iff, Prod.exists] at h
    obtain ⟨_, _, _, _, hi, hx⟩ := h
    cases hx
    have h0 : r ≠ 0#32 := fun h0 => absurd (h0 ▸ hr) (by decide)
    exact (pageInsert_failed hi h0).left ▸ .refl

theorem sysPageUnmap_failed {envid va : Word} (h : sysPageUnmap m s c envid va = some (.ret r s'))
    (hr : negative r) : Unchanged s s' := by
  simp only [sysPageUnmap] at h
  split at h
  case isTrue => cases h; exact .refl
  split at h
  case h_1 => cases h; exact .refl
  case h_2 =>
    simp only [Option.bind_eq_bind, Option.bind_eq_some_iff, Option.some.injEq, Exit.ret.injEq] at h
    obtain ⟨_, _, _, _, h0, _⟩ := h
    exact absurd (h0 ▸ hr) (by decide)

theorem sysIpcTrySend_failed {envid value srcva perm : Word}
    (h : sysIpcTrySend m s c envid value srcva perm = some (.ret r s')) (hr : negative r) :
    Unchanged s s' := by
  simp only [sysIpcTrySend] at h
  split at h
  case h_1 => cases h; exact .refl
  split at h
  case isTrue => cases h; exact .refl
  split at h
  case isFalse =>
    cases h
    exact absurd hr (by decide)
  case isTrue =>
    simp only [Option.bind_eq_bind, Option.bind_eq_some_iff] at h
    obtain ⟨x, _, h⟩ := h
    cases x
    case error => cases h; exact .refl
    case ok =>
      simp only [Option.bind_eq_some_iff, Prod.exists] at h
      obtain ⟨_, _, _, _, hi, h⟩ := h
      split at h
      case isFalse =>
        cases h
        exact absurd hr (by decide)
      case isTrue h0 =>
        cases h
        exact (pageInsert_failed hi h0).left ▸ .refl

-- Environment ids are positive.
theorem not_negative_generateEnvId {envId : Word} : negative (generateEnvId envId e) = false := by
  have he : e.val < 1024 := e.isLt
  have hm : (BitVec.ofNat 32 e.val).msb = false := by
    rw [BitVec.msb_eq_decide, BitVec.toNat_ofNat, Nat.mod_eq_of_lt (by omega)]
    simp
    omega
  simp only [negative, generateEnvId, BitVec.msb_or, hm, Bool.or_false]
  split
  case isTrue  => decide
  case isFalse h =>
    rw [BitVec.sle_eq_decide] at h
    rw [BitVec.msb_eq_toInt]
    simp at h
    simp
    omega

theorem sysExofork_failed (h : sysExofork m s c = .ret r s') (hr : negative r) : Unchanged s s' := by
  simp only [sysExofork] at h
  split at h
  case h_1 ha =>
    cases h
    exact envAlloc_failed ha ▸ .refl
  case h_2 ha =>
    cases h
    rw [State.setEnv_envs_self, (envAlloc_newEnv ha).left.envId] at hr
    exact absurd hr (by simp [not_negative_generateEnvId])

theorem sysEnvSetStatus_failed {envid status : Word} (h : sysEnvSetStatus s c envid status = .ret r s')
    (hr : negative r) : Unchanged s s' := by
  simp only [sysEnvSetStatus] at h
  split at h
  case h_1 => cases h; exact .refl
  split at h
  case h_1 => cases h; exact .refl
  case h_2 =>
    cases h
    exact absurd hr (by decide)

theorem sysEnvSetPgfaultUpcall_failed {envid func : Word}
    (h : sysEnvSetPgfaultUpcall s c envid func = .ret r s') (hr : negative r) : Unchanged s s' := by
  simp only [sysEnvSetPgfaultUpcall] at h
  split at h
  case h_1 => cases h; exact .refl
  case h_2 =>
    cases h
    exact absurd hr (by decide)

theorem sysEnvDestroy_failed {envid : Word} (h : sysEnvDestroy m s c envid = some (.ret r s'))
    (hr : negative r) : Unchanged s s' := by
  simp only [sysEnvDestroy] at h
  split at h
  case h_1 => cases h; exact .refl
  case h_2 =>
    simp only [envDestroy] at h
    split at h
    case isTrue =>
      cases h
      exact absurd hr (by decide)
    case isFalse =>
      simp only [Option.bind_eq_bind, Option.bind_eq_some_iff, Option.some.injEq] at h
      obtain ⟨_, _, h⟩ := h
      split at h
      case isTrue  => cases h
      case isFalse =>
        cases h
        exact absurd hr (by decide)

theorem sysIpcRecv_failed {dstva : Word} (h : sysIpcRecv s c dstva = .ret r s') : Unchanged s s' := by
  simp only [sysIpcRecv, sysYield] at h
  split at h <;> cases h
  exact .refl

-- The system calls that report errors by negative results.
def fallible : List Word :=
  [SYS_page_alloc, SYS_page_map, SYS_page_unmap, SYS_ipc_try_send, SYS_ipc_recv, SYS_exofork,
    SYS_env_set_status, SYS_env_set_pgfault_upcall, SYS_env_destroy]

-- A system call that fails undoes what it has done.
theorem failed_syscall_unchanged {getc no a1 a2 a3 a4 a5 : Word} (hn : no ∈ fallible)
    (h : syscall m s c getc no a1 a2 a3 a4 a5 = some (.ret r s')) (hr : negative r) :
    Unchanged s s' := by
  cases syscall_cases h
  case cputs h₁ _             => exact absurd (h₁ ▸ hn) (by decide)
  case cgetc h₁ _             => exact absurd (h₁ ▸ hn) (by decide)
  case getenvid h₁ _          => exact absurd (h₁ ▸ hn) (by decide)
  case yield h₁ _             => exact absurd (h₁ ▸ hn) (by decide)
  case envDestroy hx          => exact sysEnvDestroy_failed hx hr
  case exofork hx             => exact sysExofork_failed hx hr
  case envSetStatus hx        => exact sysEnvSetStatus_failed hx hr
  case pageAlloc hx           => exact sysPageAlloc_failed hx hr
  case pageMap hx             => exact sysPageMap_failed hx hr
  case pageUnmap hx           => exact sysPageUnmap_failed hx hr
  case ipcRecv hx             => exact sysIpcRecv_failed hx
  case ipcTrySend hx          => exact sysIpcTrySend_failed hx hr
  case envSetPgfaultUpcall hx => exact sysEnvSetPgfaultUpcall_failed hx hr
  case invalid hx             => cases hx; exact .refl

def Exit.returns (r : Word) : Exit → Bool
  | ret v _ => v == r
  | _       => false

theorem Exit.returns_iff {x : Exit} : x.returns r ↔ ∃ s, x = .ret r s := by
  cases x <;> simp [returns]

-- The last free page cannot be mapped where there is no page table.
theorem failed_syscall_unchanged_last : ∃ s s', s.pageFreeList = some Sample.first ∧
    syscall Sample.machine s Sample.fs 0#32 SYS_page_alloc 0 0 (PTE_U ||| PTE_P) 0 0 =
      some (.ret (err E_NO_MEM) s') ∧ Unchanged s s' := by
  let last (s : State) := s.setPage Sample.first ⟨none, 0#16⟩
  let call s := syscall Sample.machine s Sample.fs 0#32 SYS_page_alloc 0 0 (PTE_U ||| PTE_P) 0 0
  have h : ((Sample.start.map last).any fun s =>
      s.pageFreeList = some Sample.first ∧ (call s).any (Exit.returns (err E_NO_MEM))) := by
    decide +kernel
  obtain ⟨s, _, h⟩ := (Option.any_eq_true _ _).mp h
  obtain ⟨hl, h⟩ := of_decide_eq_true h
  obtain ⟨x, hx, hr⟩ := (Option.any_eq_true _ _).mp h
  obtain ⟨s', hs⟩ := Exit.returns_iff.mp hr
  subst hs
  exact ⟨s, s', hl, hx, failed_syscall_unchanged (by decide) hx (by decide)⟩

end Kern

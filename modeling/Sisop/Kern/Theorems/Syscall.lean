import Sisop.Kern.Theorems.Env
import Sisop.Kern.Step

namespace Kern

open Inc Function Library State

section Arguments

variable {va perm : Word}

theorem lt_UTOP_of_badVa (h : badVa va = false) : va < UTOP := by
  simp only [badVa, Bool.or_eq_false_iff, Bool.not_eq_false', decide_eq_true_eq] at h
  exact h.left

theorem PGNUM_of_badPerm (h : badPerm perm = false) : PGNUM perm = 0 := by
  simp only [badPerm, Bool.or_eq_false_iff, bne_eq_false_iff_eq] at h
  exact PGNUM_perm h.right

end Arguments

section Lookup

variable {m : Machine} {K : Nat → Nat → Word} {s s' : State} {own hand : List Nat} {e : EnvPtr}
  {p pd : Nat} {va perm : Word} {slot : Slot}

theorem lookup_eq (hva : va < UTOP) :
    s.lookup e va = (s.tableOf e (pdx va hva)).map fun pt => s.mem pt (ptx va) := by
  cases h : s.pgdir e
  case none    => simp [State.lookup, tableOf_eq_none h, h]
  case some pd =>
    rw [tableOf_eq h]
    simp [State.lookup, h, pdx, ptx]

theorem lookup_bind (hva : va < UTOP) :
    (s.lookup e va).bind entryPage = s.target m (.pte e (pdx va hva) (ptx va)) := by
  rw [lookup_eq hva]
  simp only [State.target]
  cases h : s.tableOf e (pdx va hva)
  case none    => simp [entry_eq_zero h, entryPage_zero]
  case some pt => simp [entry_eq h]

theorem PageInv.pageLookup_present (i : PageInv m K s own hand) (h : s.pgdir e = some pd)
    (hva : va < UTOP) (hl : pageLookup m s pd va = some (some (p, slot)))
    (hp : present (s.pte slot)) : s.target m (.pte e (pdx va hva) (ptx va)) = some p := by
  cases ht : s.tableOf e (pdx va hva)
  case none =>
    rw [i.tables.pageLookup_none h hva ht] at hl
    simp at hl
  case some pt =>
    rw [i.tables.pageLookup_some h hva ht] at hl
    simp only [Option.map_eq_some_iff, Option.some.injEq, Prod.mk.injEq] at hl
    obtain ⟨q, hq, hqp, hs⟩ := hl
    simp only [pa2page, PGNUM_PTE_ADDR, Option.ite_none_right_eq_some, Option.some.injEq] at hq
    refine entryPage_eq_some.mpr ⟨?_, hq.right.trans hqp⟩
    rw [← hs] at hp
    rw [entry_eq ht]
    exact hp

theorem CountFits.target (c : CountFits s e p va) (i : PageInv m K s own hand)
    (h : s.pgdir e = some pd) (hva : va < UTOP)
    (hr : pageInsert m s pd p va perm = some (0#32, s')) (ho : (s.pages p).ppRef = 0xFFFF#16) :
    s.target m (.pte e (pdx va hva) (ptx va)) = some p := by
  rcases c with c | c | ⟨hl, hf⟩
  case inl     => exact absurd ho c
  case inr.inl => exact (lookup_bind hva).symm.trans c
  case inr.inr =>
    have ht : s.tableOf e (pdx va hva) = none := by simpa [lookup_eq hva] using hl
    have hz : PTE_ADDR (s.mem pd (PDX va)) = 0#32 :=
      (i.tables.pde_eq_zero_iff h (d := pdx va hva)).mpr ht
    have he : ¬err E_NO_MEM = 0#32 := by decide
    simp [pageInsert, pgdirWalk, hz, pageAlloc, hf, he] at hr

-- `page_insert` of a page that is mapped in the address space of `e'`.
theorem PageInv.pageInsert_mapped (i : PageInv m K s own hand) (h : s.pgdir e = some pd)
    (hva : va < UTOP) (hperm : PGNUM perm = 0) {r : Word}
    (hr : pageInsert m s pd p va perm = some (r, s')) {e' : EnvPtr} {d : Fin UTOPX}
    {t : Fin NPDENTRIES} (ht : s.target m (.pte e' d t) = some p) (c : CountFits s e p va) :
    PageInv m K s' own hand := by
  by_cases h0 : r = 0#32
  case neg => exact (pageInsert_failed hr h0).left ▸ i
  case pos =>
    subst h0
    exact i.pageInsert_shared h hva hperm hr ht (c.target i h hva hr)

end Lookup

namespace KernInv

variable {m : Machine} {K : Nat → Nat → Word} {s s' : State} {c e : EnvPtr} {x : Exit}

-- A step that changes only the address space of one environment.
theorem frame (i : KernInv m K s) (p : PageInv m K s' [] []) (f : Frame e s s') : KernInv m K s' :=
  i.congr p f.envs f.envFreeList

theorem envDestroy (i : KernInv m K s) (h : envDestroy m s c e = some x) : KernInv m K x.state := by
  simp only [Kern.envDestroy] at h
  split at h
  case isTrue  => cases h; exact i.setEnv rfl rfl
  case isFalse =>
    simp only [Option.bind_eq_bind, Option.bind_eq_some_iff, Option.some.injEq] at h
    obtain ⟨s₁, h₁, hx⟩ := h
    have i₁ := (envFree_spec i h₁).left
    split at hx <;> (cases hx; exact i₁)

theorem userMemAssert {va len perm : Word} (i : KernInv m K s)
    (h : userMemAssert m s c va len perm = some (some x)) : KernInv m K x.state := by
  simp only [Kern.userMemAssert, Option.bind_eq_bind, Option.bind_eq_some_iff] at h
  obtain ⟨_, _, r, _, hx⟩ := h
  cases r
  case none   => simp at hx
  case some _ =>
    simp only [Option.bind_eq_some_iff, Option.some.injEq] at hx
    obtain ⟨y, hy, hyx⟩ := hx
    exact hyx ▸ i.envDestroy hy

theorem sysCputs {va len getc : Word} (i : KernInv m K s)
    (h : sysCputs m s c va len getc = some x) : KernInv m K x.state := by
  simp only [Kern.sysCputs, Option.bind_eq_bind, Option.bind_eq_some_iff] at h
  obtain ⟨r, hr, hx⟩ := h
  cases r
  case none   => cases hx; exact i
  case some _ => cases hx; exact i.userMemAssert hr

theorem sysEnvDestroy {envid : Word} (i : KernInv m K s)
    (h : sysEnvDestroy m s c envid = some x) : KernInv m K x.state := by
  simp only [Kern.sysEnvDestroy] at h
  split at h
  case h_1 => cases h; exact i
  case h_2 => exact i.envDestroy h

theorem sysExofork (i : KernInv m K s) : KernInv m K (sysExofork m s c).state := by
  simp only [Kern.sysExofork]
  cases ha : Kern.envAlloc m s (s.envs c).envId with | mk r s₁ =>
  have i₁ := (i.envAlloc ha).left
  cases r
  case error => exact i₁
  case ok    => exact i₁.setEnv rfl rfl

theorem sysEnvSetStatus {envid status : Word} (i : KernInv m K s) :
    KernInv m K (sysEnvSetStatus s c envid status).state := by
  simp only [Kern.sysEnvSetStatus]
  cases settableStatus status
  case none   => exact i
  case some _ =>
    cases envid2env s c envid true
    case error => exact i
    case ok    => exact i.setEnv rfl rfl

theorem sysEnvSetPgfaultUpcall {envid func : Word} (i : KernInv m K s) :
    KernInv m K (sysEnvSetPgfaultUpcall s c envid func).state := by
  simp only [Kern.sysEnvSetPgfaultUpcall]
  cases envid2env s c envid true
  case error => exact i
  case ok    => exact i.setEnv rfl rfl

theorem sysIpcRecv {dstva : Word} (i : KernInv m K s) : KernInv m K (sysIpcRecv s c dstva).state := by
  simp only [Kern.sysIpcRecv]
  split
  · exact i
  · exact i.setEnv rfl rfl

theorem sysPageAlloc {envid va perm : Word} (i : KernInv m K s)
    (h : sysPageAlloc m s c envid va perm = some x) : KernInv m K x.state := by
  simp only [Kern.sysPageAlloc] at h
  split at h
  case isTrue => cases h; exact i
  split at h
  case isTrue => cases h; exact i
  rename_i hva hperm
  simp only [Bool.not_eq_true] at hva hperm
  have hva := lt_UTOP_of_badVa hva
  cases he : envid2env s c envid true <;> simp only [he] at h
  case error => cases h; exact i
  case ok e  =>
    cases ha : Kern.pageAlloc s perm with | mk o s₁ =>
    cases o <;> simp only [ha] at h
    case none =>
      cases h
      exact (pageAlloc_eq_none ha).left ▸ i
    case some p =>
      have a := i.page.pageAlloc ha
      simp only [Option.bind_eq_bind, Option.bind_eq_some_iff, Prod.exists] at h
      obtain ⟨pd, hpd, r, s₂, hr, hx⟩ := h
      split at hx
      case isTrue h0 =>
        obtain ⟨hs, _⟩ := pageInsert_failed hr h0
        subst hs
        obtain ⟨s₃, hf, hx⟩ := Option.bind_eq_some_iff.mp hx
        cases hx
        have sp := SameSpace.pageFree hf
        exact i.congr (a.inv.pageFree hf) (sp.envs.trans a.envs) (sp.envFreeList.trans a.envFreeList)
      case isFalse h0 =>
        cases hx
        have h0 : r = 0#32 := by simpa using h0
        subst h0
        have f := a.frame.trans (a.inv.pageInsert_frame hpd hva hr)
        exact i.frame (PageInv.pageInsert_hand hpd hva (PGNUM_of_badPerm hperm) a.inv hr) f

theorem sysPageMapChecks_ok {srcenvid srcva dstenvid dstva perm : Word} {dst : EnvPtr} {p : Nat}
    {slot : Slot}
    (h : sysPageMapChecks m s c srcenvid srcva dstenvid dstva perm = some (.ok (dst, p, slot))) :
    ∃ src pd, srcva < UTOP ∧ dstva < UTOP ∧ PGNUM perm = 0 ∧ envid2env s c srcenvid true = .ok src ∧
      envid2env s c dstenvid true = .ok dst ∧ s.pgdir src = some pd ∧
      pageLookup m s pd srcva = some (some (p, slot)) ∧ badWrite (s.pte slot) perm = false := by
  simp only [sysPageMapChecks] at h
  split at h
  case isTrue => cases h
  split at h
  case isTrue => cases h
  split at h
  case isTrue => cases h
  rename_i hsrc hdst hperm
  simp only [Bool.not_eq_true] at hsrc hdst hperm
  cases hs : envid2env s c srcenvid true <;> simp only [hs] at h
  case error => cases h
  cases hd : envid2env s c dstenvid true <;> simp only [hd] at h
  case error => cases h
  rename_i src dst'
  simp only [Option.bind_eq_bind, Option.bind_eq_some_iff] at h
  obtain ⟨pd, hpd, o, hl, hx⟩ := h
  cases o
  case none => cases hx
  case some q =>
    simp only at hx
    split at hx
    case isTrue => cases hx
    case isFalse hw =>
      cases hx
      exact ⟨src, pd, lt_UTOP_of_badVa hsrc, lt_UTOP_of_badVa hdst, PGNUM_of_badPerm hperm, rfl, rfl,
        hpd, hl, by simpa using hw⟩

theorem sysPageMap {srcenvid srcva dstenvid dstva perm : Word} (i : KernInv m K s)
    (h : sysPageMap m s c srcenvid srcva dstenvid dstva perm = some x)
    (g : ∀ {dst p slot}, sysPageMapChecks m s c srcenvid srcva dstenvid dstva perm =
      some (.ok (dst, p, slot)) → present (s.pte slot) ∧ CountFits s dst p dstva) :
    KernInv m K x.state := by
  simp only [Kern.sysPageMap, Option.bind_eq_bind, Option.bind_eq_some_iff] at h
  obtain ⟨r, hr, hx⟩ := h
  cases r
  case error => cases hx; exact i
  case ok a  =>
    obtain ⟨dst, p, slot⟩ := a
    obtain ⟨hp, hc⟩ := g hr
    obtain ⟨src, pd, hsrc, hdst, hperm, _, _, hpd, hl, _⟩ := sysPageMapChecks_ok hr
    simp only [Option.bind_eq_some_iff, Prod.exists, Option.some.injEq] at hx
    obtain ⟨pd', hpd', r, s₁, hi, hx⟩ := hx
    subst hx
    have ht := i.page.pageLookup_present hpd hsrc hl hp
    exact i.frame (i.page.pageInsert_mapped hpd' hdst hperm hi ht hc)
      (i.page.pageInsert_frame hpd' hdst hi)

theorem sysPageUnmap {envid va : Word} (i : KernInv m K s)
    (h : sysPageUnmap m s c envid va = some x)
    (g : ∀ {e}, badVa va = false → envid2env s c envid true = .ok e → s.lookup e va = some 0#32 →
      (s.pages 0).ppRef ≠ 1#16) : KernInv m K x.state := by
  simp only [Kern.sysPageUnmap] at h
  split at h
  case isTrue => cases h; exact i
  rename_i hva
  simp only [Bool.not_eq_true] at hva
  have hu := lt_UTOP_of_badVa hva
  cases he : envid2env s c envid true <;> simp only [he] at h
  case error => cases h; exact i
  case ok e  =>
    simp only [Option.bind_eq_bind, Option.bind_eq_some_iff, Option.some.injEq] at h
    obtain ⟨pd, hpd, s₁, hr, hx⟩ := h
    subst hx
    refine i.frame (i.page.pageRemove hpd hu hr fun ht h0 => g hva he ?_)
      (i.page.pageRemove_frame hpd hu hr)
    obtain ⟨pt, ht⟩ := Option.ne_none_iff_exists'.mp ht
    rw [lookup_eq hu, ht, Option.map_some, ← entry_eq ht, h0]

theorem sysIpcTrySendChecks_ok {srcva perm : Word} {p : Nat} {slot : Slot}
    (h : sysIpcTrySendChecks m s c srcva perm = some (.ok (p, slot))) :
    ∃ pd, PGNUM perm = 0 ∧ s.pgdir c = some pd ∧ pageLookup m s pd srcva = some (some (p, slot)) ∧
      badWrite (s.pte slot) perm = false := by
  simp only [sysIpcTrySendChecks] at h
  split at h
  case isTrue => cases h
  split at h
  case isTrue => cases h
  rename_i hva hperm
  simp only [Bool.not_eq_true] at hperm
  simp only [Option.bind_eq_bind, Option.bind_eq_some_iff] at h
  obtain ⟨pd, hpd, o, hl, hx⟩ := h
  cases o
  case none => cases hx
  case some q =>
    simp only at hx
    split at hx
    case isTrue => cases hx
    case isFalse hw =>
      cases hx
      exact ⟨pd, PGNUM_of_badPerm hperm, hpd, hl, by simpa using hw⟩

theorem sysIpcTrySend {envid value srcva perm : Word} (i : KernInv m K s)
    (h : sysIpcTrySend m s c envid value srcva perm = some x)
    (g : ∀ {e p slot}, envid2env s c envid false = .ok e → (s.envs e).envIpcRecving →
      srcva < UTOP → sysIpcTrySendChecks m s c srcva perm = some (.ok (p, slot)) →
        (s.envs e).envIpcDstva < UTOP ∧ present (s.pte slot) ∧
          CountFits s e p (s.envs e).envIpcDstva) : KernInv m K x.state := by
  simp only [Kern.sysIpcTrySend] at h
  cases he : envid2env s c envid false <;> simp only [he] at h
  case error => cases h; exact i
  case ok e  =>
    split at h
    case isTrue => cases h; exact i
    rename_i hrecv
    simp only [Bool.not_eq_true', Bool.not_eq_false] at hrecv
    split at h
    case isFalse => cases h; exact i.setEnv rfl rfl
    rename_i hsrc
    simp only [Option.bind_eq_bind, Option.bind_eq_some_iff] at h
    obtain ⟨r, hr, hx⟩ := h
    cases r
    case error => cases hx; exact i
    case ok a  =>
      obtain ⟨p, slot⟩ := a
      obtain ⟨hdst, hp, hc⟩ := g he hrecv hsrc hr
      obtain ⟨pd, hperm, hpd, hl, _⟩ := sysIpcTrySendChecks_ok hr
      simp only [Option.bind_eq_some_iff, Prod.exists] at hx
      obtain ⟨pd', hpd', r, s₁, hi, hx⟩ := hx
      have ht := i.page.pageLookup_present hpd hsrc hl hp
      have i₁ := i.frame (i.page.pageInsert_mapped hpd' hdst hperm hi ht hc)
        (i.page.pageInsert_frame hpd' hdst hi)
      split at hx
      case isTrue  => cases hx; exact i₁
      case isFalse => cases hx; exact i₁.setEnv rfl rfl

end KernInv

end Kern

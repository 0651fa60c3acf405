import Sisop.Kern.Theorems.Envs

namespace Kern

open Inc Function Library State

-- The invariant of the kernel between two entries.
structure KernInv (m : Machine) (K : Nat → Nat → Word) (s : State) : Prop where
  page : PageInv m K s [] []
  envs : EnvList s

namespace KernInv

variable {m : Machine} {K : Nat → Nat → Word} {s s' : State} {e : EnvPtr} {v : Env}

theorem congr (i : KernInv m K s) (p : PageInv m K s' [] []) (he : s'.envs = s.envs)
    (hf : s'.envFreeList = s.envFreeList) : KernInv m K s' where
  page := p
  envs := i.envs.sameEnvs ⟨he, hf⟩

-- A change to an environment that keeps its page directory and its link.
theorem setEnv (i : KernInv m K s) (hp : v.envPgdir = s.pgdir e) (hl : v.envLink = s.envLink e) :
    KernInv m K (s.setEnv e v) where
  page := i.page.setEnv hp
  envs := i.envs.setEnv hp hl

end KernInv

namespace PageInv

variable {m : Machine} {K : Nat → Nat → Word} {s s' : State} {own : List Nat} {e : EnvPtr}

-- The order in which `env_setup_vm` counts, stores and fills the page does not matter.
theorem fill_setEnv_incRef {p : Nat} {c : Nat → Word} {v : Env} :
    ((incRef s p).setEnv e v).fill p c = (incRef (s.fill p c) p).setEnv e v := rfl

-- The two outcomes of `env_setup_vm`.
theorem envSetupVm (i : PageInv m K s own []) (h0 : s.pgdir e = none) {r : Word}
    (h : envSetupVm m s e = (r, s')) :
    (r = err E_NO_MEM ∧ s' = s) ∨
      ∃ p, r = 0#32 ∧ PageInv m K s' own [] ∧ s'.envFreeList = s.envFreeList ∧
        s'.entry = s.entry ∧ s'.envs = update s.envs e { s.envs e with envPgdir := some p } := by
  simp only [Kern.envSetupVm] at h
  cases ha : Kern.pageAlloc s 1#32 with | mk o s₁ =>
  cases o
  case none =>
    simp only [ha, Prod.mk.injEq] at h
    exact .inl ⟨h.left.symm, h.right.symm.trans (pageAlloc_eq_none ha).left⟩
  case some p =>
    have a := i.pageAlloc ha
    have hm : p ∈ [p] := List.mem_cons_self
    simp only [ha, Prod.mk.injEq] at h
    let c := envPgdirOf (s₁.mem m.kernPgdir) p
    let v := { s₁.envs e with envPgdir := some p }
    have hs : (incRef (s₁.fill p c) p).setEnv e v = s' := fill_setEnv_incRef.symm.trans h.right
    have i₂ := (a.inv.fill (c := c) hm).incRef_hand
    have hu (r) : (s₁.fill p c).target m r ≠ some p := (a.inv.fill (c := c) hm).hand_unref hm r
    have hd : (s₁.fill p c).pgdir e = none := by
      simpa [State.pgdir, a.envs] using h0
    refine .inr ⟨p, h.left.symm, ?_⟩
    subst hs
    have ho (d) : (incRef (s₁.fill p c) p).tableOf e d = none := tableOf_eq_none hd
    have hz {pd} (hv : v.envPgdir = some pd) :
        (incRef (s₁.fill p c) p).mem pd = envPgdirOf (K m.kernPgdir) pd := by
      cases hv
      rw [← a.inv.kern.pgdir]
      exact fill_mem_self ..
    refine ⟨i₂.setDir ho hz ?_ ?_, a.envFreeList, ?_, ?_⟩
    · intro q r hq hr
      cases hq
      exact absurd hr (hu r)
    · intro fl b
      exact b.store (r := Ref.dir e) hd
    · rw [entry_setDir ho (i₂.tableOf_dir hz), SameSpace.incRef.entry, ← a.entry]
      funext e' d' t'
      exact entry_fill (a.inv.hand_unref hm)
    · simp [State.setEnv, incRef, v, a.envs]

end PageInv

namespace KernInv

variable {m : Machine} {K : Nat → Nat → Word} {s s' : State} {e : EnvPtr}

theorem envAlloc (i : KernInv m K s) {parentId : Word} {r : Except Word EnvPtr}
    (h : envAlloc m s parentId = (r, s')) : KernInv m K s' ∧ s'.entry = s.entry := by
  cases hf : s.envFreeList
  case none =>
    simp only [Kern.envAlloc, hf, Prod.mk.injEq] at h
    exact h.right ▸ ⟨i, rfl⟩
  case some e =>
    have h0 : s.pgdir e = none := i.envs.head_pgdir hf
    cases hv : Kern.envSetupVm m s e with | mk q s₁ =>
    have hx := h
    simp only [Kern.envAlloc, hf, hv] at hx
    cases i.page.envSetupVm h0 hv
    case inl hq =>
      obtain ⟨hq, hs⟩ := hq
      have hneg : negative (err E_NO_MEM) = true := by decide
      simp only [hq, hneg, if_true, Prod.mk.injEq] at hx
      rw [← hx.right, hs]
      exact ⟨i, rfl⟩
    case inr hq =>
      obtain ⟨p, hq, i₁, hf₁, he₁, henvs⟩ := hq
      have hneg : negative 0#32 = false := by decide
      simp only [hq, hneg, Bool.false_eq_true, if_false, Prod.mk.injEq] at hx
      obtain ⟨hr, hs⟩ := hx
      have hl : EnvList s' := i.envs.newEnv (envAlloc_newEnv (e := e) (hr ▸ h)).left
      subst hs
      refine ⟨⟨(i₁.setEnv ?_).setEnvFreeList, hl⟩, (entry_setEnv ?_).trans he₁⟩ <;> rfl

end KernInv

section Region

variable {m : Machine} {K : Nat → Nat → Word} {s s' : State} {e : EnvPtr} {pd : Nat} {va len : Word}

theorem regionAllocPage_spec (i : PageInv m K s [] []) (h : s.pgdir e = some pd) (hva : va < UTOP)
    (hr : regionAllocPage m s pd va = some s') : PageInv m K s' [] [] ∧ Frame e s s' := by
  simp only [regionAllocPage] at hr
  cases ha : pageAlloc s 0#32 with | mk o s₁ =>
  cases o
  case none => simp [ha] at hr
  case some p =>
    have a := i.pageAlloc ha
    have hp : s₁.pgdir e = some pd := by simpa [State.pgdir, a.envs] using h
    simp only [ha, Option.bind_eq_bind, Option.bind_eq_some_iff, Prod.exists] at hr
    obtain ⟨r, s₂, hi, h₂⟩ := hr
    split at h₂
    case isTrue => cases h₂
    case isFalse h0 =>
      cases h₂
      have h0 : r = 0#32 := by simpa using h0
      subst h0
      have hperm : PGNUM (PTE_W ||| PTE_U) = 0 := by decide
      exact ⟨PageInv.pageInsert_hand hp hva hperm a.inv hi,
        a.frame.trans (a.inv.pageInsert_frame hp hva hi)⟩

theorem regionAlloc_spec (i : PageInv m K s [] []) (h : s.pgdir e = some pd)
    (hr : regionAlloc m s pd va len = some s') : PageInv m K s' [] [] ∧ Frame e s s' := by
  simp only [regionAlloc] at hr
  split at hr
  case isTrue => cases hr
  case isFalse hu =>
    refine foldlM_list hr (P := fun s' => PageInv m K s' [] [] ∧ Frame e s s') ⟨i, .refl⟩ ?_
    rintro s₁ s₂ k hk ⟨i₁, f₁⟩ hs
    have hk := List.mem_range.mp hk
    have hlt : ROUNDDOWN va 4096#32 + BitVec.ofNat 32 (k * PGSIZE) < UTOP := by
      have h₁ := (ROUNDUP (va + len) 4096#32).isLt
      simp only [BitVec.lt_def, BitVec.toNat_add, BitVec.toNat_ofNat, PGSIZE] at *
      omega
    obtain ⟨i₂, f₂⟩ := regionAllocPage_spec i₁ (f₁.pgdir ▸ h) hlt hs
    exact ⟨i₂, f₁.trans f₂⟩

theorem loadIcode_spec {binary : Elf} (i : KernInv m K s) (hr : loadIcode m s e binary = some s') :
    KernInv m K s' ∧ s'.pgdir = s.pgdir := by
  simp only [loadIcode] at hr
  split at hr
  case isTrue => cases hr
  simp only [Option.bind_eq_bind, Option.bind_eq_some_iff] at hr
  obtain ⟨pd, hp, s₁, h₁, h₂⟩ := hr
  obtain ⟨i₁, f₁⟩ : PageInv m K s₁ [] [] ∧ Frame e s s₁ := by
    refine foldlM_list h₁ (P := fun s' => PageInv m K s' [] [] ∧ Frame e s s') ⟨i.page, .refl⟩ ?_
    rintro s₂ s₃ ph _ ⟨i₂, f₂⟩ hs
    split at hs
    case isTrue => cases hs; exact ⟨i₂, f₂⟩
    case isFalse =>
      split at hs
      case isTrue => cases hs
      case isFalse =>
        obtain ⟨i₃, f₃⟩ := regionAlloc_spec i₂ (f₂.pgdir ▸ hp) hs
        exact ⟨i₃, f₂.trans f₃⟩
  let v := { s₁.envs e with envTf := { (s₁.envs e).envTf with tfEip := binary.eEntry } }
  have hpd : (s₁.setEnv e v).pgdir = s₁.pgdir := pgdir_setEnv_self rfl
  have k₁ := (i.congr i₁ f₁.envs f₁.envFreeList).setEnv (v := v) (e := e) rfl rfl
  have hp₁ : (s₁.setEnv e v).pgdir e = some pd := by rw [hpd, f₁.pgdir, hp]
  obtain ⟨i₂, f₂⟩ := regionAlloc_spec k₁.page hp₁ h₂
  exact ⟨k₁.congr i₂ f₂.envs f₂.envFreeList, f₂.pgdir.trans (hpd.trans f₁.pgdir)⟩

theorem envCreate_spec {binary : Elf} {type : EnvType} (i : KernInv m K s)
    (hr : envCreate m s binary type = some s') : KernInv m K s' := by
  simp only [envCreate] at hr
  cases ha : envAlloc m s 0#32 with | mk r s₁ =>
  cases r
  case error => simp [ha] at hr
  case ok e =>
    have i₁ := (i.envAlloc ha).left
    simp only [ha, Option.bind_eq_bind, Option.bind_eq_some_iff, Option.some.injEq] at hr
    obtain ⟨s₂, h₂, hs⟩ := hr
    subst hs
    exact (loadIcode_spec i₁ h₂).left.setEnv rfl rfl

end Region

section Free

variable {m : Machine} {K : Nat → Nat → Word} {s s' : State} {own : List Nat} {e : EnvPtr}
  {pd pt : Nat} {d : Fin UTOPX}

-- What a loop of `env_free` leaves: only the address space of `e` has changed, and no page tables
-- have been added.
structure Freeing (m : Machine) (K : Nat → Nat → Word) (own : List Nat) (e : EnvPtr) (s s' : State) :
    Prop where
  inv   : PageInv m K s' own []
  frame : Frame e s s'

theorem envFreeTable_spec (i : PageInv m K s own []) (h : s.pgdir e = some pd)
    (ht : s.tableOf e d = some pt) (hr : envFreeTable m s pd pt d = some s') :
    Freeing m K own e s s' ∧ s'.tableOf = s.tableOf ∧ ∀ t, s'.entry e d t = 0#32 := by
  rw [envFreeTable] at hr
  -- The entries that the loop has visited are zero.
  let inv (k : Nat) (s' : State) : Prop := Freeing m K own e s s' ∧ s'.tableOf = s.tableOf ∧
    ∀ t : Fin NPDENTRIES, t < k → s'.entry e d t = 0#32
  have hloop : inv NPDENTRIES s' := by
    refine foldlM_range hr ⟨⟨i, .refl⟩, rfl, fun _ hc => absurd hc (Nat.not_lt_zero _)⟩ ?_
    rintro s₁ s₂ k hk ⟨f, htab, hz⟩ hs
    have hdlt : (d : Nat) < 1024 := d.isLt.trans (by decide)
    have hva : PGADDR d k 0#32 < UTOP := PGADDR_lt_UTOP d.isLt hk
    have hpdx : pdx (PGADDR d k 0#32) hva = d := Fin.ext (PDX_PGADDR hdlt hk)
    have hptx : ptx (PGADDR d k 0#32) = ⟨k, hk⟩ := Fin.ext (PTX_PGADDR hdlt hk)
    have ht₁ : s₁.tableOf e d = some pt := by rw [htab, ht]
    have hent : s₁.entry e d ⟨k, hk⟩ = s₁.mem pt k := entry_eq ht₁
    have hp₁ : s₁.pgdir e = some pd := f.frame.pgdir ▸ h
    split at hs
    case isTrue hpr =>
      have he := f.inv.pageRemove_entry hp₁ hva hs
      have i₂ := f.inv.pageRemove hp₁ hva hs fun _ h0 => by
        rw [hpdx, hptx, hent] at h0
        simp [h0] at hpr
      refine ⟨⟨i₂, f.frame.trans (f.inv.pageRemove_frame hp₁ hva hs)⟩, ?_, fun t hlt => ?_⟩
      · rw [f.inv.pageRemove_tableOf hp₁ hva hs, htab]
      · rw [he, hpdx, hptx]
        simp only [setEntry]
        split
        case isTrue => rfl
        case isFalse hne =>
          have hne : (t : Nat) ≠ k := fun hc => hne ⟨trivial, trivial, Fin.ext hc⟩
          exact hz t (by omega)
    case isFalse hpr =>
      cases hs
      refine ⟨f, htab, fun t hlt => ?_⟩
      by_cases htk : (t : Nat) = k
      · have : t = ⟨k, hk⟩ := Fin.ext htk
        subst this
        exact f.inv.zeroPte (by rw [hent]; simpa using hpr)
      · exact hz t (by omega)
  obtain ⟨f, htab, hz⟩ := hloop
  exact ⟨f, htab, fun t => hz t t.isLt⟩

theorem envFreePde_spec (i : PageInv m K s own []) (h : s.pgdir e = some pd)
    (hr : envFreePde m s pd d = some s') :
    Freeing m K own e s s' ∧ s'.tableOf e d = none ∧
      ∀ {d'}, s.tableOf e d' = none → s'.tableOf e d' = none := by
  simp only [envFreePde] at hr
  have htab : s.tableOf e d = entryPage (s.mem pd d) := tableOf_eq h
  split at hr
  case isTrue hpr =>
    cases hr
    have hn : s.tableOf e d = none := by
      rw [htab]
      exact entryPage_eq_none.mpr (by simpa using hpr)
    exact ⟨⟨i, .refl⟩, hn, id⟩
  case isFalse hpr =>
    have ht : s.tableOf e d = some (PGNUM (s.mem pd d)) := by
      rw [htab]
      exact entryPage_eq_some.mpr ⟨by simpa using hpr, rfl⟩
    have hm := i.tableOf_managed ht
    have hpg : pa2page m (PTE_ADDR (s.mem pd d)) = some (PGNUM (s.mem pd d)) := by
      simp [pa2page, PGNUM_PTE_ADDR, hm.lt_npages]
    simp only [i.tables.kaddr ht, hpg, Option.bind_eq_bind, Option.bind_some,
      Option.bind_eq_some_iff] at hr
    obtain ⟨s₁, h₁, h₂⟩ := hr
    obtain ⟨f₁, ht₁, hz₁⟩ := envFreeTable_spec i h ht h₁
    have hp₁ : s₁.pgdir e = some pd := f₁.frame.pgdir ▸ h
    have ht₁' : s₁.tableOf e d = some (PGNUM (s.mem pd d)) := by rw [ht₁, ht]
    obtain ⟨i₂, he₂, ht₂⟩ := f₁.inv.remove_table hp₁ ht₁' hz₁
    have hs := SameSpace.pageDecref h₂
    have hnone {d'} (hd : d' = d ∨ s.tableOf e d' = none) : s'.tableOf e d' = none := by
      rw [hs.tableOf, ht₂]
      split
      case isTrue  => rfl
      case isFalse hne =>
        rw [ht₁]
        exact hd.resolve_left (hne ⟨rfl, ·⟩)
    refine ⟨⟨i₂.pageDecref h₂, f₁.frame.trans ⟨hs.envs, hs.envFreeList, fun _ => ?_⟩⟩,
      hnone (.inl rfl), fun hd => hnone (.inr hd)⟩
    rw [hs.entry, he₂]

-- `env_free` gives back the pages of `e` and puts it on `env_free_list`.
theorem envFree_spec (i : KernInv m K s) (hr : envFree m s e = some s') :
    KernInv m K s' ∧ ∀ {e'}, e' ≠ e → s'.entry e' = s.entry e' := by
  have hl := i.envs.freed (envFree_freed hr)
  simp only [envFree, UTOPX_eq, Option.bind_eq_bind, Option.bind_eq_some_iff, Option.some.injEq] at hr
  obtain ⟨pd, hp, s₁, h₁, s₃, h₃, hs'⟩ := hr
  let inv (k : Nat) (s' : State) : Prop :=
    Freeing m K [] e s s' ∧ ∀ d : Fin UTOPX, d < k → s'.tableOf e d = none
  have hloop : inv UTOPX s₁ := by
    refine foldlM_range h₁ ⟨⟨i.page, .refl⟩, fun _ hc => absurd hc (Nat.not_lt_zero _)⟩ ?_
    rintro s₁ s₂ k hk ⟨f, hn⟩ hs
    obtain ⟨f₂, hd, hd'⟩ := envFreePde_spec (d := ⟨k, hk⟩) f.inv (f.frame.pgdir ▸ hp) hs
    refine ⟨⟨f₂.inv, f.frame.trans f₂.frame⟩, fun d hlt => ?_⟩
    by_cases hdk : (d : Nat) = k
    · have : d = ⟨k, hk⟩ := Fin.ext hdk
      exact this ▸ hd
    · exact hd' (hn d (by omega))
  obtain ⟨f, hn⟩ := hloop
  have ho (d) : s₁.tableOf e d = none := hn d d.isLt
  have hp₁ : s₁.pgdir e = some pd := f.frame.pgdir ▸ hp
  let v := { s₁.envs e with envPgdir := none }
  have hz {q} (hv : v.envPgdir = some q) : s₁.mem q = envPgdirOf (K m.kernPgdir) q := by cases hv
  have i₂ : PageInv m K (s₁.setEnv e v) [pd] [] := by
    refine f.inv.setDir ho hz ?_ ?_
    · intro p r hc
      cases hc
    · intro fl b
      exact b.clear (r := Ref.dir e) hp₁
  have hsp := SameSpace.pageDecref h₃
  have i₃ := i₂.pageDecref h₃
  subst hs'
  let v' := { s₃.envs e with envStatus := .free, envLink := s₃.envFreeList }
  have hpv : v'.envPgdir = s₃.pgdir e := rfl
  refine ⟨⟨(i₃.setEnv hpv).setEnvFreeList, hl⟩, fun {e'} he => ?_⟩
  calc (s₃.setEnv e v').entry e' = s₃.entry e' := by rw [entry_setEnv hpv]
    _ = (s₁.setEnv e v).entry e' := by rw [hsp.entry]
    _ = s₁.entry e' := by rw [entry_setDir ho (f.inv.tableOf_dir hz)]
    _ = s.entry e' := f.frame.entry he

end Free

end Kern

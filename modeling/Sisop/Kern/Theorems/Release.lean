import Sisop.Kern.Theorems.Insert
import Sisop.Kern.Theorems.Reachable

-- What `env_free` gives back.

namespace Kern

open Inc Function Library State

variable {m : Machine} {K : Nat → Nat → Word} {s s' s₁ s₂ s₃ : State} {own hand : List Nat}
  {c e e' : EnvPtr} {p q pd pt : Nat} {va perm id : Word} {r : Ref}

-- The references that `e` does not own are the same.
def OthersKept (m : Machine) (e : EnvPtr) (s s' : State) : Prop :=
  ∀ r : Ref, r.owner ≠ some e → s'.target m r = s.target m r

namespace OthersKept

theorem refl : OthersKept m e s s := fun _ _ => rfl

theorem trans (h₁ : OthersKept m e s s₁) (h₂ : OthersKept m e s₁ s₂) : OthersKept m e s s₂ :=
  fun r hr => (h₂ r hr).trans (h₁ r hr)

theorem of_target (h : s'.target m = s.target m) : OthersKept m e s s' :=
  fun r _ => congrFun h r

theorem sameSpace (h : SameSpace s s') : OthersKept m e s s' := of_target h.target

-- A store to a page table of `e`.
theorem store_pte (i : PageInv m K s own hand) {d : Fin UTOPX} {t : Fin NPDENTRIES} {w : Word}
    (h : s.tableOf e d = some pt) : OthersKept m e s (s.store pt t w) := by
  intro r hr
  rw [target_store_pte i.unique h (i.tableOf_managed h).ne_kernPgdir, update_of_ne]
  rintro rfl
  exact hr rfl

section Mapping

variable (i : PageInv m K s own hand) (h : s.pgdir e = some pd) (hva : va < UTOP)
include i h hva

theorem pageRemove (hr : Kern.pageRemove m s pd va = some s') : OthersKept m e s s' := by
  rcases i.pageRemove_space h hva hr with ⟨_, rfl⟩ | ⟨pt, ht, hs⟩
  · exact refl
  · exact (store_pte i ht).trans (sameSpace hs)

theorem pageInsert {v : Word} (hr : Kern.pageInsert m s pd p va perm = some (v, s')) :
    OthersKept m e s s' := by
  rcases i.pageInsert_space h hva hr with ⟨_, rfl, _⟩ | ⟨pt, s₁, _, w, hs⟩
  · exact refl
  · have hw : OthersKept m e s s₁ := fun r hr => w.target (by rintro rfl; exact hr rfl)
    exact (hw.trans (store_pte w.inv w.tableOf)).trans (sameSpace hs)

end Mapping

end OthersKept

section Free

variable {d : Fin UTOPX}

theorem PageInv.envFreePde_tableOf (i : PageInv m K s own []) (h : s.pgdir e = some pd)
    (hr : envFreePde m s pd d = some s') (he : e' ≠ e) : s'.tableOf e' = s.tableOf e' := by
  simp only [envFreePde] at hr
  split at hr
  case isTrue =>
    cases hr
    rfl
  case isFalse hpr =>
    have ht : s.tableOf e d = some (PGNUM (s.mem pd d)) := by
      rw [tableOf_eq h]
      exact entryPage_eq_some.mpr ⟨by simpa using hpr, rfl⟩
    simp only [i.tables.kaddr ht, Option.bind_eq_bind, Option.bind_some, Option.bind_eq_some_iff] at hr
    obtain ⟨s₁, h₁, _, _, h₂⟩ := hr
    obtain ⟨f₁, ht₁, hz₁⟩ := envFreeTable_spec i h ht h₁
    have hp₁ : s₁.pgdir e = some pd := f₁.frame.pgdir ▸ h
    obtain ⟨_, _, ht₂⟩ := f₁.inv.remove_table hp₁ (by rw [ht₁, ht]) hz₁
    funext d'
    rw [(SameSpace.pageDecref h₂).tableOf, ht₂, if_neg fun hc => he hc.left, ht₁]

theorem envFree_tableOf (i : KernInv m K s) (hr : envFree m s e = some s') (he : e' ≠ e) :
    s'.tableOf e' = s.tableOf e' := by
  simp only [envFree, UTOPX_eq, Option.bind_eq_bind, Option.bind_eq_some_iff, Option.some.injEq] at hr
  obtain ⟨pd, hp, s₁, h₁, s₃, h₃, rfl⟩ := hr
  have hloop : Freeing m K [] e s s₁ ∧ s₁.tableOf e' = s.tableOf e' := by
    refine foldlM_range (P := fun _ s' => Freeing m K [] e s s' ∧ s'.tableOf e' = s.tableOf e') h₁
      ⟨⟨i.page, .refl⟩, rfl⟩ ?_
    rintro s₁ s₂ k hk ⟨f, ht⟩ hs
    have hp₁ : s₁.pgdir e = some pd := f.frame.pgdir ▸ hp
    have f₂ := (envFreePde_spec (d := ⟨k, hk⟩) f.inv hp₁ hs).left
    refine ⟨⟨f₂.inv, f.frame.trans f₂.frame⟩, ?_⟩
    rw [f.inv.envFreePde_tableOf (d := ⟨k, hk⟩) hp₁ hs he, ht]
  obtain ⟨f, ht⟩ := hloop
  have hm : s₃.mem = s₁.mem := (SameSpace.pageDecref h₃).mem
  have hpg : s₃.pgdir = update s₁.pgdir e none := (SameSpace.pageDecref h₃).pgdir.trans pgdir_setEnv
  rw [← ht]
  funext d
  have hv : ({ s₃.envs e with envStatus := .free, envLink := s₃.envFreeList } : Env).envPgdir =
    s₃.pgdir e := rfl
  simp only [tableOf, setEnvFreeList_mem, setEnv_mem, hm]
  rw [show ((s₃.setEnv e _).setEnvFreeList (some e)).pgdir = s₃.pgdir from pgdir_setEnv_self hv, hpg,
    update_of_ne he]

-- The references of `e` are gone, and no others.
theorem envFree_target (i : KernInv m K s) (hr : envFree m s e = some s') :
    s'.target m r = if r.owner = some e then none else s.target m r := by
  obtain ⟨i', hent⟩ := envFree_spec i hr
  have hf := envFree_freed hr
  have hpg : s'.pgdir = update s.pgdir e none := pgdir_update hf.envs
  have hpe : s'.pgdir e = none := by rw [hpg, update_self]
  split
  case isTrue ho =>
    cases r <;> cases ho
    case dir   => exact hpe
    case table => exact tableOf_eq_none hpe
    case pte   => simp only [State.target, entry_eq_zero (tableOf_eq_none hpe), entryPage_zero]
  case isFalse ho =>
    have hne {e'} (h : some e' ≠ some e) : e' ≠ e := fun hc => h (congrArg some hc)
    cases r
    case dir e'      => simp only [State.target, hpg, update_of_ne (hne ho)]
    case table e' d  => exact congrFun (envFree_tableOf i hr (hne ho)) d
    case pte e' d t  => simp only [State.target, hent (hne ho)]
    case ktable d    =>
      have hk : s'.mem m.kernPgdir = s.mem m.kernPgdir :=
        i'.page.kern.pgdir.trans i.page.kern.pgdir.symm
      simp only [State.target, hk]

theorem envFree_others (i : KernInv m K s) (hr : envFree m s e = some s') : OthersKept m e s s' :=
  fun r ho => by rw [envFree_target i hr, if_neg ho]

end Free

-- How often the address space of `e` refers to `p`.
def refsOf (m : Machine) (s : State) (e : EnvPtr) (p : Nat) : Nat :=
  (Finset.univ.filter fun r : Ref => s.target m r = some p ∧ r.owner = some e).card

-- `p` belongs to the address space of `e` and to no other one.
def OnlyIn (m : Machine) (s : State) (e : EnvPtr) (p : Nat) : Prop :=
  (∃ r, s.target m r = some p) ∧ ∀ r : Ref, s.target m r = some p → r.owner = some e

-- What `env_free` should do.
structure Released (m : Machine) (s : State) (e : EnvPtr) (s' : State) : Prop where
  status  : s'.status e = .free
  head    : s'.envFreeList = some e ∧ s'.envLink e = s.envFreeList
  list    : ∃ fl, Chain s'.ppLink s'.pageFreeList fl ∧ fl.Nodup
  free    : ∀ p, s'.Free p ↔ s.Free p ∨ OnlyIn m s e p
  ppRef   : ∀ p, Managed m p → s.ppRef p = s'.ppRef p + refsOf m s e p
  pgdir   : ∀ e', e' ≠ e → s'.pgdir e' = s.pgdir e'
  tables  : ∀ e', e' ≠ e → s'.tableOf e' = s.tableOf e'
  entries : ∀ e', e' ≠ e → s'.entry e' = s.entry e'
  kernel  : ∀ e' pd va, e' ≠ e → s.pgdir e' = some pd → UTOP ≤ va → PDX va ≠ PDX UVPT →
    s'.walk pd va = s.walk pd va

section Released

theorem PageInv.free_iff (i : PageInv m K s [] []) :
    s.Free p ↔ Managed m p ∧ ∀ r, s.target m r ≠ some p := by
  obtain ⟨fl, hc, b⟩ := i.refs
  have hp : s.Free p ↔ p ∈ fl :=
    ⟨fun ⟨l, hl, hm⟩ => hl.deterministic hc ▸ hm, fun hm => ⟨fl, hc, hm⟩⟩
  rw [hp, b.memFree, count_eq_zero]
  simp

theorem count_owner (h : ∀ r, s'.target m r = if r.owner = some e then none else s.target m r) :
    count (s.target m) p = count (s'.target m) p + refsOf m s e p := by
  have hs : refs (s'.target m) p =
      Finset.univ.filter fun r : Ref => s.target m r = some p ∧ ¬r.owner = some e := by
    ext r
    rw [mem_refs, h, Finset.mem_filter]
    split <;> simp_all
  rw [count, count, hs, refsOf, refs, Nat.add_comm, ← Finset.filter_filter, ← Finset.filter_filter]
  exact (Finset.card_filter_add_card_filter_not _).symm

-- Above `UTOP` every address space is what it was at the start.
theorem KernInv.walk_kern (i : KernInv m K s) (h : s.pgdir e = some pd) (hva : UTOP ≤ va)
    (hx : PDX va ≠ PDX UVPT) : s.walk pd va = (K m.kernPgdir (PDX va),
      (entryPage (K m.kernPgdir (PDX va))).map fun pt => K pt (PTX va)) := by
  have h₁ : UTOPX ≤ PDX va := UTOPX_le_PDX (BitVec.not_lt.mpr hva)
  have hv : PDX va ≠ UVPTX := UVPTX_eq ▸ hx
  have hpde : s.mem pd (PDX va) = K m.kernPgdir (PDX va) := by
    rw [i.page.kern.dirs h h₁ PDX_lt, if_neg hv]
  simp only [State.walk, hpde, Prod.mk.injEq, true_and]
  cases hpt : entryPage (K m.kernPgdir (PDX va))
  case none    => rfl
  case some pt =>
    have ht : s.target m (.ktable ⟨PDX va, PDX_lt⟩) = some pt := by
      rw [State.target, if_pos ⟨h₁, hv⟩, i.page.kern.pgdir]
      exact hpt
    simp [i.page.kern.tables ht]

theorem envFree_released (i : KernInv m K s) (hr : envFree m s e = some s') : Released m s e s' := by
  obtain ⟨i', hent⟩ := envFree_spec i hr
  have hf := envFree_freed hr
  have ht (r : Ref) := envFree_target (r := r) i hr
  have hpg {e'} (he : e' ≠ e) : s'.pgdir e' = s.pgdir e' := by rw [pgdir_update hf.envs, update_of_ne he]
  refine { status := ?_, head := ⟨hf.envFreeList, ?_⟩, list := ?_, free := fun p => ?_,
           ppRef := fun p hm => ?_, pgdir := fun e' he => hpg he,
           tables := fun e' he => envFree_tableOf i hr he, entries := fun e' he => hent he,
           kernel := fun e' pd va he hp hva hx => ?_ }
  · rw [status_update hf.envs, update_self]
  · rw [envLink_update hf.envs, update_self]
  · obtain ⟨fl, hc, _⟩ := i'.page.refs
    exact ⟨fl, hc, hc.nodup⟩
  · rw [i.page.free_iff, i'.page.free_iff]
    constructor
    · rintro ⟨hm, hn⟩
      by_cases hex : ∃ r, s.target m r = some p
      · refine .inr ⟨hex, fun r hrp => ?_⟩
        by_contra ho
        exact hn r (by rw [ht, if_neg ho, hrp])
      · exact .inl ⟨hm, fun r hrp => hex ⟨r, hrp⟩⟩
    · rintro (⟨hm, hn⟩ | ⟨⟨r₀, h₀⟩, ho⟩)
      · refine ⟨hm, fun r => ?_⟩
        rw [ht]
        split
        · simp
        · exact hn r
      · refine ⟨i.page.target_managed h₀, fun r hrp => ?_⟩
        rw [ht] at hrp
        split at hrp
        · cases hrp
        · exact absurd (ho r hrp) ‹_›
  · obtain ⟨_, _, b⟩ := i.page.refs
    obtain ⟨_, _, b'⟩ := i'.page.refs
    rw [b.cntEq hm, b'.cntEq hm, List.count_nil, Nat.add_zero, Nat.add_zero]
    exact count_owner ht
  · rw [i.walk_kern hp hva hx, i'.walk_kern ((hpg he).trans hp) hva hx]

end Released

-- The system calls by which `c` changes the address space of its child with the given id.
inductive ChildCall
  | pageAlloc (va perm : Word)
  | pageMap (srcenvid srcva dstva perm : Word)
  | pageUnmap (va : Word)

def ChildCall.exec (m : Machine) (s : State) (c : EnvPtr) (id : Word) : ChildCall → Option Exit
  | pageAlloc va perm                 => sysPageAlloc m s c id va perm
  | pageMap srcenvid srcva dstva perm => sysPageMap m s c srcenvid srcva id dstva perm
  | pageUnmap va                      => sysPageUnmap m s c id va

-- The call finds a page where it looks for one, and the counter of the page has room.
def ChildCall.Safe (m : Machine) (c : EnvPtr) (id : Word) (s : State) : ChildCall → Prop
  | pageAlloc ..                      => True
  | pageMap srcenvid srcva dstva perm => Kern.Safe m s c SYS_page_map srcenvid srcva id dstva perm
  | pageUnmap va                      => Kern.Safe m s c SYS_page_unmap id va 0#32 0#32 0#32

def ChildStep (m : Machine) (c : EnvPtr) (id : Word) (s : State) (call : ChildCall) (s' : State) : Prop :=
  ∃ r, call.exec m s c id = some (.ret r s')

section Child

theorem envid2env_ok {x : Bool} (h : envid2env s c id x = .ok e) (h0 : id ≠ 0#32) : e = ENVX id := by
  rw [envid2env, if_neg h0] at h
  simp only at h
  split at h
  · cases h
  · split at h
    · cases h
    · exact (Except.ok.inj h).symm

theorem sysPageAlloc_others {v : Word} (i : KernInv m K s) (h0 : id ≠ 0#32)
    (h : sysPageAlloc m s c id va perm = some (.ret v s')) : OthersKept m (ENVX id) s s' := by
  simp only [sysPageAlloc] at h
  split at h
  case isTrue => cases h; exact .refl
  split at h
  case isTrue => cases h; exact .refl
  rename_i hva _
  have hva := lt_UTOP_of_badVa (by simpa using hva)
  cases he : envid2env s c id true <;> simp only [he] at h
  case error => cases h; exact .refl
  case ok e  =>
    have hx := envid2env_ok he h0
    subst hx
    cases ha : pageAlloc s perm with | mk o s₁ =>
    cases o <;> simp only [ha] at h
    case none =>
      cases h
      exact (pageAlloc_eq_none ha).left ▸ .refl
    case some p =>
      have a := i.page.pageAlloc ha
      have ho : OthersKept m (ENVX id) s s₁ := .of_target a.target
      simp only [Option.bind_eq_bind, Option.bind_eq_some_iff, Prod.exists] at h
      obtain ⟨pd, hpd, r, s₂, hr, hx⟩ := h
      have ho₂ := ho.trans (.pageInsert a.inv hpd hva hr)
      split at hx
      case isTrue =>
        obtain ⟨s₃, hf, hx⟩ := Option.bind_eq_some_iff.mp hx
        cases hx
        exact ho₂.trans (.sameSpace (.pageFree hf))
      case isFalse =>
        cases hx
        exact ho₂

theorem sysPageMap_others {srcenvid srcva dstva v : Word} (i : KernInv m K s) (h0 : id ≠ 0#32)
    (h : sysPageMap m s c srcenvid srcva id dstva perm = some (.ret v s')) :
    OthersKept m (ENVX id) s s' := by
  simp only [sysPageMap, Option.bind_eq_bind, Option.bind_eq_some_iff] at h
  obtain ⟨y, hy, h⟩ := h
  cases y
  case error => cases h; exact .refl
  case ok y  =>
    obtain ⟨dst, p, slot⟩ := y
    obtain ⟨src, pd, hsrc, hdst, hperm, he, he', hpd, hl, hw⟩ := KernInv.sysPageMapChecks_ok hy
    have hx := envid2env_ok he' h0
    subst hx
    simp only [Option.bind_eq_some_iff, Prod.exists, Option.some.injEq] at h
    obtain ⟨pd', hpd', r, s₁, hi, h⟩ := h
    cases h
    exact .pageInsert i.page hpd' hdst hi

theorem sysPageUnmap_others {v : Word} (i : KernInv m K s) (h0 : id ≠ 0#32)
    (h : sysPageUnmap m s c id va = some (.ret v s')) : OthersKept m (ENVX id) s s' := by
  simp only [sysPageUnmap] at h
  split at h
  case isTrue => cases h; exact .refl
  rename_i hva
  have hva := lt_UTOP_of_badVa (by simpa using hva)
  cases he : envid2env s c id true <;> simp only [he] at h
  case error => cases h; exact .refl
  case ok e  =>
    have hx := envid2env_ok he h0
    subst hx
    simp only [Option.bind_eq_bind, Option.bind_eq_some_iff, Option.some.injEq] at h
    obtain ⟨pd, hpd, s₁, hr, h⟩ := h
    cases h
    exact .pageRemove i.page hpd hva hr

-- What one call keeps.
structure ChildKept (m : Machine) (K : Nat → Nat → Word) (e : EnvPtr) (s s' : State) : Prop where
  inv    : KernInv m K s'
  others : OthersKept m e s s'
  status : s'.status = s.status

theorem childStep_kept {call : ChildCall} (i : KernInv m K s) (h0 : id ≠ 0#32)
    (hg : call.Safe m c id s) (h : ChildStep m c id s call s') : ChildKept m K (ENVX id) s s' := by
  obtain ⟨v, h⟩ := h
  cases call
  case pageAlloc va perm =>
    obtain ⟨_, _, hx, hs⟩ := sysPageAlloc_quiet h
    cases hx
    exact ⟨i.sysPageAlloc h, sysPageAlloc_others i h0 h, hs.status⟩
  case pageMap srcenvid srcva dstva perm =>
    obtain ⟨_, _, hx, hs⟩ := sysPageMap_quiet h
    cases hx
    exact ⟨i.sysPageMap h (hg.pageMap rfl), sysPageMap_others i h0 h, hs.status⟩
  case pageUnmap va =>
    obtain ⟨_, _, hx, hs⟩ := sysPageUnmap_quiet h
    cases hx
    exact ⟨i.sysPageUnmap h (hg.pageUnmap rfl), sysPageUnmap_others i h0 h, hs.status⟩

theorem childRun_kept (i : KernInv m K s) (h0 : id ≠ 0#32)
    (r : Run (ChildStep m c id) (ChildCall.Safe m c id) s s') : ChildKept m K (ENVX id) s s' := by
  have step : ∀ {s₁ s₂ call}, ChildKept m K (ENVX id) s s₁ → ChildCall.Safe m c id s₁ call →
      ChildStep m c id s₁ call s₂ → ChildKept m K (ENVX id) s s₂ := by
    intro s₁ s₂ call k hg h
    have k₂ := childStep_kept k.inv h0 hg h
    exact ⟨k₂.inv, k.others.trans k₂.others, k₂.status.trans k.status⟩
  exact r.invariant ⟨i, .refl, rfl⟩ step

theorem envAlloc_error {v parentId : Word} (h : envAlloc m s parentId = (.error v, s')) :
    negative v = true := by
  simp only [envAlloc] at h
  split at h
  case h_1 => cases h; decide
  case h_2 e _ =>
    cases hs : envSetupVm m s e with | mk r s₁ =>
    simp only [hs] at h
    split at h
    case isTrue hn => cases h; exact hn
    case isFalse   => cases h

-- Whatever the last id of a slot was, the next one names the slot and is not 0.
theorem generateEnvId_slot {w : Word} : ENVX (generateEnvId w e) = e ∧ generateEnvId w e ≠ 0#32 := by
  have hg : ∃ g : Word, generateEnvId w e = g ||| BitVec.ofNat 32 e ∧ g.toNat % 1024 = 0 ∧ g ≠ 0#32 := by
    simp only [generateEnvId]
    split
    case isTrue => exact ⟨_, rfl, by decide, by decide⟩
    case isFalse hs =>
      refine ⟨_, rfl, ?_, fun hz => hs (by rw [hz]; decide)⟩
      rw [clear_index]
      exact Nat.mul_mod_left ..
  obtain ⟨g, he, hlow, hne⟩ := hg
  have hlt : e.val < 1024 := e.isLt
  rw [he]
  refine ⟨?_, fun hz => hne (BitVec.or_eq_zero_iff.mp hz).left⟩
  rw [Fin.ext_iff, ENVX_toNat, or_index hlow]
  omega

-- A new environment has a page directory of its own.
theorem envAlloc_others {parentId : Word} (i : KernInv m K s)
    (h : envAlloc m s parentId = (.ok e, s')) : OthersKept m e s s' := by
  simp only [envAlloc] at h
  split at h
  case h_1 => cases h
  case h_2 e' hf =>
    have h0 : s.pgdir e' = none := i.envs.head_pgdir hf
    cases hs : envSetupVm m s e' with | mk r s₁ =>
    simp only [hs] at h
    split at h
    case isTrue => cases h
    case isFalse hn =>
      cases h
      have ho : OthersKept m e s s₁ := by
        simp only [envSetupVm] at hs
        cases ha : pageAlloc s 1#32 with | mk o s₂ =>
        cases o
        case none =>
          simp only [ha, Prod.mk.injEq] at hs
          exact absurd (hs.left ▸ hn) (by decide)
        case some p =>
          have a := i.page.pageAlloc ha
          have hm : p ∈ [p] := List.mem_cons_self
          simp only [ha, Prod.mk.injEq] at hs
          obtain ⟨_, rfl⟩ := hs
          let q := envPgdirOf (s₂.mem m.kernPgdir) p
          let v := { s₂.envs e with envPgdir := some p }
          have hu := a.inv.hand_unref hm
          have ht₂ : (s₂.fill p q).target m = s₂.target m :=
            target_fill hu (a.inv.hand_managed hm).ne_kernPgdir
          have hd : (incRef (s₂.fill p q) p).pgdir e = none := by
            simpa [State.pgdir, incRef, a.envs] using h0
          have hd₂ (d) : (incRef (s₂.fill p q) p).tableOf e d = none := tableOf_eq_none hd
          have i₂ := (a.inv.fill (c := q) hm).incRef_hand
          have hz {pd} (hv : v.envPgdir = some pd) :
              (incRef (s₂.fill p q) p).mem pd = envPgdirOf (K m.kernPgdir) pd := by
            cases hv
            rw [← a.inv.kern.pgdir]
            exact fill_mem_self ..
          intro r hr
          have hset : ((incRef (s₂.fill p q) p).setEnv e v).target m =
            update ((incRef (s₂.fill p q) p).target m) (.dir e) v.envPgdir :=
            target_setDir hd₂ (i₂.tableOf_dir hz)
          have hne : r ≠ .dir e := by
            rintro rfl
            exact hr rfl
          change ((incRef (s₂.fill p q) p).setEnv e v).target m r = _
          rw [hset, update_of_ne hne, SameSpace.incRef.target, ht₂, a.target]
      refine ho.trans (.of_target (target_congr rfl ?_))
      exact pgdir_setEnv_self rfl

-- The same references mean the same free pages.
theorem KernInv.free_congr (i : KernInv m K s) (i' : KernInv m K s') (h : s'.target m = s.target m) :
    s'.Free p ↔ s.Free p := by
  rw [i.page.free_iff, i'.page.free_iff, h]

-- The child goes away with all that it got.
theorem child_restores {v : Word} (i : KernInv m K s) (hx : sysExofork m s c = .ret id s₁)
    (hn : negative id = false) (r : Run (ChildStep m c id) (ChildCall.Safe m c id) s₁ s₂)
    (hd : sysEnvDestroy m s₂ c id = some (.ret v s₃)) (hv : v = 0#32) : s₃.Free p ↔ s.Free p := by
  have i₁ : KernInv m K s₁ := by
    have := i.sysExofork (c := c)
    rwa [hx] at this
  simp only [sysExofork] at hx
  cases ha : envAlloc m s (s.envs c).envId with | mk o sa =>
  cases o <;> simp only [ha] at hx
  case error e' =>
    cases hx
    rw [envAlloc_error ha] at hn
    cases hn
  case ok e =>
    simp only [Exit.ret.injEq] at hx
    obtain ⟨hid, hs₁⟩ := hx
    have hnew := (envAlloc_newEnv ha).left
    have hide : id = generateEnvId (s.envs e).envId e := by
      rw [← hid, State.setEnv_envs_self]
      exact hnew.envId
    obtain ⟨hX, h0⟩ : ENVX id = e ∧ id ≠ 0#32 := hide ▸ generateEnvId_slot
    have ho₁ : OthersKept m e s s₁ := by
      refine (envAlloc_others i ha).trans (.of_target ?_)
      rw [← hs₁]
      exact target_congr rfl (pgdir_setEnv_self rfl)
    have hst : s₁.status e = .notRunnable := by
      rw [← hs₁]
      simp [State.status]
    have k := childRun_kept i₁ h0 r
    rw [hX] at k
    -- The child is not running, so that it is freed.
    have hfree : ∃ s₄, envFree m s₂ e = some s₄ ∧ s₄ = s₃ := by
      simp only [sysEnvDestroy] at hd
      cases he : envid2env s₂ c id true <;> simp only [he] at hd
      case error w =>
        simp only [Option.some.injEq, Exit.ret.injEq] at hd
        rw [← hd.left, envid2env_error he] at hv
        exact absurd hv (by decide)
      case ok e' =>
        have he' := envid2env_ok he h0
        rw [hX] at he'
        subst he'
        simp only [envDestroy] at hd
        rw [if_neg (by rw [k.status, hst]; simp)] at hd
        simp only [Option.bind_eq_bind, Option.bind_eq_some_iff, Option.some.injEq] at hd
        obtain ⟨s₄, h₄, hx⟩ := hd
        split at hx
        · cases hx
        · cases hx
          exact ⟨_, h₄, rfl⟩
    obtain ⟨_, hf, rfl⟩ := hfree
    have i₃ := (envFree_spec k.inv hf).left
    refine i.free_congr i₃ (funext fun r => ?_)
    rw [envFree_target k.inv hf]
    split
    case isFalse hr => rw [k.others r hr, ho₁ r hr]
    case isTrue hr =>
      have hp : s.pgdir e = none := i.envs.head_pgdir hnew.head
      cases r <;> cases hr
      case dir   => exact hp.symm
      case table => exact (tableOf_eq_none hp).symm
      case pte   => simp only [State.target, entry_eq_zero (tableOf_eq_none hp), entryPage_zero]

end Child

-- `env_free` gives back what the environment owned, and nothing else. A child that is destroyed has no
-- effect on the free pages, if its parent only mapped pages that are there, and not too often.
theorem env_free_exact (i : KernInv m K s) :
    (∀ e s', envFree m s e = some s' → Released m s e s') ∧
      ∀ c id s₁ s₂ s₃, sysExofork m s c = .ret id s₁ → negative id = false →
        Run (ChildStep m c id) (ChildCall.Safe m c id) s₁ s₂ →
          sysEnvDestroy m s₂ c id = some (.ret 0#32 s₃) → ∀ p, s₃.Free p ↔ s.Free p :=
  ⟨fun _ _ hr => envFree_released i hr, fun _ _ _ _ _ hx hn r hd _ => child_restores i hx hn r hd rfl⟩

namespace Sample

-- The file server forks, makes one call for its child and destroys it: the id of the child and the
-- states after these three calls, if they succeed.
def forkCall (s : State) (call : ChildCall) : Option (Word × State × State × State) :=
  match sysExofork machine s fs with
  | .ret id s₁ => do
    match ← call.exec machine s₁ fs id with
    | .ret _ s₂ => do
      match ← sysEnvDestroy machine s₂ fs id with
      | .ret v s₃ => if negative id = false ∧ v = 0#32 then some (id, s₁, s₂, s₃) else none
      | _         => none
    | _         => none
  | _          => none

theorem forkCall_spec {call : ChildCall} (h : forkCall s call = some (id, s₁, s₂, s₃)) :
    sysExofork machine s fs = .ret id s₁ ∧ negative id = false ∧ ChildStep machine fs id s₁ call s₂ ∧
      sysEnvDestroy machine s₂ fs id = some (.ret 0#32 s₃) := by
  simp only [forkCall, Option.bind_eq_bind] at h
  split at h <;> try cases h
  rename_i id' s₁' hx
  obtain ⟨x, hc, h⟩ := Option.bind_eq_some_iff.mp h
  cases x <;> try cases h
  rename_i v s₂'
  obtain ⟨y, hd, h⟩ := Option.bind_eq_some_iff.mp h
  cases y <;> try cases h
  rename_i w s₃'
  simp only [Option.ite_none_right_eq_some, Option.some.injEq, Prod.mk.injEq] at h
  obtain ⟨⟨hn, rfl⟩, rfl, rfl, rfl, rfl⟩ := h
  exact ⟨hx, hn, ⟨_, hc⟩, hd⟩

-- The child gets a page of its own.
def allocCall : ChildCall := .pageAlloc 0#32 (PTE_U ||| PTE_P)

-- The child gets what the file server has at an address without a page, below its stack.
def mapEmptyCall : ChildCall :=
  .pageMap 0#32 (USTACKTOP - 8192#32) 0#32 (PTE_U ||| PTE_P)

end Sample

-- A child with a page is created and destroyed.
theorem env_free_exact_child : ∃ s id s₁ s₂ s₃, Sample.forkCall s Sample.allocCall = some (id, s₁, s₂, s₃) ∧
    ∀ p, s₃.Free p ↔ s.Free p := by
  have hx : (Sample.start >>= (Sample.forkCall · Sample.allocCall)).isSome := by decide +kernel
  obtain ⟨⟨id, s₁, s₂, s₃⟩, hx⟩ := Option.isSome_iff_exists.mp hx
  obtain ⟨s, hs, hf⟩ := Option.bind_eq_some_iff.mp hx
  obtain ⟨he, hn, hc, hd⟩ := Sample.forkCall_spec hf
  have i : KernInv Sample.machine Sample.boot.mem s :=
    Sample.boot_boot.kernInv.envCreates (Sample.start_eq.trans hs)
  have hg : Sample.allocCall.Safe Sample.machine Sample.fs id s₁ := trivial
  exact ⟨s, id, s₁, s₂, s₃, hf,
    (env_free_exact i).right Sample.fs id s₁ s₂ s₃ he hn (.single hg hc) hd⟩

-- Page 0 is mapped in the child, and freed with it.
theorem not_env_free_exact : ¬∀ {m K s}, KernInv m K s →
    (∀ e s', envFree m s e = some s' → Released m s e s') ∧
      ∀ c id s₁ s₂ s₃, sysExofork m s c = .ret id s₁ → negative id = false →
        Run (ChildStep m c id) (fun _ _ => True) s₁ s₂ →
          sysEnvDestroy m s₂ c id = some (.ret 0#32 s₃) → ∀ p, s₃.Free p ↔ s.Free p := by
  intro h
  have hx : (Sample.start >>= fun s => (Sample.forkCall s Sample.mapEmptyCall).map fun x =>
      decide (s.pageFreeList.isSome ∧ x.2.2.2.pageFreeList = s.pageFreeList ∧
        (x.2.2.2.pageFreeList.bind x.2.2.2.ppLink).bind x.2.2.2.ppLink = some 0)) = some true := by
    decide +kernel
  obtain ⟨s, hs, hx⟩ := Option.bind_eq_some_iff.mp hx
  obtain ⟨⟨id, s₁, s₂, s₃⟩, hf, hx⟩ := Option.map_eq_some_iff.mp hx
  obtain ⟨hsome, hhead, hzero⟩ := of_decide_eq_true hx
  obtain ⟨he, hn, hc, hd⟩ := Sample.forkCall_spec hf
  have i : KernInv Sample.machine Sample.boot.mem s :=
    Sample.boot_boot.kernInv.envCreates (Sample.start_eq.trans hs)
  have hiff := (h i).right Sample.fs id s₁ s₂ s₃ he hn (.single trivial hc) hd
  obtain ⟨pd, hpd⟩ := Option.isSome_iff_exists.mp hsome
  simp only at hhead hzero
  rw [hpd] at hhead
  -- The list leads from the page directory over the page table to page 0.
  have hpdf : s.Free pd := by
    obtain ⟨fl, hl, _⟩ := i.page.refs
    rw [hpd] at hl
    obtain ⟨_, hfl, _⟩ := hl.pop (o := none)
    exact ⟨fl, hpd ▸ hl, hfl ▸ List.mem_cons_self⟩
  obtain ⟨fl, hl, _⟩ := (hiff pd).mpr hpdf
  have hl₀ := hl
  rw [hhead] at hl hzero
  have h0 : 0 ∈ fl := by
    cases hl with
    | cons h₁ =>
      cases hpt : s₃.ppLink pd
      case none => simp [hpt] at hzero
      case some pt =>
        rw [hpt] at h₁
        simp only [Option.bind_some, hpt] at hzero
        cases h₁ with
        | cons h₂ =>
          rw [hzero] at h₂
          cases h₂ with
          | cons h₃ => simp
  exact (i.page.free_iff.mp ((hiff 0).mp ⟨fl, hl₀, h0⟩)).left.ne_zero rfl

end Kern

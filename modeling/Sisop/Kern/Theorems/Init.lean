import Sisop.Kern.Theorems.Env
import Sisop.Kern.Theorems.Envs
import Sisop.Kern.Init
import Mathlib.Tactic.IntervalCases

namespace Kern

open Inc Function Library State

-- What holds while the boot code fills in `kern_pgdir`, before there are environments.
structure BootInv (m : Machine) (s : State) (own hand : List Nat) : Prop where
  page : PageInv m s.mem s own hand
  dirs : ∀ e, s.pgdir e = none
  zero : ∀ {d : Fin NPDENTRIES}, UTOPX ≤ d → d ≠ UVPTX → s.target m (.ktable d) = none →
    s.mem m.kernPgdir d = 0#32

namespace BootInv

variable {m : Machine} {K : Nat → Nat → Word} {s s' : State} {own hand : List Nat} {p pt : Nat}
  {w va pa perm : Word}

section Dirs

variable (h : ∀ e, s.pgdir e = none)
include h

theorem target_eq_none {r : Ref} (hr : ∀ d, r ≠ .ktable d) : s.target m r = none := by
  cases r
  case dir e       => exact h e
  case table e d   => exact tableOf_eq_none (h e)
  case pte e d t   => simp [State.target, entry_eq_zero (tableOf_eq_none (h e)), entryPage_zero]
  case ktable d    => exact absurd rfl (hr d)

-- Without environments, only `kern_pgdir` matters.
theorem of_kern (below : ∀ d : Fin UTOPX, s.mem m.kernPgdir d = 0#32)
    (refs : ∃ fl, Chain s.ppLink s.pageFreeList fl ∧
      Balanced (Managed m) (s.target m) s.ppRef fl own hand)
    (unique : ∀ {d d' p}, s.target m (.ktable d) = some p → s.target m (.ktable d') = some p → d' = d) :
    PageInv m s.mem s own hand where
  refs := refs
  unique := by
    intro r r' p _ h₁ h₂
    cases r
    case ktable d =>
      cases r'
      case ktable d' => rw [unique h₁ h₂]
      all_goals rw [target_eq_none h (by simp)] at h₂; cases h₂
    all_goals rw [target_eq_none h (by simp)] at h₁; cases h₁
  zeroPde := by
    intro e pd d hd
    rw [h e] at hd
    cases hd
  zeroPte := fun _ => entry_eq_zero (tableOf_eq_none (h _))
  kern := {
    below  := below
    pgdir  := rfl
    tables := fun _ => rfl
    dirs   := by
      intro e pd d hd
      rw [h e] at hd
      cases hd
  }

theorem rebase (i : PageInv m K s own hand) : PageInv m s.mem s own hand :=
  of_kern h (fun d => by rw [i.kern.pgdir]; exact i.kern.below d) i.refs fun h₁ h₂ =>
    Ref.ktable.inj (i.unique trivial h₁ h₂)

theorem target_store_kern {d : Fin NPDENTRIES} (hx : UTOPX ≤ d) (hv : d ≠ UVPTX) :
    (s.store m.kernPgdir d w).target m = update (s.target m) (.ktable d) (entryPage w) := by
  funext r
  by_cases hr : ∃ d', r = .ktable d'
  case neg =>
    have hr (d') : r ≠ .ktable d' := fun hc => hr ⟨d', hc⟩
    rw [update_of_ne (hr d), target_eq_none h hr, target_eq_none (s := s.store ..) h hr]
  case pos =>
    obtain ⟨d', hr⟩ := hr
    subst hr
    simp only [State.target, store_mem_self, update_apply, Ref.ktable.injEq, Fin.ext_iff]
    by_cases hd : d' = d
    · subst hd
      simp [hx, hv]
    · simp [Fin.val_ne_of_ne hd]

end Dirs

-- A page, already counted, becomes a page table of `kern_pgdir`.
theorem store_kern (i : BootInv m s (p :: own) hand) {d : Fin NPDENTRIES} (hx : UTOPX ≤ d)
    (hv : d ≠ UVPTX) (h0 : s.target m (.ktable d) = none) (hw : entryPage w = some p)
    (hu : ∀ r, s.target m r ≠ some p) : BootInv m (s.store m.kernPgdir d w) own hand := by
  have ht := target_store_kern (m := m) (w := w) i.dirs hx hv
  have hne (d' : Fin UTOPX) : (d' : Nat) ≠ d := by
    have := d'.isLt
    omega
  refine { page := of_kern i.dirs ?below ?refs ?unique, dirs := i.dirs, zero := ?zero }
  case below =>
    intro d'
    rw [store_mem_self, update_of_ne (hne d')]
    exact i.page.kern.below d'
  case refs =>
    obtain ⟨fl, hc, b⟩ := i.page.refs
    rw [ht, hw]
    exact ⟨fl, hc, b.store h0⟩
  case unique =>
    intro d₁ d₂ q h₁ h₂
    rw [ht, update_apply] at h₁ h₂
    split at h₁ <;> split at h₂
    · simp_all
    · rw [hw] at h₁
      exact absurd (h₁ ▸ h₂) (hu _)
    · rw [hw] at h₂
      exact absurd (h₂ ▸ h₁) (hu _)
    · exact Ref.ktable.inj (i.page.unique trivial h₁ h₂)
  case zero =>
    intro d' hx' hv' hn
    rw [ht] at hn
    by_cases hd : d' = d
    · subst hd
      rw [update_self, hw] at hn
      cases hn
    · rw [update_of_ne (by simpa using hd)] at hn
      rw [store_mem_self, update_of_ne (Fin.val_ne_of_ne hd)]
      exact i.zero hx' hv' hn

-- Writing an entry of a page table of `kern_pgdir`.
theorem store_table (i : BootInv m s own hand) {d : Fin NPDENTRIES} {n : Nat}
    (ht : s.target m (.ktable d) = some pt) : BootInv m (s.store pt n w) own hand := by
  have hk : m.kernPgdir ≠ pt := (i.page.target_managed ht).ne_kernPgdir.symm
  have htgt : (s.store pt n w).target m = s.target m := by
    funext r
    by_cases hr : ∃ d', r = .ktable d'
    case neg =>
      have hr (d') : r ≠ .ktable d' := fun hc => hr ⟨d', hc⟩
      rw [target_eq_none i.dirs hr, target_eq_none (s := s.store ..) i.dirs hr]
    case pos =>
      obtain ⟨d', hr⟩ := hr
      simp [hr, State.target, store_mem_of_ne hk]
  refine { page := of_kern i.dirs ?below ?refs ?unique, dirs := i.dirs, zero := ?zero }
  case below =>
    rw [store_mem_of_ne hk]
    exact i.page.kern.below
  case refs => exact htgt ▸ i.page.refs
  case unique =>
    rw [htgt]
    exact fun h₁ h₂ => Ref.ktable.inj (i.page.unique trivial h₁ h₂)
  case zero =>
    rw [htgt, store_mem_of_ne hk]
    exact i.zero

-- The page directory indices that the boot code fills in.
def KernIndex (va : Word) : Prop := UTOPX ≤ PDX va ∧ PDX va ≠ UVPTX

theorem bootMapWalk (i : BootInv m s [] []) (h : KernIndex va) {create : Bool} {slot : Slot}
    (hw : pgdirWalk m s m.kernPgdir va create = some (some slot, s')) :
    BootInv m s' [] [] ∧ s'.target m (.ktable ⟨PDX va, PDX_lt⟩) = some slot.1 := by
  obtain ⟨hx, hv⟩ := h
  let d : Fin NPDENTRIES := ⟨PDX va, PDX_lt⟩
  have htgt : s.target m (.ktable d) = entryPage (s.mem m.kernPgdir (PDX va)) :=
    if_pos ⟨hx, hv⟩
  simp only [pgdirWalk] at hw
  split at hw
  case isFalse hz =>
    simp only [kaddr, Option.bind_eq_bind, Option.bind_eq_some_iff, Option.some.injEq,
      Prod.mk.injEq, Option.ite_none_right_eq_some] at hw
    obtain ⟨_, ⟨_, hs⟩, hs', hss⟩ := hw
    subst hss
    refine ⟨i, ?_⟩
    cases ht : s.target m (.ktable d)
    case none =>
      have h0 : s.mem m.kernPgdir (PDX va) = 0#32 := i.zero hx hv ht
      exact absurd (by rw [h0]; rfl) hz
    case some pt =>
      rw [htgt] at ht
      rw [← hs', ← hs]
      exact congrArg some (entryPage_eq_some.mp ht).right.symm
  case isTrue hz =>
    cases create
    case false => simp at hw
    case true =>
    simp only [Bool.not_true, Bool.false_eq_true, if_false] at hw
    cases ha : pageAlloc s 1#32 with | mk o s₁ =>
    cases o
    case none => simp [ha] at hw
    case some p =>
      have h0 : s.target m (.ktable d) = none := by
        by_contra hc
        obtain ⟨pt, ht⟩ := Option.ne_none_iff_exists'.mp hc
        have hm := i.page.target_managed ht
        rw [htgt] at ht
        exact hm.ne_zero ((entryPage_eq_some.mp ht).right ▸ PTE_ADDR_eq_zero.mp hz)
      have a := i.page.pageAlloc ha
      have hm : p ∈ [p] := List.mem_cons_self
      have hmg := a.inv.hand_managed hm
      have hk : kaddr m p (PTX va) = some (p, PTX va) := if_pos hmg.lt_npages
      simp only [ha, hk, Option.bind_eq_bind, Option.bind_some, Option.some.injEq,
        Prod.mk.injEq] at hw
      let w := page2pa p ||| PTE_P ||| PTE_W ||| PTE_U
      have hs : (incRef s₁ p).store m.kernPgdir d w = s' := hw.right
      have hslot : slot.1 = p := (congrArg Prod.fst hw.left).symm
      have hd : ∀ e, (incRef s₁ p).pgdir e = none := fun e => by
        simpa [State.pgdir, incRef, a.envs] using i.dirs e
      have ht₁ : (incRef s₁ p).target m = s.target m := SameSpace.incRef.target.trans a.target
      have i₁ : BootInv m (incRef s₁ p) [p] [] := by
        refine { page := rebase hd a.inv.incRef_hand, dirs := hd, zero := fun hx hv hn => ?_ }
        have hmem : (incRef s₁ p).mem m.kernPgdir = s.mem m.kernPgdir := a.mem hmg.ne_kernPgdir.symm
        rw [hmem]
        exact i.zero hx hv (ht₁ ▸ hn)
      subst hs
      have hw := PageInv.entryPage_pde hmg
      refine ⟨i₁.store_kern hx hv (ht₁.symm ▸ h0) hw ?_, ?_⟩
      · intro r
        rw [SameSpace.incRef.target]
        exact a.inv.hand_unref hm r
      · rw [target_store_kern hd hx hv, update_self, hslot]
        exact hw

theorem bootMapPage (i : BootInv m s [] []) (h : KernIndex va)
    (hr : bootMapPage m s m.kernPgdir va pa perm = some s') : BootInv m s' [] [] := by
  simp only [Kern.bootMapPage, Option.bind_eq_bind, Option.bind_eq_some_iff, Prod.exists] at hr
  obtain ⟨o, s₁, hw, hx⟩ := hr
  cases o
  case none => cases hx
  case some slot =>
    cases hx
    obtain ⟨i₁, ht⟩ := i.bootMapWalk h hw
    exact i₁.store_table ht

theorem bootMapRegion {size : Word} (i : BootInv m s [] [])
    (h : ∀ k < size.toNat / PGSIZE, KernIndex (va + BitVec.ofNat 32 (k * PGSIZE)))
    (hr : bootMapRegion m s m.kernPgdir va size pa perm = some s') : BootInv m s' [] [] :=
  foldlM_list (P := fun s => BootInv m s [] []) hr i fun hk i hs =>
    i.bootMapPage (h _ (List.mem_range.mp hk)) hs

theorem kernIndex_iff :
    KernIndex va ↔ 4005560320 ≤ va.toNat ∧ va.toNat / 4194304 ≠ 957 := by
  simp only [KernIndex, PDX_eq_div, UTOPX, UVPTX]
  omega

theorem mmioMapRegion {base base' size : Word} (i : BootInv m s [] []) (h : MMIOBASE ≤ base)
    (hb : base < MMIOLIM) (hn : (ROUNDUP size 4096#32).toNat ≤ 8192)
    (hr : mmioMapRegion m s base pa size = some (base', s')) :
    BootInv m s' [] [] ∧ MMIOBASE ≤ base' ∧ base' < MMIOLIM := by
  have hB : MMIOBASE.toNat = 4018143232 := rfl
  have hL : MMIOLIM.toNat = 4022337536 := rfl
  simp only [Kern.mmioMapRegion] at hr
  split at hr
  case isTrue => cases hr
  case isFalse hlt =>
    simp only [Option.bind_eq_bind, Option.bind_eq_some_iff, Option.some.injEq, Prod.mk.injEq] at hr
    obtain ⟨s₁, h₁, hb', hs⟩ := hr
    subst hb' hs
    simp only [BitVec.le_def, BitVec.lt_def, BitVec.toNat_add, hB, hL] at *
    refine ⟨i.bootMapRegion ?_ h₁, by omega, by omega⟩
    intro k hk
    simp only [kernIndex_iff, BitVec.toNat_add, BitVec.toNat_ofNat, PGSIZE] at *
    omega

theorem clearEntry (i : BootInv m s [] []) (h : KernIndex va)
    (hr : clearEntry m s va = some s') : BootInv m s' [] [] := by
  simp only [Kern.clearEntry, Option.bind_eq_bind, Option.bind_eq_some_iff, Prod.exists] at hr
  obtain ⟨o, s₁, hw, hx⟩ := hr
  cases o
  case none => cases hx
  case some slot =>
    cases hx
    obtain ⟨i₁, ht⟩ := i.bootMapWalk h hw
    exact i₁.store_table ht

theorem kernIndex_mmio (h : MMIOBASE ≤ va) (hb : va < MMIOLIM) : KernIndex va := by
  rw [BitVec.le_def, show MMIOBASE.toNat = 4018143232 from rfl] at h
  rw [BitVec.lt_def, show MMIOLIM.toNat = 4022337536 from rfl] at hb
  rw [kernIndex_iff]
  omega

theorem checkMmio {base : Word} (i : BootInv m s [] []) (hr : checkMmio m s = some (base, s')) :
    BootInv m s' [] [] ∧ MMIOBASE ≤ base ∧ base < MMIOLIM := by
  simp only [Kern.checkMmio, Option.bind_eq_bind, Option.bind_eq_some_iff, Prod.exists,
    Option.some.injEq, Prod.mk.injEq] at hr
  obtain ⟨mm2, s₁, h₁, _, s₂, h₂, s₃, h₃, s₄, h₄, s₅, h₅, hb, hs⟩ := hr
  subst hb hs
  obtain ⟨i₁, hb₁, hl₁⟩ := i.mmioMapRegion (by decide) (by decide) (by decide) h₁
  obtain ⟨i₂, hb₂, hl₂⟩ := i₁.mmioMapRegion hb₁ hl₁ (by decide) h₂
  have i₃ := i₂.clearEntry (kernIndex_mmio (by decide) (by decide)) h₃
  have i₄ := i₃.clearEntry (kernIndex_mmio (by decide) (by decide)) h₄
  exact ⟨i₄.clearEntry (kernIndex_mmio hb₁ hl₁) h₅, hb₂, hl₂⟩

-- A region of whole pages that lies between `UTOP` and the end of memory.
theorem bootMapRegion_at {size : Word} (n v : Nat) (hv : va.toNat = v)
    (hs : size.toNat / PGSIZE = n) (hn : 4005560320 ≤ v ∧ v + n * 4096 ≤ 4294967296)
    (hx : v + n * 4096 ≤ 4013948928 ∨ 4018143232 ≤ v) (i : BootInv m s [] [])
    (hr : Kern.bootMapRegion m s m.kernPgdir va size pa perm = some s') : BootInv m s' [] [] := by
  refine i.bootMapRegion ?_ hr
  intro k hk
  rw [hs] at hk
  have hlt : v + k * 4096 < 4294967296 := by omega
  have hk' : k * 4096 < 4294967296 := by omega
  rw [kernIndex_iff, BitVec.toNat_add, BitVec.toNat_ofNat, hv, PGSIZE, Nat.mod_eq_of_lt hk',
    Nat.mod_eq_of_lt hlt]
  omega

theorem memInitMp (i : BootInv m s [] []) (hr : memInitMp m s = some s') : BootInv m s' [] [] := by
  refine foldlM_list (P := fun s => BootInv m s [] []) hr i ?_
  intro s s' n hn i hs
  have hn : n < NCPU := List.mem_range.mp hn
  rw [NCPU] at hn
  refine bootMapRegion_at 8 (4026499072 - n * 65536) ?_ rfl (by omega) (by omega) i hs
  interval_cases n <;> rfl

theorem mapKernel (i : BootInv m s [] []) (hr : mapKernel m s = some s') : BootInv m s' [] [] := by
  simp only [Kern.mapKernel, Option.bind_eq_bind, Option.bind_eq_some_iff] at hr
  obtain ⟨s₁, h₁, s₂, h₂, s₃, h₃, s₄, h₄, h₅⟩ := hr
  have i₁ : BootInv m s₁ [] [] := by
    have hn := m.npages_le
    have hsize : (BitVec.ofNat 32 (m.npages * 8)).toNat = m.npages * 8 := by
      rw [BitVec.toNat_ofNat]
      omega
    have hup : (ROUNDUP (BitVec.ofNat 32 (m.npages * 8)) 4096#32).toNat =
        ((BitVec.ofNat 32 (m.npages * 8)).toNat + 4095) / 4096 * 4096 := ROUNDUP_toNat (by omega)
    refine bootMapRegion_at _ 4009754624 rfl rfl ?_ (.inl ?_) i h₁
    all_goals
      rw [hup, hsize, PGSIZE]
      omega
  have i₂ := bootMapRegion_at 1024 4005560320 rfl rfl (by omega) (by omega) i₁ h₂
  have i₃ := bootMapRegion_at 8 4026499072 rfl rfl (by omega) (by omega) i₂ h₃
  have i₄ := bootMapRegion_at 65536 4026531840 rfl rfl (by omega) (by omega) i₃ h₄
  exact i₄.memInitMp h₅

theorem checked (i : BootInv m s [] []) (c : Checked s s') : BootInv m s' [] [] := by
  obtain ⟨fl, hc, b⟩ := i.page.refs
  obtain ⟨fl', hc', hp, hm⟩ := c.free hc
  have hk : s'.mem m.kernPgdir = s.mem m.kernPgdir :=
    hm fun hf => (b.memFree.mp hf).left.ne_kernPgdir rfl
  have hd (e) : s'.pgdir e = none := by
    simpa [State.pgdir, c.envs] using i.dirs e
  have ht : s'.target m = s.target m := by
    funext r
    by_cases hr : ∃ d, r = .ktable d
    case pos =>
      obtain ⟨d, hr⟩ := hr
      simp [hr, State.target, hk]
    case neg =>
      have hr (d) : r ≠ .ktable d := fun hc => hr ⟨d, hc⟩
      rw [target_eq_none hd hr, target_eq_none i.dirs hr]
  refine { page := of_kern hd ?below ?refs ?unique, dirs := hd, zero := ?zero }
  case below =>
    rw [hk]
    exact i.page.kern.below
  case refs =>
    rw [ht, c.ppRef]
    exact ⟨fl', hc', { b with memFree := hp.mem_iff.trans b.memFree }⟩
  case unique =>
    rw [ht]
    exact fun h₁ h₂ => Ref.ktable.inj (i.page.unique trivial h₁ h₂)
  case zero =>
    rw [ht, hk]
    exact i.zero

end BootInv

section PageInit

variable {m : Machine} {s : State} {p : Nat}

-- The state of the loop in `page_init` after the pages up to `n`.
structure PageInitInv (m : Machine) (s : State) (n : Nat) (s' : State) : Prop where
  envs        : s'.envs = s.envs
  envFreeList : s'.envFreeList = s.envFreeList
  mem         : s'.mem = s.mem
  ppRef       : ∀ {p}, Managed m p → s'.ppRef p = 0
  free        : ∃ fl, Chain s'.ppLink s'.pageFreeList fl ∧ ∀ {p}, p ∈ fl ↔ Managed m p ∧ p ≤ n

theorem pageInit_spec (hr : ∀ p, s.ppRef p = 0) (hf : s.pageFreeList = none) :
    PageInitInv m s (m.npages - 1) (pageInit m s) := by
  refine foldl_range (P := PageInitInv m s) ?init ?step
  case init =>
    refine ⟨rfl, rfl, rfl, fun _ => hr _, [], hf ▸ .nil, fun {p} => ?_⟩
    simp only [List.not_mem_nil, Managed, false_iff]
    omega
  case step =>
    intro s₁ k hk i
    obtain ⟨fl, hc, hfl⟩ := i.free
    have hn : k + 1 ∉ fl := fun hc => by
      have := (hfl.mp hc).right
      omega
    -- A page that stays off the list is not managed.
    have reserved (hm : ¬Managed m (k + 1)) :
        PageInitInv m s (k + 1) (s₁.setPage (k + 1) ⟨none, 1#16⟩) := by
      have hne {p} (hp : Managed m p) : p ≠ k + 1 := fun hc => hm (hc ▸ hp)
      refine ⟨i.envs, i.envFreeList, i.mem, fun hp => ?_, fl, ?_, fun {p} => ?_⟩
      · rw [setPage_ppRef, update_of_ne (hne hp)]
        exact i.ppRef hp
      · rw [setPage_ppLink]
        exact hc.update_notMem hn
      · rw [hfl]
        constructor
        · rintro ⟨hp, hle⟩
          exact ⟨hp, by omega⟩
        · rintro ⟨hp, hle⟩
          have := hne hp
          exact ⟨hp, by omega⟩
    simp only [pageInitPage]
    split
    case isTrue h => exact reserved fun hm => hm.right.right.left h
    case isFalse h =>
      split
      case isTrue h => exact reserved fun hm => hm.right.right.right h
      case isFalse h' =>
        have hm : Managed m (k + 1) := ⟨by omega, by omega, h, h'⟩
        refine ⟨i.envs, i.envFreeList, i.mem, fun {p} hp => ?_, (k + 1) :: fl, ?_, fun {p} => ?_⟩
        · have : (s₁.setPage (k + 1) ⟨s₁.pageFreeList, 0#16⟩).ppRef p = 0 := by
            rw [setPage_ppRef, update_apply]
            split
            · rfl
            · exact i.ppRef hp
          exact this
        · have : (s₁.setPage (k + 1) ⟨s₁.pageFreeList, 0#16⟩).ppLink =
              update s₁.ppLink (k + 1) s₁.pageFreeList := setPage_ppLink
          exact this ▸ hc.push hn
        · rw [List.mem_cons, hfl]
          constructor
          · rintro (rfl | ⟨hp, hle⟩)
            · exact ⟨hm, Nat.le_refl _⟩
            · exact ⟨hp, by omega⟩
          · rintro ⟨hp, hle⟩
            by_cases hpk : p = k + 1
            · exact .inl hpk
            · exact .inr ⟨hp, by omega⟩

theorem pageInit_bootInv {mem : Nat → Nat → Word} :
    BootInv m (pageInit m (bootState m mem)) [] [] := by
  have i : PageInitInv m (bootState m mem) _ _ := pageInit_spec (fun _ => rfl) rfl
  have hd (e) : (pageInit m (bootState m mem)).pgdir e = none :=
    congrArg (fun f : EnvPtr → Env => (f e).envPgdir) i.envs
  have hk {n : Nat} (hn : n ≠ UVPTX) : (pageInit m (bootState m mem)).mem m.kernPgdir n = 0#32 := by
    rw [← UVPTX_eq] at hn
    rw [i.mem]
    simp [bootState, update_of_ne hn]
  have ht (r) : (pageInit m (bootState m mem)).target m r = none := by
    by_cases hr : ∃ d, r = .ktable d
    case neg => exact BootInv.target_eq_none hd fun d hc => hr ⟨d, hc⟩
    case pos =>
      obtain ⟨d, hr⟩ := hr
      simp only [hr, State.target]
      split
      case isTrue hx => rw [hk hx.right, entryPage_zero]
      case isFalse   => rfl
  refine { page := BootInv.of_kern hd ?below ?refs ?unique, dirs := hd, zero := fun _ hv _ => hk hv }
  case below =>
    intro d
    have := d.isLt
    exact hk (by simp only [UTOPX, UVPTX] at *; omega)
  case refs =>
    obtain ⟨fl, hc, hfl⟩ := i.free
    have h0 (p) : count ((pageInit m (bootState m mem)).target m) p = 0 :=
      count_eq_zero.mpr fun r => by simp [ht]
    refine ⟨fl, hc, { cntEq := ?_, memFree := ?_, tgtManaged := ?_, ownManaged := ?_,
                      handUnref := ?_, handNodup := List.nodup_nil }⟩
    · intro p hp
      rw [i.ppRef hp, h0]
      rfl
    · intro p
      rw [hfl, h0]
      have (hp : Managed m p) : p ≤ m.npages - 1 := by
        have := hp.lt_npages
        omega
      simpa using this
    · intro r p hp
      rw [ht] at hp
      cases hp
    · simp
    · simp
  case unique =>
    intro d d' p h
    rw [ht] at h
    cases h

end PageInit

section Envs

variable {m : Machine} {s s' : State} {va pa perm base base' size : Word} {pgdir : Nat}

theorem mmioMapRegion_envs (h : mmioMapRegion m s base pa size = some (base', s')) :
    SameEnvs s s' := by
  simp only [mmioMapRegion] at h
  split at h
  case isTrue  => cases h
  case isFalse =>
    simp only [Option.bind_eq_bind, Option.bind_eq_some_iff, Option.some.injEq, Prod.mk.injEq] at h
    obtain ⟨s₁, h₁, _, hs⟩ := h
    rw [← hs]
    refine foldlM_list (P := SameEnvs s) h₁ ⟨rfl, rfl⟩ fun _ ht hp => ?_
    simp only [bootMapPage, Option.bind_eq_bind, Option.bind_eq_some_iff, Prod.exists] at hp
    obtain ⟨o, s₂, hw, hx⟩ := hp
    have hs := SameEnvs.pgdirWalk hw
    cases o <;> cases hx
    exact ht.trans ⟨hs.envs, hs.envFreeList⟩

end Envs

section Boot

variable {m : Machine} {s s' : State} {base : Word}

theorem envInit_envLink {e : EnvPtr} :
    (envInit s).envLink e = if h : e.val + 1 < NENV then some ⟨e.val + 1, h⟩ else none := rfl

-- The list that `env_init` builds from slot `n` on.
theorem envInit_chain (n : Nat) (h : n < NENV) :
    ∃ el, Chain (envInit s).envLink (some ⟨n, h⟩) el ∧ ∀ {e : EnvPtr}, e ∈ el ↔ n ≤ e := by
  by_cases hn : n + 1 < NENV
  case neg =>
    refine ⟨[⟨n, h⟩], .cons ?_, fun {e} => ?_⟩
    · rw [envInit_envLink, dif_neg hn]
      exact .nil
    · have := e.isLt
      rw [List.mem_singleton, Fin.ext_iff]
      simp only
      omega
  case pos =>
    obtain ⟨el, hc, hel⟩ := envInit_chain (n + 1) hn
    refine ⟨⟨n, h⟩ :: el, .cons ?_, fun {e} => ?_⟩
    · rw [envInit_envLink, dif_pos hn]
      exact hc
    · rw [List.mem_cons, hel, Fin.ext_iff]
      simp only
      omega
termination_by NENV - n

theorem BootInv.envInit (i : BootInv m s [] []) : BootInv m (envInit s) [] [] := by
  have hp : (Kern.envInit s).pgdir = s.pgdir := rfl
  have ht : (Kern.envInit s).target m = s.target m := target_congr rfl hp
  refine { page := i.page.congr (Kern.envInit s) rfl hp i.page.refs, dirs := i.dirs, zero := ?_ }
  rw [ht]
  exact i.zero

theorem BootInv.lapicInits (i : BootInv m s [] []) (h : MMIOBASE ≤ base) (hb : base < MMIOLIM)
    (hr : lapicInits m s base = some s') : BootInv m s' [] [] := by
  simp only [Kern.lapicInits] at hr
  split at hr
  case isTrue =>
    cases hr
    exact i
  case isFalse =>
    simp only [Option.bind_eq_bind, Option.bind_eq_some_iff, Prod.exists, Option.some.injEq] at hr
    obtain ⟨b, s₁, h₁, hs⟩ := hr
    subst hs
    let inv (x : Word × State) : Prop := BootInv m x.2 [] [] ∧ MMIOBASE ≤ x.1 ∧ x.1 < MMIOLIM
    have hloop : inv (b, s₁) := by
      refine foldlM_list h₁ ⟨i, h, hb⟩ ?_
      rintro ⟨b, s₁⟩ ⟨b', s₂⟩ _ _ ⟨i, h, hb⟩ hs
      exact i.mmioMapRegion h hb (by decide) hs
    exact hloop.left

theorem lapicInits_envs (h : lapicInits m s base = some s') : SameEnvs s s' := by
  simp only [lapicInits] at h
  split at h
  case isTrue =>
    cases h
    exact .refl
  case isFalse =>
    simp only [Option.bind_eq_bind, Option.bind_eq_some_iff, Prod.exists, Option.some.injEq] at h
    obtain ⟨b, s₁, h₁, hs⟩ := h
    subst hs
    let inv (x : Word × State) : Prop := SameEnvs s x.2
    have hloop : inv (b, s₁) := by
      refine foldlM_list h₁ .refl ?_
      rintro ⟨b, s₁⟩ ⟨b', s₂⟩ _ _ i hs
      exact SameEnvs.trans i (mmioMapRegion_envs hs)
    exact hloop

theorem Boot.bootInv (b : Boot m s) : BootInv m s [] [] := by
  obtain ⟨_, mem, s₁, s₂, s₃, s₄, base, c₁, h₂, h₃, c₄, h₅⟩ := b
  obtain ⟨i₂, hb, hl⟩ := (pageInit_bootInv.checked c₁).checkMmio h₂
  exact ((i₂.mapKernel h₃).checked c₄).envInit.lapicInits hb hl h₅

-- The boot code establishes the invariant.
theorem Boot.kernInv (b : Boot m s) : KernInv m s.mem s := by
  have i := b.bootInv
  obtain ⟨_, mem, s₁, s₂, s₃, s₄, base, c₁, h₂, h₃, c₄, h₅⟩ := b
  have hs := lapicInits_envs h₅
  obtain ⟨el, hc, hel⟩ := envInit_chain (s := s₄) 0 (by decide)
  refine ⟨i.page, el, ?_, fun {e} => ?_⟩
  · rw [hs.envLink, hs.envFreeList]
    exact hc
  · simp [hel, i.dirs e]

end Boot

end Kern

import Sisop.Kern.Refs

namespace Kern

open Inc Function Library State

-- What every page directory has at and above `UTOP`: the boot-time contents `K` of `kern_pgdir` and
-- of the page tables it refers to.
structure KernHalf (m : Machine) (K : Nat → Nat → Word) (s : State) : Prop where
  below  : ∀ d : Fin UTOPX, K m.kernPgdir d = 0#32
  pgdir  : s.mem m.kernPgdir = K m.kernPgdir
  tables : ∀ {d pt}, s.target m (.ktable d) = some pt → s.mem pt = K pt
  dirs   : ∀ {e pd d}, s.pgdir e = some pd → UTOPX ≤ d → d < NPDENTRIES →
    s.mem pd d = if d = UVPTX then page2pa pd ||| PTE_P ||| PTE_U else K m.kernPgdir d

-- The invariant of the page allocator and of the address spaces. The lists `own` and `hand` are the
-- pages in the kernel's local variables, as in `Balanced`.
structure PageInv (m : Machine) (K : Nat → Nat → Word) (s : State) (own hand : List Nat) : Prop where
  refs    : ∃ fl, Chain s.ppLink s.pageFreeList fl ∧
    Balanced (Managed m) (s.target m) s.ppRef fl own hand
  unique  : TablesUnique m s
  zeroPde : ∀ {e pd} {d : Fin UTOPX}, s.pgdir e = some pd → s.tableOf e d = none → s.mem pd d = 0#32
  zeroPte : ∀ {e d t}, present (s.entry e d t) = false → s.entry e d t = 0#32
  kern    : KernHalf m K s

-- A step that changes no address space but that of `e`, and nothing else in the environments.
structure Frame (e : EnvPtr) (s s' : State) : Prop where
  envs        : s'.envs = s.envs
  envFreeList : s'.envFreeList = s.envFreeList
  entry       : ∀ {e'}, e' ≠ e → s'.entry e' = s.entry e'

namespace Frame

variable {e : EnvPtr} {s s₁ s₂ : State}

theorem refl : Frame e s s :=
  ⟨rfl, rfl, fun _ => rfl⟩

theorem trans (f : Frame e s s₁) (g : Frame e s₁ s₂) : Frame e s s₂ where
  envs        := g.envs.trans f.envs
  envFreeList := g.envFreeList.trans f.envFreeList
  entry h     := (g.entry h).trans (f.entry h)

theorem pgdir (f : Frame e s s₁) : s₁.pgdir = s.pgdir := by
  funext e
  simp [State.pgdir, f.envs]

end Frame

section Fields

variable {s : State} {p : Nat} {i : PageInfo} {l : Option Nat}

theorem setPage_ppRef : (s.setPage p i).ppRef = update s.ppRef p i.ppRef.toNat := by
  funext q
  simp only [State.ppRef, setPage_pages, update_apply]
  split <;> rfl

theorem setPage_ppLink : (s.setPage p i).ppLink = update s.ppLink p i.ppLink := by
  funext q
  simp only [State.ppLink, setPage_pages, update_apply]
  split <;> rfl

theorem setPage_ppRef_self (h : i.ppRef = (s.pages p).ppRef) : (s.setPage p i).ppRef = s.ppRef := by
  rw [setPage_ppRef, h]
  exact update_eq_self ..

theorem setPage_ppLink_self (h : i.ppLink = (s.pages p).ppLink) :
    (s.setPage p i).ppLink = s.ppLink := by
  rw [setPage_ppLink, h]
  exact update_eq_self ..

-- The state in which `page_free` has put `p` at the head of the free list.
def State.link (s : State) (p : Nat) : State :=
  (s.setPage p { s.pages p with ppLink := s.pageFreeList }).setPageFreeList (some p)

theorem link_ppRef : (s.link p).ppRef = s.ppRef :=
  setPage_ppRef_self rfl

theorem link_ppLink : (s.link p).ppLink = update s.ppLink p s.pageFreeList :=
  setPage_ppLink

theorem pageFree_eq_some {s' : State} (h : Kern.pageFree s p = some s') : s' = s.link p := by
  simp only [Kern.pageFree] at h
  split at h <;> try cases h
  split at h <;> cases h
  rfl

theorem incRef_ppLink : (incRef s p).ppLink = s.ppLink :=
  setPage_ppLink_self rfl

theorem decRef_ppLink : (decRef s p).ppLink = s.ppLink :=
  setPage_ppLink_self rfl

theorem incRef_ppRef (h : (s.pages p).ppRef ≠ 0xFFFF#16) :
    (incRef s p).ppRef = update s.ppRef p (s.ppRef p + 1) := by
  rw [incRef, setPage_ppRef]
  congr 1
  have hlt := (s.pages p).ppRef.isLt
  have hne : (s.pages p).ppRef.toNat ≠ 65535 := fun hc => h (BitVec.eq_of_toNat_eq hc)
  simp only [BitVec.toNat_add, State.ppRef, BitVec.toNat_ofNat]
  omega

theorem decRef_ppRef (h : 0 < s.ppRef p) :
    (decRef s p).ppRef = update s.ppRef p (s.ppRef p - 1) := by
  rw [decRef, setPage_ppRef]
  congr 1
  have hlt := (s.pages p).ppRef.isLt
  simp only [BitVec.toNat_sub, State.ppRef, BitVec.toNat_ofNat] at *
  omega

end Fields

namespace PageInv

variable {m : Machine} {K : Nat → Nat → Word} {s s' : State} {own hand : List Nat}
  {e : EnvPtr} {d : Fin UTOPX} {t : Fin NPDENTRIES} {p pd pt : Nat} {va w : Word} {f : Word}

-- The invariant looks at the contents of memory, the page directories and the counters.
theorem congr (i : PageInv m K s own hand) (s' : State) (hm : s'.mem = s.mem)
    (hp : s'.pgdir = s.pgdir) {own' hand' : List Nat}
    (h : ∃ fl, Chain s'.ppLink s'.pageFreeList fl ∧
      Balanced (Managed m) (s.target m) s'.ppRef fl own' hand') :
    PageInv m K s' own' hand' where
  refs     := target_congr (m := m) hm hp ▸ h
  unique   := by
    intro r r' p
    rw [target_congr hm hp]
    exact i.unique
  zeroPde  := by
    rw [hm, hp, tableOf_congr hm hp]
    exact i.zeroPde
  zeroPte  := by
    rw [entry_congr hm hp]
    exact i.zeroPte
  kern     := {
    below  := i.kern.below
    pgdir  := by rw [hm]; exact i.kern.pgdir
    tables := by rw [hm, target_congr hm hp]; exact i.kern.tables
    dirs   := by rw [hm, hp]; exact i.kern.dirs
  }

theorem target_managed (i : PageInv m K s own hand) {r : Ref} (h : s.target m r = some p) :
    Managed m p := by
  obtain ⟨_, _, b⟩ := i.refs
  exact b.tgtManaged h

theorem hand_unref (i : PageInv m K s own hand) (h : p ∈ hand) (r : Ref) : s.target m r ≠ some p := by
  obtain ⟨_, _, b⟩ := i.refs
  exact count_eq_zero.mp (b.handUnref h).right.left r

theorem own_managed (i : PageInv m K s own hand) (h : p ∈ own) : Managed m p := by
  obtain ⟨_, _, b⟩ := i.refs
  exact b.ownManaged h

theorem hand_managed (i : PageInv m K s own hand) (h : p ∈ hand) : Managed m p := by
  obtain ⟨_, _, b⟩ := i.refs
  exact (b.handUnref h).left

theorem hand_ppRef (i : PageInv m K s own hand) (h : p ∈ hand) : (s.pages p).ppRef = 0#16 := by
  obtain ⟨_, _, b⟩ := i.refs
  have h := b.cnt_hand h
  exact BitVec.eq_of_toNat_eq h

-- An unreferenced page can be overwritten.
theorem fill {c : Nat → Word} (i : PageInv m K s own hand) (h : p ∈ hand) :
    PageInv m K (s.fill p c) own hand := by
  have hu := i.hand_unref h
  have hk := (i.hand_managed h).ne_kernPgdir
  have ht : (s.fill p c).target m = s.target m := target_fill hu hk
  refine { refs := ?refs, unique := ?unique, zeroPde := ?zeroPde, zeroPte := ?zeroPte, kern := ?kern }
  case refs    => exact ht ▸ i.refs
  case unique  =>
    intro r r' p
    rw [ht]
    exact i.unique
  case zeroPde =>
    intro e pd d hd hn
    have hne : pd ≠ p := fun hc => hu (.dir e) (hc ▸ hd)
    rw [tableOf_fill hu] at hn
    rw [fill_mem_of_ne hne]
    exact i.zeroPde hd hn
  case zeroPte =>
    intro e d t
    rw [entry_fill hu]
    exact i.zeroPte
  case kern    =>
    refine { below := i.kern.below, pgdir := ?_, tables := ?_, dirs := ?_ }
    · rw [fill_mem_of_ne hk.symm]
      exact i.kern.pgdir
    · intro d pt hd
      rw [ht] at hd
      have hne : pt ≠ p := fun hc => hu (.ktable d) (hc ▸ hd)
      rw [fill_mem_of_ne hne]
      exact i.kern.tables hd
    · intro e pd d hd
      have hne : pd ≠ p := fun hc => hu (.dir e) (hc ▸ hd)
      rw [fill_mem_of_ne hne]
      exact i.kern.dirs hd

-- What `page_alloc` does when it returns the page `p`.
structure Allocated (m : Machine) (K : Nat → Nat → Word) (own hand : List Nat) (f : Word) (p : Nat)
    (s s' : State) : Prop where
  inv         : PageInv m K s' own (p :: hand)
  envs        : s'.envs = s.envs
  envFreeList : s'.envFreeList = s.envFreeList
  entry       : s'.entry = s.entry
  target      : s'.target m = s.target m
  ppRef       : s'.ppRef = s.ppRef
  mem         : ∀ {q}, q ≠ p → s'.mem q = s.mem q
  zero        : allocZero f → s'.mem p = fun _ => 0#32

theorem Allocated.frame (a : Allocated m K own hand f p s s') : Frame e s s' :=
  ⟨a.envs, a.envFreeList, fun _ => congrFun a.entry _⟩

-- `page_alloc` takes the head of the free list in hand.
theorem pageAlloc (i : PageInv m K s own hand) (h : pageAlloc s f = (some p, s')) :
    Allocated m K own hand f p s s' := by
  simp only [Kern.pageAlloc] at h
  cases hp : s.pageFreeList
  case none    => simp [hp] at h
  case some p' =>
    simp only [hp, Prod.mk.injEq, Option.some.injEq] at h
    obtain ⟨hpp, hs⟩ := h
    subst hpp
    obtain ⟨fl, hc, b⟩ := i.refs
    rw [hp] at hc
    obtain ⟨fl', hfl, hn, hc'⟩ := hc.pop (o := none)
    subst hfl
    let s₁ := (s.setPageFreeList (s.pages p').ppLink).setPage p' { s.pages p' with ppLink := none }
    have hlink : s₁.ppLink = update s.ppLink p' none := setPage_ppLink
    have href : s₁.ppRef = s.ppRef := setPage_ppRef_self rfl
    have i₁ : PageInv m K s₁ own (p' :: hand) :=
      i.congr s₁ rfl rfl ⟨fl', hlink.symm ▸ hc', href.symm ▸ b.take hn⟩
    have ht : s₁.target m = s.target m := target_congr rfl rfl
    have he : s₁.entry = s.entry := entry_congr rfl rfl
    have hm : p' ∈ p' :: hand := List.mem_cons_self
    subst hs
    split
    case isTrue hz =>
      have hu := i₁.hand_unref hm
      have hf : (s₁.fill p' fun _ => 0#32).entry = s₁.entry := by
        funext e d t
        exact entry_fill hu
      have hk := (i₁.hand_managed hm).ne_kernPgdir
      exact ⟨i₁.fill hm, rfl, rfl, hf.trans he, (target_fill hu hk).trans ht, href,
        fun hq => fill_mem_of_ne hq, fun _ => fill_mem_self ..⟩
    case isFalse hz => exact ⟨i₁, rfl, rfl, he, ht, href, fun _ => rfl, (absurd · hz)⟩

-- `page_free` gives a page back that was never referenced.
theorem pageFree (i : PageInv m K s own (p :: hand)) (h : pageFree s p = some s') :
    PageInv m K s' own hand := by
  have hs := pageFree_eq_some h
  subst hs
  obtain ⟨fl, hc, b⟩ := i.refs
  have hf : p ∉ fl := fun hf => (b.memFree.mp hf).right.right.right List.mem_cons_self
  refine i.congr (s.link p) rfl rfl ⟨p :: fl, ?_, ?_⟩
  · rw [link_ppLink]
    exact hc.push hf
  · rw [link_ppRef]
    exact b.give

-- The first reference to a page is counted.
theorem incRef_hand (i : PageInv m K s own (p :: hand)) :
    PageInv m K (incRef s p) (p :: own) hand := by
  obtain ⟨fl, hc, b⟩ := i.refs
  have h0 := i.hand_ppRef List.mem_cons_self
  have hr : s.ppRef p = 0 := congrArg BitVec.toNat h0
  refine i.congr (incRef s p) rfl rfl ⟨fl, incRef_ppLink.symm ▸ hc, ?_⟩
  rw [incRef_ppRef (by rw [h0]; decide), hr]
  exact b.adopt

-- Another reference to a page is counted. The counter must not wrap around.
theorem incRef_target (i : PageInv m K s own hand) {r : Ref} (h : s.target m r = some p)
    (ho : (s.pages p).ppRef ≠ 0xFFFF#16) : PageInv m K (incRef s p) (p :: own) hand := by
  obtain ⟨fl, hc, b⟩ := i.refs
  refine i.congr (incRef s p) rfl rfl ⟨fl, incRef_ppLink.symm ▸ hc, ?_⟩
  rw [incRef_ppRef ho]
  exact b.retain h

-- `page_decref` drops a reference, and frees the page with the last one.
theorem pageDecref (i : PageInv m K s (p :: own) hand) (h : pageDecref s p = some s') :
    PageInv m K s' own hand := by
  obtain ⟨fl, hc, b⟩ := i.refs
  have hpos : 0 < s.ppRef p := by
    rw [b.cntEq (b.ownManaged List.mem_cons_self), List.count_cons_self]
    omega
  have hz : ((decRef s p).pages p).ppRef = 0#16 ↔ s.ppRef p - 1 = 0 := by
    have := congrFun (decRef_ppRef hpos) p
    rw [update_self] at this
    rw [← this]
    exact BitVec.toNat_inj.symm
  have hb := b.release
  simp only [← decRef_ppRef hpos, ← hz] at hb
  simp only [Kern.pageDecref] at h
  split at h
  case isTrue hr =>
    rw [if_pos hr] at hb
    have hs := pageFree_eq_some h
    subst hs
    have hf : p ∉ fl := fun hf => (b.memFree.mp hf).right.right.left List.mem_cons_self
    refine i.congr ((decRef s p).link p) rfl rfl ⟨p :: fl, ?_, ?_⟩
    · rw [link_ppLink, decRef_ppLink]
      exact hc.push hf
    · rw [link_ppRef]
      exact hb
  case isFalse hr =>
    cases h
    rw [if_neg hr] at hb
    exact i.congr (decRef s p) rfl rfl ⟨fl, decRef_ppLink.symm ▸ hc, hb⟩

-- Counting down a page that is not managed does no harm unless it is freed.
theorem decref_unmanaged (i : PageInv m K s own hand) (h : Kern.pageDecref s p = some s')
    (hm : ¬Managed m p) (hp : (s.pages p).ppRef ≠ 1#16) : PageInv m K s' own hand := by
  have hz : ((decRef s p).pages p).ppRef ≠ 0#16 := by
    simp only [decRef, setPage_pages, update_self]
    intro hc
    exact hp (BitVec.sub_eq_iff_eq_add.mp hc)
  simp only [Kern.pageDecref, hz, if_false, Option.some.injEq] at h
  subst h
  obtain ⟨fl, hc, b⟩ := i.refs
  refine i.congr (decRef s p) rfl rfl ⟨fl, decRef_ppLink.symm ▸ hc, b.congr fun hq => ?_⟩
  have hne : _ ≠ p := fun hc => hm (hc ▸ hq)
  rw [decRef, setPage_ppRef, update_of_ne hne]

section StorePte

-- Writing an entry `w` of the page table that serves index `d` of `e`.
variable (i : PageInv m K s own hand) (h : s.tableOf e d = some pt)
include i h

theorem tableOf_managed : Managed m pt :=
  i.target_managed (r := .table e d) h

theorem kern_store_pte : KernHalf m K (s.store pt t w) := by
  have hk := (i.tableOf_managed h).ne_kernPgdir
  refine { below := i.kern.below, pgdir := ?pgdir, tables := ?tables, dirs := ?dirs }
  case pgdir =>
    rw [store_mem_of_ne hk.symm]
    exact i.kern.pgdir
  case tables =>
    intro d' pt' hd
    rw [target_store_pte i.unique h hk, update_of_ne (by simp)] at hd
    have hne : pt' ≠ pt := fun hc => by
      have := i.unique (r := .table e d) trivial h (hc ▸ hd)
      cases this
    rw [store_mem_of_ne hne]
    exact i.kern.tables hd
  case dirs =>
    intro e' pd d' hd
    have hne : pd ≠ pt := fun hc => pgdir_ne_tableOf i.unique h (hc ▸ hd)
    rw [store_mem_of_ne hne]
    exact i.kern.dirs hd

theorem store_pte {own' hand' : List Nat} (hw : present w = false → w = 0#32)
    (hn : ∀ {p r}, entryPage w = some p → r.IsTable → s.target m r ≠ some p)
    (hb : ∀ {fl}, Balanced (Managed m) (s.target m) s.ppRef fl own hand →
      Balanced (Managed m) (update (s.target m) (.pte e d t) (entryPage w)) s.ppRef fl own' hand') :
    PageInv m K (s.store pt t w) own' hand' := by
  have ht := target_store_pte (t := t) (w := w) i.unique h (i.tableOf_managed h).ne_kernPgdir
  refine { refs := ?refs, unique := ?unique, zeroPde := ?zeroPde, zeroPte := ?zeroPte,
           kern := i.kern_store_pte h }
  case refs =>
    obtain ⟨fl, hc, b⟩ := i.refs
    exact ⟨fl, hc, ht ▸ hb b⟩
  case unique =>
    intro r r' p hr h₁ h₂
    rw [ht] at h₁ h₂
    have hne : r ≠ .pte e d t := fun hc => by
      rw [hc] at hr
      exact hr
    rw [update_of_ne hne] at h₁
    by_cases hr' : r' = .pte e d t
    · rw [hr', update_self] at h₂
      exact absurd h₁ (hn h₂ hr)
    · rw [update_of_ne hr'] at h₂
      exact i.unique hr h₁ h₂
  case zeroPde =>
    intro e' pd d' hd hn
    have hne : pd ≠ pt := fun hc => pgdir_ne_tableOf i.unique h (hc ▸ hd)
    rw [tableOf_store_pte i.unique h] at hn
    rw [store_mem_of_ne hne]
    exact i.zeroPde hd hn
  case zeroPte =>
    intro e' d' t'
    rw [entry_store_pte i.unique h]
    split
    · exact hw
    · exact i.zeroPte

end StorePte

-- Mapping the page `p`, whose reference is already counted, at an empty slot.
theorem map_pte (i : PageInv m K s (p :: own) hand) (h : s.tableOf e d = some pt)
    (h0 : s.entry e d t = 0#32) (hw : entryPage w = some p)
    (hn : ∀ {r}, r.IsTable → s.target m r ≠ some p) : PageInv m K (s.store pt t w) own hand := by
  have ht : s.target m (.pte e d t) = none := by simp [State.target, h0, entryPage_zero]
  refine i.store_pte h ?_ ?_ ?_
  · simp [(entryPage_eq_some.mp hw).left]
  · intro p' r hp
    rw [hw] at hp
    cases hp
    exact hn
  · intro fl b
    rw [hw]
    exact b.store ht

-- Clearing the slot that maps `p`, without counting the reference down yet.
theorem unmap_pte (i : PageInv m K s own hand) (h : s.tableOf e d = some pt)
    (hp : s.target m (.pte e d t) = some p) : PageInv m K (s.store pt t 0#32) (p :: own) hand := by
  refine i.store_pte h (fun _ => rfl) ?_ ?_
  · intro p' r hp
    rw [entryPage_zero] at hp
    cases hp
  · intro fl b
    rw [entryPage_zero]
    exact b.clear hp

-- Writing zero to an empty slot.
theorem zero_pte (i : PageInv m K s own hand) (h : s.tableOf e d = some pt)
    (h0 : s.entry e d t = 0#32) : PageInv m K (s.store pt t 0#32) own hand := by
  refine i.store_pte h (fun _ => rfl) ?_ ?_
  · intro p' r hp
    rw [entryPage_zero] at hp
    cases hp
  · intro fl b
    have ht : s.target m (.pte e d t) = none := by simp [State.target, h0, entryPage_zero]
    rw [entryPage_zero, ← ht, update_eq_self]
    exact b

section StorePde

-- Writing the entry `w` of the page directory of `e` while the page tables involved are empty.
variable (i : PageInv m K s own hand) (h : s.pgdir e = some pd)
  (ho : ∀ t, s.entry e d t = 0#32)
  (hn : ∀ p, entryPage w = some p → p ≠ pd ∧ ∀ t : Fin NPDENTRIES, s.mem p t = 0#32)
include i h

theorem pgdir_managed : Managed m pd :=
  i.target_managed (r := .dir e) h

theorem kern_store_pde : KernHalf m K (s.store pd d w) := by
  have hk := (i.pgdir_managed h).ne_kernPgdir
  refine { below := i.kern.below, pgdir := ?pgdir, tables := ?tables, dirs := ?dirs }
  case pgdir =>
    rw [store_mem_of_ne hk.symm]
    exact i.kern.pgdir
  case tables =>
    intro d' pt' hd
    have hd' : s.target m (.ktable d') = some pt' := by
      simpa [State.target, store_mem_of_ne hk.symm] using hd
    have hne : pt' ≠ pd := fun hc => by
      have := i.unique (r := .dir e) trivial h (hc ▸ hd')
      cases this
    rw [store_mem_of_ne hne]
    exact i.kern.tables hd'
  case dirs =>
    intro e' pd' d' hd hx hl
    by_cases hp : pd' = pd
    · subst hp
      have hne : d' ≠ d := by
        have := d.isLt
        omega
      rw [store_mem_self, update_of_ne hne]
      exact i.kern.dirs hd hx hl
    · rw [store_mem_of_ne hp]
      exact i.kern.dirs hd hx hl

include ho hn

theorem store_pde {own' hand' : List Nat} (hw : present w = false → w = 0#32)
    (hr : ∀ {p r}, entryPage w = some p → s.target m r = some p → r = .table e d)
    (hb : ∀ {fl}, Balanced (Managed m) (s.target m) s.ppRef fl own hand →
      Balanced (Managed m) (update (s.target m) (.table e d) (entryPage w)) s.ppRef fl own' hand') :
    PageInv m K (s.store pd d w) own' hand' := by
  have ht := target_store_pde i.unique h ho hn (i.pgdir_managed h).ne_kernPgdir
  refine { refs := ?refs, unique := ?unique, zeroPde := ?zeroPde, zeroPte := ?zeroPte,
           kern := i.kern_store_pde h }
  case refs =>
    obtain ⟨fl, hc, b⟩ := i.refs
    exact ⟨fl, hc, ht ▸ hb b⟩
  case unique =>
    intro r r' p hr' h₁ h₂
    rw [ht] at h₁ h₂
    by_cases hr₁ : r = .table e d <;> by_cases hr₂ : r' = .table e d
    · rw [hr₁, hr₂]
    · rw [hr₁, update_self] at h₁
      rw [update_of_ne hr₂] at h₂
      exact absurd (hr h₁ h₂) hr₂
    · rw [hr₂, update_self] at h₂
      rw [update_of_ne hr₁] at h₁
      exact absurd (hr h₂ h₁) hr₁
    · rw [update_of_ne hr₁] at h₁
      rw [update_of_ne hr₂] at h₂
      exact i.unique hr' h₁ h₂
  case zeroPde =>
    intro e' pd' d' hd hn'
    rw [tableOf_store_pde i.unique h] at hn'
    by_cases hp : pd' = pd
    case neg =>
      have hne : ¬(e' = e ∧ d' = d) := by
        rintro ⟨rfl, _⟩
        exact hp (Option.some.inj (hd.symm.trans h))
      rw [if_neg hne] at hn'
      rw [store_mem_of_ne hp]
      exact i.zeroPde hd hn'
    case pos =>
      subst hp
      have he := i.unique (r := .dir e) trivial h (show s.target m (.dir e') = _ from hd)
      cases he
      rw [store_mem_self, update_apply]
      by_cases hd' : d' = d
      · rw [if_pos ⟨rfl, hd'⟩] at hn'
        rw [if_pos (by rw [hd'])]
        exact hw (entryPage_eq_none.mp hn')
      · rw [if_neg (hd' ·.right)] at hn'
        rw [if_neg (Fin.val_ne_of_ne hd')]
        exact i.zeroPde hd hn'
  case zeroPte =>
    intro e' d' t'
    rw [entry_store_pde i.unique h ho hn]
    exact i.zeroPte

end StorePde

-- A fresh page, whose first reference is already counted, becomes a page table.
theorem install_table (i : PageInv m K s (p :: own) hand) (h : s.pgdir e = some pd)
    (h0 : s.tableOf e d = none) (hz : ∀ t, s.mem p t = 0#32) (hu : ∀ r, s.target m r ≠ some p)
    (hw : entryPage w = some p) :
    PageInv m K (s.store pd d w) own hand ∧ (s.store pd d w).tableOf e d = some p ∧
      (s.store pd d w).entry = s.entry ∧
      ∀ {r}, r ≠ .table e d → (s.store pd d w).target m r = s.target m r := by
  have ho (t) : s.entry e d t = 0#32 := entry_eq_zero h0
  have hn (p') (hp : entryPage w = some p') :
      p' ≠ pd ∧ ∀ t : Fin NPDENTRIES, s.mem p' t = 0#32 := by
    rw [hw] at hp
    cases hp
    exact ⟨fun hc => hu (.dir e) (hc ▸ h), fun t => hz t⟩
  refine ⟨i.store_pde h ho hn ?_ ?_ ?_, ?_, ?_, ?_⟩
  · simp [(entryPage_eq_some.mp hw).left]
  · intro p' r hp hr
    rw [hw] at hp
    cases hp
    exact absurd hr (hu r)
  · intro fl b
    rw [hw]
    exact b.store h0
  · simp [tableOf_store_pde i.unique h, hw]
  · funext e' d' t'
    exact entry_store_pde i.unique h ho hn
  · intro r hr
    rw [target_store_pde i.unique h ho hn (i.pgdir_managed h).ne_kernPgdir, update_of_ne hr]

-- An empty page table is taken out of the page directory.
theorem remove_table (i : PageInv m K s own hand) (h : s.pgdir e = some pd)
    (ht : s.tableOf e d = some pt) (ho : ∀ t, s.entry e d t = 0#32) :
    PageInv m K (s.store pd d 0#32) (pt :: own) hand ∧
      (s.store pd d 0#32).entry = s.entry ∧
      ∀ {e' d'}, (s.store pd d 0#32).tableOf e' d' =
        if e' = e ∧ d' = d then none else s.tableOf e' d' := by
  have hn (p') (hp : entryPage 0#32 = some p') :
      p' ≠ pd ∧ ∀ t : Fin NPDENTRIES, s.mem p' t = 0#32 := by
    rw [entryPage_zero] at hp
    cases hp
  refine ⟨i.store_pde h ho hn (fun _ => rfl) ?_ ?_, ?_, ?_⟩
  · intro p' r hp
    rw [entryPage_zero] at hp
    cases hp
  · intro fl b
    rw [entryPage_zero]
    exact b.clear ht

  · funext e' d' t'
    exact entry_store_pde i.unique h ho hn
  · intro e' d'
    rw [tableOf_store_pde i.unique h, entryPage_zero]

-- A change to an environment that keeps its page directory.
theorem setEnv {v : Env} (i : PageInv m K s own hand) (h : v.envPgdir = s.pgdir e) :
    PageInv m K (s.setEnv e v) own hand :=
  i.congr (s.setEnv e v) rfl (pgdir_setEnv_self h) i.refs

theorem setEnvFreeList {l : Option EnvPtr} (i : PageInv m K s own hand) :
    PageInv m K (s.setEnvFreeList l) own hand :=
  i.congr (s.setEnvFreeList l) rfl rfl i.refs

section SetDir

-- An environment without page tables gets or loses its page directory.
variable {v : Env} (i : PageInv m K s own hand) (ho : ∀ d, s.tableOf e d = none)
  (hz : ∀ {pd}, v.envPgdir = some pd → s.mem pd = envPgdirOf (K m.kernPgdir) pd)
include i ho hz

omit ho in
theorem tableOf_dir (d : Fin UTOPX) : (s.setEnv e v).tableOf e d = none := by
  cases hv : v.envPgdir
  case none    => exact tableOf_eq_none (by rw [pgdir_setEnv, update_self, hv])
  case some pd =>
    have hne : (d : Nat) ≠ PDX UVPT := by
      have := d.isLt
      rw [UVPTX_eq]
      simp only [UTOPX, UVPTX] at *
      omega
    have hp : (s.setEnv e v).pgdir e = some pd := by rw [pgdir_setEnv, update_self, hv]
    rw [tableOf_eq hp, setEnv_mem, hz hv,
      envPgdirOf, update_of_ne hne, i.kern.below, entryPage_zero]

theorem setDir {own' hand' : List Nat}
    (hu : ∀ {p r}, v.envPgdir = some p → s.target m r = some p → r = .dir e)
    (hb : ∀ {fl}, Balanced (Managed m) (s.target m) s.ppRef fl own hand →
      Balanced (Managed m) (update (s.target m) (.dir e) v.envPgdir) s.ppRef fl own' hand') :
    PageInv m K (s.setEnv e v) own' hand' := by
  have hn := i.tableOf_dir (e := e) hz
  have ht := target_setDir (m := m) ho hn
  refine { refs := ?refs, unique := ?unique, zeroPde := ?zeroPde, zeroPte := ?zeroPte, kern := ?kern }
  case refs =>
    obtain ⟨fl, hc, b⟩ := i.refs
    exact ⟨fl, hc, ht ▸ hb b⟩
  case unique =>
    intro r r' p hr h₁ h₂
    rw [ht] at h₁ h₂
    by_cases hr₁ : r = .dir e <;> by_cases hr₂ : r' = .dir e
    · rw [hr₁, hr₂]
    · rw [hr₁, update_self] at h₁
      rw [update_of_ne hr₂] at h₂
      exact absurd (hu h₁ h₂) hr₂
    · rw [hr₂, update_self] at h₂
      rw [update_of_ne hr₁] at h₁
      exact absurd (hu h₂ h₁) hr₁
    · rw [update_of_ne hr₁] at h₁
      rw [update_of_ne hr₂] at h₂
      exact i.unique hr h₁ h₂
  case zeroPde =>
    intro e' pd d hd hnt
    rw [pgdir_setEnv] at hd
    by_cases he : e' = e
    · rw [he, update_self] at hd
      rw [setEnv_mem, hz hd, envPgdirOf, update_of_ne]
      · exact i.kern.below d
      · have := d.isLt
        rw [UVPTX_eq]
        simp only [UTOPX, UVPTX] at *
        omega
    · rw [update_of_ne he] at hd
      rw [tableOf_setDir ho hn] at hnt
      exact i.zeroPde hd hnt
  case zeroPte =>
    rw [entry_setDir ho hn]
    exact i.zeroPte
  case kern =>
    refine { below := i.kern.below, pgdir := i.kern.pgdir, tables := i.kern.tables, dirs := ?_ }
    intro e' pd d hd hx hl
    rw [pgdir_setEnv] at hd
    by_cases he : e' = e
    · rw [he, update_self] at hd
      rw [setEnv_mem, hz hd, envPgdirOf, update_apply, UVPTX_eq]
    · rw [update_of_ne he] at hd
      exact i.kern.dirs hd hx hl

end SetDir

end PageInv

end Kern

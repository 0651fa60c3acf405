import Sisop.Kern.Theorems.Ipc

-- What `page_insert` does to the page tables, the counters and the free list.

namespace Kern

open Inc Function Library State

variable {m : Machine} {K : Nat → Nat → Word} {s s' s₁ s₂ : State} {own hand : List Nat}
  {e e' : EnvPtr} {p q pd pt : Nat} {va va' perm : Word}

-- The page `q` is on the free list.
def State.Free (s : State) (q : Nat) : Prop := ∃ fl, Chain s.ppLink s.pageFreeList fl ∧ q ∈ fl

section Counters

theorem State.Free.congr (hl : s'.ppLink = s.ppLink) (hf : s'.pageFreeList = s.pageFreeList) :
    s'.Free q ↔ s.Free q := by
  rw [State.Free, State.Free, hl, hf]

theorem pageAlloc_head (h : Kern.pageAlloc s perm = (some p, s')) : s.pageFreeList = some p ∧
    s'.ppLink = update s.ppLink p none ∧ s'.pageFreeList = s.ppLink p := by
  simp only [Kern.pageAlloc] at h
  cases hp : s.pageFreeList
  case none    => simp [hp] at h
  case some p' =>
    simp only [hp, Prod.mk.injEq, Option.some.injEq] at h
    obtain ⟨hpp, hs⟩ := h
    subst hpp
    have hlink : ((s.setPageFreeList (s.pages p').ppLink).setPage p'
        { s.pages p' with ppLink := none }).ppLink = update s.ppLink p' none := setPage_ppLink
    refine ⟨rfl, ?_, ?_⟩
    · rw [← hs, ← hlink]
      split <;> rfl
    · rw [← hs]
      split <;> rfl

-- The head of the free list is not free any more.
theorem PageInv.pageAlloc_free (i : PageInv m K s own hand) (h : Kern.pageAlloc s perm = (some p, s')) :
    s'.Free q ↔ s.Free q ∧ q ≠ p := by
  obtain ⟨hf, hl, hn⟩ := pageAlloc_head h
  obtain ⟨fl, hc, _⟩ := i.refs
  have hc₀ := hc
  rw [hf] at hc
  obtain ⟨fl', hfl, hp, hc'⟩ := hc.pop (o := none)
  rw [← hl, ← hn] at hc'
  constructor
  case mp =>
    rintro ⟨l, hlc, hq⟩
    rw [hlc.deterministic hc'] at hq
    refine ⟨⟨fl, hc₀, ?_⟩, ne_of_mem_of_not_mem hq hp⟩
    rw [hfl]
    exact List.mem_cons_of_mem _ hq
  case mpr =>
    rintro ⟨⟨l, hlc, hq⟩, hne⟩
    rw [hlc.deterministic hc₀, hfl] at hq
    exact ⟨fl', hc', (List.mem_cons.mp hq).resolve_left hne⟩

-- `page_decref` drops one reference, and frees the page exactly with the last one.
theorem pageDecref_exact (h : pageDecref s p = some s') (hpos : 0 < s.ppRef p)
    (hc : ∃ fl, Chain s.ppLink s.pageFreeList fl ∧ p ∉ fl) :
    s'.ppRef = update s.ppRef p (s.ppRef p - 1) ∧
      ∀ q, s'.Free q ↔ s.Free q ∨ q = p ∧ s.ppRef p = 1 := by
  have hz : ((decRef s p).pages p).ppRef = 0#16 ↔ s.ppRef p = 1 := by
    have := congrFun (decRef_ppRef hpos) p
    rw [update_self] at this
    have hv : ((decRef s p).pages p).ppRef.toNat = s.ppRef p - 1 := this
    rw [← BitVec.toNat_inj, hv]
    exact ⟨fun hc => by have : s.ppRef p - 1 = 0 := hc; omega, fun hc => by rw [hc]; rfl⟩
  simp only [Kern.pageDecref] at h
  split at h
  case isTrue hr =>
    have hs := pageFree_eq_some h
    obtain ⟨fl, hc, hn⟩ := hc
    subst hs
    have hp := hc.push hn
    have hl : ((decRef s p).link p).ppLink = update s.ppLink p s.pageFreeList := by
      rw [link_ppLink, decRef_ppLink]
      rfl
    have hf : ((decRef s p).link p).pageFreeList = some p := rfl
    refine ⟨by rw [link_ppRef, decRef_ppRef hpos], fun q => ⟨?_, ?_⟩⟩
    · rintro ⟨l, hlc, hq⟩
      rw [hl, hf] at hlc
      rw [hlc.deterministic hp, List.mem_cons] at hq
      exact hq.elim (fun he => .inr ⟨he, hz.mp hr⟩) fun hq => .inl ⟨fl, hc, hq⟩
    · intro hq
      refine ⟨p :: fl, by rw [hl, hf]; exact hp, ?_⟩
      rcases hq with ⟨l, hlc, hq⟩ | ⟨hq, _⟩
      · rw [hlc.deterministic hc] at hq
        exact List.mem_cons_of_mem _ hq
      · exact List.mem_cons.mpr (.inl hq)
  case isFalse hr =>
    cases h
    refine ⟨decRef_ppRef hpos, fun q => ?_⟩
    rw [State.Free.congr decRef_ppLink rfl]
    exact ⟨.inl, fun hq => hq.resolve_right fun hc => hr (hz.mpr hc.right)⟩

end Counters

-- The head of the free list has become the page table `pt` of `e`.
structure NewTable (s : State) (e : EnvPtr) (d : Fin UTOPX) (pd pt : Nat) (s₁ : State) : Prop where
  empty : s.tableOf e d = none
  head  : s.pageFreeList = some pt
  ppRef : s₁.ppRef = update s.ppRef pt 1
  free  : ∀ q, s₁.Free q ↔ s.Free q ∧ q ≠ pt
  zero  : ∀ t, s₁.mem pt t = 0#32
  mem   : ∀ q j : Nat, q ≠ pt → ¬(q = pd ∧ j = d) → s₁.mem q j = s.mem q j

theorem PageInv.pgdirWalk_table (i : PageInv m K s own hand) (h : s.pgdir e = some pd) (hva : va < UTOP)
    {n : Nat} (hw : pgdirWalk m s pd va true = some (some (pt, n), s₁)) :
    s₁ = s ∨ NewTable s e (pdx va hva) pd pt s₁ := by
  cases ht : s.tableOf e (pdx va hva)
  case some pt' =>
    rw [i.tables.pgdirWalk_some h hva ht] at hw
    simp only [Option.some.injEq, Prod.mk.injEq] at hw
    exact .inl hw.right.symm
  case none =>
    have hz : PTE_ADDR (s.mem pd (PDX va)) = 0#32 :=
      (i.tables.pde_eq_zero_iff h (d := pdx va hva)).mpr ht
    simp only [Kern.pgdirWalk, hz, if_true, Bool.not_true, Bool.false_eq_true, if_false] at hw
    cases ha : Kern.pageAlloc s 1#32 with | mk o sa =>
    cases o
    case none => simp [ha] at hw
    case some p' =>
      have a := i.pageAlloc ha
      have hm : p' ∈ p' :: hand := List.mem_cons_self
      have hk : kaddr m p' (PTX va) = some (p', PTX va) := if_pos (a.inv.hand_managed hm).lt_npages
      simp only [ha, hk, bind, Option.bind_some, Option.some.injEq, Prod.mk.injEq] at hw
      obtain ⟨⟨hpt, _⟩, hs⟩ := hw
      subst hpt
      let w := page2pa p' ||| PTE_P ||| PTE_W ||| PTE_U
      have hs : (incRef sa p').store pd (pdx va hva) w = s₁ := hs
      have h0 := a.inv.hand_ppRef hm
      have hr₀ : sa.ppRef p' = 0 := congrArg BitVec.toNat h0
      have hpd : pd ≠ p' := fun hc => a.inv.hand_unref hm (.dir e) <| by
        rw [a.target]
        exact hc ▸ h
      have hstore (q j : Nat) : s₁.mem q j = if q = pd ∧ j = PDX va then w else sa.mem q j := by
        rw [← hs]
        by_cases hq : q = pd
        · subst hq
          rw [store_mem_self, update_apply]
          by_cases hj : j = pdx va hva
          · exact (if_pos hj).trans (if_pos ⟨rfl, hj⟩).symm
          · exact (if_neg hj).trans (if_neg fun hc => hj hc.right).symm
        · rw [store_mem_of_ne hq, if_neg fun hc => hq hc.left]
          rfl
      refine .inr ⟨ht, ?_, ?_, ?_, ?_, ?_⟩
      · exact (pageAlloc_head ha).left
      · have : s₁.ppRef = (incRef sa p').ppRef := by rw [← hs]; rfl
        rw [this, incRef_ppRef (by rw [h0]; decide), hr₀, a.ppRef]
      · intro q
        rw [← i.pageAlloc_free ha, ← hs]
        exact State.Free.congr incRef_ppLink rfl
      · intro t
        rw [hstore, if_neg fun hc => hpd hc.left.symm, a.zero (by decide)]
      · intro q j hq hd
        exact (hstore q j).trans ((if_neg hd).trans (congrFun (a.mem hq) j))

section Translation

-- The page table entry for `va`, or zero where there is no page table.
def State.xlat (s : State) (e : EnvPtr) (va : Word) : Word := (s.lookup e va).getD 0#32

theorem xlat_eq (hva : va < UTOP) : s.xlat e va = s.entry e (pdx va hva) (ptx va) := by
  rw [State.xlat, lookup_eq hva]
  cases ht : s.tableOf e (pdx va hva)
  case none    => rw [entry_eq_zero ht]; rfl
  case some pt => rw [entry_eq ht]; rfl

-- Above `UTOP`, page tables are those of `kern_pgdir`, and the page directory itself at `UVPT`.
theorem PageInv.lookup_kern (i : PageInv m K s own hand) (h : s.pgdir e = some pd)
    (hva : ¬va < UTOP) : (PDX va = UVPTX ∧ s.lookup e va = some (s.mem pd (PTX va))) ∨
      (PDX va ≠ UVPTX ∧ s.mem pd (PDX va) = K m.kernPgdir (PDX va) ∧
        s.lookup e va = (entryPage (K m.kernPgdir (PDX va))).map fun pt => K pt (PTX va)) := by
  have hd := i.kern.dirs h (UTOPX_le_PDX hva) PDX_lt
  have hl : s.lookup e va = (entryPage (s.mem pd (PDX va))).map fun pt => s.mem pt (PTX va) := by
    simp [State.lookup, h]
  by_cases hx : PDX va = UVPTX
  · refine .inl ⟨hx, ?_⟩
    have hu : PGNUM PTE_U = 0 := by decide
    rw [if_pos hx, BitVec.or_assoc, BitVec.or_comm PTE_P, ← BitVec.or_assoc] at hd
    rw [hl, hd, entryPage_mk (i.pgdir_managed h).lt hu]
    rfl
  · rw [if_neg hx] at hd
    refine .inr ⟨hx, hd, ?_⟩
    rw [hl, hd]
    cases ht : entryPage (K m.kernPgdir (PDX va))
    case none => rfl
    case some pt =>
      have htgt : s.target m (.ktable ⟨PDX va, PDX_lt⟩) = some pt := by
        have hu := UTOPX_le_PDX hva
        simp only [State.target, i.kern.pgdir]
        rw [if_pos ⟨hu, hx⟩, ht]
      rw [Option.map_some, Option.map_some, i.kern.tables htgt]

end Translation

section Insert

-- The outcome of a `page_insert` of `p` for `e` at `va`. The address at `UVPT` where the page directory
-- entry for `va` is seen as a page table entry is left out: there, a new page table appears.
structure Inserted (m : Machine) (s : State) (e : EnvPtr) (p : Nat) (va perm : Word) (s' : State) : Prop where
  here   : s'.xlat e va = page2pa p ||| perm ||| PTE_P ∧ s'.pageAt e va = some p
  others : ∀ e' va', ¬(e' = e ∧ PGNUM va' = PGNUM va) →
    ¬(e' = e ∧ PDX va' = UVPTX ∧ PTX va' = PDX va) → s'.xlat e' va' = s.xlat e' va'
  kern   : s'.mem m.kernPgdir = s.mem m.kernPgdir ∧
    ∀ d q, s.target m (.ktable d) = some q → s'.mem q = s.mem q
  ref    : s'.ppRef p = s.ppRef p + if s.pageAt e va = some p then 0 else 1
  lost   : ∀ q, q ≠ p → s.pageAt e va = some q →
    s'.ppRef q = s.ppRef q - 1 ∧ (s'.Free q ↔ s.ppRef q = 1)
  table  : ∃ l : List Nat, l.length ≤ 1 ∧ (∀ q ∈ l, s.pageFreeList = some q ∧ ¬s'.Free q ∧
      s'.ppRef q = 1 ∧ (s'.lookup e va).isSome ∧ s.lookup e va = none ∧
      ∀ t, t ≠ PTX va → s'.mem q t = 0#32) ∧
    ∀ q, q ∉ l → q ≠ p → s.pageAt e va ≠ some q →
      s'.ppRef q = s.ppRef q ∧ (s'.Free q ↔ s.Free q)

variable (i : PageInv m K s own hand) (h : s.pgdir e = some pd) (hva : va < UTOP)
include i h hva

theorem PageInv.pageInsert_steps (hr : Kern.pageInsert m s pd p va perm = some (0#32, s')) :
    ∃ pt s₁ s₂, Walked m K own hand e (pdx va hva) pt s s₁ ∧
      (s₁ = s ∨ NewTable s e (pdx va hva) pd pt s₁) ∧
      (if present (s₁.entry e (pdx va hva) (ptx va)) then
        Kern.pageRemove m (incRef s₁ p) pd va else some (incRef s₁ p)) = some s₂ ∧
      s' = s₂.store pt (ptx va) (page2pa p ||| perm ||| PTE_P) := by
  simp only [Kern.pageInsert, Option.bind_eq_bind, Option.bind_eq_some_iff, Prod.exists] at hr
  obtain ⟨slot, s₁, hw, hx⟩ := hr
  rcases i.pgdirWalk_create h hva hw with ⟨hs, _⟩ | ⟨pt, hs, w⟩
  · have he : ¬err E_NO_MEM = 0#32 := by decide
    simp [hs, he] at hx
  · have hpte : (incRef s₁ p).pte (pt, PTX va) = s₁.entry e (pdx va hva) (ptx va) :=
      (entry_eq (t := ptx va) w.tableOf).symm
    have ht := i.pgdirWalk_table h hva (hs ▸ hw)
    simp only [hs, hpte] at hx
    split at hx
    all_goals
      rename_i hp
      obtain ⟨s₂, hs₂, h₂⟩ := Option.bind_eq_some_iff.mp hx
      simp only [Option.some.injEq, Prod.mk.injEq, true_and] at h₂
      exact ⟨pt, s₁, s₂, w, ht, by simpa [hp] using hs₂, h₂.symm⟩

-- The counters and the free list: `p` is counted up before the page that it replaces is counted down.
theorem PageInv.pageInsert_counts {s₂ : State} (w : Walked m K own hand e (pdx va hva) pt s s₁)
    (hn : s₁ = s ∨ NewTable s e (pdx va hva) pd pt s₁) (ho : (s₁.pages p).ppRef ≠ 0xFFFF#16)
    (hs₂ : (if present (s₁.entry e (pdx va hva) (ptx va)) then
      Kern.pageRemove m (incRef s₁ p) pd va else some (incRef s₁ p)) = some s₂) :
    (s.pageAt e va = none ∧ s₂.ppRef = update s₁.ppRef p (s₁.ppRef p + 1) ∧
      ∀ q, s₂.Free q ↔ s₁.Free q) ∨
    ∃ q, s₁ = s ∧ s.pageAt e va = some q ∧ ¬s.Free q ∧
      s₂.ppRef = update (update s.ppRef p (s.ppRef p + 1)) q
        (update s.ppRef p (s.ppRef p + 1) q - 1) ∧
      ∀ r, s₂.Free r ↔ s.Free r ∨ r = q ∧ update s.ppRef p (s.ppRef p + 1) q = 1 := by
  have hpage : s.pageAt e va = entryPage (s₁.entry e (pdx va hva) (ptx va)) := by
    rw [State.pageAt, lookup_bind (m := m) hva, w.entry]
    rfl
  split at hs₂
  case isFalse hpr =>
    cases hs₂
    refine .inl ⟨?_, incRef_ppRef ho, fun q => State.Free.congr incRef_ppLink rfl⟩
    rw [hpage, entryPage_eq_none]
    simpa using hpr
  case isTrue hpr =>
    have hs : s₁ = s := by
      refine hn.resolve_right fun hn => ?_
      rw [w.entry, entry_eq_zero hn.empty] at hpr
      revert hpr
      decide
    subst hs
    have htgt : s₁.target m (.pte e (pdx va hva) (ptx va)) =
        some (PGNUM (s₁.entry e (pdx va hva) (ptx va))) := entryPage_eq_some.mpr ⟨hpr, rfl⟩
    have hmq := i.target_managed htgt
    have hp : (incRef s₁ p).pgdir e = some pd := h
    have i₁ : Tables m (incRef s₁ p) := i.tables.congr SameSpace.incRef
    have hlook : pa2page m (PTE_ADDR ((incRef s₁ p).entry e (pdx va hva) (ptx va))) =
        some (PGNUM (s₁.entry e (pdx va hva) (ptx va))) := by
      have he : (incRef s₁ p).entry e (pdx va hva) (ptx va) = s₁.entry e (pdx va hva) (ptx va) := rfl
      simp [pa2page, PGNUM_PTE_ADDR, he, hmq.lt_npages]
    rw [i₁.pageRemove_some hp hva w.tableOf, hlook, Option.bind_some] at hs₂
    generalize PGNUM (s₁.entry e (pdx va hva) (ptx va)) = q at htgt hmq hs₂
    obtain ⟨fl, hc, b⟩ := i.refs
    have hq : 0 < s₁.ppRef q := b.cnt_pos htgt
    have hqf : q ∉ fl := fun hf => by
      have h0 := (b.memFree.mp hf).right.left
      have := count_pos htgt
      omega
    have hrx : ((incRef s₁ p).store pt (ptx va) 0#32).ppRef = update s₁.ppRef p (s₁.ppRef p + 1) :=
      incRef_ppRef ho
    have hcx : ∃ fl, Chain ((incRef s₁ p).store pt (ptx va) 0#32).ppLink
        ((incRef s₁ p).store pt (ptx va) 0#32).pageFreeList fl ∧ q ∉ fl := by
      refine ⟨fl, ?_, hqf⟩
      have hl : ((incRef s₁ p).store pt (ptx va) 0#32).ppLink = s₁.ppLink := incRef_ppLink
      rw [hl]
      exact hc
    have hpos : 0 < ((incRef s₁ p).store pt (ptx va) 0#32).ppRef q := by
      rw [hrx, update_apply]
      split <;> omega
    obtain ⟨hr₂, hf₂⟩ := pageDecref_exact hs₂ hpos hcx
    rw [hrx] at hr₂ hf₂
    refine .inr ⟨q, rfl, ?_, ?_, hr₂, fun r => ?_⟩
    · rw [hpage]
      exact htgt
    · rintro ⟨l, hl, hm⟩
      exact hqf (hl.deterministic hc ▸ hm)
    · rw [hf₂]
      refine or_congr_left ?_
      exact State.Free.congr incRef_ppLink rfl

-- The entry is written, and apart from it only a new page table changes memory.
omit i in
theorem PageInv.pageInsert_mem {s₂ : State} {w : Word} (k : Walked m K own hand e (pdx va hva) pt s s₁)
    (hs₂ : (if present (s₁.entry e (pdx va hva) (ptx va)) then
      Kern.pageRemove m (incRef s₁ p) pd va else some (incRef s₁ p)) = some s₂) :
    SameSpace (s₁.store pt (ptx va) w) (s₂.store pt (ptx va) w) := by
  split at hs₂
  case isFalse =>
    cases hs₂
    exact SameSpace.incRef.store
  case isTrue =>
    have hp : (incRef s₁ p).pgdir e = some pd := by
      simpa [State.pgdir, incRef, k.envs] using h
    have ht : (incRef s₁ p).tableOf e (pdx va hva) = some pt := k.tableOf
    have i₁ : Tables m (incRef s₁ p) := k.inv.tables.congr SameSpace.incRef
    rw [i₁.pageRemove_some hp hva ht, Option.bind_eq_some_iff] at hs₂
    obtain ⟨_, _, hd⟩ := hs₂
    exact (SameSpace.store_store.trans SameSpace.incRef.store.store).trans (SameSpace.pageDecref hd).store

-- What an address above `UTOP` is translated to stays the same, except at `UVPT`.
theorem PageInv.xlat_above {w : Word} (k : Walked m K own hand e (pdx va hva) pt s s₁)
    (hn : s₁ = s ∨ NewTable s e (pdx va hva) pd pt s₁)
    (hs : SameSpace (s₁.store pt (ptx va) w) s') (hva' : ¬va' < UTOP)
    (hx : ¬(e' = e ∧ PDX va' = UVPTX ∧ PTX va' = PDX va)) : s'.xlat e' va' = s.xlat e' va' := by
  have hpg : s'.pgdir e' = s.pgdir e' := by
    have h₁ := congrFun hs.pgdir e'
    rw [h₁]
    simp [State.pgdir, k.envs]
  have hpg₁ : s₁.pgdir e' = s.pgdir e' := by simp [State.pgdir, k.envs]
  rw [State.xlat, State.xlat]
  cases hpd : s.pgdir e'
  case none =>
    simp [State.lookup, hpg, hpd]
  case some pd' =>
    have hne : pd' ≠ pt := fun hc => pgdir_ne_tableOf k.inv.unique k.tableOf (hc ▸ hpg₁.trans hpd)
    have hmem {q : Nat} (hq : q ≠ pt) : s'.mem q = s₁.mem q := by
      rw [hs.mem, store_mem_of_ne hq]
    have hl : s'.lookup e' va' =
        (entryPage (s₁.mem pd' (PDX va'))).map fun pt => s'.mem pt (PTX va') := by
      simp [State.lookup, hpg, hpd, hmem hne]
    rcases k.inv.lookup_kern (hpg₁.trans hpd) hva' with ⟨hu, hl₁⟩ | ⟨hu, hk, hl₁⟩
    case inl =>
      have hl₀ : s.lookup e' va' = some (s.mem pd' (PTX va')) := by
        rcases i.lookup_kern hpd hva' with ⟨_, hl₀⟩ | ⟨hc, _⟩
        · exact hl₀
        · exact absurd hu hc
      have hself : entryPage (s₁.mem pd' (PDX va')) = some pd' := by
        have hd := k.inv.kern.dirs (hpg₁.trans hpd) (UTOPX_le_PDX hva') PDX_lt
        have hp : PGNUM PTE_U = 0 := by decide
        rw [if_pos hu, BitVec.or_assoc, BitVec.or_comm PTE_P, ← BitVec.or_assoc] at hd
        rw [hd]
        exact entryPage_mk (i.pgdir_managed hpd).lt hp
      rw [hl, hself, hl₀, Option.map_some, hmem hne]
      rcases hn with hn | hn
      · rw [hn]
      · rw [hn.mem _ _ hne]
        rintro ⟨hp, ht⟩
        refine hx ⟨?_, hu, ht⟩
        have hr : Ref.dir e' = .dir e := i.unique (m := m) (p := pd) trivial h (hp ▸ hpd)
        cases hr
        rfl
    case inr =>
      have hl₀ : s.lookup e' va' =
          (entryPage (K m.kernPgdir (PDX va'))).map fun pt => K pt (PTX va') := by
        rcases i.lookup_kern hpd hva' with ⟨hc, _⟩ | ⟨_, _, hl₀⟩
        · exact absurd hc hu
        · exact hl₀
      rw [hl, hl₀, hk]
      cases ht : entryPage (K m.kernPgdir (PDX va'))
      case none => rfl
      case some q =>
        have htgt : s₁.target m (.ktable ⟨PDX va', PDX_lt⟩) = some q := by
          simp only [State.target, k.inv.kern.pgdir]
          rw [if_pos ⟨UTOPX_le_PDX hva', hu⟩, ht]
        have hq : q ≠ pt := fun hc => by
          have hr : Ref.ktable ⟨PDX va', PDX_lt⟩ = .table e (pdx va hva) :=
            k.inv.unique (m := m) (p := pt) trivial k.tableOf (hc ▸ htgt)
          cases hr
        rw [Option.map_some, Option.map_some, hmem hq, k.inv.kern.tables htgt]

-- `kern_pgdir` and its page tables are not written.
omit h in
theorem PageInv.kern_kept {w : Word} (k : Walked m K own hand e (pdx va hva) pt s s₁)
    (hs : SameSpace (s₁.store pt (ptx va) w) s') : s'.mem m.kernPgdir = s.mem m.kernPgdir ∧
      ∀ d q, s.target m (.ktable d) = some q → s'.mem q = s.mem q := by
  have hmem {q : Nat} (hq : q ≠ pt) : s'.mem q = s₁.mem q := by
    rw [hs.mem, store_mem_of_ne hq]
  constructor
  case left =>
    have hk : m.kernPgdir ≠ pt := (k.inv.target_managed (r := .table e (pdx va hva)) k.tableOf).ne_kernPgdir.symm
    rw [hmem hk, k.inv.kern.pgdir, i.kern.pgdir]
  case right =>
    intro d q hd
    have hd₁ : s₁.target m (.ktable d) = some q := (k.target (by simp)).trans hd
    have hq : q ≠ pt := fun hc => by
      have hr : Ref.ktable d = .table e (pdx va hva) :=
        k.inv.unique (m := m) (p := pt) trivial k.tableOf (hc ▸ hd₁)
      cases hr
    rw [hmem hq, k.inv.kern.tables hd₁, i.kern.tables hd]

end Insert

namespace Sample

-- The file server has its page directory, and nothing else yet.
def bare : State := (envSetupVm machine boot fs).2

theorem bare_spec : ∃ pd, PageInv machine boot.mem bare [] [] ∧ bare.pgdir fs = some pd := by
  rcases boot_boot.kernInv.page.envSetupVm (e := fs) rfl rfl with ⟨hr, _⟩ | ⟨pd, _, i, _, _, hv⟩
  · exact absurd hr (by decide +kernel)
  · refine ⟨pd, i, ?_⟩
    change (bare.envs fs).envPgdir = some pd
    have hv : bare.envs = _ := hv
    rw [hv, update_self]

theorem bare_ppRef : bare.ppRef q < 0xFFFF := by
  have hb : boot.ppRef q ≤ 1 := by
    change (if 32768 ≤ q + 68 ∧ q < 32768 then (⟨none, 1#16⟩ : PageInfo) else page q).ppRef.toNat ≤ 1
    rw [page]
    split_ifs <;> simp
  cases ha : Kern.pageAlloc boot 1#32 with | mk o s₁ =>
  have hs : bare = (envSetupVm machine boot fs).2 := rfl
  rw [envSetupVm, ha] at hs
  cases o
  case none =>
    rw [(pageAlloc_eq_none ha).left] at hs
    rw [hs]
    exact Nat.lt_of_le_of_lt hb (by decide)
  case some p =>
    have hr : bare.ppRef = (incRef s₁ p).ppRef := by rw [hs]; rfl
    have hp := congrFun (boot_boot.kernInv.page.pageAlloc ha).ppRef q
    have ho : (s₁.pages p).ppRef ≠ 0xFFFF#16 := by
      have h0 := (boot_boot.kernInv.page.pageAlloc ha).inv.hand_ppRef List.mem_cons_self
      rw [h0]
      decide
    rw [hr, incRef_ppRef ho, update_apply]
    have h0 : s₁.ppRef p = 0 := congrArg BitVec.toNat <|
      (boot_boot.kernInv.page.pageAlloc ha).inv.hand_ppRef List.mem_cons_self
    split <;> omega

end Sample

end Kern

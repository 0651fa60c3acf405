import Sisop.Fs.Theorems.Ownership

namespace Fs

open Inc Library

-- Everything of a `struct File` past its name is zero.
def BlankSlot (m : Memory) (s : Nat) : Prop := ∀ x, fSize s ≤ x → x < fIndirect s + 4 → m x = 0#8

-- The slot that `file_create` takes has no old data, and where it has to enlarge the directory it gets
-- a block for it, which is filled with zeros.
def CreateFresh (m : Memory) (path : List (BitVec 8)) : Prop :=
  DirsFull m ∧ ∀ d name, Parent m sRoot (pathElems path) d name →
    (∀ s, FirstEmpty m d s → BlankSlot m s) ∧
    (Packed m d → nblock m d < INDIRECT ∧ Room m d (nblock m d)) ∧ GrowClean m d

-- The directory and the name of the file that is to be created.
def lastOf (m : Memory) (path : List (BitVec 8)) : Option (Nat × List (BitVec 8)) :=
  match walkPath sRoot (pathElems path) m with
  | .ok (.missing d name) _ => some (d, name)
  | _                       => none

-- The directory `d` gains the name of the new file `f`.
structure Gains (m m' : Memory) (d : Nat) (name : List (BitVec 8)) (f : Nat) : Prop where
  dirs    : ∀ g, Reach m' g ∧ isDir m' g ↔ Reach m g ∧ isDir m g
  entries : ∀ {g nm e}, Reach m g → isDir m g → Name nm →
    (Entry m' g nm e ↔ Entry m g nm e ∨ g = d ∧ nm = name ∧ e = f)
  others  : ∀ g, Reach m g → g ≠ d → Memory.AgreeOn g sizeofFile m m'
  size    : m'.load32 (fSize f) = 0#32
  type    : m'.load32 (fType f) = FTYPE_REG
  ptrs    : ∀ k ≤ INDIRECT, ptr m' f k = 0#32

-- What the result of a creation says.
def CreateOk (m : Memory) (path : List (BitVec 8)) : Outcome Memory Nat Nat → Prop
  | .panic      => True
  | .error _ m' => m' = m
  | .ok f m'    => ∃ d name, lastOf m path = some (d, name) ∧ Gains m m' d name f

-- `dir_lookup` finds the name.
def Found (m : Memory) (d : Nat) (name : List (BitVec 8)) : Prop :=
  ∃ f, dirLookup d name m = .ok f m

def Listed (m : Memory) (d : Nat) (name : List (BitVec 8)) : Prop :=
  (m.load32 (fSize d)).srem 4096#32 = 0#32 ∧ ∃ f, Entry m d name f

variable {m m' m₁ : Memory} {S : Set Nat} {f d g k j x : Nat} {name nm path : List (BitVec 8)}
  {v : Word}

section Search

variable (o : Owned m S) (hd : d ∈ S) (hfull : Full m d) (hn : Name name)

include o hd hfull

theorem found_iff : Found m d name ↔ Listed m d name := by
  constructor
  case mp =>
    rintro ⟨f, hf⟩
    refine ⟨?_, f, ((dirLookup_wp o hd hfull).ok hf).2⟩
    have hs : (dirLookup d name).wp True (fun _ _ => True)
        (fun _ _ => (m.load32 (fSize d)).srem 4096#32 = 0#32) m := by
      rw [dirLookup, Prog.wp_bind]
      refine dirBlocks_wp.mono id (fun _ _ _ => trivial) ?_
      rintro c m' ⟨rfl, -, hs⟩
      exact Prog.wp_of_forall (fun _ _ => trivial) fun _ _ => hs
    exact hs.ok hf
  case mpr =>
    rintro ⟨hs, f, k, j, hk, hj, rfl, he⟩
    have hw : (dirLookup d name).wp False (fun _ _ => False) (fun _ m' => m' = m) m := by
      rw [dirLookup, Prog.wp_bind, dirBlocks, Prog.wp_bind, Prog.wp_get, Prog.wp_ite]
      refine ⟨fun hc => hc hs, fun _ => ?_⟩
      rw [Prog.wp_pure, List.range_eq_range', Prog.wp_bind]
      refine (dirScan_wp o hd fun k _ h => hfull k (by rw [nblock]; omega)).mono id ?_ ?_
      · rintro e m₁ ⟨-, -, -, h⟩
        exact h k (Nat.zero_le _) hk.2.1 j hj he
      · rintro r m₁ ⟨rfl, -, h⟩
        cases r
        case some => rfl
        case none =>
          have hlt := hk.1
          rw [nblock] at hlt
          exact (h rfl k (Nat.zero_le _) (by omega)).2 j hj he
    obtain ⟨f, m', hx, rfl⟩ := hw.exists_ok
    exact ⟨f, hx⟩

end Search

-- The names of a directory that has not changed.
theorem strEq_name (hn : Name nm) (h : ∀ x, g ≤ x → x < g + MAXNAMELEN → m' x = m x) :
    m'.strEq g nm = m.strEq g nm :=
  Memory.strEq_congr fun x h₁ h₂ => h x h₁ (lt_of_lt_of_le h₂ (Nat.add_le_add_left hn.2.2 g))

theorem SameDir.entries (h : SameDir m m' g) (hn : Name nm) : Entry m' g nm f ↔ Entry m g nm f := by
  constructor
  case mp =>
    rintro ⟨k, j, hk, hj, rfl, he⟩
    have hk := h.holds.mp hk
    rw [h.slot hk.2.1] at he ⊢
    rw [strEq_name hn fun x => h.name hk hj] at he
    exact ⟨k, j, hk, hj, rfl, he⟩
  case mpr =>
    rintro ⟨k, j, hk, hj, rfl, he⟩
    refine ⟨k, j, h.holds.mpr hk, hj, (h.slot hk.2.1).symm, ?_⟩
    rw [strEq_name hn fun x => h.name hk hj]
    exact he

section Grown

variable (r : GrownDir m d m') (hd : Reach m d) (hg : Reach m g)

include r hd hg

theorem GrownDir.entries (hn : Name nm) : Entry m' g nm f ↔ Entry m g nm f := by
  by_cases hgd : g = d
  case neg => exact (r.sameDir hd hg hgd).entries hn
  subst hgd
  constructor
  case mp =>
    rintro ⟨k, j, hk, hj, rfl, he⟩
    by_cases hkn : k = nblock m g
    · subst hkn
      refine absurd ?_ (ne_zero_of_strEq hn.1 hn.2.1 he)
      exact r.fresh hk.2.1 hk.2.2 _ (name_inBlock hj le_rfl (Nat.lt_add_of_pos_right (by decide)))
    · have hlt : k < nblock m g := by
        have := hk.1
        rw [r.size] at this
        omega
      have hp := r.old k hlt hk.2.1
      rw [slot_congr hp] at he ⊢
      rw [strEq_name hn fun x => r.name_eq hd hg hk.2.1 hk.2.2 hp hj] at he
      refine ⟨k, j, ⟨hlt, hk.2.1, ?_⟩, hj, rfl, he⟩
      rw [← hp]
      exact hk.2.2
  case mpr =>
    rintro ⟨k, j, hk, hj, rfl, he⟩
    have hk' := r.holds_old hk
    have hp := r.old k hk.1 hk.2.1
    refine ⟨k, j, hk', hj, (slot_congr hp).symm, ?_⟩
    rw [strEq_name hn fun x => r.name_eq hd hg hk.2.1 hk'.2.2 hp hj]
    exact he

omit hg in
theorem GrownDir.full (hg : Reach m g) (hfull : Full m g)
    (hk : nblock m d < INDIRECT → ptr m' d (nblock m d) ≠ 0#32) : Full m' g := by
  intro k hk₁ hk₂
  by_cases hgd : g = d
  · subst hgd
    rw [r.size] at hk₁
    by_cases hkn : k = nblock m g
    · exact hkn ▸ hk (hkn ▸ hk₂)
    · have hlt : k < nblock m g := by omega
      rw [r.old k hlt hk₂]
      exact hfull k hlt hk₂
  · rw [(r.sameDir hd hg hgd).size] at hk₁
    rw [r.ptrs g hg hgd k hk₂.le]
    exact hfull k hk₁ hk₂

omit hg in
theorem GrownDir.other (hg : Reach m g) (hgd : g ≠ d) : Memory.AgreeOn g sizeofFile m m' :=
  fun _ h₁ h₂ => r.bytes _ (meta_not_node r.owned hd hg hgd h₁ h₂)

end Grown

section Named

variable (e : EmptySlot m d k j) (hn : Name name)

include e hn

omit hn in
-- The slot belongs to one directory.
theorem eq_of_slot_eq {l i : Nat} (hg : Reach m g) (hl : Holds m g l) (hi : i < BLKFILES)
    (h : slot m g l i = slot m d k j) : g = d := by
  have hb := nodeBlock_slot (m := m) (d := g) (k := l) hi
  rw [h, nodeBlock_slot e.lt] at hb
  exact (e.inv.unique hg e.dir hl.2.1.le e.holds.2.1.le hl.2.2 (BitVec.eq_of_toNat_eq hb.symm)).1

theorem strcpy_entries (hg : Reach m g) (hnm : Name nm) :
    Entry (m.strcpy (slot m d k j) name) g nm f ↔
      Entry m g nm f ∨ g = d ∧ nm = name ∧ f = slot m d k j := by
  have hslot {l i : Nat} (hl : l < INDIRECT) :
      slot (m.strcpy (slot m d k j) name) g l i = slot m g l i :=
    slot_congr (strcpy_ptr e hn hg hl.le)
  have hself : (m.strcpy (slot m d k j) name).strEq (slot m d k j) nm ↔ nm = name :=
    Memory.strEq_strcpy hn.2.1 hnm.2.1
  constructor
  case mp =>
    rintro ⟨l, i, hl, hi, rfl, he⟩
    have hl := (strcpy_holds e hn hg).mp hl
    rw [hslot hl.2.1] at he ⊢
    by_cases hs : slot m g l i = slot m d k j
    · rw [hs] at he
      exact .inr ⟨eq_of_slot_eq e hg hl hi hs, hself.mp he, hs⟩
    · rw [strEq_name hnm fun x => strcpy_name hn hs] at he
      exact .inl ⟨l, i, hl, hi, rfl, he⟩
  case mpr =>
    rintro (⟨l, i, hl, hi, rfl, he⟩ | ⟨rfl, rfl, rfl⟩)
    · have hs : slot m g l i ≠ slot m d k j := fun hs => by
        rw [hs] at he
        exact ne_zero_of_strEq hnm.1 hnm.2.1 he e.empty
      refine ⟨l, i, (strcpy_holds e hn hg).mpr hl, hi, (hslot hl.2.1).symm, ?_⟩
      rw [strEq_name hnm fun x => strcpy_name hn hs]
      exact he
    · exact ⟨k, j, (strcpy_holds e hn hg).mpr e.holds, e.lt, (hslot e.holds.2.1).symm,
        hself.mpr rfl⟩

end Named

theorem BlankSlot.noPtrs (h : BlankSlot m f) : NoPtrs m f := by
  intro x h₁ h₂
  refine h x ?_ h₂
  simp only [fDirect, fSize] at *
  omega

theorem BlankSlot.of_zeroBlock (hz : ZeroBlock m (ptr m d k).toNat) (hj : j < BLKFILES) :
    BlankSlot m (slot m d k j) := by
  intro x h₁ h₂
  have := slot_mem (m := m) (d := d) (k := k) hj
  refine hz x ?_
  simp only [InBlock, fSize, fIndirect, sizeofFile] at *
  omega

namespace Created

variable (c : Created m d name f m₁ m' k j)

include c

theorem blank (hf : ∀ s, FirstEmpty m d s → BlankSlot m s) : BlankSlot m' f := by
  have h₁ : BlankSlot m₁ f := by
    rcases c.old with ⟨rfl, he⟩ | ⟨-, -, rfl, rfl, hz⟩
    · exact hf f he
    · rw [c.eq]
      exact .of_zeroBlock hz c.empty.lt
  intro x hx₁ hx₂
  rw [c.result, c.eq, strcpy_eq c.isName, h₁ x hx₁ hx₂]
  rw [c.eq] at hx₁
  simp only [fSize, MAXNAMELEN] at *
  omega

theorem gains (hf : ∀ s, FirstEmpty m d s → BlankSlot m s) : Gains m m' d name f := by
  have hb := c.blank hf
  have hnp := c.noPtrs fun s hs => (hf s hs).noPtrs
  have hword {a : Nat} (h₁ : fSize f ≤ a) (h₂ : a + 4 ≤ fIndirect f + 4) : m'.load32 a = 0#32 :=
    load32_eq_zero fun x hx₁ hx₂ => hb x (by omega) (by omega)
  have hreg : m'.load32 (fType f) = FTYPE_REG := by
    refine hword ?_ ?_ <;> simp only [fSize, fType, fIndirect] <;> omega
  have hdir {g : Nat} (hg : Reach m g) : isDir m' g ↔ isDir m g := by
    rw [c.result, c.eq, strcpy_isDir c.empty c.isName ((c.before.2 g).mpr hg)]
    rcases c.old with ⟨rfl, -⟩ | ⟨-, r, -⟩
    · exact Iff.rfl
    · exact r.isDir_iff c.dir hg
  constructor
  case dirs =>
    intro g
    rw [c.reach_iff hnp]
    constructor
    case mp =>
      rintro ⟨hg | rfl, hd⟩
      · exact ⟨hg, (hdir hg).mp hd⟩
      · rw [isDir, hreg] at hd
        cases hd
    case mpr => exact fun h => ⟨.inl h.1, (hdir h.1).mpr h.2⟩
  case entries =>
    intro g nm e hg _ hnm
    have hs := strcpy_entries (f := e) c.empty c.isName ((c.before.2 g).mpr hg) hnm
    rw [← c.eq, ← c.result] at hs
    rw [hs]
    rcases c.old with ⟨rfl, -⟩ | ⟨-, r, -⟩
    · exact Iff.rfl
    · rw [r.entries c.dir hg hnm]
  case others =>
    intro g hg hgd x h₁ h₂
    rw [c.result, c.eq, strcpy_node c.empty c.isName ((c.before.2 g).mpr hg) h₁ h₂]
    rcases c.old with ⟨rfl, -⟩ | ⟨-, r, -⟩
    · rfl
    · exact r.other c.dir hg hgd x h₁ h₂
  case size =>
    refine hword le_rfl ?_
    simp only [fSize, fIndirect]
    omega
  case type => exact hreg
  case ptrs => exact fun k hk => hb.noPtrs.ptr_eq hk

theorem dirsFull (hf : ∀ s, FirstEmpty m d s → BlankSlot m s) (h : DirsFull m) : DirsFull m' := by
  intro g hg hdir
  have hg := ((c.gains hf).dirs g).mp ⟨hg, hdir⟩
  have hfull : Full m₁ g := by
    rcases c.old with ⟨rfl, -⟩ | ⟨-, r, rfl, -⟩
    · exact h g hg.1 hg.2
    · exact r.full c.dir hg.1 (h g hg.1 hg.2) fun _ => c.empty.holds.2.2
  have hg₁ := (c.before.2 g).mpr hg.1
  have he := strcpy_nblock c.empty c.isName hg₁
  intro k hk₁ hk₂
  rw [c.result, c.eq] at hk₁ ⊢
  rw [he] at hk₁
  rw [strcpy_ptr c.empty c.isName hg₁ hk₂.le]
  exact hfull k hk₁ hk₂

-- The size of a directory is still a multiple of `BLKSIZE` where it was.
theorem srem (hs : (m.load32 (fSize d)).srem 4096#32 = 0#32) (hg : Reach m g) :
    (m'.load32 (fSize g)).srem 4096#32 = 0#32 ↔ (m.load32 (fSize g)).srem 4096#32 = 0#32 := by
  rw [c.result, c.eq, strcpy_size c.empty c.isName ((c.before.2 g).mpr hg)]
  rcases c.old with ⟨rfl, -⟩ | ⟨-, r, rfl, -⟩
  · exact Iff.rfl
  · by_cases hgd : g = d
    · subst hgd
      rw [r.word]
      exact iff_of_true (srem_grow hs c.empty.holds.2.1.le) hs
    · rw [r.field c.dir hg ?_ (.inl hgd)]
      simp only [fSize, sizeofFile]
      omega

end Created

theorem CreateFresh.clean (h : CreateFresh m path) : CreateClean m path :=
  ⟨h.1, fun d name hp => ⟨fun s hs => ((h.2 d name hp).1 s hs).noPtrs, (h.2 d name hp).2.2⟩⟩

theorem createIn_srem : (createIn d name).wp True (fun _ _ => True)
    (fun _ _ => (m.load32 (fSize d)).srem 4096#32 = 0#32) m := by
  rw [createIn, dirAllocFile, Prog.wp_bind, Prog.wp_bind]
  refine dirBlocks_wp.mono id (fun _ _ _ => trivial) ?_
  rintro c m' ⟨rfl, -, hs⟩
  refine Prog.wp_of_forall (fun _ _ => trivial) fun _ _ => ?_
  exact Prog.wp_of_forall (fun _ _ => trivial) fun _ _ => hs

theorem fileCreate_ok (h : BlockInv m) (hc : CreateClean m path)
    (hx : fileCreate path m = .ok f m') : ∃ d name m₁ k j, lastOf m path = some (d, name) ∧
      Parent m sRoot (pathElems path) d name ∧ (m.load32 (fSize d)).srem 4096#32 = 0#32 ∧
      Created m d name f m₁ m' k j := by
  rw [fileCreate, Prog.bind_eq_ok] at hx
  obtain ⟨w, m₀, hw, hx⟩ := hx
  obtain ⟨rfl, -, hm⟩ := (walkPath_wp h hc.1 .root fun _ => pathElems_mem).ok hw
  cases w
  case found => cases hx
  case missing d name =>
    obtain ⟨hd, hdir, hp, ha, hn⟩ := hm d name rfl
    have hcd := hc.2 d name hp
    have hx : createIn d name m₀ = .ok f m' := hx
    obtain ⟨m₁, k, j, hcr⟩ := (createIn_wp h hd hdir (hc.1 d hd hdir) ha hn hcd.1 hcd.2).ok hx
    refine ⟨d, name, m₁, k, j, ?_, hp, createIn_srem.ok hx, hcr⟩
    rw [lastOf, hw]

theorem createOk (h : BlockInv m) (hc : CreateFresh m path) :
    CreateOk m path (fileCreate path m) := by
  cases hx : fileCreate path m
  case panic => trivial
  case error e m' =>
    rcases (fileCreate_wp h hc.clean).error hx with rfl | ⟨d, name, hp, -, -, hpk, -, hr⟩
    · rfl
    · have hroom := (hc.2 d name hp).2.1 hpk
      exact absurd hroom.2 (hr hroom.1)
  case ok f m' =>
    obtain ⟨d, name, m₁, k, j, hl, hp, -, c⟩ := fileCreate_ok h hc.clean hx
    exact ⟨d, name, hl, c.gains (hc.2 d name hp).1⟩

-- The disk, with the directories and the names of the files created so far.
structure Creator where
  mem : Memory
  log : List (Nat × List (BitVec 8))

namespace Creator

def Step (s : Creator) (path : List (BitVec 8)) (s' : Creator) : Prop :=
  (∃ e, fileCreate path s.mem = .error e s'.mem ∧ s'.log = s.log) ∨
    ∃ f, fileCreate path s.mem = .ok f s'.mem ∧ s'.log = (lastOf s.mem path).toList ++ s.log

-- What is known after some creations from `s₀` on.
structure Inv (s₀ s : Creator) : Prop where
  blocks : BlockInv s.mem
  full   : DirsFull s.mem
  dirs   : ∀ g, Reach s.mem g ∧ isDir s.mem g ↔ Reach s₀.mem g ∧ isDir s₀.mem g
  names  : ∀ {d nm}, Reach s₀.mem d → isDir s₀.mem d → Name nm →
    (Listed s.mem d nm ↔ Listed s₀.mem d nm ∨ (d, nm) ∈ s.log)

variable {s₀ s s' : Creator}

theorem Inv.step (i : Inv s₀ s) (hc : CreateFresh s.mem path) (hs : s.Step path s') : Inv s₀ s' := by
  rcases hs with ⟨e, hx, hl⟩ | ⟨f, hx, hl⟩
  · have he := createOk i.blocks hc
    rw [hx] at he
    have he : s'.mem = s.mem := he
    refine ⟨he ▸ i.blocks, he ▸ i.full, he ▸ i.dirs, ?_⟩
    rw [he, hl]
    exact i.names
  · obtain ⟨d, name, m₁, k, j, hlast, hp, hsr, c⟩ := fileCreate_ok i.blocks hc.clean hx
    have hblank := (hc.2 d name hp).1
    have g := c.gains hblank
    refine ⟨c.blockInv (c.noPtrs fun s hs => (hblank s hs).noPtrs), c.dirsFull hblank i.full,
      fun a => (g.dirs a).trans (i.dirs a), ?_⟩
    intro a nm ha hdir hnm
    have ha' := (i.dirs a).mpr ⟨ha, hdir⟩
    have hnew : Listed s'.mem a nm ↔ Listed s.mem a nm ∨ a = d ∧ nm = name := by
      rw [Listed, Listed, c.srem hsr ha'.1]
      simp only [g.entries ha'.1 ha'.2 hnm]
      constructor
      case mp =>
        rintro ⟨hz, e, he | ⟨h₁, h₂, -⟩⟩
        · exact .inl ⟨hz, e, he⟩
        · exact .inr ⟨h₁, h₂⟩
      case mpr =>
        rintro (⟨hz, e, he⟩ | ⟨rfl, rfl⟩)
        · exact ⟨hz, e, .inl he⟩
        · exact ⟨hsr, f, .inr ⟨rfl, rfl, rfl⟩⟩
    rw [hnew, i.names ha hdir hnm, hl, hlast]
    simp only [Option.toList_some, List.cons_append, List.nil_append, List.mem_cons, Prod.mk.injEq]
    tauto

theorem Inv.run (hi : Inv s₀ s₀) (r : Run Step (fun s path => CreateFresh s.mem path) s₀ s) :
    Inv s₀ s :=
  r.invariant hi fun i hc hs => i.step hc hs

end Creator

-- Every creation that meets the condition adds its name and a fresh file, or it fails and changes
-- nothing; after some of them, the names found are those found before and those created.
theorem creates_fresh {s₀ s : Creator} (h : BlockInv s₀.mem) (hfull : DirsFull s₀.mem)
    (hl : s₀.log = []) (r : Run Creator.Step (fun s path => CreateFresh s.mem path) s₀ s) :
    (∀ path, CreateFresh s.mem path → CreateOk s.mem path (fileCreate path s.mem)) ∧
      ∀ d nm, Reach s.mem d → isDir s.mem d → Name nm →
        (Found s.mem d nm ↔ Found s₀.mem d nm ∨ (d, nm) ∈ s.log) := by
  have i : Creator.Inv s₀ s := by
    refine Creator.Inv.run ⟨h, hfull, fun _ => Iff.rfl, fun _ _ _ => ?_⟩ r
    rw [hl]
    exact (or_iff_left List.not_mem_nil).symm
  refine ⟨fun path => createOk i.blocks, fun d nm hd hdir hn => ?_⟩
  have h₀ := (i.dirs d).mp ⟨hd, hdir⟩
  rw [found_iff i.blocks.owned hd (i.full d hd hdir),
    found_iff h.owned h₀.1 (hfull d h₀.1 h₀.2)]
  exact i.names h₀.1 h₀.2 hn

namespace Sample

theorem createFresh_blank : CreateFresh blank pathX := by
  have hn : nblock blank sRoot = 0 := by decide
  refine ⟨dirsFull_root hn, fun d name hp => ?_⟩
  have hc := createClean_blank.2 d name hp
  rw [parent_root hn hp] at hc ⊢
  refine ⟨fun s hs => ?_, fun _ => ⟨?_, .inr ⟨3, ?_, fun h => ?_⟩⟩, hc.2⟩
  · obtain ⟨k, j, hk, -⟩ := hs
    exact absurd hk (not_holds_root hn)
  · rw [hn]
    decide
  · decide
  · rw [hn] at h
    exact absurd h (by decide)

end Sample

-- The name `x` is found in the root directory after the creation of `/x`.
theorem creates_fresh_blank : ∃ m, Found m sRoot [0x78#8] := by
  have hx : (fileCreate Sample.pathX Sample.blank).okAnd fun _ m' =>
      m'.load32 (fType sRoot) = FTYPE_DIR := by
    decide
  obtain ⟨f, m', hx, hdir⟩ := Outcome.exists_of_okAnd hx
  have hl : lastOf Sample.blank Sample.pathX = some (sRoot, [0x78#8]) := by decide
  have hs : Creator.Step ⟨Sample.blank, []⟩ Sample.pathX ⟨m', [(sRoot, [0x78#8])]⟩ :=
    .inr ⟨f, hx, by rw [hl]; rfl⟩
  have hr : Run Creator.Step (fun s path => CreateFresh s.mem path) ⟨Sample.blank, []⟩
      ⟨m', [(sRoot, [0x78#8])]⟩ := .single Sample.createFresh_blank hs
  have hc := creates_fresh Sample.blockInv_blank Sample.createFresh_blank.1 rfl hr
  have hdir : isDir m' sRoot := by simpa only [isDir, decide_eq_true_iff] using hdir
  refine ⟨m', (hc.2 sRoot [0x78#8] .root hdir ⟨by decide, by decide, by decide⟩).mpr ?_⟩
  exact .inr List.mem_cons_self

-- Old data of a free block becomes the name `z` in the root directory.
theorem not_creates_fresh : ¬∀ {m path}, BlockInv m → CreateOk m path (fileCreate path m) := by
  intro h
  have hx : (fileCreate Sample.pathX Sample.stale).okAnd fun f m' =>
      f = 12288 && m'.load32 (fType sRoot) = FTYPE_DIR && nblock m' sRoot = 1 &&
        ptr m' sRoot 0 = 3#32 && m'.strEq 12544 [0x7A#8] := by
    decide
  obtain ⟨f, m', hx, hm⟩ := Outcome.exists_of_okAnd hx
  simp only [Bool.and_eq_true, decide_eq_true_iff] at hm
  obtain ⟨⟨⟨⟨rfl, -⟩, hn⟩, hp⟩, he⟩ := hm
  have ho : CreateOk Sample.stale Sample.pathX (.ok 12288 m') := hx ▸ h Sample.blockInv_stale
  obtain ⟨d, name, -, g⟩ := ho
  have hs : slot m' sRoot 0 1 = 12544 := by
    rw [slot, hp]
    rfl
  have hz : Entry m' sRoot [0x7A#8] 12544 :=
    ⟨0, 1, ⟨by omega, by decide, by rw [hp]; decide⟩, by decide, hs.symm, he⟩
  have hdir : isDir Sample.stale sRoot := by
    rw [isDir]
    decide
  rcases (g.entries .root hdir ⟨by decide, by decide, by decide⟩).mp hz with ⟨k, j, hk, -⟩ | ⟨-, -, h⟩
  · exact absurd hk (not_holds_root (by decide))
  · cases h

end Fs

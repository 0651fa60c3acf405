import Sisop.Fs.Theorems.Create
import Sisop.Fs.Theorems.Ops

namespace Fs

open Inc Library

def Lowest (q : Nat → Prop) (b : Nat) : Prop := q b ∧ ∀ c < b, ¬q c

-- The block that `file_get_block` takes for the null pointer `k` of `f`: the first free block, or the
-- second one where the first becomes the indirect block.
def NewBlock (m : Memory) (f k b : Nat) : Prop :=
  if NDIRECT ≤ k ∧ ptr m f INDIRECT = 0#32 then
    ∃ i, Lowest (blockIsFree m ·) i ∧ Lowest (fun c => blockIsFree m c ∧ c ≠ i) b
  else Lowest (blockIsFree m ·) b

def ZeroBlock (m : Memory) (b : Nat) : Prop := ∀ x, InBlock b x → m x = 0#8

-- The block by which a full directory grows is filled with zeros.
def GrowClean (m : Memory) (d : Nat) : Prop :=
  Packed m d → nblock m d < INDIRECT →
    (ptr m d (nblock m d) ≠ 0#32 → ZeroBlock m (ptr m d (nblock m d)).toNat) ∧
    (ptr m d (nblock m d) = 0#32 → ∀ b, NewBlock m d (nblock m d) b → ZeroBlock m b)

-- `d` has become larger by one block, and there are no entries in it.
structure GrownDir (m : Memory) (d : Nat) (m' : Memory) : Prop where
  owned : Owned m' {g | Reach m g}
  ptrs  : ∀ g, Reach m g → g ≠ d → ∀ k ≤ INDIRECT, ptr m' g k = ptr m g k
  old   : ∀ k < nblock m d, k < INDIRECT → ptr m' d k = ptr m d k
  bytes : ∀ x, ¬Meta m' d x → m' x = m x
  size  : nblock m' d = nblock m d + 1
  word  : m'.load32 (fSize d) = m.load32 (fSize d) + 4096#32
  fresh : nblock m d < INDIRECT → ptr m' d (nblock m d) ≠ 0#32 →
    ZeroBlock m' (ptr m' d (nblock m d)).toNat

variable {m m' m₁ : Memory} {S : Set Nat} {f d g k j x b n : Nat} {v : Word}

theorem Got.newBlock (g : Got S m f k m') (hf : f ∈ S) (h₀ : ptr m f k = 0#32) :
    ∃ b, NewBlock m f k b ∧ ptr m' f k = BitVec.ofNat 32 b ∧ blockIsFree m b := by
  have hk := g.lt
  have hlow {m₁ : Memory} {c : Nat} {i : Nat} (h : Alloc S m₁ f i c m') :
      Lowest (blockIsFree m₁ ·) c := ⟨h.free, fun c' hc => by simp [h.first c' hc]⟩
  obtain ⟨m₁, h₁, h₂⟩ := g.steps
  rcases h₁ with rfl | ⟨hk₁, i, hi⟩
  · rcases h₂ with rfl | ⟨c, hc⟩
    · exact absurd h₀ g.ne
    · refine ⟨c, ?_, ?_, hc.free⟩
      · rw [NewBlock, if_neg]
        · exact hlow hc
        · rintro ⟨hn, hI⟩
          have := g.inPlace
          rw [InPlace, hc.ptrs f hf INDIRECT le_rfl, if_neg (by omega)] at this
          rcases this with h | h
          · omega
          · exact h.2.2 hI
      · rw [hc.ptrs f hf k hk.le, if_pos ⟨rfl, rfl⟩]
  · have hs : ptr m₁ f k = ptr m f k := by
      rw [hi.ptrs f hf k hk.le, if_neg (by omega)]
    rcases h₂ with rfl | ⟨c, hc⟩
    · exact absurd (hs.trans h₀) g.ne
    · refine ⟨c, ?_, ?_, ((hi.isFree c).mp hc.free).1⟩
      · rw [NewBlock, if_pos ⟨hk₁, hi.null⟩]
        refine ⟨i, ⟨hi.free, fun c' h => by simp [hi.first c' h]⟩, (hi.isFree c).mp hc.free,
          fun c' h h' => ?_⟩
        have := (hi.isFree c').mpr h'
        rw [hc.first c' h] at this
        cases this
      · rw [hc.ptrs f hf k hk.le, if_pos ⟨rfl, rfl⟩]

-- A file is not in its own blocks: it is reached from the root.
theorem BlockInv.self_apart (h : BlockInv m) (hd : Reach m d) (hk : k < INDIRECT)
    (h₀ : ptr m d k ≠ 0#32) : (ptr m d k).toNat ≠ nodeBlock d := by
  induction hd generalizing k
  case root =>
    intro he
    have := (h.valid .root hk.le h₀).1
    have := two_le_bitmapEnd m
    rw [nodeBlock_root] at he
    omega
  case entry c l i hc hcdir hl hi hne ih =>
    intro he
    rw [nodeBlock_slot hi] at he
    have hu := h.unique (.entry hc hcdir hl hi hne) hc hk.le hl.2.1.le h₀ (BitVec.eq_of_toNat_eq he)
    -- the directory would be an entry of itself
    refine ih hl.2.1 hl.2.2 ?_
    rw [← nodeBlock_slot (m := m) (d := c) (k := l) hi, hu.1]

theorem meta_not_data (o : Owned m S) (hf : f ∈ S) (hk : k < INDIRECT) (h₀ : ptr m f k ≠ 0#32)
    (hne : (ptr m f k).toNat ≠ nodeBlock f) (hx : InBlock (ptr m f k).toNat x) : ¬Meta m f x := by
  have hmem := (o.node hf).mem_block
  have hd := block_disjoint hne
  have hv := o.valid hf hk.le h₀
  have hbe := Nat.mul_le_mul_right BLKSIZE hv.1
  rintro (h | h | h | h)
  · simp only [InBlock, InSize, fSize, sizeofFile] at *
    omega
  · simp only [InBlock] at hx
    omega
  · simp only [InBlock, fDirect, fIndirect, sizeofFile] at *
    omega
  · have he := hx.eq h.2
    have := (o.unique hf hf hk.le le_rfl h₀ (BitVec.eq_of_toNat_eq he)).2
    omega

namespace GrownDir

variable (r : GrownDir m d m') (hd : Reach m d)

include r hd

theorem field (hg : Reach m g) {a : Nat} (ha : g ≤ a ∧ a + 4 ≤ g + sizeofFile)
    (hne : g ≠ d ∨ a = fType d) : m'.load32 a = m.load32 a := by
  refine Memory.load32_congr fun x h₁ h₂ => r.bytes x ?_
  by_cases hgd : g = d
  · subst hgd
    have ha := hne.resolve_left fun h => h rfl
    exact meta_not_self r.owned hd (.inr (by omega))
  · exact meta_not_node r.owned hd hg hgd (by omega) (by omega)

theorem isDir_iff (hg : Reach m g) : isDir m' g ↔ isDir m g := by
  rw [isDir, isDir, r.field hd hg]
  · simp only [fType, sizeofFile]
    omega
  · by_cases hgd : g = d
    · exact .inr (hgd ▸ rfl)
    · exact .inl hgd

theorem name_eq (hg : Reach m g) (hk : k < INDIRECT) (h₀ : ptr m' g k ≠ 0#32)
    (he : ptr m' g k = ptr m g k) (hj : j < BLKFILES) (h₁ : slot m g k j ≤ x)
    (h₂ : x < slot m g k j + MAXNAMELEN) : m' x = m x := by
  rw [← slot_congr he] at h₁ h₂
  exact r.bytes x (meta_not_name r.owned hd hg hk h₀ hj h₁ h₂)

omit hd in
theorem holds_old (hk : Holds m d k) : Holds m' d k := by
  refine ⟨r.size ▸ Nat.lt_succ_of_lt hk.1, hk.2.1, ?_⟩
  rw [r.old k hk.1 hk.2.1]
  exact hk.2.2

theorem sameDir (hg : Reach m g) (hgd : g ≠ d) : SameDir m m' g where
  dir  := r.isDir_iff hd hg
  size := by
    rw [nblock, nblock, r.field hd hg ?_ (.inl hgd)]
    simp only [fSize, sizeofFile]
    omega
  ptrs := r.ptrs g hg hgd
  name := fun hk hj h₁ h₂ => by
    have he := r.ptrs g hg hgd _ hk.2.1.le
    exact r.name_eq hd hg hk.2.1 (by rw [he]; exact hk.2.2) he hj h₁ h₂

theorem reach_iff : Reach m' g ↔ Reach m g := by
  have hlt : 0 < MAXNAMELEN := by decide
  constructor
  case mp =>
    intro hg
    induction hg
    case root => exact .root
    case entry c l i _ hdir hl hi hne hr =>
      by_cases hc : c = d
      · subst hc
        by_cases hln : l = nblock m c
        · subst hln
          refine absurd (r.fresh hl.2.1 hl.2.2 _ ?_) hne
          exact name_inBlock hi le_rfl (by omega)
        · have hlt' : l < nblock m c := by
            have := hl.1
            rw [r.size] at this
            omega
          have he := r.old l hlt' hl.2.1
          have hb := r.name_eq hd hr hl.2.1 hl.2.2 he hi le_rfl (by omega)
          rw [slot_congr he] at hne ⊢
          rw [hb] at hne
          refine .entry hr ((r.isDir_iff hd hr).mp hdir) ⟨hlt', hl.2.1, ?_⟩ hi hne
          rw [← he]
          exact hl.2.2
      · have hs := r.sameDir hd hr hc
        have hl' := hs.holds.mp hl
        rw [hs.entry hl' hi] at hne
        rw [hs.slot hl.2.1]
        exact .entry hr (hs.dir.mp hdir) hl' hi hne
  case mpr =>
    intro hg
    induction hg
    case root => exact .root
    case entry c l i hc hdir hl hi hne hr =>
      by_cases hcd : c = d
      · subst hcd
        have hl' := r.holds_old hl
        have he := r.old l hl.1 hl.2.1
        have hb := r.name_eq hd hc hl.2.1 hl'.2.2 he hi le_rfl (by omega)
        rw [← slot_congr he] at hb ⊢
        refine .entry hr ((r.isDir_iff hd hc).mpr hdir) hl' hi ?_
        rw [hb, slot_congr he]
        exact hne
      · have hs := r.sameDir hd hc hcd
        rw [← hs.entry hl hi] at hne
        rw [← hs.slot (j := i) hl.2.1]
        exact .entry hr (hs.dir.mpr hdir) (hs.holds.mpr hl) hi hne

theorem blockInv : BlockInv m' := .of_owned r.owned fun _ => (r.reach_iff hd).mp

end GrownDir

-- A directory that is as large as a file can be has no negative size.
theorem size_lt (hs : v.srem 4096#32 = 0#32) (hn : (v.sdiv 4096#32).toNat ≤ INDIRECT) :
    v.toNat < 2147483648 := by
  have hI := INDIRECT_eq
  by_contra hc
  have hneg : 2147483648 ≤ v.toNat := by omega
  have hd := sdiv_negative hneg
  by_cases h : 4294963200 < v.toNat
  · rw [srem_negative hneg h] at hs
    subst hs
    cases h
  · omega

theorem srem_grow (hs : v.srem 4096#32 = 0#32) (hn : (v.sdiv 4096#32).toNat ≤ INDIRECT) :
    (v + 4096#32).srem 4096#32 = 0#32 := by
  have hI := INDIRECT_eq
  have hpos := size_lt hs hn
  rw [sdiv_toNat hpos] at hn
  have hr := congrArg BitVec.toNat hs
  rw [srem_toNat hpos] at hr
  have hv : (v + 4096#32).toNat = v.toNat + 4096 := by
    rw [BitVec.toNat_add]
    simp only [BitVec.toNat_ofNat]
    omega
  apply BitVec.eq_of_toNat_eq
  rw [srem_toNat (by omega), hv]
  simp only [BitVec.toNat_ofNat] at *
  omega

theorem nblock_grow (hs : v.srem 4096#32 = 0#32) (hn : (v.sdiv 4096#32).toNat ≤ INDIRECT) :
    ((v + 4096#32).sdiv 4096#32).toNat = (v.sdiv 4096#32).toNat + 1 := by
  have hI := INDIRECT_eq
  have hpos := size_lt hs hn
  have hd := sdiv_toNat hpos
  have hv : (v + 4096#32).toNat = v.toNat + 4096 := by
    rw [BitVec.toNat_add]
    simp only [BitVec.toNat_ofNat]
    omega
  rw [sdiv_toNat (by omega), hd, hv]
  omega

section Growth

variable (h : BlockInv m) (hd : Reach m d) (hfull : Full m d)
  (hs : (m.load32 (fSize d)).srem 4096#32 = 0#32) (hn : nblock m d ≤ INDIRECT)

-- The directory with its new size, before it has a new block.
def grownSize (m : Memory) (d : Nat) : Memory :=
  m.store32 (fSize d) (m.load32 (fSize d) + 4096#32)

include h hd

theorem grownSize_owned : Owned (grownSize m d) {g | Reach m g} ∧
    (∀ g, Reach m g → ∀ k ≤ INDIRECT, ptr (grownSize m d) g k = ptr m g k) ∧
    (∀ c, blockIsFree (grownSize m d) c = blockIsFree m c) ∧
    ∀ x, ¬InSize d x → grownSize m d x = m x := by
  have ho := store_size (v := m.load32 (fSize d) + 4096#32) h.owned hd
  refine ⟨ho.1, fun g hg k hk => ptr_store_size hk h.owned hd hg, ho.2.2, fun x hx => ?_⟩
  refine Memory.store32_of_not_mem ?_
  simp only [InSize] at hx
  omega

include hs hn

omit h hd in
theorem nblock_grownSize : nblock (grownSize m d) d = nblock m d + 1 := by
  rw [nblock, grownSize, Memory.load32_store32_self]
  exact nblock_grow hs hn

-- The size has changed, but the directory has got no block.
theorem grownDir_size (h₀ : nblock m d < INDIRECT → ptr m d (nblock m d) = 0#32) :
    GrownDir m d (grownSize m d) := by
  have hg := grownSize_owned h hd
  refine ⟨hg.1, fun g hr _ k hk => hg.2.1 g hr k hk, fun k _ hk => hg.2.1 d hd k hk.le,
    fun x hx => hg.2.2.2 x fun hc => hx (.inl hc), nblock_grownSize hs hn,
    Memory.load32_store32_self, fun hlt hne => ?_⟩
  rw [hg.2.1 d hd _ hlt.le] at hne
  exact absurd (h₀ hlt) hne

include hfull

-- The directory has got the block, too.
theorem grownDir_got (hp : Packed m d) (hc : GrowClean m d)
    (g : Got {g | Reach m g} (grownSize m d) d (nblock m d) m') : GrownDir m d m' := by
  have hg := grownSize_owned h hd
  have hlt := g.lt
  have o' := (g.spec (X := fun _ => False) hg.1 hd).1
  have gr := (g.spec (X := fun _ => False) hg.1 hd).2.1
  have hbytes : ∀ x, ¬Meta m' d x → m' x = m x := fun x hx => by
    rw [gr.bytes x (fun hc => hx (.inr hc)) id, hg.2.2.2 x fun hc => hx (.inl hc)]
  have hzero : ZeroBlock m' (ptr m' d (nblock m d)).toNat := by
    have hclean := hc hp hlt
    by_cases h₀ : ptr m d (nblock m d) = 0#32
    · have h₁ : ptr (grownSize m d) d (nblock m d) = 0#32 := (hg.2.1 d hd _ hlt.le).trans h₀
      obtain ⟨b, hb, he, hf⟩ := g.newBlock hd h₁
      rw [hg.2.2.1] at hf
      have hb' : NewBlock m d (nblock m d) b := by
        rw [NewBlock, hg.2.1 d hd _ le_rfl] at hb
        simp only [hg.2.2.1] at hb
        exact hb
      have hbn : (ptr m' d (nblock m d)).toNat = b := by
        rw [he, ofNat_toNat h.checked (blockIsFree_iff.mp hf).1]
      intro x hx
      rw [hbytes x (meta_not_data o' hd hlt g.ne ?_ hx)]
      · exact hclean.2 h₀ b hb' x (hbn ▸ hx)
      · rw [hbn]
        intro he'
        have h₁ := node_free h.owned hd hf
        have h₂ := (h.owned.node hd).mem_block
        rw [← he'] at h₂
        simp only [sizeofFile, BLKSIZE] at *
        omega
    · have h₁ : ptr m' d (nblock m d) = ptr m d (nblock m d) := by
        have h₂ := hg.2.1 d hd _ hlt.le
        rw [gr.ptr_eq hd hlt.le (by rw [h₂]; exact h₀), h₂]
      intro x hx
      rw [hbytes x (meta_not_data o' hd hlt g.ne ?_ hx)]
      · exact hclean.1 h₀ x (h₁ ▸ hx)
      · rw [h₁]
        exact h.self_apart hd hlt h₀
  have hsz : m'.load32 (fSize d) = (grownSize m d).load32 (fSize d) :=
    gr.size_eq o' hd fun _ _ => id
  have hload : nblock m' d = nblock m d + 1 := by
    rw [nblock, hsz]
    exact nblock_grownSize hs hn
  refine ⟨o', fun c hr hcd k hk => ?_, fun k hk hkI => ?_, hbytes, hload,
    hsz.trans Memory.load32_store32_self, fun _ _ => hzero⟩
  · rw [(gr.ptrs c hr k hk).resolve_right fun hc => hcd hc.1, hg.2.1 c hr k hk]
  · have h₁ := hg.2.1 d hd k hkI.le
    rw [gr.ptr_eq hd hkI.le (by rw [h₁]; exact hfull k hk hkI), h₁]

end Growth

-- The result of `dir_alloc_file` is an empty slot of the directory, the first or one in a new block.
theorem dirAllocFile_wp (h : BlockInv m) (hd : Reach m d) (hdir : isDir m d) (hfull : Full m d)
    (hc : GrowClean m d) : (dirAllocFile d).wp True
      (fun _ m' => m' = m ∨ Packed m d ∧ GrownDir m d m' ∧
        (nblock m d < INDIRECT → ¬Room m d (nblock m d)))
      (fun f m' => ∃ k j, EmptySlot m' d k j ∧ f = slot m' d k j ∧ (m' = m ∧ FirstEmpty m d f ∨
        Packed m d ∧ GrownDir m d m' ∧ k = nblock m d ∧ j = 0 ∧
          ZeroBlock m' (ptr m' d k).toNat)) m := by
  rw [dirAllocFile, Prog.wp_bind]
  refine dirBlocks_wp.mono id (fun _ _ h => h.elim) ?_
  rintro c m' ⟨rfl, rfl, hs⟩
  rw [List.range_eq_range', Prog.wp_bind]
  refine (dirScan_wp h.owned hd fun k _ h => hfull k (by omega)).mono False.elim
    (fun _ _ h => .inl h.1) ?_
  rintro r m₁ ⟨rfl, h₁, h₂⟩
  cases r
  case some f =>
    obtain ⟨k, j, -, hk, hkI, hj, rfl, hp, hk', hj'⟩ := h₁ f rfl
    have hz : m₁ (slot m₁ d k j) = 0#8 := by simpa using hp
    have hh : Holds m₁ d k := ⟨by omega, hkI, hfull k (by omega) hkI⟩
    refine ⟨k, j, ⟨h, hd, hdir, hh, hj, hz⟩, rfl, .inl ⟨rfl, k, j, hh, hj, rfl, hz, ?_, ?_⟩⟩
    · exact fun k' hk₁ j' hj₁ => by simpa using hk' k' (Nat.zero_le _) hk₁ j' hj₁
    · exact fun j' hj₁ => by simpa using hj' j' hj₁
  case none =>
    have hp : Packed m₁ d := fun k hk => by
      have := h₂ rfl k (Nat.zero_le _) (by omega)
      exact ⟨this.1, fun j hj => by simpa using this.2 j hj⟩
    have hn : nblock m₁ d ≤ INDIRECT := by
      by_contra hc'
      have := (hp INDIRECT (by omega)).1
      omega
    have hg := grownSize_owned h hd
    simp only [Prog.wp_bind, Prog.wp_modify]
    refine (fileGetBlock_wp hg.1 hd).mono (fun _ => trivial) ?_ ?_
    · rintro e m₂ ⟨rfl, he⟩
      have hroom : nblock m₁ d < INDIRECT → ¬Room m₁ d (nblock m₁ d) := by
        intro hlt
        rcases he with he | he
        · omega
        · have hr := he.2.2.2
          rw [Room, hg.2.1 d hd _ hlt.le, hg.2.1 d hd _ le_rfl] at hr
          simp only [hg.2.2.1] at hr
          exact hr
      refine .inr ⟨hp, grownDir_size h hd hs hn fun hlt => ?_, hroom⟩
      exact by_contra fun h₀ => hroom hlt (.inl h₀)
    · rintro blk m₂ ⟨g, rfl⟩
      have r := grownDir_got h hd hfull hs hn hp hc g
      have hz := r.fresh g.lt g.ne
      have hj : 0 < BLKFILES := by decide
      refine ⟨nblock m₁ d, 0, ⟨r.blockInv hd, (r.reach_iff hd).mpr hd, (r.isDir_iff hd hd).mpr hdir,
        ⟨by rw [r.size]; omega, g.lt, g.ne⟩, hj, ?_⟩, by simp [slot], .inr ⟨hp, r, rfl, rfl, hz⟩⟩
      refine hz _ (name_inBlock hj le_rfl ?_)
      exact Nat.lt_add_of_pos_right (by decide)

-- `file_flush` changes nothing.
theorem flushBlocks_wp {ks : List Nat} (o : Owned m S) (hf : f ∈ S) :
    (flushBlocks f ks).wp True (fun _ _ => False) (fun _ m' => m' = m) m := by
  induction ks
  case nil => rfl
  case cons k ks hi =>
    rw [flushBlocks, Prog.wp_bind, Prog.wp_attempt]
    refine (fileBlockWalk_false_wp o hf).mono False.elim ?_ ?_
    · rintro _ m' ⟨rfl, -⟩
      exact hi
    · rintro a m' ⟨rfl, -⟩
      simp only [Prog.wp_bind, Prog.wp_get]
      split
      · rw [Prog.wp_bind]
        exact diskaddr_wp (fun _ => hi) fun _ => trivial
      · exact hi

theorem fileFlush_wp (o : Owned m S) (hf : f ∈ S) :
    (fileFlush f).wp True (fun _ _ => False) (fun _ m' => m' = m) m := by
  rw [fileFlush, Prog.wp_bind, Prog.wp_get, Prog.wp_bind]
  refine (flushBlocks_wp o hf).mono id (fun _ _ h => h) ?_
  rintro _ m' rfl
  rw [Prog.wp_bind, Prog.wp_get]
  split
  · rw [Prog.wp_bind]
    exact diskaddr_wp (fun _ => rfl) fun _ => trivial
  · rfl

end Fs

import Sisop.Fs.Theorems.Inside

-- What truncation releases, to the block.

namespace Fs

open Inc Library

variable {m m' m₁ : Memory} {S : Set Nat} {f g k a b c x : Nat} {newsize : Word}

-- Sizes are not negative.
theorem slt_of_size {size : Word} (hs : size.toNat ≤ MAXFILESIZE) (hn : newsize.toNat ≤ size.toNat) :
    newsize.slt size ↔ newsize.toNat < size.toNat := by
  have hM : MAXFILESIZE = 1034 * 4096 := by decide
  rw [BitVec.slt_eq_decide, decide_eq_true_iff, BitVec.toInt_eq_toNat_cond,
    BitVec.toInt_eq_toNat_cond]
  omega

section Bitmap

-- After a pointer's block is given back and the pointer is stored, this block is the only new free one.
theorem release_free (o : Owned m S) (hf : f ∈ S) (hk : k ≤ INDIRECT) (h₀ : ptr m f k ≠ 0#32)
    (hr : bitmapEnd m * BLKSIZE ≤ a ∨ super + 8 ≤ a ∧ a + 4 ≤ bitmap) :
    blockIsFree ((releaseBlock m (ptr m f k).toNat).store32 a 0#32) c ↔
      blockIsFree m c ∨ c = (ptr m f k).toNat := by
  have hr' : bitmapEnd (releaseBlock m (ptr m f k).toNat) * BLKSIZE ≤ a ∨
      super + 8 ≤ a ∧ a + 4 ≤ bitmap := by
    rw [bitmapEnd_congr sNblocks_release]
    exact hr
  have he : blockIsFree ((releaseBlock m (ptr m f k).toNat).store32 a 0#32) c =
      blockIsFree (releaseBlock m (ptr m f k).toNat) c := blockIsFree_write hr'
  rw [he]
  exact blockIsFree_release (o.valid hf hk h₀).2.1

theorem fileFreeBlock_free (o : Owned m S) (hf : f ∈ S) :
    (fileFreeBlock f k).wp False (fun _ m' => m' = m ∧ ¬InPlace m f k)
      (fun _ m' => ∀ c, blockIsFree m' c ↔ blockIsFree m c ∨
        k < INDIRECT ∧ ptr m f k ≠ 0#32 ∧ (ptr m f k).toNat = c) m := by
  rw [fileFreeBlock, Prog.wp_bind]
  refine (fileBlockWalk_false_wp o hf).mono id (fun _ _ h => h) fun a m₁ h => ?_
  obtain ⟨rfl, hi, rfl⟩ := h
  have hk : k < INDIRECT := by
    have hlt : NDIRECT < INDIRECT := by decide
    rw [InPlace] at hi
    omega
  simp only [Prog.wp_bind, Prog.wp_get, ← hi.ptr_eq]
  split
  case isFalse h₀ =>
    refine fun c => ⟨.inl, fun h => h.resolve_right fun hc => h₀ hc.2.1⟩
  case isTrue h₀ =>
    have hv := o.valid hf hk.le h₀
    rw [Prog.wp_bind]
    refine freeBlock_wp h₀ hv.1 hv.2.1 fun c => ?_
    rw [release_free o hf hk.le h₀ (ptrAddr_region o hf hi)]
    exact or_congr_right ⟨fun hc => ⟨hk, h₀, hc.symm⟩, fun hc => hc.2.2.symm⟩

-- The blocks that the loop of `file_truncate_blocks` frees.
theorem freeBlocks_free {bnos : List Nat} (o : Owned m S) (hf : f ∈ S) (ha : Apart m f S) :
    (freeBlocks f bnos).wp False (fun _ _ => False)
      (fun _ m' => ∀ c, blockIsFree m' c ↔ blockIsFree m c ∨
        ∃ k ∈ bnos, k < INDIRECT ∧ ptr m f k ≠ 0#32 ∧ (ptr m f k).toNat = c) m := by
  induction bnos generalizing m
  case nil =>
    refine fun c => ⟨.inl, fun h => h.resolve_right ?_⟩
    rintro ⟨_, hc, _⟩
    exact List.not_mem_nil hc
  case cons bno bnos hi =>
    have hstep {m₁ : Memory} (o₁ : Owned m₁ S) (h₁ : Shrunk S m f (fun k => k = bno ∧ k < INDIRECT) m₁)
        (hc₁ : ∀ c, blockIsFree m₁ c ↔ blockIsFree m c ∨
          bno < INDIRECT ∧ ptr m f bno ≠ 0#32 ∧ (ptr m f bno).toNat = c) :
        (freeBlocks f bnos).wp False (fun _ _ => False)
          (fun _ m' => ∀ c, blockIsFree m' c ↔ blockIsFree m c ∨ ∃ k ∈ bno :: bnos,
            k < INDIRECT ∧ ptr m f k ≠ 0#32 ∧ (ptr m f k).toNat = c) m₁ := by
      refine (hi o₁ (h₁.apart hf ha)).mono id (fun _ _ h => h.elim) fun _ m₂ h c => ?_
      rw [h, hc₁, or_assoc]
      refine or_congr_right ?_
      constructor
      case mp =>
        rintro (hb | ⟨k, hk, hlt, h₀, hc⟩)
        · exact ⟨bno, List.mem_cons_self, hb⟩
        · have he := h₁.ne_zero hf hlt.le h₀
          exact ⟨k, List.mem_cons_of_mem _ hk, hlt, he ▸ h₀, he ▸ hc⟩
      case mpr =>
        rintro ⟨k, hk, hlt, h₀, hc⟩
        by_cases hb : k = bno
        · subst hb
          exact .inl ⟨hlt, h₀, hc⟩
        · have he := (h₁.ptrs f hf k hlt.le).resolve_right fun hx => hb hx.2.1.1
          exact .inr ⟨k, (List.mem_cons.mp hk).resolve_left hb, hlt, he ▸ h₀, he ▸ hc⟩
    rw [freeBlocks, Prog.wp_bind, Prog.wp_attempt]
    refine ((fileFreeBlock_wp o hf ha).and (fileFreeBlock_free o hf)).mono And.left ?_ ?_
    · intro _ m₁ h
      obtain ⟨⟨rfl, hn⟩, _⟩ := h
      refine hstep o (.refl ..) fun c => ⟨.inl, fun h => h.resolve_right fun hc => ?_⟩
      exact hc.2.1 (ptr_of_not_inPlace hc.1 hn)
    · exact fun _ m₁ h => hstep h.1.1 h.1.2.1 h.2

-- The pointers whose blocks `file_set_size` frees, among them that of the indirect block.
def released (m : Memory) (f : Nat) (newsize : Word) : Finset Nat :=
  {k ∈ Finset.range (INDIRECT + 1) | ptr m f k ≠ 0#32 ∧
    (k < INDIRECT ∧ blocks newsize.toNat ≤ k ∧ k < blocks (m.load32 (fSize f)).toNat ∨
      k = INDIRECT ∧ newsize.toNat < (m.load32 (fSize f)).toNat ∧ blocks newsize.toNat ≤ NDIRECT)}

theorem mem_released : k ∈ released m f newsize ↔ ptr m f k ≠ 0#32 ∧
    (k < INDIRECT ∧ blocks newsize.toNat ≤ k ∧ k < blocks (m.load32 (fSize f)).toNat ∨
      k = INDIRECT ∧ newsize.toNat < (m.load32 (fSize f)).toNat ∧
        blocks newsize.toNat ≤ NDIRECT) := by
  rw [released, Finset.mem_filter, Finset.mem_range]
  refine and_iff_right_of_imp fun h => ?_
  omega

variable (o : Owned m S) (hf : f ∈ S) (ha : Apart m f S)
  (hs : (m.load32 (fSize f)).toNat ≤ MAXFILESIZE)
include o hf ha hs

theorem fileTruncateBlocks_free (hn : newsize.toNat < (m.load32 (fSize f)).toNat) :
    (fileTruncateBlocks f newsize).wp False (fun _ _ => False)
      (fun _ m' => ∀ c, blockIsFree m' c ↔ blockIsFree m c ∨
        ∃ k ∈ released m f newsize, (ptr m f k).toNat = c) m := by
  rw [fileTruncateBlocks, Prog.wp_bind, Prog.wp_get, Prog.wp_bind]
  refine ((freeBlocks_wp o hf ha).and (freeBlocks_free o hf ha)).mono And.left
    (fun _ _ h => h.1) fun _ m₁ h => ?_
  obtain ⟨⟨o₁, h₁, _⟩, hc₁⟩ := h
  rw [blocksFor_toNat hs, blocksFor_toNat (by omega : newsize.toNat ≤ MAXFILESIZE)] at hc₁
  rw [blocksFor_toNat (by omega : newsize.toNat ≤ MAXFILESIZE)]
  have hI : ptr m₁ f INDIRECT = ptr m f INDIRECT :=
    (h₁.ptrs f hf INDIRECT le_rfl).resolve_right fun hx => Nat.lt_irrefl _ hx.2.1.2
  have hr {k c : Nat} : (k ∈ List.range' (blocks newsize.toNat)
      (blocks (m.load32 (fSize f)).toNat - blocks newsize.toNat) ∧ k < INDIRECT ∧
        ptr m f k ≠ 0#32 ∧ (ptr m f k).toNat = c) ↔
      k ∈ released m f newsize ∧ k < INDIRECT ∧ (ptr m f k).toNat = c := by
    rw [mem_released, List.mem_range'_1]
    constructor
    case mp =>
      rintro ⟨hk, hlt, h₀, hc⟩
      exact ⟨⟨h₀, .inl ⟨hlt, hk.1, by omega⟩⟩, hlt, hc⟩
    case mpr =>
      rintro ⟨⟨h₀, hk⟩, hlt, hc⟩
      refine ⟨?_, hlt, h₀, hc⟩
      omega
  simp only [hr] at hc₁
  simp only [Prog.wp_bind, Prog.wp_get, ← ptr_INDIRECT]
  split
  case isFalse hc =>
    intro c
    rw [hc₁]
    refine or_congr_right (exists_congr fun k => and_congr_right fun hk => and_iff_right ?_)
    rw [mem_released] at hk
    rcases hk.2 with hk | ⟨hkI, _, hnd⟩
    · exact hk.1
    · exact absurd ⟨hnd, hI ▸ hkI ▸ hk.1⟩ hc
  case isTrue hc =>
    have hv := o₁.valid hf le_rfl hc.2
    have hb := (o₁.node hf).bounds
    rw [Prog.wp_bind]
    refine freeBlock_wp hc.2 hv.1 hv.2.1 fun c => ?_
    rw [release_free o₁ hf le_rfl hc.2, hc₁, hI, or_assoc]
    · refine or_congr_right ?_
      constructor
      case mp =>
        rintro (⟨k, hk, _, he⟩ | he)
        · exact ⟨k, hk, he⟩
        · exact ⟨INDIRECT, mem_released.mpr ⟨hI ▸ hc.2, .inr ⟨rfl, hn, hc.1⟩⟩, he.symm⟩
      case mpr =>
        rintro ⟨k, hk, he⟩
        rcases (mem_released.mp hk).2 with hlt | ⟨hkI, _⟩
        · exact .inl ⟨k, hk, hlt.1, he⟩
        · exact .inr (hkI ▸ he.symm)
    · simp only [fIndirect, sizeofFile] at *
      omega

theorem fileSetSize_free (hn : newsize.toNat ≤ (m.load32 (fSize f)).toNat) :
    (fileSetSize f newsize).wp False (fun _ _ => False)
      (fun _ m' => ∀ c, blockIsFree m' c ↔ blockIsFree m c ∨
        ∃ k ∈ released m f newsize, (ptr m f k).toNat = c) m := by
  rw [fileSetSize, Prog.wp_bind, Prog.wp_get]
  split
  case isFalse hc =>
    have he : newsize.toNat = (m.load32 (fSize f)).toNat := by
      rw [slt_of_size hs hn] at hc
      omega
    intro c
    rw [(store_size o hf).2.2]
    refine ⟨.inl, fun h => h.resolve_right ?_⟩
    rintro ⟨k, hk, _⟩
    have hk := (mem_released.mp hk).2
    rw [he] at hk
    omega
  case isTrue hc =>
    rw [Prog.wp_bind]
    refine ((fileTruncateBlocks_wp o hf ha).and (fileTruncateBlocks_free o hf ha hs
      ((slt_of_size hs hn).mp hc))).mono And.left (fun _ _ h => h.1) fun _ m₁ h c => ?_
    obtain ⟨⟨o₁, _⟩, hc₁⟩ := h
    rw [(store_size o₁ hf).2.2, hc₁]

end Bitmap

section Others

-- What `f` writes is not in the other files, nor in the blocks of the directories but `f` itself.
theorem meta_not_block (o : Owned m S) (hf : f ∈ S) (hg : g ∈ S) (hne : g ≠ f) (hk : k ≤ INDIRECT)
    (h₀ : ptr m g k ≠ 0#32) (hx : InBlock (ptr m g k).toNat x)
    (hfx : ¬(f ≤ x ∧ x < f + sizeofFile)) : ¬Meta m f x := by
  have hv := Nat.mul_le_mul_right BLKSIZE (o.valid hg hk h₀).1
  rintro (h | h | h | h)
  · simp only [InSize, fSize, sizeofFile] at *
    omega
  · rw [InBlock] at hx
    omega
  · simp only [fDirect, fIndirect, sizeofFile] at *
    omega
  · have he := h.2.eq hx
    exact hne (o.unique hf hg le_rfl hk h.1 (BitVec.eq_of_toNat_eq he)).1.symm

variable (o : Owned m S) (hf : f ∈ S) (hx : ∀ x, ¬Meta m f x → m' x = m x)
include o hf hx

theorem ptr_of_meta (hg : g ∈ S) (hne : g ≠ f) (hk : k ≤ INDIRECT) : ptr m' g k = ptr m g k := by
  refine ptr_congr hk (fun x h₁ h₂ => hx x (meta_not_node o hf hg hne h₁ h₂)) fun h x h₁ h₂ => ?_
  have hb := o.node_indirect hg hf h
  refine hx x (meta_not_block o hf hg hne le_rfl h ⟨h₁, h₂⟩ ?_)
  omega

theorem node_of_meta (hg : g ∈ S) (hne : g ≠ f)
    (hgx : g ≤ x ∧ x < g + sizeofFile ∨ Data m g x ∧ ¬(f ≤ x ∧ x < f + sizeofFile)) :
    m' x = m x := by
  refine hx x ?_
  rcases hgx with h | ⟨⟨k, hk, h₀, hb⟩, hfx⟩
  · exact meta_not_node o hf hg hne h.1 h.2
  · exact meta_not_block o hf hg hne hk.le h₀ hb hfx

end Others

section Count

open Finset

-- The blocks that are given back differ from each other and were in use.
theorem freeCount_released (o : Owned m S) (hf : f ∈ S) (hn : sNblocks m' = sNblocks m)
    (hc : ∀ c, blockIsFree m' c ↔ blockIsFree m c ∨
      ∃ k ∈ released m f newsize, (ptr m f k).toNat = c) :
    freeCount m' = freeCount m + (released m f newsize).card := by
  have hle {k : Nat} (hk : k ∈ released m f newsize) : k ≤ INDIRECT := by
    rw [mem_released] at hk
    omega
  have hs : {c ∈ range (sNblocks m') | blockIsFree m' c} = {c ∈ range (sNblocks m) | blockIsFree m c} ∪
      (released m f newsize).image fun k => (ptr m f k).toNat := by
    ext c
    rw [mem_filter, mem_union, mem_filter, mem_image, mem_range, mem_range, hn, hc, and_or_left]
    refine or_congr_right (and_iff_right_of_imp ?_)
    rintro ⟨k, hk, he⟩
    rw [← he]
    exact (o.valid hf (hle hk) (mem_released.mp hk).1).2.1
  have hd : Disjoint {c ∈ range (sNblocks m) | blockIsFree m c}
      ((released m f newsize).image fun k => (ptr m f k).toNat) := by
    rw [disjoint_left]
    intro c hc hi
    obtain ⟨k, hk, rfl⟩ := mem_image.mp hi
    have hu := (o.valid hf (hle hk) (mem_released.mp hk).1).2.2
    rw [(mem_filter.mp hc).2] at hu
    cases hu
  rw [freeCount, hs, card_union_of_disjoint hd, card_image_of_injOn, freeCount]
  intro k hk k' hk' he
  exact (o.unique hf hf (hle hk) (hle hk') (mem_released.mp hk).1 (BitVec.eq_of_toNat_eq he)).2

end Count

section Exact

-- What `file_set_size` should do to a file that does not get larger. Pointers from the old number of
-- blocks on are not looked at, and with the size that the file already has, none.
structure Truncated (m : Memory) (f : Nat) (newsize : Word) (m' : Memory) : Prop where
  size     : m'.load32 (fSize f) = newsize
  cut      : ∀ k < INDIRECT, blocks newsize.toNat ≤ k → k < blocks (m.load32 (fSize f)).toNat →
    ptr m' f k = 0#32
  kept     : ∀ k < INDIRECT, k < blocks newsize.toNat → ptr m' f k = ptr m f k
  past     : (∀ k < INDIRECT, blocks (m.load32 (fSize f)).toNat ≤ k → ptr m f k = 0#32) →
    ∀ k < INDIRECT, blocks newsize.toNat ≤ k → ptr m' f k = 0#32
  indirect : ptr m' f INDIRECT =
    if newsize.toNat < (m.load32 (fSize f)).toNat ∧ blocks newsize.toNat ≤ NDIRECT then 0#32
    else ptr m f INDIRECT
  free     : ∀ c, blockIsFree m' c ↔ blockIsFree m c ∨
    ∃ k ∈ released m f newsize, (ptr m f k).toNat = c
  count    : freeCount m' = freeCount m + (released m f newsize).card
  others   : ∀ g, Reach m g → g ≠ f → (∀ k ≤ INDIRECT, ptr m' g k = ptr m g k) ∧
    ∀ x, g ≤ x ∧ x < g + sizeofFile ∨ Data m g x ∧ ¬(f ≤ x ∧ x < f + sizeofFile) → m' x = m x

theorem truncate_exact (h : BlockInv m) (hf : Reach m f) (hs : (m.load32 (fSize f)).toNat ≤ MAXFILESIZE)
    (hn : newsize.toNat ≤ (m.load32 (fSize f)).toNat) :
    ∃ m', fileSetSize f newsize m = .ok () m' ∧ Truncated m f newsize m' := by
  have hS := h.sound hf
  have hmem : f ∈ ({f} : Set Nat) := rfl
  obtain ⟨_, m', hx, ⟨_, _, hsize, m₁, hm', o₁, h₁, hz⟩, hfree⟩ :=
    ((fileSetSize_wp hS.owned hmem hS.apart).and
      (fileSetSize_free hS.owned hmem hS.apart hs hn)).mono And.left (fun _ _ h => h.1)
        (fun _ _ h => h) |>.exists_ok
  have hnb : sNblocks m' = sNblocks m := by
    rw [hm', (store_size o₁ hmem).2.1, h₁.nblocks]
  rw [blocksFor_toNat hs, blocksFor_toNat (hn.trans hs), slt_of_size hs hn] at hz
  rw [blocksFor_toNat (hn.trans hs), slt_of_size hs hn] at h₁
  have hp {k : Nat} (hk : k ≤ INDIRECT) : ptr m' f k = ptr m f k ∨
      newsize.toNat < (m.load32 (fSize f)).toNat ∧ Cut (blocks newsize.toNat) k ∧
        ptr m' f k = 0#32 := by
    rw [hm', ptr_store_size hk o₁ hmem hmem]
    exact (h₁.ptrs f hmem k hk).imp_right fun hc => ⟨hc.2.1.1, hc.2.1.2, hc.2.2⟩
  have hbytes (x : Nat) (hx : ¬Meta m f x) : m' x = m x := by
    rw [Meta, not_or, InSize] at hx
    rw [hm', Memory.store32_of_not_mem (by omega)]
    exact h₁.bytes x hx.2
  have hcut : ∀ k < INDIRECT, blocks newsize.toNat ≤ k → k < blocks (m.load32 (fSize f)).toNat →
      ptr m' f k = 0#32 := by
    intro k hk h₂ h₃
    refine (hz ?_).1 k hk h₂ h₃
    by_contra hc
    rw [show newsize.toNat = (m.load32 (fSize f)).toNat by omega] at h₂
    omega
  refine ⟨m', hx, ?_⟩
  constructor
  case size => exact hsize
  case cut => exact hcut
  case kept =>
    intro k hk hlt
    refine (hp hk.le).resolve_right fun hc => ?_
    have := hc.2.1
    rw [Cut] at this
    omega
  case past =>
    intro hpast k hk hle
    by_cases hlt : k < blocks (m.load32 (fSize f)).toNat
    · exact hcut k hk hle hlt
    · rcases hp hk.le with he | he
      · exact he.trans (hpast k hk (by omega))
      · exact he.2.2
  case indirect =>
    split
    case isTrue hc => exact (hz hc.1).2 hc.2
    case isFalse hc =>
      refine (hp le_rfl).resolve_right fun hx => hc ⟨hx.1, ?_⟩
      have := hx.2.1
      rw [Cut] at this
      omega
  case free => exact hfree
  case count => exact freeCount_released hS.owned hmem hnb hfree
  case others =>
    intro g hg hne
    exact ⟨fun k hk => ptr_of_meta h.owned hf hbytes hg hne hk,
      fun x hgx => node_of_meta h.owned hf hbytes hg hne hgx⟩

theorem truncate_exact_fileA : ∃ m', fileSetSize Sample.fileA 0#32 Sample.disk = .ok () m' ∧
    Truncated Sample.disk Sample.fileA 0#32 m' :=
  truncate_exact Sample.blockInv_disk Sample.reach_fileA (by decide) (by decide)

-- With the size that the file already has, its pointers are not looked at.
theorem fileSetSize_same (hn : ¬newsize.slt (m.load32 (fSize f))) (o : Owned m S) (hf : f ∈ S)
    (hx : fileSetSize f newsize m = .ok () m') (hk : k ≤ INDIRECT) : ptr m' f k = ptr m f k := by
  have hw : (fileSetSize f newsize).wp False (fun _ _ => False)
      (fun _ m' => m' = m.store32 (fSize f) newsize) m := by
    rw [fileSetSize, Prog.wp_bind, Prog.wp_get, if_neg hn]
    rfl
  rw [hw.ok hx]
  exact ptr_store_size hk o hf hf

theorem regular_store_size (h : BlockInv m) (hf : Reach m f) (hd : ¬isDir m f) :
    Regular m f (m.store32 (fSize f) newsize) where
  owned   := (store_size h.owned hf).1
  apart   := apart_store_size h.owned hf (h.apart hf hd)
  nblocks := (store_size h.owned hf).2.1
  ptrs    := fun _ hg _ _ hk => ptr_store_size hk h.owned hf hg
  bytes   := by
    intro x hx _
    simp only [Own, InSize, not_or] at hx
    exact Memory.store32_of_not_mem (by omega)

-- The block of `/a` is past its size.
theorem not_truncate_exact : ¬∀ {m f newsize}, BlockInv m → Reach m f →
    (m.load32 (fSize f)).toNat ≤ MAXFILESIZE → newsize.toNat ≤ (m.load32 (fSize f)).toNat →
    ∃ m', fileSetSize f newsize m = .ok () m' ∧
      ∀ k < INDIRECT, blocks newsize.toNat ≤ k → ptr m' f k = 0#32 := by
  intro h
  have hd := Sample.blockInv_disk
  have hA := Sample.reach_fileA
  have r : Regular Sample.disk Sample.fileA (Sample.disk.store32 (fSize Sample.fileA) 0#32) :=
    regular_store_size hd hA Sample.not_isDir_fileA
  have hb := r.blockInv hd hA Sample.not_isDir_fileA
  have hr := (r.reach_iff hd hA Sample.not_isDir_fileA).mpr hA
  have hs : (Sample.disk.store32 (fSize Sample.fileA) 0#32).load32 (fSize Sample.fileA) = 0#32 :=
    Memory.load32_store32_self
  obtain ⟨m', hx, hz⟩ := h hb hr (by rw [hs]; decide)
    (show (0#32).toNat ≤ _ from Nat.zero_le _)
  have h₀ := hz 0 (by decide) (Nat.zero_le _)
  rw [fileSetSize_same (by rw [hs]; decide) hb.owned hr hx (Nat.zero_le _),
    ptr_store_size (Nat.zero_le _) hd.owned hA hA] at h₀
  revert h₀
  decide

end Exact

end Fs

import Sisop.Fs.Theorems.Ownership

namespace Fs

open Inc Library

-- The count and the bytes of a reply.
def reply : Outcome Memory Nat (Word × List Chunk) → Option (Word × List (BitVec 8))
  | .ok (r, cs) _ => some (r, cs.flatMap Chunk.bytes)
  | _             => none

-- Every read of `f` gives the bytes below `size` in its range, those of `a` where `a` is known.
def ReadsAs (m : Memory) (f size : Nat) (a : Nat → Option (BitVec 8)) : Prop :=
  (m.load32 (fSize f)).toNat = size ∧ ∀ count offset : Word, offset.toNat < 2147483648 →
    ∃ bytes, reply (fileRead f count offset m) = some (BitVec.ofNat 32 bytes.length, bytes) ∧
      bytes.length = min count.toNat (size - offset.toNat) ∧
      ∀ i < bytes.length, ∀ c, a (offset.toNat + i) = some c → bytes[i]? = some c

-- The contents of `f` are the bytes `a`.
def Contents (m : Memory) (f : Nat) (a : List (BitVec 8)) : Prop := ReadsAs m f a.length (a[·]?)

-- The byte array `a` after `buf` has been stored at `offset`; between its end and `offset` nothing is
-- known.
def stored (a : List (BitVec 8)) (buf : Nat → BitVec 8) (count offset p : Nat) : Option (BitVec 8) :=
  if offset ≤ p ∧ p < offset + count then some (buf (p - offset)) else a[p]?

-- `file_write` is a store to the contents of `f`, and keeps the contents of the other files given.
def WriteRefines (m : Memory) (f : Nat) (buf : Nat → BitVec 8) (count offset : Word)
    (others : Nat → Prop) : Prop :=
  ∃ a cs m', Contents m f a ∧ fileWrite f buf count offset m = .ok (count, cs) m' ∧
    ReadsAs m' f (max a.length (offset.toNat + count.toNat))
      (stored a buf count.toNat offset.toNat) ∧
    ∀ g, others g → g ≠ f → ∃ b, Contents m g b ∧ Contents m' g b

-- A file without holes, and not larger than a file can be.
def Whole (m : Memory) (f : Nat) : Prop :=
  HoleFree m f ∧ (m.load32 (fSize f)).toNat ≤ MAXFILESIZE

variable {m m' m₁ : Memory} {S : Set Nat} {X : Nat → Prop} {f g k n x : Nat}
  {count offset stop size : Word}
  {buf : Nat → BitVec 8} {cs : List Chunk} {a : Nat → Option (BitVec 8)}

section Enough

open Finset

theorem Enough.mono_right {lo hi hi' : Nat} (h : Enough m f lo hi) (hle : hi' ≤ hi) :
    Enough m f lo hi' := by
  refine le_trans (Nat.add_le_add (card_le_card fun k hk => ?_) ?_) h
  · rw [mem_filter, mem_Ico] at hk ⊢
    exact ⟨⟨hk.1.1, by omega⟩, hk.2⟩
  · by_cases hc : NDIRECT < hi' ∧ ptr m f INDIRECT = 0#32
    · rw [if_pos hc, if_pos ⟨by omega, hc.2⟩]
    · rw [if_neg hc]
      exact Nat.zero_le _

-- A file without holes takes no block when it is read.
theorem Whole.enough (h : Whole m f) : Enough m f 0 (blocks (m.load32 (fSize f)).toNat) := by
  have hb := blocks_le (Nat.not_lt.mpr h.2)
  have hz : {k ∈ Ico 0 (blocks (m.load32 (fSize f)).toNat) | ptr m f k = 0#32} = ∅ := by
    refine filter_eq_empty_iff.mpr fun k hk => ?_
    rw [mem_Ico] at hk
    exact h.1 k hk.2 (by omega)
  rw [Enough, missing, hz, card_empty, if_neg]
  · exact Nat.zero_le _
  · rintro ⟨hN, h₀⟩
    have hI : NDIRECT < INDIRECT := by decide
    exact h.1 NDIRECT hN hI (ptr_of_no_indirect le_rfl hI h₀)

end Enough

theorem not_short {p q size : Nat} (he : Enough m f 0 (blocks size)) (hs : size ≤ MAXFILESIZE)
    (hq : q ≤ size) : ¬Short m f p q := by
  rintro (h | h)
  · omega
  · refine h ((he.mono_right ?_).mono (Nat.zero_le _))
    exact Nat.div_le_div_right (by omega)

section Arith

variable (hs : size.toNat ≤ MAXFILESIZE)

include hs

theorem lt_of_not_sle (hoff : offset.toNat < 2147483648) (h : ¬size.sle offset) :
    offset.toNat < size.toNat := by
  have hM : MAXFILESIZE = 1034 * 4096 := by decide
  rw [BitVec.sle_eq_decide, decide_eq_true_iff, BitVec.toInt_eq_toNat_cond,
    BitVec.toInt_eq_toNat_cond] at h
  omega

omit hs in
-- The count of `file_read`.
theorem umin_rest (count : Word) (hlt : offset.toNat < size.toNat) :
    (umin count (size - offset)).toNat = min count.toNat (size.toNat - offset.toNat) := by
  have := size.isLt
  rw [umin_toNat, BitVec.toNat_sub]
  omega

theorem add_umin_rest (count : Word) (hlt : offset.toNat < size.toNat) :
    (offset + umin count (size - offset)).toNat =
      offset.toNat + (umin count (size - offset)).toNat := by
  have hM : MAXFILESIZE = 1034 * 4096 := by decide
  rw [BitVec.toNat_add, umin_rest count hlt]
  omega

end Arith

section Read

variable (o : Owned m S) (ha : Apart m f S) (hf : f ∈ S)
  (hs : (m.load32 (fSize f)).toNat ≤ MAXFILESIZE)
  (he : Enough m f 0 (blocks (m.load32 (fSize f)).toNat))

include o ha hf hs he

-- With enough blocks, `file_read` gives the bytes of the file.
theorem fileRead_total (hoff : offset.toNat < 2147483648) :
    (fileRead f count offset).wp False (fun _ _ => False) (fun r m' => Reads S m f m' ∧
      r.1.toNat = min count.toNat ((m.load32 (fSize f)).toNat - offset.toNat) ∧
      r.2.flatMap Chunk.bytes = content m' f offset.toNat
        (min count.toNat ((m.load32 (fSize f)).toNat - offset.toNat))) m := by
  have hM : MAXFILESIZE = 1034 * 4096 := by decide
  rw [fileRead, Prog.wp_bind, Prog.wp_get, Prog.wp_ite]
  generalize hsz : m.load32 (fSize f) = size at *
  refine ⟨fun h => ?_, fun h => ?_⟩
  · have hn : min count.toNat (size.toNat - offset.toNat) = 0 := by
      rw [BitVec.sle_eq_decide, decide_eq_true_iff, BitVec.toInt_eq_toNat_cond,
        BitVec.toInt_eq_toNat_cond] at h
      omega
    rw [hn]
    exact ⟨.refl o ha, rfl, rfl⟩
  · have hlt := lt_of_not_sle hs hoff h
    have hu := umin_rest count hlt
    have hstop := add_umin_rest hs count hlt
    have hns : ¬Short m f offset.toNat (offset + umin count (size - offset)).toNat :=
      not_short he hs (by omega)
    rw [Prog.wp_bind]
    refine (readLoop_wp o ha hf hoff ?_).mono hns (fun _ _ h => hns h.2) ?_
    · rw [fuel, BitVec.toNat_sub]
      omega
    · rintro cs m' ⟨r, -, hc⟩
      rw [hstop, hu, Nat.add_sub_cancel_left] at hc
      exact ⟨r, hu, hc⟩

-- What is known of the bytes in the blocks that the file has is read.
theorem readsAs (hk : ∀ p < (m.load32 (fSize f)).toNat, ∀ c, a p = some c →
    ptr m f (p / BLKSIZE) ≠ 0#32 ∧ m (byteAddr m f p) = c) :
    ReadsAs m f (m.load32 (fSize f)).toNat a := by
  have hM : MAXFILESIZE = 1034 * 4096 := by decide
  have hI := INDIRECT_eq
  refine ⟨rfl, fun count offset hoff => ?_⟩
  obtain ⟨r, m', hx, hr, hn, hb⟩ := (@fileRead_total m S f count offset o ha hf hs he hoff).exists_ok
  obtain ⟨r, cs⟩ := r
  refine ⟨content m' f offset.toNat
    (min count.toNat ((m.load32 (fSize f)).toNat - offset.toNat)), ?_, content_length,
    fun i hi c hc => ?_⟩
  · rw [hx, reply, hb, content_length, ← hn, BitVec.ofNat_toNat, BitVec.setWidth_eq]
  · rw [content_length] at hi
    have hp := hk (offset.toNat + i) (by omega) c hc
    have hlt : (offset.toNat + i) / BLKSIZE < INDIRECT := by
      rw [hI, BLKSIZE]
      omega
    have h₁ := hr.content_eq (p := offset.toNat + i) (n := 1) hf fun j hj => by
      rw [Nat.lt_one_iff.mp hj]
      exact ⟨hlt, hp.1⟩
    have h₁ : m' (byteAddr m' f (offset.toNat + i)) = m (byteAddr m f (offset.toNat + i)) := by
      simpa [content] using h₁
    rw [content, List.getElem?_map, List.getElem?_range hi, Option.map_some, h₁, hp.2]

end Read

section Whole

variable (h : BlockInv m) (hg : Reach m g) (hd : ¬isDir m g) (hw : Whole m g)

include h hg hd hw

-- The contents of a file without holes.
theorem contents_whole : Contents m g (content m g 0 (m.load32 (fSize g)).toNat) := by
  have hr := readsAs (a := ((content m g 0 (m.load32 (fSize g)).toNat)[·]?)) h.owned
    (h.apart hg hd) hg hw.2 hw.enough ?_
  · rw [Contents, content_length]
    exact hr
  · intro p hp c hc
    rw [content, List.getElem?_map, List.getElem?_range hp, Option.map_some, Nat.zero_add] at hc
    refine ⟨hw.1 _ (lt_blocks hp) ?_, Option.some.inj hc⟩
    exact lt_of_lt_of_le (lt_blocks hp) (blocks_le (Nat.not_lt.mpr hw.2))

end Whole

theorem data_not_own (o : Owned m S) (hg : g ∈ S) (hf : f ∈ S) (hgf : g ≠ f) (hap : Apart m g S)
    (hx : Data m g x) : ¬Own m f x := by
  obtain ⟨k, hk, h₀, hb⟩ := hx
  rintro (⟨k', hk', h₀', hb'⟩ | hs | hb' | hn | hi)
  · exact hgf (o.unique hg hf hk.le hk'.le h₀ (BitVec.eq_of_toNat_eq (hb.eq hb'))).1
  · have := (o.node hf).mem_block
    have := block_disjoint (hap f hf k hk.le h₀)
    simp only [InBlock, InSize, fSize, sizeofFile] at *
    omega
  · have := Nat.mul_le_mul_right BLKSIZE (o.valid hg hk.le h₀).1
    simp only [InBlock] at hb
    omega
  · have := (o.node hf).mem_block
    have := block_disjoint (hap f hf k hk.le h₀)
    simp only [InBlock, fDirect, fIndirect, sizeofFile] at *
    omega
  · have he := hb.eq hi.2
    exact hgf (o.unique hg hf hk.le le_rfl h₀ (BitVec.eq_of_toNat_eq he)).1

-- The operations on a file keep the contents of the others.
theorem Regular.contents (r : Regular m f m') (h : BlockInv m) (hf : Reach m f) (hfd : ¬isDir m f)
    (hg : Reach m g) (hd : ¬isDir m g) (hw : Whole m g) (hgf : g ≠ f) :
    ∃ b, Contents m g b ∧ Contents m' g b := by
  refine ⟨_, contents_whole h hg hd hw, ?_⟩
  have hsz : m'.load32 (fSize g) = m.load32 (fSize g) := by
    refine r.field h hf hfd hg ?_ (.inl hgf)
    simp only [fSize, sizeofFile]
    omega
  have hp := r.ptrs g hg hgf
  have hw' : Whole m' g := by
    rw [Whole, HoleFree, hsz]
    exact ⟨fun k hk hI => hp k hI.le ▸ hw.1 k hk hI, hw.2⟩
  have hap : Apart m' g {f | Reach m f} := fun c hc k hk h₀ => by
    rw [hp k hk] at h₀ ⊢
    exact h.apart hg hd c hc k hk h₀
  have hc := contents_whole (r.blockInv h hf hfd) ((r.reach_iff h hf hfd).mpr hg)
    (fun hx => hd ((r.isDir_iff h hf hfd hg).mp hx)) hw'
  have he : content m' g 0 (m'.load32 (fSize g)).toNat = content m g 0 (m.load32 (fSize g)).toNat := by
    rw [hsz]
    refine List.map_congr_left fun i hi => ?_
    rw [Nat.zero_add]
    have hi := lt_blocks (List.mem_range.mp hi)
    have hI := lt_of_lt_of_le hi (blocks_le (Nat.not_lt.mpr hw.2))
    have hb : byteAddr m' g i = byteAddr m g i := by rw [byteAddr, byteAddr, hp _ hI.le]
    have h₀ := hw.1 _ hi hI
    have hx : Data m g (byteAddr m g i) := ⟨_, hI, h₀, inBlock_byteAddr ..⟩
    have hx' : Data m' g (byteAddr m g i) := hb ▸ ⟨_, hI, hp _ hI.le ▸ h₀, inBlock_byteAddr ..⟩
    rw [hb]
    exact r.bytes _ (data_not_own h.owned hg hf hgf (h.apart hg hd) hx)
      (data_not_own r.owned hg hf hgf hap hx')
  rwa [he] at hc

theorem Covers.ptr_ne {p : Nat} (h : Covers m f p n cs) {i : Nat} (hi : i < n) :
    (p + i) / BLKSIZE < INDIRECT ∧ ptr m f ((p + i) / BLKSIZE) ≠ 0#32 := by
  induction h generalizing i
  case nil => exact absurd hi (Nat.not_lt_zero i)
  case cons p n c cs hk h₀ _ _ hl _ hi' =>
    by_cases hc : i < c.len
    · rw [(add_div_mod hl hc).1]
      exact ⟨hk, h₀⟩
    · have := hi' (i := i - c.len) (by omega)
      rwa [show p + c.len + (i - c.len) = p + i by omega] at this

-- The memory after the size of `f` has been set for a write.
structure Resized (S : Set Nat) (m : Memory) (f : Nat) (stop : Word) (m₁ : Memory) : Prop where
  owned : Owned m₁ S
  apart : Apart m₁ f S
  size  : (m₁.load32 (fSize f)).toNat = max (m.load32 (fSize f)).toNat stop.toNat
  ptrs  : ∀ k ≤ INDIRECT, ptr m₁ f k = ptr m f k
  nblocks : sNblocks m₁ = sNblocks m
  free  : ∀ c, blockIsFree m₁ c = blockIsFree m c
  bytes : ∀ x, ¬InSize f x → m₁ x = m x

theorem resize_wp (o : Owned m S) (ha : Apart m f S) (hf : f ∈ S)
    (hs : (m.load32 (fSize f)).toNat ≤ MAXFILESIZE) (hstop : stop.toNat ≤ MAXFILESIZE) :
    (if m.load32 (fSize f) < stop then fileSetSize f stop else pure () : FsProg Unit).wp False
      (fun _ _ => False) (fun _ m₁ => Resized S m f stop m₁) m := by
  have hM : MAXFILESIZE = 1034 * 4096 := by decide
  rw [Prog.wp_ite]
  refine ⟨fun hlt => ?_, fun hlt => ?_⟩
  · have hslt : ¬stop.slt (m.load32 (fSize f)) := by
      rw [BitVec.slt_eq_decide, decide_eq_true_iff, BitVec.toInt_eq_toNat_cond,
        BitVec.toInt_eq_toNat_cond]
      rw [BitVec.lt_def] at hlt
      omega
    rw [fileSetSize, Prog.wp_bind, Prog.wp_get]
    split
    case isTrue hc => exact absurd hc hslt
    case isFalse =>
      have hso := store_size (v := stop) o hf
      refine ⟨hso.1, apart_store_size o hf ha, ?_, fun k hk => ptr_store_size hk o hf hf, hso.2.1,
        hso.2.2, fun x hx => Memory.store32_of_not_mem ?_⟩
      · rw [Memory.load32_store32_self]
        rw [BitVec.lt_def] at hlt
        omega
      · simp only [InSize] at hx
        omega
  · refine ⟨o, ha, ?_, fun _ _ => rfl, rfl, fun _ => rfl, fun _ _ => rfl⟩
    rw [BitVec.lt_def] at hlt
    omega

-- What `file_write` does to its file, where the disk has enough free blocks.
structure Written (S : Set Nat) (m : Memory) (f : Nat) (buf : Nat → BitVec 8) (offset count : Nat)
    (m' : Memory) : Prop where
  owned  : Owned m' S
  apart  : Apart m' f S
  size   : (m'.load32 (fSize f)).toNat = max (m.load32 (fSize f)).toNat (offset + count)
  enough : Enough m' f 0 (blocks (max (m.load32 (fSize f)).toNat (offset + count)))
  ptrs   : ∀ k ≤ INDIRECT, ptr m f k ≠ 0#32 → ptr m' f k = ptr m f k
  new    : ∀ i < count, (offset + i) / BLKSIZE < INDIRECT ∧ ptr m' f ((offset + i) / BLKSIZE) ≠ 0#32 ∧
    m' (byteAddr m' f (offset + i)) = buf i
  old    : ∀ x, Data m f x → ¬Span m' f offset count x → m' x = m x

-- The size of a file is not in its data.
theorem not_inSize (o : Owned m S) (hf : f ∈ S) (ha : Apart m f S) (hx : Data m f x) :
    ¬InSize f x := fun hs => by
  refine data_not_node o ha hf ?_ ?_ hx <;> simp only [InSize, fSize, sizeofFile] at * <;> omega

theorem Writes.size_eq (w : Writes S X m f m') (hf : f ∈ S) (hX : ∀ x, X x → Data m' f x) :
    m'.load32 (fSize f) = m.load32 (fSize f) :=
  w.grown.size_eq w.owned hf fun x hx hc => not_inSize w.owned hf w.apart (hX x hc) hx

theorem fileWrite_total (o : Owned m S) (ha : Apart m f S) (hf : f ∈ S)
    (hs : (m.load32 (fSize f)).toNat ≤ MAXFILESIZE)
    (hstop : offset.toNat + count.toNat ≤ MAXFILESIZE)
    (he : Enough m f 0 (blocks (max (m.load32 (fSize f)).toNat (offset.toNat + count.toNat)))) :
    (fileWrite f buf count offset).wp False (fun _ _ => False)
      (fun r m' => r.1 = count ∧ Written S m f buf offset.toNat count.toNat m') m := by
  have hM : MAXFILESIZE = 1034 * 4096 := by decide
  have hst : (offset + count).toNat = offset.toNat + count.toNat := by
    rw [BitVec.toNat_add]
    omega
  rw [Prog.wp, fileWrite_eq, ← Prog.wp, Prog.wp_bind]
  refine (resize_wp o ha hf hs (hst ▸ hstop)).mono id (fun _ _ h => h) fun _ m₁ r => ?_
  have hmax : max (m.load32 (fSize f)).toNat (offset.toNat + count.toNat) ≤ MAXFILESIZE := by omega
  have hbl := blocks_le (Nat.not_lt.mpr hmax)
  have he₁ : Enough m₁ f 0 (blocks (max (m.load32 (fSize f)).toNat (offset.toNat + count.toNat))) :=
    (enough_congr r.nblocks r.free r.ptrs hbl).mpr he
  have hns : ¬Short m₁ f offset.toNat (offset + count).toNat :=
    not_short he₁ hmax (hst ▸ le_max_right _ _)
  rw [Prog.wp_bind]
  refine (writeLoop_wp r.owned r.apart hf (by omega) ?_).mono hns (fun _ _ h => hns h.2) ?_
  · rw [fuel, BitVec.toNat_sub]
    omega
  rintro cs m' ⟨w, hc, hbuf, hen⟩
  rw [hst, Nat.add_sub_cancel_left] at w hc hbuf
  refine ⟨rfl, w.owned, w.apart, ?_, ?_, fun k hk h₀ => ?_, fun i hi => ?_, fun x hx hsp => ?_⟩
  · rw [w.size_eq hf fun _ => Span.data, r.size, hst]
  · refine hen 0 _ (Nat.zero_le _) ?_ hbl he₁
    rw [hst]
    exact Nat.div_le_div_right (by omega)
  · rw [w.grown.ptr_eq hf hk (by rwa [r.ptrs k hk]), r.ptrs k hk]
  · exact ⟨(hc.ptr_ne hi).1, (hc.ptr_ne hi).2, hbuf i hi⟩
  · have hx₁ : Data m₁ f x := by
      obtain ⟨k, hk, h₀, hb⟩ := hx
      refine ⟨k, hk, ?_, ?_⟩ <;> rwa [r.ptrs k hk.le]
    rw [w.grown.bytes x (not_table w.owned w.apart hf (w.grown.data hf hx₁)) hsp]
    exact r.bytes x (not_inSize r.owned hf r.apart hx₁)

theorem Written.readsAs (w : Written S m f buf offset.toNat count.toNat m') (hf : f ∈ S)
    (hw : Whole m f) (hstop : offset.toNat + count.toNat ≤ MAXFILESIZE) :
    ReadsAs m' f (max (m.load32 (fSize f)).toNat (offset.toNat + count.toNat))
      (stored (content m f 0 (m.load32 (fSize f)).toNat) buf count.toNat offset.toNat) := by
  have hle := hw.2
  rw [← w.size]
  refine Fs.readsAs w.owned w.apart hf ?_ ?_ fun p hp c hc => ?_
  · rw [w.size]
    omega
  · rw [w.size]
    exact w.enough
  rw [stored] at hc
  split at hc
  case isTrue h =>
    have hn := w.new (p - offset.toNat) (by omega)
    rw [show offset.toNat + (p - offset.toNat) = p by omega] at hn
    exact ⟨hn.2.1, hn.2.2.trans (Option.some.inj hc)⟩
  case isFalse h =>
    have hlt : p < (m.load32 (fSize f)).toNat := by
      have := (List.getElem?_eq_some_iff.mp hc).1
      rwa [content_length] at this
    rw [content, List.getElem?_map, List.getElem?_range hlt, Option.map_some, Nat.zero_add] at hc
    have hI := lt_of_lt_of_le (lt_blocks hlt) (blocks_le (Nat.not_lt.mpr hle))
    have h₀ := hw.1 _ (lt_blocks hlt) hI
    have hp := w.ptrs _ hI.le h₀
    have hb : byteAddr m' f p = byteAddr m f p := by rw [byteAddr, byteAddr, hp]
    refine ⟨hp ▸ h₀, ?_⟩
    rw [hb, w.old _ ⟨_, hI, h₀, inBlock_byteAddr ..⟩, Option.some.inj hc]
    rintro ⟨q, hq₁, hq₂, hqk, -, hq⟩
    rw [← hb] at hq
    have := byteAddr_inj w.owned hf hI hqk (hp ▸ h₀) hq
    omega

-- On files without holes, `file_read` and `file_write` are the operations of a byte array, and they
-- keep the contents of the other files.
theorem write_refines (h : BlockInv m) (hf : Reach m f) (hd : ¬isDir m f) (hw : Whole m f)
    (hstop : offset.toNat + count.toNat ≤ MAXFILESIZE)
    (he : Enough m f 0 (blocks (max (m.load32 (fSize f)).toNat (offset.toNat + count.toNat)))) :
    WriteRefines m f buf count offset fun g => Reach m g ∧ ¬isDir m g ∧ Whole m g := by
  have hM : MAXFILESIZE = 1034 * 4096 := by decide
  have ha := h.apart hf hd
  have ht : (fileWrite f buf count offset).wp False (fun _ _ => False) (fun r m' => r.1 = count ∧
      Written {f | Reach m f} m f buf offset.toNat count.toNat m') m :=
    fileWrite_total h.owned ha hf hw.2 hstop he
  obtain ⟨⟨r, cs⟩, m', hx, hr, w⟩ := ht.exists_ok
  have hreg := (write_regular h hf hd (by omega)).ok hx
  have hr : r = count := hr
  subst hr
  refine ⟨_, cs, m', contents_whole h hf hd hw, hx, ?_, fun g hg hgf => ?_⟩
  · rw [content_length]
    exact w.readsAs hf hw hstop
  · exact hreg.contents h hf hd hg.1 hg.2.1 hg.2.2 hgf

namespace Sample

-- A disk whose root directory has the block 3, with the files `files`. The file `/a` has `n` blocks, from block 4
-- on, and the other files have none.
structure Image (m : Memory) (files : List Nat) (n : Nat) : Prop where
  checked : Checked m
  root    : isDir m sRoot
  block   : nblock m sRoot = 1
  entries : ∀ j < BLKFILES, m (slot m sRoot 0 j) ≠ 0#8 → slot m sRoot 0 j ∈ files
  regular : ∀ f ∈ files, ¬isDir m f
  null    : ∀ f ∈ sRoot :: files, m.load32 (fIndirect f) = 0#32
  rootPtr : ∀ k < NDIRECT, ptr m sRoot k = if k = 0 then 3#32 else 0#32
  filePtr : ∀ f ∈ files, ∀ k < NDIRECT, ptr m f k =
    if f = fileA ∧ k < n then BitVec.ofNat 32 (4 + k) else 0#32
  valid   : ∀ k ≤ n, bitmapEnd m ≤ 3 + k ∧ 3 + k < sNblocks m ∧ blockIsFree m (3 + k) = false

section Image

variable {files : List Nat} {n : Nat} (i : Image m files n)
include i

theorem Image.reach_cases (h : Reach m g) : g = sRoot ∨ g ∈ files := by
  induction h
  case root => exact .inl rfl
  case entry d k j _ hdir hk hj hne ih =>
    rcases ih with rfl | hm
    · have hk₀ : k = 0 := by
        have := hk.1
        rw [i.block] at this
        omega
      subst hk₀
      exact .inr (i.entries j hj hne)
    · exact absurd hdir (i.regular d hm)

theorem Image.lt_direct (h : g ∈ sRoot :: files) (h₀ : ptr m g k ≠ 0#32) : k < NDIRECT := by
  by_contra hge
  rw [Nat.not_lt] at hge
  refine h₀ ?_
  by_cases hI : k < INDIRECT
  · rw [ptr, if_pos ⟨hge, hI, i.null g h⟩]
  · rw [ptr, if_neg (fun hc => hI hc.2.1), ptrAddr, if_neg (by omega), if_neg hI, i.null g h]

theorem Image.ptr_cases (h : Reach m g) (h₀ : ptr m g k ≠ 0#32) :
    (g = sRoot ∧ k = 0 ∧ (ptr m g k).toNat = 3) ∨
      (g = fileA ∧ k < n ∧ (ptr m g k).toNat = 4 + k) := by
  have hN : NDIRECT = 10 := rfl
  rcases i.reach_cases h with rfl | hm
  · have hd := i.rootPtr k (i.lt_direct List.mem_cons_self h₀)
    have hk₀ : k = 0 := by_contra fun hc => h₀ (hd.trans (if_neg hc))
    refine .inl ⟨rfl, hk₀, ?_⟩
    rw [hd, if_pos hk₀]
    rfl
  · have hlt := i.lt_direct (List.mem_cons_of_mem _ hm) h₀
    have hp : g = fileA ∧ k < n := by_contra fun hc => h₀ ((i.filePtr g hm k hlt).trans (if_neg hc))
    refine .inr ⟨hp.1, hp.2, ?_⟩
    rw [i.filePtr g hm k hlt, if_pos hp, BitVec.toNat_ofNat]
    omega

theorem Image.blockInv : BlockInv m where
  checked := i.checked
  valid   := by
    intro f k hf _ h₀
    rcases i.ptr_cases hf h₀ with ⟨-, -, hp⟩ | ⟨-, hk, hp⟩ <;> rw [hp]
    · exact i.valid 0 (Nat.zero_le n)
    · rw [show 4 + k = 3 + (k + 1) by omega]
      exact i.valid (k + 1) hk
  unique  := by
    intro f k f' k' hf hf' _ _ h₀ he
    have hn := congrArg BitVec.toNat he
    rcases i.ptr_cases hf h₀ with ⟨h₁, h₂, hp⟩ | ⟨h₁, h₂, hp⟩ <;>
      rcases i.ptr_cases hf' (he ▸ h₀) with ⟨h₃, h₄, hp'⟩ | ⟨h₃, h₄, hp'⟩
    · exact ⟨h₁.trans h₃.symm, h₂.trans h₄.symm⟩
    · omega
    · omega
    · exact ⟨h₁.trans h₃.symm, by omega⟩

theorem Image.reach_slot {j : Nat} (hj : j < BLKFILES) (hne : m (slot m sRoot 0 j) ≠ 0#8) :
    Reach m (slot m sRoot 0 j) := by
  have hp : ptr m sRoot 0 = 3#32 := i.rootPtr 0 (by decide)
  refine .entry .root i.root ⟨?_, by decide, ?_⟩ hj hne
  · rw [i.block]
    exact Nat.one_pos
  · rw [hp]
    decide

end Image

theorem image_disk : Image disk [fileA] 1 where
  checked := ⟨by decide, by decide⟩
  root    := by
    rw [isDir]
    decide
  block   := by decide
  entries := by decide
  regular := List.forall_mem_singleton.mpr (by rw [isDir]; decide)
  null    := by decide
  rootPtr := by decide
  filePtr := List.forall_mem_singleton.mpr (by decide)
  valid   := by decide

theorem reach_disk (h : Reach disk g) : g = sRoot ∨ g = fileA := by
  simpa using image_disk.reach_cases h

theorem ptr_disk (h : Reach disk g) (h₀ : ptr disk g k ≠ 0#32) :
    k = 0 ∧ (g = sRoot ∧ ptr disk g k = 3#32 ∨ g = fileA ∧ ptr disk g k = 4#32) := by
  rcases image_disk.ptr_cases h h₀ with ⟨hg, hk₀, hp⟩ | ⟨hg, hk₀, hp⟩
  · exact ⟨hk₀, .inl ⟨hg, BitVec.eq_of_toNat_eq hp⟩⟩
  · obtain rfl : k = 0 := by omega
    exact ⟨rfl, .inr ⟨hg, BitVec.eq_of_toNat_eq hp⟩⟩

theorem blockInv_disk : BlockInv disk := image_disk.blockInv

theorem reach_fileA : Reach disk fileA := by
  have h := image_disk.reach_slot (j := 0) (by decide) (by decide)
  rwa [show slot disk sRoot 0 0 = fileA by decide] at h

theorem not_isDir_fileA : ¬isDir disk fileA := image_disk.regular _ (List.mem_singleton_self _)

theorem whole_fileA : Whole disk fileA := by
  refine ⟨fun k hk _ => ?_, by decide⟩
  have hb : blocks (disk.load32 (fSize fileA)).toNat = 1 := by decide
  have hk₀ : k = 0 := by omega
  rw [hk₀]
  decide

theorem enough_fileA : Enough disk fileA 0
    (blocks (max (disk.load32 (fSize fileA)).toNat ((10#32).toNat + (1#32).toNat))) := by
  rw [Enough]
  decide

end Sample

-- One byte is written at the end of the file `/a`.
theorem write_refines_fileA : WriteRefines Sample.disk Sample.fileA (fun _ => 1#8) 1#32 10#32
    fun g => Reach Sample.disk g ∧ ¬isDir Sample.disk g ∧ Whole Sample.disk g :=
  write_refines Sample.blockInv_disk Sample.reach_fileA Sample.not_isDir_fileA Sample.whole_fileA
    (by decide) Sample.enough_fileA

-- The root directory, too, is a file, and it holds the size of `/a`.
theorem not_write_refines : ¬∀ {m f buf} {count offset : Word}, BlockInv m → Reach m f →
    offset.toNat + count.toNat ≤ MAXFILESIZE →
    Enough m f 0 (blocks (max (m.load32 (fSize f)).toNat (offset.toNat + count.toNat))) →
    WriteRefines m f buf count offset (Reach m) := by
  intro h
  obtain ⟨a, cs, m', -, hx, -, hg⟩ := @h Sample.disk Sample.fileA (fun _ => 1#8) 1#32 10#32
    Sample.blockInv_disk Sample.reach_fileA (by decide) Sample.enough_fileA
  obtain ⟨b, h₁, h₂⟩ := hg sRoot .root (by decide)
  have hr₁ : reply (fileRead sRoot 1#32 128#32 Sample.disk) = some (1#32, [10#8]) := by
    decide
  have hw : (fileWrite Sample.fileA (fun _ => 1#8) 1#32 10#32 Sample.disk).okAnd fun _ m' =>
      reply (fileRead sRoot 1#32 128#32 m') = some (1#32, [11#8]) := by
    decide
  rw [hx, Outcome.okAnd, decide_eq_true_iff] at hw
  have hlen : b.length = 4096 := h₁.1.symm.trans (by decide)
  have hb : b[128]? = some (b.get ⟨128, by omega⟩) := List.getElem?_eq_getElem _
  generalize b.get ⟨128, by omega⟩ = c at hb
  -- the same byte is read before and after the write
  have hread {m₁ : Memory} {v : BitVec 8} (hc : Contents m₁ sRoot b)
      (hr : reply (fileRead sRoot 1#32 128#32 m₁) = some (1#32, [v])) : v = c := by
    obtain ⟨bs, he, -, hk⟩ := hc.2 1#32 128#32 (by decide)
    rw [hr, Option.some.injEq, Prod.mk.injEq] at he
    have := hk 0 (by rw [← he.2]; exact Nat.one_pos) c hb
    rw [← he.2] at this
    exact Option.some.inj this
  have := (hread h₁ hr₁).trans (hread h₂ hw).symm
  revert this
  decide

end Fs

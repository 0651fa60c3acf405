import Sisop.Fs.Theorems.Contents
import Sisop.Fs.Theorems.Fresh

namespace Fs

open Inc Library

variable {m m' m₁ : Memory} {S : Set Nat} {X C C' : Nat → Prop} {f g d k b c lo hi n x : Nat}
  {pos stop count offset size : Word} {buf : Nat → BitVec 8}

-- Outside `C`, the bytes in the blocks of `f` are zero.
def ZeroOff (m : Memory) (f : Nat) (C : Nat → Prop) : Prop :=
  ∀ p, p / BLKSIZE < INDIRECT → ptr m f (p / BLKSIZE) ≠ 0#32 → ¬C p → m (byteAddr m f p) = 0#8

section Free

open Finset

-- How many blocks before `b` are free.
def rank (m : Memory) (b : Nat) : Nat := {c ∈ range b | blockIsFree m c}.card

-- The first `n` free blocks are filled with zeros.
def LowZero (m : Memory) (n : Nat) : Prop := ∀ b, blockIsFree m b → rank m b < n → ZeroBlock m b

-- The blocks that `file_get_block` takes for those of `f` from `lo` up to `hi` are filled with zeros.
def ZeroRoom (m : Memory) (f lo hi : Nat) : Prop := LowZero m (missing m f lo hi)

theorem free_not_table (o : Owned m S) (hf : f ∈ S) (hc : blockIsFree m c) (hx : InBlock c x) :
    ¬Table m f x := by
  have he : bitmapEnd m ≤ c := by
    by_contra hlt
    rw [o.checked.reserved c (by omega)] at hc
    cases hc
  have hm := Nat.mul_le_mul_right BLKSIZE he
  have hn := node_free o hf hc
  rintro (h | h | h)
  · simp only [InBlock] at hx
    omega
  · simp only [InBlock, fDirect, fIndirect, sizeofFile] at *
    omega
  · have hv := (o.valid hf le_rfl h.1).2.2
    rw [h.2.eq hx, hc] at hv
    cases hv

theorem free_not_data (o : Owned m S) (hf : f ∈ S) (hc : blockIsFree m c) (hx : InBlock c x) :
    ¬Data m f x := by
  rintro ⟨k, hk, h₀, hb⟩
  have hv := (o.valid hf hk.le h₀).2.2
  rw [hb.eq hx, hc] at hv
  cases hv

-- The block that is taken is filled with zeros, and so are the next ones.
theorem Alloc.lowZero (h : Alloc S m f k b m') (o : Owned m S) (hf : f ∈ S)
    (hz : LowZero m (n + 1)) : ZeroBlock m b ∧ LowZero m' n := by
  constructor
  · refine hz b h.free ?_
    have he : {c ∈ range b | blockIsFree m c} = ∅ := by
      refine filter_eq_empty_iff.mpr fun c hc => ?_
      rw [h.first c (mem_range.mp hc)]
      decide
    rw [rank, he, card_empty]
    exact Nat.succ_pos n
  · intro c hc hr
    obtain ⟨hfree, hne⟩ := (h.isFree c).mp hc
    have hlt : b < c := by
      by_contra hle
      rw [h.first c (by omega)] at hfree
      cases hfree
    have he : {a ∈ range c | blockIsFree m' a} = {a ∈ range c | blockIsFree m a}.erase b := by
      ext a
      rw [mem_erase, mem_filter, mem_filter, h.isFree]
      tauto
    have hb : b ∈ {a ∈ range c | blockIsFree m a} := mem_filter.mpr ⟨mem_range.mpr hlt, h.free⟩
    have hp := card_pos.mpr ⟨b, hb⟩
    rw [rank, he, card_erase_of_mem hb] at hr
    have hzero := hz c hfree (by rw [rank]; omega)
    intro x hx
    rw [h.bytes x (free_not_table (h.owned o) hf hc hx)]
    exact hzero x hx

end Free

theorem Got.ptr_of_ne {j : Nat} (g : Got S m f k m') (hf : f ∈ S) (hj : j < INDIRECT) (hne : j ≠ k) :
    ptr m' f j = ptr m f j := by
  obtain ⟨m₁, h₁, h₂⟩ := g.steps
  have he₁ : ptr m₁ f j = ptr m f j := by
    rcases h₁ with rfl | ⟨-, b, hb⟩
    · rfl
    · rw [hb.ptrs f hf j hj.le, if_neg fun hc => by omega]
  rcases h₂ with rfl | ⟨b, hb⟩
  · exact he₁
  · rw [hb.ptrs f hf j hj.le, if_neg fun hc => hne hc.2, he₁]

section Transfer

variable (o : Owned m S) (hf : f ∈ S) (ha : Apart m f S)

include o hf ha

-- `file_get_block` takes a block that is filled with zeros.
theorem Got.zeroRoom (g : Got S m f k m') (h₁ : lo ≤ k) (h₂ : k < hi) (hhi : hi ≤ INDIRECT)
    (hz : ZeroRoom m f lo hi) :
    ZeroRoom m' f lo hi ∧ (ptr m f k = 0#32 → ZeroBlock m' (ptr m' f k).toNat) := by
  have hne := g.ne
  have hlt := g.lt
  obtain ⟨m₁, hs₁, hs₂⟩ := g.steps
  have h : Owned m₁ S ∧ Apart m₁ f S ∧ ZeroRoom m₁ f lo hi ∧ ptr m₁ f k = ptr m f k := by
    rcases hs₁ with rfl | ⟨hk, b, hb⟩
    · exact ⟨o, ha, hz, rfl⟩
    · refine ⟨hb.owned o, hb.apart o hf ha, ?_, ?_⟩
      · rw [ZeroRoom, hb.missing o hf (.inl ⟨rfl, by omega⟩) hhi] at hz
        exact (hb.lowZero o hf hz).2
      · rw [hb.ptrs f hf k hlt.le, if_neg fun hc => by omega]
  obtain ⟨o₁, ha₁, hz₁, hp₁⟩ := h
  rcases hs₂ with rfl | ⟨b, hb⟩
  · exact ⟨hz₁, fun h₀ => absurd (hp₁.trans h₀) hne⟩
  · rw [ZeroRoom, hb.missing o₁ hf (.inr ⟨h₁, h₂, hlt⟩) hhi] at hz₁
    have hl := hb.lowZero o₁ hf hz₁
    refine ⟨hl.2, fun _ x hx => ?_⟩
    have hd : Data m' f x := ⟨k, hlt, hne, hx⟩
    rw [hb.bytes x (not_table (hb.owned o₁) (hb.apart o₁ hf ha₁) hf hd)]
    refine hl.1 x ?_
    rw [hb.ptrs f hf k hlt.le, if_pos ⟨rfl, rfl⟩, ofNat_toNat o₁.checked hb.lt] at hx
    exact hx

theorem Got.zeroOff (g : Got S m f k m') (h₀ : ZeroOff m f C)
    (hz : ptr m f k = 0#32 → ZeroBlock m' (ptr m' f k).toNat) : ZeroOff m' f C := by
  intro p hp hne hC
  by_cases hm : ptr m f (p / BLKSIZE) = 0#32
  · by_cases hk : p / BLKSIZE = k
    · subst hk
      exact hz hm _ (inBlock_byteAddr ..)
    · rw [g.ptr_of_ne hf hp hk] at hne
      exact absurd hm hne
  · have r := g.reads o hf ha
    have hd : Data m f (byteAddr m f p) := ⟨_, hp, hm, inBlock_byteAddr ..⟩
    rw [r.grown.byteAddr hf hp hm,
      r.grown.bytes _ (not_table r.owned r.apart hf (r.grown.data hf hd)) id]
    exact h₀ p hp hm hC

theorem readLoop_zero (hpos : pos.toNat < 2147483648) (hlo : lo ≤ pos.toNat / BLKSIZE)
    (hz : ZeroRoom m f lo (min (blocks stop.toNat) INDIRECT)) (h₀ : ZeroOff m f C) :
    (readLoop f stop n pos).wp True (fun _ m' => ZeroOff m' f C) (fun _ m' => ZeroOff m' f C) m := by
  induction n generalizing m pos
  case zero => trivial
  case succ n hi =>
    rw [readLoop, Prog.wp_ite]
    refine ⟨fun hlt => ?_, fun _ => h₀⟩
    rw [Prog.wp_bind]
    refine (getBlock_turn o hf hpos hlt).mono (fun _ => trivial) (fun _ _ h => h.1 ▸ h₀) ?_
    rintro blk m₁ ⟨g, -⟩
    have r := g.reads o hf ha
    have hc := chunk_next g.lt hlt
    have hk := lt_min (lt_blocks hlt) g.lt
    have hzr := g.zeroRoom o hf ha hlo hk (min_le_right _ _) hz
    simp only [Prog.wp_bind, Prog.wp_get]
    refine hi r.owned r.apart hc.2.2.2.2 ?_ hzr.1 (g.zeroOff o hf ha h₀ hzr.2)
    exact le_trans hlo (Nat.div_le_div_right (by omega))

theorem writeLoop_zero (hpos : pos.toNat < 2147483648) (hlo : lo ≤ pos.toNat / BLKSIZE)
    (hz : ZeroRoom m f lo (min (blocks stop.toNat) INDIRECT)) (h₀ : ZeroOff m f C)
    (hC : ∀ p, pos.toNat ≤ p → p < stop.toNat → C p) :
    (writeLoop f stop n buf pos).wp True (fun _ m' => ZeroOff m' f C) (fun _ m' => ZeroOff m' f C)
      m := by
  induction n generalizing m pos buf
  case zero => trivial
  case succ n hi =>
    rw [writeLoop, Prog.wp_ite]
    refine ⟨fun hlt => ?_, fun _ => h₀⟩
    rw [Prog.wp_bind]
    refine (getBlock_turn o hf hpos hlt).mono (fun _ => trivial) (fun _ _ h => h.1 ▸ h₀) ?_
    rintro blk m₁ ⟨g, hblk⟩
    have r := g.reads o hf ha
    have hc := chunk_next g.lt hlt
    have hk := lt_min (lt_blocks hlt) g.lt
    have hzr := g.zeroRoom o hf ha hlo hk (min_le_right _ _) hz
    have h₁ := g.zeroOff o hf ha h₀ hzr.2
    simp only [Prog.wp_bind, Prog.wp_get, Prog.wp_modify, hblk]
    have hw := writes_chunk buf r.owned r.apart hf g.lt g.ne hc.2.1
    generalize m₁.write (byteAddr m₁ f pos.toNat) (chunkLen stop pos).toNat buf = m₂ at hw ⊢
    obtain ⟨hw, hp, hfree, -⟩ := hw
    refine hi hw.owned hw.apart hc.2.2.2.2 ?_ ?_ ?_ fun p h₂ h₃ => hC p (by omega) h₃
    · exact le_trans hlo (Nat.div_le_div_right (by omega))
    · rw [ZeroRoom, missing_congr hp (min_le_right _ _)]
      intro c hcf hr x hx
      rw [hw.grown.bytes x (free_not_table hw.owned hf hcf hx)
        fun hs => free_not_data hw.owned hf hcf hx hs.data]
      refine hzr.1 c (hfree c ▸ hcf) ?_ x hx
      simp only [rank, hfree] at hr
      exact hr
    · intro p hpI hne hnC
      have hne₁ : ptr m₁ f (p / BLKSIZE) ≠ 0#32 := hp _ hpI.le ▸ hne
      have hd : Data m₂ f (byteAddr m₂ f p) := ⟨_, hpI, hne, inBlock_byteAddr ..⟩
      rw [hw.grown.bytes _ (not_table hw.owned hw.apart hf hd), hw.grown.byteAddr hf hpI hne₁]
      · exact h₁ p hpI hne₁ hnC
      · rintro ⟨q, hq₁, hq₂, hqk, -, hq⟩
        have := byteAddr_inj hw.owned hf hpI hqk hne hq
        subst this
        exact hnC (hC p hq₁ (by omega))

end Transfer

-- The place at which `file_read` stops.
def readStop (m : Memory) (f : Nat) (count offset : Word) : Word :=
  offset + umin count (m.load32 (fSize f) - offset)

-- What is past `size` in the last block that `file_set_size` keeps is zero.
def TailZero (m : Memory) (f size : Nat) : Prop :=
  ∀ p, size ≤ p → p / BLKSIZE < blocks size → ptr m f (p / BLKSIZE) ≠ 0#32 →
    m (byteAddr m f p) = 0#8

namespace Call

-- The request takes no old data for the contents of a file.
def Zeroed (m : Memory) : Call → Prop
  | .create path           => ∀ d name, Parent m sRoot (pathElems path) d name →
    ∀ s, FirstEmpty m d s → BlankSlot m s
  | .openFile _            => True
  | .read f count offset   => ZeroRoom m f (offset.toNat / BLKSIZE)
    (min (blocks (readStop m f count offset).toNat) INDIRECT)
  | .write f _ count offset => offset.toNat + count.toNat ≤ MAXFILESIZE ∧
    ZeroRoom m f (offset.toNat / BLKSIZE) (min (blocks (offset.toNat + count.toNat)) INDIRECT)
  | .setSize f size        => TailZero m f size.toNat
  | .flush _               => True

-- The bytes that the request covers.
def Touches : Call → Nat → Nat → Prop
  | .write f _ count offset, g, p => g = f ∧ offset.toNat ≤ p ∧ p < offset.toNat + count.toNat
  | _, _, _                       => False

-- The bytes that have been covered by a `file_write` since the size was last at most their position.
def After (c : Call) (m : Memory) (C : Nat → Nat → Prop) (m' : Memory) (g p : Nat) : Prop :=
  (Reach m g ∧ C g p ∨ c.Touches g p) ∧ p < (m'.load32 (fSize g)).toNat

end Call

structure FileInv (m : Memory) (C : Nat → Prop) (g : Nat) : Prop where
  size  : (m.load32 (fSize g)).toNat ≤ MAXFILESIZE
  below : ∀ p, C p → p < (m.load32 (fSize g)).toNat
  zero  : ZeroOff m g C

def FilesInv (m : Memory) (C : Nat → Nat → Prop) : Prop :=
  ∀ g, Reach m g → ¬isDir m g → FileInv m (C g) g

theorem ZeroOff.mono (h : ZeroOff m f C) (hC : ∀ p, C p → C' p) : ZeroOff m f C' :=
  fun p hp hne hn => h p hp hne fun hc => hn (hC p hc)

theorem ZeroOff.congr (h : ZeroOff m g C) (hp : ∀ k ≤ INDIRECT, ptr m' g k = ptr m g k)
    (hb : ∀ x, Data m g x → Data m' g x → m' x = m x) : ZeroOff m' g C := by
  intro p hpI hne hn
  have he := hp _ hpI.le
  have ha : byteAddr m' g p = byteAddr m g p := by rw [byteAddr, byteAddr, he]
  have h₀ : ptr m g (p / BLKSIZE) ≠ 0#32 := he ▸ hne
  rw [ha, hb _ ⟨_, hpI, h₀, inBlock_byteAddr ..⟩ (ha ▸ ⟨_, hpI, hne, inBlock_byteAddr ..⟩)]
  exact h p hpI h₀ hn

section Requests

variable {c : Call} {D : Nat → Nat → Prop} {name path : List (BitVec 8)} {j : Nat}

theorem FileInv.keep (h : FileInv m (D g) g) (hr : Reach m g)
    (hs : m'.load32 (fSize g) = m.load32 (fSize g)) (hp : ∀ k ≤ INDIRECT, ptr m' g k = ptr m g k)
    (hb : ∀ x, Data m g x → Data m' g x → m' x = m x) : FileInv m' (c.After m D m' g) g where
  size  := hs ▸ h.size
  below := fun _ hc => hc.2
  zero  := (h.zero.congr hp hb).mono fun p hc => ⟨.inl ⟨hr, hc⟩, hs ▸ h.below p hc⟩

theorem FilesInv.same (h : FilesInv m D) : FilesInv m (c.After m D m) :=
  fun g hg hd => (h g hg hd).keep hg rfl (fun _ _ => rfl) fun _ _ _ => rfl

theorem Apart.congr (h : Apart m g S) (hp : ∀ k ≤ INDIRECT, ptr m' g k = ptr m g k) :
    Apart m' g S := fun f hf k hk h₀ => by
  rw [hp k hk] at h₀ ⊢
  exact h f hf k hk h₀

theorem Regular.filesInv (r : Regular m f m') (h : BlockInv m) (hf : Reach m f) (hfd : ¬isDir m f)
    (hi : FilesInv m D) (hself : FileInv m' (c.After m D m' f) f) :
    FilesInv m' (c.After m D m') := by
  intro g hg hd
  by_cases hgf : g = f
  · exact hgf ▸ hself
  have hg := (r.reach_iff h hf hfd).mp hg
  have hd : ¬isDir m g := fun hx => hd ((r.isDir_iff h hf hfd hg).mpr hx)
  have hp := r.ptrs g hg hgf
  refine (hi g hg hd).keep hg ?_ hp fun x hx hx' => ?_
  · refine r.field h hf hfd hg ?_ (.inl hgf)
    simp only [fSize, sizeofFile]
    omega
  · exact r.bytes x (data_not_own h.owned hg hf hgf (h.apart hg hd) hx)
      (data_not_own r.owned hg hf hgf ((h.apart hg hd).congr hp) hx')

theorem GrownDir.fileInv (r : GrownDir m d m') (h : BlockInv m) (hd : Reach m d) (hdir : isDir m d)
    (hg : Reach m g) (hgd : ¬isDir m g) (hi : FileInv m (D g) g) :
    FileInv m' (c.After m D m' g) g := by
  have hne : g ≠ d := fun he => hgd (he ▸ hdir)
  have hp := r.ptrs g hg hne
  refine hi.keep hg ?_ hp fun x _ hx' => r.bytes x fun hm => ?_
  · refine r.field hd hg ?_ (.inl hne)
    simp only [fSize, sizeofFile]
    omega
  · exact data_not_own r.owned hg hd hne ((h.apart hg hgd).congr hp) hx' (.inr hm)

theorem GrownDir.filesInv (r : GrownDir m d m') (h : BlockInv m) (hd : Reach m d)
    (hdir : isDir m d) (hi : FilesInv m D) : FilesInv m' (c.After m D m') := by
  intro g hg hgd
  have hg := (r.reach_iff hd).mp hg
  have hgd : ¬isDir m g := fun hx => hgd ((r.isDir_iff hd hg).mpr hx)
  exact r.fileInv h hd hdir hg hgd (hi g hg hgd)

theorem FileInv.self (h : FileInv m (D f) f) (hr : Reach m f)
    (hs : m'.load32 (fSize f) = m.load32 (fSize f)) (hz : ZeroOff m' f (D f)) :
    FileInv m' (c.After m D m' f) f where
  size  := hs ▸ h.size
  below := fun _ hc => hc.2
  zero  := hz.mono fun p hc => ⟨.inl ⟨hr, hc⟩, hs ▸ h.below p hc⟩

-- A file that has been created has no data.
theorem Created.filesInv {m₁ : Memory} (r : Created m d name f m₁ m' k j)
    (hf : ∀ s, FirstEmpty m d s → BlankSlot m s) (h : BlockInv m) (hi : FilesInv m D) :
    FilesInv m' (c.After m D m') := by
  intro g hg hgd
  have hnp := r.noPtrs fun s hs => (hf s hs).noPtrs
  rcases (r.reach_iff hnp).mp hg with hg | rfl
  case inr =>
    have hb := r.blank hf
    have hs : m'.load32 (fSize g) = 0#32 := (r.gains hf).size
    refine ⟨?_, fun _ hc => hc.2, fun p hp hne => ?_⟩
    · rw [hs]
      exact Nat.zero_le _
    · exact absurd (hb.noPtrs.ptr_eq hp.le) hne
  case inl =>
    have hg₁ := (r.before.2 g).mpr hg
    have hgd : ¬isDir m g := fun hx => hgd (((r.gains hf).dirs g).mpr ⟨hg, hx⟩).2
    -- the state before the name is stored
    have hmid : g ≠ d ∧ m₁.load32 (fSize g) = m.load32 (fSize g) ∧
        (∀ k ≤ INDIRECT, ptr m₁ g k = ptr m g k) ∧ ∀ x, Data m₁ g x → m₁ x = m x := by
      have hdir := r.empty.isDir
      rcases r.old with ⟨rfl, -⟩ | ⟨-, q, -⟩
      · exact ⟨fun he => hgd (he ▸ hdir), rfl, fun _ _ => rfl, fun _ _ => rfl⟩
      · have hne : g ≠ d := fun he => hgd (he ▸ (q.isDir_iff r.dir r.dir).mp hdir)
        have hp := q.ptrs g hg hne
        refine ⟨hne, ?_, hp, fun x hx => q.bytes x fun hm => ?_⟩
        · refine q.field r.dir hg ?_ (.inl hne)
          simp only [fSize, sizeofFile]
          omega
        · exact data_not_own q.owned hg r.dir hne ((h.apart hg hgd).congr hp) hx (.inr hm)
    obtain ⟨hne, hs, hp, hb⟩ := hmid
    have hp' : ∀ k ≤ INDIRECT, ptr m' g k = ptr m₁ g k := fun k hk => by
      rw [r.result, r.eq, strcpy_ptr r.empty r.isName hg₁ hk]
    refine (hi g hg hgd).keep hg ?_ (fun k hk => (hp' k hk).trans (hp k hk)) fun x _ hx' => ?_
    · rw [r.result, r.eq, strcpy_size r.empty r.isName hg₁, hs]
    · obtain ⟨l, hl, h₀, hx⟩ := hx'
      rw [hp' l hl.le] at h₀ hx
      have hblock : (ptr m₁ g l).toNat ≠ (ptr m₁ d k).toNat := fun he =>
        hne (r.empty.inv.unique hg₁ r.empty.dir hl.le r.empty.holds.2.1.le h₀
          (BitVec.eq_of_toNat_eq he)).1
      have hdis := block_disjoint hblock
      have hmem := slot_mem (m := m₁) (d := d) (k := k) r.empty.lt
      have hM : MAXNAMELEN ≤ sizeofFile := by decide
      have hxd : Data m₁ g x := ⟨l, hl, h₀, hx⟩
      rw [r.result, r.eq, strcpy_eq r.isName, hb x hxd]
      simp only [InBlock] at hx
      omega

section Transfer

variable (o : Owned m S) (hf : f ∈ S) (ha : Apart m f S)

include o hf ha

theorem fileRead_zero (hs : (m.load32 (fSize f)).toNat ≤ MAXFILESIZE)
    (hpos : offset.toNat < 2147483648) (hz : ZeroRoom m f (offset.toNat / BLKSIZE)
      (min (blocks (readStop m f count offset).toNat) INDIRECT)) (h₀ : ZeroOff m f C) :
    (fileRead f count offset).wp True (fun _ m' => Reads S m f m' ∧ ZeroOff m' f C)
      (fun r m' => Reads S m f m' ∧ ZeroOff m' f C ∧ Fs.Covers m' f offset.toNat r.1.toNat r.2 ∧
        r.2.flatMap Chunk.bytes = content m' f offset.toNat r.1.toNat) m := by
  rw [fileRead, Prog.wp_bind, Prog.wp_get, Prog.wp_ite]
  refine ⟨fun _ => ⟨.refl o ha, h₀, .nil, rfl⟩, fun h => ?_⟩
  rw [readStop] at hz
  generalize m.load32 (fSize f) = size at *
  have hstop := add_umin_rest hs count (lt_of_not_sle hs hpos h)
  rw [Prog.wp_bind]
  refine ((readLoop_wp o ha hf hpos ?_).and (readLoop_zero o hf ha hpos le_rfl hz h₀)).mono
    (fun _ => trivial) (fun _ _ h => ⟨h.1.1, h.2⟩) ?_
  · rw [fuel, BitVec.toNat_sub]
    omega
  · rintro cs m' ⟨⟨r, hc, hb⟩, hz'⟩
    rw [hstop, Nat.add_sub_cancel_left] at hc hb
    exact ⟨r, hz', hc, hb⟩

theorem fileWrite_zero (hs : (m.load32 (fSize f)).toNat ≤ MAXFILESIZE)
    (hstop : offset.toNat + count.toNat ≤ MAXFILESIZE)
    (hz : ZeroRoom m f (offset.toNat / BLKSIZE)
      (min (blocks (offset.toNat + count.toNat)) INDIRECT)) (h₀ : ZeroOff m f C) :
    let Q := fun m' : Memory =>
      (m'.load32 (fSize f)).toNat = max (m.load32 (fSize f)).toNat (offset.toNat + count.toNat) ∧
        ZeroOff m' f fun p => C p ∨ offset.toNat ≤ p ∧ p < offset.toNat + count.toNat
    (fileWrite f buf count offset).wp True (fun _ m' => Q m') (fun _ m' => Q m') m := by
  intro Q
  have hM : MAXFILESIZE = 1034 * 4096 := by decide
  have hst : (offset + count).toNat = offset.toNat + count.toNat := by
    rw [BitVec.toNat_add]
    omega
  rw [Prog.wp, fileWrite_eq, ← Prog.wp, Prog.wp_bind]
  refine (resize_wp o ha hf hs (hst ▸ hstop)).mono (fun _ => trivial) (fun _ _ h => h.elim)
    fun _ m₁ r => ?_
  have h₁ : ZeroOff m₁ f fun p => C p ∨ offset.toNat ≤ p ∧ p < offset.toNat + count.toNat :=
    (h₀.congr r.ptrs fun x hx _ => r.bytes x (not_inSize o hf ha hx)).mono fun _ => .inl
  have hz₁ : ZeroRoom m₁ f (offset.toNat / BLKSIZE)
      (min (blocks (offset + count).toNat) INDIRECT) := by
    rw [hst, ZeroRoom, missing_congr r.ptrs (min_le_right _ _)]
    intro c hc hr x hx
    rw [r.free c] at hc
    rw [r.bytes x fun hsz => ?_]
    · refine hz c hc ?_ x hx
      simp only [rank, r.free] at hr
      exact hr
    · have := node_free o hf hc
      simp only [InBlock, InSize, fSize, sizeofFile] at *
      omega
  rw [Prog.wp_bind]
  refine ((writeLoop_wp r.owned r.apart hf (by omega) ?_).and
    (writeLoop_zero r.owned hf r.apart (by omega) le_rfl hz₁ h₁ ?_)).mono (fun _ => trivial) ?_ ?_
  · rw [fuel, BitVec.toNat_sub]
    omega
  · exact fun p h₂ h₃ => .inr ⟨h₂, hst ▸ h₃⟩
  · rintro _ m' ⟨⟨w, -⟩, hz'⟩
    exact ⟨by rw [w.size_eq hf fun _ => id, r.size, hst], hz'⟩
  · rintro cs m' ⟨⟨w, -⟩, hz'⟩
    exact ⟨by rw [w.size_eq hf fun _ => Span.data, r.size, hst], hz'⟩

omit o hf ha in
theorem blocksFor_toNat {v : Word} (hv : v.toNat ≤ MAXFILESIZE) :
    (blocksFor v).toNat = blocks v.toNat := by
  have hM : MAXFILESIZE = 1034 * 4096 := by decide
  have ha : (v + 4096#32 - 1#32).toNat = v.toNat + 4095 := by
    rw [BitVec.toNat_sub, BitVec.toNat_add]
    simp only [BitVec.toNat_ofNat]
    omega
  rw [blocksFor, sdiv_toNat (by omega), ha]
  rfl

theorem fileSetSize_zero (hs : (m.load32 (fSize f)).toNat ≤ MAXFILESIZE)
    (hn : size.toNat ≤ MAXFILESIZE) (ht : TailZero m f size.toNat) (h₀ : ZeroOff m f C)
    (hb : ∀ p, C p → p < (m.load32 (fSize f)).toNat) :
    (fileSetSize f size).wp False (fun _ _ => False)
      (fun _ m' => m'.load32 (fSize f) = size ∧ ZeroOff m' f fun p => C p ∧ p < size.toNat) m := by
  have hM : MAXFILESIZE = 1034 * 4096 := by decide
  refine (fileSetSize_wp o hf ha).mono id (fun _ _ h => h) ?_
  rintro _ m' ⟨-, -, hsz, m₁, rfl, o₁, hr, hcut⟩
  refine ⟨hsz, fun p hpI hne hnC => ?_⟩
  have hp := ptr_store_size (v := size) hpI.le o₁ hf hf
  have hp₁ := hr.ne_zero hf hpI.le (hp ▸ hne)
  have hne₀ : ptr m f (p / BLKSIZE) ≠ 0#32 := by rwa [← hp₁, ← hp]
  have hd : Data m f (byteAddr m f p) := ⟨_, hpI, hne₀, inBlock_byteAddr ..⟩
  have ha' : byteAddr (m₁.store32 (fSize f) size) f p = byteAddr m f p := by
    rw [byteAddr, byteAddr, hp, hp₁]
  have hx := not_inSize o hf ha hd
  rw [ha', Memory.store32_of_not_mem, hr.bytes _ (not_table o ha hf hd)]
  · by_cases hC : C p
    case neg => exact h₀ p hpI hne₀ hC
    have hle : size.toNat ≤ p := by
      by_contra hlt
      exact hnC ⟨hC, by omega⟩
    have hlt := hb p hC
    by_cases hk : p / BLKSIZE < blocks size.toNat
    · exact ht p hle hk hne₀
    · -- the block has been freed
      have hslt : size.slt (m.load32 (fSize f)) := by
        rw [BitVec.slt_eq_decide, decide_eq_true_iff, BitVec.toInt_eq_toNat_cond,
          BitVec.toInt_eq_toNat_cond]
        omega
      refine absurd ((hcut hslt).1 _ hpI ?_ ?_) hne
      · rw [blocksFor_toNat hn]
        omega
      · rw [blocksFor_toNat hs]
        exact lt_blocks hlt
  · simp only [InSize] at hx
    omega

end Transfer

end Requests

-- No request makes old data appear in a file.
theorem prog_filesInv {s : Server} {c : Call} {D : Nat → Nat → Prop} (h : s.Inv)
    (hv : c.Valid s.files) (hc : c.Clean s.mem) (hz : c.Zeroed s.mem) (hi : FilesInv s.mem D) :
    c.prog.wp True (fun _ m' => FilesInv m' (c.After s.mem D m'))
      (fun _ m' => FilesInv m' (c.After s.mem D m')) s.mem := by
  have hM : MAXFILESIZE = 1034 * 4096 := by decide
  cases c <;> rw [Call.prog, Prog.wp_bind]
  case create path =>
    refine (fileCreate_wp h.blocks hc).mono id ?_ ?_
    · rintro _ m' (rfl | ⟨d, name, -, hd, hdir, -, r, -⟩)
      · exact hi.same
      · exact r.filesInv h.blocks hd hdir hi
    · rintro f m' ⟨d, name, m₁, k, j, hp, r⟩
      exact r.filesInv (hz d name hp) h.blocks hi
  case openFile path =>
    refine (fileOpen_wp h.blocks hc).mono id ?_ ?_
    · rintro _ m' rfl
      exact hi.same
    · rintro f m' ⟨rfl, -⟩
      exact hi.same
  case read f count offset =>
    have hf := h.files f hv.1
    have hpos : offset.toNat < 2147483648 := by
      have := hv.2
      omega
    by_cases hd : isDir s.mem f
    · refine (fileRead_still h.blocks hf hpos (hc hd)).mono id ?_ ?_ <;>
      · rintro _ m' rfl
        exact hi.same
    · have hself {m' : Memory} (r : Reads {f | Reach s.mem f} s.mem f m')
          (hz' : ZeroOff m' f (D f)) :
          FilesInv m' ((Call.read f count offset).After s.mem D m') :=
        r.regular.filesInv h.blocks hf hd hi ((hi f hf hd).self hf
          (r.grown.size_eq r.owned hf fun _ _ => id) hz')
      exact (fileRead_zero h.blocks.owned hf (h.blocks.apart hf hd) (hi f hf hd).size hpos hz
        (hi f hf hd).zero).mono id (fun _ _ r => hself r.1 r.2) fun _ _ r => hself r.1 r.2.1
  case write f buf count offset =>
    have hf := h.files f hv.1
    have hpos : offset.toNat < 2147483648 := by
      have := hv.2
      omega
    have hfi := hi f hf hc
    have hself {m' : Memory} (r : Regular s.mem f m') (hs : (m'.load32 (fSize f)).toNat =
        max (s.mem.load32 (fSize f)).toNat (offset.toNat + count.toNat)) (hz' : ZeroOff m' f fun p =>
          D f p ∨ offset.toNat ≤ p ∧ p < offset.toNat + count.toNat) :
        FilesInv m' ((Call.write f buf count offset).After s.mem D m') := by
      refine r.filesInv h.blocks hf hc hi ⟨?_, fun _ hp => hp.2, hz'.mono fun p hp => ?_⟩
      · have := hfi.size
        have := hz.1
        omega
      · rcases hp with hp | hp
        · have := hfi.below p hp
          exact ⟨.inl ⟨hf, hp⟩, by omega⟩
        · exact ⟨.inr ⟨rfl, hp⟩, by omega⟩
    exact ((write_regular h.blocks hf hc hpos).and (fileWrite_zero h.blocks.owned hf
      (h.blocks.apart hf hc) hfi.size hz.1 hz.2 hfi.zero)).mono (fun _ => trivial)
      (fun _ _ r => hself r.1 r.2.1 r.2.2) fun _ _ r => hself r.1 r.2.1 r.2.2
  case setSize f size =>
    have hf := h.files f hv.1
    have hfi := hi f hf hc
    refine ((setSize_regular h.blocks hf hc).and (fileSetSize_zero h.blocks.owned hf
      (h.blocks.apart hf hc) hfi.size hv.2 hz hfi.zero hfi.below)).mono (fun _ => trivial)
      (fun _ _ h => h.1.elim) ?_
    rintro _ m' ⟨r, hs, hz'⟩
    refine r.1.filesInv h.blocks hf hc hi ⟨?_, fun _ hp => hp.2, hz'.mono fun p hp => ?_⟩
    · rw [hs]
      exact hv.2
    · exact ⟨.inl ⟨hf, hp.1⟩, hs ▸ hp.2⟩
  case flush f =>
    refine (fileFlush_wp h.blocks.owned (h.files f hv)).mono id (fun _ _ h => h.elim) ?_
    rintro _ m' rfl
    exact hi.same

-- The server, with the positions in files that have been covered by a `file_write` since the size was
-- last at most their position.
structure Tracked where
  server : Server
  covered : Nat → Nat → Prop

namespace Tracked

def Step (s : Tracked) (c : Call) (s' : Tracked) : Prop :=
  s.server.Step c s'.server ∧
    ∀ g p, s'.covered g p ↔ c.After s.server.mem s.covered s'.server.mem g p

structure Inv (s : Tracked) : Prop where
  server : s.server.Inv
  files  : FilesInv s.server.mem s.covered

def Guard (s : Tracked) (c : Call) : Prop := c.Clean s.server.mem ∧ c.Zeroed s.server.mem

variable {s s' : Tracked} {c : Call}

theorem Inv.step (h : s.Inv) (hc : s.Guard c) (hs : s.Step c s') : s'.Inv := by
  have hw := prog_filesInv h.server hs.1.1 hc.1 hc.2 h.files
  have he : s'.covered = c.After s.server.mem s.covered s'.server.mem :=
    funext fun g => funext fun p => propext (hs.2 g p)
  refine ⟨h.server.step hc.1 hs.1, ?_⟩
  rw [he]
  rcases hs.1.2 with ⟨e, hx, -⟩ | ⟨fs, hx, -⟩
  · exact hw.error hx
  · exact hw.ok hx

theorem Inv.run {s₀ : Tracked} (h : s₀.Inv) (r : Run Step Guard s₀ s) : s.Inv :=
  r.invariant h fun h hc hs => h.step hc hs

end Tracked

-- In every state of a run whose requests take no old data, a position that has not been covered since
-- the file was last too short for it reads as zero.
theorem holes_zero {s₀ s : Tracked} (h : s₀.Inv) (r : Run Tracked.Step Tracked.Guard s₀ s)
    {f : Nat} (hf : Reach s.server.mem f) (hd : ¬isDir s.server.mem f) {count offset : Word}
    (hoff : offset.toNat < 2147483648) (hz : (Call.read f count offset).Zeroed s.server.mem)
    {n : Word} {cs : List Chunk} {m' : Memory}
    (hx : fileRead f count offset s.server.mem = .ok (n, cs) m') :
    (cs.flatMap Chunk.bytes).length = n.toNat ∧
      ∀ i < n.toNat, ¬s.covered f (offset.toNat + i) → (cs.flatMap Chunk.bytes)[i]? = some 0#8 := by
  have hi := h.run r
  have hfi := hi.files f hf hd
  obtain ⟨-, hz', hc, hb⟩ := (fileRead_zero hi.server.blocks.owned hf
    (hi.server.blocks.apart hf hd) hfi.size hoff hz hfi.zero).ok hx
  have hb : cs.flatMap Chunk.bytes = content m' f offset.toNat n.toNat := hb
  rw [hb]
  refine ⟨content_length, fun i hin hC => ?_⟩
  have hp := hc.ptr_ne hin
  rw [content, List.getElem?_map, List.getElem?_range hin, Option.map_some,
    hz' _ hp.1 hp.2 hC]

namespace Sample

-- The file `/a` has been opened, and all of it counts as written.
def openA : Tracked :=
  ⟨⟨disk, [fileA]⟩, fun g p => p < (disk.load32 (fSize g)).toNat⟩

theorem disk_data {x : Nat} (hx : 16384 ≤ x) : disk x = 0#8 :=
  ofBytes_eq_zero (by decide) hx

theorem data_fileA {p : Nat} (h₀ : ptr disk fileA (p / BLKSIZE) ≠ 0#32) :
    disk (byteAddr disk fileA p) = 0#8 := by
  rcases (ptr_disk reach_fileA h₀).2 with ⟨h, -⟩ | ⟨-, h⟩
  · exact absurd h (by decide)
  · refine disk_data ?_
    rw [byteAddr, h]
    simp only [BLKSIZE, BitVec.toNat_ofNat]
    omega

theorem inv_openA : openA.Inv := by
  refine ⟨⟨blockInv_disk, fun f hf => ?_⟩, fun g hg hd => ?_⟩
  · rw [List.mem_singleton.mp hf]
    exact reach_fileA
  · rcases reach_disk hg with rfl | rfl
    · refine absurd ?_ hd
      show disk.load32 (fType sRoot) = FTYPE_DIR
      decide
    · exact ⟨by decide, fun _ h => h, fun p _ h₀ _ => data_fileA h₀⟩

end Sample

-- The file `/a` is made longer, and a byte past its old end is read.
theorem holes_zero_fileA : ∃ m n cs m', fileRead Sample.fileA 1#32 15#32 m = .ok (n, cs) m' ∧
    (cs.flatMap Chunk.bytes).length = n.toNat ∧ (cs.flatMap Chunk.bytes)[0]? = some 0#8 := by
  have hx : ((Call.setSize Sample.fileA 20#32).prog Sample.disk).okAnd fun fs m =>
      fs = [] && m.load32 (fSize Sample.fileA) = 20#32 && m.load32 (fType Sample.fileA) = FTYPE_REG &&
      missing m Sample.fileA ((15#32).toNat / BLKSIZE)
        (min (blocks (readStop m Sample.fileA 1#32 15#32).toNat) INDIRECT) = 0 &&
      (fileRead Sample.fileA 1#32 15#32 m).okAnd fun r _ => r.1 = 1#32 := by
    decide
  obtain ⟨fs, m, hx, hm⟩ := Outcome.exists_of_okAnd hx
  simp only [Bool.and_eq_true, decide_eq_true_iff] at hm
  obtain ⟨⟨⟨⟨rfl, hsize⟩, htype⟩, hmissing⟩, hread⟩ := hm
  obtain ⟨⟨n, cs⟩, m', hr, hn⟩ := Outcome.exists_of_okAnd hread
  have hn : n = 1#32 := by simpa using hn
  subst hn
  have hs : Tracked.Step Sample.openA (.setSize Sample.fileA 20#32) ⟨⟨m, [Sample.fileA]⟩,
      (Call.setSize Sample.fileA 20#32).After Sample.disk Sample.openA.covered m⟩ :=
    ⟨⟨⟨List.mem_singleton_self _, by decide⟩, .inr ⟨[], hx, rfl⟩⟩, fun _ _ => Iff.rfl⟩
  have hg : Sample.openA.Guard (.setSize Sample.fileA 20#32) :=
    ⟨Sample.not_isDir_fileA, fun p _ _ h₀ => Sample.data_fileA h₀⟩
  have hrun : Run Tracked.Step Tracked.Guard Sample.openA _ := .single hg hs
  have hf := (Sample.inv_openA.run hrun).server.files Sample.fileA (List.mem_singleton_self _)
  have hd : ¬isDir m Sample.fileA := by
    rw [isDir, htype]
    decide
  have hz : (Call.read Sample.fileA 1#32 15#32).Zeroed m := by
    rw [Call.Zeroed, ZeroRoom, hmissing]
    exact fun _ _ h => absurd h (Nat.not_lt_zero _)
  have hl := holes_zero Sample.inv_openA hrun hf hd (by decide) hz hr
  refine ⟨m, _, cs, m', hr, hl.1, hl.2 0 (by decide) ?_⟩
  rintro ⟨⟨-, hc⟩ | hc, -⟩
  · revert hc
    show ¬15 < (Sample.disk.load32 (fSize Sample.fileA)).toNat
    decide
  · exact hc

-- A byte is written to `/a`, the file is made shorter and then as long as before: the byte is back.
theorem not_holes_zero : ¬∀ {s₀ s : Tracked}, s₀.Inv → Run Tracked.Step (fun _ _ => True) s₀ s →
    ∀ {f}, Reach s.server.mem f → ¬isDir s.server.mem f →
    ∀ {count offset n : Word} {cs m'}, offset.toNat < 2147483648 →
      fileRead f count offset s.server.mem = .ok (n, cs) m' →
      ∀ i < n.toNat, ¬s.covered f (offset.toNat + i) →
        (cs.flatMap Chunk.bytes)[i]? = some 0#8 := by
  intro h
  let w : Call := .write Sample.fileA (fun _ => 0x5A#8) 1#32 9#32
  let t₁ : Call := .setSize Sample.fileA 5#32
  let t₂ : Call := .setSize Sample.fileA 10#32
  have hx : (w.prog Sample.disk).okAnd fun fs m₁ =>
      fs = [] && m₁.load32 (fType Sample.fileA) = FTYPE_REG && (t₁.prog m₁).okAnd fun fs m₂ =>
      fs = [] && m₂.load32 (fType Sample.fileA) = FTYPE_REG &&
        m₂.load32 (fSize Sample.fileA) = 5#32 && (t₂.prog m₂).okAnd fun fs m₃ =>
      fs = [] && m₃.load32 (fType Sample.fileA) = FTYPE_REG &&
        (fileRead Sample.fileA 1#32 9#32 m₃).okAnd fun r _ =>
      r.1 = 1#32 && r.2.flatMap Chunk.bytes = [0x5A#8] := by
    decide
  obtain ⟨fs, m₁, hw, hm⟩ := Outcome.exists_of_okAnd hx
  simp only [Bool.and_eq_true, decide_eq_true_iff] at hm
  obtain ⟨⟨rfl, hd₁⟩, hm⟩ := hm
  obtain ⟨fs, m₂, ht₁, hm⟩ := Outcome.exists_of_okAnd hm
  simp only [Bool.and_eq_true, decide_eq_true_iff] at hm
  obtain ⟨⟨⟨rfl, hd₂⟩, hsize⟩, hm⟩ := hm
  obtain ⟨fs, m₃, ht₂, hm⟩ := Outcome.exists_of_okAnd hm
  simp only [Bool.and_eq_true, decide_eq_true_iff] at hm
  obtain ⟨⟨rfl, hd₃⟩, hm⟩ := hm
  obtain ⟨⟨n, cs⟩, m', hr, hm⟩ := Outcome.exists_of_okAnd hm
  simp only [Bool.and_eq_true, decide_eq_true_iff] at hm
  obtain ⟨rfl, hb⟩ := hm
  have hdir {m : Memory} (hm : m.load32 (fType Sample.fileA) = FTYPE_REG) :
      ¬isDir m Sample.fileA := by
    rw [isDir, hm]
    decide
  have hmem : Sample.fileA ∈ [Sample.fileA] := List.mem_singleton_self _
  let s₁ : Tracked := ⟨⟨m₁, [Sample.fileA]⟩, w.After Sample.disk Sample.openA.covered m₁⟩
  let s₂ : Tracked := ⟨⟨m₂, [Sample.fileA]⟩, t₁.After m₁ s₁.covered m₂⟩
  let s₃ : Tracked := ⟨⟨m₃, [Sample.fileA]⟩, t₂.After m₂ s₂.covered m₃⟩
  have h₁ : Tracked.Step Sample.openA w s₁ :=
    ⟨⟨⟨hmem, by decide⟩, .inr ⟨[], hw, rfl⟩⟩, fun _ _ => Iff.rfl⟩
  have h₂ : Tracked.Step s₁ t₁ s₂ := ⟨⟨⟨hmem, by decide⟩, .inr ⟨[], ht₁, rfl⟩⟩, fun _ _ => Iff.rfl⟩
  have h₃ : Tracked.Step s₂ t₂ s₃ := ⟨⟨⟨hmem, by decide⟩, .inr ⟨[], ht₂, rfl⟩⟩, fun _ _ => Iff.rfl⟩
  have hinv : s₃.server.Inv :=
    ((Sample.inv_openA.server.step (c := w) Sample.not_isDir_fileA h₁.1).step
      (c := t₁) (hdir hd₁) h₂.1).step (c := t₂) (hdir hd₂) h₃.1
  have hz := h Sample.inv_openA (.tail (.tail (.single trivial h₁) trivial h₂) trivial h₃)
    (hinv.files _ hmem) (hdir hd₃) (by decide) hr 0 (by decide) ?_
  · rw [hb] at hz
    revert hz
    decide
  · rintro ⟨⟨-, -, hc⟩ | hc, -⟩
    · have hc : 9 < (m₂.load32 (fSize Sample.fileA)).toNat := hc
      rw [hsize] at hc
      revert hc
      decide
    · exact hc

end Fs

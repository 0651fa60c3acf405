import Sisop.Fs.Theorems.Truncate
import Mathlib.Data.Finset.Card
import Mathlib.Order.Interval.Finset.Nat

namespace Fs

open Inc Library

variable {m m' m₁ : Memory} {S : Set Nat} {X Y : Nat → Prop} {f f' k k' b a n x : Nat} {v : Word}

-- The bytes of the blocks of `f`.
def Data (m : Memory) (f x : Nat) : Prop :=
  ∃ k < INDIRECT, ptr m f k ≠ 0#32 ∧ InBlock (ptr m f k).toNat x

-- Some null pointers of `f` have been given free blocks, and the bytes in `X` may have been written.
structure Grown (S : Set Nat) (X : Nat → Prop) (m : Memory) (f : Nat) (m' : Memory) : Prop where
  nblocks : sNblocks m' = sNblocks m
  free    : ∀ c, blockIsFree m' c → blockIsFree m c
  ptrs    : ∀ f' ∈ S, ∀ k ≤ INDIRECT, ptr m' f' k = ptr m f' k ∨ f' = f ∧ ptr m f' k = 0#32
  fresh   : ∀ k ≤ INDIRECT, ptr m f k = 0#32 → ptr m' f k ≠ 0#32 → blockIsFree m (ptr m' f k).toNat
  bytes   : ∀ x, ¬Table m' f x → ¬X x → m' x = m x

namespace Grown

theorem refl (S : Set Nat) (X : Nat → Prop) (m : Memory) (f : Nat) : Grown S X m f m where
  nblocks := rfl
  free    := fun _ h => h
  ptrs    := fun _ _ _ _ => .inl rfl
  fresh   := fun _ _ h h' => absurd h h'
  bytes   := fun _ _ _ => rfl

theorem ptr_eq (h : Grown S X m f m') (hf' : f' ∈ S) (hk : k ≤ INDIRECT)
    (h₀ : ptr m f' k ≠ 0#32) : ptr m' f' k = ptr m f' k :=
  (h.ptrs f' hf' k hk).resolve_right fun hc => h₀ hc.2

theorem table (h : Grown S X m f m') (hf : f ∈ S) (hx : Table m f x) : Table m' f x := by
  rw [Table, bitmapEnd_congr h.nblocks]
  refine hx.imp_right fun hx => hx.imp_right fun hx => ?_
  rw [h.ptr_eq hf le_rfl hx.1]
  exact hx

theorem data (h : Grown S X m f m') (hf : f ∈ S) (hx : Data m f x) : Data m' f x := by
  obtain ⟨k, hk, h₀, hb⟩ := hx
  exact ⟨k, hk, by rwa [h.ptr_eq hf hk.le h₀], by rwa [h.ptr_eq hf hk.le h₀]⟩

theorem trans (h : Grown S X m f m₁) (hf : f ∈ S) (h' : Grown S X m₁ f m') :
    Grown S X m f m' where
  nblocks := h'.nblocks.trans h.nblocks
  free    := fun c hc => h.free c (h'.free c hc)
  ptrs    := by
    intro f' hf' k hk
    rcases h'.ptrs f' hf' k hk with he | he
    · rw [he]
      exact h.ptrs f' hf' k hk
    · rcases h.ptrs f' hf' k hk with he' | he'
      · exact .inr ⟨he.1, he' ▸ he.2⟩
      · exact .inr he'
  fresh   := by
    intro k hk h₀ h₁
    by_cases hm : ptr m₁ f k = 0#32
    · exact h.free _ (h'.fresh k hk hm h₁)
    · rw [h'.ptr_eq hf hk hm]
      exact h.fresh k hk h₀ hm
  bytes   := by
    intro x hx hX
    rw [h'.bytes x hx hX, h.bytes x (fun hc => hx (h'.table hf hc)) hX]

theorem mono (h : Grown S X m f m') (hX : ∀ x, X x → Y x) : Grown S Y m f m' where
  nblocks := h.nblocks
  free    := h.free
  ptrs    := h.ptrs
  fresh   := h.fresh
  bytes   := fun x hx hy => h.bytes x hx fun hc => hy (hX x hc)

-- The size of `f` is not among the bytes that tell which blocks it has.
theorem size_eq (h : Grown S X m f m') (o : Owned m' S) (hf : f ∈ S)
    (hX : ∀ x, InSize f x → ¬X x) : m'.load32 (fSize f) = m.load32 (fSize f) := by
  refine Memory.load32_congr fun x h₁ h₂ => h.bytes x ?_ (hX x ⟨h₁, h₂⟩)
  have hb := (o.node hf).bounds
  rintro (hc | hc | hc)
  · simp only [fSize, sizeofFile] at *
    omega
  · simp only [fSize, fDirect, fIndirect] at *
    omega
  · have h₃ := o.node_indirect hf hf hc.1
    have h₄ := hc.2
    simp only [InBlock, fSize, sizeofFile] at *
    omega

end Grown

theorem Alloc.grown (h : Alloc S m f k b m') (o : Owned m S) (hf : f ∈ S) :
    Grown S X m f m' where
  nblocks := h.nblocks
  free    := fun c hc => ((h.isFree c).mp hc).1
  ptrs    := by
    intro f' hf' k' hk'
    rw [h.ptrs f' hf' k' hk']
    split
    case isTrue hc => exact .inr ⟨hc.1, by rw [hc.1, hc.2, h.null]⟩
    case isFalse => exact .inl rfl
  fresh   := by
    intro k' hk' h₀ h₁
    rw [h.ptrs f hf k' hk'] at h₁ ⊢
    split at h₁
    case isTrue hc =>
      rw [if_pos hc, ofNat_toNat o.checked h.lt]
      exact h.free
    case isFalse => exact absurd h₀ h₁
  bytes   := fun x hx _ => h.bytes x hx

theorem Alloc.apart (h : Alloc S m f k b m') (o : Owned m S) (hf : f ∈ S) (ha : Apart m f S) :
    Apart m' f S := by
  intro f' hf' k' hk' h₀
  rw [h.ptrs f hf k' hk'] at h₀ ⊢
  split at h₀
  case isTrue hc =>
    rw [if_pos hc, ofNat_toNat o.checked h.lt]
    intro he
    have := node_free o hf' h.free
    have := (o.node hf').mem_block
    rw [← he] at this
    simp only [sizeofFile, BLKSIZE] at *
    omega
  case isFalse hc =>
    rw [if_neg hc]
    exact ha f' hf' k' hk' h₀

theorem Got.spec (g : Got S m f k m') (o : Owned m S) (hf : f ∈ S) :
    Owned m' S ∧ Grown S X m f m' ∧ (Apart m f S → Apart m' f S) := by
  obtain ⟨m₁, h₁, h₂⟩ := g.steps
  have hs₁ : Owned m₁ S ∧ Grown S X m f m₁ ∧ (Apart m f S → Apart m₁ f S) := by
    rcases h₁ with rfl | ⟨-, b, hb⟩
    · exact ⟨o, .refl .., id⟩
    · exact ⟨hb.owned o, hb.grown o hf, hb.apart o hf⟩
  rcases h₂ with rfl | ⟨b, hb⟩
  · exact hs₁
  · exact ⟨hb.owned hs₁.1, hs₁.2.1.trans hf (hb.grown hs₁.1 hf),
      fun ha => hb.apart hs₁.1 hf (hs₁.2.2 ha)⟩

section Arith

variable {pos stop : Word}

theorem sdiv_toNat (h : pos.toNat < 2147483648) : (pos.sdiv 4096#32).toNat = pos.toNat / 4096 := by
  have hm : pos.msb = false := by
    rw [BitVec.msb_eq_decide, decide_eq_false_iff_not]
    omega
  rw [BitVec.sdiv_eq, hm, show (4096#32).msb = false by decide]
  simp

theorem srem_toNat (h : pos.toNat < 2147483648) : (pos.srem 4096#32).toNat = pos.toNat % 4096 := by
  have hm : pos.msb = false := by
    rw [BitVec.msb_eq_decide, decide_eq_false_iff_not]
    omega
  rw [BitVec.srem_eq, hm, show (4096#32).msb = false by decide]
  simp

theorem srem_toInt (h : pos.toNat < 2147483648) :
    (pos.srem 4096#32).toInt = ((pos.toNat % 4096 : Nat) : Int) := by
  rw [BitVec.toInt_eq_toNat_of_lt, srem_toNat h]
  rw [srem_toNat h]
  omega

theorem chunkAddr_eq (h : pos.toNat < 2147483648) : chunkAddr b pos = b + pos.toNat % 4096 := by
  rw [chunkAddr, srem_toInt h]
  omega

theorem umin_toNat {a b : Word} : (umin a b).toNat = min a.toNat b.toNat := by
  rw [umin]
  split
  case isTrue h => exact (Nat.min_eq_left h).symm
  case isFalse h =>
    rw [BitVec.le_def] at h
    omega

theorem chunkLen_toNat (h : pos.toNat < 2147483648) (hlt : pos < stop) :
    (chunkLen stop pos).toNat = min (4096 - pos.toNat % 4096) (stop.toNat - pos.toNat) := by
  have h₁ := srem_toNat h
  have h₂ : pos.toNat < stop.toNat := hlt
  have h₃ := stop.isLt
  rw [chunkLen, umin_toNat, BitVec.toNat_sub, BitVec.toNat_sub, h₁]
  simp only [BitVec.toNat_ofNat]
  omega

end Arith

-- The chunks hold the `n` bytes of `f` from `pos` on, one after the other.
inductive Covers (m : Memory) (f : Nat) : Nat → Nat → List Chunk → Prop
  | nil {pos} : Covers m f pos 0 []
  | cons {pos n c cs} : pos / BLKSIZE < INDIRECT → ptr m f (pos / BLKSIZE) ≠ 0#32 →
    c.addr = (ptr m f (pos / BLKSIZE)).toNat * BLKSIZE + pos % BLKSIZE → 0 < c.len →
    c.len ≤ BLKSIZE - pos % BLKSIZE → Covers m f (pos + c.len) n cs → Covers m f pos (c.len + n) (c :: cs)

theorem Covers.grown {pos : Nat} {cs : List Chunk} (h : Covers m f pos n cs)
    (g : Grown S X m f m') (hf : f ∈ S) : Covers m' f pos n cs := by
  induction h
  case nil => exact .nil
  case cons hk h₀ ha hp hl _ hi =>
    have he := g.ptr_eq hf hk.le h₀
    exact .cons hk (he ▸ h₀) (he ▸ ha) hp hl hi

theorem Covers.length {pos : Nat} {cs : List Chunk} (h : Covers m f pos n cs) :
    (cs.map (·.len)).sum = n := by
  induction h
  case nil => rfl
  case cons hi => rw [List.map_cons, List.sum_cons, hi]

section Enough

open Finset

-- How many blocks are free, and how many `file_get_block` takes for the blocks of `f` from `lo` up to
-- `hi`.
def freeCount (m : Memory) : Nat := {b ∈ range (sNblocks m) | blockIsFree m b}.card

def missing (m : Memory) (f lo hi : Nat) : Nat :=
  {k ∈ Ico lo hi | ptr m f k = 0#32}.card +
    if NDIRECT < hi ∧ ptr m f INDIRECT = 0#32 then 1 else 0

def Enough (m : Memory) (f lo hi : Nat) : Prop := missing m f lo hi ≤ freeCount m

variable {lo lo' hi : Nat}

theorem Enough.mono (h : Enough m f lo hi) (hlo : lo ≤ lo') : Enough m f lo' hi := by
  refine le_trans (Nat.add_le_add_right (card_le_card fun k hk => ?_) _) h
  rw [mem_filter, mem_Ico] at hk ⊢
  exact ⟨⟨by omega, hk.1.2⟩, hk.2⟩

theorem missing_congr (hp : ∀ k ≤ INDIRECT, ptr m' f k = ptr m f k) (hhi : hi ≤ INDIRECT) :
    missing m' f lo hi = missing m f lo hi := by
  have hs : {j ∈ Ico lo hi | ptr m' f j = 0#32} = {j ∈ Ico lo hi | ptr m f j = 0#32} := by
    refine filter_congr fun j hj => ?_
    rw [mem_Ico] at hj
    rw [hp j (by omega)]
  rw [missing, missing, hs, hp INDIRECT le_rfl]

theorem enough_congr (hn : sNblocks m' = sNblocks m) (hfree : ∀ c, blockIsFree m' c = blockIsFree m c)
    (hp : ∀ k ≤ INDIRECT, ptr m' f k = ptr m f k) (hhi : hi ≤ INDIRECT) :
    Enough m' f lo hi ↔ Enough m f lo hi := by
  rw [Enough, Enough, missing_congr hp hhi, freeCount, freeCount, hn]
  simp only [hfree]

theorem Enough.room (h : Enough m f lo hi) (h₁ : lo ≤ k) (h₂ : k < hi) : Room m f k := by
  by_cases h₀ : ptr m f k = 0#32
  case neg => exact .inl h₀
  have hk : 0 < {k ∈ Ico lo hi | ptr m f k = 0#32}.card :=
    card_pos.mpr ⟨k, mem_filter.mpr ⟨mem_Ico.mpr ⟨h₁, h₂⟩, h₀⟩⟩
  rw [Enough, missing] at h
  have hfree : ∃ b, blockIsFree m b := by
    have hc : 0 < freeCount m := by omega
    obtain ⟨b, hb⟩ := card_pos.mp hc
    exact ⟨b, (mem_filter.mp hb).2⟩
  obtain ⟨b, hb⟩ := hfree
  refine .inr ⟨b, hb, fun hn hi₀ => ?_⟩
  rw [if_pos ⟨by omega, hi₀⟩] at h
  have hc : 1 < freeCount m := by omega
  obtain ⟨c, hc, hne⟩ := exists_mem_ne hc b
  exact ⟨c, (mem_filter.mp hc).2, hne⟩

theorem Alloc.freeCount (h : Alloc S m f k b m') : freeCount m = freeCount m' + 1 := by
  have he : {c ∈ range (sNblocks m') | blockIsFree m' c} =
      {c ∈ range (sNblocks m) | blockIsFree m c}.erase b := by
    ext c
    rw [mem_erase, mem_filter, mem_filter, h.nblocks, h.isFree]
    tauto
  have hb : b ∈ {c ∈ range (sNblocks m) | blockIsFree m c} :=
    mem_filter.mpr ⟨mem_range.mpr h.lt, h.free⟩
  have hp := card_pos.mpr ⟨b, hb⟩
  rw [Fs.freeCount, Fs.freeCount, he, card_erase_of_mem hb]
  omega

theorem Alloc.missing (h : Alloc S m f k b m') (o : Owned m S) (hf : f ∈ S)
    (hk : k = INDIRECT ∧ NDIRECT < hi ∨ lo ≤ k ∧ k < hi ∧ k < INDIRECT) (hhi : hi ≤ INDIRECT) :
    missing m f lo hi = missing m' f lo hi + 1 := by
  have hn : ptr m' f k ≠ 0#32 := by
    rw [h.ptrs f hf k (by omega), if_pos ⟨rfl, rfl⟩]
    exact ofNat_ne_zero o.checked h.free
  have hsame {j : Nat} (hj : j ≤ INDIRECT) (hne : j ≠ k) : ptr m' f j = ptr m f j := by
    rw [h.ptrs f hf j hj, if_neg fun hc => hne hc.2]
  rw [Fs.missing, Fs.missing]
  rcases hk with hk | hk
  · have hs : {j ∈ Ico lo hi | ptr m' f j = 0#32} = {j ∈ Ico lo hi | ptr m f j = 0#32} := by
      refine filter_congr fun j hj => ?_
      rw [mem_Ico] at hj
      rw [hsame (by omega) (by omega)]
    rw [hk.1] at hn
    have h₀ := h.null
    rw [hk.1] at h₀
    rw [if_pos ⟨hk.2, h₀⟩, hs, if_neg fun hc => hn hc.2]
  · have hs : {j ∈ Ico lo hi | ptr m' f j = 0#32} = {j ∈ Ico lo hi | ptr m f j = 0#32}.erase k := by
      ext j
      rw [mem_erase, mem_filter, mem_filter, mem_Ico]
      by_cases hj : j = k
      · subst hj
        simp [hn]
      · by_cases hj' : j < hi
        · rw [hsame (by omega) hj]
          tauto
        · tauto
    have hm : k ∈ {j ∈ Ico lo hi | ptr m f j = 0#32} :=
      mem_filter.mpr ⟨mem_Ico.mpr ⟨hk.1, hk.2.1⟩, h.null⟩
    have hp := card_pos.mpr ⟨k, hm⟩
    rw [hs, card_erase_of_mem hm, hsame le_rfl (by omega)]
    omega

theorem Alloc.enough (h : Alloc S m f k b m') (o : Owned m S) (hf : f ∈ S)
    (hk : k = INDIRECT ∧ NDIRECT < hi ∨ lo ≤ k ∧ k < hi ∧ k < INDIRECT)
    (hhi : hi ≤ INDIRECT) (he : Enough m f lo hi) : Enough m' f lo hi := by
  have hcount := h.freeCount
  have hmissing := h.missing o hf hk hhi
  rw [Enough] at *
  omega

theorem Got.enough (g : Got S m f k m') (o : Owned m S) (hf : f ∈ S) (h₁ : lo ≤ k) (h₂ : k < hi)
    (hhi : hi ≤ INDIRECT) (he : Enough m f lo hi) : Enough m' f lo hi := by
  obtain ⟨m₁, hs₁, hs₂⟩ := g.steps
  have h : Owned m₁ S ∧ Enough m₁ f lo hi := by
    rcases hs₁ with rfl | ⟨hk, b, hb⟩
    · exact ⟨o, he⟩
    · exact ⟨hb.owned o, hb.enough o hf (.inl ⟨rfl, by omega⟩) hhi he⟩
  rcases hs₂ with rfl | ⟨b, hb⟩
  · exact h.2
  · exact hb.enough h.1 hf (.inr ⟨h₁, h₂, g.lt⟩) hhi h.2

end Enough

section Bytes

-- Where the byte `p` of a file is.
def byteAddr (m : Memory) (f p : Nat) : Nat :=
  (ptr m f (p / BLKSIZE)).toNat * BLKSIZE + p % BLKSIZE

-- The bytes of the blocks of `f` that hold its `n` bytes from `pos` on.
def Span (m : Memory) (f pos n x : Nat) : Prop :=
  ∃ q, pos ≤ q ∧ q < pos + n ∧ q / BLKSIZE < INDIRECT ∧ ptr m f (q / BLKSIZE) ≠ 0#32 ∧
    x = byteAddr m f q

theorem inBlock_byteAddr (m : Memory) (f p : Nat) :
    InBlock (ptr m f (p / BLKSIZE)).toNat (byteAddr m f p) := by
  simp only [InBlock, byteAddr, BLKSIZE]
  omega

theorem byteAddr_add_le {p : Nat} (h : n ≤ BLKSIZE - p % BLKSIZE) :
    byteAddr m f p + n ≤ (ptr m f (p / BLKSIZE)).toNat * BLKSIZE + BLKSIZE := by
  simp only [byteAddr, BLKSIZE] at *
  omega

theorem add_div_mod {p i : Nat} (h : n ≤ BLKSIZE - p % BLKSIZE) (hi : i < n) :
    (p + i) / BLKSIZE = p / BLKSIZE ∧ (p + i) % BLKSIZE = p % BLKSIZE + i := by
  simp only [BLKSIZE] at *
  omega

theorem Span.data (h : Span m f k n x) : Data m f x := by
  obtain ⟨q, -, -, hk, h₀, rfl⟩ := h
  exact ⟨_, hk, h₀, inBlock_byteAddr m f q⟩

theorem InBlock.eq (h : InBlock a x) (h' : InBlock b x) : a = b := by
  simp only [InBlock, BLKSIZE] at *
  omega

-- The data of a file is not among the bytes that describe files.
theorem not_table (o : Owned m S) (ha : Apart m f S) (hf : f ∈ S) (h : Data m f x) :
    ¬Table m f x := by
  obtain ⟨k, hk, h₀, hb⟩ := h
  have hv := o.valid hf hk.le h₀
  have hm := Nat.mul_le_mul_right BLKSIZE hv.1
  have hn := ha f hf k hk.le h₀
  have hmem := (o.node hf).mem_block
  have hd := block_disjoint hn
  rintro (h | h | h)
  · simp only [InBlock] at hb
    omega
  · simp only [InBlock, fDirect, fIndirect, sizeofFile] at *
    omega
  · have he := hb.eq h.2
    have := (o.unique hf hf hk.le le_rfl h₀ (BitVec.eq_of_toNat_eq he)).2
    omega

theorem byteAddr_inj {p q : Nat} (o : Owned m S) (hf : f ∈ S) (hp : p / BLKSIZE < INDIRECT)
    (hq : q / BLKSIZE < INDIRECT) (h₀ : ptr m f (p / BLKSIZE) ≠ 0#32)
    (h : byteAddr m f p = byteAddr m f q) : p = q := by
  have hx := inBlock_byteAddr m f q
  rw [← h] at hx
  have hb := (inBlock_byteAddr m f p).eq hx
  have he := (o.unique hf hf hp.le hq.le h₀ (BitVec.eq_of_toNat_eq hb)).2
  rw [byteAddr, byteAddr, hb] at h
  simp only [BLKSIZE] at *
  omega

theorem Grown.byteAddr {p : Nat} (g : Grown S X m f m') (hf' : f' ∈ S) (hp : p / BLKSIZE < INDIRECT)
    (h₀ : ptr m f' (p / BLKSIZE) ≠ 0#32) : byteAddr m' f' p = byteAddr m f' p := by
  rw [Fs.byteAddr, Fs.byteAddr, g.ptr_eq hf' hp.le h₀]

theorem Grown.span (g : Grown S X m f m') (hf : f ∈ S) (h : Span m f k n x) : Span m' f k n x := by
  obtain ⟨q, h₁, h₂, hk, h₀, rfl⟩ := h
  exact ⟨q, h₁, h₂, hk, by rwa [g.ptr_eq hf hk.le h₀], (g.byteAddr hf hk h₀).symm⟩

-- A store to data changes no pointer.
theorem ptr_write_data {src : Nat → BitVec 8} (o : Owned m S) (ha : Apart m f S) (hf : f ∈ S)
    (hf' : f' ∈ S) (hk : k < INDIRECT) (h₀ : ptr m f k ≠ 0#32)
    (h₁ : (ptr m f k).toNat * BLKSIZE ≤ a) (h₂ : a + n ≤ (ptr m f k).toNat * BLKSIZE + BLKSIZE)
    (hk' : k' ≤ INDIRECT) : ptr (m.write a n src) f' k' = ptr m f' k' := by
  refine ptr_congr hk' (Memory.agreeOn_write ?_) fun hi => Memory.agreeOn_write ?_
  · have := (o.node hf').mem_block
    have := block_disjoint (ha f' hf' k hk.le h₀)
    omega
  · have hne : (ptr m f k).toNat ≠ (ptr m f' INDIRECT).toNat := fun he => by
      have := (o.unique hf hf' hk.le le_rfl h₀ (BitVec.eq_of_toNat_eq he)).2
      omega
    have := block_disjoint hne
    omega

-- One `memmove` into the block of the pointer `pos / BLKSIZE`.
theorem write_data {pos : Nat} (src : Nat → BitVec 8) (o : Owned m S) (ha : Apart m f S) (hf : f ∈ S)
    (hk : pos / BLKSIZE < INDIRECT) (h₀ : ptr m f (pos / BLKSIZE) ≠ 0#32)
    (hn : n ≤ BLKSIZE - pos % BLKSIZE) :
    let m' := m.write (byteAddr m f pos) n src
    Owned m' S ∧ Apart m' f S ∧ Grown S (Span m' f pos n) m f m' ∧
      (∀ f' ∈ S, ∀ k' ≤ INDIRECT, ptr m' f' k' = ptr m f' k') ∧
      (∀ c, blockIsFree m' c = blockIsFree m c) ∧
      ∀ i < n, m' (byteAddr m' f (pos + i)) = src i := by
  intro m'
  have hlow : (ptr m f (pos / BLKSIZE)).toNat * BLKSIZE ≤ byteAddr m f pos := Nat.le_add_right _ _
  have hhigh := byteAddr_add_le (m := m) (f := f) hn
  have hp : ∀ f' ∈ S, ∀ k' ≤ INDIRECT, ptr m' f' k' = ptr m f' k' := fun f' hf' k' hk' =>
    ptr_write_data o ha hf hf' hk h₀ hlow hhigh hk'
  have hr : bitmapEnd m * BLKSIZE ≤ byteAddr m f pos ∨
      super + 8 ≤ byteAddr m f pos ∧ byteAddr m f pos + n ≤ bitmap := by
    have := Nat.mul_le_mul_right BLKSIZE (o.valid hf hk.le h₀).1
    omega
  have hsn : sNblocks m' = sNblocks m := sNblocks_write hr
  have hsf (c : Nat) : blockIsFree m' c = blockIsFree m c := blockIsFree_write hr
  have hq {i : Nat} (hi : i < n) : (pos + i) / BLKSIZE = pos / BLKSIZE ∧
      byteAddr m' f (pos + i) = byteAddr m f pos + i := by
    have hd := add_div_mod hn hi
    refine ⟨hd.1, ?_⟩
    rw [byteAddr, byteAddr, hd.1, hd.2, hp f hf _ hk.le, Nat.add_assoc]
  refine ⟨o.congr hsn (fun c h => hsf c ▸ h) hp, ?_, ?_, hp, hsf, ?_⟩
  · intro f' hf' k' hk' h
    rw [hp f hf k' hk'] at h ⊢
    exact ha f' hf' k' hk' h
  · constructor
    case nblocks => exact hsn
    case free => exact fun c h => hsf c ▸ h
    case ptrs => exact fun f' hf' k' hk' => .inl (hp f' hf' k' hk')
    case fresh => exact fun k' hk' h h' => absurd (hp f hf k' hk' ▸ h) h'
    case bytes =>
      intro x _ hX
      refine Memory.write_of_not_mem ?_
      by_contra hc
      obtain ⟨i, rfl⟩ := Nat.le.dest (show byteAddr m f pos ≤ x by omega)
      have hi := hq (show i < n by omega)
      refine hX ⟨pos + i, by omega, by omega, hi.1 ▸ hk, ?_, hi.2.symm⟩
      rw [hi.1, hp f hf _ hk.le]
      exact h₀
  · intro i hi
    rw [(hq hi).2]
    refine (Memory.write_of_mem (by omega) (by omega)).trans ?_
    rw [Nat.add_sub_cancel_left]

end Bytes

end Fs

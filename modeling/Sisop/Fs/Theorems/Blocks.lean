import Sisop.Fs.Fs
import Mathlib.Data.Set.Basic

namespace Fs

open Inc Library

-- The first block after the bitmap.
def bitmapEnd (m : Memory) : Nat := 2 + (sNblocks m + BLKBITSIZE - 1) / BLKBITSIZE

-- What `check_super` and `check_bitmap` make sure of when the server starts.
structure Checked (m : Memory) : Prop where
  nblocks_le : sNblocks m ≤ 0xC0000
  reserved   : ∀ b < bitmapEnd m, blockIsFree m b = false

-- The number under which `f_indirect` goes as a pointer of its file; the numbers below are those of
-- the blocks of the file.
def INDIRECT : Nat := NDIRECT + NINDIRECT

-- Where the pointer `k` of a file is stored.
def ptrAddr (m : Memory) (f : Nat) (k : Nat) : Nat :=
  if k < NDIRECT then fDirect f k
  else if k < INDIRECT then (m.load32 (fIndirect f)).toNat * BLKSIZE + 4 * (k - NDIRECT)
  else (fIndirect f)

-- The pointer `k` of a file; without an indirect block, the pointers in it are null.
def ptr (m : Memory) (f : Nat) (k : Nat) : Word :=
  if NDIRECT ≤ k ∧ k < INDIRECT ∧ m.load32 (fIndirect f) = 0#32 then 0#32
  else m.load32 (ptrAddr m f k)

-- The block that holds a `struct File`.
def nodeBlock (f : Nat) : Nat := f / BLKSIZE

-- The places of a `struct File`: the super block and the blocks of directories.
def NodePlace (m : Memory) (f : Nat) : Prop :=
  f = sRoot ∨ f % sizeofFile = 0 ∧ bitmapEnd m ≤ nodeBlock f ∧ nodeBlock f < sNblocks m ∧
    blockIsFree m (nodeBlock f) = false

-- The files of `S` own their blocks: what their pointers say is past the bitmap, on the disk, in use,
-- and said by no other of their pointers.
structure Owned (m : Memory) (S : Set Nat) : Prop where
  checked  : Checked m
  node     : ∀ {f}, f ∈ S → NodePlace m f
  valid    : ∀ {f k}, f ∈ S → k ≤ INDIRECT → ptr m f k ≠ 0#32 →
    bitmapEnd m ≤ (ptr m f k).toNat ∧ (ptr m f k).toNat < sNblocks m ∧
      blockIsFree m (ptr m f k).toNat = false
  unique   : ∀ {f k f' k'}, f ∈ S → f' ∈ S → k ≤ INDIRECT → k' ≤ INDIRECT → ptr m f k ≠ 0#32 →
    ptr m f k = ptr m f' k' → f = f' ∧ k = k'
  indirect : ∀ {f f'}, f ∈ S → f' ∈ S → ptr m f INDIRECT ≠ 0#32 →
    (ptr m f INDIRECT).toNat ≠ nodeBlock f'

-- No block of `f` holds a `struct File` of `S`.
def Apart (m : Memory) (f : Nat) (S : Set Nat) : Prop :=
  ∀ f' ∈ S, ∀ k ≤ INDIRECT, ptr m f k ≠ 0#32 → (ptr m f k).toNat ≠ nodeBlock f'

section Bits

variable {w : Word} {i j : Nat}

theorem and_mask (hi : i < 32) : (w &&& 1#32 <<< i ≠ 0#32) ↔ w.getLsbD i := by
  constructor
  case mp =>
    intro h
    by_contra hw
    apply h
    apply BitVec.eq_of_getLsbD_eq
    intro j hj
    simp only [BitVec.getLsbD_and, BitVec.getLsbD_shiftLeft, BitVec.getLsbD_one,
      BitVec.getLsbD_zero]
    by_cases hji : j = i
    · subst hji
      simp [hw]
    · have : ¬(¬j < i ∧ j - i = 0) := by omega
      grind
  case mpr =>
    intro h h₀
    have := congrArg (BitVec.getLsbD · i) h₀
    rw [BitVec.getLsbD_eq_getElem hi] at h
    simp [h, hi] at this

theorem getLsbD_clear (hj : j < 32) :
    (w &&& ~~~(1#32 <<< i)).getLsbD j = (w.getLsbD j && j ≠ i) := by
  simp only [BitVec.getLsbD_and, BitVec.getLsbD_not, BitVec.getLsbD_shiftLeft, BitVec.getLsbD_one]
  grind

theorem getLsbD_set (hj : j < 32) :
    (w ||| 1#32 <<< i).getLsbD j = (w.getLsbD j || j = i) := by
  simp only [BitVec.getLsbD_or, BitVec.getLsbD_shiftLeft, BitVec.getLsbD_one]
  grind

end Bits

section Bitmap

variable {m m' : Memory} {b c i : Nat} {v : Word}

theorem blockIsFree_iff : blockIsFree m b ↔
    b < sNblocks m ∧ (m.load32 (bitmapWord b)).getLsbD (b % 32) := by
  rw [blockIsFree, Bool.and_eq_true, decide_eq_true_iff, bne_iff_ne, bitmapMask,
    and_mask (Nat.mod_lt _ (by decide))]

theorem bitmapWord_eq : bitmapWord b = 8192 + 4 * (b / 32) := by
  simp only [bitmapWord, bitmap, BLKSIZE]

theorem bitmapEnd_eq : bitmapEnd m = 2 + (sNblocks m + 32767) / 32768 := by
  simp only [bitmapEnd, BLKBITSIZE, BLKSIZE]
  omega

theorem bitmapWord_lt (h : b < sNblocks m) : bitmapWord b + 4 ≤ bitmapEnd m * BLKSIZE := by
  rw [bitmapWord_eq, bitmapEnd_eq, BLKSIZE]
  omega

theorem le_bitmapWord (b : Nat) : bitmap ≤ bitmapWord b := Nat.le_add_right _ _

theorem sNblocks_congr (h : Memory.AgreeOn 4100 4 m m') : sNblocks m' = sNblocks m := by
  rw [sNblocks, sNblocks, show super + 4 = 4100 by rfl, Memory.load32_congr h]

theorem bitmapEnd_congr (h : sNblocks m' = sNblocks m) : bitmapEnd m' = bitmapEnd m := by
  rw [bitmapEnd, bitmapEnd, h]

-- The bitmap after the block `b` has been marked as in use.
def takeBlock (m : Memory) (b : Nat) : Memory :=
  m.store32 (bitmapWord b) (m.load32 (bitmapWord b) &&& ~~~bitmapMask b)

-- The bitmap after the block `b` has been marked as free.
def releaseBlock (m : Memory) (b : Nat) : Memory :=
  m.store32 (bitmapWord b) (m.load32 (bitmapWord b) ||| bitmapMask b)

theorem take_of_not_mem {x : Nat} (h : x < bitmapWord b ∨ bitmapWord b + 4 ≤ x) :
    takeBlock m b x = m x := Memory.store32_of_not_mem h

theorem release_of_not_mem {x : Nat} (h : x < bitmapWord b ∨ bitmapWord b + 4 ≤ x) :
    releaseBlock m b x = m x := Memory.store32_of_not_mem h

@[simp] theorem sNblocks_take : sNblocks (takeBlock m b) = sNblocks m :=
  sNblocks_congr fun _ _ _ => take_of_not_mem (by rw [bitmapWord_eq]; omega)

@[simp] theorem sNblocks_release : sNblocks (releaseBlock m b) = sNblocks m :=
  sNblocks_congr fun _ _ _ => release_of_not_mem (by rw [bitmapWord_eq]; omega)

theorem blockIsFree_congr (hn : sNblocks m' = sNblocks m)
    (h : Memory.AgreeOn bitmap ((bitmapEnd m - 2) * BLKSIZE) m m') :
    blockIsFree m' c = blockIsFree m c := by
  rw [Bool.eq_iff_iff, blockIsFree_iff, blockIsFree_iff, hn]
  refine and_congr_right fun hc => ?_
  have hw := bitmapWord_lt hc
  have hb := le_bitmapWord c
  have he : bitmapEnd m * BLKSIZE = bitmap + (bitmapEnd m - 2) * BLKSIZE := by
    rw [bitmap, ← Nat.add_mul, bitmapEnd, Nat.add_sub_cancel_left]
  rw [Memory.load32_congr (h.mono hb (he ▸ hw))]

theorem blockIsFree_take : blockIsFree (takeBlock m b) c ↔ blockIsFree m c ∧ c ≠ b := by
  rw [blockIsFree_iff, blockIsFree_iff, sNblocks_take, and_assoc]
  refine and_congr_right fun _ => ?_
  by_cases h : bitmapWord c = bitmapWord b
  · rw [takeBlock, h, Memory.load32_store32_self, bitmapMask,
      getLsbD_clear (Nat.mod_lt _ (by decide)), Bool.and_eq_true,
      decide_eq_true_iff]
    refine and_congr_right fun _ => not_congr ?_
    simp only [bitmapWord_eq] at h
    omega
  · have : c ≠ b := fun hc => h (congrArg bitmapWord hc)
    rw [takeBlock, Memory.load32_store32]
    · simp [this]
    · simp only [bitmapWord_eq] at h ⊢
      omega

theorem blockIsFree_release (hb : b < sNblocks m) :
    blockIsFree (releaseBlock m b) c ↔ blockIsFree m c ∨ c = b := by
  rw [blockIsFree_iff, blockIsFree_iff, sNblocks_release]
  by_cases h : bitmapWord c = bitmapWord b
  · rw [releaseBlock, h, Memory.load32_store32_self, bitmapMask,
      getLsbD_set (Nat.mod_lt _ (by decide)), Bool.or_eq_true,
      decide_eq_true_iff]
    simp only [bitmapWord_eq] at h
    have : c % 32 = b % 32 ↔ c = b := by omega
    rw [this]
    grind
  · have : c ≠ b := fun hc => h (congrArg bitmapWord hc)
    rw [releaseBlock, Memory.load32_store32]
    · simp [this]
    · simp only [bitmapWord_eq] at h ⊢
      omega

-- Marking a block as in use or as free is seen in the bitmap only.
theorem agreeOn_take {a n : Nat} (hb : b < sNblocks m)
    (h : a + n ≤ bitmap ∨ bitmapEnd m * BLKSIZE ≤ a) : Memory.AgreeOn a n m (takeBlock m b) := by
  have := bitmapWord_lt hb
  have := le_bitmapWord b
  have h : a + n ≤ bitmapWord b ∨ bitmapWord b + 4 ≤ a := by omega
  rw [takeBlock, Memory.store32]
  exact Memory.agreeOn_write h

end Bitmap

section Pointers

variable {m m' : Memory} {S : Set Nat} {f f' : Nat} {k k' b : Nat} {v : Word}

theorem ptr_of_lt (h : k < NDIRECT) : ptr m f k = m.load32 (fDirect f k) := by
  rw [ptr, if_neg (by omega), ptrAddr, if_pos h]

theorem ptr_INDIRECT : ptr m f INDIRECT = m.load32 (fIndirect f) := by
  rw [ptr, if_neg (by omega), ptrAddr, if_neg (by decide), if_neg (by omega)]

theorem ptr_of_indirect (h₁ : NDIRECT ≤ k) (h₂ : k < INDIRECT) (h : ptr m f INDIRECT ≠ 0#32) :
    ptr m f k = m.load32 ((ptr m f INDIRECT).toNat * BLKSIZE + 4 * (k - NDIRECT)) := by
  rw [ptr_INDIRECT] at h ⊢
  rw [ptr, if_neg (fun hc => h hc.2.2), ptrAddr, if_neg (by omega), if_pos h₂]

theorem ptr_of_no_indirect (h₁ : NDIRECT ≤ k) (h₂ : k < INDIRECT) (h : ptr m f INDIRECT = 0#32) :
    ptr m f k = 0#32 := by
  rw [ptr_INDIRECT] at h
  rw [ptr, if_pos ⟨h₁, h₂, h⟩]

-- The pointers of a file only depend on its `struct File` and on its indirect block.
theorem ptr_congr (hk : k ≤ INDIRECT) (h : Memory.AgreeOn f sizeofFile m m')
    (hi : ptr m f INDIRECT ≠ 0#32 →
      Memory.AgreeOn ((ptr m f INDIRECT).toNat * BLKSIZE) BLKSIZE m m') :
    ptr m' f k = ptr m f k := by
  have hp : ptr m' f INDIRECT = ptr m f INDIRECT := by
    rw [ptr_INDIRECT, ptr_INDIRECT]
    refine Memory.load32_congr (h.mono ?_ ?_) <;>
      simp only [fIndirect, sizeofFile] <;> omega
  by_cases h₁ : k < NDIRECT
  · rw [ptr_of_lt h₁, ptr_of_lt h₁]
    rw [NDIRECT] at h₁
    refine Memory.load32_congr (h.mono ?_ ?_) <;>
      simp only [fDirect, sizeofFile] <;> omega
  by_cases h₂ : k < INDIRECT
  · by_cases h₀ : ptr m f INDIRECT = 0#32
    · rw [ptr_of_no_indirect (by omega) h₂ h₀, ptr_of_no_indirect (by omega) h₂ (hp.trans h₀)]
    · rw [ptr_of_indirect (by omega) h₂ h₀, ptr_of_indirect (by omega) h₂ (hp ▸ h₀), hp]
      simp only [INDIRECT, NDIRECT, NINDIRECT, BLKSIZE] at h₁ h₂
      refine Memory.load32_congr ((hi h₀).mono ?_ ?_) <;> simp only [NDIRECT, BLKSIZE] <;> omega
  · rw [show k = INDIRECT by omega, hp]

end Pointers

end Fs

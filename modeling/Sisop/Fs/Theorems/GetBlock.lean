import Sisop.Fs.Theorems.Owned

namespace Fs

open Inc Library

variable {m m' m₁ : Memory} {S : Set Nat} {f f' k k' b c a n x : Nat} {v : Word}

-- The bytes of block `b`.
def InBlock (b x : Nat) : Prop := b * BLKSIZE ≤ x ∧ x < b * BLKSIZE + BLKSIZE

-- The bytes that tell which blocks are free and which belong to `f`.
def Table (m : Memory) (f x : Nat) : Prop :=
  bitmap ≤ x ∧ x < bitmapEnd m * BLKSIZE ∨ fDirect f 0 ≤ x ∧ x < fIndirect f + 4 ∨
    ptr m f INDIRECT ≠ 0#32 ∧ InBlock (ptr m f INDIRECT).toNat x

-- The free block `b` becomes the block of the null pointer `k` of `f`.
structure Alloc (S : Set Nat) (m : Memory) (f k b : Nat) (m' : Memory) : Prop where
  free    : blockIsFree m b
  first   : ∀ c < b, blockIsFree m c = false
  null    : ptr m f k = 0#32
  nblocks : sNblocks m' = sNblocks m
  isFree  : ∀ c, blockIsFree m' c ↔ blockIsFree m c ∧ c ≠ b
  ptrs    : ∀ f' ∈ S, ∀ k' ≤ INDIRECT,
    ptr m' f' k' = if f' = f ∧ k' = k then BitVec.ofNat 32 b else ptr m f' k'
  bytes   : ∀ x, ¬Table m' f x → m' x = m x
  zero    : k = INDIRECT → ∀ x, InBlock b x → m' x = 0

-- The effect of `file_get_block` where it succeeds.
structure Got (S : Set Nat) (m : Memory) (f k : Nat) (m' : Memory) : Prop where
  lt      : k < INDIRECT
  steps   : ∃ m₁, (m₁ = m ∨ NDIRECT ≤ k ∧ ∃ b, Alloc S m f INDIRECT b m₁) ∧
    (m' = m₁ ∨ ∃ b, Alloc S m₁ f k b m')
  inPlace : InPlace m' f k
  ne      : ptr m' f k ≠ 0#32

-- Whether there are free blocks for all that `file_get_block` needs.
def Room (m : Memory) (f k : Nat) : Prop :=
  ptr m f k ≠ 0#32 ∨ ∃ b, blockIsFree m b ∧
    (NDIRECT ≤ k → ptr m f INDIRECT = 0#32 → ∃ c, blockIsFree m c ∧ c ≠ b)

section Frame

theorem super_eq : super = 4096 := by decide

theorem bitmap_eq : bitmap = 8192 := by decide

theorem sNblocks_write {src : Nat → BitVec 8}
    (h : bitmapEnd m * BLKSIZE ≤ a ∨ super + 8 ≤ a ∧ a + n ≤ bitmap) :
    sNblocks (m.write a n src) = sNblocks m := by
  have := two_le_bitmapEnd m
  have hd : 4100 + 4 ≤ a ∨ a + n ≤ 4100 := by
    have hs := super_eq
    have hb := bitmap_eq
    rw [BLKSIZE] at h
    omega
  exact sNblocks_congr (Memory.agreeOn_write hd)

theorem blockIsFree_write {src : Nat → BitVec 8}
    (h : bitmapEnd m * BLKSIZE ≤ a ∨ super + 8 ≤ a ∧ a + n ≤ bitmap) :
    blockIsFree (m.write a n src) c = blockIsFree m c := by
  have := two_le_bitmapEnd m
  have hd : bitmap + (bitmapEnd m - 2) * BLKSIZE ≤ a ∨ a + n ≤ bitmap := by
    have hb := bitmap_eq
    rw [BLKSIZE] at *
    omega
  exact blockIsFree_congr (sNblocks_write h) (Memory.agreeOn_write hd)

end Frame

namespace Alloc

variable (h : Alloc S m f k b m')

include h

theorem owned (o : Owned m S) : Owned m' S := o.alloc h.free h.nblocks h.isFree h.ptrs

theorem lt : b < sNblocks m := (blockIsFree_iff.mp h.free).1

end Alloc

theorem ofNat_toNat (o : Checked m) (hb : b < sNblocks m) : (BitVec.ofNat 32 b).toNat = b := by
  have := o.nblocks_le
  rw [BitVec.toNat_ofNat, Nat.mod_eq_of_lt (by omega)]

theorem ofNat_ne_zero (o : Checked m) (hb : blockIsFree m b) : BitVec.ofNat 32 b ≠ 0#32 := by
  intro h
  have hn := ofNat_toNat o (blockIsFree_iff.mp hb).1
  rw [h] at hn
  have := two_le_bitmapEnd m
  rw [o.reserved b (by rw [← hn, BitVec.toNat_ofNat]; omega)] at hb
  cases hb

theorem not_negative (o : Checked m) (hb : b < sNblocks m) :
    negative (BitVec.ofNat 32 b) = false := by
  have := o.nblocks_le
  rw [negative, BitVec.msb_eq_decide, ofNat_toNat o hb, decide_eq_false_iff_not]
  omega

theorem bitmapEnd_le (o : Checked m) (hb : blockIsFree m b) : bitmapEnd m ≤ b := by
  by_contra h
  rw [o.reserved b (by omega)] at hb
  cases hb

theorem ptr_take (o : Owned m S) (hb : b < sNblocks m) (hf : f ∈ S) (hk : k ≤ INDIRECT) :
    ptr (takeBlock m b) f k = ptr m f k := by
  refine ptr_congr hk (agreeOn_take hb ?_) fun hi => agreeOn_take hb (.inr ?_)
  · have := (o.node hf).bounds
    omega
  · exact Nat.mul_le_mul_right _ (o.valid hf le_rfl hi).1

theorem Owned.take (o : Owned m S) (hb : b < sNblocks m) : Owned (takeBlock m b) S :=
  o.congr sNblocks_take (fun _ h => (blockIsFree_take.mp h).1) fun _ hf _ hk => ptr_take o hb hf hk

theorem take_of_not_table (hb : b < sNblocks m)
    (h : ¬(bitmap ≤ x ∧ x < bitmapEnd m * BLKSIZE)) : takeBlock m b x = m x := by
  have := bitmapWord_lt hb
  have := le_bitmapWord b
  exact take_of_not_mem (by omega)

-- `*ref = alloc_block()`
theorem alloc_ref (o : Owned m S) (hf : f ∈ S) (hk : InPlace m f k) (hb : blockIsFree m b)
    (hfirst : ∀ c < b, blockIsFree m c = false) (h₀ : ptr m f k = 0#32) :
    Alloc S m f k b ((takeBlock m b).store32 (ptrAddr m f k) (BitVec.ofNat 32 b)) := by
  have hlt := (blockIsFree_iff.mp hb).1
  have o₁ := o.take hlt
  have hi := ptr_take o hlt hf le_rfl
  have hk₁ : InPlace (takeBlock m b) f k := by
    rw [InPlace, hi]
    exact hk
  have ha : ptrAddr m f k = ptrAddr (takeBlock m b) f k := (ptrAddr_congr hi).symm
  have hkI : k ≠ INDIRECT := by
    have hI := INDIRECT_eq
    simp only [InPlace, NDIRECT] at hk
    omega
  have hp : ∀ f' ∈ S, ∀ k' ≤ INDIRECT,
      ptr ((takeBlock m b).store32 (ptrAddr m f k) (BitVec.ofNat 32 b)) f' k' =
        if f' = f ∧ k' = k then BitVec.ofNat 32 b else ptr m f' k' := by
    intro f' hf' k' hk'
    rw [ha, o₁.ptr_store hf hf' hk₁ hk', ptr_take o hlt hf' hk']
  have hr : bitmapEnd (takeBlock m b) * BLKSIZE ≤ ptrAddr m f k ∨
      super + 8 ≤ ptrAddr m f k ∧ ptrAddr m f k + 4 ≤ bitmap := by
    rw [bitmapEnd_congr sNblocks_take]
    have := (o.node hf).bounds
    cases hk.mem
    case inl h => omega
    case inr h =>
      have := Nat.mul_le_mul_right BLKSIZE (o.valid hf le_rfl h.1).1
      omega
  constructor
  case free => exact hb
  case first => exact hfirst
  case null => exact h₀
  case nblocks => exact (sNblocks_write hr).trans sNblocks_take
  case isFree =>
    intro c
    rw [Memory.store32, blockIsFree_write hr]
    exact blockIsFree_take
  case ptrs => exact hp
  case bytes =>
    intro x hx
    rw [Table, hp f hf INDIRECT le_rfl, if_neg fun h => hkI h.2.symm] at hx
    have hn : sNblocks ((takeBlock m b).store32 (ptrAddr m f k) (BitVec.ofNat 32 b)) = sNblocks m :=
      (sNblocks_write hr).trans sNblocks_take
    rw [bitmapEnd_congr hn] at hx
    rw [Memory.store32_of_not_mem, take_of_not_table hlt fun h => hx (.inl h)]
    by_contra hc
    refine hx (.inr ?_)
    cases hk
    case inl h =>
      rw [ptrAddr_of_lt h] at hc
      simp only [fDirect, fIndirect, NDIRECT] at *
      omega
    case inr h =>
      refine .inr ⟨h.2.2, ?_⟩
      rw [ptrAddr_of_indirect h.1 h.2.1] at hc
      have := h.2.1
      simp only [InBlock, INDIRECT_eq, NDIRECT, BLKSIZE] at *
      omega
  case zero => exact fun h => absurd h hkI

-- A free block holds no `struct File` and no pointers.
theorem node_free (o : Owned m S) (hf : f ∈ S) (hb : blockIsFree m b) :
    f + sizeofFile ≤ b * BLKSIZE ∨ b * BLKSIZE + BLKSIZE ≤ f := by
  have hm := (o.node hf).mem_block
  have hne : nodeBlock f ≠ b := by
    cases o.node hf
    case inl h =>
      have h₁ : nodeBlock f = 1 := by
        subst h
        decide
      have := two_le_bitmapEnd m
      have := bitmapEnd_le o.checked hb
      omega
    case inr h =>
      intro hc
      rw [← hc, h.2.2.2] at hb
      cases hb
  have := block_disjoint hne
  omega

theorem ptr_ne_free (o : Owned m S) (hf : f ∈ S) (hk : k ≤ INDIRECT) (hb : blockIsFree m b)
    (h : ptr m f k ≠ 0#32) : (ptr m f k).toNat ≠ b := by
  intro hc
  rw [← hc, (o.valid hf hk h).2.2] at hb
  cases hb

-- The memory after the block `b` has been made the indirect block of `f`.
def newIndirect (m : Memory) (f b : Nat) : Memory :=
  ((takeBlock m b).store32 (fIndirect f) (BitVec.ofNat 32 b)).memset (b * BLKSIZE) BLKSIZE 0

theorem alloc_indirect (o : Owned m S) (hf : f ∈ S) (hb : blockIsFree m b)
    (hfirst : ∀ c < b, blockIsFree m c = false) (h₀ : ptr m f INDIRECT = 0#32) :
    Alloc S m f INDIRECT b (newIndirect m f b) := by
  have hlt := (blockIsFree_iff.mp hb).1
  have hbn := ofNat_toNat o.checked hlt
  have hb₀ := ofNat_ne_zero o.checked hb
  have o₁ := o.take hlt
  have he := bitmapEnd_le o.checked hb
  have hbn' := (o.node hf).bounds
  have hr₁ : bitmapEnd (takeBlock m b) * BLKSIZE ≤ fIndirect f ∨
      super + 8 ≤ fIndirect f ∧ fIndirect f + 4 ≤ bitmap := by
    rw [bitmapEnd_congr sNblocks_take]
    simp only [fIndirect, sizeofFile] at *
    omega
  have hn₁ : sNblocks ((takeBlock m b).store32 (fIndirect f) (BitVec.ofNat 32 b)) = sNblocks m :=
    (sNblocks_write hr₁).trans sNblocks_take
  have hr₂ : bitmapEnd ((takeBlock m b).store32 (fIndirect f) (BitVec.ofNat 32 b)) * BLKSIZE ≤
      b * BLKSIZE ∨ super + 8 ≤ b * BLKSIZE ∧ b * BLKSIZE + BLKSIZE ≤ bitmap := by
    rw [bitmapEnd_congr hn₁]
    exact .inl (Nat.mul_le_mul_right _ he)
  have hn : sNblocks (newIndirect m f b) = sNblocks m := (sNblocks_write hr₂).trans hn₁
  have hnode {f' : Nat} (hf' : f' ∈ S) := node_free o hf' hb
  have hi : ptr (newIndirect m f b) f INDIRECT = BitVec.ofNat 32 b := by
    rw [ptr_INDIRECT, newIndirect, Memory.memset, Memory.load32_write, Memory.load32_store32_self]
    have := hnode hf
    simp only [fIndirect, sizeofFile] at *
    omega
  have hp : ∀ f' ∈ S, ∀ k' ≤ INDIRECT, ptr (newIndirect m f b) f' k' =
      if f' = f ∧ k' = INDIRECT then BitVec.ofNat 32 b else ptr m f' k' := by
    intro f' hf' k' hk'
    by_cases hff : f' = f
    case neg =>
      rw [if_neg fun h => hff h.1, ← ptr_take o hlt hf' hk']
      rw [newIndirect, Memory.memset, Memory.store32]
      refine ptr_congr hk' (.trans (Memory.agreeOn_write ?_) (Memory.agreeOn_write (hnode hf')))
        fun h => .trans (Memory.agreeOn_write ?_) (Memory.agreeOn_write ?_)
      · have := (o.node hf).disjoint (o.node hf') (Ne.symm hff)
        simp only [fIndirect, sizeofFile] at *
        omega
      · have := o₁.node_indirect hf' hf h
        simp only [fIndirect, sizeofFile] at *
        omega
      · rw [ptr_take o hlt hf' le_rfl] at h ⊢
        exact block_disjoint (ptr_ne_free o hf' le_rfl hb h)
    subst hff
    by_cases h₁ : k' = INDIRECT
    · rw [if_pos ⟨rfl, h₁⟩, h₁, hi]
    rw [if_neg fun h => h₁ h.2]
    by_cases h₂ : k' < NDIRECT
    · rw [← ptr_take o hlt hf' hk', ptr_of_lt h₂, ptr_of_lt h₂, newIndirect, Memory.memset,
        Memory.load32_write, Memory.load32_store32]
      · simp only [fDirect, fIndirect, NDIRECT] at *
        omega
      · have := hnode hf'
        simp only [fDirect, NDIRECT, sizeofFile] at *
        omega
    · have h₃ : NDIRECT ≤ k' := by omega
      have h₄ : k' < INDIRECT := by omega
      rw [ptr_of_no_indirect h₃ h₄ h₀, ptr_of_indirect h₃ h₄ (hi ▸ hb₀), hi, hbn, newIndirect]
      refine Memory.load32_memset (by omega) ?_
      simp only [INDIRECT_eq, NDIRECT, BLKSIZE] at *
      omega
  constructor
  case free => exact hb
  case first => exact hfirst
  case null => exact h₀
  case nblocks => exact hn
  case isFree =>
    intro c
    rw [newIndirect, Memory.memset, blockIsFree_write hr₂, Memory.store32, blockIsFree_write hr₁]
    exact blockIsFree_take
  case ptrs => exact hp
  case bytes =>
    intro x hx
    rw [Table, hi, hbn, bitmapEnd_congr hn] at hx
    rw [newIndirect, Memory.memset_of_not_mem, Memory.store32_of_not_mem,
      take_of_not_table hlt fun h => hx (.inl h)]
    · by_contra hc
      refine hx (.inr (.inl ?_))
      simp only [fDirect, fIndirect] at *
      omega
    · by_contra hc
      refine hx (.inr (.inr ⟨hb₀, ?_⟩))
      simp only [InBlock] at *
      omega
  case zero =>
    intro _ x hx
    rw [newIndirect, Memory.memset, Memory.write_of_mem hx.1 hx.2]

theorem diskaddr_wp {P : Prop} {E : Nat → Memory → Prop} {Q : Nat → Memory → Prop}
    (h : v ≠ 0#32 ∧ v.toNat < sNblocks m → Q (v.toNat * BLKSIZE) m)
    (h' : ¬(v ≠ 0#32 ∧ v.toNat < sNblocks m) → P) : (diskaddr v).wp P E Q m := by
  simp only [diskaddr, Prog.wp_bind, Prog.wp_get, Prog.wp_ite, Prog.wp_panic, Prog.wp_pure]
  refine ⟨fun hc => h' fun hn => ?_, fun hc => h (by grind)⟩
  have := hn.2
  grind

theorem allocBlock_wp : allocBlock.wp False (fun _ _ => False)
    (fun r m' => (∃ b, blockIsFree m b ∧ (∀ c < b, blockIsFree m c = false) ∧
        r = BitVec.ofNat 32 b ∧ m' = takeBlock m b) ∨
      r = err E_NO_DISK ∧ m' = m ∧ ∀ b, blockIsFree m b = false) m := by
  rw [allocBlock, Prog.wp_bind, Prog.wp_get]
  split
  case h_1 h =>
    refine .inr ⟨rfl, rfl, fun b => ?_⟩
    by_contra hb
    have hb : blockIsFree m b := by simpa using hb
    rw [List.find?_range_eq_none] at h
    have := h b (blockIsFree_iff.mp hb).1
    simp [hb] at this
  case h_2 b h =>
    rw [List.find?_range_eq_some] at h
    refine .inl ⟨b, h.1, fun c hc => ?_, rfl, rfl⟩
    simpa using h.2.2 c hc

theorem allocIndirect_wp (o : Owned m S) (hf : f ∈ S) (h₀ : ptr m f INDIRECT = 0#32) :
    (allocIndirect f).wp False
      (fun e m' => e = E_NO_DISK ∧ m' = m ∧ ∀ b, blockIsFree m b = false)
      (fun _ m' => ∃ b, Alloc S m f INDIRECT b m') m := by
  rw [allocIndirect, Prog.wp_bind]
  refine allocBlock_wp.mono id (fun _ _ h => h.elim) fun r m₁ h => ?_
  cases h
  case inr h =>
    rw [h.1, if_pos (by decide), h.2.1]
    exact ⟨rfl, rfl, h.2.2⟩
  case inl h =>
    obtain ⟨b, hb, hfirst, rfl, rfl⟩ := h
    have hlt := (blockIsFree_iff.mp hb).1
    have ha := alloc_indirect o hf hb hfirst h₀
    rw [if_neg (by rw [not_negative o.checked hlt]; decide), Prog.wp_bind, Prog.wp_modify,
      Prog.wp_bind]
    have hbn' := (o.node hf).bounds
    have hr₁ : bitmapEnd (takeBlock m b) * BLKSIZE ≤ fIndirect f ∨
        super + 8 ≤ fIndirect f ∧ fIndirect f + 4 ≤ bitmap := by
      rw [bitmapEnd_congr sNblocks_take]
      simp only [fIndirect, sizeofFile] at *
      omega
    refine diskaddr_wp (fun _ => ?_) fun hc => hc ⟨ofNat_ne_zero o.checked hb, ?_⟩
    · rw [Prog.wp_modify, ofNat_toNat o.checked hlt]
      exact ⟨b, ha⟩
    · rw [ofNat_toNat o.checked hlt, Memory.store32, sNblocks_write hr₁, sNblocks_take]
      exact hlt

-- With `alloc`.
theorem fileBlockWalk_wp (o : Owned m S) (hf : f ∈ S) :
    (fileBlockWalk f k true).wp False
      (fun e m' => m' = m ∧ (e = E_INVAL ∧ INDIRECT ≤ k ∨ e = E_NO_DISK ∧ NDIRECT ≤ k ∧
        k < INDIRECT ∧ ptr m f INDIRECT = 0#32 ∧ ∀ b, blockIsFree m b = false))
      (fun a m' => k < INDIRECT ∧ InPlace m' f k ∧ a = ptrAddr m' f k ∧
        (m' = m ∨ NDIRECT ≤ k ∧ ptr m f INDIRECT = 0#32 ∧ ∃ b, Alloc S m f INDIRECT b m')) m := by
  have hI : NDIRECT + NINDIRECT = INDIRECT := rfl
  have hlt : NDIRECT < INDIRECT := by decide
  rw [fileBlockWalk, hI, Prog.wp_ite, Prog.wp_ite]
  refine ⟨fun h => ⟨rfl, .inl ⟨rfl, h⟩⟩, fun h => ⟨fun h' => ?_, fun h' => ?_⟩⟩
  · exact ⟨by omega, .inl h', (ptrAddr_of_lt h').symm, .inl rfl⟩
  have hk : NDIRECT ≤ k ∧ k < INDIRECT := by omega
  have hnext {m₁ : Memory} (o₁ : Owned m₁ S) (hi : ptr m₁ f INDIRECT ≠ 0#32)
      (hs : m₁ = m ∨ NDIRECT ≤ k ∧ ptr m f INDIRECT = 0#32 ∧ ∃ b, Alloc S m f INDIRECT b m₁) :
      (diskaddr (m₁.load32 (fIndirect f))).wp False
        (fun e m' => m' = m ∧ (e = E_INVAL ∧ INDIRECT ≤ k ∨ e = E_NO_DISK ∧ NDIRECT ≤ k ∧
          k < INDIRECT ∧ ptr m f INDIRECT = 0#32 ∧ ∀ b, blockIsFree m b = false))
        (fun va m' => k < INDIRECT ∧ InPlace m' f k ∧ va + 4 * (k - NDIRECT) = ptrAddr m' f k ∧
          (m' = m ∨ NDIRECT ≤ k ∧ ptr m f INDIRECT = 0#32 ∧ ∃ b, Alloc S m f INDIRECT b m'))
        m₁ := by
    rw [← ptr_INDIRECT]
    refine diskaddr_wp (fun _ => ?_) fun hc => hc ⟨hi, (o₁.valid hf le_rfl hi).2.1⟩
    exact ⟨hk.2, .inr ⟨hk.1, hk.2, hi⟩, (ptrAddr_of_indirect hk.1 hk.2).symm, hs⟩
  simp only [Prog.wp_bind, Prog.wp_get, ← ptr_INDIRECT, if_true]
  split
  case isTrue h₀ =>
    rw [Prog.wp_bind]
    refine (allocIndirect_wp o hf h₀).mono id ?_ ?_
    · exact fun e m' h => ⟨h.2.1, .inr ⟨h.1, hk.1, hk.2, h₀, h.2.2⟩⟩
    · intro _ m₁ h
      obtain ⟨b, hb⟩ := h
      have hi : ptr m₁ f INDIRECT ≠ 0#32 := by
        rw [hb.ptrs f hf INDIRECT le_rfl, if_pos ⟨rfl, rfl⟩]
        exact ofNat_ne_zero o.checked hb.free
      simp only [Prog.wp_bind, Prog.wp_get]
      exact hnext (hb.owned o) hi (.inr ⟨hk.1, h₀, b, hb⟩)
  case isFalse h₀ =>
    simp only [Prog.wp_bind, Prog.wp_get]
    exact hnext o h₀ (.inl rfl)

-- `file_get_block` panics only where it finds no free block.
theorem fileGetBlock_wp (o : Owned m S) (hf : f ∈ S) :
    (fileGetBlock f k).wp (k < INDIRECT ∧ ¬Room m f k)
      (fun e m' => m' = m ∧ (e = E_INVAL ∧ INDIRECT ≤ k ∨
        e = E_NO_DISK ∧ NDIRECT ≤ k ∧ k < INDIRECT ∧ ¬Room m f k))
      (fun blk m' => Got S m f k m' ∧ blk = (ptr m' f k).toNat * BLKSIZE) m := by
  rw [fileGetBlock, Prog.wp_bind]
  refine (fileBlockWalk_wp o hf).mono False.elim ?_ ?_
  · intro e m' h
    refine ⟨h.1, h.2.imp_right fun h => ⟨h.1, h.2.1, h.2.2.1, ?_⟩⟩
    rintro (hr | hr)
    · exact hr (ptr_of_no_indirect h.2.1 h.2.2.1 h.2.2.2.1)
    · obtain ⟨b, hb, -⟩ := hr
      rw [h.2.2.2.2 b] at hb
      cases hb
  intro a m₁ h
  obtain ⟨hk, hi, rfl, hs⟩ := h
  have hs' : m₁ = m ∨ NDIRECT ≤ k ∧ ∃ b, Alloc S m f INDIRECT b m₁ :=
    hs.imp_right fun h => ⟨h.1, h.2.2⟩
  have o₁ : Owned m₁ S := by
    rcases hs' with rfl | ⟨-, b, hb⟩
    · exact o
    · exact hb.owned o
  have hkI : k ≤ INDIRECT := hk.le
  have hpk : ptr m₁ f k = ptr m f k := by
    rcases hs' with rfl | ⟨-, b, hb⟩
    · rfl
    · rw [hb.ptrs f hf k hkI, if_neg fun h => by omega]
  simp only [Prog.wp_bind, Prog.wp_get, ← hi.ptr_eq]
  split
  case isFalse h₀ =>
    simp only [Prog.wp_bind, Prog.wp_get, ← hi.ptr_eq]
    refine diskaddr_wp (fun _ => ⟨⟨hk, ⟨m₁, hs', .inl rfl⟩, hi, h₀⟩, rfl⟩) fun hc => ?_
    exact absurd ⟨h₀, (o₁.valid hf hkI h₀).2.1⟩ hc
  case isTrue h₀ =>
    rw [Prog.wp_bind]
    refine allocBlock_wp.mono False.elim (fun _ _ h => h.elim) fun r m₂ h => ?_
    simp only [Prog.wp_bind, Prog.wp_get, Prog.wp_modify]
    cases h
    case inl h =>
      obtain ⟨b, hb, hfirst, rfl, rfl⟩ := h
      have ha := alloc_ref o₁ hf hi hb hfirst h₀
      have hI : ptr ((takeBlock m₁ b).store32 (ptrAddr m₁ f k) (BitVec.ofNat 32 b)) f INDIRECT =
          ptr m₁ f INDIRECT := by
        rw [ha.ptrs f hf INDIRECT le_rfl, if_neg fun h => by omega]
      have hi' : InPlace ((takeBlock m₁ b).store32 (ptrAddr m₁ f k) (BitVec.ofNat 32 b)) f k := by
        rw [InPlace, hI]
        exact hi
      have hne : ptr ((takeBlock m₁ b).store32 (ptrAddr m₁ f k) (BitVec.ofNat 32 b)) f k ≠ 0#32 := by
        rw [ha.ptrs f hf k hkI, if_pos ⟨rfl, rfl⟩]
        exact ofNat_ne_zero o₁.checked hb
      have heq := hi'.ptr_eq
      rw [ptrAddr_congr hI] at heq
      rw [← heq]
      refine diskaddr_wp (fun _ => ⟨⟨hk, ⟨m₁, hs', .inr ⟨b, ha⟩⟩, hi', hne⟩, rfl⟩) fun hc => ?_
      exact absurd ⟨hne, ((ha.owned o₁).valid hf hkI hne).2.1⟩ hc
    case inr h =>
      obtain ⟨rfl, rfl, hnone⟩ := h
      -- the negative code has been stored, and `diskaddr` does not take it for a block
      have hroom : ¬Room m f k := by
        rintro (hr | ⟨b, hb, hr⟩)
        · exact hr (hpk ▸ h₀)
        · rcases hs with rfl | ⟨hk', hz, c, hc⟩
          · rw [hnone b] at hb
            cases hb
          · obtain ⟨d, hd, hdb⟩ := hr hk' hz
            have h₁ := hnone b
            have h₂ := hnone d
            rw [← Bool.not_eq_true, hc.isFree] at h₁ h₂
            grind
      rw [Memory.load32_store32_self]
      have hreg : bitmapEnd m₂ * BLKSIZE ≤ ptrAddr m₂ f k ∨
          super + 8 ≤ ptrAddr m₂ f k ∧ ptrAddr m₂ f k + 4 ≤ bitmap := by
        have := (o₁.node hf).bounds
        cases hi.mem
        case inl h => omega
        case inr h =>
          have := Nat.mul_le_mul_right BLKSIZE (o₁.valid hf le_rfl h.1).1
          omega
      refine diskaddr_wp (fun hc => ?_) fun _ => ⟨hk, hroom⟩
      have hlt := hc.2
      rw [Memory.store32, sNblocks_write hreg] at hlt
      have := o₁.checked.nblocks_le
      have he : (err E_NO_DISK).toNat = 4294967287 := by decide
      omega

end Fs

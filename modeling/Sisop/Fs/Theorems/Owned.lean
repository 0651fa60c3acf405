import Sisop.Fs.Theorems.Blocks

namespace Fs

open Inc Library

variable {m m' : Memory} {S : Set Nat} {f f' : Nat} {k k' b c : Nat} {v : Word}

theorem two_le_bitmapEnd (m : Memory) : 2 ≤ bitmapEnd m := Nat.le_add_right _ _

theorem block_disjoint (h : b ≠ c) :
    b * BLKSIZE + BLKSIZE ≤ c * BLKSIZE ∨ c * BLKSIZE + BLKSIZE ≤ b * BLKSIZE := by
  simp only [BLKSIZE]
  omega

namespace NodePlace

theorem mem_block (h : NodePlace m f) :
    nodeBlock f * BLKSIZE ≤ f ∧ f + sizeofFile ≤ nodeBlock f * BLKSIZE + BLKSIZE := by
  cases h
  case inl h =>
    subst h
    decide
  case inr h =>
    have := h.1
    simp only [sizeofFile, nodeBlock, BLKSIZE] at *
    omega

theorem bounds (h : NodePlace m f) :
    bitmapEnd m * BLKSIZE ≤ f ∨ super + 8 ≤ f ∧ f + sizeofFile ≤ bitmap := by
  cases h
  case inl h =>
    subst h
    exact .inr (by decide)
  case inr h =>
    have := h.2.1
    simp only [nodeBlock, BLKSIZE] at *
    omega

theorem disjoint (h : NodePlace m f) (h' : NodePlace m f') (hne : f ≠ f') :
    f + sizeofFile ≤ f' ∨ f' + sizeofFile ≤ f := by
  have hb := two_le_bitmapEnd m
  have hr : sRoot = 4104 := by decide
  simp only [NodePlace, hr, nodeBlock, sizeofFile, BLKSIZE] at *
  omega

theorem congr (hn : sNblocks m' = sNblocks m)
    (hf : blockIsFree m (nodeBlock f) = false → blockIsFree m' (nodeBlock f) = false)
    (h : NodePlace m f) : NodePlace m' f := by
  rw [NodePlace, bitmapEnd_congr hn, hn]
  exact h.imp_right fun h => ⟨h.1, h.2.1, h.2.2.1, hf h.2.2.2⟩

end NodePlace

theorem Checked.congr (hc : Checked m) (hn : sNblocks m' = sNblocks m)
    (hf : ∀ b < bitmapEnd m, blockIsFree m' b → blockIsFree m b) : Checked m' := by
  constructor
  case nblocks_le => exact hn ▸ hc.nblocks_le
  case reserved =>
    intro b hb
    rw [bitmapEnd_congr hn] at hb
    by_contra h
    have := hf b hb (by simpa using h)
    rw [hc.reserved b hb] at this
    cases this

theorem INDIRECT_eq : INDIRECT = 1034 := by decide

theorem ptrAddr_of_lt (h : k < NDIRECT) : ptrAddr m f k = fDirect f k := if_pos h

theorem ptrAddr_of_indirect (h₁ : NDIRECT ≤ k) (h₂ : k < INDIRECT) :
    ptrAddr m f k = (ptr m f INDIRECT).toNat * BLKSIZE + 4 * (k - NDIRECT) := by
  rw [ptrAddr, if_neg (by omega), if_pos h₂, ptr_INDIRECT]

theorem ptrAddr_congr (h : ptr m' f INDIRECT = ptr m f INDIRECT) :
    ptrAddr m' f k = ptrAddr m f k := by
  rw [ptr_INDIRECT, ptr_INDIRECT] at h
  rw [ptrAddr, ptrAddr, h]

-- The pointers that are in place: the indirect ones only with an indirect block.
def InPlace (m : Memory) (f k : Nat) : Prop :=
  k < NDIRECT ∨ NDIRECT ≤ k ∧ k < INDIRECT ∧ ptr m f INDIRECT ≠ 0#32

theorem InPlace.ptr_eq (h : InPlace m f k) : ptr m f k = m.load32 (ptrAddr m f k) := by
  cases h
  case inl h => rw [ptr_of_lt h, ptrAddr_of_lt h]
  case inr h => rw [ptr_of_indirect h.1 h.2.1 h.2.2, ptrAddr_of_indirect h.1 h.2.1]

theorem ptr_of_not_inPlace (hk : k < INDIRECT) (h : ¬InPlace m f k) : ptr m f k = 0#32 := by
  simp only [InPlace] at h
  exact ptr_of_no_indirect (by omega) hk (by grind)

-- Where a pointer is stored: in the `struct File` or in the indirect block.
theorem InPlace.mem (hk : InPlace m f k) :
    f ≤ ptrAddr m f k ∧ ptrAddr m f k + 4 ≤ f + sizeofFile ∨
    ptr m f INDIRECT ≠ 0#32 ∧ (ptr m f INDIRECT).toNat * BLKSIZE ≤ ptrAddr m f k ∧
      ptrAddr m f k + 4 ≤ (ptr m f INDIRECT).toNat * BLKSIZE + BLKSIZE := by
  cases hk
  case inl h =>
    rw [ptrAddr_of_lt h]
    simp only [fDirect, sizeofFile, NDIRECT] at *
    omega
  case inr h =>
    refine .inr ⟨h.2.2, ?_⟩
    rw [ptrAddr_of_indirect h.1 h.2.1]
    have := h.2.1
    simp only [INDIRECT_eq, NDIRECT, BLKSIZE] at *
    omega

namespace Owned

variable (o : Owned m S)

include o

theorem node_indirect (hf : f ∈ S) (hf' : f' ∈ S) (h : ptr m f INDIRECT ≠ 0#32) :
    f' + sizeofFile ≤ (ptr m f INDIRECT).toNat * BLKSIZE ∨
      (ptr m f INDIRECT).toNat * BLKSIZE + BLKSIZE ≤ f' := by
  have hm := (o.node hf').mem_block
  have := block_disjoint (o.indirect hf hf' h)
  omega

theorem ptr_store_of_ne (hf : f ∈ S) (hf' : f' ∈ S) (hne : f' ≠ f) {a : Nat}
    (ha : f ≤ a ∧ a + 4 ≤ f + sizeofFile ∨
      ptr m f INDIRECT ≠ 0#32 ∧ (ptr m f INDIRECT).toNat * BLKSIZE ≤ a ∧
        a + 4 ≤ (ptr m f INDIRECT).toNat * BLKSIZE + BLKSIZE)
    (hk : k ≤ INDIRECT) : ptr (m.store32 a v) f' k = ptr m f' k := by
  have hd := (o.node hf).disjoint (o.node hf') (Ne.symm hne)
  refine ptr_congr hk (Memory.agreeOn_write ?_) fun hi => Memory.agreeOn_write ?_
  · cases ha
    case inl ha => omega
    case inr ha =>
      have := o.node_indirect hf hf' ha.1
      omega
  · cases ha
    case inl ha =>
      have := o.node_indirect hf' hf hi
      omega
    case inr ha =>
      have hu : (ptr m f INDIRECT).toNat ≠ (ptr m f' INDIRECT).toNat := fun h =>
        hne (o.unique hf hf' le_rfl le_rfl ha.1 (BitVec.eq_of_toNat_eq h)).1.symm
      have := block_disjoint hu
      omega

theorem ptrAddr_disjoint (hf : f ∈ S) (hk : InPlace m f k) (hk' : InPlace m f k') (hne : k' ≠ k) :
    ptrAddr m f k' + 4 ≤ ptrAddr m f k ∨ ptrAddr m f k + 4 ≤ ptrAddr m f k' := by
  have hi {j : Nat} (h : ptr m f INDIRECT ≠ 0#32) (h₁ : NDIRECT ≤ j) (h₂ : j < INDIRECT) :
      (ptr m f INDIRECT).toNat * BLKSIZE ≤ ptrAddr m f j ∧
        ptrAddr m f j + 4 ≤ (ptr m f INDIRECT).toNat * BLKSIZE + BLKSIZE := by
    rw [ptrAddr_of_indirect h₁ h₂]
    simp only [INDIRECT_eq, NDIRECT, BLKSIZE] at *
    omega
  have hd {j : Nat} (h : j < NDIRECT) : f ≤ ptrAddr m f j ∧ ptrAddr m f j + 4 ≤ f + sizeofFile := by
    rw [ptrAddr_of_lt h]
    simp only [fDirect, sizeofFile, NDIRECT] at *
    omega
  cases hk <;> cases hk'
  case inl.inl h h' =>
    rw [ptrAddr_of_lt h, ptrAddr_of_lt h']
    simp only [fDirect]
    omega
  case inl.inr h h' =>
    have := o.node_indirect hf hf h'.2.2
    have := hi h'.2.2 h'.1 h'.2.1
    have := hd h
    omega
  case inr.inl h h' =>
    have := o.node_indirect hf hf h.2.2
    have := hi h.2.2 h.1 h.2.1
    have := hd h'
    omega
  case inr.inr h h' =>
    rw [ptrAddr_of_indirect h.1 h.2.1, ptrAddr_of_indirect h'.1 h'.2.1]
    omega

theorem ptrAddr_disjoint_indirect (hf : f ∈ S) (hk : InPlace m f k) :
    ptrAddr m f k + 4 ≤ fIndirect f ∨ fIndirect f + 4 ≤ ptrAddr m f k := by
  cases hk
  case inl h =>
    rw [ptrAddr_of_lt h]
    simp only [fDirect, fIndirect, NDIRECT] at *
    omega
  case inr h =>
    have := o.node_indirect hf hf h.2.2
    rw [ptrAddr_of_indirect h.1 h.2.1]
    have := h.2.1
    simp only [fIndirect, INDIRECT_eq, NDIRECT, BLKSIZE, sizeofFile] at *
    omega

-- A store to a pointer changes this pointer and no other.
theorem ptr_store (hf : f ∈ S) (hf' : f' ∈ S) (hk : InPlace m f k) (hk' : k' ≤ INDIRECT) :
    ptr (m.store32 (ptrAddr m f k) v) f' k' = if f' = f ∧ k' = k then v else ptr m f' k' := by
  by_cases hne : f' = f
  case neg =>
    rw [if_neg fun h => hne h.1]
    exact o.ptr_store_of_ne hf hf' hne hk.mem hk'
  subst hne
  have hi : ptr (m.store32 (ptrAddr m f' k) v) f' INDIRECT = ptr m f' INDIRECT := by
    rw [ptr_INDIRECT, ptr_INDIRECT]
    exact Memory.load32_store32 (o.ptrAddr_disjoint_indirect hf hk).symm
  have hp {j : Nat} : InPlace (m.store32 (ptrAddr m f' k) v) f' j ↔ InPlace m f' j := by
    rw [InPlace, InPlace, hi]
  by_cases h : k' = k
  · subst h
    rw [if_pos ⟨rfl, rfl⟩, (hp.mpr hk).ptr_eq, ptrAddr_congr hi, Memory.load32_store32_self]
  rw [if_neg fun hc => h hc.2]
  by_cases h₁ : k' = INDIRECT
  · rw [h₁, hi]
  by_cases h₂ : InPlace m f' k'
  · rw [(hp.mpr h₂).ptr_eq, h₂.ptr_eq, ptrAddr_congr hi]
    exact Memory.load32_store32 (o.ptrAddr_disjoint hf hk h₂ h)
  · have h₃ : ¬InPlace (m.store32 (ptrAddr m f' k) v) f' k' := fun hc => h₂ (hp.mp hc)
    rw [ptr_of_not_inPlace (by omega) h₂, ptr_of_not_inPlace (by omega) h₃]

-- The pointers after `f_indirect` has been set.
theorem ptr_store_indirect (hf : f ∈ S) (hf' : f' ∈ S) (hk : k ≤ INDIRECT) :
    ptr (m.store32 (fIndirect f) v) f' k =
      if f' = f ∧ k = INDIRECT then v
      else if f' = f ∧ NDIRECT ≤ k then ptr (m.store32 (fIndirect f) v) f k
      else ptr m f' k := by
  by_cases hne : f' = f
  case neg =>
    rw [if_neg fun h => hne h.1, if_neg fun h => hne h.1]
    refine o.ptr_store_of_ne hf hf' hne (.inl ?_) hk
    simp only [fIndirect, sizeofFile]
    omega
  subst hne
  by_cases h₁ : k = INDIRECT
  · rw [if_pos ⟨rfl, h₁⟩, h₁, ptr_INDIRECT, Memory.load32_store32_self]
  rw [if_neg fun h => h₁ h.2]
  by_cases h₂ : NDIRECT ≤ k
  · rw [if_pos ⟨rfl, h₂⟩]
  rw [if_neg fun h => h₂ h.2, ptr_of_lt (by omega), ptr_of_lt (by omega)]
  refine Memory.load32_store32 ?_
  simp only [fDirect, fIndirect, NDIRECT] at *
  omega

-- A free block becomes the block of a pointer that was null.
theorem alloc (hb : blockIsFree m b) (hn : sNblocks m' = sNblocks m)
    (hfree : ∀ c, blockIsFree m' c ↔ blockIsFree m c ∧ c ≠ b)
    (hp : ∀ f' ∈ S, ∀ k' ≤ INDIRECT, ptr m' f' k' =
      if f' = f ∧ k' = k then BitVec.ofNat 32 b else ptr m f' k') : Owned m' S := by
  have hlt := (blockIsFree_iff.mp hb).1
  have hres : bitmapEnd m ≤ b := by
    by_contra h
    rw [o.checked.reserved b (by omega)] at hb
    cases hb
  have hbn : (BitVec.ofNat 32 b).toNat = b := by
    have := o.checked.nblocks_le
    rw [BitVec.toNat_ofNat, Nat.mod_eq_of_lt (by omega)]
  have hused {c : Nat} (h : blockIsFree m c = false) : blockIsFree m' c = false := by
    by_contra hc
    rw [(hfree c).mp (by simpa using hc) |>.1] at h
    cases h
  have hne {f' k' : Nat} (hf' : f' ∈ S) (hk' : k' ≤ INDIRECT) (h₀ : ptr m f' k' ≠ 0#32) :
      (ptr m f' k').toNat ≠ b := by
    intro h
    rw [← h, (o.valid hf' hk' h₀).2.2] at hb
    cases hb
  constructor
  case checked => exact o.checked.congr hn fun c _ h => ((hfree c).mp h).1
  case node => exact fun hf' => (o.node hf').congr hn hused
  case valid =>
    intro f' k' hf' hk' h
    rw [bitmapEnd_congr hn, hn]
    rw [hp f' hf' k' hk'] at h ⊢
    split at h
    case isTrue hc =>
      rw [if_pos hc, hbn]
      refine ⟨hres, hlt, ?_⟩
      by_contra hc
      exact ((hfree b).mp (by simpa using hc)).2 rfl
    case isFalse hc =>
      rw [if_neg hc]
      have := o.valid hf' hk' h
      exact ⟨this.1, this.2.1, hused this.2.2⟩
  case unique =>
    intro f₁ k₁ f₂ k₂ h₁ h₂ hk₁ hk₂ h₀ he
    rw [hp f₁ h₁ k₁ hk₁] at h₀ he
    rw [hp f₂ h₂ k₂ hk₂] at he
    by_cases hc₁ : f₁ = f ∧ k₁ = k <;> by_cases hc₂ : f₂ = f ∧ k₂ = k
    · exact ⟨hc₁.1.trans hc₂.1.symm, hc₁.2.trans hc₂.2.symm⟩
    · rw [if_pos hc₁] at h₀
      rw [if_pos hc₁, if_neg hc₂] at he
      exact absurd (he ▸ hbn) (hne h₂ hk₂ (he ▸ h₀))
    · rw [if_neg hc₁] at h₀
      rw [if_neg hc₁, if_pos hc₂] at he
      exact absurd (he ▸ hbn) (hne h₁ hk₁ h₀)
    · rw [if_neg hc₁] at h₀
      rw [if_neg hc₁, if_neg hc₂] at he
      exact o.unique h₁ h₂ hk₁ hk₂ h₀ he
  case indirect =>
    intro f₁ f₂ h₁ h₂ h
    rw [hp f₁ h₁ INDIRECT le_rfl] at h ⊢
    split at h
    case isTrue hc =>
      rw [if_pos hc, hbn]
      intro hbf
      cases o.node h₂
      case inl hr =>
        have : nodeBlock f₂ = 1 := by
          subst hr
          decide
        have := two_le_bitmapEnd m
        omega
      case inr hr =>
        rw [hbf, hr.2.2.2] at hb
        cases hb
    case isFalse hc =>
      rw [if_neg hc]
      exact o.indirect h₁ h₂ h

-- The block of a pointer is given back; other pointers may become null with it.
theorem free (hf : f ∈ S) (hk : k ≤ INDIRECT) (h₀ : ptr m f k ≠ 0#32)
    (ha : ∀ f' ∈ S, (ptr m f k).toNat ≠ nodeBlock f') (hn : sNblocks m' = sNblocks m)
    (hfree : ∀ c, blockIsFree m' c ↔ blockIsFree m c ∨ c = (ptr m f k).toNat)
    (hk₀ : ptr m' f k = 0#32)
    (hp : ∀ f' ∈ S, ∀ k' ≤ INDIRECT, ptr m' f' k' = ptr m f' k' ∨ ptr m' f' k' = 0#32) :
    Owned m' S := by
  have hv := o.valid hf hk h₀
  have hused {c : Nat} (hc : c ≠ (ptr m f k).toNat) (h : blockIsFree m c = false) :
      blockIsFree m' c = false := by
    by_contra hc'
    rw [((hfree c).mp (by simpa using hc')).resolve_right hc] at h
    cases h
  have hp' {f' k' : Nat} (hf' : f' ∈ S) (hk' : k' ≤ INDIRECT) (h : ptr m' f' k' ≠ 0#32) :
      ptr m' f' k' = ptr m f' k' := (hp f' hf' k' hk').resolve_right h
  constructor
  case checked =>
    refine o.checked.congr hn fun c hc h => ((hfree c).mp h).resolve_right ?_
    omega
  case node =>
    exact fun hf' => (o.node hf').congr hn fun h => hused (ha _ hf').symm h
  case valid =>
    intro f' k' hf' hk' h
    rw [bitmapEnd_congr hn, hn]
    have he := hp' hf' hk' h
    rw [he] at h ⊢
    have := o.valid hf' hk' h
    refine ⟨this.1, this.2.1, hused ?_ this.2.2⟩
    intro hc
    obtain ⟨rfl, rfl⟩ := o.unique hf' hf hk' hk h (BitVec.eq_of_toNat_eq hc)
    exact h (he ▸ hk₀)
  case unique =>
    intro f₁ k₁ f₂ k₂ h₁ h₂ hk₁ hk₂ h₀ he
    have h₀' : ptr m' f₂ k₂ ≠ 0#32 := he ▸ h₀
    rw [hp' h₁ hk₁ h₀, hp' h₂ hk₂ h₀'] at he
    exact o.unique h₁ h₂ hk₁ hk₂ (hp' h₁ hk₁ h₀ ▸ h₀) he
  case indirect =>
    intro f₁ f₂ h₁ h₂ h
    have he := hp' h₁ le_rfl h
    rw [he] at h ⊢
    exact o.indirect h₁ h₂ h

theorem congr (hn : sNblocks m' = sNblocks m)
    (hfree : ∀ c, blockIsFree m' c → blockIsFree m c)
    (hp : ∀ f' ∈ S, ∀ k' ≤ INDIRECT, ptr m' f' k' = ptr m f' k') : Owned m' S := by
  have hused {c : Nat} (h : blockIsFree m c = false) : blockIsFree m' c = false := by
    by_contra hc
    rw [hfree c (by simpa using hc)] at h
    cases h
  constructor
  case checked => exact o.checked.congr hn fun c _ => hfree c
  case node => exact fun hf => (o.node hf).congr hn hused
  case valid =>
    intro f k hf hk h
    rw [hp f hf k hk] at h ⊢
    rw [bitmapEnd_congr hn, hn]
    have := o.valid hf hk h
    exact ⟨this.1, this.2.1, hused this.2.2⟩
  case unique =>
    intro f k f' k' hf hf' hk hk' h he
    rw [hp f hf k hk] at h he
    rw [hp f' hf' k' hk'] at he
    exact o.unique hf hf' hk hk' h he
  case indirect =>
    intro f f' hf hf' h
    rw [hp f hf INDIRECT le_rfl] at h ⊢
    exact o.indirect hf hf' h

end Owned

end Fs

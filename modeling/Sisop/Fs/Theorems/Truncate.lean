import Sisop.Fs.Theorems.GetBlock

namespace Fs

open Inc Library

variable {m m' m₁ : Memory} {S : Set Nat} {K L : Nat → Prop} {f f' k k' b c a n x : Nat} {v : Word}

-- Some of the pointers of `f` with a number in `K` become null, and their blocks free.
structure Shrunk (S : Set Nat) (m : Memory) (f : Nat) (K : Nat → Prop) (m' : Memory) : Prop where
  nblocks : sNblocks m' = sNblocks m
  free    : ∀ c, blockIsFree m c → blockIsFree m' c
  freed   : ∀ c, blockIsFree m' c → blockIsFree m c ∨
    ∃ k ≤ INDIRECT, K k ∧ ptr m f k ≠ 0#32 ∧ (ptr m f k).toNat = c
  ptrs    : ∀ f' ∈ S, ∀ k' ≤ INDIRECT,
    ptr m' f' k' = ptr m f' k' ∨ f' = f ∧ K k' ∧ ptr m' f' k' = 0#32
  bytes   : ∀ x, ¬Table m f x → m' x = m x

namespace Shrunk

theorem refl (S : Set Nat) (m : Memory) (f : Nat) (K : Nat → Prop) : Shrunk S m f K m where
  nblocks := rfl
  free    := fun _ h => h
  freed   := fun _ h => .inl h
  ptrs    := fun _ _ _ _ => .inl rfl
  bytes   := fun _ _ => rfl

theorem ne_zero (h : Shrunk S m f K m') (hf' : f' ∈ S) (hk : k ≤ INDIRECT)
    (h₀ : ptr m' f' k ≠ 0#32) : ptr m' f' k = ptr m f' k :=
  (h.ptrs f' hf' k hk).resolve_right fun hc => h₀ hc.2.2

theorem table (h : Shrunk S m f K m') (hf : f ∈ S) (hx : Table m' f x) : Table m f x := by
  rw [Table, bitmapEnd_congr h.nblocks] at hx
  refine hx.imp_right fun hx => hx.imp_right fun hx => ?_
  rw [h.ne_zero hf le_rfl hx.1] at hx
  exact hx

theorem apart (h : Shrunk S m f K m') (hf : f ∈ S) (ha : Apart m f S) : Apart m' f S := by
  intro f' hf' k hk h₀
  have he := h.ne_zero hf hk h₀
  rw [he] at h₀ ⊢
  exact ha f' hf' k hk h₀

theorem trans (hf : f ∈ S) (h : Shrunk S m f K m₁) (h' : Shrunk S m₁ f L m') :
    Shrunk S m f (fun k => K k ∨ L k) m' where
  nblocks := h'.nblocks.trans h.nblocks
  free    := fun c hc => h'.free c (h.free c hc)
  freed   := by
    intro c hc
    rcases h'.freed c hc with hc | ⟨k, hk, hl, h₀, hc⟩
    · refine (h.freed c hc).imp_right ?_
      rintro ⟨k, hk, hK, h⟩
      exact ⟨k, hk, .inl hK, h⟩
    · have he := h.ne_zero hf hk h₀
      rw [he] at h₀ hc
      exact .inr ⟨k, hk, .inr hl, h₀, hc⟩
  ptrs    := by
    intro f' hf' k hk
    rcases h'.ptrs f' hf' k hk with he | he
    · rw [he]
      exact (h.ptrs f' hf' k hk).imp_right fun hc => ⟨hc.1, .inl hc.2.1, hc.2.2⟩
    · exact .inr ⟨he.1, .inr he.2.1, he.2.2⟩
  bytes   := by
    intro x hx
    rw [h'.bytes x fun hc => hx (h.table hf hc), h.bytes x hx]

theorem mono (h : Shrunk S m f K m') (hl : ∀ k, K k → L k) : Shrunk S m f L m' where
  nblocks := h.nblocks
  free    := h.free
  freed   := fun c hc => by
    refine (h.freed c hc).imp_right ?_
    rintro ⟨k, hk, hK, h⟩
    exact ⟨k, hk, hl k hK, h⟩
  ptrs    := fun f' hf' k hk => (h.ptrs f' hf' k hk).imp_right fun h => ⟨h.1, hl k h.2.1, h.2.2⟩
  bytes   := h.bytes

end Shrunk

theorem freeBlock_wp {P : Prop} {E : Nat → Memory → Prop} {Q : Unit → Memory → Prop}
    (h₀ : v ≠ 0#32) (hv : bitmapEnd m ≤ v.toNat) (hn : v.toNat < sNblocks m)
    (h : Q () (releaseBlock m v.toNat)) : (freeBlock v).wp P E Q m := by
  have hw : bitmapWord v.toNat / BLKSIZE < sNblocks m := by
    have := bitmapWord_lt hn
    rw [BLKSIZE] at *
    omega
  simp only [freeBlock, Prog.wp_bind, Prog.wp_get, Prog.wp_ite, Prog.wp_panic, Prog.wp_modify]
  refine ⟨fun hc => ?_, fun _ => h⟩
  rcases hc with hc | hc
  · exact absurd hc h₀
  · omega

theorem write_agree {src : Nat → BitVec 8} (h : m' x = m x) :
    m'.write a n src x = m.write a n src x := by
  simp only [Memory.write]
  split
  case isTrue => rfl
  case isFalse => exact h

-- A pointer to `b` has become null by a store at `a`, and `b` is marked as free.
theorem release_store (o : Owned m S) (hf : f ∈ S) (hk : k ≤ INDIRECT) (h₀ : ptr m f k ≠ 0#32)
    (ha : Apart m f S)
    (hr : bitmapEnd m * BLKSIZE ≤ a ∨ super + 8 ≤ a ∧ a + 4 ≤ bitmap)
    (ht : ∀ x, a ≤ x → x < a + 4 → Table m f x)
    (hp : ∀ f' ∈ S, ∀ k' ≤ INDIRECT, ptr (m.store32 a 0#32) f' k' = ptr m f' k' ∨
      f' = f ∧ K k' ∧ ptr (m.store32 a 0#32) f' k' = 0#32)
    (hpk : ptr (m.store32 a 0#32) f k = 0#32) (hK : K k) :
    let m' := (releaseBlock m (ptr m f k).toNat).store32 a 0#32
    Owned m' S ∧ Shrunk S m f K m' ∧ ptr m' f k = 0#32 := by
  intro m'
  have hv := o.valid hf hk h₀
  have hr' : bitmapEnd (releaseBlock m (ptr m f k).toNat) * BLKSIZE ≤ a ∨
      super + 8 ≤ a ∧ a + 4 ≤ bitmap := by
    rw [bitmapEnd_congr sNblocks_release]
    exact hr
  have hn : sNblocks m' = sNblocks m := (sNblocks_write hr').trans sNblocks_release
  have hfree (c : Nat) : blockIsFree m' c ↔ blockIsFree m c ∨ c = (ptr m f k).toNat := by
    have he : blockIsFree m' c = blockIsFree (releaseBlock m (ptr m f k).toNat) c :=
      blockIsFree_write hr'
    rw [he]
    exact blockIsFree_release hv.2.1
  have hx {x : Nat} (h : x < bitmap ∨ bitmapEnd m * BLKSIZE ≤ x) : m' x = m.store32 a 0#32 x := by
    have := bitmapWord_lt hv.2.1
    have := le_bitmapWord (ptr m f k).toNat
    exact write_agree (release_of_not_mem (by omega))
  have hpm {f' k' : Nat} (hf' : f' ∈ S) (hk' : k' ≤ INDIRECT) :
      ptr m' f' k' = ptr (m.store32 a 0#32) f' k' := by
    refine ptr_congr hk' (fun x h₁ h₂ => hx ?_) fun h x h₁ h₂ => hx ?_
    · have := (o.node hf').bounds
      omega
    · have hc := (hp f' hf' INDIRECT le_rfl).resolve_right fun hc => h hc.2.2
      rw [hc] at h h₁
      have := Nat.mul_le_mul_right BLKSIZE (o.valid hf' le_rfl h).1
      omega
  have hp' : ∀ f' ∈ S, ∀ k' ≤ INDIRECT, ptr m' f' k' = ptr m f' k' ∨
      f' = f ∧ K k' ∧ ptr m' f' k' = 0#32 := by
    intro f' hf' k' hk'
    rw [hpm hf' hk']
    exact hp f' hf' k' hk'
  have hp₀ : ptr m' f k = 0#32 := by
    rw [hpm hf hk, hpk]
  refine ⟨?_, ?_, hp₀⟩
  · refine o.free hf hk h₀ (fun f' hf' => ha f' hf' k hk h₀) hn hfree hp₀ ?_
    exact fun f' hf' k' hk' => (hp' f' hf' k' hk').imp_right fun h => h.2.2
  · constructor
    case nblocks => exact hn
    case free => exact fun c hc => (hfree c).mpr (.inl hc)
    case freed =>
      intro c hc
      exact ((hfree c).mp hc).imp_right fun hc => ⟨k, hk, hK, h₀, hc.symm⟩
    case ptrs => exact hp'
    case bytes =>
      intro x hx'
      rw [hx, Memory.store32_of_not_mem]
      · by_contra hc
        exact hx' (ht x (by omega) (by omega))
      · by_contra hc
        exact hx' (.inl (by omega))

theorem ptrAddr_table (hk : InPlace m f k) (h₁ : ptrAddr m f k ≤ x) (h₂ : x < ptrAddr m f k + 4) :
    Table m f x := by
  refine .inr ?_
  cases hk
  case inl h =>
    rw [ptrAddr_of_lt h] at *
    simp only [fDirect, fIndirect, NDIRECT] at *
    omega
  case inr h =>
    refine .inr ⟨h.2.2, ?_⟩
    rw [ptrAddr_of_indirect h.1 h.2.1] at *
    have := h.2.1
    simp only [InBlock, INDIRECT_eq, NDIRECT, BLKSIZE] at *
    omega

theorem ptrAddr_region (o : Owned m S) (hf : f ∈ S) (hk : InPlace m f k) :
    bitmapEnd m * BLKSIZE ≤ ptrAddr m f k ∨
      super + 8 ≤ ptrAddr m f k ∧ ptrAddr m f k + 4 ≤ bitmap := by
  have := (o.node hf).bounds
  cases hk.mem
  case inl h => omega
  case inr h =>
    have := Nat.mul_le_mul_right BLKSIZE (o.valid hf le_rfl h.1).1
    omega

-- Without `alloc`, nothing changes.
theorem fileBlockWalk_false_wp (o : Owned m S) (hf : f ∈ S) :
    (fileBlockWalk f k false).wp False (fun _ m' => m' = m ∧ ¬InPlace m f k)
      (fun a m' => m' = m ∧ InPlace m f k ∧ a = ptrAddr m f k) m := by
  have hI : NDIRECT + NINDIRECT = INDIRECT := rfl
  have hlt : NDIRECT < INDIRECT := by decide
  rw [fileBlockWalk, hI, Prog.wp_ite, Prog.wp_ite]
  refine ⟨fun h => ⟨rfl, ?_⟩, fun h => ⟨fun h' => ?_, fun h' => ?_⟩⟩
  · rw [InPlace]
    omega
  · exact ⟨rfl, .inl h', (ptrAddr_of_lt h').symm⟩
  have hk : NDIRECT ≤ k ∧ k < INDIRECT := by omega
  simp only [Prog.wp_bind, Prog.wp_get, ← ptr_INDIRECT]
  split
  case isTrue h₀ =>
    refine ⟨rfl, ?_⟩
    rintro (hc | hc)
    · exact h' hc
    · exact hc.2.2 h₀
  case isFalse h₀ =>
    simp only [Prog.wp_bind, Prog.wp_get]
    refine diskaddr_wp (fun _ => ?_) fun hc => hc ⟨h₀, (o.valid hf le_rfl h₀).2.1⟩
    exact ⟨rfl, .inr ⟨hk.1, hk.2, h₀⟩, (ptrAddr_of_indirect hk.1 hk.2).symm⟩

theorem fileFreeBlock_wp (o : Owned m S) (hf : f ∈ S) (ha : Apart m f S) :
    (fileFreeBlock f k).wp False (fun _ m' => m' = m ∧ ¬InPlace m f k)
      (fun _ m' => Owned m' S ∧ Shrunk S m f (fun j => j = k ∧ j < INDIRECT) m' ∧
        ptr m' f k = 0#32) m := by
  rw [fileFreeBlock, Prog.wp_bind]
  refine (fileBlockWalk_false_wp o hf).mono id (fun _ _ h => h) fun a m₁ h => ?_
  obtain ⟨rfl, hi, rfl⟩ := h
  have hk : k < INDIRECT := by
    have hlt : NDIRECT < INDIRECT := by decide
    rw [InPlace] at hi
    omega
  simp only [Prog.wp_bind, Prog.wp_get, ← hi.ptr_eq]
  split
  case isFalse h₀ => exact ⟨o, .refl .., not_not.mp h₀⟩
  case isTrue h₀ =>
    have hv := o.valid hf hk.le h₀
    have hs := release_store (K := fun j => j = k ∧ j < INDIRECT) (a := ptrAddr m₁ f k) o hf hk.le
      h₀ ha (ptrAddr_region o hf hi) (fun x => ptrAddr_table hi) ?_ ?_ ⟨rfl, hk⟩
    · rw [Prog.wp_bind]
      exact freeBlock_wp h₀ hv.1 hv.2.1 hs
    · intro f' hf' k' hk'
      rw [o.ptr_store hf hf' hi hk']
      split
      case isTrue hc => exact .inr ⟨hc.1, ⟨hc.2, hc.2 ▸ hk⟩, rfl⟩
      case isFalse hc => exact .inl rfl
    · rw [o.ptr_store hf hf hi hk.le, if_pos ⟨rfl, rfl⟩]

-- The loop of `file_truncate_blocks`.
theorem freeBlocks_wp {bnos : List Nat} (o : Owned m S) (hf : f ∈ S) (ha : Apart m f S) :
    (freeBlocks f bnos).wp False (fun _ _ => False)
      (fun _ m' => Owned m' S ∧ Shrunk S m f (fun k => k ∈ bnos ∧ k < INDIRECT) m' ∧
        ∀ k ∈ bnos, k < INDIRECT → ptr m' f k = 0#32) m := by
  induction bnos generalizing m
  case nil => exact ⟨o, .refl .., fun _ h => absurd h List.not_mem_nil⟩
  case cons bno bnos hi =>
    have hstep {m₁ : Memory} (o₁ : Owned m₁ S) (h₁ : Shrunk S m f (fun k => k = bno ∧ k < INDIRECT) m₁)
        (h₀ : bno < INDIRECT → ptr m₁ f bno = 0#32) :
        (freeBlocks f bnos).wp False (fun _ _ => False)
          (fun _ m' => Owned m' S ∧ Shrunk S m f (fun k => k ∈ bno :: bnos ∧ k < INDIRECT) m' ∧
            ∀ k ∈ bno :: bnos, k < INDIRECT → ptr m' f k = 0#32) m₁ := by
      refine (hi o₁ (h₁.apart hf ha)).mono id (fun _ _ h => h.elim) fun _ m₂ h => ?_
      refine ⟨h.1, (h₁.trans hf h.2.1).mono fun k => ?_, fun k hk hlt => ?_⟩
      · rw [List.mem_cons, ← or_and_right]
        exact id
      rcases List.mem_cons.mp hk with rfl | hk
      · rcases h.2.1.ptrs f hf k hlt.le with he | he
        · exact he.trans (h₀ hlt)
        · exact he.2.2
      · exact h.2.2 k hk hlt
    rw [freeBlocks, Prog.wp_bind, Prog.wp_attempt]
    refine (fileFreeBlock_wp o hf ha).mono id ?_ ?_
    · intro _ m₁ h
      obtain ⟨rfl, h⟩ := h
      exact hstep o (.refl ..) fun hlt => ptr_of_not_inPlace hlt h
    · exact fun _ m₁ h => hstep h.1 h.2.1 fun _ => h.2.2

-- The pointers that truncation to `n` blocks may remove.
def Cut (n k : Nat) : Prop := n ≤ k ∧ k < INDIRECT ∨ n ≤ NDIRECT ∧ NDIRECT ≤ k

theorem fileTruncateBlocks_wp {newsize : Word} (o : Owned m S) (hf : f ∈ S) (ha : Apart m f S) :
    (fileTruncateBlocks f newsize).wp False (fun _ _ => False)
      (fun _ m' => Owned m' S ∧ Shrunk S m f (Cut (blocksFor newsize).toNat) m' ∧
        (∀ k < INDIRECT, (blocksFor newsize).toNat ≤ k →
          k < (blocksFor (m.load32 (fSize f))).toNat → ptr m' f k = 0#32) ∧
        ((blocksFor newsize).toNat ≤ NDIRECT → ptr m' f INDIRECT = 0#32)) m := by
  rw [fileTruncateBlocks, Prog.wp_bind, Prog.wp_get, Prog.wp_bind]
  refine (freeBlocks_wp o hf ha).mono id (fun _ _ h => h) fun _ m₁ h => ?_
  obtain ⟨o₁, h₁, hz⟩ := h
  have h₁ : Shrunk S m f (Cut (blocksFor newsize).toNat) m₁ := by
    refine h₁.mono fun k hk => .inl ⟨?_, hk.2⟩
    exact (List.mem_range'_1.mp hk.1).1
  have hz : ∀ k < INDIRECT, (blocksFor newsize).toNat ≤ k →
      k < (blocksFor (m.load32 (fSize f))).toNat → ptr m₁ f k = 0#32 := by
    intro k hk h₂ h₃
    refine hz k (List.mem_range'_1.mpr ?_) hk
    omega
  simp only [Prog.wp_bind, Prog.wp_get, ← ptr_INDIRECT]
  split
  case isFalse hc =>
    exact ⟨o₁, h₁, hz, fun hn => by_contra fun h₀ => hc ⟨hn, h₀⟩⟩
  case isTrue hc =>
    have h₀ := hc.2
    have hv := o₁.valid hf le_rfl h₀
    have hr := (o₁.node hf).bounds
    have hp : ∀ f' ∈ S, ∀ k' ≤ INDIRECT, ptr (m₁.store32 (fIndirect f) 0#32) f' k' = ptr m₁ f' k' ∨
        f' = f ∧ Cut (blocksFor newsize).toNat k' ∧
          ptr (m₁.store32 (fIndirect f) 0#32) f' k' = 0#32 := by
      intro f' hf' k' hk'
      have hi : ptr (m₁.store32 (fIndirect f) 0#32) f INDIRECT = 0#32 := by
        rw [o₁.ptr_store_indirect hf hf le_rfl, if_pos ⟨rfl, rfl⟩]
      by_cases hc' : f' = f ∧ NDIRECT ≤ k'
      · obtain ⟨rfl, hk₁⟩ := hc'
        refine .inr ⟨rfl, .inr ⟨hc.1, hk₁⟩, ?_⟩
        by_cases hkI : k' = INDIRECT
        · rw [hkI, hi]
        · exact ptr_of_no_indirect hk₁ (by omega) hi
      · refine .inl ?_
        rw [o₁.ptr_store_indirect hf hf' hk', if_neg, if_neg hc']
        exact fun h => hc' ⟨h.1, by rw [h.2]; decide⟩
    have hs := release_store (K := Cut (blocksFor newsize).toNat) (a := fIndirect f) o₁ hf le_rfl h₀
      (h₁.apart hf ha) ?_ ?_ hp ?_ (.inr ⟨hc.1, by decide⟩)
    · rw [Prog.wp_bind]
      refine freeBlock_wp h₀ hv.1 hv.2.1 ⟨hs.1, (h₁.trans hf hs.2.1).mono fun _ h => or_self_iff.mp h,
        fun k hk h₂ h₃ => ?_, fun _ => hs.2.2⟩
      rcases hs.2.1.ptrs f hf k hk.le with he | he
      · exact he.trans (hz k hk h₂ h₃)
      · exact he.2.2
    · simp only [fIndirect, sizeofFile] at *
      omega
    · intro x h₂ h₃
      refine .inr (.inl ⟨?_, h₃⟩)
      simp only [fDirect, fIndirect] at *
      omega
    · rw [o₁.ptr_store_indirect hf hf le_rfl, if_pos ⟨rfl, rfl⟩]

-- The bytes of the field `f_size`.
def InSize (f x : Nat) : Prop := fSize f ≤ x ∧ x < fSize f + 4

theorem ptr_store_size (hk : k ≤ INDIRECT) (o : Owned m S) (hf : f ∈ S) (hf' : f' ∈ S) :
    ptr (m.store32 (fSize f) v) f' k = ptr m f' k := by
  by_cases hne : f' = f
  case neg =>
    refine o.ptr_store_of_ne hf hf' hne (.inl ?_) hk
    simp only [fSize, sizeofFile]
    omega
  subst hne
  have hi : ptr (m.store32 (fSize f') v) f' INDIRECT = ptr m f' INDIRECT := by
    rw [ptr_INDIRECT, ptr_INDIRECT]
    refine Memory.load32_store32 ?_
    simp only [fSize, fIndirect]
    omega
  by_cases h : InPlace m f' k
  · have h' : InPlace (m.store32 (fSize f') v) f' k := by
      rw [InPlace, hi]
      exact h
    rw [h'.ptr_eq, h.ptr_eq, ptrAddr_congr hi]
    refine Memory.load32_store32 ?_
    cases h
    case inl h =>
      rw [ptrAddr_of_lt h]
      simp only [fDirect, fSize]
      omega
    case inr h =>
      have := o.node_indirect hf hf h.2.2
      have := h.2.1
      rw [ptrAddr_of_indirect h.1 h.2.1]
      simp only [fSize, sizeofFile, INDIRECT_eq, NDIRECT, BLKSIZE] at *
      omega
  · by_cases hkI : k = INDIRECT
    · rw [hkI, hi]
    · have h' : ¬InPlace (m.store32 (fSize f') v) f' k := by
        rw [InPlace, hi]
        exact h
      rw [ptr_of_not_inPlace (by omega) h, ptr_of_not_inPlace (by omega) h']

theorem size_region (o : Owned m S) (hf : f ∈ S) :
    bitmapEnd m * BLKSIZE ≤ fSize f ∨ super + 8 ≤ fSize f ∧ fSize f + 4 ≤ bitmap := by
  have := (o.node hf).bounds
  simp only [fSize, sizeofFile] at *
  omega

theorem store_size (o : Owned m S) (hf : f ∈ S) :
    Owned (m.store32 (fSize f) v) S ∧ sNblocks (m.store32 (fSize f) v) = sNblocks m ∧
      ∀ c, blockIsFree (m.store32 (fSize f) v) c = blockIsFree m c := by
  have hn : sNblocks (m.store32 (fSize f) v) = sNblocks m := sNblocks_write (size_region o hf)
  have hfree (c : Nat) : blockIsFree (m.store32 (fSize f) v) c = blockIsFree m c :=
    blockIsFree_write (size_region o hf)
  refine ⟨o.congr hn (fun c h => hfree c ▸ h) fun f' hf' k hk => ?_, hn, hfree⟩
  exact ptr_store_size hk o hf hf'

theorem apart_store_size (o : Owned m S) (hf : f ∈ S) (ha : Apart m f S) :
    Apart (m.store32 (fSize f) v) f S := by
  intro f' hf' k hk h₀
  rw [ptr_store_size hk o hf hf] at h₀ ⊢
  exact ha f' hf' k hk h₀

-- `file_set_size` always succeeds: pointers only become null where the file gets smaller.
theorem fileSetSize_wp {newsize : Word} (o : Owned m S) (hf : f ∈ S) (ha : Apart m f S) :
    (fileSetSize f newsize).wp False (fun _ _ => False)
      (fun _ m' => Owned m' S ∧ Apart m' f S ∧ m'.load32 (fSize f) = newsize ∧ ∃ m₁,
        m' = m₁.store32 (fSize f) newsize ∧ Owned m₁ S ∧
        Shrunk S m f (fun k => newsize.slt (m.load32 (fSize f)) ∧ Cut (blocksFor newsize).toNat k) m₁ ∧
        (newsize.slt (m.load32 (fSize f)) →
          (∀ k < INDIRECT, (blocksFor newsize).toNat ≤ k →
            k < (blocksFor (m.load32 (fSize f))).toNat → ptr m' f k = 0#32) ∧
          ((blocksFor newsize).toNat ≤ NDIRECT → ptr m' f INDIRECT = 0#32))) m := by
  rw [fileSetSize, Prog.wp_bind, Prog.wp_get]
  split
  case isFalse hc =>
    refine ⟨(store_size o hf).1, apart_store_size o hf ha, Memory.load32_store32_self, m, rfl, o,
      .refl .., fun h => ?_⟩
    exact absurd h hc
  case isTrue hc =>
    rw [Prog.wp_bind]
    refine (fileTruncateBlocks_wp o hf ha).mono id (fun _ _ h => h) fun _ m₁ h => ?_
    obtain ⟨o₁, h₁, h₂, h₃⟩ := h
    refine ⟨(store_size o₁ hf).1, apart_store_size o₁ hf (h₁.apart hf ha),
      Memory.load32_store32_self, m₁, rfl, o₁,
      h₁.mono fun k hk => ⟨hc, hk⟩, fun _ => ⟨fun k hk h h' => ?_, fun h => ?_⟩⟩
    · rw [ptr_store_size hk.le o₁ hf hf]
      exact h₂ k hk h h'
    · rw [ptr_store_size le_rfl o₁ hf hf]
      exact h₃ h

end Fs

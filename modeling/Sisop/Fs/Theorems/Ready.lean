import Sisop.Fs.Theorems.Contents
import Sisop.Fs.Theorems.Dir

namespace Fs

open Inc Library

section Ready

variable {m m' : Memory} {f d k a c n : Nat} {pos stop count offset : Word} {p : Memory → Nat → Bool}
  {name data : List (BitVec 8)}

-- The block `k` of a file is there, and `file_block_walk` finds it. Nothing is said of the pointers
-- that the walk does not use.
structure Ready (m : Memory) (f k : Nat) : Prop where
  lt       : k < INDIRECT
  ne       : ptr m f k ≠ 0#32
  range    : (ptr m f k).toNat < sNblocks m
  indirect : NDIRECT ≤ k → (ptr m f INDIRECT).toNat < sNblocks m

theorem getBlock_ready (h : Ready m f k) : (fileGetBlock f k).wp False (fun _ _ => False)
    (fun blk m' => m' = m ∧ blk = slot m f k 0) m := by
  have hI : NDIRECT + NINDIRECT = INDIRECT := rfl
  have hwalk : (fileBlockWalk f k true).wp False (fun _ _ => False)
      (fun ref m' => m' = m ∧ m.load32 ref = ptr m f k) m := by
    rw [fileBlockWalk, hI, if_neg (Nat.not_le.mpr h.lt)]
    by_cases hk : k < NDIRECT
    case pos =>
      rw [if_pos hk]
      exact ⟨rfl, (ptr_of_lt hk).symm⟩
    case neg =>
      have hk : NDIRECT ≤ k := Nat.le_of_not_lt hk
      have h₀ : ptr m f INDIRECT ≠ 0#32 := fun h₀ => h.ne (ptr_of_no_indirect hk h.lt h₀)
      simp only [if_neg (Nat.not_lt.mpr hk), Prog.wp_bind, Prog.wp_get, ← ptr_INDIRECT, if_neg h₀]
      refine diskaddr_wp (fun _ => ⟨rfl, ?_⟩) fun hc => hc ⟨h₀, h.indirect hk⟩
      exact (ptr_of_indirect hk h.lt h₀).symm
  rw [fileGetBlock, Prog.wp_bind]
  refine hwalk.mono id (fun _ _ => id) ?_
  rintro ref m' ⟨rfl, href⟩
  simp only [Prog.wp_bind, Prog.wp_get, href, if_neg h.ne]
  refine diskaddr_wp (fun _ => ⟨rfl, ?_⟩) fun hc => hc ⟨h.ne, h.range⟩
  rw [slot, Nat.mul_zero, Nat.add_zero]

theorem dirScan_ready (h : ∀ k, a ≤ k → k < a + c → Ready m d k) :
    (dirScan p d (List.range' a c)).wp False (fun _ _ => False) (fun r m' => m' = m ∧
      (∀ f, r = some f → ∃ k j, k < a + c ∧ j < BLKFILES ∧ f = slot m d k j ∧ p m f) ∧
      (r = none → ∀ k, a ≤ k → k < a + c → ∀ j < BLKFILES, ¬p m (slot m d k j))) m := by
  induction c generalizing a
  case zero =>
    refine ⟨rfl, fun f h => (by cases h), fun _ k h₁ h₂ => ?_⟩
    omega
  case succ c hi =>
    rw [List.range'_succ, dirScan, Prog.wp_bind]
    refine (getBlock_ready (h a le_rfl (by omega))).mono id (fun _ _ => id) ?_
    rintro blk m' ⟨rfl, rfl⟩
    rw [Prog.wp_bind, Prog.wp_get]
    split
    case h_1 j hj =>
      rw [List.find?_range_eq_some] at hj
      refine ⟨rfl, fun f hf => ?_, fun h => by cases h⟩
      cases hf
      exact ⟨a, j, by omega, List.mem_range.mp hj.2.1, slot_eq.symm, hj.1⟩
    case h_2 hj =>
      refine (hi fun k h₁ h₂ => h k (by omega) (by omega)).mono id (fun _ _ => id) ?_
      rintro r m₁ ⟨rfl, h₁, h₂⟩
      refine ⟨rfl, fun f hf => ?_, fun hr k hk₁ hk₂ => ?_⟩
      · obtain ⟨k, j, hk, hj⟩ := h₁ f hf
        exact ⟨k, j, by omega, hj⟩
      · by_cases hka : k = a
        · intro j h
          rw [hka, slot_eq]
          rw [List.find?_range_eq_none] at hj
          simpa using hj j h
        · exact h₂ hr k (by omega) (by omega)

-- A path of one name that only one entry of the root directory has.
theorem fileOpen_ready {path : List (BitVec 8)} (hpath : pathElems path = [name])
    (hlen : name.length < MAXNAMELEN) (hdir : m.load32 (fType sRoot) = FTYPE_DIR)
    (hs : (m.load32 (fSize sRoot)).srem 4096#32 = 0#32)
    (h : ∀ k < nblock m sRoot, Ready m sRoot k) {k j : Nat} (hk : k < nblock m sRoot)
    (hj : j < BLKFILES) (hn : m.strEq (slot m sRoot k j) name)
    (hu : ∀ k' < nblock m sRoot, ∀ j' < BLKFILES, m.strEq (slot m sRoot k' j') name →
      slot m sRoot k' j' = slot m sRoot k j) : fileOpen path m = .ok (slot m sRoot k j) m := by
  have hw : (fileOpen path).wp False (fun _ _ => False)
      (fun f m' => m' = m ∧ f = slot m sRoot k j) m := by
    rw [fileOpen, Prog.wp_bind, hpath, walkPath, if_neg (Nat.not_le.mpr hlen), Prog.wp_bind,
      Prog.wp_get, if_neg (not_not.mpr hdir), Prog.wp_bind, Prog.wp_attempt, dirLookup, Prog.wp_bind,
      dirBlocks, Prog.wp_bind, Prog.wp_get, if_neg (not_not.mpr hs), Prog.wp_pure,
      List.range_eq_range', Prog.wp_bind]
    refine (dirScan_ready fun k _ hk => h k ?_).mono id (fun _ _ h => h.elim) ?_
    · rwa [Nat.zero_add] at hk
    rintro r m' ⟨rfl, h₁, h₂⟩
    rw [Nat.zero_add] at h₁ h₂
    cases r
    case none => exact absurd hn (h₂ rfl k (Nat.zero_le _) hk j hj)
    case some f =>
      obtain ⟨k', j', hk', hj', rfl, hp⟩ := h₁ f rfl
      exact ⟨rfl, hu k' hk' j' hj' hp⟩
  obtain ⟨f, m', hx, rfl, rfl⟩ := hw.exists_ok
  exact hx

theorem readLoop_ready (h : ∀ k < blocks stop.toNat, Ready m f k) (hpos : pos.toNat < 2147483648)
    (hn : stop.toNat - pos.toNat < n) :
    (readLoop f stop n pos).wp False (fun _ _ => False) (fun cs m' => m' = m ∧
      cs.flatMap Chunk.bytes = content m f pos.toNat (stop.toNat - pos.toNat)) m := by
  induction n generalizing pos
  case zero => omega
  case succ n hi =>
    rw [readLoop, Prog.wp_ite]
    refine ⟨fun hlt => ?_, fun hlt => ?_⟩
    case refine_2 =>
      have h₀ : stop.toNat - pos.toNat = 0 := by
        rw [BitVec.lt_def] at hlt
        omega
      rw [h₀]
      exact ⟨rfl, rfl⟩
    have hk := h _ (lt_blocks hlt)
    have hc := chunk_next hk.lt hlt
    rw [Prog.wp_bind, sdiv_toNat hpos]
    refine (getBlock_ready hk).mono id (fun _ _ => id) ?_
    rintro blk m₁ ⟨rfl, rfl⟩
    simp only [Prog.wp_bind, Prog.wp_get]
    refine (hi hc.2.2.2.2 (by omega)).mono id (fun _ _ => id) ?_
    rintro cs m₂ ⟨rfl, hb⟩
    refine ⟨rfl, ?_⟩
    have hfirst : Chunk.bytes ⟨m₂, chunkAddr (slot m₂ f (pos.toNat / BLKSIZE) 0) pos,
        (chunkLen stop pos).toNat⟩ = content m₂ f pos.toNat (chunkLen stop pos).toNat := by
      simp only [Chunk.bytes, content]
      refine List.map_congr_left fun i hi => ?_
      have hd := add_div_mod hc.2.1 (List.mem_range.mp hi)
      rw [chunkAddr_eq hpos, slot, byteAddr, hd.1, hd.2, Nat.mul_zero, Nat.add_zero, Nat.add_assoc]
      rfl
    rw [List.flatMap_cons, hb, hfirst, hc.2.2.2.1]
    have hle := hc.2.2.1
    generalize (chunkLen stop pos).toNat = l at hle ⊢
    exact content_add.symm.trans (congrArg (content m₂ f pos.toNat) (add_sub_add hle))

theorem contents_ready (hs : (m.load32 (fSize f)).toNat = data.length)
    (hlen : data.length ≤ MAXFILESIZE) (h : ∀ k < blocks data.length, Ready m f k)
    (hb : ∀ p < data.length, m (byteAddr m f p) = data.getD p 0) : Contents m f data := by
  have hM : MAXFILESIZE = 1034 * 4096 := by decide
  refine ⟨hs, fun count offset hoff => ?_⟩
  rw [← hs] at hlen h
  have hr : (fileRead f count offset).wp False (fun _ _ => False) (fun r m' => m' = m ∧
      r.1.toNat = min count.toNat (data.length - offset.toNat) ∧ r.2.flatMap Chunk.bytes =
        content m f offset.toNat (min count.toNat (data.length - offset.toNat))) m := by
    rw [fileRead, Prog.wp_bind, Prog.wp_get, Prog.wp_ite, ← hs]
    generalize m.load32 (fSize f) = size at *
    refine ⟨fun hle => ?_, fun hle => ?_⟩
    · have hn : min count.toNat (size.toNat - offset.toNat) = 0 := by
        rw [BitVec.sle_eq_decide, decide_eq_true_iff, BitVec.toInt_eq_toNat_cond,
          BitVec.toInt_eq_toNat_cond] at hle
        omega
      rw [hn]
      exact ⟨rfl, rfl, rfl⟩
    · have hlt := lt_of_not_sle hlen hoff hle
      have hu := umin_rest count hlt
      have hstop := add_umin_rest hlen count hlt
      rw [Prog.wp_bind]
      refine (readLoop_ready (fun k hk => h k (lt_of_lt_of_le hk ?_)) hoff ?_).mono id
        (fun _ _ => id) ?_
      · exact Nat.div_le_div_right (by omega)
      · rw [fuel, BitVec.toNat_sub]
        omega
      · rintro cs m' ⟨rfl, hc⟩
        rw [hstop, hu, Nat.add_sub_cancel_left] at hc
        exact ⟨rfl, hu, hc⟩
  obtain ⟨r, m', hx, rfl, hn, hc⟩ := hr.exists_ok
  obtain ⟨r, cs⟩ := r
  refine ⟨content m' f offset.toNat (min count.toNat (data.length - offset.toNat)), ?_,
    content_length, fun i hi c hc => ?_⟩
  · rw [hx, reply, hc, content_length, ← hn, BitVec.ofNat_toNat, BitVec.setWidth_eq]
  · rw [content_length] at hi
    have hc : data[offset.toNat + i]? = some c := hc
    have hp := hb (offset.toNat + i) (by omega)
    rw [content, List.getElem?_map, List.getElem?_range hi, Option.map_some, hp, List.getD, hc]
    rfl

end Ready

end Fs

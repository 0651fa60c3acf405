import Sisop.Fs.Theorems.Transfer

namespace Fs

open Inc Library

variable {m m' m₁ : Memory} {S : Set Nat} {X : Nat → Prop} {f n : Nat} {pos stop : Word} {c : Chunk}
  {cs : List Chunk} {buf : Nat → BitVec 8}

-- The blocks that hold `size` bytes.
def blocks (size : Nat) : Nat := (size + BLKSIZE - 1) / BLKSIZE

-- Why a transfer may fail: it goes past the largest size of a file, or the disk gets full.
def Short (m : Memory) (f : Nat) (pos stop : Nat) : Prop :=
  MAXFILESIZE < stop ∨ ¬Enough m f (pos / BLKSIZE) (blocks stop)

theorem chunk_next (hk : pos.toNat / BLKSIZE < INDIRECT) (hlt : pos < stop) :
    0 < (chunkLen stop pos).toNat ∧ (chunkLen stop pos).toNat ≤ BLKSIZE - pos.toNat % BLKSIZE ∧
    pos.toNat + (chunkLen stop pos).toNat ≤ stop.toNat ∧
    (pos + chunkLen stop pos).toNat = pos.toNat + (chunkLen stop pos).toNat ∧
    (pos + chunkLen stop pos).toNat < 2147483648 := by
  simp only [INDIRECT_eq, BLKSIZE] at *
  have h : pos.toNat < 2147483648 := by omega
  have h₁ := chunkLen_toNat h hlt
  have h₂ : pos.toNat < stop.toNat := hlt
  rw [BitVec.toNat_add]
  omega

theorem lt_blocks {p q : Nat} (h : p < q) : p / BLKSIZE < blocks q := by
  simp only [blocks, BLKSIZE]
  omega

theorem blocks_le {q : Nat} (h : ¬MAXFILESIZE < q) : blocks q ≤ INDIRECT := by
  have hM : MAXFILESIZE = 1034 * 4096 := by decide
  simp only [blocks, INDIRECT_eq, BLKSIZE]
  omega

theorem short_of_room {p q : Nat} (h : p < q)
    (hr : p / BLKSIZE < INDIRECT → ¬Room m f (p / BLKSIZE)) : Short m f p q := by
  by_cases hq : MAXFILESIZE < q
  · exact .inl hq
  · have := lt_blocks h
    have := blocks_le hq
    exact .inr fun he => hr (by omega) (he.room le_rfl (lt_blocks h))

-- What is missing after a block has been obtained was missing before.
theorem Got.short {p p' q : Nat} (g : Got S m f (p / BLKSIZE) m') (o : Owned m S) (hf : f ∈ S)
    (hp : p ≤ p') (hq : p < q) (h : Short m' f p' q) : Short m f p q := by
  by_cases hm : MAXFILESIZE < q
  · exact .inl hm
  · refine .inr fun he => (h.resolve_left hm) ?_
    refine (g.enough o hf le_rfl (lt_blocks hq) (blocks_le hm) he).mono ?_
    exact Nat.div_le_div_right hp

-- `file_get_block` in a turn of the loops.
theorem getBlock_turn (o : Owned m S) (hf : f ∈ S) (hpos : pos.toNat < 2147483648) (hlt : pos < stop) :
    (fileGetBlock f (pos.sdiv 4096#32).toNat).wp (Short m f pos.toNat stop.toNat)
      (fun _ m' => m' = m ∧ Short m f pos.toNat stop.toNat)
      (fun blk m' => Got S m f (pos.toNat / BLKSIZE) m' ∧
        chunkAddr blk pos = byteAddr m' f pos.toNat) m := by
  rw [sdiv_toNat hpos]
  refine (fileGetBlock_wp o hf).mono (fun h => short_of_room hlt fun _ => h.2) ?_ ?_
  · intro e m₁ h
    refine ⟨h.1, ?_⟩
    rcases h.2 with h | h
    · have := h.2
      have hM : MAXFILESIZE = 1034 * 4096 := by decide
      have hlt' : pos.toNat < stop.toNat := hlt
      rw [INDIRECT_eq] at this
      exact .inl (by omega)
    · exact short_of_room hlt fun _ => h.2.2.2
  · rintro blk m₁ ⟨g, rfl⟩
    exact ⟨g, chunkAddr_eq hpos⟩

theorem add_sub_add {p l q : Nat} (h : p + l ≤ q) : l + (q - (p + l)) = q - p := by omega

theorem Covers.cast {p k : Nat} (h : Covers m f p n cs) (hn : n = k) : Covers m f p k cs := hn ▸ h

-- A chunk at `pos`, and then the chunks after it.
theorem Covers.cons' (hk : pos.toNat / BLKSIZE < INDIRECT) (hlt : pos < stop)
    (h₀ : ptr m f (pos.toNat / BLKSIZE) ≠ 0#32) {mem : Memory}
    (h : Covers m f (pos + chunkLen stop pos).toNat
      (stop.toNat - (pos + chunkLen stop pos).toNat) cs) :
    Covers m f pos.toNat (stop.toNat - pos.toNat)
      (⟨mem, byteAddr m f pos.toNat, (chunkLen stop pos).toNat⟩ :: cs) := by
  have hc := chunk_next hk hlt
  rw [hc.2.2.2.1] at h
  generalize (chunkLen stop pos).toNat = l at *
  have hs := Covers.cons (c := ⟨mem, byteAddr m f pos.toNat, l⟩) hk h₀ rfl hc.1 hc.2.1 h
  exact hs.cast (add_sub_add hc.2.2.1)

-- The `n` bytes of a file from `p` on.
def content (m : Memory) (f p n : Nat) : List (BitVec 8) :=
  (List.range n).map fun i => m (byteAddr m f (p + i))

theorem content_length {p : Nat} : (content m f p n).length = n := by simp [content]

theorem content_add {p k : Nat} : content m f p (k + n) = content m f p k ++ content m f (p + k) n := by
  simp only [content, List.range_add, List.map_append, List.map_map, Nat.add_assoc]
  rfl

-- What `file_read` does: nothing but giving blocks to `f`.
structure Reads (S : Set Nat) (m : Memory) (f : Nat) (m' : Memory) : Prop where
  owned : Owned m' S
  apart : Apart m' f S
  grown : Grown S (fun _ => False) m f m'

theorem Reads.refl (o : Owned m S) (ha : Apart m f S) : Reads S m f m := ⟨o, ha, .refl ..⟩

theorem Reads.trans (h : Reads S m f m₁) (hf : f ∈ S) (h' : Reads S m₁ f m') : Reads S m f m' :=
  ⟨h'.owned, h'.apart, h.grown.trans hf h'.grown⟩

theorem Got.reads {k : Nat} (g : Got S m f k m') (o : Owned m S) (hf : f ∈ S) (ha : Apart m f S) :
    Reads S m f m' :=
  ⟨(g.spec (X := fun _ => False) o hf).1, (g.spec (X := fun _ => False) o hf).2.2 ha,
    (g.spec o hf).2.1⟩

-- The data in the blocks that `f` has is still there.
theorem Reads.content_eq {p : Nat} (h : Reads S m f m') (hf : f ∈ S)
    (hp : ∀ i < n, (p + i) / BLKSIZE < INDIRECT ∧ ptr m f ((p + i) / BLKSIZE) ≠ 0#32) :
    content m' f p n = content m f p n := by
  refine List.map_congr_left fun i hi => ?_
  have hpi := hp i (List.mem_range.mp hi)
  have hb := h.grown.byteAddr hf hpi.1 hpi.2
  have hd : Data m f (byteAddr m f (p + i)) := ⟨_, hpi.1, hpi.2, inBlock_byteAddr ..⟩
  rw [hb]
  exact h.grown.bytes _ (not_table h.owned h.apart hf (h.grown.data hf hd)) id

theorem readLoop_wp (o : Owned m S) (ha : Apart m f S) (hf : f ∈ S) (hpos : pos.toNat < 2147483648)
    (hn : stop.toNat - pos.toNat < n) :
    (readLoop f stop n pos).wp (Short m f pos.toNat stop.toNat)
      (fun _ m' => Reads S m f m' ∧ Short m f pos.toNat stop.toNat)
      (fun cs m' => Reads S m f m' ∧ Covers m' f pos.toNat (stop.toNat - pos.toNat) cs ∧
        cs.flatMap Chunk.bytes = content m' f pos.toNat (stop.toNat - pos.toNat)) m := by
  induction n generalizing m pos
  case zero => omega
  case succ n hi =>
    rw [readLoop, Prog.wp_ite]
    refine ⟨fun hlt => ?_, fun hlt => ?_⟩
    case refine_2 =>
      have h₀ : stop.toNat - pos.toNat = 0 := by
        rw [BitVec.lt_def] at hlt
        omega
      rw [h₀]
      exact ⟨.refl o ha, .nil, rfl⟩
    rw [Prog.wp_bind]
    refine (getBlock_turn o hf hpos hlt).mono id ?_ ?_
    · rintro _ _ ⟨rfl, h⟩
      exact ⟨.refl o ha, h⟩
    rintro blk m₁ ⟨g, hblk⟩
    have r := g.reads o hf ha
    have hc := chunk_next g.lt hlt
    have hlt' : pos.toNat < stop.toNat := hlt
    simp only [Prog.wp_bind, Prog.wp_get]
    refine (hi r.owned r.apart hc.2.2.2.2 (by omega)).mono ?_ ?_ ?_
    · exact g.short o hf (by omega) hlt'
    · exact fun _ m₂ h => ⟨r.trans hf h.1, g.short o hf (by omega) hlt' h.2⟩
    · rintro cs m₂ ⟨h₁, h₂, h₃⟩
      have hb := h₁.grown.byteAddr hf g.lt g.ne
      have h₀ : ptr m₂ f (pos.toNat / BLKSIZE) ≠ 0#32 := by
        rw [h₁.grown.ptr_eq hf g.lt.le g.ne]
        exact g.ne
      rw [hblk, ← hb]
      refine ⟨r.trans hf h₁, h₂.cons' g.lt hlt h₀, ?_⟩
      have he : stop.toNat - pos.toNat = (chunkLen stop pos).toNat +
          (stop.toNat - (pos + chunkLen stop pos).toNat) := by
        omega
      have hblock {i : Nat} (h : i < (chunkLen stop pos).toNat) := add_div_mod hc.2.1 h
      have hc₁ : content m₂ f pos.toNat (chunkLen stop pos).toNat =
          content m₁ f pos.toNat (chunkLen stop pos).toNat :=
        h₁.content_eq hf fun i h => by
          rw [(hblock h).1]
          exact ⟨g.lt, g.ne⟩
      have hc₂ : Chunk.bytes ⟨m₁, byteAddr m₂ f pos.toNat, (chunkLen stop pos).toNat⟩ =
          content m₁ f pos.toNat (chunkLen stop pos).toNat := by
        simp only [Chunk.bytes, content, hb]
        refine List.map_congr_left fun i h => ?_
        have h := hblock (List.mem_range.mp h)
        rw [byteAddr, byteAddr, h.1, h.2, Nat.add_assoc]
      rw [List.flatMap_cons, h₃, hc₂, ← hc₁, hc.2.2.2.1]
      have hle := hc.2.2.1
      generalize (chunkLen stop pos).toNat = l at hle ⊢
      exact content_add.symm.trans (congrArg (content m₂ f pos.toNat) (add_sub_add hle))

-- What `file_write` does after the size has been set: giving blocks to `f` and writing bytes of `X`.
structure Writes (S : Set Nat) (X : Nat → Prop) (m : Memory) (f : Nat) (m' : Memory) : Prop where
  owned : Owned m' S
  apart : Apart m' f S
  grown : Grown S X m f m'

theorem Writes.refl (X : Nat → Prop) (o : Owned m S) (ha : Apart m f S) : Writes S X m f m :=
  ⟨o, ha, .refl ..⟩

theorem Writes.trans (h : Writes S X m f m₁) (hf : f ∈ S) (h' : Writes S X m₁ f m') :
    Writes S X m f m' :=
  ⟨h'.owned, h'.apart, h.grown.trans hf h'.grown⟩

theorem Writes.mono {Y : Nat → Prop} (h : Writes S X m f m') (hx : ∀ x, X x → Y x) :
    Writes S Y m f m' :=
  ⟨h.owned, h.apart, h.grown.mono hx⟩

theorem Reads.writes (h : Reads S m f m') : Writes S X m f m' :=
  ⟨h.owned, h.apart, h.grown.mono fun _ => False.elim⟩

-- A `memmove` of a turn of the loop.
theorem writes_chunk {p l : Nat} (src : Nat → BitVec 8) (o : Owned m S) (ha : Apart m f S)
    (hf : f ∈ S) (hk : p / BLKSIZE < INDIRECT) (h₀ : ptr m f (p / BLKSIZE) ≠ 0#32)
    (hn : l ≤ BLKSIZE - p % BLKSIZE) :
    let m' := m.write (byteAddr m f p) l src
    Writes S (Span m' f p l) m f m' ∧ (∀ k' ≤ INDIRECT, ptr m' f k' = ptr m f k') ∧
      (∀ c, blockIsFree m' c = blockIsFree m c) ∧ ∀ i < l, m' (byteAddr m' f (p + i)) = src i := by
  have h := write_data src o ha hf hk h₀ hn
  exact ⟨⟨h.1, h.2.1, h.2.2.1⟩, h.2.2.2.1 f hf, h.2.2.2.2⟩

theorem Span.append {p l q x : Nat} (h : Span m f p l x ∨ Span m f (p + l) q x) :
    Span m f p (l + q) x := by
  rcases h with ⟨r, h₁, h₂, h⟩ | ⟨r, h₁, h₂, h⟩
  · exact ⟨r, h₁, by omega, h⟩
  · exact ⟨r, by omega, by omega, h⟩

theorem writeLoop_wp (o : Owned m S) (ha : Apart m f S) (hf : f ∈ S) (hpos : pos.toNat < 2147483648)
    (hn : stop.toNat - pos.toNat < n) :
    (writeLoop f stop n buf pos).wp (Short m f pos.toNat stop.toNat)
      (fun _ m' => Writes S (Data m' f) m f m' ∧ Short m f pos.toNat stop.toNat)
      (fun cs m' => Writes S (Span m' f pos.toNat (stop.toNat - pos.toNat)) m f m' ∧
        Covers m' f pos.toNat (stop.toNat - pos.toNat) cs ∧
        (∀ i < stop.toNat - pos.toNat, m' (byteAddr m' f (pos.toNat + i)) = buf i) ∧
        ∀ lo hi, lo ≤ pos.toNat / BLKSIZE → blocks stop.toNat ≤ hi → hi ≤ INDIRECT →
          Enough m f lo hi → Enough m' f lo hi) m := by
  induction n generalizing m pos buf
  case zero => omega
  case succ n hi =>
    rw [writeLoop, Prog.wp_ite]
    refine ⟨fun hlt => ?_, fun hlt => ?_⟩
    case refine_2 =>
      have h₀ : stop.toNat - pos.toNat = 0 := by
        rw [BitVec.lt_def] at hlt
        omega
      rw [h₀]
      exact ⟨.refl _ o ha, .nil, fun i h => absurd h (Nat.not_lt_zero i), fun _ _ _ _ _ => id⟩
    rw [Prog.wp_bind]
    refine (getBlock_turn o hf hpos hlt).mono id ?_ ?_
    · rintro _ _ ⟨rfl, h⟩
      exact ⟨.refl _ o ha, h⟩
    rintro blk m₁ ⟨g, hblk⟩
    have r := g.reads o hf ha
    have hc := chunk_next g.lt hlt
    have hlt' : pos.toNat < stop.toNat := hlt
    simp only [Prog.wp_bind, Prog.wp_get, Prog.wp_modify, hblk]
    have hw := writes_chunk buf r.owned r.apart hf g.lt g.ne hc.2.1
    generalize hm₂ : m₁.write (byteAddr m₁ f pos.toNat) (chunkLen stop pos).toNat buf = m₂ at hw ⊢
    obtain ⟨hw, hp, hfree, hbuf⟩ := hw
    have hshort {p' : Nat} (hp' : pos.toNat ≤ p') (h : Short m₂ f p' stop.toNat) :
        Short m f pos.toNat stop.toNat := by
      refine g.short o hf hp' hlt' ?_
      by_cases hM : MAXFILESIZE < stop.toNat
      · exact .inl hM
      · exact h.imp_right fun h he =>
          h ((enough_congr hw.grown.nblocks hfree hp (blocks_le hM)).mpr he)
    refine (hi hw.owned hw.apart hc.2.2.2.2 (by omega)).mono (hshort (by omega)) ?_ ?_
    · intro _ m₃ h
      refine ⟨r.writes.trans hf (.trans (hw.mono fun x hx => ?_) hf h.1), hshort (by omega) h.2⟩
      exact h.1.grown.data hf hx.data
    · rintro cs m₃ ⟨h₁, h₂, h₃, h₄⟩
      have hk := g.lt
      have h₂₀ : ptr m₂ f (pos.toNat / BLKSIZE) ≠ 0#32 := by
        rw [hp _ hk.le]
        exact g.ne
      have h₀ : ptr m₃ f (pos.toNat / BLKSIZE) ≠ 0#32 := by
        rw [h₁.grown.ptr_eq hf hk.le h₂₀]
        exact h₂₀
      have hb₁ : byteAddr m₁ f pos.toNat = byteAddr m₃ f pos.toNat := by
        rw [h₁.grown.byteAddr hf hk h₂₀, byteAddr, byteAddr, hp _ hk.le]
      rw [hb₁]
      refine ⟨?_, h₂.cons' hk hlt h₀, ?_, fun lo hi hlo hhi hI he => ?_⟩
      · refine r.writes.trans hf (.trans (hw.mono fun x hx => ?_) hf (h₁.mono fun x hx => ?_))
        · have hx := h₁.grown.span hf hx
          have hle := hc.2.2.1
          exact add_sub_add hle ▸ .append (.inl hx)
        · rw [hc.2.2.2.1] at hx
          have hle := hc.2.2.1
          exact add_sub_add hle ▸ .append (.inr hx)
      · intro i hi'
        by_cases h : i < (chunkLen stop pos).toNat
        · have hd := add_div_mod hc.2.1 h
          have hki : (pos.toNat + i) / BLKSIZE < INDIRECT := hd.1 ▸ hk
          have h₂i : ptr m₂ f ((pos.toNat + i) / BLKSIZE) ≠ 0#32 := hd.1 ▸ h₂₀
          have hba := h₁.grown.byteAddr hf hki h₂i
          have hdata : Data m₂ f (byteAddr m₂ f (pos.toNat + i)) :=
            ⟨_, hki, h₂i, inBlock_byteAddr ..⟩
          rw [hba, ← hbuf i h]
          refine h₁.grown.bytes _ (not_table h₁.owned h₁.apart hf (h₁.grown.data hf hdata)) ?_
          rintro ⟨q, hq₁, hq₂, hqk, hq₀, hq⟩
          rw [← hba] at hq
          have := byteAddr_inj h₁.owned hf hki hqk (hd.1 ▸ h₀) hq
          rw [hc.2.2.2.1] at hq₁
          omega
        · have := h₃ (i - (chunkLen stop pos).toNat) (by rw [hc.2.2.2.1]; omega)
          rw [hc.2.2.2.1] at this
          rw [show pos.toNat + i = pos.toNat + (chunkLen stop pos).toNat +
            (i - (chunkLen stop pos).toNat) by omega, this]
          exact congrArg buf (by omega)
      · have he := g.enough o hf hlo (lt_of_lt_of_le (lt_blocks hlt') hhi) hI he
        refine h₄ lo hi (le_trans hlo (Nat.div_le_div_right ?_)) hhi hI
          ((enough_congr hw.grown.nblocks hfree hp hI).mpr he)
        rw [hc.2.2.2.1]
        omega

end Fs

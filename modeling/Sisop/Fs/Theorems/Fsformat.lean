import Sisop.Fs.Theorems.Layout
import Sisop.Fs.Theorems.Ready

namespace Fs.Format

open Inc Library

section Agree

variable {files : List Input} {file : Input} {m : Memory} {f b n k i : Nat}

-- The pointers that the size of a file needs.
def Needed (m : Memory) (f k : Nat) : Prop :=
  k < blocks (m.load32 (fSize f)).toNat ∨ k = INDIRECT ∧ NDIRECT < blocks (m.load32 (fSize f)).toNat

-- A pointer that is null or says one of the `n` blocks from `b` on.
def Spare (b n : Nat) (w : Word) : Prop := w = 0#32 ∨ b ≤ w.toNat ∧ w.toNat < b + n

-- The files that the server finds on the disk.
def OnDisk (files : List Input) (m : Memory) (f : Nat) : Prop :=
  f = sRoot ∨ ∃ file ∈ files, fileOpen file.last m = .ok f m

-- The server finds on the disk what has been put there.
structure Agree (files : List Input) (m : Memory) : Prop where
  magic    : m.load32 super = FS_MAGIC
  checked  : Checked m
  contents : ∀ file ∈ files, ∃ f, fileOpen file.last m = .ok f m ∧ Contents m f file.data
  valid    : ∀ {f k}, OnDisk files m f → Needed m f k → bitmapEnd m ≤ (ptr m f k).toNat ∧
    (ptr m f k).toNat < sNblocks m ∧ blockIsFree m (ptr m f k).toNat = false
  unique   : ∀ {f k f' k'}, OnDisk files m f → OnDisk files m f' → Needed m f k → Needed m f' k' →
    ptr m f k = ptr m f' k' → f = f' ∧ k = k'
  spare    : ∀ {i file f k}, files[i]? = some file → fileOpen file.last m = .ok f m →
    k ≤ INDIRECT → ¬Needed m f k → Spare (start files i) (span file.data.length) (ptr m f k)
  root     : ∀ {k}, k ≤ INDIRECT → ¬Needed m sRoot k →
    Spare (3 + total files) (blocks (dirBytes files.length)) (ptr m sRoot k)

-- What `malloc` left in the pointers of the entry `i` that `finishfile` does not set. Where it left an
-- indirect block, this is one of the blocks with the data of the file.
def Clean (malloc : Memory) (files : List Input) (i : Nat) (file : Input) : Prop :=
  let spare := Spare (start files i) (span file.data.length)
  let ind := malloc.load32 (fIndirect (sizeofFile * i))
  let data : Memory := (file.data.getD · 0)
  (∀ k < NDIRECT, blocks file.data.length ≤ k → spare (malloc.load32 (fDirect (sizeofFile * i) k))) ∧
  (blocks file.data.length < NDIRECT → spare ind ∧ (ind ≠ 0#32 → ∀ j < NINDIRECT,
    spare (data.load32 ((ind.toNat - start files i) * BLKSIZE + 4 * j))))

-- The files fit on a disk of `nblocks` blocks.
structure Fits (nblocks : Nat) (files : List Input) : Prop where
  two   : 2 ≤ nblocks
  le    : nblocks ≤ 1024
  ents  : files.length ≤ MAX_DIR_ENTS
  small : ∀ file ∈ files, file.data.length < MAXFILESIZE
  lt    : 3 + total files + blocks (files.length * sizeofFile) < nblocks

-- A file in the `n` blocks from `b` on; its indirect block is the one behind them.
structure Placed (m : Memory) (f b n : Nat) : Prop where
  nblocks : blocks (m.load32 (fSize f)).toNat = n
  le      : n ≤ INDIRECT
  needed  : ∀ {k}, Needed m f k → (ptr m f k).toNat = b + min k n

namespace Placed

variable (p : Placed m f b n)

include p

theorem needed_iff : Needed m f k ↔ k < n ∨ k = INDIRECT ∧ NDIRECT < n := by
  rw [Needed, p.nblocks]

theorem mem (hk : Needed m f k) : b ≤ (ptr m f k).toNat ∧ (ptr m f k).toNat < b + (n + extra n) := by
  rw [p.needed hk]
  rw [p.needed_iff] at hk
  rcases hk with hk | ⟨rfl, hk⟩
  · omega
  · rw [extra, if_pos hk.le]
    have := p.le
    omega

theorem ready (hb : 3 ≤ b) (hn : b + (n + extra n) ≤ sNblocks m) (hk : k < n) : Ready m f k := by
  have hneed : Needed m f k := p.needed_iff.mpr (.inl hk)
  have hm := p.mem hneed
  have hle := p.le
  refine ⟨by omega, fun h₀ => ?_, by omega, fun hN => ?_⟩
  · rw [h₀] at hm
    have : (0#32).toNat = 0 := rfl
    omega
  · have := p.mem (p.needed_iff.mpr (.inr ⟨rfl, by omega⟩))
    omega

end Placed

section Entry

variable {malloc : Memory} {e : Nat} (h : FileAt malloc e file b m f)
  (hs : file.data.length < MAXFILESIZE) (hb : b + span file.data.length ≤ 1024)

theorem toNat_ofNat_le {n : Nat} (h : n ≤ 1024) : (BitVec.ofNat 32 n).toNat = n := by
  rw [BitVec.toNat_ofNat]
  omega

include h hs

theorem FileAt.size_toNat : (m.load32 (fSize f)).toNat = file.data.length := by
  have hM : MAXFILESIZE = 1034 * 4096 := by decide
  rw [h.size, BitVec.toNat_ofNat]
  omega

theorem FileAt.needed_iff : Needed m f k ↔
    k < blocks file.data.length ∨ k = INDIRECT ∧ NDIRECT < blocks file.data.length := by
  rw [Needed, h.size_toNat hs]

include hb

omit hs in
-- Where there is an indirect block, it is the one behind the data.
theorem FileAt.ptr_indirect (hN : NDIRECT ≤ blocks file.data.length) :
    (ptr m f INDIRECT).toNat = b + blocks file.data.length := by
  rw [span, extra, if_pos hN] at hb
  rw [ptr_INDIRECT, h.indirect, if_pos hN, toNat_ofNat_le (by omega)]

omit hs in
theorem FileAt.ptr_table (h₃ : 3 ≤ b) (hN : NDIRECT ≤ blocks file.data.length) (h₁ : NDIRECT ≤ k)
    (h₂ : k < INDIRECT) :
    ptr m f k = if k < blocks file.data.length then BitVec.ofNat 32 (b + k) else 0#32 := by
  have hi := h.ptr_indirect hb hN
  have h₀ : ptr m f INDIRECT ≠ 0#32 := by
    intro h₀
    rw [h₀] at hi
    have : (0#32).toNat = 0 := rfl
    omega
  have hI : INDIRECT = NDIRECT + NINDIRECT := rfl
  rw [ptr_of_indirect h₁ h₂ h₀, hi, h.table hN _ (by omega), Nat.add_sub_cancel' h₁]

theorem FileAt.placed (h₃ : 3 ≤ b) : Placed m f b (blocks file.data.length) where
  nblocks := by rw [h.size_toNat hs]
  le      := blocks_le hs.not_gt
  needed  := by
    intro k hk
    have hle := blocks_le hs.not_gt
    rw [h.needed_iff hs] at hk
    rcases hk with hk | ⟨rfl, hk⟩
    · rw [span] at hb
      rw [Nat.min_eq_left hk.le]
      by_cases hN : k < NDIRECT
      · rw [ptr_of_lt hN, h.direct k hN, if_pos hk, toNat_ofNat_le (by omega)]
      · rw [h.ptr_table hb h₃ (by omega) (by omega) (by omega), if_pos hk, toNat_ofNat_le (by omega)]
    · rw [h.ptr_indirect hb hk.le, Nat.min_eq_right hle]

theorem FileAt.contents (h₃ : 3 ≤ b) (hn : b + span file.data.length ≤ sNblocks m) :
    Contents m f file.data := by
  have p := h.placed hs hb h₃
  refine contents_ready (h.size_toNat hs) hs.le (fun k hk => p.ready h₃ hn hk) fun x hx => ?_
  have hk := lt_blocks hx
  rw [← h.data x (lt_of_lt_of_le hx (by simp only [blocks, BLKSIZE]; omega)), byteAddr,
    p.needed (p.needed_iff.mpr (.inl hk)), Nat.min_eq_left hk.le]
  refine congrArg m ?_
  simp only [BLKSIZE]
  omega

omit hs hb in
-- Words of an indirect block that `malloc` left are words of the data.
theorem FileAt.ptr_data (h₁ : NDIRECT ≤ k) (h₂ : k < INDIRECT)
    (hN : blocks file.data.length < NDIRECT) (h₀ : ptr m f INDIRECT ≠ 0#32)
    (hi : b ≤ (ptr m f INDIRECT).toNat ∧ (ptr m f INDIRECT).toNat < b + span file.data.length) :
    ptr m f k = Memory.load32 (file.data.getD · 0)
      (((ptr m f INDIRECT).toNat - b) * BLKSIZE + 4 * (k - NDIRECT)) := by
  rw [span, extra, if_neg (by omega), Nat.add_zero] at hi
  rw [ptr_of_indirect h₁ h₂ h₀]
  generalize (ptr m f INDIRECT).toNat = w at hi ⊢
  obtain ⟨j, rfl⟩ := Nat.exists_eq_add_of_le hi.1
  rw [Nat.add_sub_cancel_left]
  refine Memory.load32_move fun i hi' => ?_
  have hj : j * BLKSIZE + BLKSIZE ≤ blocks file.data.length * BLKSIZE := by
    rw [← Nat.succ_mul]
    exact Nat.mul_le_mul_right _ (by omega)
  have hk : 4 * (k - NDIRECT) + i < BLKSIZE := by
    simp only [INDIRECT_eq, NDIRECT, BLKSIZE] at *
    omega
  refine Eq.trans (congrArg m ?_) (h.data (j * BLKSIZE + 4 * (k - NDIRECT) + i) (by omega))
  rw [Nat.add_mul]
  omega

-- The pointers that the size does not need are those that `malloc` left.
theorem FileAt.spare_iff {i : Nat} (h₃ : 3 ≤ b) (he : e = sizeofFile * i) (hst : start files i = b) :
    (∀ k ≤ INDIRECT, ¬Needed m f k → Spare b (span file.data.length) (ptr m f k)) ↔
      Clean malloc files i file := by
  have hI : INDIRECT = NDIRECT + NINDIRECT := rfl
  have hpos : 0 < NINDIRECT := by decide
  have hp : blocks file.data.length < NDIRECT → ptr m f INDIRECT = malloc.load32 (fIndirect e) := by
    intro hN
    rw [ptr_INDIRECT, h.indirect, if_neg (by omega)]
  simp only [h.needed_iff hs, Clean, hst, ← he]
  constructor
  case mp =>
    refine fun hk => ⟨fun k h₁ h₂ => ?_, fun hN => ?_⟩
    · have := hk k (by omega) (by omega)
      rwa [ptr_of_lt h₁, h.direct k h₁, if_neg (by omega)] at this
    · rw [← hp hN]
      have hind := hk INDIRECT le_rfl (by omega)
      refine ⟨hind, fun h₀ j hj => ?_⟩
      have := hk (NDIRECT + j) (by omega) (by omega)
      rwa [h.ptr_data (by omega) (by omega) hN h₀ (hind.resolve_left h₀),
        Nat.add_sub_cancel_left] at this
  case mpr =>
    rintro ⟨hd, hi⟩ k hk hn
    by_cases h₁ : k < NDIRECT
    · rw [ptr_of_lt h₁, h.direct k h₁, if_neg (by omega)]
      exact hd k h₁ (by omega)
    by_cases hN : blocks file.data.length < NDIRECT
    · rw [← hp hN] at hi
      obtain ⟨hind, hw⟩ := hi hN
      by_cases hkI : k = INDIRECT
      · rwa [hkI]
      · by_cases h₀ : ptr m f INDIRECT = 0#32
        · exact .inl (ptr_of_no_indirect (by omega) (by omega) h₀)
        · rw [h.ptr_data (by omega) (by omega) hN h₀ (hind.resolve_left h₀)]
          exact hw h₀ _ (by omega)
    · by_cases hkI : k = INDIRECT
      · subst hkI
        rw [Spare, h.ptr_indirect hb (by omega), span, extra, if_pos (by omega)]
        exact .inr (by omega)
      · rw [h.ptr_table hb h₃ (by omega) (by omega) (by omega), if_neg (by omega)]
        exact .inl rfl

end Entry

section Image

variable {malloc : Memory} {nblocks : Nat} (I : Image nblocks malloc files m) (hb : nblocks ≤ 1024)

-- Where the `struct File` of the entry `i` is; behind the last entry, that of the root directory.
def place (files : List Input) (i : Nat) : Nat :=
  if i < files.length then (3 + total files) * BLKSIZE + sizeofFile * i else sRoot

-- The blocks of the entry `i`, and behind the last entry those of the root directory.
def taken (files : List Input) (i : Nat) : Nat :=
  match files[i]? with
  | some file => blocks file.data.length
  | none      => blocks (dirBytes files.length)

include I

theorem Image.blocks_le : 3 + total files + blocks (dirBytes files.length) ≤ nblocks := by
  have := I.lt
  rw [blocks_dirBytes]
  split <;> omega

theorem Image.dir_le : blocks (dirBytes files.length) ≤ 8 := by
  have := I.le
  rw [MAX_DIR_ENTS] at this
  rw [blocks_dirBytes]
  split
  · omega
  · simp only [blocks, sizeofFile, BLKSIZE]
    omega

include hb

omit hb in
theorem Image.dir_size : (m.load32 (fSize sRoot)).toNat = dirBytes files.length := by
  have := I.dir_le
  rw [I.size, BitVec.toNat_ofNat]
  simp only [blocks, BLKSIZE] at this
  omega

theorem Image.root : Placed m sRoot (3 + total files) (blocks (dirBytes files.length)) where
  nblocks := by rw [I.dir_size]
  le      := le_trans I.dir_le (by decide)
  needed  := by
    intro k hk
    have hle := I.dir_le
    have hn := I.blocks_le
    rw [Needed, I.dir_size] at hk
    have hk : k < blocks (dirBytes files.length) := by
      refine hk.resolve_right fun h => ?_
      have := h.2
      rw [NDIRECT] at this
      omega
    have hN : k < NDIRECT := by
      rw [NDIRECT]
      omega
    rw [ptr_of_lt hN, I.direct k hN, if_pos hk, Nat.min_eq_left hk.le, toNat_ofNat_le (by omega)]

omit I hb in
theorem span_le (h : files[i]? = some file) :
    start files i + span file.data.length ≤ 3 + total files := by
  rw [← start_succ h, ← start_length]
  exact start_mono (List.getElem?_eq_some_iff.mp h).1

theorem Image.placed (hi : i ≤ files.length) :
    Placed m (place files i) (start files i) (taken files i) := by
  rcases Nat.lt_or_eq_of_le hi with h | rfl
  · obtain ⟨file, hf⟩ : ∃ file, files[i]? = some file := ⟨_, List.getElem?_eq_getElem h⟩
    have hle := span_le hf
    have hlt := I.lt
    rw [place, if_pos h, taken, hf]
    exact (I.entry i file hf).placed (I.small file (List.mem_of_getElem? hf)) (by omega)
      (Nat.le_add_right 3 _)
  · rw [place, if_neg (lt_irrefl _), taken, List.getElem?_eq_none le_rfl, start_length]
    exact I.root hb

omit I hb in
-- The blocks of an entry come before those of the entries behind it.
theorem taken_le {j : Nat} (hi : i < j) (hj : j ≤ files.length) :
    start files i + (taken files i + extra (taken files i)) ≤ start files j := by
  obtain ⟨file, hf⟩ : ∃ file, files[i]? = some file :=
    ⟨_, List.getElem?_eq_getElem (lt_of_lt_of_le hi hj)⟩
  rw [taken, hf]
  exact (start_succ hf).symm.le.trans (start_mono hi)

omit hb in
theorem Image.taken_lt (hi : i ≤ files.length) :
    start files i + (taken files i + extra (taken files i)) ≤ 3 + total files +
      blocks (dirBytes files.length) := by
  rcases Nat.lt_or_eq_of_le hi with h | rfl
  · have := (taken_le h le_rfl).trans_eq start_length
    omega
  · have := I.dir_le
    have ht : taken files files.length = blocks (dirBytes files.length) := by
      rw [taken, List.getElem?_eq_none le_rfl]
    rw [ht, start_length, extra, if_neg (by rw [NDIRECT]; omega)]
    omega

theorem Image.ready {k : Nat} (hi : i ≤ files.length) (hk : k < taken files i) :
    Ready m (place files i) k := by
  have hle := I.taken_lt hi
  have hn := I.blocks_le
  refine (I.placed hb hi).ready (Nat.le_add_right 3 _) ?_ hk
  rw [I.nblocks]
  omega

-- The entries of the root directory.
theorem Image.slot_eq (hi : i < BLKFILES * blocks (dirBytes files.length)) :
    slot m sRoot (i / BLKFILES) (i % BLKFILES) = (3 + total files) * BLKSIZE + sizeofFile * i := by
  have hB : BLKFILES = 16 := by decide
  rw [hB] at hi ⊢
  have hk : i / 16 < blocks (dirBytes files.length) := by omega
  have hr := I.root hb
  rw [slot, hr.needed (hr.needed_iff.mpr (.inl hk)), Nat.min_eq_left hk.le]
  simp only [BLKSIZE, sizeofFile]
  omega

omit hb in
theorem length_le_dir : files.length ≤ BLKFILES * blocks (dirBytes files.length) := by
  have hB : BLKFILES = 16 := by decide
  have := I.le
  rw [blocks_dirBytes, hB]
  split
  · omega
  · simp only [blocks, sizeofFile, BLKSIZE]
    omega

section Names

variable (hname : ∀ file ∈ files, Last file.last) (hdup : (files.map Input.last).Nodup)

include hname hdup

omit hb in
-- Only the entry of a file has its name.
theorem Image.strEq_iff (h : files[i]? = some file) {j : Nat}
    (hj : j < BLKFILES * blocks (dirBytes files.length)) :
    m.strEq ((3 + total files) * BLKSIZE + sizeofFile * j) file.last ↔ j = i := by
  have hl := hname file (List.mem_of_getElem? h)
  rcases Nat.lt_or_ge j files.length with hlt | hge
  · obtain ⟨file', hf⟩ : ∃ file', files[j]? = some file' := ⟨_, List.getElem?_eq_getElem hlt⟩
    have hl' := hname file' (List.mem_of_getElem? hf)
    rw [Memory.strEq_iff (I.entry j file' hf).name hl'.1.2.1 hl.1.2.1]
    constructor
    · intro he
      refine (List.getElem?_inj (by rwa [List.length_map]) hdup).mp ?_
      rw [List.getElem?_map, List.getElem?_map, hf, h, Option.map_some, Option.map_some, he]
    · rintro rfl
      rw [h] at hf
      cases hf
      rfl
  · have hi := (List.getElem?_eq_some_iff.mp h).1
    refine iff_of_false (fun hs => ne_zero_of_strEq hl.1.1 hl.1.2.1 hs (I.blank _ ?_ ?_)) (by omega)
    · exact Nat.add_le_add_left (Nat.mul_le_mul_left _ hge) _
    · have hB : BLKFILES = 16 := by decide
      rw [hB] at hj
      simp only [BLKSIZE, sizeofFile]
      omega

omit I hb hname hdup in
theorem pathElems_last {name : List (BitVec 8)} (h : Last name) : pathElems name = [name] := by
  have htake : name.takeWhile (· ≠ 0#8) = name := by
    rw [List.takeWhile_eq_self_iff]
    intro c hc
    exact decide_eq_true fun h₀ => h.1.2.1 (h₀ ▸ hc)
  rw [pathElems, htake, List.splitOnP_eq_singleton]
  · simp [h.1.1]
  · intro c hc
    exact decide_eq_false fun hs => h.2 (hs ▸ hc)

-- The server finds each file in its entry.
theorem Image.open_eq (h : files[i]? = some file) :
    fileOpen file.last m = .ok (place files i) m := by
  have hi := (List.getElem?_eq_some_iff.mp h).1
  have hl := hname file (List.mem_of_getElem? h)
  have hB : 0 < BLKFILES := by decide
  have hlt := lt_of_lt_of_le hi (length_le_dir I)
  have hne : files.length ≠ 0 := by omega
  have hbytes : dirBytes files.length = blocks (files.length * sizeofFile) * BLKSIZE := if_neg hne
  have hsize := I.dir_size
  have h8 := I.dir_le
  have hr : blocks (dirBytes files.length) = blocks (files.length * sizeofFile) := by
    rw [blocks_dirBytes, if_neg hne]
  have hsmall : (m.load32 (fSize sRoot)).toNat < 2147483648 := by
    rw [hsize, hbytes, BLKSIZE]
    omega
  have hnb : nblock m sRoot = blocks (dirBytes files.length) := by
    rw [nblock, sdiv_toNat hsmall, hsize, hr, hbytes, BLKSIZE]
    omega
  have hslot {k j : Nat} (hk : k < nblock m sRoot) (hj : j < BLKFILES) :
      k * BLKFILES + j < BLKFILES * blocks (dirBytes files.length) ∧ slot m sRoot k j =
        (3 + total files) * BLKSIZE + sizeofFile * (k * BLKFILES + j) := by
    have hlt : k * BLKFILES + j < BLKFILES * blocks (dirBytes files.length) := by
      rw [hnb] at hk
      have := Nat.mul_le_mul_left BLKFILES (Nat.succ_le_of_lt hk)
      rw [Nat.mul_succ, Nat.mul_comm] at this
      omega
    refine ⟨hlt, ?_⟩
    rw [← I.slot_eq hb hlt, Nat.mul_comm k, Nat.mul_add_div hB, Nat.mul_add_mod, Nat.div_eq_of_lt hj,
      Nat.mod_eq_of_lt hj, Nat.add_zero]
  have hp : place files i = slot m sRoot (i / BLKFILES) (i % BLKFILES) := by
    rw [I.slot_eq hb hlt, place, if_pos hi]
  rw [hp]
  refine fileOpen_ready (pathElems_last hl) hl.1.2.2 I.type ?_ (fun k hk => ?_) ?_
    (Nat.mod_lt _ hB) ?_ fun k hk j hj hs => ?_
  · refine BitVec.eq_of_toNat_eq ?_
    rw [srem_toNat hsmall, hsize, hbytes, BLKSIZE]
    exact Nat.mul_mod_left _ _
  · have hk : k < taken files files.length := by
      rwa [taken, List.getElem?_eq_none le_rfl, ← hnb]
    have := I.ready hb le_rfl hk
    rwa [place, if_neg (lt_irrefl _)] at this
  · rw [hnb]
    exact Nat.div_lt_of_lt_mul hlt
  · rw [I.slot_eq hb hlt]
    exact (I.strEq_iff hname hdup h hlt).mpr rfl
  · have hs' := hslot hk hj
    rw [hs'.2] at hs ⊢
    rw [(I.strEq_iff hname hdup h hs'.1).mp hs, I.slot_eq hb hlt]

theorem Image.onDisk (h : OnDisk files m f) : ∃ i ≤ files.length, f = place files i := by
  rcases h with rfl | ⟨file, hf, hx⟩
  · exact ⟨files.length, le_rfl, by rw [place, if_neg (lt_irrefl _)]⟩
  · obtain ⟨i, hi⟩ := List.mem_iff_getElem?.mp hf
    rw [I.open_eq hb hname hdup hi] at hx
    cases hx
    exact ⟨i, (List.getElem?_eq_some_iff.mp hi).1.le, rfl⟩

omit hname hdup in
-- The blocks that the pointers of the entries say come in the order of the entries.
theorem Image.ptr_lt {i j k k' : Nat} (h : i < j) (hj : j ≤ files.length)
    (hk : Needed m (place files i) k) (hk' : Needed m (place files j) k') :
    (ptr m (place files i) k).toNat < (ptr m (place files j) k').toNat :=
  lt_of_lt_of_le ((I.placed hb (h.le.trans hj)).mem hk).2
    ((taken_le h hj).trans ((I.placed hb hj).mem hk').1)

theorem Image.agree (hne : files ≠ [])
    (hc : ∀ i file, files[i]? = some file → Clean malloc files i file) : Agree files m := by
  have hn := I.nblocks
  have hd := I.blocks_le
  have hdir : blocks (dirBytes files.length) = blocks (files.length * sizeofFile) := by
    rw [blocks_dirBytes, if_neg (by simpa using hne)]
  have hend : bitmapEnd m = 3 := by
    have := I.lt
    rw [bitmapEnd_eq, hn]
    omega
  refine ⟨I.magic, ⟨?_, fun c hc => ?_⟩, fun file hf => ?_, fun {f k} hf hk => ?_,
    fun {f k f' k'} hf hf' hk hk' he => ?_, fun {i file f k} hi hf hk hneed => ?_, fun {k} hk hneed => ?_⟩
  · omega
  · rw [Bool.eq_false_iff, Ne, I.free]
    omega
  · obtain ⟨i, hi⟩ := List.mem_iff_getElem?.mp hf
    have hle := span_le hi
    have hlt := (List.getElem?_eq_some_iff.mp hi).1
    refine ⟨_, I.open_eq hb hname hdup hi, ?_⟩
    rw [place, if_pos hlt]
    exact (I.entry i file hi).contents (I.small file hf) (by omega) (Nat.le_add_right 3 _) (by omega)
  · obtain ⟨i, hi, rfl⟩ := I.onDisk hb hname hdup hf
    have hm := (I.placed hb hi).mem hk
    have ht := I.taken_lt hi
    have hs : 3 ≤ start files i := Nat.le_add_right 3 _
    refine ⟨by omega, by omega, ?_⟩
    rw [Bool.eq_false_iff, Ne, I.free]
    omega
  · obtain ⟨i, hi, rfl⟩ := I.onDisk hb hname hdup hf
    obtain ⟨j, hj, rfl⟩ := I.onDisk hb hname hdup hf'
    rcases lt_trichotomy i j with h | rfl | h
    · have := I.ptr_lt hb h hj hk hk'
      rw [he] at this
      omega
    · have p := I.placed hb hi
      have hp := p.needed hk
      rw [he, p.needed hk'] at hp
      rw [p.needed_iff] at hk hk'
      have := p.le
      exact ⟨rfl, by omega⟩
    · have := I.ptr_lt hb h hi hk' hk
      rw [he] at this
      omega
  · rw [I.open_eq hb hname hdup hi] at hf
    cases hf
    have hle := span_le hi
    have hlt := (List.getElem?_eq_some_iff.mp hi).1
    rw [place, if_pos hlt] at hneed ⊢
    exact ((I.entry i file hi).spare_iff (I.small file (List.mem_of_getElem? hi)) (by omega)
      (Nat.le_add_right 3 _) rfl rfl).mpr (hc i file hi) k hk hneed
  · have h₀ : ptr m sRoot INDIRECT = 0#32 := by
      rw [ptr_INDIRECT, I.indirect]
    rw [Needed, I.dir_size] at hneed
    refine .inl ?_
    by_cases hN : k < NDIRECT
    · rw [ptr_of_lt hN, I.direct k hN, if_neg (by omega)]
    · by_cases hI : k = INDIRECT
      · rw [hI, h₀]
      · exact ptr_of_no_indirect (by omega) (by omega) h₀

theorem Image.agree_iff : Agree files m ↔
    files ≠ [] ∧ ∀ i file, files[i]? = some file → Clean malloc files i file := by
  refine ⟨fun A => ⟨?_, fun i file hi => ?_⟩, fun h => I.agree hb hname hdup h.1 h.2⟩
  · -- The block of an empty directory is not marked as in use.
    rintro rfl
    have p := I.root hb
    have hk : Needed m sRoot 0 := p.needed_iff.mpr (.inl (by decide))
    have hfree := (A.valid (.inl rfl) hk).2.2
    rw [p.needed hk, Bool.eq_false_iff, Ne, I.free] at hfree
    have := I.lt
    exact hfree ⟨by simp [total, blocks, BLKSIZE], by simpa [total, blocks, BLKSIZE] using this⟩
  · have hle := span_le hi
    have hd := I.blocks_le
    have hx := I.open_eq hb hname hdup hi
    rw [place, if_pos (List.getElem?_eq_some_iff.mp hi).1] at hx
    refine ((I.entry i file hi).spare_iff (I.small file (List.mem_of_getElem? hi)) (by omega)
      (Nat.le_add_right 3 _) rfl rfl).mp fun k hk hn => A.spare hi hx hk hn

end Names

end Image

section Total

variable {nblocks : Nat} {malloc : Memory} {done : List Input} {s s' : State} {w len : Word} {l : Nat}

theorem total_append {files' : List Input} : total (files ++ files') = total files + total files' := by
  simp [total]

theorem alloc_some (h : (s.diskpos + (ROUNDUP w).toNat) / BLKSIZE < nblocks) :
    alloc nblocks w s = some (s.diskpos, { s with diskpos := s.diskpos + (ROUNDUP w).toNat }) :=
  if_neg (Nat.not_le.mpr h)

theorem finishfile_some (hl : len.toNat = l) (hlen : l ≤ MAXFILESIZE)
    (h : (s.diskpos + extra (blocks l) * BLKSIZE) / BLKSIZE < nblocks) :
    ∃ s', finishfile nblocks f w len s = some s' := by
  have hM : MAXFILESIZE = 1034 * 4096 := by decide
  have hn : (ROUNDUP len).toNat / BLKSIZE = blocks l := by
    rw [ROUNDUP_toNat (by omega), hl, Nat.mul_div_cancel _ (by decide)]
  simp only [finishfile, hn]
  split
  case isFalse => exact ⟨_, rfl⟩
  case isTrue hN =>
    rw [extra, if_pos hN] at h
    rw [alloc_some]
    · exact ⟨_, rfl⟩
    · exact h

theorem writefile_some (hdisk : s.diskpos = b * BLKSIZE) (hn : s.n + 1 ≤ MAX_DIR_ENTS)
    (hs : file.data.length < MAXFILESIZE) (h : b + span file.data.length < nblocks) :
    ∃ s', writefile nblocks s file = some s' := by
  have hM : MAXFILESIZE = 1034 * 4096 := by decide
  have hsize : (BitVec.ofNat 32 file.data.length).toNat = file.data.length := by
    rw [BitVec.toNat_ofNat]
    omega
  have hr : (ROUNDUP (BitVec.ofNat 32 file.data.length)).toNat = blocks file.data.length * BLKSIZE := by
    rw [ROUNDUP_toNat (by omega), hsize]
  rw [span, ← Nat.add_assoc] at h
  simp only [writefile, if_neg (Nat.not_le.mpr hs), diradd, if_neg (Nat.not_lt.mpr hn)]
  refine Option.isSome_iff_exists.mp ?_
  simp only [Option.bind_eq_bind, Option.bind_some]
  rw [alloc_some]
  · refine Option.isSome_iff_exists.mpr (finishfile_some hsize hs.le ?_)
    simp only [hdisk, hr, ← Nat.add_mul]
    rwa [Nat.mul_div_cancel _ (by decide)]
  · simp only [hdisk, hr, ← Nat.add_mul]
    rw [Nat.mul_div_cancel _ (by decide)]
    omega

theorem files_some (hF : Fits nblocks (done ++ files)) (L : Laid nblocks malloc done s)
    (hname : ∀ f ∈ done ++ files, f.last.length < MAXNAMELEN) :
    ∃ s', files.foldlM (writefile nblocks) s = some s' := by
  induction files generalizing done s
  case nil => exact ⟨s, rfl⟩
  case cons file files hi =>
    have hents := hF.ents
    have hlt := hF.lt
    have htotal : total (file :: files) = span file.data.length + total files := by simp [total]
    rw [total_append, htotal] at hlt
    rw [List.length_append, List.length_cons] at hents
    have hn : s.n + 1 ≤ MAX_DIR_ENTS := by
      rw [L.n]
      omega
    have hroom : 3 + total done + span file.data.length < nblocks := by omega
    obtain ⟨s₁, h₁⟩ := writefile_some L.diskpos hn
      (hF.small file (List.mem_append_right _ List.mem_cons_self)) hroom
    rw [List.append_cons] at hF hname
    have L₁ := writefile_laid L hF.le (fun f hf => hname f (List.mem_append_left _ hf)) h₁
    obtain ⟨s₂, h₂⟩ := hi hF L₁ hname
    rw [List.foldlM_cons, h₁]
    exact ⟨s₂, h₂⟩

theorem opendisk_some (h : 3 < nblocks) (hb : nblocks ≤ 1024) :
    ∃ s, opendisk nblocks malloc = some s := by
  have hbits : (nblocks + BLKBITSIZE - 1) / BLKBITSIZE = 1 := by
    simp only [BLKBITSIZE, BLKSIZE]
    omega
  have hpage : (ROUNDUP 4096#32).toNat = 4096 := by decide
  have hp : (ROUNDUP (BitVec.ofNat 32 BLKSIZE)).toNat = 4096 := hpage
  simp only [opendisk, hbits, Nat.one_mul]
  refine Option.isSome_iff_exists.mp ?_
  rw [alloc_some, Option.bind_eq_bind, Option.bind_some, alloc_some, Option.bind_some, alloc_some]
  · rfl
  all_goals
    simp only [hpage, BLKSIZE]
    omega

theorem finishdir_some (L : Laid nblocks malloc files s)
    (h : 3 + total files + blocks (files.length * sizeofFile) < nblocks) :
    ∃ s', finishdir nblocks s = some s' := by
  obtain ⟨hsize, hr, hdir, hl8⟩ := dirBytes_toNat L.le
  have hM : MAXFILESIZE = 1034 * 4096 := by decide
  have hroom : (s.diskpos + (ROUNDUP (BitVec.ofNat 32 (files.length * sizeofFile))).toNat) / BLKSIZE =
      3 + total files + blocks (files.length * sizeofFile) := by
    have hle : files.length ≤ 128 := L.le
    rw [ROUNDUP_toNat (by rw [hsize, sizeofFile]; omega), hsize, L.diskpos, ← Nat.add_mul,
      Nat.mul_div_cancel _ (by decide)]
  simp only [finishdir, L.n]
  refine Option.isSome_iff_exists.mp ?_
  rw [alloc_some, Option.bind_eq_bind, Option.bind_some]
  · refine Option.isSome_iff_exists.mpr (finishfile_some hdir ?_ ?_)
    · simp only [blocks, BLKSIZE] at hl8
      omega
    · rw [extra, if_neg (by rw [NDIRECT]; omega), Nat.zero_mul, Nat.add_zero, hroom]
      exact h
  · rw [hroom]
    exact h

-- With files that fit, `main` gets to its end.
theorem fsformat_some (hF : Fits nblocks files) (hname : ∀ f ∈ files, f.last.length < MAXNAMELEN) :
    ∃ m, fsformat nblocks files malloc = some m := by
  have hlt := hF.lt
  obtain ⟨s₁, h₁⟩ := @opendisk_some nblocks malloc (by omega) hF.le
  have L₁ := opendisk_laid hF.two hF.le h₁
  have hF₀ : Fits nblocks ([] ++ files) := by simpa using hF
  obtain ⟨s₂, h₂⟩ := files_some hF₀ L₁ (by simpa using hname)
  have L₂ := files_laid hF.le L₁ (by simpa using hname) h₂
  obtain ⟨s₃, h₃⟩ := finishdir_some L₂ (by simpa using hlt)
  refine ⟨finishdisk s₃, ?_⟩
  rw [fsformat, if_neg (by have := hF.two; have := hF.le; omega), h₁, Option.bind_eq_bind,
    Option.bind_some, h₂, Option.bind_some, h₃]
  rfl

-- What goes wrong is that the entries come from `malloc`, of whose bytes no others are set than the name
-- up to its null byte, the type, the size and the pointers that the size needs; and that an empty
-- directory has a block which is not marked as in use.
theorem fsformat_agrees (hF : Fits nblocks files) (hname : ∀ file ∈ files, Last file.last)
    (hdup : (files.map Input.last).Nodup) :
    ∃ m, fsformat nblocks files malloc = some m ∧
      (Agree files m ↔
        files ≠ [] ∧ ∀ i file, files[i]? = some file → Clean malloc files i file) := by
  have hlen : ∀ file ∈ files, file.last.length < MAXNAMELEN := fun file h => (hname file h).1.2.2
  obtain ⟨m, hm⟩ := @fsformat_some files nblocks malloc hF hlen
  have I := fsformat_image hlen hm
  exact ⟨m, hm, I.2.agree_iff I.1 hname hdup⟩

-- A file `a` of one byte.
def one : List Input := [⟨[0x61], [0x41]⟩]

theorem fits_one : Fits 8 one :=
  ⟨by decide, by decide, by decide, by decide, by decide⟩

theorem last_one : ∀ file ∈ one, Last file.last := by
  simp only [one, Last, Name]
  decide

theorem fsformat_agrees_one : ∃ m, fsformat 8 one (fun _ => 0#8) = some m ∧ (Agree one m ↔
    one ≠ [] ∧ ∀ i file, one[i]? = some file → Clean (fun _ => 0#8) one i file) :=
  fsformat_agrees fits_one last_one (by decide)

theorem not_fsformat_agrees : ¬∀ {nblocks files malloc}, Fits nblocks files →
    (∀ file ∈ files, Last file.last) → (files.map Input.last).Nodup →
    ∃ m, fsformat nblocks files malloc = some m ∧ Agree files m := by
  intro h
  obtain ⟨m, hm, A⟩ := @h 8 one (fun _ => 1#8) fits_one last_one (by decide)
  have I := fsformat_image (fun file h => (last_one file h).1.2.2) hm
  have hc := ((I.2.agree_iff I.1 last_one (by decide)).mp A).2 0 _ rfl
  have hs := hc.1 1 (by decide) (by decide)
  rw [Spare] at hs
  revert hs
  decide

end Total

end Agree

end Fs.Format

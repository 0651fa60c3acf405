import Sisop.Fs.Fsformat
import Sisop.Fs.Theorems.Create

namespace Fs.Format

open Inc Library

variable {nblocks n k f b l : Nat} {s s' : State} {len w : Word} {m m' malloc : Memory}

theorem ROUNDUP_toNat (h : w.toNat ≤ 2147483648) : (ROUNDUP w).toNat = blocks w.toNat * BLKSIZE := by
  by_cases h₀ : w.toNat = 0
  · have hw : w = 0#32 := BitVec.eq_of_toNat_eq h₀
    rw [hw]
    rfl
  · have hp : (w - 1#32).toNat = w.toNat - 1 := by
      rw [BitVec.toNat_sub, BitVec.toNat_ofNat]
      omega
    have hm : ((w - 1#32) % 4096#32).toNat = (w.toNat - 1) % 4096 := by
      rw [BitVec.toNat_umod, hp]
      rfl
    rw [ROUNDUP, BitVec.toNat_sub, BitVec.toNat_add, hp, hm, blocks, BLKSIZE, BitVec.toNat_ofNat]
    omega

theorem ROUNDUPInt_toNat (h₀ : w.toNat ≠ 0) (h : w.toNat ≤ 2147483648) :
    (ROUNDUPInt w).toNat = blocks w.toNat * BLKSIZE := by
  have hw : (w - 1#32).toNat < 2147483648 := by
    rw [BitVec.toNat_sub, BitVec.toNat_ofNat]
    omega
  rw [← ROUNDUP_toNat h]
  simp only [ROUNDUPInt, ROUNDUP, BitVec.toNat_sub, srem_toNat hw, BitVec.toNat_umod,
    BitVec.toNat_ofNat]

theorem alloc_eq {start : Nat} (h : alloc nblocks w s = some (start, s')) : start = s.diskpos ∧
    s' = { s with diskpos := s.diskpos + (ROUNDUP w).toNat } ∧ s'.diskpos / BLKSIZE < nblocks := by
  simp only [alloc] at h
  split at h
  case isTrue => cases h
  case isFalse hlt =>
    cases h
    exact ⟨rfl, rfl, Nat.lt_of_not_le hlt⟩

-- The blocks that `finishfile` allocates for a file of `n` blocks.
def extra (n : Nat) : Nat := if NDIRECT ≤ n then 1 else 0

-- What `finishfile` does to the `struct File` at `f` and to the indirect block.
structure Finished (nblocks f b l : Nat) (s s' : State) : Prop where
  n        : s'.n = s.n
  diskpos  : s'.diskpos = s.diskpos + extra (blocks l) * BLKSIZE
  lt       : NDIRECT ≤ blocks l → s'.diskpos / BLKSIZE < nblocks
  size     : s'.mem.load32 (fSize f) = BitVec.ofNat 32 l
  direct   : ∀ k < NDIRECT, s'.mem.load32 (fDirect f k) =
    if k < blocks l then BitVec.ofNat 32 (b + k) else s.mem.load32 (fDirect f k)
  indirect : s'.mem.load32 (fIndirect f) =
    if NDIRECT ≤ blocks l then BitVec.ofNat 32 (s.diskpos / BLKSIZE)
    else s.mem.load32 (fIndirect f)
  table    : NDIRECT ≤ blocks l → ∀ j < NINDIRECT, s'.mem.load32 (s.diskpos + 4 * j) =
    if NDIRECT + j < blocks l then BitVec.ofNat 32 (b + (NDIRECT + j))
    else s.mem.load32 (s.diskpos + 4 * j)
  other    : ∀ x, x < fSize f ∨ fSize f + 4 ≤ x ∧ x < fDirect f 0 ∨ fIndirect f + 4 ≤ x →
    x < s.diskpos ∨ s'.diskpos ≤ x → s'.mem x = s.mem x

theorem finishfile_spec (hx : finishfile nblocks f (BitVec.ofNat 32 b) len s = some s')
    (hl : len.toNat = l) (hlen : l ≤ MAXFILESIZE)
    (hf : f + sizeofFile ≤ s.diskpos ∨ s.diskpos + BLKSIZE ≤ f) : Finished nblocks f b l s s' := by
  have hM : MAXFILESIZE = 1034 * 4096 := by decide
  have hn : (ROUNDUP len).toNat / BLKSIZE = blocks l := by
    rw [ROUNDUP_toNat (by omega), hl, Nat.mul_div_cancel _ (by decide)]
  have hlen' : len = BitVec.ofNat 32 l := by
    rw [← hl, BitVec.ofNat_toNat, BitVec.setWidth_eq]
  have hle : blocks l ≤ 1034 := by
    simp only [blocks, BLKSIZE]
    omega
  simp only [finishfile, hn, ← BitVec.ofNat_add] at hx
  generalize hm₁ : s.mem.store32 (fSize f) len = m₁ at hx
  simp only [fDirect] at hx
  obtain ⟨hd, ho⟩ := @Memory.foldl_store32 m₁ (f + 136) (min (blocks l) NDIRECT)
    (fun i => BitVec.ofNat 32 (b + i))
  generalize (List.range (min (blocks l) NDIRECT)).foldl
    (fun m i => m.store32 (f + 136 + 4 * i) (BitVec.ofNat 32 (b + i))) m₁ = m₂ at hx hd ho
  have hsize : m₂.load32 (fSize f) = BitVec.ofNat 32 l := by
    rw [Memory.load32_congr fun x h₁ h₂ => ho x (by simp only [fSize] at *; omega), ← hm₁,
      Memory.load32_store32_self, hlen']
  have hold {x : Nat} (hx : x < fSize f ∨ fSize f + 4 ≤ x ∧ x < fDirect f 0 ∨ fIndirect f ≤ x) :
      m₂ x = s.mem x := by
    rw [ho x (by simp only [fSize, fDirect, fIndirect, NDIRECT] at *; omega), ← hm₁,
      Memory.store32_of_not_mem (by simp only [fSize, fDirect, fIndirect] at *; omega)]
  have hdirect {k : Nat} (hk : k < NDIRECT) : m₂.load32 (fDirect f k) =
      if k < blocks l then BitVec.ofNat 32 (b + k) else s.mem.load32 (fDirect f k) := by
    split
    case isTrue hlt =>
      exact hd k (by omega)
    case isFalse hlt =>
      refine Memory.load32_congr fun x h₁ h₂ => ?_
      simp only [fDirect] at h₁ h₂
      rw [ho x (by omega), ← hm₁, Memory.store32_of_not_mem (by simp only [fSize, fDirect] at *; omega)]
  split at hx
  case isFalse hlt =>
    cases hx
    refine ⟨rfl, ?_, fun h => absurd h hlt, hsize, fun k hk => hdirect hk, ?_, fun h => absurd h hlt,
      fun x h _ => hold (by omega)⟩
    · rw [extra, if_neg hlt]
      rfl
    · rw [if_neg hlt]
      exact Memory.load32_congr fun x h₁ h₂ => hold (by simp only [fSize, fDirect, fIndirect] at *; omega)
  case isTrue hge =>
    obtain ⟨⟨ind, s₁⟩, ha, hx⟩ := Option.bind_eq_some_iff.mp hx
    obtain ⟨rfl, rfl, hlt⟩ := alloc_eq ha
    cases hx
    have hpage : (ROUNDUP 4096#32).toNat = BLKSIZE := by decide
    simp only [hpage] at hlt ⊢
    generalize hm₃ : m₂.store32 (fIndirect f) (BitVec.ofNat 32 (s.diskpos / BLKSIZE)) = m₃
    obtain ⟨ht, ho'⟩ := @Memory.foldl_store32 m₃ s.diskpos (blocks l - NDIRECT)
      (fun i => BitVec.ofNat 32 (b + (NDIRECT + i)))
    generalize (List.range (blocks l - NDIRECT)).foldl (fun m i => m.store32 (s.diskpos + 4 * i)
      (BitVec.ofNat 32 (b + (NDIRECT + i)))) m₃ = m₄ at ht ho'
    have htop : s.diskpos + 4 * (blocks l - NDIRECT) ≤ s.diskpos + BLKSIZE := by
      simp only [NDIRECT, BLKSIZE]
      omega
    have hout {x : Nat} (h : x < fIndirect f ∨ fIndirect f + 4 ≤ x)
        (h' : x < s.diskpos ∨ s.diskpos + 4 * (blocks l - NDIRECT) ≤ x) : m₄ x = m₂ x := by
      rw [ho' x h', ← hm₃, Memory.store32_of_not_mem h]
    have hfield {a : Nat} (h₁ : f ≤ a) (h₂ : a + 4 ≤ fIndirect f) : m₄.load32 a = m₂.load32 a := by
      simp only [fIndirect, sizeofFile] at hf h₂
      exact Memory.load32_congr fun x h₁ h₂ => hout (by simp only [fIndirect]; omega) (by omega)
    refine ⟨rfl, ?_, fun _ => hlt, ?_, fun k hk => ?_, ?_, fun _ j hj => ?_, fun x h h' => ?_⟩
    · rw [extra, if_pos hge, Nat.one_mul]
    · exact (hfield (by simp only [fSize]; omega) (by simp only [fSize, fIndirect]; omega)).trans hsize
    · refine (hfield ?_ ?_).trans (hdirect hk)
      · simp only [fDirect]
        omega
      · simp only [fDirect, fIndirect, NDIRECT] at *
        omega
    · rw [if_pos hge]
      refine Eq.trans ?_ (@Memory.load32_store32_self m₂ (fIndirect f) _)
      rw [hm₃]
      refine Memory.load32_congr fun x h₁ h₂ => ho' x ?_
      simp only [fIndirect, sizeofFile] at *
      omega
    · split
      case isTrue hlt => exact ht j (by omega)
      case isFalse hlt =>
        refine Memory.load32_congr fun x h₁ h₂ => ?_
        have hxr : x < s.diskpos + BLKSIZE := by
          simp only [NINDIRECT, BLKSIZE] at *
          omega
        have hxf : x < f ∨ f + sizeofFile ≤ x := by omega
        refine (hout ?_ (by omega)).trans (hold ?_)
        · simp only [fIndirect, sizeofFile] at *
          omega
        · simp only [fSize, fDirect, fIndirect, sizeofFile] at *
          omega
    · have h' : x < s.diskpos ∨ s.diskpos + BLKSIZE ≤ x := h'
      refine (hout ?_ (by omega)).trans (hold ?_)
      · simp only [fSize, fDirect, fIndirect] at *
        omega
      · simp only [fSize, fDirect, fIndirect] at *
        omega

-- The blocks that a file of `size` bytes takes.
def span (size : Nat) : Nat := blocks size + extra (blocks size)

def total (files : List Input) : Nat := (files.map fun file => span file.data.length).sum

-- The first block of the file `i`; behind the last file lies the root directory.
def start (files : List Input) (i : Nat) : Nat := 3 + total (files.take i)

-- What the file server needs of the `struct File` at `f` in `m`, for a file in the blocks from `b` on:
-- the pointers for which there is no block are those of the entry at `e` in `left`.
structure FileAt (left : Memory) (e : Nat) (file : Input) (b : Nat) (m : Memory) (f : Nat) : Prop where
  name     : ∀ i ≤ file.last.length, m (f + i) = file.last.getD i 0
  size     : m.load32 (fSize f) = BitVec.ofNat 32 file.data.length
  direct   : ∀ k < NDIRECT, m.load32 (fDirect f k) =
    if k < blocks file.data.length then BitVec.ofNat 32 (b + k) else left.load32 (fDirect e k)
  indirect : m.load32 (fIndirect f) =
    if NDIRECT ≤ blocks file.data.length then BitVec.ofNat 32 (b + blocks file.data.length)
    else left.load32 (fIndirect e)
  table    : NDIRECT ≤ blocks file.data.length → ∀ j < NINDIRECT,
    m.load32 ((b + blocks file.data.length) * BLKSIZE + 4 * j) =
      if NDIRECT + j < blocks file.data.length then BitVec.ofNat 32 (b + (NDIRECT + j)) else 0#32
  data     : ∀ x < blocks file.data.length * BLKSIZE, m (b * BLKSIZE + x) = file.data.getD x 0

-- The super block and the bitmap before the root directory is written.
structure Head (nblocks : Nat) (m : Memory) : Prop where
  magic   : m.load32 super = FS_MAGIC
  nblocks : m.load32 (super + 4) = BitVec.ofNat 32 nblocks
  type    : m.load32 (fType sRoot) = FTYPE_DIR
  ptrs    : ∀ x, fDirect sRoot 0 ≤ x → x < fIndirect sRoot + 4 → m x = 0#8
  bitmap  : ∀ x, bitmap ≤ x → x < bitmap + BLKSIZE → m x = 0xFF#8

-- The state after the files have been written.
structure Laid (nblocks : Nat) (malloc : Memory) (files : List Input) (s : State) : Prop where
  n       : s.n = files.length
  le      : files.length ≤ MAX_DIR_ENTS
  diskpos : s.diskpos = (3 + total files) * BLKSIZE
  lt      : 3 + total files < nblocks
  head    : Head nblocks s.mem
  blank   : ∀ x, s.diskpos ≤ x → x < ents → s.mem x = 0#8
  rest    : ∀ x, sizeofFile * files.length ≤ x → s.mem (ents + x) = malloc x
  small   : ∀ file ∈ files, file.data.length < MAXFILESIZE
  file    : ∀ i file, files[i]? = some file →
    FileAt malloc (sizeofFile * i) file (start files i) s.mem (ents + sizeofFile * i)

theorem total_concat {files : List Input} {file : Input} :
    total (files ++ [file]) = total files + span file.data.length := by
  simp [total]

theorem start_succ {files : List Input} {file : Input} {i : Nat} (h : files[i]? = some file) :
    start files (i + 1) = start files i + span file.data.length := by
  rw [start, List.take_add_one, h, Option.toList_some, total_concat, ← Nat.add_assoc]
  rfl

theorem start_le_succ {files : List Input} {i : Nat} : start files i ≤ start files (i + 1) := by
  cases h : files[i]?
  case none =>
    rw [start, start, List.take_add_one, h, Option.toList_none, List.append_nil]
  case some file =>
    rw [start_succ h]
    exact Nat.le_add_right _ _

theorem start_mono {files : List Input} {i j : Nat} (h : i ≤ j) : start files i ≤ start files j :=
  monotone_nat_of_le_succ (f := start files) (fun _ => start_le_succ) h

theorem start_append {files files' : List Input} {i : Nat} (h : i ≤ files.length) :
    start (files ++ files') i = start files i := by
  rw [start, start, List.take_append_of_le_length h]

theorem start_length {files : List Input} : start files files.length = 3 + total files := by
  rw [start, List.take_length]

theorem FileAt.move {left m m' : Memory} {e b f f' : Nat} {file : Input}
    (h : FileAt left e file b m f) (hn : file.last.length < MAXNAMELEN)
    (he : ∀ x < sizeofFile, m' (f' + x) = m (f + x))
    (hd : ∀ x, b * BLKSIZE ≤ x → x < (b + span file.data.length) * BLKSIZE → m' x = m x) :
    FileAt left e file b m' f' := by
  have hload {o : Nat} (ho : o + 4 ≤ sizeofFile) : m'.load32 (f' + o) = m.load32 (f + o) :=
    Memory.load32_move fun i hi => by
      rw [Nat.add_assoc, Nat.add_assoc]
      exact he _ (by omega)
  refine ⟨fun i hi => ?_, ?_, fun k hk => ?_, ?_, fun hN j hj => ?_, fun x hx => ?_⟩
  · rw [he i (by simp only [MAXNAMELEN, sizeofFile] at *; omega)]
    exact h.name i hi
  · exact (hload (by decide)).trans h.size
  · rw [← h.direct k hk]
    simp only [fDirect, Nat.add_assoc]
    have hk : k < 10 := hk
    refine hload ?_
    rw [sizeofFile]
    omega
  · exact (hload (by decide)).trans h.indirect
  · rw [← h.table hN j hj]
    replace hj : j < 1024 := hj
    refine Memory.load32_congr fun x h₁ h₂ => hd x ?_ ?_
    · rw [Nat.add_mul] at h₁
      exact le_trans (Nat.le_add_right _ _) (le_trans (Nat.le_add_right _ _) h₁)
    · rw [span, extra, if_pos hN]
      rw [BLKSIZE] at h₂ ⊢
      omega
  · rw [← h.data x hx]
    refine hd _ (Nat.le_add_right _ _) ?_
    simp only [span, BLKSIZE] at *
    omega

theorem Head.congr {m m' : Memory} (h : Head nblocks m) (hm : ∀ x < 3 * BLKSIZE, m' x = m x) :
    Head nblocks m' := by
  have hload {a : Nat} (ha : a + 4 ≤ 3 * BLKSIZE) : m'.load32 a = m.load32 a :=
    Memory.load32_congr fun x _ h => hm x (by omega)
  refine ⟨(hload (by decide)).trans h.magic, (hload (by decide)).trans h.nblocks,
    (hload (by decide)).trans h.type, fun x h₁ h₂ => ?_, fun x h₁ h₂ => ?_⟩
  · rw [hm x (lt_trans h₂ (by decide))]
    exact h.ptrs x h₁ h₂
  · rw [hm x (lt_of_lt_of_le h₂ (by decide))]
    exact h.bitmap x h₁ h₂

-- `finishfile` for an entry whose name and whose data are in place.
theorem Finished.fileAt {left m : Memory} {e : Nat} {file : Input}
    (F : Finished nblocks f b file.data.length
      ⟨m, (b + blocks file.data.length) * BLKSIZE, n⟩ s')
    (hf : (b + span file.data.length) * BLKSIZE ≤ f) (hlen : file.last.length < MAXNAMELEN)
    (hname : ∀ i ≤ file.last.length, m (f + i) = file.last.getD i 0)
    (hleft : ∀ x, 136 ≤ x → x < sizeofFile → m (f + x) = left (e + x))
    (hdata : ∀ x < blocks file.data.length * BLKSIZE, m (b * BLKSIZE + x) = file.data.getD x 0)
    (hblank : ∀ x, (b + blocks file.data.length) * BLKSIZE ≤ x →
      x < (b + span file.data.length) * BLKSIZE → m x = 0#8) : FileAt left e file b s'.mem f := by
  have hd := F.diskpos
  simp only [← Nat.add_mul, Nat.add_assoc] at hd
  have hload {o : Nat} (ho : 136 ≤ o) (ho' : o + 4 ≤ sizeofFile) :
      m.load32 (f + o) = left.load32 (e + o) :=
    Memory.load32_move fun i hi => by
      rw [Nat.add_assoc, Nat.add_assoc]
      exact hleft _ (by omega) (by omega)
  refine ⟨fun i hi => ?_, F.size, fun k hk => ?_, ?_, fun hN j hj => ?_, fun x hx => ?_⟩
  · have hi' : i < 128 := lt_of_le_of_lt hi hlen
    refine (F.other _ (.inl ?_) (.inr ?_)).trans (hname i hi)
    · rw [fSize]
      omega
    · rw [hd]
      exact le_trans hf (Nat.le_add_right _ _)
  · have hk' : k < 10 := hk
    rw [F.direct k hk]
    refine ite_congr rfl (fun _ => rfl) fun _ => ?_
    simp only [fDirect, Nat.add_assoc]
    refine hload ?_ ?_
    · omega
    · rw [sizeofFile]
      omega
  · rw [F.indirect, Nat.mul_div_cancel _ (by decide)]
    exact ite_congr rfl (fun _ => rfl) fun _ => hload (by decide) (by decide)
  · have hj' : j < 1024 := hj
    refine (F.table hN j hj).trans (ite_congr rfl (fun _ => rfl) fun _ => ?_)
    refine load32_eq_zero fun x h₁ h₂ => hblank x ?_ ?_
    · exact le_trans (Nat.le_add_right _ _) h₁
    · rw [span, extra, if_pos hN, ← Nat.add_assoc, Nat.add_mul _ 1, Nat.one_mul]
      refine lt_of_lt_of_le h₂ ?_
      simp only [BLKSIZE]
      omega
  · refine (F.other _ (.inl ?_) (.inl ?_)).trans (hdata x hx)
    · rw [span, ← Nat.add_assoc, Nat.add_mul, Nat.add_mul] at hf
      rw [fSize]
      omega
    · rw [Nat.add_mul]
      exact Nat.add_lt_add_left hx _

-- What `writefile` does to a disk whose next block is `b`.
structure Wrote (nblocks : Nat) (file : Input) (b : Nat) (s s' : State) : Prop where
  n       : s'.n = s.n + 1
  le      : s.n + 1 ≤ MAX_DIR_ENTS
  small   : file.data.length < MAXFILESIZE
  diskpos : s'.diskpos = (b + span file.data.length) * BLKSIZE
  lt      : b + span file.data.length < nblocks
  other   : ∀ x, x < ents + sizeofFile * s.n ∨ ents + sizeofFile * (s.n + 1) ≤ x →
    x < b * BLKSIZE ∨ s'.diskpos ≤ x → s'.mem x = s.mem x
  file    : ∀ left e, (∀ x, b * BLKSIZE ≤ x → x < ents → s.mem x = 0#8) →
    (∀ x < sizeofFile, s.mem (ents + sizeofFile * s.n + x) = left (e + x)) →
    FileAt left e file b s'.mem (ents + sizeofFile * s.n)

theorem writefile_spec {file : Input} (hx : writefile nblocks s file = some s')
    (hdisk : s.diskpos = b * BLKSIZE) (hb : nblocks ≤ 1024) (hname : file.last.length < MAXNAMELEN) :
    Wrote nblocks file b s s' := by
  have hM : MAXFILESIZE = 1034 * 4096 := by decide
  simp only [writefile] at hx
  split at hx
  case isTrue => cases hx
  case isFalse hsmall =>
  obtain ⟨⟨f, s₁⟩, h₁, hx⟩ := Option.bind_eq_some_iff.mp hx
  obtain ⟨⟨pos, s₂⟩, h₂, hx⟩ := Option.bind_eq_some_iff.mp hx
  simp only [diradd] at h₁
  split at h₁
  case isTrue => cases h₁
  case isFalse hfull =>
  cases h₁
  obtain ⟨rfl, rfl, hlt⟩ := alloc_eq h₂
  clear h₂
  simp only [hdisk] at hx hlt
  have hsize : (BitVec.ofNat 32 file.data.length).toNat = file.data.length := by
    rw [BitVec.toNat_ofNat]
    omega
  rw [ROUNDUP_toNat (by omega), hsize, ← Nat.add_mul, Nat.mul_div_cancel _ (by decide)] at hx hlt
  generalize hf : ents + sizeofFile * s.n = f at hx
  generalize hm₁ : (s.mem.strcpy f file.last).store32 (fType f) FTYPE_REG = m₁ at hx
  generalize hm₂ : m₁.write (b * BLKSIZE) file.data.length (file.data.getD · 0) = m₂ at hx
  have hlen : file.data.length ≤ blocks file.data.length * BLKSIZE := by
    simp only [blocks, BLKSIZE]
    omega
  have hentry : sizeofFile * (s.n + 1) = sizeofFile * s.n + sizeofFile := Nat.mul_succ _ _
  have hend : (b + blocks file.data.length) * BLKSIZE + BLKSIZE ≤ ents := by
    rw [ents]
    simp only [BLKSIZE]
    omega
  have hle : ents ≤ f := hf ▸ Nat.le_add_right _ _
  have F := finishfile_spec hx hsize (by omega) (.inr (le_trans hend hle))
  clear hx
  have hd : s'.diskpos = (b + span file.data.length) * BLKSIZE := by
    rw [F.diskpos, span, ← Nat.add_assoc, Nat.add_mul _ (extra _)]
  have hspan : (b + span file.data.length) * BLKSIZE ≤
      (b + blocks file.data.length) * BLKSIZE + BLKSIZE := by
    rw [span, extra]
    simp only [BLKSIZE]
    split <;> omega
  have hdata : (b + blocks file.data.length) * BLKSIZE ≤ s'.diskpos := by
    rw [F.diskpos]
    exact Nat.le_add_right _ _
  have hadd := Nat.add_mul b (blocks file.data.length) BLKSIZE
  have hmem₁ {x : Nat} (h : x < f ∨ f + sizeofFile ≤ x) : m₁ x = s.mem x := by
    rw [← hm₁, Memory.store32_of_not_mem, Memory.strcpy, Memory.write_of_not_mem]
    · rw [MAXNAMELEN] at hname
      rw [sizeofFile] at h
      omega
    · rw [fType]
      rw [sizeofFile] at h
      omega
  have hmem₂ {x : Nat} (h : x < b * BLKSIZE ∨ b * BLKSIZE + file.data.length ≤ x) : m₂ x = m₁ x := by
    rw [← hm₂, Memory.write_of_not_mem h]
  refine ⟨F.n, by omega, by omega, hd, ?_, fun x h h' => ?_,
    fun left e hblank hleft => ?_⟩
  · rw [span, extra]
    split
    case isTrue h =>
      have := F.lt h
      rwa [hd, span, extra, if_pos h, Nat.mul_div_cancel _ (by decide)] at this
    case isFalse => exact hlt
  · rw [hf, hentry, ← Nat.add_assoc, hf] at h
    refine (F.other x ?_ ?_).trans ((hmem₂ ?_).trans (hmem₁ h))
    · simp only [fSize, fDirect, fIndirect]
      rw [sizeofFile] at h
      omega
    · simp only
      omega
    · omega
  · rw [hf]
    refine F.fileAt (le_trans hspan (le_trans hend hle)) hname (fun i hi => ?_) (fun x h₁ h₂ => ?_)
      (fun x hx => ?_) fun x h₁ h₂ => ?_
    · have hi' : i < 128 := lt_of_le_of_lt hi hname
      rw [hmem₂ (by omega), ← hm₁, Memory.store32_of_not_mem (by rw [fType]; omega), Memory.strcpy,
        Memory.write_of_mem (by omega) (by omega), Nat.add_sub_cancel_left]
    · rw [MAXNAMELEN] at hname
      rw [hmem₂ (by omega), ← hm₁, Memory.store32_of_not_mem (by rw [fType]; omega), Memory.strcpy,
        Memory.write_of_not_mem (by omega), ← hf, hleft x h₂]
    · by_cases hxl : x < file.data.length
      · rw [← hm₂, Memory.write_of_mem (Nat.le_add_right _ _) (by omega), Nat.add_sub_cancel_left]
      · rw [hmem₂ (by omega), hmem₁ (by omega), hblank _ (by omega) (by omega),
          List.getD_eq_default _ _ (by omega)]
        rfl
    · rw [hmem₂ (by omega), hmem₁ (by omega), hblank _ (by omega) (by omega)]

-- The names that `main` takes from the paths of the files.
def Last (name : List (BitVec 8)) : Prop := Name name ∧ 0x2F#8 ∉ name

section Files

variable {files done : List Input} {file : Input}

theorem writefile_laid (L : Laid nblocks malloc files s) (hb : nblocks ≤ 1024)
    (hname : ∀ f ∈ files ++ [file], f.last.length < MAXNAMELEN)
    (hx : writefile nblocks s file = some s') : Laid nblocks malloc (files ++ [file]) s' := by
  have w := writefile_spec hx L.diskpos hb (hname file (by simp))
  have hn := L.n
  have hdisk : (3 + total files) * BLKSIZE ≤ s'.diskpos := by
    rw [w.diskpos]
    exact Nat.mul_le_mul_right _ (Nat.le_add_right _ _)
  have hend : s'.diskpos ≤ ents := by
    have := w.lt
    rw [w.diskpos, ents]
    exact Nat.mul_le_mul_right _ (by omega)
  have hother {x : Nat} := hn ▸ w.other x
  rw [Nat.mul_succ, ← Nat.add_assoc] at hother
  refine ⟨?_, ?_, ?_, ?_, L.head.congr fun x hx => hother (.inl ?_) (.inl ?_), fun x h₁ h₂ => ?_,
    fun x hx => ?_, fun file' h => ?_, fun i file' hi => ?_⟩
  · rw [w.n, hn, List.length_append]
    rfl
  · rw [List.length_append, ← hn]
    exact w.le
  · rw [total_concat, w.diskpos, Nat.add_assoc]
  · rw [total_concat, ← Nat.add_assoc]
    exact w.lt
  · rw [Nat.add_mul] at hdisk
    omega
  · rw [Nat.add_mul]
    omega
  · rw [hother (.inl (by omega)) (.inr h₁)]
    refine L.blank x ?_ h₂
    rw [L.diskpos]
    omega
  · rw [List.length_append, List.length_singleton, Nat.mul_succ] at hx
    rw [hother (.inr (by omega)) (.inr (by omega))]
    exact L.rest x (by omega)
  · rw [List.mem_append, List.mem_singleton] at h
    rcases h with h | rfl
    · exact L.small file' h
    · exact w.small
  · rcases lt_trichotomy i files.length with h | rfl | h
    · rw [List.getElem?_append_left h] at hi
      rw [start_append h.le]
      have hle := (start_mono (show i + 1 ≤ files.length from h)).trans_eq start_length
      rw [start_succ hi] at hle
      refine (L.file i file' hi).move (hname file' ?_) (fun x hx => hother (.inl ?_) (.inr ?_))
        fun x _ hx => hother (.inl ?_) (.inl ?_)
      · exact List.mem_append_left _ (List.mem_of_getElem? hi)
      · have := Nat.mul_le_mul_left sizeofFile (show i + 1 ≤ files.length from h)
        rw [Nat.mul_succ] at this
        omega
      · omega
      · have := Nat.mul_le_mul_right BLKSIZE hle
        omega
      · exact lt_of_lt_of_le hx (Nat.mul_le_mul_right _ hle)
    · rw [List.getElem?_concat_length] at hi
      cases hi
      rw [start_append le_rfl, start_length]
      have hf := w.file malloc (sizeofFile * s.n) (fun x h₁ h₂ => L.blank x (by rwa [L.diskpos]) h₂)
        fun x _ => by
          rw [Nat.add_assoc]
          exact L.rest _ (by rw [hn]; omega)
      rwa [hn] at hf
    · rw [List.getElem?_eq_none (by rw [List.length_append, List.length_singleton]; omega)] at hi
      cases hi

theorem files_laid (hb : nblocks ≤ 1024) (L : Laid nblocks malloc done s)
    (hname : ∀ f ∈ done ++ files, f.last.length < MAXNAMELEN)
    (hx : files.foldlM (writefile nblocks) s = some s') : Laid nblocks malloc (done ++ files) s' := by
  induction files generalizing done s
  case nil =>
    cases hx
    rwa [List.append_nil]
  case cons file files hi =>
    rw [List.foldlM_cons] at hx
    obtain ⟨s₁, h₁, hx⟩ := Option.bind_eq_some_iff.mp hx
    rw [List.append_cons] at hname ⊢
    exact hi (writefile_laid L hb (fun f hf => hname f (List.mem_append_left _ hf)) h₁) hname hx

theorem opendisk_laid (h₂ : 2 ≤ nblocks) (hb : nblocks ≤ 1024)
    (hx : opendisk nblocks malloc = some s) : Laid nblocks malloc [] s := by
  have hbits : (nblocks + BLKBITSIZE - 1) / BLKBITSIZE = 1 := by
    simp only [BLKBITSIZE, BLKSIZE]
    omega
  have hpage : (ROUNDUP 4096#32).toNat = BLKSIZE := by decide
  simp only [opendisk, hbits, Nat.one_mul] at hx
  obtain ⟨⟨_, s₁⟩, h₁, hx⟩ := Option.bind_eq_some_iff.mp hx
  obtain ⟨rfl, rfl, -⟩ := alloc_eq h₁
  obtain ⟨⟨_, s₂⟩, h₂, hx⟩ := Option.bind_eq_some_iff.mp hx
  obtain ⟨rfl, rfl, -⟩ := alloc_eq h₂
  obtain ⟨⟨_, s₃⟩, h₃, hx⟩ := Option.bind_eq_some_iff.mp hx
  obtain ⟨rfl, rfl, hlt⟩ := alloc_eq h₃
  clear h₁ h₂ h₃
  cases hx
  have hp : (ROUNDUP (BitVec.ofNat 32 BLKSIZE)).toNat = BLKSIZE := hpage
  simp only [hpage, hp, Nat.zero_add] at hlt ⊢
  obtain ⟨m₀, hm₀⟩ : ∃ m : Memory, m = fun x => if x < ents then 0 else malloc (x - ents) :=
    ⟨_, rfl⟩
  rw [← hm₀]
  have hzero {x : Nat} (h : x < ents) : m₀ x = 0#8 := by
    rw [hm₀]
    exact if_pos h
  generalize hm₁ : m₀.store32 BLKSIZE FS_MAGIC = m₁
  generalize hm₂ : m₁.store32 (BLKSIZE + 4) (BitVec.ofNat 32 nblocks) = m₂
  generalize hm₃ : m₂.store32 (fType (BLKSIZE + 8)) FTYPE_DIR = m₃
  generalize hm₄ : m₃.strcpy (BLKSIZE + 8) [0x2F#8] = m₄
  generalize hm₅ : m₄.memset (BLKSIZE + BLKSIZE) BLKSIZE 0xFF#8 = m₅
  have h₅ {x : Nat} (h : x < 8192 ∨ 12288 ≤ x) : m₅ x = m₄ x := by
    rw [← hm₅]
    exact Memory.memset_of_not_mem h
  have h₄ {x : Nat} (h : x < 4104 ∨ 4106 ≤ x) : m₄ x = m₃ x := by
    rw [← hm₄]
    exact Memory.write_of_not_mem h
  have h₃ {x : Nat} (h : x < 4236 ∨ 4240 ≤ x) : m₃ x = m₂ x := by
    rw [← hm₃]
    exact Memory.store32_of_not_mem h
  have h₂ {x : Nat} (h : x < 4100 ∨ 4104 ≤ x) : m₂ x = m₁ x := by
    rw [← hm₂]
    exact Memory.store32_of_not_mem h
  have h₁ {x : Nat} (h : x < 4096 ∨ 4100 ≤ x) : m₁ x = m₀ x := by
    rw [← hm₁]
    exact Memory.store32_of_not_mem h
  have hhigh {x : Nat} (h : 12288 ≤ x) : m₅ x = m₀ x := by
    rw [h₅ (by omega), h₄ (by omega), h₃ (by omega), h₂ (by omega), h₁ (by omega)]
  refine ⟨rfl, by decide, rfl, ?_, ⟨?_, ?_, ?_, fun x h h' => ?_, fun x h h' => ?_⟩,
    fun x h h' => ?_, fun x _ => ?_, fun _ h => (by cases h), fun i file h => ?_⟩
  · exact Nat.lt_of_le_of_lt (Nat.le_of_eq (by decide)) hlt
  · have hs : m₁.load32 super = FS_MAGIC := hm₁ ▸ Memory.load32_store32_self
    rw [← hs]
    refine Memory.load32_congr fun x h h' => ?_
    rw [super_eq] at h h'
    show m₅ x = m₁ x
    rw [h₅ (by omega), h₄ (by omega), h₃ (by omega), h₂ (by omega)]
  · have hs : m₂.load32 (super + 4) = BitVec.ofNat 32 nblocks := hm₂ ▸ Memory.load32_store32_self
    rw [← hs]
    refine Memory.load32_congr fun x h h' => ?_
    rw [super_eq] at h h'
    show m₅ x = m₂ x
    rw [h₅ (by omega), h₄ (by omega), h₃ (by omega)]
  · have hs : m₃.load32 (fType sRoot) = FTYPE_DIR := hm₃ ▸ Memory.load32_store32_self
    rw [← hs]
    refine Memory.load32_congr fun x h h' => ?_
    rw [fType, sRoot, super_eq] at h h'
    show m₅ x = m₃ x
    rw [h₅ (by omega), h₄ (by omega)]
  · rw [fDirect, sRoot, super_eq] at h
    rw [fIndirect, sRoot, super_eq] at h'
    show m₅ x = 0#8
    rw [h₅ (by omega), h₄ (by omega), h₃ (by omega), h₂ (by omega), h₁ (by omega),
      hzero (by rw [ents, BLKSIZE]; omega)]
  · exact (congrFun hm₅ x).symm.trans (Memory.write_of_mem h h')
  · show m₅ x = 0#8
    rw [hhigh h, hzero h']
  · show m₅ (ents + x) = malloc x
    rw [hhigh (by rw [ents, BLKSIZE]; omega), hm₀]
    simp only [Nat.not_lt.mpr (Nat.le_add_right ents x), if_false, Nat.add_sub_cancel_left]
  · cases h

-- The size of the root directory: where there is no file, `ROUNDUP` of the `int` gives a block for it.
def dirBytes (n : Nat) : Nat := if n = 0 then BLKSIZE else blocks (n * sizeofFile) * BLKSIZE

-- The image. The blocks from `3 + total files` on are those of the root directory.
structure Image (nblocks : Nat) (malloc : Memory) (files : List Input) (m : Memory) : Prop where
  le       : files.length ≤ MAX_DIR_ENTS
  small    : ∀ file ∈ files, file.data.length < MAXFILESIZE
  lt       : 3 + total files + blocks (files.length * sizeofFile) < nblocks
  magic    : m.load32 super = FS_MAGIC
  free     : ∀ c, blockIsFree m c ↔
    3 + total files + blocks (files.length * sizeofFile) ≤ c ∧ c < nblocks
  type     : m.load32 (fType sRoot) = FTYPE_DIR
  size     : m.load32 (fSize sRoot) = BitVec.ofNat 32 (dirBytes files.length)
  direct   : ∀ k < NDIRECT, m.load32 (fDirect sRoot k) =
    if k < blocks (dirBytes files.length) then BitVec.ofNat 32 (3 + total files + k) else 0#32
  indirect : m.load32 (fIndirect sRoot) = 0#32
  blank    : ∀ x, (3 + total files) * BLKSIZE + sizeofFile * files.length ≤ x →
    x < (3 + total files + blocks (dirBytes files.length)) * BLKSIZE → m x = 0#8
  entry    : ∀ i file, files[i]? = some file → FileAt malloc (sizeofFile * i) file (start files i) m
    ((3 + total files) * BLKSIZE + sizeofFile * i)
  nblocks  : sNblocks m = nblocks

theorem finishdisk_spec {c : Nat} : (blockIsFree (finishdisk s) c ↔
      blockIsFree s.mem c ∧ s.diskpos / BLKSIZE ≤ c) ∧
    (s.diskpos / BLKSIZE ≤ 1024 → ∀ x, x < bitmap ∨ bitmap + BLKSIZE ≤ x → finishdisk s x = s.mem x) := by
  rw [finishdisk]
  induction s.diskpos / BLKSIZE
  case zero => exact ⟨by simp, fun _ _ _ => rfl⟩
  case succ n hi =>
    rw [List.range_succ, List.foldl_append]
    constructor
    · refine Iff.trans blockIsFree_take ?_
      rw [hi.1, and_assoc]
      exact and_congr_right fun _ => by omega
    · intro hle x hx
      refine Eq.trans (take_of_not_mem ?_) (hi.2 (by omega) x hx)
      rw [bitmapWord_eq]
      rw [bitmap_eq, BLKSIZE] at hx
      omega

theorem Head.blockIsFree_iff (h : Head nblocks m) (hb : nblocks ≤ 1024) {c : Nat} :
    sNblocks m = nblocks ∧ (blockIsFree m c ↔ c < nblocks) := by
  have hn : sNblocks m = nblocks := by
    rw [sNblocks, h.nblocks, BitVec.toNat_ofNat]
    omega
  refine ⟨hn, ?_⟩
  rw [Fs.blockIsFree_iff, hn]
  refine and_iff_left_of_imp fun hc => ?_
  have hff {i : Nat} (hi : i < 4) : m (bitmapWord c + i) = 0xFF#8 := by
    rw [bitmapWord_eq]
    refine h.bitmap _ ?_ ?_
    · rw [bitmap_eq]
      omega
    · rw [bitmap_eq, BLKSIZE]
      omega
  have h₀ := hff (show 0 < 4 by omega)
  rw [Nat.add_zero] at h₀
  have hones : m.load32 (bitmapWord c) = BitVec.allOnes 32 := by
    rw [Memory.load32, h₀, hff (show 1 < 4 by omega), hff (show 2 < 4 by omega),
      hff (show 3 < 4 by omega)]
    rfl
  rw [hones, BitVec.getLsbD_allOnes]
  exact decide_eq_true (Nat.mod_lt _ (by decide))

theorem blocks_dirBytes (n : Nat) :
    blocks (dirBytes n) = if n = 0 then 1 else blocks (n * sizeofFile) := by
  rw [dirBytes]
  split
  · rfl
  · simp only [blocks, BLKSIZE]
    omega

theorem dirBytes_toNat {n : Nat} (h : n ≤ MAX_DIR_ENTS) :
    (BitVec.ofNat 32 (n * sizeofFile)).toNat = n * sizeofFile ∧ blocks (n * sizeofFile) ≤ 8 ∧
    (ROUNDUPInt (BitVec.ofNat 32 (n * sizeofFile))).toNat = dirBytes n ∧ blocks (dirBytes n) ≤ 8 := by
  have hle : n ≤ 128 := h
  have hsize : (BitVec.ofNat 32 (n * sizeofFile)).toNat = n * sizeofFile := by
    rw [BitVec.toNat_ofNat, sizeofFile]
    omega
  have hr : blocks (n * sizeofFile) ≤ 8 := by
    simp only [blocks, sizeofFile, BLKSIZE]
    omega
  refine ⟨hsize, hr, ?_, ?_⟩
  · rw [dirBytes]
    split
    case isTrue h =>
      rw [h]
      decide
    case isFalse h =>
      rw [ROUNDUPInt_toNat, hsize]
      · rw [hsize, sizeofFile]
        omega
      · rw [hsize, sizeofFile]
        omega
  · rw [blocks_dirBytes]
    split <;> omega

theorem finishdir_image (L : Laid nblocks malloc files s) (hb : nblocks ≤ 1024)
    (hname : ∀ f ∈ files, f.last.length < MAXNAMELEN) (hx : finishdir nblocks s = some s') :
    Image nblocks malloc files (finishdisk s') := by
  simp only [finishdir] at hx
  obtain ⟨⟨pos, s₁⟩, h₁, hx⟩ := Option.bind_eq_some_iff.mp hx
  obtain ⟨rfl, rfl, hlt⟩ := alloc_eq h₁
  clear h₁
  obtain ⟨hsize, hr, hdir, hl8⟩ := dirBytes_toNat L.le
  have hle : files.length ≤ 128 := L.le
  have hl := blocks_dirBytes files.length
  have hdl : dirBytes files.length ≤ 8 * 4096 := by
    simp only [blocks, BLKSIZE] at hl8
    omega
  rw [L.n] at hx hlt
  simp only [L.diskpos, hsize] at hx hlt
  rw [ROUNDUP_toNat (by rw [hsize, sizeofFile]; omega), hsize, ← Nat.add_mul,
    Nat.mul_div_cancel _ (by decide)] at hlt hx
  generalize hm₁ : (s.mem.write ((3 + total files) * BLKSIZE) (files.length * sizeofFile)
    fun i => s.mem (ents + i)) = m₁ at hx
  have F := finishfile_spec hx hdir (by
    have hM : MAXFILESIZE = 1034 * 4096 := by decide
    omega) (.inl (by
    rw [sRoot, super_eq, sizeofFile]
    simp only [BLKSIZE]
    omega))
  clear hx
  have hlt10 : ¬NDIRECT ≤ blocks (dirBytes files.length) := by
    rw [NDIRECT]
    omega
  have hd : s'.diskpos = (3 + total files + blocks (files.length * sizeofFile)) * BLKSIZE := by
    rw [F.diskpos, extra, if_neg hlt10, Nat.zero_mul, Nat.add_zero]
  have hq : s'.diskpos / BLKSIZE = 3 + total files + blocks (files.length * sizeofFile) := by
    rw [hd, Nat.mul_div_cancel _ (by decide)]
  have hkeep {x : Nat} (h : x < bitmap ∨ bitmap + BLKSIZE ≤ x) : finishdisk s' x = s'.mem x :=
    (finishdisk_spec (c := 0)).2 (by omega) x h
  have hm {x : Nat} (h : x < fSize sRoot ∨ fSize sRoot + 4 ≤ x ∧ x < fDirect sRoot 0 ∨
      fIndirect sRoot + 4 ≤ x) : s'.mem x = m₁ x :=
    F.other x h (by
      rw [hd]
      exact Nat.lt_or_ge _ _)
  have hpos : 12288 ≤ (3 + total files) * BLKSIZE := by
    rw [BLKSIZE]
    omega
  have hlow {x : Nat} (h : x < 12288) : m₁ x = s.mem x := by
    rw [← hm₁]
    exact Memory.write_of_not_mem (.inl (by omega))
  have hload {a : Nat} (h : a + 4 ≤ 4232 ∨ 4236 ≤ a ∧ a + 4 ≤ 4240) :
      (finishdisk s').load32 a = s.mem.load32 a :=
    Memory.load32_congr fun x h₁ h₂ => by
      rw [hkeep (.inl (by rw [bitmap_eq]; omega)), hm, hlow (by omega)]
      rw [fSize, fDirect, fIndirect, sRoot, super_eq]
      omega
  have hroot {a : Nat} (h₁ : fSize sRoot ≤ a) (h₂ : a ≤ fIndirect sRoot) :
      (finishdisk s').load32 a = s'.mem.load32 a :=
    Memory.load32_congr fun x h₃ h₄ => hkeep (.inl (by
      rw [fIndirect, sRoot, super_eq] at h₂
      rw [bitmap_eq]
      omega))
  have hptrs {a : Nat} (h₁ : fDirect sRoot 0 ≤ a) (h₂ : a ≤ fIndirect sRoot) : m₁.load32 a = 0#32 :=
    load32_eq_zero fun x h₃ h₄ => by
      rw [hlow, L.head.ptrs x (by omega) (by omega)]
      rw [fIndirect, sRoot, super_eq] at h₂
      omega
  have hfree {c : Nat} : sNblocks s'.mem = nblocks ∧ (blockIsFree s'.mem c ↔ c < nblocks) := by
    have hs := @Head.blockIsFree_iff nblocks _ L.head hb c
    have hn : sNblocks s'.mem = sNblocks s.mem := sNblocks_congr fun x h₁ h₂ => by
      rw [hm, hlow (by omega)]
      rw [fSize, fDirect, fIndirect, sRoot, super_eq]
      omega
    rw [hn, blockIsFree_congr hn]
    · exact hs
    · intro x h₁ h₂
      rw [bitmapEnd_eq, hs.1, bitmap_eq, BLKSIZE] at h₂
      rw [bitmap_eq] at h₁
      rw [hm, hlow (by omega)]
      rw [fSize, fDirect, fIndirect, sRoot, super_eq]
      omega
  have hhigh {x : Nat} (h : 12288 ≤ x) : finishdisk s' x = m₁ x := by
    rw [hkeep (.inr (by rw [bitmap_eq, BLKSIZE]; omega)), hm]
    rw [fSize, fDirect, fIndirect, sRoot, super_eq]
    omega
  refine ⟨L.le, L.small, hlt, ?_, fun c => ?_, ?_, ?_, fun k hk => ?_, ?_, fun x h₁ h₂ => ?_,
    fun i file hi => ?_, ?_⟩
  · exact (hload (by decide)).trans L.head.magic
  · rw [finishdisk_spec.1, hq, hfree.2, and_comm]
  · exact (hload (by decide)).trans L.head.type
  · exact (hroot le_rfl (by decide)).trans F.size
  · have hk' : k < 10 := hk
    have hk₁ : fSize sRoot ≤ fDirect sRoot k ∧ fDirect sRoot 0 ≤ fDirect sRoot k ∧
        fDirect sRoot k ≤ fIndirect sRoot := by
      simp only [fSize, fDirect, fIndirect]
      omega
    rw [hroot hk₁.1 hk₁.2.2, F.direct k hk]
    exact ite_congr rfl (fun _ => rfl) fun _ => hptrs hk₁.2.1 hk₁.2.2
  · rw [hroot (by decide) le_rfl, F.indirect, if_neg hlt10]
    exact hptrs (by decide) le_rfl
  · have hx : x < ents := by
      refine lt_of_lt_of_le h₂ ?_
      rw [ents]
      refine Nat.mul_le_mul_right _ ?_
      have := L.lt
      rw [hl]
      split <;> omega
    rw [hhigh (by omega), ← hm₁, Memory.write_of_not_mem (.inr (by rwa [Nat.mul_comm _ sizeofFile]))]
    refine L.blank x ?_ hx
    rw [L.diskpos]
    omega
  · have hi' := (List.getElem?_eq_some_iff.mp hi).1
    have hn := Nat.mul_le_mul_left sizeofFile (show i + 1 ≤ files.length from hi')
    rw [Nat.mul_succ] at hn
    have hend := (start_mono (show i + 1 ≤ files.length from hi')).trans_eq start_length
    rw [start_succ hi] at hend
    refine (L.file i file hi).move (hname file (List.mem_of_getElem? hi)) (fun x hx => ?_)
      fun x h₁ h₂ => ?_
    · rw [hhigh (by omega), ← hm₁, Memory.write_of_mem (by omega)]
      · exact congrArg s.mem (by omega)
      · rw [Nat.mul_comm files.length]
        omega
    · have hx : x < (3 + total files) * BLKSIZE := lt_of_lt_of_le h₂ (Nat.mul_le_mul_right _ hend)
      have hx' : 12288 ≤ x := by
        refine le_trans ?_ h₁
        simp only [start, BLKSIZE]
        omega
      rw [hhigh hx', ← hm₁, Memory.write_of_not_mem (.inl hx)]
  · have hn : sNblocks (finishdisk s') = sNblocks s'.mem := sNblocks_congr fun x h₁ h₂ =>
      hkeep (.inl (by rw [bitmap_eq]; omega))
    rw [hn]
    exact (hfree (c := 0)).1

-- Whatever the names and the sizes of the files, a run that ends has made the image.
theorem fsformat_image (hname : ∀ f ∈ files, f.last.length < MAXNAMELEN)
    (hx : fsformat nblocks files malloc = some m) : nblocks ≤ 1024 ∧ Image nblocks malloc files m := by
  rw [fsformat] at hx
  split at hx
  case isTrue => cases hx
  case isFalse h =>
    obtain ⟨s₁, h₁, hx⟩ := Option.bind_eq_some_iff.mp hx
    obtain ⟨s₂, h₂, hx⟩ := Option.bind_eq_some_iff.mp hx
    obtain ⟨s₃, h₃, hx⟩ := Option.bind_eq_some_iff.mp hx
    cases hx
    have hb : nblocks ≤ 1024 := by omega
    have L := files_laid hb (opendisk_laid (by omega) hb h₁) (by simpa using hname) h₂
    exact ⟨hb, finishdir_image L hb hname h₃⟩

end Files

end Fs.Format

import Sisop.Fs.Theorems.Loops

namespace Fs

open Inc Library

-- The number of blocks that are searched in a directory.
def nblock (m : Memory) (d : Nat) : Nat := ((m.load32 (fSize d)).sdiv 4096#32).toNat

def isDir (m : Memory) (f : Nat) : Prop := m.load32 (fType f) = FTYPE_DIR

-- The place of the entry `j` of the block `k` of a directory.
def slot (m : Memory) (d k j : Nat) : Nat := (ptr m d k).toNat * BLKSIZE + sizeofFile * j

-- The blocks in which a directory has its entries.
def Holds (m : Memory) (d k : Nat) : Prop := k < nblock m d ∧ k < INDIRECT ∧ ptr m d k ≠ 0#32

-- The files that can be reached from the root directory.
inductive Reach (m : Memory) : Nat → Prop
  | root : Reach m sRoot
  | entry {d k j} : Reach m d → isDir m d → Holds m d k → j < BLKFILES → m (slot m d k j) ≠ 0#8 →
    Reach m (slot m d k j)

-- Block ownership: what the pointers of the files say is past the bitmap, on the disk, in use, and said
-- by no other pointer.
structure BlockInv (m : Memory) : Prop where
  checked : Checked m
  valid   : ∀ {f k}, Reach m f → k ≤ INDIRECT → ptr m f k ≠ 0#32 →
    bitmapEnd m ≤ (ptr m f k).toNat ∧ (ptr m f k).toNat < sNblocks m ∧
      blockIsFree m (ptr m f k).toNat = false
  unique  : ∀ {f k f' k'}, Reach m f → Reach m f' → k ≤ INDIRECT → k' ≤ INDIRECT →
    ptr m f k ≠ 0#32 → ptr m f k = ptr m f' k' → f = f' ∧ k = k'

variable {m m' m₁ : Memory} {f f' d k j x : Nat}

theorem nodeBlock_slot (hj : j < BLKFILES) : nodeBlock (slot m d k j) = (ptr m d k).toNat := by
  have hB : BLKFILES = 16 := by decide
  simp only [nodeBlock, slot, sizeofFile, BLKSIZE]
  omega

theorem slot_mem (hj : j < BLKFILES) :
    (ptr m d k).toNat * BLKSIZE ≤ slot m d k j ∧
      slot m d k j + sizeofFile ≤ (ptr m d k).toNat * BLKSIZE + BLKSIZE := by
  have hB : BLKFILES = 16 := by decide
  simp only [slot, sizeofFile, BLKSIZE]
  omega

theorem nodeBlock_root : nodeBlock sRoot = 1 := by decide

theorem BlockInv.owned (h : BlockInv m) : Owned m {f | Reach m f} := by
  constructor
  case checked => exact h.checked
  case valid => exact h.valid
  case unique => exact h.unique
  case node =>
    intro f hf
    cases hf
    case root => exact .inl rfl
    case entry d k j hd _ hk hj _ =>
      have hv := h.valid hd hk.2.1.le hk.2.2
      refine .inr ⟨?_, ?_⟩
      · simp only [slot, sizeofFile, BLKSIZE]
        omega
      · rw [nodeBlock_slot hj]
        exact hv
  case indirect =>
    intro f f' hf hf' h₀ he
    cases hf'
    case root =>
      have := (h.valid hf le_rfl h₀).1
      have := two_le_bitmapEnd m
      rw [nodeBlock_root] at he
      omega
    case entry d k j hd _ hk hj _ =>
      rw [nodeBlock_slot hj] at he
      have := (h.unique hf hd le_rfl hk.2.1.le h₀ (BitVec.eq_of_toNat_eq he)).2
      have := hk.2.1
      omega

-- A file that is not a directory has no `struct File` in its blocks.
theorem BlockInv.apart (h : BlockInv m) (hf : Reach m f) (hd : ¬isDir m f) :
    Apart m f {f | Reach m f} := by
  intro f' hf' k hk h₀ he
  cases hf'
  case root =>
    have := (h.valid hf hk h₀).1
    have := two_le_bitmapEnd m
    rw [nodeBlock_root] at he
    omega
  case entry d k' j hd' hdir hk' hj _ =>
    rw [nodeBlock_slot hj] at he
    have := (h.unique hf hd' hk hk'.2.1.le h₀ (BitVec.eq_of_toNat_eq he)).1
    exact hd (this ▸ hdir)

theorem BlockInv.of_owned {S : Set Nat} (o : Owned m S) (hS : ∀ f, Reach m f → f ∈ S) : BlockInv m where
  checked := o.checked
  valid   := fun hf => o.valid (hS _ hf)
  unique  := fun hf hf' => o.unique (hS _ hf) (hS _ hf')

-- `d` has the same blocks in `m'`, and the names in them are the same.
structure SameDir (m m' : Memory) (d : Nat) : Prop where
  dir  : isDir m' d ↔ isDir m d
  size : nblock m' d = nblock m d
  ptrs : ∀ k ≤ INDIRECT, ptr m' d k = ptr m d k
  name : ∀ {k j x}, Holds m d k → j < BLKFILES → slot m d k j ≤ x →
    x < slot m d k j + MAXNAMELEN → m' x = m x

theorem SameDir.holds (h : SameDir m m' d) : Holds m' d k ↔ Holds m d k := by
  rw [Holds, Holds, h.size]
  refine and_congr_right fun _ => and_congr_right fun hk => ?_
  rw [h.ptrs k hk.le]

theorem SameDir.slot (h : SameDir m m' d) (hk : k < INDIRECT) : slot m' d k j = slot m d k j := by
  rw [Fs.slot, Fs.slot, h.ptrs k hk.le]

theorem SameDir.entry (h : SameDir m m' d) (hk : Holds m d k) (hj : j < BLKFILES) :
    m' (Fs.slot m' d k j) = m (Fs.slot m d k j) := by
  rw [h.slot hk.2.1]
  exact h.name hk hj le_rfl (Nat.lt_add_of_pos_right (by decide))

-- With the same directories, the same files can be reached.
theorem reach_congr (h : ∀ d, Reach m d → isDir m d ∨ isDir m' d → SameDir m m' d) :
    Reach m' f ↔ Reach m f := by
  constructor
  case mp =>
    intro hf
    induction hf
    case root => exact .root
    case entry d k j _ hdir hk hj hne hi =>
      have hs := h d hi (.inr hdir)
      have hk := hs.holds.mp hk
      rw [hs.entry hk hj] at hne
      rw [hs.slot hk.2.1]
      exact .entry hi (hs.dir.mp hdir) hk hj hne
  case mpr =>
    intro hf
    induction hf
    case root => exact .root
    case entry d k j hd hdir hk hj hne hi =>
      have hs := h d hd (.inl hdir)
      rw [← hs.entry hk hj] at hne
      rw [← hs.slot (j := j) hk.2.1]
      exact .entry hi (hs.dir.mpr hdir) (hs.holds.mpr hk) hj hne

section Own

-- The bytes of `f`: its data, its size and its pointers, with the bitmap.
def Own (m : Memory) (f a : Nat) : Prop := Data m f a ∨ InSize f a ∨ Table m f a

variable {S : Set Nat}

-- The bytes that describe `f`: its size, its pointers and the bitmap.
def Meta (m : Memory) (f x : Nat) : Prop := InSize f x ∨ Table m f x

theorem meta_not_node (o : Owned m S) (hf : f ∈ S) (hg : d ∈ S) (hne : d ≠ f) (h₁ : d ≤ x)
    (h₂ : x < d + sizeofFile) : ¬Meta m f x := by
  have hb := (o.node hg).bounds
  have hd := (o.node hg).disjoint (o.node hf) hne
  rintro (h | h | h | h)
  · simp only [InSize, fSize, sizeofFile] at *
    omega
  · omega
  · simp only [fDirect, fIndirect, sizeofFile] at *
    omega
  · have := o.node_indirect hf hg h.1
    have := h.2
    simp only [InBlock] at this
    omega

-- The name and the type of a file are not among the bytes that its operations change.
theorem meta_not_self (o : Owned m S) (hf : f ∈ S)
    (h : f ≤ x ∧ x < f + MAXNAMELEN ∨ fType f ≤ x ∧ x < fType f + 4) : ¬Meta m f x := by
  have hM : MAXNAMELEN = 128 := rfl
  have hx : f ≤ x ∧ x < f + sizeofFile := by
    simp only [fType, sizeofFile] at *
    omega
  rintro (hs | hb | hn | hi)
  · simp only [InSize, fSize, fType] at *
    omega
  · have := (o.node hf).bounds
    simp only [sizeofFile] at *
    omega
  · simp only [fDirect, fIndirect, fType] at *
    omega
  · have := o.node_indirect hf hf hi.1
    have := hi.2
    simp only [InBlock] at this
    omega

theorem name_inBlock (hj : j < BLKFILES) (h₁ : slot m d k j ≤ x) (h₂ : x < slot m d k j + MAXNAMELEN) :
    InBlock (ptr m d k).toNat x := by
  have hM : MAXNAMELEN = 128 := rfl
  have hmem := slot_mem (m := m) (d := d) (k := k) hj
  simp only [InBlock, sizeofFile] at *
  omega

-- The names in the blocks of a directory neither.
theorem meta_not_name (o : Owned m S) (hf : f ∈ S) (hg : d ∈ S) (hk : k < INDIRECT)
    (h₀ : ptr m d k ≠ 0#32) (hj : j < BLKFILES) (h₁ : slot m d k j ≤ x)
    (h₂ : x < slot m d k j + MAXNAMELEN) : ¬Meta m f x := by
  have hM : MAXNAMELEN = 128 := rfl
  have hv := o.valid hg hk.le h₀
  have hblk := name_inBlock hj h₁ h₂
  have hbe := Nat.mul_le_mul_right BLKSIZE hv.1
  have htwo := two_le_bitmapEnd m
  have hmod : slot m d k j % 256 = 0 := by
    simp only [slot, sizeofFile, BLKSIZE]
    omega
  have hfield : ¬(fSize f ≤ x ∧ x < fIndirect f + 4) := by
    have hr : sRoot = 4104 := by decide
    simp only [InBlock] at hblk
    simp only [fSize, fIndirect, BLKSIZE] at *
    rcases o.node hf with h | h
    · omega
    · have := h.1
      simp only [sizeofFile] at this
      omega
  rintro (hs | hb | hn | hi)
  · simp only [InSize, fSize, fIndirect] at *
    omega
  · simp only [InBlock] at hblk
    omega
  · simp only [fDirect, fSize, fIndirect] at *
    omega
  · have he := hi.2.eq hblk
    have := (o.unique hf hg le_rfl hk.le hi.1 (BitVec.eq_of_toNat_eq he)).2
    omega

theorem data_not_node (o : Owned m S) (ha : Apart m f S) (hg : d ∈ S) (h₁ : d ≤ x)
    (h₂ : x < d + sizeofFile) : ¬Data m f x := by
  rintro ⟨k, hk, h₀, hb⟩
  have := (o.node hg).mem_block
  have := block_disjoint (ha d hg k hk.le h₀)
  simp only [InBlock] at hb
  omega

theorem own_not_node (o : Owned m S) (ha : Apart m f S) (hf : f ∈ S) (hg : d ∈ S) (hne : d ≠ f)
    (h₁ : d ≤ x) (h₂ : x < d + sizeofFile) : ¬Own m f x :=
  not_or.mpr ⟨data_not_node o ha hg h₁ h₂, meta_not_node o hf hg hne h₁ h₂⟩

theorem own_not_self (o : Owned m S) (ha : Apart m f S) (hf : f ∈ S)
    (h : f ≤ x ∧ x < f + MAXNAMELEN ∨ fType f ≤ x ∧ x < fType f + 4) : ¬Own m f x := by
  refine not_or.mpr ⟨data_not_node o ha hf ?_ ?_, meta_not_self o hf h⟩ <;>
    simp only [fType, MAXNAMELEN, sizeofFile] at * <;> omega

theorem own_not_name (o : Owned m S) (hf : f ∈ S) (hg : d ∈ S) (hne : d ≠ f) (hk : k < INDIRECT)
    (h₀ : ptr m d k ≠ 0#32) (hj : j < BLKFILES) (h₁ : slot m d k j ≤ x)
    (h₂ : x < slot m d k j + MAXNAMELEN) : ¬Own m f x := by
  refine not_or.mpr ⟨?_, meta_not_name o hf hg hk h₀ hj h₁ h₂⟩
  rintro ⟨k', hk', h₀', hb⟩
  have he := hb.eq (name_inBlock hj h₁ h₂)
  exact hne (o.unique hf hg hk'.le hk.le h₀' (BitVec.eq_of_toNat_eq he)).1.symm

end Own

-- What the operations on a file that is not a directory have in common.
structure Regular (m : Memory) (f : Nat) (m' : Memory) : Prop where
  owned   : Owned m' {f | Reach m f}
  apart   : Apart m' f {f | Reach m f}
  nblocks : sNblocks m' = sNblocks m
  ptrs    : ∀ g, Reach m g → g ≠ f → ∀ k ≤ INDIRECT, ptr m' g k = ptr m g k
  bytes   : ∀ x, ¬Own m f x → ¬Own m' f x → m' x = m x

namespace Regular

variable (r : Regular m f m') (h : BlockInv m) (hf : Reach m f) (hd : ¬isDir m f)

include r h hf hd

theorem field (hg : Reach m g) {a : Nat} (ha : g ≤ a ∧ a + 4 ≤ g + sizeofFile)
    (hne : g ≠ f ∨ a = fType f) : m'.load32 a = m.load32 a := by
  refine Memory.load32_congr fun x h₁ h₂ => ?_
  by_cases hgf : g = f
  · subst hgf
    have ha := hne.resolve_left fun h => h rfl
    have hx : g ≤ x ∧ x < g + MAXNAMELEN ∨ fType g ≤ x ∧ x < fType g + 4 := by omega
    exact r.bytes x (own_not_self h.owned (h.apart hf hd) hf hx)
      (own_not_self r.owned r.apart hf hx)
  · exact r.bytes x (own_not_node h.owned (h.apart hf hd) hf hg hgf (by omega) (by omega))
      (own_not_node r.owned r.apart hf hg hgf (by omega) (by omega))

theorem isDir_iff (hg : Reach m g) : isDir m' g ↔ isDir m g := by
  rw [isDir, isDir, r.field h hf hd hg]
  · simp only [fType, sizeofFile]
    omega
  · by_cases hgf : g = f
    · exact .inr (hgf ▸ rfl)
    · exact .inl hgf

theorem sameDir (hg : Reach m g) (hgf : g ≠ f) : SameDir m m' g where
  dir  := r.isDir_iff h hf hd hg
  size := by
    rw [nblock, nblock, r.field h hf hd hg ?_ (.inl hgf)]
    simp only [fSize, sizeofFile]
    omega
  ptrs := r.ptrs g hg hgf
  name := by
    intro k j x hk hj h₁ h₂
    have he := r.ptrs g hg hgf k hk.2.1.le
    have hs : slot m' g k j = slot m g k j := by rw [slot, slot, he]
    refine r.bytes x (own_not_name h.owned hf hg hgf hk.2.1 hk.2.2 hj h₁ h₂)
      (own_not_name (k := k) (j := j) r.owned hf hg hgf hk.2.1 ?_ hj ?_ ?_)
    · rw [he]
      exact hk.2.2
    · rw [hs]
      exact h₁
    · rw [hs]
      exact h₂

theorem reach_iff : Reach m' g ↔ Reach m g := by
  refine reach_congr fun d hr hdir => r.sameDir h hf hd hr ?_
  rintro rfl
  exact hd (hdir.elim id (r.isDir_iff h hf hd hr).mp)

theorem blockInv : BlockInv m' := .of_owned r.owned fun _ => (r.reach_iff h hf hd).mp

end Regular

end Fs

import Sisop.Fs.Theorems.Dir

namespace Fs

open Inc Library

variable {m m' m₁ : Memory} {S : Set Nat} {f d g s k j x a n : Nat} {name : List (BitVec 8)}

-- The pointers of the `struct File` at `s` are all null.
def NoPtrs (m : Memory) (s : Nat) : Prop := ∀ x, fDirect s 0 ≤ x → x < fIndirect s + 4 → m x = 0#8

theorem load32_eq_zero (h : ∀ x, a ≤ x → x < a + 4 → m x = 0#8) : m.load32 a = 0#32 := by
  rw [Memory.load32, h (a + 3) (by omega) (by omega), h (a + 2) (by omega) (by omega),
    h (a + 1) (by omega) (by omega), h a (by omega) (by omega)]
  rfl

theorem NoPtrs.ptr_eq (h : NoPtrs m s) (hk : k ≤ INDIRECT) : ptr m s k = 0#32 := by
  have hi : ptr m s INDIRECT = 0#32 := by
    rw [ptr_INDIRECT]
    refine load32_eq_zero fun x h₁ h₂ => h x ?_ h₂
    simp only [fDirect, fIndirect] at *
    omega
  by_cases h₁ : k < NDIRECT
  · rw [ptr_of_lt h₁]
    refine load32_eq_zero fun x h₂ h₃ => h x ?_ ?_ <;>
      simp only [fDirect, fIndirect, NDIRECT] at * <;> omega
  · by_cases h₂ : k = INDIRECT
    · rw [h₂, hi]
    · exact ptr_of_no_indirect (by omega) (by omega) hi

theorem slot_congr (h : ptr m' d k = ptr m d k) : slot m' d k j = slot m d k j := by
  rw [slot, slot, h]

-- The slot `j` of the block `k` of the directory `d` is empty.
structure EmptySlot (m : Memory) (d k j : Nat) : Prop where
  inv   : BlockInv m
  dir   : Reach m d
  isDir : isDir m d
  holds : Holds m d k
  lt    : j < BLKFILES
  empty : m (slot m d k j) = 0#8

-- `strcpy` into an empty slot of a directory.
section Naming

variable (e : EmptySlot m d k j)

section Slot

include e

theorem EmptySlot.valid : bitmapEnd m ≤ (ptr m d k).toNat ∧ (ptr m d k).toNat < sNblocks m ∧
    blockIsFree m (ptr m d k).toNat = false :=
  e.inv.valid e.dir e.holds.2.1.le e.holds.2.2

theorem ne_slot (hg : Reach m g) : g ≠ slot m d k j := by
  have hv := e.valid.1
  have htwo := two_le_bitmapEnd m
  cases hg
  case root =>
    have hr : sRoot = 4104 := by decide
    simp only [slot, BLKSIZE]
    omega
  case entry hne =>
    intro he
    rw [he] at hne
    exact hne e.empty

theorem slot_disjoint (hg : Reach m g) :
    g + sizeofFile ≤ slot m d k j ∨ slot m d k j + sizeofFile ≤ g := by
  have hne := ne_slot e hg
  have hp : NodePlace m (slot m d k j) := by
    refine .inr ⟨?_, ?_⟩
    · simp only [slot, sizeofFile, BLKSIZE]
      omega
    · rw [nodeBlock_slot e.lt]
      exact e.valid
  exact (e.inv.owned.node hg).disjoint hp hne

end Slot

variable (hn : Name name)

include hn

theorem strcpy_eq (hx : x < slot m d k j ∨ slot m d k j + MAXNAMELEN ≤ x) :
    m.strcpy (slot m d k j) name x = m x := by
  have := hn.2.2
  exact Memory.write_of_not_mem (by omega)

include e

theorem strcpy_node (hg : Reach m g) (h₁ : g ≤ x) (h₂ : x < g + sizeofFile) :
    m.strcpy (slot m d k j) name x = m x := by
  have hM : MAXNAMELEN ≤ sizeofFile := by decide
  have := slot_disjoint e hg
  exact strcpy_eq hn (by omega)

omit hn in
theorem strcpy_region : bitmapEnd m * BLKSIZE ≤ slot m d k j ∨
    super + 8 ≤ slot m d k j ∧ slot m d k j + (name.length + 1) ≤ bitmap := by
  have := Nat.mul_le_mul_right BLKSIZE e.valid.1
  have := slot_mem (m := m) (d := d) (k := k) e.lt
  omega

omit hn in
theorem strcpy_nblocks : sNblocks (m.strcpy (slot m d k j) name) = sNblocks m :=
  sNblocks_write (strcpy_region e)

theorem strcpy_ptr (hg : Reach m g) {l : Nat} (hl : l ≤ INDIRECT) :
    ptr (m.strcpy (slot m d k j) name) g l = ptr m g l := by
  refine ptr_congr hl (fun x => strcpy_node e hn hg) fun h₀ x h₁ h₂ => ?_
  have hM : MAXNAMELEN ≤ sizeofFile := by decide
  have hne : (ptr m g INDIRECT).toNat ≠ (ptr m d k).toNat := fun he => by
    have := (e.inv.unique hg e.dir le_rfl e.holds.2.1.le h₀ (BitVec.eq_of_toNat_eq he)).2
    have := e.holds.2.1
    omega
  have := block_disjoint hne
  have := slot_mem (m := m) (d := d) (k := k) e.lt
  exact strcpy_eq hn (by omega)

theorem strcpy_size (hg : Reach m g) :
    (m.strcpy (slot m d k j) name).load32 (fSize g) = m.load32 (fSize g) := by
  refine Memory.load32_congr fun x h₁ h₂ => strcpy_node e hn hg ?_ ?_ <;>
    simp only [fSize, sizeofFile] at * <;> omega

theorem strcpy_nblock (hg : Reach m g) :
    nblock (m.strcpy (slot m d k j) name) g = nblock m g := by
  rw [nblock, nblock, strcpy_size e hn hg]

theorem strcpy_holds (hg : Reach m g) {l : Nat} :
    Holds (m.strcpy (slot m d k j) name) g l ↔ Holds m g l := by
  rw [Holds, Holds, strcpy_nblock e hn hg]
  refine and_congr_right fun _ => and_congr_right fun hl => ?_
  rw [strcpy_ptr e hn hg hl.le]

theorem strcpy_isDir (hg : Reach m g) :
    isDir (m.strcpy (slot m d k j) name) g ↔ isDir m g := by
  have hs : (m.strcpy (slot m d k j) name).load32 (fType g) = m.load32 (fType g) := by
    refine Memory.load32_congr fun x h₁ h₂ => strcpy_node e hn hg ?_ ?_ <;>
      simp only [fType, sizeofFile] at * <;> omega
  rw [isDir, isDir, hs]

omit e in
-- The names of the other slots do not change.
theorem strcpy_name {l i : Nat} (hne : slot m g l i ≠ slot m d k j) (h₁ : slot m g l i ≤ x)
    (h₂ : x < slot m g l i + MAXNAMELEN) : m.strcpy (slot m d k j) name x = m x := by
  have hM : MAXNAMELEN = 128 := rfl
  refine strcpy_eq hn ?_
  simp only [slot, sizeofFile, BLKSIZE] at *
  omega

omit e in
theorem strcpy_first : m.strcpy (slot m d k j) name (slot m d k j) ≠ 0#8 := by
  have hw : m.strcpy (slot m d k j) name (slot m d k j) = name.getD 0 0 := by
    refine (Memory.write_of_mem le_rfl (by omega)).trans ?_
    rw [Nat.sub_self]
  rw [hw]
  cases name
  case nil => exact absurd rfl hn.1
  case cons c cs =>
    rintro rfl
    exact hn.2.1 List.mem_cons_self

variable (hnp : NoPtrs m (slot m d k j))

include hnp

omit e in
theorem strcpy_noPtrs : NoPtrs (m.strcpy (slot m d k j) name) (slot m d k j) := by
  intro x h₁ h₂
  rw [strcpy_eq hn, hnp x h₁ h₂]
  simp only [fDirect, MAXNAMELEN] at *
  omega

theorem strcpy_reach : Reach (m.strcpy (slot m d k j) name) g ↔ Reach m g ∨ g = slot m d k j := by
  have hslot {c l i : Nat} (he : Reach m c) (hl : l < INDIRECT) :
      slot (m.strcpy (slot m d k j) name) c l i = slot m c l i :=
    slot_congr (strcpy_ptr e hn he hl.le)
  have hold {c : Nat} (he : Reach m c) : Reach (m.strcpy (slot m d k j) name) c := by
    induction he
    case root => exact .root
    case entry c l i he hedir hl hi hne hr =>
      rw [← hslot he hl.2.1]
      refine .entry hr ((strcpy_isDir e hn he).mpr hedir)
        ((strcpy_holds e hn he).mpr hl) hi ?_
      rw [hslot he hl.2.1]
      by_cases hc : slot m c l i = slot m d k j
      · rw [hc]
        exact strcpy_first hn
      · rw [strcpy_name hn hc le_rfl (Nat.lt_add_of_pos_right (by decide))]
        exact hne
  constructor
  case mp =>
    intro hg
    induction hg
    case root => exact .inl .root
    case entry c l i _ hedir hl hi hne hr =>
      rcases hr with hr | rfl
      · have hl' := (strcpy_holds e hn hr).mp hl
        rw [hslot hr hl.2.1] at hne ⊢
        by_cases hc : slot m c l i = slot m d k j
        · exact .inr hc
        · rw [strcpy_name hn hc le_rfl
            (Nat.lt_add_of_pos_right (by decide))] at hne
          exact .inl (.entry hr ((strcpy_isDir e hn hr).mp hedir) hl' hi hne)
      · -- the new file has no blocks
        exact absurd ((strcpy_noPtrs hn hnp).ptr_eq hl.2.1.le) hl.2.2
  case mpr =>
    rintro (hg | rfl)
    · exact hold hg
    · have hs := hslot (i := j) e.dir e.holds.2.1
      have hr := Reach.entry (j := j) (hold e.dir) ((strcpy_isDir e hn e.dir).mpr e.isDir)
        ((strcpy_holds e hn e.dir).mpr e.holds) e.lt (by
          rw [hs]
          exact strcpy_first hn)
      rw [hs] at hr
      exact hr

theorem strcpy_blockInv : BlockInv (m.strcpy (slot m d k j) name) := by
  have hreg := @strcpy_region m d k j name e
  have hns := @strcpy_nblocks m d k j name e
  have hfree (c : Nat) : blockIsFree (m.strcpy (slot m d k j) name) c = blockIsFree m c :=
    blockIsFree_write hreg
  have hnew {g l : Nat} (hg : Reach (m.strcpy (slot m d k j) name) g) (hl : l ≤ INDIRECT)
      (h₀ : ptr (m.strcpy (slot m d k j) name) g l ≠ 0#32) :
      Reach m g ∧ ptr (m.strcpy (slot m d k j) name) g l = ptr m g l := by
    rcases (strcpy_reach e hn hnp).mp hg with hg | rfl
    · exact ⟨hg, strcpy_ptr e hn hg hl⟩
    · exact absurd ((strcpy_noPtrs hn hnp).ptr_eq hl) h₀
  constructor
  case checked => exact e.inv.checked.congr hns fun c _ hc => hfree c ▸ hc
  case valid =>
    intro g l hg hl h₀
    have he := hnew hg hl h₀
    rw [he.2] at h₀ ⊢
    rw [bitmapEnd_congr hns, hns, hfree]
    exact e.inv.valid he.1 hl h₀
  case unique =>
    intro g l g' l' hg hg' hl hl' h₀ heq
    have he := hnew hg hl h₀
    have he' := hnew hg' hl' (fun hc => h₀ (heq.trans hc))
    rw [he.2] at h₀ heq
    rw [he'.2] at heq
    exact e.inv.unique he.1 he'.1 hl hl' h₀ heq

end Naming

end Fs

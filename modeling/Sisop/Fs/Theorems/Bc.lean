import Sisop.Fs.Bc

namespace Fs.Bc

open Inc Library Function

namespace Cache

variable {s s' s₁ s₂ : Cache} {a b n : Nat} {src : Nat → BitVec 8} {w : Word}

-- What the file server sees of the disk.
def view (s : Cache) : Memory := fun a => if s.vaIsMapped a then s.mem a else s.disk a

-- A page that is not dirty has the contents of its block.
def Coherent (s : Cache) : Prop :=
  ∀ a, s.vaIsMapped a = true → s.vaIsDirty a = false → s.mem a = s.disk a

theorem vaIsMapped_congr (h : a / BLKSIZE = b / BLKSIZE) : s.vaIsMapped a = s.vaIsMapped b := by
  rw [vaIsMapped, vaIsMapped, h]

theorem vaIsDirty_congr (h : a / BLKSIZE = b / BLKSIZE) : s.vaIsDirty a = s.vaIsDirty b := by
  rw [vaIsDirty, vaIsDirty, h]

theorem view_of_mapped (h : s.vaIsMapped a = true) : s.view a = s.mem a := if_pos h

theorem view_of_not_mapped (h : s.vaIsMapped a = false) : s.view a = s.disk a := by
  rw [view, h, if_neg Bool.false_ne_true]

-- Words do not lie across pages.
theorem view_load32 (hm : s.vaIsMapped a = true) (ha : a % 4 = 0) :
    s.view.load32 a = s.mem.load32 a := by
  refine Memory.load32_congr fun x h₁ h₂ => view_of_mapped ?_
  rw [← hm]
  refine vaIsMapped_congr ?_
  rw [BLKSIZE]
  omega

-- Pages have been read from the disk, and nothing else has happened.
structure Touched (s s' : Cache) : Prop where
  view     : s'.view = s.view
  disk     : s'.disk = s.disk
  mapped   : ∀ {a}, s.vaIsMapped a = true → s'.vaIsMapped a = true
  coherent : s.Coherent → s'.Coherent

namespace Touched

theorem refl : Touched s s := ⟨rfl, rfl, id, id⟩

theorem trans (h₁ : Touched s s₁) (h₂ : Touched s₁ s₂) : Touched s s₂ where
  view     := h₂.view.trans h₁.view
  disk     := h₂.disk.trans h₁.disk
  mapped   := h₂.mapped ∘ h₁.mapped
  coherent := h₂.coherent ∘ h₁.coherent

end Touched

-- The flags of an entry that was made by `sys_page_map`.
theorem flags_pageMap : (w &&& PTE_SYSCALL ||| PTE_P) &&& PTE_P ≠ 0#32 ∧
    (w &&& PTE_SYSCALL ||| PTE_P) &&& PTE_D = 0#32 := by
  constructor
  · intro hc
    have h0 := congrArg (·[0]) hc
    simp [PTE_P] at h0
  · have h1 : PTE_P &&& PTE_D = 0#32 := by decide
    have h2 : PTE_SYSCALL &&& PTE_D = 0#32 := by decide
    rw [BitVec.and_or_distrib_right, BitVec.and_assoc, h1, h2, BitVec.and_zero, BitVec.or_zero]

-- What the page fault handler does to a page that is missing.
def loaded (s : Cache) (b : Nat) : Cache :=
  let s := (s.pageAlloc b).ideRead b
  s.pageMap b (s.uvpt b &&& PTE_SYSCALL)

theorem loaded_vaIsMapped : (s.loaded b).vaIsMapped a = (a / BLKSIZE = b || s.vaIsMapped a) := by
  by_cases h : a / BLKSIZE = b
  · have := (flags_pageMap (w := ((s.pageAlloc b).ideRead b).uvpt b)).1
    simp [loaded, pageMap, vaIsMapped, h, this]
  · simp [loaded, pageMap, ideRead, stored, pageAlloc, vaIsMapped, h]

theorem loaded_vaIsDirty_of_ne (h : a / BLKSIZE ≠ b) : (s.loaded b).vaIsDirty a = s.vaIsDirty a := by
  simp [loaded, pageMap, ideRead, stored, pageAlloc, vaIsDirty, h]

theorem loaded_mem_eq : (s.loaded b).mem = (s.mem.memset (b * BLKSIZE) BLKSIZE 0).write (b * BLKSIZE)
    BLKSIZE fun i => s.disk (b * BLKSIZE + i) := rfl

theorem loaded_mem (h : a / BLKSIZE = b) : (s.loaded b).mem a = s.disk a := by
  have h₁ : b * BLKSIZE ≤ a := by rw [← h]; exact Nat.div_mul_le_self _ _
  have h₂ : a < b * BLKSIZE + BLKSIZE := by
    rw [BLKSIZE] at *
    omega
  rw [loaded_mem_eq, Memory.write_of_mem h₁ h₂, Nat.add_sub_cancel' h₁]

theorem loaded_mem_of_ne (h : a / BLKSIZE ≠ b) : (s.loaded b).mem a = s.mem a := by
  have hn : a < b * BLKSIZE ∨ b * BLKSIZE + BLKSIZE ≤ a := by
    rw [BLKSIZE] at *
    omega
  rw [loaded_mem_eq, Memory.write_of_not_mem hn, Memory.memset_of_not_mem hn]

theorem loaded_touched (h : s.vaIsMapped (b * BLKSIZE) = false) : Touched s (s.loaded b) where
  view := by
    funext a
    rw [view, view, loaded_vaIsMapped]
    by_cases hb : a / BLKSIZE = b
    · have hm : s.vaIsMapped a = false := by
        rw [← h]
        refine vaIsMapped_congr ?_
        rw [hb, Nat.mul_div_cancel _ (by decide)]
      simp [hb, hm, loaded_mem hb]
    · simp only [hb, decide_false, Bool.false_or, loaded_mem_of_ne hb]
      rfl
  disk := rfl
  mapped := by
    intro a hm
    rw [loaded_vaIsMapped, hm, Bool.or_true]
  coherent := by
    intro hc a hm hd
    by_cases hb : a / BLKSIZE = b
    · exact loaded_mem hb
    · rw [loaded_vaIsMapped, decide_eq_false hb, Bool.false_or] at hm
      rw [loaded_vaIsDirty_of_ne hb] at hd
      rw [loaded_mem_of_ne hb]
      exact hc a hm hd

end Cache

section Access

open Cache

variable {s s' s₁ : Cache} {a b n k i : Nat} {v : Word} {T : Nat → BcProg Unit}

-- What holds of the disk once `fs_init` has checked it: the super block is in the cache, and the
-- bitmap blocks are there and marked as in use.
structure Ready (s : Cache) : Prop where
  mapped : s.vaIsMapped super = true
  le     : sNblocks s.view ≤ DISKSIZE / BLKSIZE
  two    : 2 < sNblocks s.view
  used   : ∀ j, j * BLKBITSIZE < sNblocks s.view → Fs.blockIsFree s.view (2 + j) = false

theorem Cache.Touched.ready (t : Touched s s') (r : Ready s) : Ready s' where
  mapped := t.mapped r.mapped
  le     := t.view ▸ r.le
  two    := t.view ▸ r.two
  used   := t.view ▸ r.used

-- The accesses at `a` are served.
def Serves (T : Nat → BcProg Unit) (a : Nat) (s : Cache) : Prop :=
  (T a).wp False (fun _ _ => False) (fun _ s' => Touched s s' ∧ s'.vaIsMapped a = true) s

theorem touch_mapped {P : Prop} {E : Nat → Cache → Prop} {Q : Unit → Cache → Prop}
    (h : s.vaIsMapped a = true) : (touch n a).wp P E Q s ↔ Q () s := by
  cases n <;> simp [touch, h]

theorem serves_mapped (h : s.vaIsMapped a = true) : Serves (touch n) a s :=
  (touch_mapped h).mpr ⟨.refl, h⟩

theorem load32_wp (h : Serves T a s) (ha : a % 4 = 0) :
    (load32 T a).wp False (fun _ _ => False)
      (fun w s' => Touched s s' ∧ s'.vaIsMapped a = true ∧ w = s.view.load32 a) s := by
  rw [load32, Prog.wp_bind]
  refine Prog.wp.mono h id (fun _ _ => id) fun _ s' h => ?_
  obtain ⟨t, hm⟩ := h
  rw [Prog.wp_bind, Prog.wp_get, Prog.wp_pure, ← view_load32 hm ha, t.view]
  exact ⟨t, hm, rfl⟩

theorem bitmapWord_mod : bitmapWord b % 4 = 0 := by
  rw [bitmapWord, bitmap, BLKSIZE]
  omega

theorem load_super {P : Prop} {E : Nat → Cache → Prop} {Q : Word → Cache → Prop}
    (h : s.vaIsMapped super = true) :
    (load32 (touch n) (super + 4)).wp P E Q s ↔ Q (s.view.load32 (super + 4)) s := by
  have hm : s.vaIsMapped (super + 4) = true := (vaIsMapped_congr (by decide)).trans h
  rw [load32, Prog.wp_bind, touch_mapped hm, Prog.wp_bind, Prog.wp_get, Prog.wp_pure,
    view_load32 hm (by decide)]

theorem blockIsFree_wp (r : Ready s)
    (h : b < sNblocks s.view → Serves (touch n) (bitmapWord b) s) :
    (blockIsFree (touch n) b).wp False (fun _ _ => False)
      (fun x s' => Touched s s' ∧ x = Fs.blockIsFree s.view b) s := by
  have hn : (s.view.load32 (super + 4)).toNat = sNblocks s.view := rfl
  rw [blockIsFree, Prog.wp_bind, load_super r.mapped, Prog.wp_ite, hn]
  refine ⟨fun hle => ?_, fun hlt => ?_⟩
  · rw [Prog.wp_pure, Fs.blockIsFree, decide_eq_false (Nat.not_lt.mpr hle), Bool.false_and]
    exact ⟨.refl, rfl⟩
  · rw [Prog.wp_bind]
    refine Prog.wp.mono (load32_wp (h (Nat.not_le.mp hlt)) bitmapWord_mod) id (fun _ _ => id)
      fun w s' h => ?_
    obtain ⟨t, _, hw⟩ := h
    rw [Prog.wp_pure, Fs.blockIsFree, decide_eq_true (Nat.not_le.mp hlt), Bool.true_and, hw]
    exact ⟨t, rfl⟩

-- The handler reads a block that exists and is in use, if its own look at the bitmap is served.
theorem bcPgfault_wp (r : Ready s) (hm : s.vaIsMapped a = false)
    (hb : a / BLKSIZE < sNblocks s.view) (hf : Fs.blockIsFree s.view (a / BLKSIZE) = false)
    (h : ∀ s₁, Touched s s₁ → s₁.vaIsMapped a = true → Serves (touch n) (bitmapWord (a / BLKSIZE)) s₁) :
    (bcPgfault (touch n) a).wp False (fun _ _ => False)
      (fun _ s' => Touched s s' ∧ s'.vaIsMapped a = true) s := by
  have hlt : ¬DISKSIZE ≤ a := by
    have hle := r.le
    rw [BLKSIZE, DISKSIZE] at *
    omega
  have hn : (s.view.load32 (super + 4)).toNat = sNblocks s.view := rfl
  have ht : Touched s (s.loaded (a / BLKSIZE)) :=
    loaded_touched ((vaIsMapped_congr (Nat.mul_div_cancel _ (by decide))).trans hm)
  have hm' : (s.loaded (a / BLKSIZE)).vaIsMapped a = true := by
    rw [loaded_vaIsMapped, decide_eq_true rfl, Bool.true_or]
  rw [bcPgfault]
  simp only [if_neg hlt]
  rw [Prog.wp_bind, load_super r.mapped, Prog.wp_ite, hn]
  refine ⟨fun hc => absurd hb (Nat.not_lt.mpr hc), fun _ => ?_⟩
  simp only [Prog.wp_bind, Prog.wp_modify]
  refine Prog.wp.mono (blockIsFree_wp (ht.ready r) fun _ => h _ ht hm') id (fun _ _ => id)
    fun x s' h => ?_
  obtain ⟨t, hx⟩ := h
  have hx : x = Fs.blockIsFree (s.loaded (a / BLKSIZE)).view (a / BLKSIZE) := hx
  rw [ht.view, hf] at hx
  rw [hx, Prog.wp_ite]
  exact ⟨fun hc => absurd hc Bool.false_ne_true, fun _ => ⟨ht.trans t, t.mapped hm'⟩⟩

-- The bitmap block that says whether block `b` is free.
theorem bitmapWord_block : bitmapWord b / BLKSIZE = 2 + b / BLKBITSIZE := by
  rw [bitmapWord, bitmap, BLKBITSIZE, BLKSIZE]
  omega

theorem Ready.bitmap_lt (r : Ready s) (hb : b < sNblocks s.view) :
    2 + b / BLKBITSIZE < sNblocks s.view := by
  have h₁ := r.two
  have h₂ : b / BLKBITSIZE * BLKBITSIZE ≤ b := Nat.div_mul_le_self _ _
  rw [BLKBITSIZE, BLKSIZE] at *
  omega

theorem Ready.bitmap_used (r : Ready s) (hb : b < sNblocks s.view) :
    Fs.blockIsFree s.view (2 + b / BLKBITSIZE) = false :=
  r.used _ (lt_of_le_of_lt (Nat.div_mul_le_self _ _) hb)

-- A block that exists and is in use is served, where the bitmap block for it is.
theorem serves_succ (r : Ready s) (hb : a / BLKSIZE < sNblocks s.view)
    (hf : Fs.blockIsFree s.view (a / BLKSIZE) = false)
    (h : ∀ s₁, Touched s s₁ → s₁.vaIsMapped a = true →
      Serves (touch n) (bitmapWord (a / BLKSIZE)) s₁) : Serves (touch (n + 1)) a s := by
  cases hm : s.vaIsMapped a
  case true  => exact serves_mapped hm
  case false =>
    rw [Serves, touch, Prog.wp_bind, Prog.wp_get, hm]
    exact bcPgfault_wp r hm hb hf h

-- The first bitmap block says itself that it is in use.
theorem serves_bitmap (r : Ready s) (ha : a / BLKSIZE = 2) : Serves (touch (n + 1)) a s := by
  have hw : bitmapWord (a / BLKSIZE) / BLKSIZE = a / BLKSIZE := by
    rw [ha]
    rfl
  refine serves_succ r (ha ▸ r.two) ?_ fun s₁ _ hm => serves_mapped ((vaIsMapped_congr hw).trans hm)
  rw [ha]
  exact r.used 0 (lt_trans (by decide) r.two)

-- So does it of the others.
theorem serves_bitmapWord (r : Ready s) (hb : b < sNblocks s.view) :
    Serves (touch (n + 2)) (bitmapWord b) s := by
  have hlt : (2 + b / BLKBITSIZE) / BLKBITSIZE = 0 := by
    have h₁ := r.le
    rw [DISKSIZE, BLKSIZE] at h₁
    rw [BLKBITSIZE, BLKSIZE]
    omega
  refine serves_succ r ?_ ?_ fun _ t _ => serves_bitmap (t.ready r) ?_
  · rw [bitmapWord_block]
    exact r.bitmap_lt hb
  · rw [bitmapWord_block]
    exact r.bitmap_used hb
  · rw [bitmapWord_block, bitmapWord_block, hlt]

theorem serves (r : Ready s) (hb : a / BLKSIZE < sNblocks s.view)
    (hf : Fs.blockIsFree s.view (a / BLKSIZE) = false) : Serves (touch (n + 3)) a s :=
  serves_succ r hb hf fun _ t _ => serves_bitmapWord (t.ready r) (t.view ▸ hb)

end Access

section Store

open Cache

variable {s s' s₁ : Cache} {a b n : Nat} {src : Nat → BitVec 8} {v : Word}

theorem flags_stored {w : Word} : (w ||| PTE_D) &&& PTE_P = w &&& PTE_P ∧ (w ||| PTE_D) &&& PTE_D ≠ 0#32 := by
  have hp : PTE_D &&& PTE_P = 0#32 := by decide
  constructor
  · rw [BitVec.and_or_distrib_right, hp, BitVec.or_zero]
  · intro hc
    have h6 := congrArg (·[6]) hc
    simp [PTE_D] at h6

theorem Cache.stored_mem : (s.stored b a n src).mem = s.mem.write a n src := rfl

theorem Cache.stored_disk : (s.stored b a n src).disk = s.disk := rfl

theorem Cache.stored_vaIsMapped : (s.stored b a n src).vaIsMapped = s.vaIsMapped := by
  funext x
  by_cases h : x / BLKSIZE = b
  · simp [vaIsMapped, stored, h, flags_stored.1]
  · simp [vaIsMapped, stored, h]

theorem Cache.stored_vaIsDirty {x : Nat} :
    (s.stored b a n src).vaIsDirty x = (x / BLKSIZE = b || s.vaIsDirty x) := by
  by_cases h : x / BLKSIZE = b
  · have hd := @flags_stored (s.uvpt b)
    simp [vaIsDirty, stored, h, hd.2]
  · simp [vaIsDirty, stored, h]

-- Stores to a page that is mapped.
theorem Cache.stored_view (hm : s.vaIsMapped a = true) (hab : ∀ x, a ≤ x → x < a + n → x / BLKSIZE = a / BLKSIZE) :
    (s.stored (a / BLKSIZE) a n src).view = s.view.write a n src := by
  funext x
  rw [view, stored_vaIsMapped]
  by_cases hx : a ≤ x ∧ x < a + n
  · have hmx : s.vaIsMapped x = true := (vaIsMapped_congr (hab x hx.1 hx.2)).trans hm
    rw [hmx, if_pos rfl, stored_mem, Memory.write_of_mem hx.1 hx.2, Memory.write_of_mem hx.1 hx.2]
  · have hx : x < a ∨ a + n ≤ x := by omega
    rw [stored_mem, stored_disk, Memory.write_of_not_mem hx, Memory.write_of_not_mem hx, view]

theorem Cache.stored_coherent (h : s.Coherent)
    (hab : ∀ x, a ≤ x → x < a + n → x / BLKSIZE = b) : (s.stored b a n src).Coherent := by
  intro x hm hd
  rw [stored_vaIsMapped] at hm
  rw [stored_vaIsDirty, Bool.or_eq_false_iff, decide_eq_false_iff_not] at hd
  have hx : x < a ∨ a + n ≤ x := by
    by_contra hc
    exact hd.1 (hab x (by omega) (by omega))
  rw [stored_mem, stored_disk, Memory.write_of_not_mem hx]
  exact h x hm hd.2

-- `flush_block` writes back the page of `b` if it is dirty.
def Cache.flushed (s : Cache) (b : Nat) : Cache :=
  if !s.vaIsMapped (b * BLKSIZE) || !s.vaIsDirty (b * BLKSIZE) then s
  else (s.ideWrite b).pageMap b (s.uvpt b &&& PTE_SYSCALL)

theorem flushBlock_wp {P : Prop} {E : Nat → Cache → Prop} {Q : Unit → Cache → Prop} (ha : a < DISKSIZE) :
    (flushBlock a).wp P E Q s ↔ Q () (s.flushed (a / BLKSIZE)) := by
  rw [flushBlock]
  simp only [if_neg (Nat.not_le.mpr ha), flushed]
  rw [Prog.wp_bind, Prog.wp_get]
  split <;> simp [ideWrite]

theorem Cache.ideWrite_disk {x : Nat} :
    (s.ideWrite b).disk x = if x / BLKSIZE = b then s.mem x else s.disk x := by
  have hw : (s.ideWrite b).disk =
      s.disk.write (b * BLKSIZE) BLKSIZE fun i => s.mem (b * BLKSIZE + i) := rfl
  rw [hw]
  split
  case isTrue h =>
    have h₁ : b * BLKSIZE ≤ x := by rw [← h]; exact Nat.div_mul_le_self _ _
    have h₂ : x < b * BLKSIZE + BLKSIZE := by
      rw [BLKSIZE] at *
      omega
    rw [Memory.write_of_mem h₁ h₂, Nat.add_sub_cancel' h₁]
  case isFalse h =>
    have hx : x < b * BLKSIZE ∨ b * BLKSIZE + BLKSIZE ≤ x := by
      rw [BLKSIZE] at *
      omega
    rw [Memory.write_of_not_mem hx]

theorem div_block (h : a / BLKSIZE = b) : a / BLKSIZE = b * BLKSIZE / BLKSIZE := by
  rw [h, Nat.mul_div_cancel _ (by decide)]

-- What `flush_block` does to the disk: the block gets the contents of its page, where this is dirty.
theorem Cache.flushed_disk {x : Nat} : (s.flushed b).disk x =
    if x / BLKSIZE = b ∧ s.vaIsMapped x = true ∧ s.vaIsDirty x = true then s.mem x else s.disk x := by
  rw [flushed]
  by_cases hx : x / BLKSIZE = b
  · rw [← vaIsMapped_congr (div_block hx), ← vaIsDirty_congr (div_block hx)]
    cases hm : s.vaIsMapped x <;> cases hd : s.vaIsDirty x <;> simp [hx, pageMap, ideWrite_disk]
  · split <;> simp [hx, pageMap, ideWrite_disk]

theorem Cache.flushed_mem : (s.flushed b).mem = s.mem := by
  rw [flushed]
  split <;> rfl

theorem Cache.flushed_vaIsMapped : (s.flushed b).vaIsMapped = s.vaIsMapped := by
  funext x
  rw [flushed]
  split
  case isTrue => rfl
  case isFalse h =>
    simp only [Bool.or_eq_true, Bool.not_eq_true', not_or, Bool.not_eq_false] at h
    by_cases hx : x / BLKSIZE = b
    · have hm : s.vaIsMapped x = true := (vaIsMapped_congr (div_block hx)).trans h.1
      have := (@flags_pageMap (s.uvpt b)).1
      rw [hm]
      simp [vaIsMapped, pageMap, hx, this]
    · simp [vaIsMapped, pageMap, ideWrite, hx]

theorem Cache.flushed_vaIsDirty {x : Nat} (hm : s.vaIsMapped x = true) :
    (s.flushed b).vaIsDirty x = (decide (x / BLKSIZE ≠ b) && s.vaIsDirty x) := by
  rw [flushed]
  by_cases hx : x / BLKSIZE = b
  · rw [← vaIsMapped_congr (div_block hx), ← vaIsDirty_congr (div_block hx), hm]
    have := (@flags_pageMap (s.uvpt b)).2
    cases hd : s.vaIsDirty x <;> simp [hx, hd]
    simp [vaIsDirty, pageMap, hx, this]
  · split <;> simp [vaIsDirty, pageMap, ideWrite, hx]

theorem Cache.flushed_view : (s.flushed b).view = s.view := by
  funext x
  rw [view, view, flushed_vaIsMapped, flushed_mem, flushed_disk]
  cases s.vaIsMapped x <;> simp

theorem Cache.flushed_coherent (h : s.Coherent) : (s.flushed b).Coherent := by
  intro x hm hd
  rw [flushed_vaIsMapped] at hm
  rw [flushed_vaIsDirty hm] at hd
  rw [flushed_mem, flushed_disk]
  cases hdx : s.vaIsDirty x
  case true =>
    rw [hdx, Bool.and_true, decide_eq_false_iff_not, not_not] at hd
    rw [if_pos ⟨hd, hm, rfl⟩]
  case false =>
    rw [if_neg (fun hc => Bool.false_ne_true hc.2.2)]
    exact h x hm hdx

end Store

section Alloc

open Cache

variable {s s' : Cache} {a b n k i : Nat} {v : Word}

theorem store32_mapped {P : Prop} {E : Nat → Cache → Prop} {Q : Unit → Cache → Prop}
    (hm : s.vaIsMapped a = true) : (store32 (touch n) a v).wp P E Q s ↔
      Q () (s.stored (a / BLKSIZE) a 4 fun i => (v >>> (8 * i)).setWidth 8) := by
  rw [store32, Prog.wp_bind, touch_mapped hm, Prog.wp_modify]

-- The lowest block that is marked as free.
def FirstFree (m : Memory) (i : Nat) : Prop :=
  Fs.blockIsFree m i = true ∧ ∀ j < i, Fs.blockIsFree m j = false

-- The bitmap word of block `i` without its bit.
def cleared (m : Memory) (i : Nat) : Word := m.load32 (bitmapWord i) &&& ~~~bitmapMask i

-- What `alloc_block` does when `i` is free: of the bitmap, the first block is written back.
theorem allocTurn_wp (r : Ready s) (hi : Fs.blockIsFree s.view i = true) :
    (allocFrom (n + 2) (k + 1) i).wp False (fun _ _ => False) (fun x s' =>
      x = BitVec.ofNat 32 i ∧ s'.view = s.view.store32 (bitmapWord i) (cleared s.view i) ∧
      s'.disk.load32 (bitmapWord i) =
        if i < BLKBITSIZE then cleared s.view i else s.disk.load32 (bitmapWord i)) s := by
  have hlt : i < sNblocks s.view := by
    rw [Fs.blockIsFree, Bool.and_eq_true, decide_eq_true_iff] at hi
    exact hi.1
  have hb : bitmap < DISKSIZE := by decide
  rw [allocFrom, Prog.wp_bind]
  refine Prog.wp.mono (blockIsFree_wp r fun h => serves_bitmapWord r h) id (fun _ _ => id)
    fun x s₁ h => ?_
  obtain ⟨t₁, hx⟩ := h
  rw [hx, hi, if_pos rfl, Prog.wp_bind]
  refine Prog.wp.mono (load32_wp (serves_bitmapWord (t₁.ready r) (t₁.view ▸ hlt)) bitmapWord_mod) id
    (fun _ _ => id) fun w s₂ h => ?_
  obtain ⟨t₂, hm, hw⟩ := h
  have t := t₁.trans t₂
  have hw : w &&& ~~~bitmapMask i = cleared s.view i := by rw [hw, t₁.view, cleared]
  rw [Prog.wp_bind, store32_mapped hm, Prog.wp_bind, flushBlock_wp hb, Prog.wp_pure, hw]
  have hpage (x : Nat) (h₁ : bitmapWord i ≤ x) (h₂ : x < bitmapWord i + 4) :
      x / BLKSIZE = bitmapWord i / BLKSIZE := by
    have hd := @bitmapWord_mod i
    rw [BLKSIZE]
    omega
  refine ⟨rfl, ?_, ?_⟩
  · rw [flushed_view, stored_view hm hpage, t.view]
    rfl
  · have hbl := @bitmapWord_block i
    split
    case isTrue hfirst =>
      have hz : i / BLKBITSIZE = 0 := Nat.div_eq_of_lt hfirst
      refine Eq.trans (Memory.load32_congr fun x h₁ h₂ => ?_)
        (Memory.load32_store32_self (m := s₂.mem) (v := cleared s.view i))
      have hx : x / BLKSIZE = bitmap / BLKSIZE := by rw [hpage x h₁ h₂, hbl, hz]; rfl
      have hmx (src) : (s₂.stored (bitmapWord i / BLKSIZE) (bitmapWord i) 4 src).vaIsMapped x = true := by
        rw [stored_vaIsMapped, ← hm]
        exact vaIsMapped_congr (hpage x h₁ h₂)
      have hdx (src) : (s₂.stored (bitmapWord i / BLKSIZE) (bitmapWord i) 4 src).vaIsDirty x = true := by
        rw [stored_vaIsDirty, decide_eq_true (hpage x h₁ h₂), Bool.true_or]
      rw [flushed_disk, if_pos ⟨hx, hmx _, hdx _⟩]
      rfl
    case isFalse hrest =>
      rw [← t.disk]
      refine Memory.load32_congr fun x h₁ h₂ => ?_
      have hx : x / BLKSIZE ≠ bitmap / BLKSIZE := by
        have hne : i / BLKBITSIZE ≠ 0 := fun hz =>
          hrest ((Nat.div_eq_zero_iff_lt (by decide)).mp hz)
        have hbm : bitmap / BLKSIZE = 2 := rfl
        rw [hpage x h₁ h₂, hbl, hbm]
        omega
      rw [flushed_disk, if_neg fun hc => hx hc.1]
      rfl

-- What the loop of `alloc_block` does from block `i` on, when no earlier block is free.
theorem allocFrom_wp (r : Ready s) (hn : ∀ j < i, Fs.blockIsFree s.view j = false)
    (hk : i + k = sNblocks s.view) :
    (allocFrom (n + 2) k i).wp False (fun _ _ => False) (fun x s' =>
      (x = err E_NO_DISK ∧ (∀ j, Fs.blockIsFree s.view j = false) ∧ s'.view = s.view) ∨
      ∃ i, FirstFree s.view i ∧ x = BitVec.ofNat 32 i ∧
        s'.view = s.view.store32 (bitmapWord i) (cleared s.view i) ∧
        s'.disk.load32 (bitmapWord i) =
          if i < BLKBITSIZE then cleared s.view i else s.disk.load32 (bitmapWord i)) s := by
  induction k generalizing i s
  case zero =>
    rw [allocFrom, Prog.wp_pure]
    refine .inl ⟨rfl, fun j => ?_, rfl⟩
    by_cases hj : j < i
    · exact hn j hj
    · rw [Fs.blockIsFree, decide_eq_false (by omega), Bool.false_and]
  case succ k ih =>
    cases hf : Fs.blockIsFree s.view i
    case true =>
      exact Prog.wp.mono (allocTurn_wp r hf) id (fun _ _ => id) fun x s' h => .inr ⟨i, ⟨hf, hn⟩, h⟩
    case false =>
      rw [allocFrom, Prog.wp_bind]
      refine Prog.wp.mono (blockIsFree_wp r fun h => serves_bitmapWord r h) id (fun _ _ => id)
        fun x s₁ h => ?_
      obtain ⟨t, hx⟩ := h
      rw [hx, hf, if_neg Bool.false_ne_true]
      have hn' : ∀ j < i + 1, Fs.blockIsFree s₁.view j = false := by
        intro j hj
        rw [t.view]
        by_cases he : j = i
        · rw [he, hf]
        · exact hn j (by omega)
      have := ih (t.ready r) hn' (by rw [t.view]; omega)
      rwa [t.view, t.disk] at this

-- What `alloc_block` should do: find the lowest free block, and have its bit cleared on the disk too.
structure Allocated (s : Cache) (x : Word) (s' : Cache) : Prop where
  noDisk : x = err E_NO_DISK ↔ ∀ i, Fs.blockIsFree s.view i = false
  block  : ∀ i, FirstFree s.view i → x = BitVec.ofNat 32 i ∧
    s'.view = s.view.store32 (bitmapWord i) (cleared s.view i) ∧
    s'.disk.load32 (bitmapWord i) = s'.view.load32 (bitmapWord i)

-- The bit of the lowest free block is in the first bitmap block, or clear on the disk already.
def Durable (s : Cache) : Prop :=
  ∀ i, FirstFree s.view i → i < BLKBITSIZE ∨ s.disk.load32 (bitmapWord i) = cleared s.view i

theorem FirstFree.unique {m : Memory} {i j : Nat} (hi : FirstFree m i) (hj : FirstFree m j) : i = j := by
  rcases Nat.lt_trichotomy i j with h | h | h
  · exact absurd (hi.1.symm.trans (hj.2 i h)) (by decide)
  · exact h
  · exact absurd (hj.1.symm.trans (hi.2 j h)) (by decide)

-- `flush_block(bitmap)` writes back the first bitmap block only.
theorem alloc_durable (r : Ready s) : (allocBlock (n + 2)).wp False (fun _ _ => False)
    (fun x s' => Allocated s x s' ↔ Durable s) s := by
  rw [allocBlock, Prog.wp_bind, load_super r.mapped]
  refine Prog.wp.mono (allocFrom_wp r (fun _ hj => absurd hj (Nat.not_lt_zero _)) (Nat.zero_add _)) id
    (fun _ _ => id) fun x s' h => ?_
  rcases h with ⟨hx, hn, hv⟩ | ⟨i, hi, hx, hv, hd⟩
  · have hf (i : Nat) : ¬FirstFree s.view i := fun h => absurd ((hn i).symm.trans h.1) (by decide)
    exact iff_of_true ⟨iff_of_true hx hn, fun i h => absurd h (hf i)⟩ fun i h => absurd h (hf i)
  · have hno : ¬∀ i, Fs.blockIsFree s.view i = false := fun h =>
      absurd ((h i).symm.trans hi.1) (by decide)
    have hxe : x ≠ err E_NO_DISK := by
      intro hc
      have hlt : i < sNblocks s.view := by
        have := hi.1
        rw [Fs.blockIsFree, Bool.and_eq_true, decide_eq_true_iff] at this
        exact this.1
      have hle := r.le
      have he : (BitVec.ofNat 32 i).toNat = (err E_NO_DISK).toNat := by rw [← hx, hc]
      have hv : (err E_NO_DISK).toNat = 4294967287 := by decide
      rw [BitVec.toNat_ofNat, hv] at he
      rw [DISKSIZE, BLKSIZE] at hle
      omega
    constructor
    case mp =>
      intro h j hj
      obtain rfl := hi.unique hj
      have hd' := (h.block i hi).2.2
      rw [hd, hv, Memory.load32_store32_self] at hd'
      split at hd'
      case isTrue hlt => exact .inl hlt
      case isFalse    => exact .inr hd'
    case mpr =>
      intro h
      refine ⟨iff_of_false hxe hno, fun j hj => ?_⟩
      obtain rfl := hi.unique hj
      refine ⟨hx, hv, ?_⟩
      rw [hd, hv, Memory.load32_store32_self]
      split
      case isTrue => rfl
      case isFalse hlt => exact (h i hi).resolve_left hlt

namespace Sample

def zero : Memory := fun _ => 0#8

-- A disk of `nblocks` blocks, whose bitmap has the word `v` at `w` and is empty elsewhere.
def disk (nblocks : Word) (w : Nat) (v : Word) : Memory :=
  (zero.store32 (super + 4) nblocks).store32 w v

-- The file server has the super block in its cache.
def cache (m : Memory) : Cache := ⟨m, m, update (fun _ => 0#32) 1 (PTE_W ||| PTE_U ||| PTE_P)⟩

theorem cache_view {m : Memory} : (cache m).view = m := by
  funext a
  exact ite_self _

variable {nblocks : Word} {w : Nat}

theorem disk_nblocks (hw : bitmap ≤ w) : sNblocks (disk nblocks w v) = nblocks.toNat := by
  have hs : super + 8 ≤ bitmap := by decide
  rw [sNblocks, disk, Memory.load32_store32 (by omega), Memory.load32_store32_self]

theorem disk_bitmap (hb : bitmapWord b + 4 ≤ w) : (disk nblocks w v).load32 (bitmapWord b) = 0#32 := by
  have hs : super + 8 ≤ bitmapWord b := by
    have hs : super + 8 ≤ bitmap := by decide
    exact hs.trans (Nat.le_add_right _ _)
  have hz : zero.load32 (bitmapWord b) = 0#8 ++ 0#8 ++ 0#8 ++ 0#8 := rfl
  rw [disk, Memory.load32_store32 (by omega), Memory.load32_store32 (by omega), hz]
  rfl

-- Block 5 is free.
def small : Cache := cache (disk 8#32 bitmap 0x20#32)

theorem ready_small : Ready small := by
  have hn : sNblocks small.view = 8 := by
    rw [small, cache_view]
    exact disk_nblocks le_rfl
  refine ⟨by decide, by rw [hn]; decide, by rw [hn]; decide, fun j hj => ?_⟩
  have hj : j = 0 := by
    rw [hn, BLKBITSIZE, BLKSIZE] at hj
    omega
  rw [hj, small, cache_view]
  decide

-- The first block of the second bitmap block is free.
def large : Cache := cache (disk 32769#32 12288 1#32)

theorem large_nblocks : sNblocks large.view = 32769 := by
  rw [large, cache_view]
  exact disk_nblocks (by decide)

theorem large_used (hb : b < BLKBITSIZE) : Fs.blockIsFree large.view b = false := by
  have hle : bitmapWord b + 4 ≤ 12288 := by
    rw [bitmapWord, bitmap]
    rw [BLKBITSIZE, BLKSIZE] at *
    omega
  rw [Fs.blockIsFree, large, cache_view, disk_bitmap hle, BitVec.zero_and]
  exact Bool.and_false _

theorem ready_large : Ready large := by
  refine ⟨by decide, by rw [large_nblocks]; decide, by rw [large_nblocks]; decide, fun j hj => ?_⟩
  rw [large_nblocks, BLKBITSIZE, BLKSIZE] at hj
  refine large_used ?_
  rw [BLKBITSIZE, BLKSIZE]
  omega

theorem large_word : (disk 32769#32 12288 1#32).load32 (bitmapWord 32768) = 1#32 := by
  have hb : bitmapWord 32768 = 12288 := by
    rw [bitmapWord, bitmap, BLKSIZE]
  rw [hb]
  exact Memory.load32_store32_self

theorem large_first : FirstFree large.view 32768 := by
  refine ⟨?_, fun j hj => large_used hj⟩
  have hn := large_nblocks
  have hw : large.view.load32 (bitmapWord 32768) = 1#32 := by
    rw [large, cache_view]
    exact large_word
  rw [Fs.blockIsFree, hn, hw]
  decide

end Sample

theorem alloc_durable_small : (allocBlock (0 + 2)).wp False (fun _ _ => False)
    (fun x s' => Allocated Sample.small x s' ↔ Durable Sample.small) Sample.small :=
  alloc_durable Sample.ready_small

theorem not_alloc_durable : ¬∀ {n s}, Ready s →
    (allocBlock (n + 2)).wp False (fun _ _ => False) (fun x s' => Allocated s x s') s := by
  intro h
  obtain ⟨s, r, hf, hd, hv⟩ : ∃ s, Ready s ∧ FirstFree s.view 32768 ∧
      s.disk.load32 (bitmapWord 32768) = 1#32 ∧ s.view.load32 (bitmapWord 32768) = 1#32 := by
    refine ⟨Sample.large, Sample.ready_large, Sample.large_first, Sample.large_word, ?_⟩
    rw [Sample.large, Sample.cache_view]
    exact Sample.large_word
  have h₁ := @alloc_durable s 0 r
  obtain ⟨x, s', hx, hi⟩ := Prog.wp.exists_ok h₁
  have ha : Allocated s x s' := Prog.wp.ok (h r) hx
  have hc := (hi.mp ha 32768 hf).resolve_left (Nat.lt_irrefl BLKBITSIZE)
  rw [cleared, hd, hv] at hc
  have hm : 1#32 ≠ 1#32 &&& ~~~bitmapMask 32768 := by decide
  exact hm hc

end Alloc

end Fs.Bc

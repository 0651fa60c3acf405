import Sisop.Fs.Theorems.Contents
import Sisop.Fs.Theorems.Fresh

namespace Fs

open Inc Library

-- A law about the sizes of files, which may ask for more of directories.
abbrev SizeLaw := Prop → Word → Prop

def Sizes (P : SizeLaw) (m : Memory) : Prop := ∀ f, Reach m f → P (isDir m f) (m.load32 (fSize f))

-- The files are in order: they own their blocks, and their sizes keep the law.
structure Sized (P : SizeLaw) (m : Memory) : Prop where
  blocks : BlockInv m
  sizes  : Sizes P m

-- The slot that `file_create` takes has no old data, and a directory that grows keeps the law.
def CreateSized (P : SizeLaw) (m : Memory) (path : List (BitVec 8)) : Prop :=
  DirsFull m ∧ ∀ d name, Parent m sRoot (pathElems path) d name →
    (∀ s, FirstEmpty m d s → BlankSlot m s) ∧ GrowClean m d ∧
      (Packed m d → P True (m.load32 (fSize d)) → P True (m.load32 (fSize d) + 4096#32))

-- A transfer that copies something at a position between `-BLKSIZE` and 0.
def Strays (count offset : Word) : Prop := 4294963200 < offset.toNat ∧ offset < offset + count

-- What a write asks for: a file that is no directory, and a size for it.
def WriteSized (P : SizeLaw) (m : Memory) (f : Nat) (count offset : Word) : Prop :=
  ¬isDir m f ∧ ¬Strays count offset ∧
    (m.load32 (fSize f) < offset + count → P False (offset + count))

def ReadSized (m : Memory) (f : Nat) (offset : Word) : Prop :=
  isDir m f → HoleFree m f ∧ offset.toNat < 2147483648

def SetSized (P : SizeLaw) (m : Memory) (f : Nat) (size : Word) : Prop := ¬isDir m f ∧ P False size

-- What holds after an operation: the files in order, and no file lost.
def KeepsSized (P : SizeLaw) (m m' : Memory) : Prop := Sized P m' ∧ ∀ g, Reach m g → Reach m' g

variable {P : SizeLaw} {m m' m₁ : Memory} {S : Set Nat} {f d g k j n : Nat}
  {name path : List (BitVec 8)} {count offset size pos stop : Word} {buf : Nat → BitVec 8}

section Loops

variable (o : Owned m S) (ha : Apart m f S) (hf : f ∈ S)

include o ha hf

-- A read gives blocks to its file, at any position.
theorem readLoop_reads : (readLoop f stop (fuel stop pos) pos).wp True
    (fun _ m' => Reads S m f m') (fun _ m' => Reads S m f m') m := by
  by_cases hneg : 2147483648 ≤ pos.toNat
  · rw [fuel, readLoop, Prog.wp_ite]
    refine ⟨fun hlt => ?_, fun _ => .refl o ha⟩
    rw [Prog.wp_bind]
    refine ((getBlock_negative hneg o hf).and (fileGetBlock_wp o hf)).mono (fun _ => trivial) ?_ ?_
    · rintro _ _ ⟨-, rfl, -⟩
      exact .refl o ha
    · rintro blk m₁ ⟨hp, g, -⟩
      have hn : (stop - pos).toNat = (stop - pos).toNat - 1 + 1 := by
        rw [BitVec.lt_def] at hlt
        rw [BitVec.toNat_sub]
        have := stop.isLt
        omega
      rw [Prog.wp_bind, Prog.wp_get, chunkLen_negative hneg hp hlt, hn, readLoop,
        if_neg (by rw [BitVec.lt_def]; omega)]
      exact g.reads o hf ha
  · refine (readLoop_wp o ha hf (by omega) ?_).mono (fun _ => trivial) (fun _ _ r => r.1)
      fun _ _ r => r.1
    have := stop.isLt
    rw [fuel, BitVec.toNat_sub]
    omega

theorem fileRead_reads : (fileRead f count offset).wp True (fun _ m' => Reads S m f m')
    (fun _ m' => Reads S m f m') m := by
  rw [fileRead, Prog.wp_bind, Prog.wp_get, Prog.wp_ite]
  refine ⟨fun _ => .refl o ha, fun _ => ?_⟩
  rw [Prog.wp_bind]
  exact readLoop_reads o ha hf

theorem writeLoop_writes (hs : ¬Strays count offset) :
    (writeLoop f (offset + count) (fuel (offset + count) offset) buf offset).wp True
      (fun _ m' => Writes S (Data m' f) m f m') (fun _ m' => Writes S (Data m' f) m f m') m := by
  by_cases hneg : 2147483648 ≤ offset.toNat
  · rw [fuel, writeLoop, Prog.wp_ite]
    refine ⟨fun hlt => ?_, fun _ => .refl _ o ha⟩
    rw [Prog.wp_bind]
    refine (getBlock_negative hneg o hf).mono (fun _ => trivial) ?_ fun _ _ hp => ?_
    · rintro _ _ ⟨-, rfl, -⟩
      exact .refl _ o ha
    · exact absurd ⟨hp, hlt⟩ hs
  · refine (writeLoop_wp o ha hf (by omega) ?_).mono (fun _ => trivial) (fun _ _ w => w.1)
      fun _ _ w => w.1.mono fun _ => Span.data
    have := (offset + count).isLt
    rw [fuel, BitVec.toNat_sub]
    omega

end Loops

-- An operation on a file that is no directory.
theorem Regular.sized (r : Regular m f m') (h : Sized P m) (hf : Reach m f) (hd : ¬isDir m f)
    (hs : P False (m'.load32 (fSize f))) : KeepsSized P m m' := by
  refine ⟨⟨r.blockInv h.blocks hf hd, fun g hg => ?_⟩,
    fun g hg => (r.reach_iff h.blocks hf hd).mpr hg⟩
  have hg := (r.reach_iff h.blocks hf hd).mp hg
  have hdir : isDir m' g = isDir m g := propext (r.isDir_iff h.blocks hf hd hg)
  rw [hdir]
  by_cases hgf : g = f
  · rw [hgf, eq_false hd]
    exact hs
  · rw [r.field h.blocks hf hd hg ⟨by rw [fSize]; omega, by simp only [fSize, sizeofFile]; omega⟩
      (.inl hgf)]
    exact h.sizes g hg

theorem Sized.refl (h : Sized P m) : KeepsSized P m m := ⟨h, fun _ => id⟩

section Ops

variable (h : Sized P m) (hf : Reach m f)

include h hf

theorem read_sized (hr : ReadSized m f offset) : (fileRead f count offset).wp True
    (fun _ m' => KeepsSized P m m') (fun _ m' => KeepsSized P m m') m := by
  by_cases hd : isDir m f
  · obtain ⟨hfull, hpos⟩ := hr hd
    refine (fileRead_still h.blocks hf hpos hfull).mono id ?_ ?_ <;>
    · rintro _ m' rfl
      exact h.refl
  · have hk {m' : Memory} (r : Reads {g | Reach m g} m f m') : KeepsSized P m m' := by
      refine r.regular.sized h hf hd ?_
      rw [r.grown.size_eq r.owned hf fun _ _ => id, ← eq_false hd]
      exact h.sizes f hf
    exact (fileRead_reads h.blocks.owned (h.blocks.apart hf hd) hf).mono id (fun _ _ => hk)
      fun _ _ => hk

theorem setSize_sized (hs : SetSized P m f size) : (fileSetSize f size).wp False
    (fun _ _ => False) (fun _ m' => KeepsSized P m m' ∧ Regular m f m') m := by
  refine ((setSize_regular h.blocks hf hs.1).and
    (fileSetSize_wp h.blocks.owned hf (h.blocks.apart hf hs.1))).mono And.left (fun _ _ => And.left) ?_
  rintro _ m' ⟨⟨r, -⟩, -, -, hsize, -⟩
  refine ⟨r.sized h hf hs.1 ?_, r⟩
  rw [hsize]
  exact hs.2

theorem write_sized (hw : WriteSized P m f count offset) : (fileWrite f buf count offset).wp True
    (fun _ m' => KeepsSized P m m') (fun _ m' => KeepsSized P m m') m := by
  obtain ⟨hd, hs, hsize⟩ := hw
  have hap := h.blocks.apart hf hd
  have hset : (if m.load32 (fSize f) < offset + count then fileSetSize f (offset + count)
      else pure () : FsProg Unit).wp False (fun _ _ => False)
      (fun _ m' => (Regular m f m' ∧ ∀ x, ¬Own m f x → m' x = m x) ∧
        P False (m'.load32 (fSize f))) m := by
    rw [Prog.wp_ite]
    refine ⟨fun hlt => ?_, fun _ => ⟨⟨.refl h.blocks hf hd, fun _ _ => rfl⟩, ?_⟩⟩
    · refine ((setSize_regular h.blocks hf hd).and (fileSetSize_wp h.blocks.owned hf hap)).mono
        And.left (fun _ _ => And.left) ?_
      rintro _ m' ⟨r, -, -, hm, -⟩
      rw [hm]
      exact ⟨r, hsize hlt⟩
    · rw [← eq_false hd]
      exact h.sizes f hf
  have hk {m₁ m' : Memory} (h₁ : (Regular m f m₁ ∧ ∀ x, ¬Own m f x → m₁ x = m x) ∧
      P False (m₁.load32 (fSize f))) (w : Writes {g | Reach m g} (Data m' f) m₁ f m') :
      KeepsSized P m m' := by
    refine (h₁.1.1.writes h₁.1.2 w fun _ => id).sized h hf hd ?_
    rw [w.size_eq hf fun _ => id]
    exact h₁.2
  rw [Prog.wp, fileWrite_eq]
  show Prog.wp _ True _ _ m
  rw [Prog.wp_bind]
  refine hset.mono (fun _ => trivial) (fun _ _ h => h.elim) fun _ m₁ h₁ => ?_
  rw [Prog.wp_bind]
  exact (writeLoop_writes h₁.1.1.owned h₁.1.1.apart hf hs).mono id (fun _ _ => hk h₁)
    fun _ _ => hk h₁

end Ops

section Codes

-- No function below `file_create` returns `-E_FILE_EXISTS`.

theorem diskaddr_code {b : Word} : (diskaddr b).wp True (fun _ _ => False) (fun _ _ => True) m := by
  rw [diskaddr, Prog.wp_bind, Prog.wp_get, Prog.wp_ite]
  exact ⟨fun _ => trivial, fun _ => trivial⟩

theorem allocBlock_code : allocBlock.wp True (fun _ _ => False) (fun _ _ => True) m := by
  rw [allocBlock, Prog.wp_bind, Prog.wp_get]
  split
  case h_1 => trivial
  case h_2 => trivial

theorem getBlock_code : (fileGetBlock f k).wp True (fun e _ => e ≠ E_FILE_EXISTS)
    (fun _ _ => True) m := by
  have hwalk : (fileBlockWalk f k true).wp True (fun e _ => e ≠ E_FILE_EXISTS)
      (fun _ _ => True) m := by
    have hind {m : Memory} : (allocIndirect f).wp True (fun e _ => e ≠ E_FILE_EXISTS)
        (fun _ _ => True) m := by
      rw [allocIndirect, Prog.wp_bind]
      refine allocBlock_code.mono id (fun _ _ => False.elim) fun _ m _ => ?_
      rw [Prog.wp_ite]
      refine ⟨fun _ => (by decide : E_NO_DISK ≠ E_FILE_EXISTS), fun _ => ?_⟩
      simp only [Prog.wp_bind, Prog.wp_modify]
      exact diskaddr_code.mono id (fun _ _ => False.elim) fun _ _ _ => trivial
    rw [fileBlockWalk, Prog.wp_ite]
    refine ⟨fun _ => (by decide : E_INVAL ≠ E_FILE_EXISTS), fun _ => ?_⟩
    rw [Prog.wp_ite]
    refine ⟨fun _ => trivial, fun _ => ?_⟩
    have hend {m : Memory} : (do
        let m ← Prog.get
        let va ← diskaddr (m.load32 (fIndirect f))
        pure (va + 4 * (k - NDIRECT)) : FsProg Nat).wp True (fun e _ => e ≠ E_FILE_EXISTS)
          (fun _ _ => True) m := by
      simp only [Prog.wp_bind, Prog.wp_get]
      exact diskaddr_code.mono id (fun _ _ => False.elim) fun _ _ _ => trivial
    simp only [if_true]
    rw [Prog.wp_bind, Prog.wp_get]
    split
    · rw [Prog.wp_bind]
      exact hind.mono id (fun _ _ => id) fun _ _ _ => hend
    · exact hend
  rw [fileGetBlock, Prog.wp_bind]
  refine hwalk.mono id (fun _ _ => id) fun ref m _ => ?_
  have hend {m : Memory} : (do
      let m ← Prog.get
      diskaddr (m.load32 ref) : FsProg Nat).wp True (fun e _ => e ≠ E_FILE_EXISTS)
        (fun _ _ => True) m := by
    rw [Prog.wp_bind, Prog.wp_get]
    exact diskaddr_code.mono id (fun _ _ => False.elim) fun _ _ _ => trivial
  rw [Prog.wp_bind, Prog.wp_get]
  split
  · rw [Prog.wp_bind]
    exact allocBlock_code.mono id (fun _ _ => False.elim) fun _ _ _ => hend
  · exact hend

theorem dirScan_code {p : Memory → Nat → Bool} {ks : List Nat} :
    (dirScan p d ks).wp True (fun e _ => e ≠ E_FILE_EXISTS) (fun _ _ => True) m := by
  induction ks generalizing m
  case nil => trivial
  case cons k ks hi =>
    rw [dirScan, Prog.wp_bind]
    refine getBlock_code.mono id (fun _ _ => id) fun blk m _ => ?_
    rw [Prog.wp_bind, Prog.wp_get]
    split
    · trivial
    · exact hi

theorem dirAllocFile_code : (dirAllocFile d).wp True (fun e _ => e ≠ E_FILE_EXISTS)
    (fun _ _ => True) m := by
  rw [dirAllocFile, Prog.wp_bind]
  refine dirBlocks_wp.mono id (fun _ _ => False.elim) fun n m _ => ?_
  rw [Prog.wp_bind]
  refine dirScan_code.mono id (fun _ _ => id) fun r m _ => ?_
  cases r
  case some => trivial
  case none => exact getBlock_code

theorem flushBlocks_code {ks : List Nat} : (flushBlocks f ks).wp True (fun _ _ => False)
    (fun _ _ => True) m := by
  induction ks generalizing m
  case nil => trivial
  case cons k ks hi =>
    rw [flushBlocks, Prog.wp_bind, Prog.wp_attempt]
    refine Prog.wp_of_forall (fun _ _ => hi) fun ref m => ?_
    simp only [Prog.wp_bind, Prog.wp_get]
    split
    · rw [Prog.wp_bind]
      exact diskaddr_code.mono id (fun _ _ => id) fun _ _ _ => hi
    · exact hi

theorem fileFlush_code : (fileFlush f).wp True (fun _ _ => False) (fun _ _ => True) m := by
  rw [fileFlush, Prog.wp_bind, Prog.wp_get, Prog.wp_bind]
  refine flushBlocks_code.mono id (fun _ _ => id) fun _ m _ => ?_
  rw [Prog.wp_bind, Prog.wp_get]
  split
  · rw [Prog.wp_bind]
    exact diskaddr_code.mono id (fun _ _ => id) fun _ _ _ => trivial
  · trivial

theorem fileCreate_exists (h : BlockInv m) (hfull : DirsFull m) : (fileCreate path).wp True
    (fun e m' => e = E_FILE_EXISTS → m' = m) (fun _ _ => True) m := by
  rw [fileCreate, Prog.wp_bind]
  refine (walkPath_wp h hfull .root fun _ => pathElems_mem).mono id (fun _ _ h _ => h) ?_
  rintro w m₀ ⟨rfl, -⟩
  cases w
  case found => exact fun _ => rfl
  case missing d name =>
    show (createIn d name).wp _ _ _ _
    rw [createIn, Prog.wp_bind]
    refine dirAllocFile_code.mono id (fun _ _ h he => absurd he h) fun f m₁ _ => ?_
    rw [Prog.wp_bind, Prog.wp_modify, Prog.wp_bind]
    exact fileFlush_code.mono id (fun _ _ => False.elim) fun _ _ _ => trivial

end Codes

section Create

theorem CreateSized.clean (h : CreateSized P m path) : CreateClean m path :=
  ⟨h.1, fun d name hp => ⟨fun s hs => ((h.2 d name hp).1 s hs).noPtrs, (h.2 d name hp).2.1⟩⟩

theorem GrownDir.sized (r : GrownDir m d m') (h : Sized P m) (hd : Reach m d) (hdir : isDir m d)
    (hs : P True (m.load32 (fSize d)) → P True (m.load32 (fSize d) + 4096#32)) :
    KeepsSized P m m' := by
  refine ⟨⟨r.blockInv hd, fun g hg => ?_⟩, fun _ => (r.reach_iff hd).mpr⟩
  have hg := (r.reach_iff hd).mp hg
  rw [propext (r.isDir_iff hd hg)]
  by_cases hgd : g = d
  · subst hgd
    have hg := h.sizes g hg
    rw [eq_true hdir] at hg
    rw [r.word, eq_true hdir]
    exact hs hg
  · rw [r.field hd hg ⟨by rw [fSize]; omega, by simp only [fSize, sizeofFile]; omega⟩ (.inl hgd)]
    exact h.sizes g hg

theorem Created.sized (c : Created m d name f m₁ m' k j)
    (hf : ∀ s, FirstEmpty m d s → BlankSlot m s) (h : Sized P m)
    (hs : Packed m d → P True (m.load32 (fSize d)) → P True (m.load32 (fSize d) + 4096#32))
    (h₀ : P False 0#32) :
    KeepsSized P m m' ∧ Reach m' f ∧ ¬isDir m' f := by
  have g := c.gains hf
  have hnp := c.noPtrs fun s hs => (hf s hs).noPtrs
  have hreg : ¬isDir m' f := by
    rw [isDir, g.type]
    decide
  have h₁ : Sizes P m₁ := by
    rcases c.old with ⟨rfl, -⟩ | ⟨hp, r, -⟩
    · exact h.sizes
    · exact (r.sized h c.dir ((r.isDir_iff c.dir c.dir).mp c.empty.isDir) (hs hp)).1.sizes
  refine ⟨⟨⟨c.blockInv hnp, fun a ha => ?_⟩, fun a ha => (c.reach_iff hnp).mpr (.inl ha)⟩,
    (c.reach_iff hnp).mpr (.inr rfl), hreg⟩
  rcases (c.reach_iff hnp).mp ha with ha | rfl
  · have ha₁ := (c.before.2 a).mpr ha
    have hs := h₁ a ha₁
    rw [c.result, c.eq, strcpy_size c.empty c.isName ha₁,
      propext (strcpy_isDir c.empty c.isName ha₁)]
    exact hs
  · rw [eq_false hreg, g.size]
    exact h₀

theorem create_sized (h : Sized P m) (hc : CreateSized P m path) (h₀ : P False 0#32) :
    (fileCreate path).wp True
      (fun e m' => KeepsSized P m m' ∧ (e = E_FILE_EXISTS → m' = m))
      (fun f m' => KeepsSized P m m' ∧ Reach m' f ∧ ¬isDir m' f ∧ DirsFull m') m := by
  refine ((fileCreate_wp h.blocks hc.clean).and (fileCreate_exists h.blocks hc.1)).mono
    (fun _ => trivial) ?_ ?_
  · rintro e m' ⟨rfl | ⟨d, name, hp, hd, hdir, hpk, r, -⟩, he⟩
    · exact ⟨h.refl, he⟩
    · exact ⟨r.sized h hd hdir ((hc.2 d name hp).2.2 hpk), he⟩
  · rintro f m' ⟨⟨d, name, m₁, k, j, hp, c⟩, -⟩
    have hcd := hc.2 d name hp
    obtain ⟨hk, hr, hreg⟩ := c.sized hcd.1 h hcd.2.2 h₀
    exact ⟨hk, hr, hreg, c.dirsFull hcd.1 hc.1⟩

end Create

end Fs

import Sisop.Fs.Theorems.SetSize

-- Requests that cannot be satisfied, on a full disk or past the largest file.

namespace Fs

open Inc Library

variable {m m' : Memory} {S : Set Nat} {f k n e : Nat} {count offset stop pos : Word}
  {buf : Nat → BitVec 8} {path : List (BitVec 8)}

-- The error that a run ends with.
def failure {α : Type} : Outcome Memory Nat α → Option (Nat × Memory)
  | .error e m => some (e, m)
  | _          => none

inductive Request
  | getBlock (f k : Nat)
  | write (f : Nat) (buf : Nat → BitVec 8) (count offset : Word)
  | create (path : List (BitVec 8))

def Request.failure (m : Memory) : Request → Option (Nat × Memory)
  | getBlock f k              => Fs.failure (fileGetBlock f k m)
  | write f buf count offset  => Fs.failure (fileWrite f buf count offset m)
  | create path               => Fs.failure (fileCreate path m)

-- The requests for a file that exists; what is written goes to a file that is not a directory.
def Request.Valid (m : Memory) : Request → Prop
  | getBlock f _             => Reach m f
  | write f _ count offset   => Reach m f ∧ ¬isDir m f ∧ offset.toNat + count.toNat < 2147483648
  | create _                 => True

def NoneFree (m : Memory) : Prop := ∀ b, blockIsFree m b = false

-- The request cannot be satisfied, for the reason that the code `e` stands for.
def Request.Lacks (m : Memory) : Request → Nat → Prop
  | getBlock f k, e             => INDIRECT ≤ k ∧ e = E_INVAL ∨
    k < INDIRECT ∧ ptr m f k = 0#32 ∧ NoneFree m ∧ e = E_NO_DISK
  | write f _ count offset, e   => 0#32 < count ∧
    (MAXFILESIZE < offset.toNat + count.toNat ∧ e = E_INVAL ∨
      (∃ k, offset.toNat / BLKSIZE ≤ k ∧ k < blocks (offset.toNat + count.toNat) ∧ k < INDIRECT ∧
        ptr m f k = 0#32) ∧ NoneFree m ∧ e = E_NO_DISK)
  | create path, e              => ∃ d name, lastOf m path = some (d, name) ∧ Packed m d ∧
    (nblock m d = INDIRECT ∧ e = E_INVAL ∨
      nblock m d < INDIRECT ∧ ptr m d (nblock m d) = 0#32 ∧ NoneFree m ∧ e = E_NO_DISK)

-- The sizes and the pointers of the files and the bitmap are the same.
structure Unchanged (m m' : Memory) : Prop where
  size : ∀ f, Reach m f → m'.load32 (fSize f) = m.load32 (fSize f)
  ptrs : ∀ f, Reach m f → ∀ k ≤ INDIRECT, ptr m' f k = ptr m f k
  free : ∀ c, blockIsFree m' c = blockIsFree m c

-- The request fails with the right code and leaves everything as it was.
def Request.Clean (m : Memory) (r : Request) : Prop :=
  ∃ e m', r.failure m = some (e, m') ∧ r.Lacks m e ∧ Unchanged m m'

-- Where the first block that is missing is the indirect one.
def InHole (m : Memory) (f p q : Nat) : Prop := ptr m f INDIRECT = 0#32 ∧
  ∀ k, p / BLKSIZE ≤ k → k < blocks q → k < NDIRECT → ptr m f k ≠ 0#32

-- Where requests fail as they should.
def Request.CleanWhen (m : Memory) : Request → Prop
  | getBlock f k           => INDIRECT ≤ k ∨ NDIRECT ≤ k ∧ ptr m f INDIRECT = 0#32
  | write f _ count offset => offset.toNat + count.toNat ≤ (m.load32 (fSize f)).toNat ∧
    InHole m f offset.toNat (offset.toNat + count.toNat)
  | create _               => False

theorem Unchanged.refl : Unchanged m m := ⟨fun _ _ => rfl, fun _ _ _ _ => rfl, fun _ => rfl⟩

theorem failure_eq_some {α : Type} {x : FsProg α} :
    failure (x m) = some (e, m') ↔ x m = .error e m' := by
  cases x m <;> simp [failure]

theorem exists_error {α : Type} {x : FsProg α} {E : Nat → Memory → Prop}
    (h : x.wp False E (fun _ _ => False) m) : ∃ e m', x m = .error e m' ∧ E e m' := by
  revert h
  simp only [Prog.wp]
  cases x m
  case panic      => exact False.elim
  case error e m' => exact fun h => ⟨e, m', rfl, h⟩
  case ok         => exact False.elim

section GetBlock

variable (o : Owned m S) (hf : f ∈ S)
include o hf

theorem getBlock_over (hk : INDIRECT ≤ k) : (fileGetBlock f k).wp False
    (fun e m' => m' = m ∧ e = E_INVAL) (fun _ _ => False) m := by
  refine (fileGetBlock_wp o hf).mono (fun h => absurd h.1 (Nat.not_lt.mpr hk)) ?_ fun _ _ h => ?_
  · rintro e m' ⟨rfl, ⟨he, _⟩ | ⟨_, _, hlt, _⟩⟩
    · exact ⟨rfl, he⟩
    · omega
  · exact absurd h.1.lt (Nat.not_lt.mpr hk)

-- Without a free block, only the missing indirect block is noticed.
theorem getBlock_none (hn : NoneFree m) (hk : k < INDIRECT) (h₀ : ptr m f k = 0#32) :
    (fileGetBlock f k).wp (¬(NDIRECT ≤ k ∧ ptr m f INDIRECT = 0#32))
      (fun e m' => m' = m ∧ e = E_NO_DISK ∧ NDIRECT ≤ k ∧ ptr m f INDIRECT = 0#32)
      (fun _ _ => False) m := by
  rw [fileGetBlock, Prog.wp_bind]
  refine (fileBlockWalk_wp o hf).mono False.elim ?_ ?_
  · rintro e m' ⟨rfl, ⟨_, hc⟩ | ⟨he, h₁, _, h₂, _⟩⟩
    · omega
    · exact ⟨rfl, he, h₁, h₂⟩
  rintro a m₁ ⟨_, hi, rfl, hs⟩
  have hm : m₁ = m := by
    refine hs.resolve_right ?_
    rintro ⟨_, _, b, hb⟩
    have := hb.free
    rw [hn b] at this
    cases this
  subst hm
  have hp : ¬(NDIRECT ≤ k ∧ ptr m₁ f INDIRECT = 0#32) := by
    rintro ⟨h₁, h₂⟩
    rcases hi with hi | hi
    · omega
    · exact hi.2.2 h₂
  simp only [Prog.wp_bind, Prog.wp_get, ← hi.ptr_eq]
  rw [if_pos h₀, Prog.wp_bind]
  refine allocBlock_wp.mono False.elim (fun _ _ h => h.elim) fun r m₂ h => ?_
  rw [Prog.wp_bind, Prog.wp_modify]
  rcases h with ⟨b, hb, _⟩ | ⟨rfl, rfl, _⟩
  · rw [hn b] at hb
    cases hb
  -- the negative code has been stored, and `diskaddr` does not take it for a block
  · rw [Prog.wp_bind, Prog.wp_get, Memory.load32_store32_self]
    refine diskaddr_wp (fun hc => ?_) fun _ => hp
    have hlt := hc.2
    rw [Memory.store32, sNblocks_write (ptrAddr_region o hf hi)] at hlt
    have := o.checked.nblocks_le
    have he : (err E_NO_DISK).toNat = 4294967287 := by decide
    omega

end GetBlock

section Write

variable (o : Owned m S) (ha : Apart m f S) (hf : f ∈ S)
include o ha hf

-- The loop comes to the first block that is missing; what it wrote before is data.
theorem writeLoop_none (hn : NoneFree m) (hpos : pos.toNat < 2147483648)
    (hfuel : stop.toNat - pos.toNat < n) (hlt : pos < stop)
    (hm : ∃ k, pos.toNat / BLKSIZE ≤ k ∧ k < blocks stop.toNat ∧ k < INDIRECT ∧ ptr m f k = 0#32) :
    (writeLoop f stop n buf pos).wp (¬InHole m f pos.toNat stop.toNat)
      (fun e _ => e = E_NO_DISK ∧ InHole m f pos.toNat stop.toNat) (fun _ _ => False) m := by
  induction n generalizing m pos buf
  case zero => omega
  case succ n hi =>
    obtain ⟨k, hk₁, hk₂, hkI, hk₀⟩ := hm
    have hlt' : pos.toNat < stop.toNat := hlt
    rw [writeLoop, Prog.wp_ite]
    refine ⟨fun _ => ?_, fun hc => absurd hlt hc⟩
    rw [Prog.wp_bind]
    by_cases h₀ : ptr m f (pos.toNat / BLKSIZE) = 0#32
    case pos =>
      rw [sdiv_toNat hpos]
      refine (getBlock_none o hf hn (by omega) h₀).mono (fun hc hh => ?_) ?_ fun _ _ h => h.elim
      · by_cases hd : NDIRECT ≤ pos.toNat / BLKSIZE
        · exact hc ⟨hd, hh.1⟩
        · exact hh.2 _ le_rfl (lt_blocks hlt') (Nat.not_le.mp hd) h₀
      · rintro e m' ⟨_, he, hd, hi₀⟩
        refine ⟨he, hi₀, fun j hj _ hjd => ?_⟩
        have hd : NDIRECT ≤ pos.toNat / BLKSIZE := hd
        omega
    case neg =>
      have hkne : k ≠ pos.toNat / BLKSIZE := fun hc => h₀ (hc ▸ hk₀)
      have hs := getBlock_still o hf (show pos.toNat / BLKSIZE < INDIRECT by omega) h₀
      have ht := getBlock_turn o hf hpos hlt
      rw [sdiv_toNat hpos] at ht ⊢
      refine (hs.and ht).mono (fun h => h.1.elim) (fun _ _ h => h.1.elim) ?_
      rintro blk m₁ ⟨⟨rfl, _⟩, _, hblk⟩
      have hc := chunk_next (show pos.toNat / BLKSIZE < INDIRECT by omega) hlt
      have hlen := chunkLen_toNat hpos hlt
      simp only [Prog.wp_bind, Prog.wp_get, Prog.wp_modify, hblk]
      obtain ⟨w, hp, hfree, _⟩ := writes_chunk buf o ha hf
        (show pos.toNat / BLKSIZE < INDIRECT by omega) h₀ hc.2.1
      have hnext : (pos + chunkLen stop pos).toNat = (pos.toNat / BLKSIZE + 1) * BLKSIZE := by
        rw [hc.2.2.2.1, hlen]
        simp only [blocks, BLKSIZE] at *
        omega
      have hdiv : (pos + chunkLen stop pos).toNat / BLKSIZE = pos.toNat / BLKSIZE + 1 := by
        rw [hnext, Nat.mul_div_cancel _ (by decide)]
      have hND : NDIRECT ≤ INDIRECT := by decide
      have hhole : InHole (m₁.write (byteAddr m₁ f pos.toNat) (chunkLen stop pos).toNat buf) f
          (pos + chunkLen stop pos).toNat stop.toNat ↔ InHole m₁ f pos.toNat stop.toNat := by
        rw [InHole, InHole, hp INDIRECT le_rfl, hdiv]
        refine and_congr_right fun _ => ⟨fun h j h₁ h₂ h₃ => ?_, fun h j h₁ h₂ h₃ => ?_⟩
        · by_cases hj : j = pos.toNat / BLKSIZE
          · exact hj ▸ h₀
          · rw [← hp j (h₃.le.trans hND)]
            exact h j (by omega) h₂ h₃
        · rw [hp j (h₃.le.trans hND)]
          exact h j (by omega) h₂ h₃
      rw [← hhole]
      refine (hi w.owned w.apart (fun b => (hfree b).trans (hn b)) hc.2.2.2.2 (by omega) ?_ ?_).mono id
        (fun _ _ h => h) fun _ _ h => h.elim
      · rw [BitVec.lt_def, hnext]
        simp only [blocks, BLKSIZE] at *
        omega
      · refine ⟨k, ?_, hk₂, hkI, ?_⟩
        · rw [hdiv]
          omega
        · rw [hp k hkI.le]
          exact hk₀

end Write

section Requests

variable (h : BlockInv m) (hs : ∀ f, Reach m f → (m.load32 (fSize f)).toNat ≤ MAXFILESIZE)
include h

theorem getBlock_clean (hf : Reach m f) (hl : ∃ e, (Request.getBlock f k).Lacks m e) :
    (Request.getBlock f k).Clean m ↔ (Request.getBlock f k).CleanWhen m := by
  by_cases hk : INDIRECT ≤ k
  case pos =>
    refine iff_of_true ?_ (.inl hk)
    obtain ⟨e, m', hx, rfl, he⟩ := exists_error (getBlock_over h.owned hf hk)
    exact ⟨e, m', failure_eq_some.mpr hx, .inl ⟨hk, he⟩, .refl⟩
  case neg =>
    obtain ⟨_, hl⟩ := hl
    obtain ⟨hlt, h₀, hn, _⟩ := hl.resolve_left fun hc => hk hc.1
    have hw := getBlock_none h.owned hf hn hlt h₀
    constructor
    case mp =>
      rintro ⟨e, m', hx, _⟩
      exact .inr (hw.error (failure_eq_some.mp hx)).2.2
    case mpr =>
      intro hc
      have hc := hc.resolve_left hk
      obtain ⟨e, m', hx, rfl, he, _⟩ := exists_error (hw.mono (fun hp => hp hc) (fun _ _ h => h)
        fun _ _ h => h)
      exact ⟨e, m', failure_eq_some.mpr hx, .inr ⟨hlt, h₀, hn, he⟩, .refl⟩

-- On a full disk, a transfer changes data only.
theorem Writes.unchanged {X : Nat → Prop} (w : Writes {f | Reach m f} X m f m') (hf : Reach m f)
    (hd : ¬isDir m f) (hn : NoneFree m) (hX : ∀ x, X x → Data m' f x) : Unchanged m m' := by
  have hp : ∀ g, Reach m g → ∀ k ≤ INDIRECT, ptr m' g k = ptr m g k := by
    intro g hg k hk
    rcases w.grown.ptrs g hg k hk with he | ⟨rfl, h₀⟩
    · exact he
    · by_contra hne
      have hb := w.grown.fresh k hk h₀ fun hc => hne (hc.trans h₀.symm)
      rw [hn] at hb
      cases hb
  refine ⟨fun g hg => ?_, hp, fun c => ?_⟩
  · by_cases hgf : g = f
    · rw [hgf]
      exact w.size_eq hf hX
    · have hr : Regular m f m' := {
        owned   := w.owned
        apart   := w.apart
        nblocks := w.grown.nblocks
        ptrs    := fun g hg _ k hk => hp g hg k hk
        bytes   := fun x _ hx => w.grown.bytes x (fun hc => hx (.inr (.inr hc)))
          fun hc => hx (.inl (hX x hc)) }
      refine hr.field h hf hd hg ?_ (.inl hgf)
      simp only [fSize, sizeofFile]
      omega
  · rw [hn c, ← Bool.not_eq_true]
    exact fun hc => absurd (w.grown.free c hc) (by rw [hn c]; decide)

include hs

theorem write_clean (hv : (Request.write f buf count offset).Valid m)
    (hl : ∃ e, (Request.write f buf count offset).Lacks m e) :
    (Request.write f buf count offset).Clean m ↔
      (Request.write f buf count offset).CleanWhen m := by
  obtain ⟨hf, hd, hov⟩ := hv
  have hst : (offset + count).toNat = offset.toNat + count.toNat := by
    rw [BitVec.toNat_add]
    omega
  have hfuel : (offset + count).toNat - offset.toNat < fuel (offset + count) offset := by
    rw [fuel, BitVec.toNat_sub]
    omega
  have hM : MAXFILESIZE = 1034 * 4096 := by decide
  have hsf := hs f hf
  have ha := h.apart hf hd
  have hfail : (Request.write f buf count offset).failure m =
      failure (fileWrite f buf count offset m) := rfl
  by_cases hx : m.load32 (fSize f) < offset + count
  case pos =>
    -- the size has been set before the loop fails
    refine iff_of_false ?_ ?_
    · rintro ⟨e, m', he, _, hu⟩
      rw [hfail, failure_eq_some, fileWrite_eq, if_pos hx] at he
      have hslt : ¬(offset + count).slt (m.load32 (fSize f)) := by
        rw [BitVec.slt_eq_decide, decide_eq_true_iff, BitVec.toInt_eq_toNat_cond,
          BitVec.toInt_eq_toNat_cond]
        rw [BitVec.lt_def] at hx
        omega
      have hw : (fileSetSize f (offset + count) >>= fun _ =>
          writeLoop f (offset + count) (fuel (offset + count) offset) buf offset >>=
            fun cs => pure (count, cs) : FsProg (Word × List Chunk)).wp True
          (fun _ m' => m'.load32 (fSize f) = offset + count) (fun _ _ => True) m := by
        rw [Prog.wp_bind, fileSetSize, Prog.wp_bind, Prog.wp_get, if_neg hslt]
        rw [Prog.wp_modify, Prog.wp_bind]
        refine (writeLoop_wp (store_size h.owned hf).1 (apart_store_size h.owned hf ha) hf (by omega)
          hfuel).mono (fun _ => trivial) ?_ fun _ _ _ => trivial
        rintro e m₁ ⟨w, _⟩
        rw [w.size_eq hf fun _ => id, Memory.load32_store32_self]
      have := hu.size f hf
      rw [hw.error he] at this
      rw [this] at hx
      exact absurd hx (BitVec.lt_irrefl _)
    · rintro ⟨hle, _⟩
      rw [BitVec.lt_def, hst] at hx
      omega
  case neg =>
    have hle : offset.toNat + count.toNat ≤ (m.load32 (fSize f)).toNat := by
      rw [BitVec.lt_def, hst] at hx
      omega
    obtain ⟨_, hc, hl⟩ := hl
    obtain ⟨hm, hn, _⟩ := hl.resolve_left fun hc => by omega
    have hlt : offset < offset + count := by
      rw [BitVec.lt_def] at hc ⊢
      rw [hst]
      have : (0#32).toNat = 0 := rfl
      omega
    have hw : (fileWrite f buf count offset).wp
        (¬InHole m f offset.toNat (offset.toNat + count.toNat))
        (fun e m' => (e = E_NO_DISK ∧ InHole m f offset.toNat (offset.toNat + count.toNat)) ∧
          Writes {f | Reach m f} (Data m' f) m f m') (fun _ _ => False) m := by
      rw [Prog.wp, fileWrite_eq, ← Prog.wp, if_neg hx, Prog.wp_bind, Prog.wp_pure, Prog.wp_bind]
      rw [← hst] at hm ⊢
      refine ((writeLoop_none h.owned ha hf hn (by omega) hfuel hlt hm).and
        (writeLoop_wp h.owned ha hf (by omega) hfuel)).mono And.left
        (fun _ _ h => ⟨h.1, h.2.1⟩) fun _ _ h => h.1.elim
    constructor
    case mp =>
      rintro ⟨e, m', he, _⟩
      exact ⟨hle, (hw.error (failure_eq_some.mp he)).1.2⟩
    case mpr =>
      rintro ⟨_, hh⟩
      obtain ⟨e, m', he, ⟨hd', _⟩, w⟩ := exists_error (hw.mono (fun hp => hp hh) (fun _ _ h => h)
        fun _ _ h => h)
      exact ⟨e, m', failure_eq_some.mpr he, ⟨hc, .inr ⟨hm, hn, hd'⟩⟩,
        w.unchanged h hf hd hn fun _ => id⟩

omit h hs in
theorem add_block_ne {v : Word} : v + 4096#32 ≠ v := fun hc => by
  have hv := congrArg BitVec.toNat hc
  rw [BitVec.toNat_add, BitVec.toNat_ofNat] at hv
  omega

omit hs in
-- The directory has been made larger before it turns out that there is no block.
theorem create_unclean (hfull : DirsFull m) (hl : ∃ e, (Request.create path).Lacks m e) :
    ¬(Request.create path).Clean m := by
  obtain ⟨_, d, name, hlast, hpk, hl⟩ := hl
  obtain ⟨m₀, hw⟩ : ∃ m₀, walkPath sRoot (pathElems path) m = .ok (.missing d name) m₀ := by
    rw [lastOf] at hlast
    split at hlast
    case h_1 d' name' m₀ hw =>
      cases hlast
      exact ⟨m₀, hw⟩
    case h_2 => cases hlast
  obtain ⟨rfl, _, hm⟩ := (walkPath_wp h hfull .root fun _ => pathElems_mem).ok hw
  obtain ⟨hd, hdir, _⟩ := hm d name rfl
  have hg := grownSize_owned h hd
  have hcr : fileCreate path m₀ = createIn d name m₀ := by
    rw [fileCreate]
    simp only [bind, hw]
    rfl
  have hle : nblock m₀ d ≤ INDIRECT := by
    by_contra hc
    exact Nat.lt_irrefl _ (hpk INDIRECT (by omega)).1
  have hblk : (fileGetBlock d (nblock m₀ d)).wp True
      (fun _ m' => m' = grownSize m₀ d) (fun _ _ => False) (grownSize m₀ d) := by
    rcases hl with ⟨hk, _⟩ | ⟨hlt, h₀, hn, _⟩
    · exact (getBlock_over hg.1 hd hk.ge).mono (fun _ => trivial) (fun _ _ h => h.1) fun _ _ h => h
    · refine (getBlock_none hg.1 hd (fun b => (hg.2.2.1 b).trans (hn b)) hlt ?_).mono
        (fun _ => trivial) (fun _ _ h => h.1) fun _ _ h => h
      rw [hg.2.1 d hd _ hlt.le]
      exact h₀
  have hall : (createIn d name).wp True (fun _ m' => m' = grownSize m₀ d) (fun _ _ => True) m₀ := by
    rw [createIn, Prog.wp_bind, dirAllocFile, Prog.wp_bind]
    refine dirBlocks_wp.mono id (fun _ _ h => h.elim) ?_
    rintro c m₁ ⟨rfl, rfl, _⟩
    rw [List.range_eq_range', Prog.wp_bind]
    refine (dirScan_wp h.owned hd fun k _ hk => hfull d hd hdir k (by omega)).mono False.elim ?_ ?_
    · rintro e m₂ ⟨_, _, hlt, _⟩
      omega
    · rintro r m₂ ⟨rfl, h₁, -⟩
      cases r
      case some f =>
        obtain ⟨k, j, _, hk, _, hj, rfl, hp, _⟩ := h₁ f rfl
        exact absurd (by simpa using hp) ((hpk k (by omega)).2 j hj)
      case none =>
        simp only [Prog.wp_bind, Prog.wp_modify]
        exact hblk.mono id (fun _ _ h => h) fun _ _ h => h.elim
  rintro ⟨e, m', he, _, hu⟩
  have he : fileCreate path m₀ = .error e m' := failure_eq_some.mp he
  rw [hcr] at he
  have hsz := hu.size d hd
  rw [hall.error he, grownSize, Memory.load32_store32_self] at hsz
  exact add_block_ne hsz

-- A request that cannot be satisfied fails as it should where it finds that out before it changes
-- anything, and by a code that it looks at.
theorem requests_fail_clean {r : Request} (hfull : DirsFull m) (hv : r.Valid m)
    (hl : ∃ e, r.Lacks m e) : r.Clean m ↔ r.CleanWhen m := by
  cases r
  case getBlock f k               => exact getBlock_clean h hv hl
  case write f buf count offset   => exact write_clean h hs hv hl
  case create path                => exact iff_of_false (create_unclean h hfull hl) id

end Requests

namespace Sample

theorem sizes_disk (hf : Reach disk f) : (disk.load32 (fSize f)).toNat ≤ MAXFILESIZE := by
  rcases reach_disk hf with rfl | rfl <;> decide

end Sample

-- The block after the last one of the largest file.
theorem requests_fail_clean_fileA :
    (Request.getBlock Sample.fileA INDIRECT).Clean Sample.disk ↔
      (Request.getBlock Sample.fileA INDIRECT).CleanWhen Sample.disk :=
  requests_fail_clean Sample.blockInv_disk (fun _ => Sample.sizes_disk) Sample.dirsFull_disk
    Sample.reach_fileA ⟨E_INVAL, .inl ⟨le_rfl, rfl⟩⟩

-- A byte is written behind the largest file.
theorem not_requests_fail_clean : ¬∀ {m r}, BlockInv m →
    (∀ f, Reach m f → (m.load32 (fSize f)).toNat ≤ MAXFILESIZE) → DirsFull m → Request.Valid m r →
    (∃ e, r.Lacks m e) → r.Clean m := by
  intro h
  have hv : (Request.write Sample.fileA (fun _ => 0) 1#32 (BitVec.ofNat 32 MAXFILESIZE)).Valid
      Sample.disk := ⟨Sample.reach_fileA, Sample.not_isDir_fileA, by decide⟩
  have hl : ∃ e, (Request.write Sample.fileA (fun _ => 0) 1#32 (BitVec.ofNat 32 MAXFILESIZE)).Lacks
      Sample.disk e := ⟨E_INVAL, by decide, .inl ⟨by decide, rfl⟩⟩
  have hs (f : Nat) (hf : Reach Sample.disk f) := Sample.sizes_disk hf
  have hc := (write_clean Sample.blockInv_disk hs hv hl).mp
    (h Sample.blockInv_disk hs Sample.dirsFull_disk hv hl)
  exact absurd hc.1 (by decide)

end Fs

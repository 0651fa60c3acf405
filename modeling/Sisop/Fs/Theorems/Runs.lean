import Sisop.Fs.Theorems.Grow
import Sisop.Library.Run

namespace Fs

open Inc Library

-- What `file_create` has done where it succeeds: the slot is empty in `m₁`, which is `m` or has a
-- larger directory, and then it gets its name.
structure Created (m : Memory) (d : Nat) (name : List (BitVec 8)) (f : Nat) (m₁ m' : Memory)
    (k j : Nat) : Prop where
  dir    : Reach m d
  absent : Absent m d name
  isName : Name name
  empty  : EmptySlot m₁ d k j
  eq     : f = slot m₁ d k j
  old    : m₁ = m ∧ FirstEmpty m d f ∨ Packed m d ∧ GrownDir m d m₁ ∧ k = nblock m d ∧ j = 0 ∧
    ZeroBlock m₁ (ptr m₁ d k).toNat
  result : m' = m₁.strcpy f name

-- The slot in which `file_create` puts a new file holds no old pointers.
def CreateClean (m : Memory) (path : List (BitVec 8)) : Prop :=
  DirsFull m ∧ ∀ d name, Parent m sRoot (pathElems path) d name →
    (∀ s, FirstEmpty m d s → NoPtrs m s) ∧ GrowClean m d

variable {m m' m₁ : Memory} {S : Set Nat} {f d g k j n : Nat} {path name : List (BitVec 8)}
  {pos stop count offset : Word}

theorem NoPtrs.of_zeroBlock (hz : ZeroBlock m (ptr m d k).toNat) (hj : j < BLKFILES) :
    NoPtrs m (slot m d k j) := by
  intro x h₁ h₂
  have := slot_mem (m := m) (d := d) (k := k) hj
  refine hz x ?_
  simp only [InBlock, fDirect, fIndirect, sizeofFile] at *
  omega

namespace Created

variable (c : Created m d name f m₁ m' k j)

include c

theorem before : BlockInv m₁ ∧ ∀ g, Reach m₁ g ↔ Reach m g := by
  refine ⟨c.empty.inv, fun g => ?_⟩
  rcases c.old with ⟨rfl, -⟩ | ⟨-, r, -⟩
  · exact Iff.rfl
  · exact r.reach_iff c.dir

theorem noPtrs (hf : ∀ s, FirstEmpty m d s → NoPtrs m s) : NoPtrs m₁ f := by
  rcases c.old with ⟨rfl, he⟩ | ⟨-, -, rfl, rfl, hz⟩
  · exact hf f he
  · rw [c.eq]
    exact .of_zeroBlock hz c.empty.lt

theorem blockInv (hf : NoPtrs m₁ f) : BlockInv m' := by
  rw [c.result, c.eq]
  exact strcpy_blockInv c.empty c.isName (c.eq ▸ hf)

theorem reach_iff (hf : NoPtrs m₁ f) : Reach m' g ↔ Reach m g ∨ g = f := by
  have he := c.eq
  rw [c.result, ← c.before.2, he]
  exact strcpy_reach c.empty c.isName (he ▸ hf)

end Created

-- The part of `file_create` after `walk_path`.
def createIn (d : Nat) (name : List (BitVec 8)) : FsProg Nat := do
  let f ← dirAllocFile d
  Prog.modify fun m => m.strcpy f name
  fileFlush d
  pure f

theorem createIn_wp (h : BlockInv m) (hd : Reach m d) (hdir : isDir m d) (hfull : Full m d)
    (ha : Absent m d name) (hn : Name name) (hs : ∀ s, FirstEmpty m d s → NoPtrs m s)
    (hc : GrowClean m d) : (createIn d name).wp True
      (fun _ m' => m' = m ∨ Packed m d ∧ GrownDir m d m' ∧
        (nblock m d < INDIRECT → ¬Room m d (nblock m d)))
      (fun f m' => ∃ m₁ k j, Created m d name f m₁ m' k j) m := by
  rw [createIn, Prog.wp_bind]
  refine (dirAllocFile_wp h hd hdir hfull hc).mono id (fun _ _ h => h) ?_
  rintro f m₁ ⟨k, j, e, rfl, hold⟩
  have hcr : Created m d name (slot m₁ d k j) m₁ (m₁.strcpy (slot m₁ d k j) name) k j :=
    ⟨hd, ha, hn, e, rfl, hold, rfl⟩
  have hnp := hcr.noPtrs hs
  have hr : Reach (m₁.strcpy (slot m₁ d k j) name) d := (hcr.reach_iff hnp).mpr (.inl hd)
  rw [Prog.wp_bind, Prog.wp_modify, Prog.wp_bind]
  refine (fileFlush_wp (hcr.blockInv hnp).owned hr).mono id (fun _ _ h => h.elim) ?_
  rintro _ m₂ rfl
  exact ⟨m₁, k, j, hcr⟩

theorem fileCreate_wp (h : BlockInv m) (hc : CreateClean m path) :
    (fileCreate path).wp True
      (fun _ m' => m' = m ∨ ∃ d name, Parent m sRoot (pathElems path) d name ∧ Reach m d ∧
        isDir m d ∧ Packed m d ∧ GrownDir m d m' ∧ (nblock m d < INDIRECT → ¬Room m d (nblock m d)))
      (fun f m' => ∃ d name m₁ k j, Parent m sRoot (pathElems path) d name ∧
        Created m d name f m₁ m' k j) m := by
  rw [fileCreate, Prog.wp_bind]
  refine (walkPath_wp h hc.1 .root fun _ => pathElems_mem).mono id (fun _ _ h => .inl h) ?_
  rintro w m₀ ⟨rfl, -, hw⟩
  cases w
  case found => exact .inl rfl
  case missing d name =>
    obtain ⟨hd, hdir, hp, ha, hn⟩ := hw d name rfl
    have hcd := hc.2 d name hp
    refine (createIn_wp h hd hdir (hc.1 d hd hdir) ha hn hcd.1 hcd.2).mono id ?_ ?_
    · rintro _ m₁ (rfl | r)
      · exact .inl rfl
      · exact .inr ⟨d, name, hp, hd, hdir, r⟩
    · rintro f m' ⟨m₁, k, j, hcr⟩
      exact ⟨d, name, m₁, k, j, hp, hcr⟩

-- A file without holes.
def HoleFree (m : Memory) (f : Nat) : Prop :=
  ∀ k < blocks (m.load32 (fSize f)).toNat, k < INDIRECT → ptr m f k ≠ 0#32

theorem readLoop_still (o : Owned m S) (hf : f ∈ S) (hpos : pos.toNat < 2147483648)
    (hfull : ∀ k < blocks stop.toNat, k < INDIRECT → ptr m f k ≠ 0#32) :
    (readLoop f stop n pos).wp True (fun _ m' => m' = m) (fun _ m' => m' = m) m := by
  induction n generalizing pos
  case zero => trivial
  case succ n hi =>
    rw [readLoop, Prog.wp_ite]
    refine ⟨fun hlt => ?_, fun _ => rfl⟩
    rw [Prog.wp_bind]
    refine (getBlock_turn o hf hpos hlt).mono (fun _ => trivial) (fun _ _ h => h.1) ?_
    rintro blk m₁ ⟨g, -⟩
    have he := g.still (hfull _ (lt_blocks hlt) g.lt)
    subst he
    have hc := chunk_next g.lt hlt
    rw [Prog.wp_bind, Prog.wp_get, Prog.wp_bind]
    exact hi hc.2.2.2.2

theorem fileRead_still (h : BlockInv m) (hf : Reach m f) (hpos : offset.toNat < 2147483648)
    (hfull : HoleFree m f) :
    (fileRead f count offset).wp True (fun _ m' => m' = m) (fun _ m' => m' = m) m := by
  rw [fileRead, Prog.wp_bind, Prog.wp_get, Prog.wp_ite]
  refine ⟨fun _ => rfl, fun hs => ?_⟩
  rw [Prog.wp_bind]
  refine readLoop_still h.owned hf hpos fun k hk => hfull k (lt_of_lt_of_le hk ?_)
  have hle : offset.slt (m.load32 (fSize f)) := by
    rw [BitVec.sle_eq_not_slt] at hs
    simpa using hs
  rw [BitVec.slt_eq_decide, decide_eq_true_iff, BitVec.toInt_eq_toNat_cond,
    BitVec.toInt_eq_toNat_cond] at hle
  have hstop : (offset + umin count (m.load32 (fSize f) - offset)).toNat ≤
      (m.load32 (fSize f)).toNat := by
    rw [BitVec.toNat_add, umin_toNat, BitVec.toNat_sub]
    have := (m.load32 (fSize f)).isLt
    omega
  exact Nat.div_le_div_right (by omega)

-- The requests of clients, with the files that `file_open` or `file_create` gave for them.
inductive Call
  | create (path : List (BitVec 8))
  | openFile (path : List (BitVec 8))
  | read (f : Nat) (count offset : Word)
  | write (f : Nat) (buf : Nat → BitVec 8) (count offset : Word)
  | setSize (f : Nat) (size : Word)
  | flush (f : Nat)

structure Server where
  mem : Memory
  files : List Nat

namespace Call

def prog : Call → FsProg (List Nat)
  | .create path              => do return [← fileCreate path]
  | .openFile path            => do return [← fileOpen path]
  | .read f count offset      => do
    let _ ← fileRead f count offset
    return []
  | .write f buf count offset => do
    let _ ← fileWrite f buf count offset
    return []
  | .setSize f size           => do
    fileSetSize f size
    return []
  | .flush f                  => do
    fileFlush f
    return []

-- The file of a request is one of those given before; offsets and sizes are at most `MAXFILESIZE`.
def Valid (files : List Nat) : Call → Prop
  | .create _           => True
  | .openFile _         => True
  | .read f _ offset    => f ∈ files ∧ offset.toNat ≤ MAXFILESIZE
  | .write f _ _ offset => f ∈ files ∧ offset.toNat ≤ MAXFILESIZE
  | .setSize f size     => f ∈ files ∧ size.toNat ≤ MAXFILESIZE
  | .flush f            => f ∈ files

-- No request takes old data for a `struct File`: files are created in clean slots, directories are not
-- written or truncated, and have no holes where they are read or searched.
def Clean (m : Memory) : Call → Prop
  | .create path   => CreateClean m path
  | .openFile _    => DirsFull m
  | .read f _ _    => isDir m f → HoleFree m f
  | .write f _ _ _ => ¬isDir m f
  | .setSize f _   => ¬isDir m f
  | .flush _       => True

end Call

-- One request; the server answers it with a result or with an error.
def Server.Step (s : Server) (c : Call) (s' : Server) : Prop :=
  c.Valid s.files ∧ ((∃ e, c.prog s.mem = .error e s'.mem ∧ s'.files = s.files) ∨
    ∃ fs, c.prog s.mem = .ok fs s'.mem ∧ s'.files = fs ++ s.files)

structure Server.Inv (s : Server) : Prop where
  blocks : BlockInv s.mem
  files  : ∀ f ∈ s.files, Reach s.mem f

-- What a request does to the files that can be reached: none is lost.
def Keeps (m : Memory) (fs : List Nat) (m' : Memory) : Prop :=
  BlockInv m' ∧ (∀ g, Reach m g → Reach m' g) ∧ ∀ g ∈ fs, Reach m' g

theorem Regular.keeps (r : Regular m f m') (h : BlockInv m) (hf : Reach m f) (hd : ¬isDir m f) :
    Keeps m [] m' :=
  ⟨r.blockInv h hf hd, fun _ hg => (r.reach_iff h hf hd).mpr hg, fun _ hg => by cases hg⟩

theorem BlockInv.keeps (h : BlockInv m) : Keeps m [] m := ⟨h, fun _ => id, fun _ hg => by cases hg⟩

theorem GrownDir.keeps (r : GrownDir m d m') (hd : Reach m d) : Keeps m [] m' :=
  ⟨r.blockInv hd, fun _ => (r.reach_iff hd).mpr, fun _ hg => by cases hg⟩

theorem prog_keeps {s : Server} {c : Call} (h : s.Inv) (hv : c.Valid s.files) (hc : c.Clean s.mem) :
    c.prog.wp True (fun _ m' => Keeps s.mem [] m') (fun fs m' => Keeps s.mem fs m') s.mem := by
  have hpos {v : Word} (hv : v.toNat ≤ MAXFILESIZE) : v.toNat < 2147483648 := by
    have hM : MAXFILESIZE = 1034 * 4096 := by decide
    omega
  cases c <;> rw [Call.prog, Prog.wp_bind]
  case create path =>
    refine (fileCreate_wp h.blocks hc).mono id ?_ ?_
    · rintro _ m' (rfl | ⟨d, name, -, hd, -, -, r, -⟩)
      · exact h.blocks.keeps
      · exact r.keeps hd
    · rintro f m' ⟨d, name, m₁, k, j, hp, c⟩
      have hnp := c.noPtrs (hc.2 d name hp).1
      refine ⟨c.blockInv hnp, fun g hg => (c.reach_iff hnp).mpr (.inl hg), fun g hg => ?_⟩
      rw [List.mem_singleton] at hg
      exact (c.reach_iff hnp).mpr (.inr hg)
  case openFile path =>
    refine (fileOpen_wp h.blocks hc).mono id ?_ ?_
    · rintro _ m' rfl
      exact h.blocks.keeps
    · rintro f m' ⟨rfl, hf⟩
      refine ⟨h.blocks, fun _ => id, fun g hg => ?_⟩
      rw [List.mem_singleton] at hg
      exact hg ▸ hf
  case read f count offset =>
    have hf := h.files f hv.1
    by_cases hd : isDir s.mem f
    · refine (fileRead_still h.blocks hf (hpos hv.2) (hc hd)).mono id ?_ ?_ <;>
      · rintro _ m' rfl
        exact h.blocks.keeps
    · exact (read_regular h.blocks hf hd (hpos hv.2)).mono id
        (fun _ _ r => r.keeps h.blocks hf hd) fun _ _ r => r.keeps h.blocks hf hd
  case write f buf count offset =>
    have hf := h.files f hv.1
    exact (write_regular h.blocks hf hc (hpos hv.2)).mono id
      (fun _ _ r => r.keeps h.blocks hf hc) fun _ _ r => r.keeps h.blocks hf hc
  case setSize f size =>
    have hf := h.files f hv.1
    exact (setSize_regular h.blocks hf hc).mono (fun _ => trivial) (fun _ _ h => h.elim)
      fun _ _ r => r.1.keeps h.blocks hf hc
  case flush f =>
    refine (fileFlush_wp h.blocks.owned (h.files f hv)).mono id (fun _ _ h => h.elim) ?_
    rintro _ m' rfl
    exact h.blocks.keeps

theorem Server.Inv.step {s s' : Server} {c : Call} (h : s.Inv) (hc : c.Clean s.mem)
    (hs : s.Step c s') : s'.Inv := by
  have hk := prog_keeps h hs.1 hc
  rcases hs.2 with ⟨e, hx, hfs⟩ | ⟨fs, hx, hfs⟩
  · have hk := hk.error hx
    exact ⟨hk.1, fun f hf => hk.2.1 f (h.files f (hfs ▸ hf))⟩
  · have hk := hk.ok hx
    refine ⟨hk.1, fun f hf => ?_⟩
    rw [hfs, List.mem_append] at hf
    exact hf.elim (hk.2.2 f) fun hf => hk.2.1 f (h.files f hf)

end Fs

import Sisop.Fs.Theorems.Contents
import Sisop.Fs.Theorems.Requests
import Sisop.Fs.Sample
import Sisop.Lib.File

namespace Fs.Client

open Inc Library Function

variable {m m' : Memory} {s s' : Serv} {f g k o o' x : Nat} {n r : Word} {data : List (BitVec 8)}
  {buf : Nat → BitVec 8}

-- A descriptor of the client is open for the file `f`, at the position `x`.
structure Open (s : Serv) (o f x : Nat) : Prop where
  found  : s.tab.openfileLookup (s.oFd o).fdFileId = some o
  file   : s.oFile o = f
  offset : (s.oFd o).fdOffset.toNat = x

-- A request moves the position of its descriptor by the reply. The disk is left out.
structure Moved (o : Nat) (r : Word) (s s' : Serv) : Prop where
  tab   : s'.tab = s.tab
  oFile : s'.oFile = s.oFile
  oFd   : s'.oFd = update s.oFd o { s.oFd o with fdOffset := (s.oFd o).fdOffset + r }

-- A regular file on the disk, without holes, with the contents `data`.
structure Holds (m : Memory) (f : Nat) (data : List (BitVec 8)) : Prop where
  inv      : BlockInv m
  reach    : Reach m f
  notDir   : ¬isDir m f
  whole    : Whole m f
  contents : Contents m f data

theorem setField_wp {P : Prop} {E : Nat → Serv → Prop} {Q : Unit → Serv → Prop} {v : Word} :
    (setField k v).wp P E Q s ↔ Q () { s with fsreq := s.fsreq.store32 k v } := Iff.rfl

theorem Holds.size (h : Holds m f data) : (m.load32 (fSize f)).toNat = data.length := h.contents.1

theorem Holds.length (h : Holds m f data) : data.length ≤ MAXFILESIZE := h.size ▸ h.whole.2

-- What `file_read` gives, without a change of the disk.
theorem Holds.fileRead (h : Holds m f data) {count offset : Word} (hoff : offset.toNat < 2147483648) :
    ∃ cs, fileRead f count offset m = .ok (BitVec.ofNat 32 (cs.flatMap Chunk.bytes).length, cs) m ∧
      cs.flatMap Chunk.bytes = (data.drop offset.toNat).take count.toNat := by
  obtain ⟨bytes, hr, hl, hb⟩ := h.contents.2 count offset hoff
  have hstill : (Fs.fileRead f count offset).wp True _ _ m := fileRead_still h.inv h.reach hoff h.whole.1
  simp only [Prog.wp] at hstill
  cases hx : Fs.fileRead f count offset m
  case panic => rw [hx] at hr; cases hr
  case error e m' => rw [hx] at hr; cases hr
  case ok a m' =>
    obtain ⟨r, cs⟩ := a
    rw [hx] at hr hstill
    subst hstill
    have hr : (r, cs.flatMap Chunk.bytes) = (BitVec.ofNat 32 bytes.length, bytes) := Option.some.inj hr
    rw [Prod.mk.injEq] at hr
    obtain ⟨rfl, rfl⟩ := hr
    refine ⟨cs, rfl, List.ext_getElem? fun i => ?_⟩
    rw [List.getElem?_take, List.getElem?_drop]
    by_cases hi : i < (cs.flatMap Chunk.bytes).length
    case pos =>
      rw [if_pos (by omega)]
      have hd : offset.toNat + i < data.length := by omega
      rw [List.getElem?_eq_getElem hd]
      exact hb i hi _ (List.getElem?_eq_getElem hd)
    case neg =>
      rw [List.getElem?_eq_none (by omega)]
      split
      · exact (List.getElem?_eq_none (by omega)).symm
      · rfl

theorem lookupOpen_open (ho : s.tab.openfileLookup n = some o) {P : Prop} {E : Nat → Serv → Prop}
    {Q : Nat → Serv → Prop} : (lookupOpen n).wp P E Q s ↔ Q o s := by
  rw [lookupOpen, Prog.wp_bind, Prog.wp_get, ho]
  rfl

theorem toNat_length {bytes : List (BitVec 8)} (h : bytes.length ≤ 4096) :
    (BitVec.ofNat 32 bytes.length).toNat = bytes.length ∧
      negative (BitVec.ofNat 32 bytes.length) = false := by
  have hr : (BitVec.ofNat 32 bytes.length).toNat = bytes.length := by
    rw [BitVec.toNat_ofNat]
    omega
  refine ⟨hr, ?_⟩
  rw [Bool.eq_false_iff, ne_eq, negative_iff, hr]
  omega

-- The server puts the bytes at the start of the page.
theorem serveRead_spec (ho : s.tab.openfileLookup (s.fsreq.load32 0) = some o) (hf : s.oFile o = f)
    (h : Holds s.mem f data) (hx : (s.oFd o).fdOffset.toNat < 2147483648) {bytes : List (BitVec 8)}
    (hb : bytes = (data.drop (s.oFd o).fdOffset.toNat).take (min (s.fsreq.load32 4).toNat 4096)) :
    serveRead.wp False (fun _ _ => False) (fun r s' => r = BitVec.ofNat 32 bytes.length ∧ Moved o r s s' ∧
      s'.mem = s.mem ∧ ∀ i < bytes.length, s'.fsreq i = bytes.getD i 0) s := by
  obtain ⟨cs, hr, hcs⟩ : ∃ cs, Fs.fileRead f (umin (s.fsreq.load32 4) 4096#32) _ _ = .ok _ _ ∧ _ :=
    h.fileRead hx
  have hn : (umin (s.fsreq.load32 4) 4096#32).toNat = min (s.fsreq.load32 4).toNat 4096 := umin_toNat
  rw [hn, ← hb] at hcs
  rw [hcs] at hr
  have hlen : bytes.length ≤ 4096 := by
    rw [hb, List.length_take]
    omega
  rw [serveRead, Prog.wp_bind, wp_reqField, Prog.wp_bind,
    lookupOpen_open (s := { s with touched := (0, 4) :: s.touched }) ho]
  simp only [Prog.wp_bind, wp_reqField, Prog.wp_get, wp_touch, wp_onDisk, hf]
  rw [Prog.wp, hr]
  simp only [Prog.wp_modify, hcs, (toNat_length hlen).2, Bool.false_eq_true, if_false, Prog.wp_bind, advance,
    Prog.wp_pure]
  refine ⟨trivial, ⟨rfl, rfl, rfl⟩, trivial, fun i hi => ?_⟩
  exact Memory.write_of_mem (Nat.zero_le i) (by omega)

-- A read of the client gives the next bytes, as many as fit into a page.
theorem devfileRead_spec (ho : Open s o f x) (h : Holds s.mem f data) (hx : x < 2147483648) :
    (devfileRead o n).wp False (fun _ _ => False) (fun a s' =>
      a.2 = (data.drop x).take (min n.toNat 4096) ∧ a.1 = BitVec.ofNat 32 a.2.length ∧
      Moved o a.1 s s' ∧ s'.mem = s.mem) s := by
  have hid : ((s.fsreq.store32 0 (s.oFd o).fdFileId).store32 4 n).load32 0 = (s.oFd o).fdFileId := by
    rw [Memory.load32_store32 (by omega), Memory.load32_store32_self]
  have hn : ((s.fsreq.store32 0 (s.oFd o).fdFileId).store32 4 n).load32 4 = n := Memory.load32_store32_self
  rw [devfileRead, Prog.wp_bind, Prog.wp_get, Prog.wp_bind, setField_wp, Prog.wp_bind, setField_wp,
    Prog.wp_bind, fsipc, Prog.wp_bind, Prog.wp_attempt, handler, Prog.wp_bind]
  generalize hb : (data.drop x).take (min n.toNat 4096) = bytes
  have hlen : bytes.length ≤ min n.toNat 4096 := by
    rw [← hb, List.length_take]
    omega
  obtain ⟨hl, hneg⟩ := toNat_length (show bytes.length ≤ 4096 by omega)
  have hb' : bytes = (data.drop (s.oFd o).fdOffset.toNat).take (min
      (((s.fsreq.store32 0 (s.oFd o).fdFileId).store32 4 n).load32 4).toNat 4096) := by
    rw [hn, ho.offset, hb]
  have hfound : s.tab.openfileLookup (((s.fsreq.store32 0 (s.oFd o).fdFileId).store32 4 n).load32 0) =
      some o := by
    rw [hid]
    exact ho.found
  have hspec := serveRead_spec (s := { s with fsreq := (s.fsreq.store32 0 (s.oFd o).fdFileId).store32 4 n })
    hfound ho.file h (ho.offset ▸ hx) hb'
  refine hspec.mono id (fun _ _ => False.elim) fun r s' hs => ?_
  obtain ⟨rfl, hmoved, hmem, hbytes⟩ := hs
  have hle : BitVec.ofNat 32 bytes.length ≤ n ∧ BitVec.ofNat 32 bytes.length ≤ 4096#32 := by
    rw [BitVec.le_def, BitVec.le_def, hl, BitVec.toNat_ofNat]
    omega
  simp only [Prog.wp_pure, hneg, Bool.false_eq_true, if_false, if_pos hle, Prog.wp_bind, Prog.wp_get, hl]
  have hmap : ((List.range bytes.length).map fun i => s'.fsreq i) = bytes := by
    refine List.ext_getElem (by simp) fun i h₁ h₂ => ?_
    rw [List.getElem_map, List.getElem_range, hbytes i h₂, List.getD_eq_getElem _ _ h₂]
  rw [hmap]
  exact ⟨rfl, rfl, ⟨hmoved.tab, hmoved.oFile, hmoved.oFd⟩, hmem⟩

section Write

variable {d : List (BitVec 8)} {offset count : Word} {hi : Nat}

-- A file has the contents that it has.
theorem contents_unique {a b : List (BitVec 8)} (h : Contents m f a) (h' : Contents m f b) : a = b := by
  have hl : a.length = b.length := h.1.symm.trans h'.1
  obtain ⟨bytes, hr, hn, hb⟩ := h.2 (m.load32 (fSize f)) 0#32 (by decide)
  obtain ⟨bytes', hr', hn', hb'⟩ := h'.2 (m.load32 (fSize f)) 0#32 (by decide)
  rw [hr, Option.some.injEq, Prod.mk.injEq] at hr'
  obtain ⟨-, rfl⟩ := hr'
  have h₀ : (0#32).toNat = 0 := rfl
  rw [h.1, h₀, Nat.sub_zero, Nat.min_self] at hn
  refine List.ext_getElem hl fun i hi hi' => ?_
  have ha : a[(0#32).toNat + i]? = some a[i] := by rw [h₀, Nat.zero_add, List.getElem?_eq_getElem hi]
  have hb₁ : b[(0#32).toNat + i]? = some b[i] := by rw [h₀, Nat.zero_add, List.getElem?_eq_getElem hi']
  have h₁ := hb i (by omega) a[i] ha
  have h₂ := hb' i (by omega) b[i] hb₁
  exact Option.some.inj (h₁.symm.trans h₂)

-- The blocks that a write needs are still there for what comes after it.
theorem fileWrite_room {S : Set Nat} (o : Owned m S) (ha : Apart m f S) (hf : f ∈ S)
    (hs : (m.load32 (fSize f)).toNat ≤ MAXFILESIZE) (hstop : offset.toNat + count.toNat ≤ MAXFILESIZE)
    (hlo : blocks (max (m.load32 (fSize f)).toNat (offset.toNat + count.toNat)) ≤ hi) (hI : hi ≤ INDIRECT)
    (he : Enough m f 0 hi) :
    (fileWrite f buf count offset).wp False (fun _ _ => False) (fun _ m' => Enough m' f 0 hi) m := by
  have hM : MAXFILESIZE = 1034 * 4096 := by decide
  have hst : (offset + count).toNat = offset.toNat + count.toNat := by
    rw [BitVec.toNat_add]
    omega
  rw [Prog.wp, fileWrite_eq, ← Prog.wp, Prog.wp_bind]
  refine (resize_wp o ha hf hs (hst ▸ hstop)).mono id (fun _ _ h => h) fun _ m₁ r => ?_
  have he₁ : Enough m₁ f 0 hi := (enough_congr r.nblocks r.free r.ptrs hI).mpr he
  have hmax : max (m.load32 (fSize f)).toNat (offset.toNat + count.toNat) ≤ MAXFILESIZE := by omega
  have hns : ¬Short m₁ f offset.toNat (offset + count).toNat :=
    not_short (he₁.mono_right hlo) hmax (hst ▸ le_max_right _ _)
  rw [Prog.wp_bind]
  refine (writeLoop_wp r.owned r.apart hf (by omega) ?_).mono hns (fun _ _ h => hns h.2) ?_
  · rw [fuel, BitVec.toNat_sub]
    omega
  rintro cs m' ⟨_, _, _, hen⟩
  refine hen 0 hi (Nat.zero_le _) ((Nat.div_le_div_right ?_).trans hlo) hI he₁
  rw [hst]
  omega

theorem Holds.regular (h : Holds m f data) (r : Regular m g m') (hg : Reach m g) (hd : ¬isDir m g)
    (hfg : f ≠ g) : Holds m' f data := by
  obtain ⟨b, hb, hb'⟩ := r.contents h.inv hg hd h.reach h.notDir h.whole hfg
  obtain rfl := contents_unique h.contents hb
  have hsz : (m'.load32 (fSize f)).toNat = (m.load32 (fSize f)).toNat := hb'.1.trans hb.1.symm
  refine ⟨r.blockInv h.inv hg hd, (r.reach_iff h.inv hg hd).mpr h.reach,
    fun hx => h.notDir ((r.isDir_iff h.inv hg hd h.reach).mp hx), ⟨fun k hk hI => ?_, ?_⟩, hb'⟩
  · rw [hsz] at hk
    rw [r.ptrs f h.reach hfg k hI.le]
    exact h.whole.1 k hk hI
  · rw [hsz]
    exact h.whole.2

-- What a write at the end of a file does: it appends to the contents, and the blocks up to `hi` that the file
-- may still need are free as before.
structure Appended (g : Nat) (d bytes : List (BitVec 8)) (hi : Nat) (m m' : Memory) : Prop where
  holds  : Holds m' g (d ++ bytes)
  room   : Enough m' g 0 hi
  others : ∀ f data, f ≠ g → Holds m f data → Holds m' f data

theorem Holds.append (h : Holds m g d) (hoff : offset.toNat = d.length)
    (hstop : d.length + count.toNat ≤ MAXFILESIZE) (hlo : blocks (d.length + count.toNat) ≤ hi)
    (hI : hi ≤ INDIRECT) (he : Enough m g 0 hi) :
    ∃ cs m', fileWrite g buf count offset m = .ok (count, cs) m' ∧
      Appended g d ((List.range count.toNat).map buf) hi m m' := by
  have hM : MAXFILESIZE = 1034 * 4096 := by decide
  have ha := h.inv.apart h.reach h.notDir
  have hsize := h.size
  have hmax : max (m.load32 (fSize g)).toNat (offset.toNat + count.toNat) = d.length + count.toNat := by omega
  have hstop' : offset.toNat + count.toNat ≤ MAXFILESIZE := by omega
  have hroom : (fileWrite g buf count offset).wp False (fun _ _ => False) (fun _ m' => Enough m' g 0 hi) m :=
    fileWrite_room h.inv.owned ha h.reach h.whole.2 hstop' (hmax ▸ hlo) hI he
  have ht : (fileWrite g buf count offset).wp False (fun _ _ => False) (fun r m' => r.1 = count ∧
      Written {f | Reach m f} m g buf offset.toNat count.toNat m') m :=
    fileWrite_total h.inv.owned ha h.reach h.whole.2 hstop' (he.mono_right (hmax ▸ hlo))
  obtain ⟨⟨r, cs⟩, m', hx, hr, w⟩ := ht.exists_ok
  have hreg := (write_regular h.inv h.reach h.notDir (by omega)).ok hx
  have hr : r = count := hr
  subst hr
  have hsz : (m'.load32 (fSize g)).toNat = d.length + r.toNat := w.size.trans hmax
  have hd' : ¬isDir m' g := fun hd => h.notDir ((hreg.isDir_iff h.inv h.reach h.notDir h.reach).mp hd)
  refine ⟨cs, m', hx, ⟨hreg.blockInv h.inv h.reach h.notDir,
    (hreg.reach_iff h.inv h.reach h.notDir).mpr h.reach, hd', ⟨fun k hk hkI => ?_, ?_⟩, ?_⟩, hroom.ok hx,
    fun f data hfg hf => hf.regular hreg h.reach h.notDir hfg⟩
  · rw [hsz] at hk
    by_cases hold : k < blocks (m.load32 (fSize g)).toNat
    case pos =>
      have h₀ := h.whole.1 k hold hkI
      rw [w.ptrs k hkI.le h₀]
      exact h₀
    case neg =>
      -- The block starts behind the old contents.
      have hB : BLKSIZE = 4096 := rfl
      rw [blocks, hsize, hB] at hold
      rw [blocks, hB] at hk
      have hnew := (w.new (4096 * k - d.length) (by omega)).2.1
      rwa [hoff, show d.length + (4096 * k - d.length) = 4096 * k by omega, hB,
        Nat.mul_div_cancel_left k (by decide)] at hnew
  · omega
  · have hra := w.readsAs h.reach h.whole hstop'
    rw [hmax, contents_unique (contents_whole h.inv h.reach h.notDir h.whole) h.contents] at hra
    refine ⟨by simp [hsz], fun c off hc => ?_⟩
    obtain ⟨bytes, hrep, hlen, hb⟩ := hra.2 c off hc
    refine ⟨bytes, hrep, by simpa using hlen, fun i hi y hy => hb i hi y ?_⟩
    have hy : (d ++ (List.range r.toNat).map buf)[off.toNat + i]? = some y := hy
    rw [List.getElem?_append] at hy
    rw [stored, hoff]
    split
    case isTrue hin =>
      rw [if_neg (by omega), List.getElem?_map, List.getElem?_range (by omega), Option.map_some] at hy
      exact hy
    case isFalse hin =>
      by_cases hlt : off.toNat + i < d.length
      · rwa [if_pos hlt] at hy
      · rw [if_neg hlt, List.getElem?_eq_none (by simp; omega)] at hy
        cases hy

end Write

section Requests

variable {d bytes : List (BitVec 8)} {hi : Nat}

theorem serveWrite_spec (ho : s.tab.openfileLookup (s.fsreq.load32 0) = some o) (hf : s.oFile o = g)
    (hc : s.fsreq.load32 4 = n) (h : Holds s.mem g d) (hoff : (s.oFd o).fdOffset.toNat = d.length)
    (hstop : d.length + n.toNat ≤ MAXFILESIZE) (hlo : blocks (d.length + n.toNat) ≤ hi) (hI : hi ≤ INDIRECT)
    (he : Enough s.mem g 0 hi) (hb : (List.range n.toNat).map (fun i => reqByte s (8 + i)) = bytes) :
    serveWrite.wp False (fun _ _ => False) (fun r s' => r = n ∧ Moved o n s s' ∧
      Appended g d bytes hi s.mem s'.mem) s := by
  have hM : MAXFILESIZE = 1034 * 4096 := by decide
  obtain ⟨cs, m', hx, ha⟩ : ∃ cs m', fileWrite g (fun i => reqByte s (8 + i)) n _ _ = .ok (n, cs) m' ∧ _ :=
    h.append hoff hstop hlo hI he
  rw [hb] at ha
  have hneg : negative n = false := by
    rw [Bool.eq_false_iff, ne_eq, negative_iff]
    omega
  rw [serveWrite, Prog.wp_bind, wp_reqField, Prog.wp_bind,
    lookupOpen_open (s := { s with touched := (0, 4) :: s.touched }) ho]
  simp only [Prog.wp_bind, wp_reqField, Prog.wp_get, wp_touch, wp_onDisk, hf, hc]
  rw [Prog.wp]
  have hx' : fileWrite g (fun i => reqByte { s with touched := (4, 4) :: (0, 4) :: s.touched } (8 + i)) n
      (s.oFd o).fdOffset s.mem = .ok (n, cs) m' := hx
  rw [hx']
  simp only [Prog.wp_modify, hneg, Bool.false_eq_true, if_false, Prog.wp_bind, advance, Prog.wp_pure]
  exact ⟨trivial, ⟨rfl, rfl, rfl⟩, ha⟩

-- A write of the client at the end of the file.
theorem devfileWrite_spec (ho : Open s o g d.length) (h : Holds s.mem g d) (hn : n.toNat ≤ 4088)
    (hstop : d.length + n.toNat ≤ MAXFILESIZE) (hlo : blocks (d.length + n.toNat) ≤ hi) (hI : hi ≤ INDIRECT)
    (he : Enough s.mem g 0 hi) :
    (devfileWrite o buf n).wp False (fun _ _ => False) (fun r s' => r = n ∧ Moved o n s s' ∧
      Appended g d ((List.range n.toNat).map buf) hi s.mem s'.mem) s := by
  have hle : n ≤ 4088#32 := by
    rw [BitVec.le_def, BitVec.toNat_ofNat]
    omega
  have hneg : negative n = false := by
    rw [Bool.eq_false_iff, ne_eq, negative_iff]
    omega
  generalize hp : ((s.fsreq.store32 0 (s.oFd o).fdFileId).store32 4 n).write 8 n.toNat buf = page
  have hid : page.load32 0 = (s.oFd o).fdFileId := by
    rw [← hp, Memory.load32_write (by omega), Memory.load32_store32 (by omega), Memory.load32_store32_self]
  have hcount : page.load32 4 = n := by
    rw [← hp, Memory.load32_write (by omega), Memory.load32_store32_self]
  rw [devfileWrite, Prog.wp_bind, Prog.wp_get, Prog.wp_bind, setField_wp, Prog.wp_bind, setField_wp, if_pos hle,
    Prog.wp_bind, Prog.wp_modify, Prog.wp_bind, fsipc, Prog.wp_bind, Prog.wp_attempt, handler, Prog.wp_bind]
  have hfound : s.tab.openfileLookup (page.load32 0) = some o := by
    rw [hid]
    exact ho.found
  have hbytes : (List.range n.toNat).map (fun i => reqByte { s with fsreq := page } (8 + i)) =
      (List.range n.toNat).map buf := by
    refine List.map_congr_left fun i hi => ?_
    have hi := List.mem_range.mp hi
    rw [reqByte, if_pos (by rw [PGSIZE]; omega), ← hp]
    exact (Memory.write_of_mem (by omega) (by omega)).trans (congrArg buf (by omega))
  have hspec := serveWrite_spec (s := { s with fsreq := page }) hfound ho.file hcount h ho.offset hstop hlo hI
    he hbytes
  rw [← hp] at hspec
  refine hspec.mono id (fun _ _ => False.elim) fun r s' hs => ?_
  obtain ⟨rfl, hmoved, ha⟩ := hs
  simp only [Prog.wp_pure, hneg, Bool.false_eq_true, if_false]
  rw [if_pos (BitVec.le_refl r)]
  exact ⟨rfl, ⟨hmoved.tab, hmoved.oFile, hmoved.oFd⟩, ha⟩

-- The buffer of a write request is shorter than a page.
theorem devfileWrite_panics (hn : 4088 < n.toNat) : devfileWrite o buf n s = .panic := by
  have hgt : ¬n ≤ 4088#32 := by
    rw [BitVec.le_def, BitVec.toNat_ofNat]
    omega
  rw [devfileWrite]
  show (if n ≤ 4088#32 then _ else Prog.panic : ServProg Word) _ = _
  rw [if_neg hgt]
  rfl

end Requests

section Cat

variable {src dst : Nat} {size : Word} {Q : Word → Serv → Prop}

theorem Moved.open_self (h : Moved o r s s') (ho : Open s o f x) (hx : x + r.toNat < 2 ^ 32) :
    Open s' o f (x + r.toNat) := by
  refine ⟨?_, by rw [h.oFile, ho.file], ?_⟩
  · rw [h.tab, h.oFd, update_self]
    exact ho.found
  · rw [h.oFd, update_self, BitVec.toNat_add, ho.offset, Nat.mod_eq_of_lt hx]

theorem Moved.open_other (h : Moved o r s s') (hne : o' ≠ o) (ho : Open s o' f x) : Open s' o' f x := by
  refine ⟨?_, by rw [h.oFile, ho.file], ?_⟩
  · rw [h.tab, h.oFd, update_of_ne hne]
    exact ho.found
  · rw [h.oFd, update_of_ne hne, ho.offset]

theorem Moved.mode (h : Moved o r s s') : (s'.oFd o').fdOmode = (s.oFd o').fdOmode := by
  rw [h.oFd]
  by_cases hne : o' = o
  case pos => rw [hne, update_self]
  case neg => rw [update_of_ne hne]

-- The first `x` bytes of the file of `src` have been copied to that of `dst`, and there is enough space on the
-- disk for all of them.
structure Copying (src dst f g : Nat) (data : List (BitVec 8)) (x : Nat) (s : Serv) : Prop where
  opened : Open s src f x ∧ Open s dst g x
  ne     : src ≠ dst ∧ f ≠ g
  reads  : (s.oFd src).fdOmode &&& O_ACCMODE ≠ O_WRONLY
  writes : (s.oFd dst).fdOmode &&& O_ACCMODE ≠ O_RDONLY
  le     : x ≤ data.length
  source : Holds s.mem f data
  target : Holds s.mem g (data.take x)
  room   : Enough s.mem g 0 (blocks data.length)

-- The loop of `cat` ends without a panic, and the file of `dst` is that of `src`.
def Copies (src dst f g : Nat) (size : Word) (data : List (BitVec 8)) (s : Serv) : Prop :=
  (cat src dst size (data.length + 1)).wp False (fun _ _ => False)
    (fun b s' => b = true ∧ Contents s'.mem f data ∧ Contents s'.mem g data) s

theorem Copying.length (h : Copying src dst f g data x s) : data.length ≤ 1034 * 4096 := by
  have hM : MAXFILESIZE = 1034 * 4096 := by decide
  rw [← hM]
  exact h.source.length

-- A read of the next bytes.
theorem Copying.read (h : Copying src dst f g data x s) :
    (read src size).wp False (fun _ _ => False) (fun a s' =>
      a.2 = (data.drop x).take (min size.toNat 4096) ∧ a.1 = BitVec.ofNat 32 a.2.length ∧
      Moved src a.1 s s' ∧ s'.mem = s.mem) s := by
  have hl := h.length
  have hx := h.le
  rw [Client.read, Prog.wp_bind, Prog.wp_get, if_neg h.reads]
  exact devfileRead_spec h.opened.1 h.source (by omega)

-- One turn: bytes that are not too many are copied.
theorem Copying.turn (h : Copying src dst f g data x s) {bytes : List (BitVec 8)}
    (hb : bytes = (data.drop x).take (min size.toNat 4096)) (hlen : bytes.length ≤ 4088)
    (hm : Moved src (BitVec.ofNat 32 bytes.length) s s') (hmem : s'.mem = s.mem) :
    (write dst (bytes.getD · 0) (BitVec.ofNat 32 bytes.length)).wp False (fun _ _ => False)
      (fun r s'' => r = BitVec.ofNat 32 bytes.length ∧ Copying src dst f g data (x + bytes.length) s'') s' := by
  have hl := h.length
  have hM : MAXFILESIZE = 1034 * 4096 := by decide
  obtain ⟨hr, _⟩ := toNat_length (show bytes.length ≤ 4096 by omega)
  have hle : x + bytes.length ≤ data.length := by
    have hx := h.le
    rw [hb, List.length_take, List.length_drop]
    omega
  have htake : (data.take x).length = x := by
    rw [List.length_take]
    omega
  have hsrc := hm.open_self h.opened.1 (by omega)
  have hdst := hm.open_other h.ne.1.symm h.opened.2
  have hmap : (List.range bytes.length).map (bytes.getD · 0) = bytes := by
    refine List.ext_getElem (by simp) fun i h₁ h₂ => ?_
    rw [List.getElem_map, List.getElem_range, List.getD_eq_getElem _ _ h₂]
  have hcat : data.take x ++ bytes = data.take (x + bytes.length) := by
    rw [List.take_add]
    refine congrArg _ ?_
    rw [hb, List.take_eq_take_iff, List.length_take]
    omega
  have hblocks : blocks (x + bytes.length) ≤ blocks data.length := Nat.div_le_div_right (by omega)
  rw [Client.write, Prog.wp_bind, Prog.wp_get, if_neg (hm.mode ▸ h.writes)]
  have hspec : (devfileWrite dst (bytes.getD · 0) (BitVec.ofNat 32 bytes.length)).wp False _ _ s' :=
    devfileWrite_spec (g := g) (d := data.take x) (htake.symm ▸ hdst) (hmem ▸ h.target) (by omega) (by omega)
      (by rw [htake, hr]; exact hblocks) (blocks_le (by omega)) (hmem ▸ h.room)
  refine hspec.mono id (fun _ _ => False.elim) fun r s'' hs => ?_
  obtain ⟨rfl, hm', ha⟩ := hs
  rw [hr, hmap, hmem] at ha
  rw [hr] at hsrc
  have hd := hm'.open_self hdst (by omega)
  rw [hr] at hd
  refine ⟨rfl, ⟨hm'.open_other h.ne.1 hsrc, hd⟩, h.ne, ?_, ?_, hle, ?_, hcat ▸ ha.holds, ha.room⟩
  · rw [hm'.mode, hm.mode]
    exact h.reads
  · rw [hm'.mode, hm.mode]
    exact h.writes
  · exact ha.others f data h.ne.2 h.source

theorem slt_length {bytes : List (BitVec 8)} (h : bytes.length ≤ 4096) :
    (0#32).slt (BitVec.ofNat 32 bytes.length) ↔ 0 < bytes.length := by
  obtain ⟨hr, _⟩ := toNat_length h
  rw [BitVec.slt_eq_decide, decide_eq_true_iff, BitVec.toInt_eq_toNat_cond, BitVec.toInt_eq_toNat_cond, hr,
    BitVec.toNat_ofNat]
  omega

theorem Copying.loop (h : Copying src dst f g data x s) (hsize : 0 < size.toNat)
    (hlen : size.toNat ≤ 4088 ∨ data.length ≤ 4088) (hk : data.length - x < k) :
    (cat src dst size k).wp False (fun _ _ => False)
      (fun b s' => b = true ∧ Contents s'.mem f data ∧ Contents s'.mem g data) s := by
  induction k generalizing x s
  case zero => exact absurd hk (Nat.not_lt_zero _)
  case succ k hi =>
    have hle := h.le
    rw [cat, Prog.wp_bind]
    refine h.read.mono id (fun _ _ => False.elim) fun a s' hs => ?_
    obtain ⟨n, bytes⟩ := a
    simp only at hs
    obtain ⟨hb, rfl, hm, hmem⟩ := hs
    have hlb : bytes.length = min (min size.toNat 4096) (data.length - x) := by
      rw [hb, List.length_take, List.length_drop]
    rw [Prog.wp_ite, slt_length (by omega)]
    refine ⟨fun hpos => ?_, fun hpos => ?_⟩
    · rw [Prog.wp_bind]
      refine (h.turn hb (by omega) hm hmem).mono id (fun _ _ => False.elim) fun r s'' hs => ?_
      obtain ⟨rfl, hc⟩ := hs
      rw [if_neg (not_not.mpr rfl)]
      exact hi hc (by omega)
    · have hx : x = data.length := by omega
      rw [(toNat_length (by omega)).2, if_neg Bool.false_ne_true]
      have ht := h.target.contents
      rw [hx, List.take_length] at ht
      exact ⟨rfl, hmem.symm ▸ h.source.contents, hmem.symm ▸ ht⟩

theorem Copying.not_copies (h : Copying src dst f g data 0 s) (hs : 4088 < size.toNat)
    (hd : 4088 < data.length) : ¬Copies src dst f g size data s := by
  intro hc
  rw [Copies, cat, Prog.wp_bind] at hc
  obtain ⟨⟨n, bytes⟩, s', hx, hs'⟩ := h.read.exists_ok
  have hc := hc.ok hx
  simp only at hs' hc
  obtain ⟨hb, rfl, hm, _⟩ := hs'
  have hlb : bytes.length = min (min size.toNat 4096) data.length := by
    rw [hb, List.length_take, List.drop_zero]
  rw [Prog.wp_ite, slt_length (by omega)] at hc
  have hc := hc.1 (by omega)
  rw [Prog.wp_bind, Client.write, Prog.wp_bind, Prog.wp_get, if_neg (hm.mode ▸ h.writes), Prog.wp,
    devfileWrite_panics (by rw [(toNat_length (by omega)).1]; omega)] at hc
  exact hc

-- `cat` copies a file to an empty one exactly if it never reads more bytes than go into a write request.
theorem cat_copies_iff (h : Copying src dst f g data 0 s) (hsize : 0 < size.toNat) :
    Copies src dst f g size data s ↔ size.toNat ≤ 4088 ∨ data.length ≤ 4088 := by
  constructor
  · intro hc
    by_contra hlt
    exact h.not_copies (by omega) (by omega) hc
  · exact fun hlen => h.loop hsize hlen (by omega)

end Cat

section Sample

attribute [local irreducible] Copies

-- A disk like that of the sample: the file `/a` has 4096 bytes, and there is a second file `/b`, which is empty.
def pair : Memory := Sample.ofBytes
  [(4100, 8), (4104, 0x2F), (4233, 0x10), (4236, 1), (4240, 3), (8192, 0xE0),
    (12288, 0x61), (12417, 0x10), (12424, 4), (12544, 0x62)]

def fileB : Nat := 12544

theorem image_pair : Sample.Image pair [Sample.fileA, fileB] 1 where
  checked := ⟨by decide, by decide⟩
  root    := by
    rw [isDir]
    decide
  block   := by decide
  entries := by decide
  regular := List.forall_mem_cons.mpr ⟨by rw [isDir]; decide,
    List.forall_mem_singleton.mpr (by rw [isDir]; decide)⟩
  null    := by decide
  rootPtr := by decide
  filePtr := by decide
  valid   := by decide

theorem blockInv_pair : BlockInv pair := image_pair.blockInv

theorem holds_pair (hr : Reach pair g) (hd : ¬isDir pair g) (hw : Whole pair g) :
    Holds pair g (content pair g 0 (pair.load32 (fSize g)).toNat) :=
  ⟨blockInv_pair, hr, hd, hw, contents_whole blockInv_pair hr hd hw⟩

-- What is in `/a`.
def dataA : List (BitVec 8) := content pair Sample.fileA 0 (pair.load32 (fSize Sample.fileA)).toNat

theorem dataA_length : dataA.length = 4096 := by
  rw [dataA, content_length]
  decide

theorem holds_fileA : Holds pair Sample.fileA dataA := by
  have hr : Reach pair Sample.fileA := by
    have h := image_pair.reach_slot (j := 0) (by decide) (by decide)
    rwa [show slot pair sRoot 0 0 = Sample.fileA by decide] at h
  refine holds_pair hr (image_pair.regular _ (by decide)) ⟨fun k hk _ => ?_, by decide⟩
  have hb : blocks (pair.load32 (fSize Sample.fileA)).toNat = 1 := by decide
  rw [show k = 0 by omega]
  decide

theorem holds_fileB : Holds pair fileB [] := by
  have hr : Reach pair fileB := by
    have h := image_pair.reach_slot (j := 1) (by decide) (by decide)
    rwa [show slot pair sRoot 0 1 = fileB by decide] at h
  have hw : Whole pair fileB := by
    refine ⟨fun k hk _ => ?_, by decide⟩
    have hb : blocks (pair.load32 (fSize fileB)).toNat = 0 := by decide
    omega
  have h := holds_pair hr (image_pair.regular _ (by decide)) hw
  rwa [show content pair fileB 0 (pair.load32 (fSize fileB)).toNat = [] by decide] at h

-- The files `/a` and `/b` are open.
def opened : Serv where
  mem := pair
  tab := ⟨fun i => BitVec.ofNat 32 i, fun _ => true, fun i => if i < 2 then 1 else 0⟩
  oFile i := if i = 0 then Sample.fileA else fileB
  oMode _ := 2#32
  oFd i := ⟨0x66#32, 0#32, 2#32, BitVec.ofNat 32 i⟩
  fsreq _ := 0#8
  touched := []
  moved := []

theorem copying_opened : Copying 0 1 Sample.fileA fileB dataA 0 opened where
  opened := ⟨⟨by decide, rfl, rfl⟩, ⟨by decide, rfl, rfl⟩⟩
  ne     := ⟨by decide, by decide⟩
  reads  := by decide
  writes := by decide
  le     := Nat.zero_le _
  source := holds_fileA
  target := holds_fileB
  room   := by
    show Enough pair fileB 0 (blocks dataA.length)
    rw [dataA_length, Enough]
    decide

theorem cat_copies_iff_opened : Copies 0 1 Sample.fileA fileB 4088#32 dataA opened :=
  (cat_copies_iff copying_opened (by decide)).mpr (.inl (by decide))

-- With its buffer of 8192 bytes, `cat` panics at a file of one block.
theorem not_copies_opened : ¬Copies 0 1 Sample.fileA fileB 8192#32 dataA opened :=
  copying_opened.not_copies (by decide) (by rw [dataA_length]; decide)

end Sample

end Fs.Client

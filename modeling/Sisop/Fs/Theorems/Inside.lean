import Sisop.Fs.Theorems.Requests

namespace Fs

open Inc Library Function

-- The table is not searched in proofs.
attribute [local irreducible] OpenTab.openfileAlloc

namespace Serv

variable (s s' : Serv)

-- The entry whose page `o_fd` and whose file a request uses.
def entry : Fsreq → Option Nat
  | .other => none
  | .open  => s.tab.avail
  | .sync  => none
  | _      => s.file s.fsreq

-- The bytes of the disk that a request may change. An open has the files that are reached from the
-- root.
def Bytes (code : Fsreq) (a : Nat) : Prop :=
  match code with
  | .open => ∃ g, Reach s.mem g ∧ Own s.mem g a ∨ Reach s'.mem g ∧ Own s'.mem g a
  | _     => ∃ i, s.entry code = some i ∧ (Own s.mem (s.oFile i) a ∨ Own s'.mem (s.oFile i) a)

-- A request uses its page, the page `o_fd` of its file, and the bytes of the file.
structure Inside (code : Fsreq) : Prop where
  page    : ∀ r ∈ s'.touched, r.1 + r.2 ≤ PGSIZE
  written : ∀ x, s'.fsreq x ≠ s.fsreq x → ∃ r ∈ s'.touched, r.1 ≤ x ∧ x < r.1 + r.2
  fds     : ∀ j, s.entry code ≠ some j → s'.oFd j = s.oFd j
  moved   : ∀ c ∈ s'.moved, ∃ i, s.entry code = some i ∧ ∀ a, c.addr ≤ a → a < c.addr + c.len →
    Data s'.mem (s.oFile i) a ∨ s.oFile i ≤ a ∧ a < s.oFile i + sizeofFile
  changed : ∀ a, s'.mem a ≠ s.mem a → s.Bytes s' code a

-- The buffer of a write and the name for a stat fit into the page.
def PageFits : Fsreq → Prop
  | .write => ∀ i, s.entry .write = some i → (s.fsreq.load32 4).toNat ≤ PGSIZE - 8
  | .stat  => ∀ i, s.entry .stat = some i → strsize s.mem (s.oFile i) ≤ PGSIZE
  | _      => True

-- A name ends within its `struct File`, no transfer is at a position between `-BLKSIZE` and 0, and an
-- open gets no old data and truncates no directory.
def DiskFits : Fsreq → Prop
  | .open  => OpenSized (fun _ _ => True) s.mem (reqPath s.fsreq) (s.fsreq.load32 MAXPATHLEN)
  | .read  => ∀ i, s.entry .read = some i → (s.oFd i).fdOffset.toNat ≤ 4294963200
  | .write => ∀ i, s.entry .write = some i → (s.oFd i).fdOffset.toNat ≤ 4294963200
  | .stat  => ∀ i, s.entry .stat = some i → strsize s.mem (s.oFile i) ≤ sizeofFile
  | _      => True

end Serv

variable {P : SizeLaw} {m m' : Memory} {s s' : Serv} {f i o a : Nat} {count offset v : Word}
  {buf : Nat → BitVec 8} {noMem : Bool} {code : Fsreq}

-- The files that can be reached are sound, one by one.
theorem BlockInv.sound (h : BlockInv m) (hf : Reach m f) : Sound m f := by
  have o := h.owned
  have hm {g : Nat} (hg : g ∈ ({f} : Set Nat)) : Reach m g := by
    rw [hg]
    exact hf
  constructor
  case owned =>
    exact ⟨o.checked, fun hg => o.node (hm hg), fun hg => o.valid (hm hg),
      fun hg hg' => o.unique (hm hg) (hm hg'), fun hg hg' => o.indirect (hm hg) (hm hg')⟩
  case apart =>
    rintro _ rfl k hk h₀
    rcases Nat.lt_or_eq_of_le hk with hk | rfl
    · exact h.self_apart hf hk h₀
    · exact o.indirect hf hf h₀

section Transfers

variable (h : Sound m f) (hpos : offset.toNat ≤ 4294963200)

include h hpos

theorem read_moves : (fileRead f count offset).wp True
    (fun _ m' => ∀ a, m' a ≠ m a → Own m' f a)
    (fun r m' => (∀ a, m' a ≠ m a → Own m' f a) ∧ (r.2.map (·.len)).sum ≤ count.toNat ∧
      ∀ c ∈ r.2, ∀ a, c.addr ≤ a → a < c.addr + c.len → Data m' f a) m := by
  have hread {m' : Memory} (hr : Reads {f} m f m') : ∀ a, m' a ≠ m a → Own m' f a :=
    fun a ha => (hr.writes.changed (fun _ => id) ha).imp_right .inr
  have hnil : (∀ a, m a ≠ m a → Own m f a) ∧ ((([] : List Chunk).map (·.len)).sum ≤ count.toNat) ∧
      ∀ c ∈ ([] : List Chunk), ∀ a, c.addr ≤ a → a < c.addr + c.len → Data m f a :=
    ⟨fun _ ha => absurd rfl ha, Nat.zero_le _, fun _ hc => absurd hc List.not_mem_nil⟩
  rw [fileRead, Prog.wp_bind, Prog.wp_get, Prog.wp_ite]
  refine ⟨fun _ => hnil, fun hs => ?_⟩
  have hle : offset.slt (m.load32 (fSize f)) := by
    rw [BitVec.sle_eq_not_slt] at hs
    simpa using hs
  have hc : (umin count (m.load32 (fSize f) - offset)).toNat ≤ count.toNat := by
    rw [umin_toNat]
    exact Nat.min_le_left _ _
  by_cases hneg : 2147483648 ≤ offset.toNat
  · generalize umin count (m.load32 (fSize f) - offset) = c
    rw [Prog.wp_bind]
    by_cases hlt : offset < offset + c
    · rw [fuel_eq hlt]
      refine (readLoop_negative hneg h.owned hlt).mono (fun _ => trivial) ?_ fun _ _ hp => by omega
      · rintro _ _ ⟨-, rfl, -⟩ a ha
        exact absurd rfl ha
    · rw [fuel, readLoop, if_neg hlt]
      exact hnil
  · have hstop : (offset + umin count (m.load32 (fSize f) - offset)).toNat =
        offset.toNat + (umin count (m.load32 (fSize f) - offset)).toNat := by
      rw [BitVec.slt_eq_decide, decide_eq_true_iff, BitVec.toInt_eq_toNat_cond,
        BitVec.toInt_eq_toNat_cond] at hle
      rw [BitVec.toNat_add, umin_toNat, BitVec.toNat_sub]
      have := (m.load32 (fSize f)).isLt
      omega
    generalize umin count (m.load32 (fSize f) - offset) = c at hstop hc ⊢
    rw [Prog.wp_bind]
    refine (readLoop_wp h.owned h.apart rfl (by omega) ?_).mono (fun _ => trivial)
      (fun _ _ h => hread h.1) ?_
    · rw [fuel, BitVec.toNat_sub]
      omega
    · rintro cs m' ⟨hr, hcov, -⟩
      refine ⟨hread hr, ?_, fun c hc a => hcov.data hc⟩
      rw [hcov.length]
      omega

theorem write_moves {buf : Nat → BitVec 8} : (fileWrite f buf count offset).wp True
    (fun _ m' => ∀ a, m' a ≠ m a → Own m f a ∨ Own m' f a)
    (fun r m' => (∀ a, m' a ≠ m a → Own m f a ∨ Own m' f a) ∧
      ∀ c ∈ r.2, ∀ a, c.addr ≤ a → a < c.addr + c.len → Data m' f a) m := by
  by_cases hneg : 2147483648 ≤ offset.toNat
  · rw [Prog.wp, fileWrite_eq]
    show Prog.wp _ True _ _ m
    rw [Prog.wp_bind]
    refine (setSize_own h).mono (fun _ => trivial) (fun _ _ h => h.elim) ?_
    rintro _ m₁ ⟨h₁, hown⟩
    rw [Prog.wp_bind]
    by_cases hlt : offset < offset + count
    · rw [fuel_eq hlt]
      refine (writeLoop_negative hneg h₁.owned hlt).mono (fun _ => trivial) ?_ fun _ _ hp => by omega
      · rintro _ _ ⟨-, rfl, -⟩ a ha
        exact .inl (hown a ha)
    · rw [fuel, writeLoop, if_neg hlt]
      exact ⟨fun a ha => .inl (hown a ha), fun _ hc => absurd hc List.not_mem_nil⟩
  · have hw : Confined m f offset (fileWrite f buf count offset m) := write_confined h (by omega)
    refine Prog.wp_eq.mono id (fun e m' hx => ?_) fun r m' hx => ⟨?_, ?_⟩
    · exact hw.changed (by rw [hx]; rfl)
    · exact hw.changed (by rw [hx]; rfl)
    · exact hw.copied hx

end Transfers

section Open

-- All bytes that change belong to a directory.
def InDir (m m' : Memory) : Prop :=
  ∀ a, m' a ≠ m a → ∃ d, Reach m' d ∧ isDir m' d ∧ Own m' d a

theorem Own.congr (h : Own m f a) (hp : ∀ k ≤ INDIRECT, ptr m' f k = ptr m f k)
    (hn : sNblocks m' = sNblocks m) : Own m' f a := by
  rcases h with ⟨k, hk, h₀, hx⟩ | h | hb | h | ⟨h₀, hx⟩
  · rw [← hp k hk.le] at h₀ hx
    exact .inl ⟨k, hk, h₀, hx⟩
  · exact .inr (.inl h)
  · rw [← bitmapEnd_congr hn] at hb
    exact .inr (.inr (.inl hb))
  · exact .inr (.inr (.inr (.inl h)))
  · rw [← hp INDIRECT le_rfl] at h₀ hx
    exact .inr (.inr (.inr (.inr ⟨h₀, hx⟩)))

theorem GrownDir.inDir {d : Nat} (r : GrownDir m d m') (hd : Reach m d) (hdir : isDir m d) :
    InDir m m' := by
  intro a ha
  refine ⟨d, (r.reach_iff hd).mpr hd, (r.isDir_iff hd hd).mpr hdir, .inr ?_⟩
  by_contra hc
  exact ha (r.bytes a hc)

theorem Created.inDir {d k j : Nat} {name : List (BitVec 8)} {m₁ : Memory}
    (c : Created m d name f m₁ m' k j) (hnp : NoPtrs m₁ f) : InDir m m' := by
  intro a ha
  have hd := (c.before.2 d).mpr c.dir
  have hp {l : Nat} (hl : l ≤ INDIRECT) : ptr m' d l = ptr m₁ d l := by
    rw [c.result, c.eq]
    exact strcpy_ptr c.empty c.isName hd hl
  have hn : sNblocks m' = sNblocks m₁ := by
    rw [c.result, c.eq]
    exact strcpy_nblocks c.empty
  have hdir : isDir m' d := by
    rw [c.result, c.eq]
    exact (strcpy_isDir c.empty c.isName hd).mpr c.empty.isDir
  refine ⟨d, (c.reach_iff hnp).mpr (.inl c.dir), hdir, ?_⟩
  by_cases hs : m' a = m₁ a
  · rcases c.old with ⟨rfl, -⟩ | ⟨-, r, -⟩
    · exact absurd hs ha
    · have hm : Meta m₁ d a := by
        by_contra hc
        exact ha (hs.trans (r.bytes a hc))
      exact Own.congr (.inr hm) (fun k hk => hp hk) hn
  · have hx : slot m₁ d k j ≤ a ∧ a < slot m₁ d k j + MAXNAMELEN := by
      by_contra hc
      rw [c.result, c.eq, strcpy_eq c.isName (by omega)] at hs
      exact hs rfl
    have hh := c.empty.holds
    refine .inl ⟨k, hh.2.1, ?_, ?_⟩
    · rw [hp hh.2.1.le]
      exact hh.2.2
    · rw [hp hh.2.1.le]
      exact name_inBlock c.empty.lt hx.1 hx.2

theorem create_inDir {path : List (BitVec 8)} (h : BlockInv m) (hc : CreateSized P m path) :
    (fileCreate path).wp True (fun _ m' => InDir m m')
      (fun f m' => InDir m m' ∧ ∀ k ≤ INDIRECT, ptr m' f k = 0#32) m := by
  refine (fileCreate_wp h hc.clean).mono id ?_ ?_
  · rintro _ m' (rfl | ⟨d, name, -, hd, hdir, -, r, -⟩)
    · exact fun _ ha => absurd rfl ha
    · exact r.inDir hd hdir
  · rintro f m' ⟨d, name, m₁, k, j, hp, c⟩
    have hcd := hc.2 d name hp
    exact ⟨c.inDir (c.noPtrs fun s hs => (hcd.1 s hs).noPtrs), (c.gains hcd.1).ptrs⟩

-- What an open does before it truncates the file.
theorem openPath_inDir {path : List (BitVec 8)} {omode : Word} (h : BlockInv m)
    (hc : OpenSized P m path omode) : (openPath path omode).wp True (fun _ m' => InDir m m')
      (fun f m' => InDir m m' ∧ (m' = m ∨ ∀ k ≤ INDIRECT, ptr m' f k = 0#32)) m := by
  have hsame : InDir m m := fun _ ha => absurd rfl ha
  have hopen : (fileOpen path).wp True (fun _ m' => InDir m m')
      (fun f m' => InDir m m' ∧ (m' = m ∨ ∀ k ≤ INDIRECT, ptr m' f k = 0#32)) m := by
    refine (fileOpen_wp h hc.1).mono id ?_ ?_
    · rintro _ m' rfl
      exact hsame
    · rintro f m' ⟨rfl, -⟩
      exact ⟨hsame, .inl rfl⟩
  rw [openPath, Prog.wp_ite]
  refine ⟨fun ho => ?_, fun _ => hopen⟩
  rw [Prog.wp_bind, Prog.wp_attempt]
  refine ((create_inDir h (hc.2.1 ho)).and (fileCreate_exists h hc.1)).mono (fun _ => trivial) ?_ ?_
  · rintro e m' ⟨hd, he⟩
    rw [Prog.wp_ite]
    refine ⟨fun hx => ?_, fun _ => hd⟩
    rw [he hx.2]
    exact hopen
  · rintro f m' ⟨⟨hd, hp⟩, -⟩
    exact ⟨hd, .inr hp⟩

-- The bytes of the files that can be reached, before or after.
def InFiles (m m' : Memory) (a : Nat) : Prop :=
  ∃ g, Reach m g ∧ Own m g a ∨ Reach m' g ∧ Own m' g a

theorem InDir.inFiles (h : InDir m m') (ha : m' a ≠ m a) : InFiles m m' a :=
  have ⟨d, hr, _, ho⟩ := h a ha
  ⟨d, .inr ⟨hr, ho⟩⟩

theorem setSize_null {S : Set Nat} (o : Owned m S) (hf : f ∈ S) (ha : Apart m f S) :
    (fileSetSize f v).wp False (fun _ _ => False)
      (fun _ m' => ∀ k ≤ INDIRECT, ptr m f k = 0#32 → ptr m' f k = 0#32) m := by
  refine (fileSetSize_wp o hf ha).mono id (fun _ _ => id) ?_
  rintro _ m' ⟨-, -, -, m₁, rfl, o₁, hs, -⟩ k hk h₀
  rw [ptr_store_size hk o₁ hf hf]
  rcases hs.ptrs f hf k hk with h | h
  · exact h.trans h₀
  · exact h.2.2

-- The bytes that change in an open that truncates a file.
theorem truncate_inFiles {m₁ : Memory} (h : InDir m m₁)
    (hp : m₁ = m ∨ ∀ k ≤ INDIRECT, ptr m₁ f k = 0#32) (hb : BlockInv m₁) (hf : Reach m₁ f)
    (hd : ¬isDir m₁ f) (r : Regular m₁ f m') (hx : ∀ a, ¬Own m₁ f a → m' a = m₁ a)
    (hn : ∀ k ≤ INDIRECT, ptr m₁ f k = 0#32 → ptr m' f k = 0#32) (ha : m' a ≠ m a) :
    InFiles m m' a := by
  by_cases hs : m₁ a = m a
  · have ho : Own m₁ f a := by
      by_contra hc
      exact ha ((hx a hc).trans hs)
    rcases hp with rfl | hp
    · exact ⟨f, .inl ⟨hf, ho⟩⟩
    · refine ⟨f, .inr ⟨(r.reach_iff hb hf hd).mpr hf, ho.congr (fun k hk => ?_) r.nblocks⟩⟩
      rw [hp k hk, hn k hk (hp k hk)]
  · obtain ⟨d, hr, hdir, ho⟩ := h a hs
    have hdf : d ≠ f := fun he => hd (he ▸ hdir)
    exact ⟨d, .inr ⟨(r.reach_iff hb hf hd).mpr hr, ho.congr (r.ptrs d hr hdf) r.nblocks⟩⟩

end Open

namespace Serv

-- What is to be shown of the state in which a request ends.
structure Judged (s s' : Serv) (code : Fsreq) : Prop where
  fits   : s.Inside s' code → s.PageFits code
  inside : s.PageFits code → s.DiskFits code → s.Inside s' code

theorem Judged.of_inside (hp : s.PageFits code) (h : s.DiskFits code → s.Inside s' code) :
    s.Judged s' code := ⟨fun _ => hp, fun _ => h⟩

-- A request that has only looked at its page.
theorem Inside.idle {l : List (Nat × Nat)} (hm : s.moved = []) (hl : ∀ r ∈ l, r.1 + r.2 ≤ PGSIZE) :
    s.Inside { s with touched := l } code where
  page    := hl
  written := fun _ hx => absurd rfl hx
  fds     := fun _ _ => rfl
  moved   := fun c hc => by
    have hc : c ∈ s.moved := hc
    rw [hm] at hc
    cases hc
  changed := fun _ ha => absurd rfl ha

-- The position of the file moves.
theorem Inside.advance {r : Word} (h : s.Inside s' code) (hi : s.entry code = some i) :
    s.Inside { s' with
      oFd := update s'.oFd i { s'.oFd i with fdOffset := (s'.oFd i).fdOffset + r } } code where
  page    := h.page
  written := h.written
  fds     := fun j hj => by
    have hji : j ≠ i := fun he => hj (he ▸ hi)
    exact (update_of_ne hji _ _).trans (h.fds j hj)
  moved   := h.moved
  changed := fun a ha => by
    have hb := h.changed a ha
    cases code <;> exact hb

section Requests

variable (h : s.Inv P) (ht : s.touched = []) (hm : s.moved = [])

include h ht

theorem lookup_ends {α : Type} {k : Nat → ServProg α} {R : Serv → Prop}
    (hn : s.file s.fsreq = none → R { s with touched := [(0, 4)] })
    (hk : ∀ i, s.file s.fsreq = some i → Reach s.mem (s.oFile i) →
      (k i).wp True (fun _ => R) (fun _ => R) { s with touched := [(0, 4)] }) :
    (do
      let o ← lookupOpen (← reqField 0)
      k o).wp True (fun _ => R) (fun _ => R) s := by
  simp only [Prog.wp_bind, wp_reqField, ht]
  refine lookupOpen_wp.mono False.elim ?_ ?_
  · rintro _ _ ⟨rfl, hv⟩
    exact hn hv
  · rintro i _ ⟨rfl, hi⟩
    exact hk i hi (h.files i (clients_pos hi))

include hm

theorem setSize_inside : serveSetSize.wp True (fun _ s' => s.Inside s' .setSize)
    (fun _ s' => s.Inside s' .setSize) s := by
  refine lookup_ends h ht (fun _ => .idle hm (by decide)) fun i hi hf => ?_
  simp only [Prog.wp_bind, Prog.wp_get, wp_reqField, wp_onDisk]
  refine (fileSetSize_own (h.sized.blocks.sound hf)).mono False.elim (fun _ _ => False.elim) ?_
  rintro _ m' ⟨-, ho⟩
  constructor
  case page => exact (by decide : ∀ r ∈ [(4, 4), (0, 4)], r.1 + r.2 ≤ PGSIZE)
  case written => exact fun _ hx => absurd rfl hx
  case fds => exact fun _ _ => rfl
  case moved => simp [hm]
  case changed => exact fun a ha => ⟨i, hi, .inl (ho a ha)⟩

theorem flush_inside : serveFlush.wp True (fun _ s' => s.Inside s' .flush)
    (fun _ s' => s.Inside s' .flush) s := by
  refine lookup_ends h ht (fun _ => .idle hm (by decide)) fun i hi hf => ?_
  simp only [Prog.wp_bind, Prog.wp_get, wp_onDisk]
  refine (fileFlush_wp h.sized.blocks.owned hf).mono id (fun _ _ => False.elim) ?_
  rintro _ m' rfl
  exact Inside.idle hm (by decide)

theorem read_inside (hd : s.DiskFits .read) : serveRead.wp True (fun _ s' => s.Inside s' .read)
    (fun _ s' => s.Inside s' .read) s := by
  refine lookup_ends h ht (fun _ => .idle hm (by decide)) fun i hi hf => ?_
  simp only [Prog.wp_bind, Prog.wp_get, wp_reqField, wp_touch, wp_onDisk]
  generalize hn : umin (s.fsreq.load32 4) 4096#32 = n
  have hpage : ∀ r ∈ [(0, n.toNat), (4, 4), (0, 4)], r.1 + r.2 ≤ PGSIZE := by
    have hle : n.toNat ≤ 4096 := by
      rw [← hn, umin_toNat]
      exact Nat.min_le_right _ _
    simpa [PGSIZE] using hle
  refine (read_moves (h.sized.blocks.sound hf) (hd i hi)).mono id ?_ ?_
  · intro _ m' ho
    constructor
    case page => exact hpage
    case written => exact fun _ hx => absurd rfl hx
    case fds => exact fun _ _ => rfl
    case moved => simp [hm]
    case changed => exact fun a ha => ⟨i, hi, .inr (ho a ha)⟩
  · rintro ⟨r, cs⟩ m' ⟨ho, hl, hc⟩
    rw [Prog.wp_modify, Prog.wp_ite]
    have hlen : (cs.flatMap Chunk.bytes).length ≤ n.toNat := by
      rw [List.length_flatMap]
      simpa only [Chunk.bytes, List.length_map, List.length_range] using hl
    have hin : s.Inside { s with
        mem     := m'
        fsreq   := s.fsreq.write 0 (cs.flatMap Chunk.bytes).length ((cs.flatMap Chunk.bytes).getD · 0)
        touched := [(0, n.toNat), (4, 4), (0, 4)]
        moved   := cs ++ s.moved } .read := by
      constructor
      case page => exact hpage
      case written =>
        intro x hx
        have hx : s.fsreq.write 0 (cs.flatMap Chunk.bytes).length
            ((cs.flatMap Chunk.bytes).getD · 0) x ≠ s.fsreq x := hx
        refine ⟨(0, n.toNat), List.mem_cons_self, Nat.zero_le _, ?_⟩
        by_contra hc
        have hc : 0 + n.toNat ≤ x := Nat.le_of_not_lt hc
        exact hx (Memory.write_of_not_mem (.inr (by omega)))
      case fds => exact fun _ _ => rfl
      case moved =>
        intro c hcs
        have hcs : c ∈ cs ++ s.moved := hcs
        rw [hm, List.append_nil] at hcs
        exact ⟨i, hi, fun a h₁ h₂ => .inl (hc c hcs a h₁ h₂)⟩
      case changed => exact fun a ha => ⟨i, hi, .inr (ho a ha)⟩
    exact ⟨fun _ => hin, fun _ => hin.advance hi⟩

theorem write_judged : serveWrite.wp True (fun _ s' => s.Judged s' .write)
    (fun _ s' => s.Judged s' .write) s := by
  refine lookup_ends h ht (fun hn => .of_inside ?_ fun _ => .idle hm (by decide)) fun i hi hf => ?_
  · intro i hi
    have hi : s.file s.fsreq = some i := hi
    rw [hn] at hi
    cases hi
  simp only [Prog.wp_bind, Prog.wp_get, wp_reqField, wp_touch, wp_onDisk]
  have hfits {s' : Serv} (ht : (8, (s.fsreq.load32 4).toNat) ∈ s'.touched)
      (hin : s.Inside s' .write) : s.PageFits .write := by
    intro j _
    have hp : 8 + (s.fsreq.load32 4).toNat ≤ PGSIZE := hin.page _ ht
    rw [PGSIZE] at *
    omega
  have hpage (hp : s.PageFits .write) :
      ∀ r ∈ [(8, (s.fsreq.load32 4).toNat), (4, 4), (0, 4)], r.1 + r.2 ≤ PGSIZE := by
    have hp := hp i hi
    simp only [PGSIZE] at *
    simp
    omega
  by_cases hd : s.DiskFits .write
  case neg =>
    have hj {s' : Serv} (ht : (8, (s.fsreq.load32 4).toNat) ∈ s'.touched) : s.Judged s' .write :=
      ⟨hfits ht, fun _ h => absurd h hd⟩
    refine Prog.wp_of_forall (fun _ _ => hj List.mem_cons_self) fun r m' => ?_
    rw [Prog.wp_modify, Prog.wp_ite]
    exact ⟨fun _ => hj List.mem_cons_self, fun _ => hj List.mem_cons_self⟩
  refine (write_moves (h.sized.blocks.sound hf) (hd i hi)).mono id ?_ ?_
  · intro _ m' ho
    refine ⟨hfits List.mem_cons_self, fun hp _ => ?_⟩
    constructor
    case page => exact hpage hp
    case written => exact fun _ hx => absurd rfl hx
    case fds => exact fun _ _ => rfl
    case moved => simp [hm]
    case changed => exact fun a ha => ⟨i, hi, ho a ha⟩
  · rintro ⟨r, cs⟩ m' ⟨ho, hc⟩
    rw [Prog.wp_modify, Prog.wp_ite]
    have hin (hp : s.PageFits .write) : s.Inside { s with
        mem     := m'
        touched := [(8, (s.fsreq.load32 4).toNat), (4, 4), (0, 4)]
        moved   := cs ++ s.moved } .write := by
      constructor
      case page => exact hpage hp
      case written => exact fun _ hx => absurd rfl hx
      case fds => exact fun _ _ => rfl
      case moved =>
        intro c hcs
        have hcs : c ∈ cs ++ s.moved := hcs
        rw [hm, List.append_nil] at hcs
        exact ⟨i, hi, fun a h₁ h₂ => .inl (hc c hcs a h₁ h₂)⟩
      case changed => exact fun a ha => ⟨i, hi, ho a ha⟩
    exact ⟨fun _ => ⟨hfits List.mem_cons_self, fun hp _ => hin hp⟩,
      fun _ => ⟨hfits List.mem_cons_self, fun hp _ => (hin hp).advance hi⟩⟩

theorem stat_judged : serveStat.wp True (fun _ s' => s.Judged s' .stat)
    (fun _ s' => s.Judged s' .stat) s := by
  refine lookup_ends h ht (fun hn => .of_inside ?_ fun _ => .idle hm (by decide)) fun i hi hf => ?_
  · intro i hi
    have hi : s.file s.fsreq = some i := hi
    rw [hn] at hi
    cases hi
  simp only [Prog.wp_bind, Prog.wp_get, wp_touch, Prog.wp_modify, Prog.wp_pure]
  constructor
  case fits =>
    intro hin j hj
    have hji : j = i := Option.some.inj (hj.symm.trans hi)
    have hp : 0 + strsize s.mem (s.oFile i) ≤ PGSIZE :=
      hin.page (0, _) (List.mem_cons_of_mem _ (List.mem_cons_of_mem _ List.mem_cons_self))
    rw [hji]
    omega
  case inside =>
    intro hp hd
    have hp := hp i hi
    constructor
    case page =>
      simp only [PGSIZE, MAXNAMELEN] at *
      simp
      omega
    case written =>
      intro x hx
      by_contra hc
      simp only [List.mem_cons, List.not_mem_nil, or_false, exists_eq_or_imp, exists_eq_left,
        not_or, not_and, not_lt] at hc
      refine hx ?_
      show Memory.store32 (Memory.store32 (Memory.write s.fsreq 0 _ _) MAXNAMELEN _) (MAXNAMELEN + 4) _
        x = _
      rw [Memory.store32_of_not_mem (by omega), Memory.store32_of_not_mem (by omega),
        Memory.write_of_not_mem (by omega)]
    case fds => exact fun _ _ => rfl
    case moved =>
      intro c hc
      have hc : c ∈ (⟨s.mem, s.oFile i, strsize s.mem (s.oFile i)⟩ : Chunk) :: s.moved := hc
      rw [hm, List.mem_singleton] at hc
      subst hc
      have hd := hd i hi
      exact ⟨i, hi, fun a h₁ h₂ => .inr ⟨h₁, lt_of_lt_of_le h₂ (Nat.add_le_add_left hd _)⟩⟩
    case changed => exact fun a ha => absurd rfl ha

end Requests

section Open

variable {s₁ : Serv} {path : List (BitVec 8)} {omode : Word} {l : List (Nat × Nat)}

-- An open that has not used more of its page than `l`.
structure Opening (s s' : Serv) (l : List (Nat × Nat)) : Prop where
  fsreq   : s'.fsreq = s.fsreq
  touched : s'.touched = l
  moved   : s'.moved = []
  fds     : ∀ j, s.tab.avail ≠ some j → s'.oFd j = s.oFd j

theorem Opening.inside (h : s.Opening s' l) (hl : ∀ r ∈ l, r.1 + r.2 ≤ PGSIZE)
    (hc : ∀ a, s'.mem a ≠ s.mem a → InFiles s.mem s'.mem a) : s.Inside s' .open where
  page    := h.touched ▸ hl
  written := fun x hx => absurd (congrFun h.fsreq x) hx
  fds     := h.fds
  moved   := fun c hx => by
    rw [h.moved] at hx
    cases hx
  changed := hc

theorem Alloced.opening {l : List (Nat × Nat)} (ha : Alloced { s with touched := l } s')
    (hm : s.moved = []) : s.Opening s' l :=
  ⟨ha.fsreq, ha.touched, ha.moved.trans hm, ha.oFd⟩

-- The end of `serve_open`.
theorem fill_inside (h : s.Opening s₁ l) (ho : s.tab.avail = some o)
    (hl : ∀ r ∈ l, r.1 + r.2 ≤ PGSIZE) (hb : BlockInv s₁.mem) (hfull : DirsFull s₁.mem)
    (hc : ∀ a, s₁.mem a ≠ s.mem a → InFiles s.mem s₁.mem a) :
    (do
      let f ← onDisk (fileOpen path)
      Prog.modify (Serv.fill · o f omode)
      pure o : ServProg Nat).wp True (fun _ s' => s.Inside s' .open)
        (fun _ s' => s.Inside s' .open) s₁ := by
  rw [Prog.wp_bind, wp_onDisk]
  refine (fileOpen_wp hb hfull).mono id ?_ ?_
  · rintro _ m' rfl
    exact h.inside hl hc
  · rintro f m' ⟨rfl, hf⟩
    refine Opening.inside (l := l) ⟨h.fsreq, h.touched, h.moved, fun j hj => ?_⟩ hl hc
    have hjo : j ≠ o := fun he => hj (he ▸ ho)
    exact (update_of_ne hjo _ _).trans (h.fds j hj)

theorem open_inside (h : s.Inv P) (ht : s.touched = []) (hm : s.moved = []) (hd : OpenSized P s.mem
    (reqPath s.fsreq) (s.fsreq.load32 MAXPATHLEN)) (h₀ : P False 0#32) :
    (serveOpen noMem).wp True (fun _ s' => s.Inside s' .open) (fun _ s' => s.Inside s' .open) s := by
  rw [serveOpen]
  simp only [Prog.wp_bind, wp_touch, Prog.wp_get, ht]
  have hl : ∀ r ∈ [(MAXPATHLEN, 4), (0, MAXPATHLEN)], r.1 + r.2 ≤ PGSIZE := by decide
  refine allocOpen_wp.mono id ?_ ?_
  · rintro _ s₁ ha
    exact (ha.opening hm).inside (by decide) fun a hx => absurd (congrFun ha.mem a) hx
  rintro o s₁ ⟨ha, ho⟩
  have fr := ha.opening hm
  have ho : s.tab.avail = some o := ho
  have hmem : s₁.mem = s.mem := ha.mem
  generalize reqPath s.fsreq = path at hd ⊢
  have hom : s₁.fsreq.load32 MAXPATHLEN = s.fsreq.load32 MAXPATHLEN :=
    congrArg (Memory.load32 · MAXPATHLEN) fr.fsreq
  rw [Prog.wp_bind, wp_reqField, hom, Prog.wp_bind, wp_onDisk]
  generalize s.fsreq.load32 MAXPATHLEN = omode at hd ⊢
  have fr₂ (m' : Memory) : s.Opening
      { s₁ with mem := m', touched := (MAXPATHLEN, 4) :: s₁.touched }
      [(MAXPATHLEN, 4), (0, MAXPATHLEN)] :=
    ⟨fr.fsreq, congrArg (_ :: ·) fr.touched, fr.moved, fr.fds⟩
  show Prog.wp _ _ _ _ s₁.mem
  rw [hmem]
  refine ((openPath_sized h.sized hd h₀).and (openPath_inDir h.sized.blocks hd)).mono
    (fun _ => trivial) ?_ ?_
  · rintro _ m' ⟨-, hc⟩
    exact (fr₂ m').inside hl fun a ha => hc.inFiles ha
  rintro f m₁ ⟨⟨hk, hr, hfull, hreg⟩, hc, hp⟩
  rw [Prog.wp_ite]
  constructor
  case left =>
    intro htr
    have hb := hk.1.blocks
    have hnd := hreg htr
    rw [Prog.wp_bind, wp_onDisk]
    have hnull := setSize_null (v := 0#32) hb.owned hr (hb.apart hr hnd)
    refine ((setSize_regular hb hr hnd).and hnull).mono (fun hc => hc.1.elim)
      (fun _ _ hc => hc.1.elim) ?_
    rintro _ m₂ ⟨⟨r, hx⟩, hn⟩
    refine fill_inside (fr₂ m₂) ho hl (r.blockInv hb hr hnd) (r.dirsFull hb hr hnd hfull) fun a ha => ?_
    exact truncate_inFiles hc hp hb hr hnd r hx hn ha
  case right =>
    exact fun _ => fill_inside (fr₂ m₁) ho hl hk.1.blocks hfull fun a ha => hc.inFiles ha

end Open

theorem handler_judged (h : s.Inv fun _ _ => True) (ht : s.touched = []) (hm : s.moved = []) :
    (handler noMem code).wp True (fun _ s' => s.Judged s' code) (fun _ s' => s.Judged s' code) s := by
  have hk {x : ServProg Word}
      (hx : x.wp True (fun _ s' => s.Judged s' code) (fun _ s' => s.Judged s' code) s) :
      (do pure (← x, none) : ServProg (Word × Option Nat)).wp True (fun _ s' => s.Judged s' code)
        (fun _ s' => s.Judged s' code) s := by
    rw [Prog.wp_bind]
    exact hx.mono id (fun _ _ => id) fun _ _ => id
  have hi {s' : Serv} (hp : s.PageFits code) (hin : s.Inside s' code) : s.Judged s' code :=
    .of_inside hp fun _ => hin
  have hidle : s.Inside s code := by
    have hl : ∀ r ∈ s.touched, r.1 + r.2 ≤ PGSIZE := by simp [ht]
    exact Inside.idle hm hl
  cases code
  case other => exact hi trivial hidle
  case «open» =>
    by_cases hd : s.DiskFits .open
    · rw [handler, Prog.wp_bind]
      exact (open_inside h ht hm hd trivial).mono id (fun _ _ => hi trivial) fun _ _ => hi trivial
    · exact Prog.wp_of_forall (fun _ _ => .of_inside trivial fun hc => absurd hc hd)
        fun _ _ => .of_inside trivial fun hc => absurd hc hd
  case setSize =>
    exact hk ((setSize_inside h ht hm).mono id (fun _ _ => hi trivial) fun _ _ => hi trivial)
  case read =>
    by_cases hd : s.DiskFits .read
    · exact hk ((read_inside h ht hm hd).mono id (fun _ _ => hi trivial) fun _ _ => hi trivial)
    · exact Prog.wp_of_forall (fun _ _ => .of_inside trivial fun hc => absurd hc hd)
        fun _ _ => .of_inside trivial fun hc => absurd hc hd
  case write => exact hk (write_judged h ht hm)
  case stat => exact hk (stat_judged h ht hm)
  case flush =>
    exact hk ((flush_inside h ht hm).mono id (fun _ _ => hi trivial) fun _ _ => hi trivial)
  case sync => exact hk (hi trivial hidle)

end Serv

theorem Sample.sized_any : Sized (fun _ _ => True) disk := sized_disk trivial trivial

end Fs

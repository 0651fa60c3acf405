import Sisop.Fs.Theorems.Holes
import Sisop.Fs.Theorems.OpenTab
import Sisop.Fs.Theorems.Sizes

namespace Fs

open Inc Library Function

-- The table is not searched in proofs.
attribute [local irreducible] OpenTab.openfileAlloc

namespace Serv

-- What clients do: they send a request with their argument page, and they map and unmap the pages `o_fd`
-- and write to them.
inductive Event
  | request (code : Fsreq) (page : Memory) (noMem maps : Bool)
  | map (i : Nat)
  | unmap (i : Nat)
  | poke (i : Nat) (fd : Fd)

variable (s : Serv)

def receive (page : Memory) : Serv := { s with fsreq := page, touched := [], moved := [] }

def setClients (i n : Nat) : Serv :=
  { s with tab := { s.tab with clients := update s.tab.clients i n } }

-- The page `o_fd` that goes with a reply is mapped, if the client wants it.
inductive Step : Serv → Event → Serv → Prop
  | error {s s' : Serv} {code page noMem maps e} : handler noMem code (s.receive page) = .error e s' →
    Step s (.request code page noMem maps) s'
  | reply {s s' : Serv} {code page noMem maps r} :
    handler noMem code (s.receive page) = .ok (r, none) s' →
    Step s (.request code page noMem maps) s'
  | replyFd {s s' : Serv} {code page noMem maps r o} :
    handler noMem code (s.receive page) = .ok (r, some o) s' →
    Step s (.request code page noMem maps)
      (if maps then s'.setClients o (s'.tab.clients o + 1) else s')
  | map {s : Serv} {i} : 0 < s.tab.clients i → Step s (.map i) (s.setClients i (s.tab.clients i + 1))
  | unmap {s : Serv} {i} : 0 < s.tab.clients i →
    Step s (.unmap i) (s.setClients i (s.tab.clients i - 1))
  | poke {s : Serv} {i fd} : 0 < s.tab.clients i →
    Step s (.poke i fd) { s with oFd := update s.oFd i fd }

-- The file that the request on the page is about.
def file (page : Memory) : Option Nat := s.tab.openfileLookup (page.load32 0)

end Serv

-- What an open asks for: the directories have no holes, and a file that is truncated is no directory.
def OpenSized (P : SizeLaw) (m : Memory) (path : List (BitVec 8)) (omode : Word) : Prop :=
  DirsFull m ∧ (omode &&& O_CREAT ≠ 0#32 → CreateSized P m path) ∧
    (omode &&& O_TRUNC ≠ 0#32 → ∀ f, fileOpen path m = .ok f m → ¬isDir m f)

-- The condition on a request.
def Serv.Sizing (P : SizeLaw) (s : Serv) : Event → Prop
  | .request .open page _ _    => OpenSized P s.mem (reqPath page) (page.load32 MAXPATHLEN)
  | .request .setSize page _ _ => ∀ i, s.file page = some i →
    SetSized P s.mem (s.oFile i) (page.load32 4)
  | .request .read page _ _    => ∀ i, s.file page = some i →
    ReadSized s.mem (s.oFile i) (s.oFd i).fdOffset
  | .request .write page _ _   => ∀ i, s.file page = some i →
    WriteSized P s.mem (s.oFile i) (page.load32 4) (s.oFd i).fdOffset
  | .request _ _ _ _           => True
  | .map _                     => True
  | .unmap _                   => True
  | .poke _ _                  => True

structure Serv.Inv (P : SizeLaw) (s : Serv) : Prop where
  sized : Sized P s.mem
  files : ∀ i, 0 < s.tab.clients i → Reach s.mem (s.oFile i)

variable {P : SizeLaw} {m m' : Memory} {s s' : Serv} {i o off len : Nat} {path : List (BitVec 8)}
  {omode size v : Word} {page : Memory} {noMem maps : Bool} {α : Type} {E : Nat → Serv → Prop}
  {ev : Serv.Event}

section Wp

@[simp] theorem wp_onDisk {x : FsProg α} {C : Prop} {Q : α → Serv → Prop} :
    (onDisk x).wp C E Q s ↔ x.wp C (fun e m => E e { s with mem := m })
      (fun a m => Q a { s with mem := m }) s.mem := by
  simp only [Prog.wp, onDisk]
  cases x s.mem <;> rfl

@[simp] theorem wp_touch {C : Prop} {Q : Unit → Serv → Prop} : (touch off len).wp C E Q s ↔
    Q () { s with touched := (off, len) :: s.touched } := Iff.rfl

@[simp] theorem wp_reqField {C : Prop} {Q : Word → Serv → Prop} : (reqField off).wp C E Q s ↔
    Q (s.fsreq.load32 off) { s with touched := (off, 4) :: s.touched } := Iff.rfl

theorem clients_pos (h : s.tab.openfileLookup v = some i) : 0 < s.tab.clients i := by
  rw [OpenTab.openfileLookup] at h
  split at h
  case isTrue => cases h
  case isFalse hc =>
    cases h
    rw [not_or, OpenTab.pageref] at hc
    have := hc.1
    split at this
    case isTrue => omega
    case isFalse => omega

theorem lookupOpen_wp : (lookupOpen v).wp False
    (fun _ s' => s' = s ∧ s.tab.openfileLookup v = none)
    (fun i s' => s' = s ∧ s.tab.openfileLookup v = some i) s := by
  rw [lookupOpen, Prog.wp_bind, Prog.wp_get]
  split
  case h_1 i hi => exact ⟨rfl, hi⟩
  case h_2 hn => exact ⟨rfl, hn⟩

-- `openfile_alloc` changes ids, and the page `o_fd` of the entry that it finds.
structure Serv.Alloced (s s' : Serv) : Prop where
  mem     : s'.mem = s.mem
  clients : s'.tab.clients = s.tab.clients
  oFile   : s'.oFile = s.oFile
  fsreq   : s'.fsreq = s.fsreq
  touched : s'.touched = s.touched
  moved   : s'.moved = s.moved
  oFd     : ∀ j, s.tab.avail ≠ some j → s'.oFd j = s.oFd j

theorem allocOpen_wp : (allocOpen noMem).wp True (fun _ s' => s.Alloced s')
    (fun o s' => s.Alloced s' ∧ s.tab.avail = some o) s := by
  rcases hx : s.tab.openfileAlloc noMem with ⟨r, o, tab⟩
  have hc : tab.clients = s.tab.clients ∧ ∀ i, o = some i → s.tab.avail = some i := by
    rcases Opens.openfileAlloc_cases hx with ⟨rfl, rfl⟩ | ⟨i, hi, -, rfl, rfl⟩
    · exact ⟨rfl, fun _ ho => nomatch ho⟩
    · exact ⟨rfl, fun _ ho => ho ▸ hi⟩
  unfold Prog.wp allocOpen
  rw [hx]
  cases o
  case none => exact ⟨rfl, hc.1, rfl, rfl, rfl, rfl, fun _ _ => rfl⟩
  case some o =>
    have ha := hc.2 o rfl
    have hs : s.Alloced { s with tab := tab, oFd := update s.oFd o ⟨0, 0, 0, 0⟩ } :=
      ⟨rfl, hc.1, rfl, rfl, rfl, rfl, fun j hj =>
        update_of_ne (fun he : j = o => hj (he ▸ ha)) _ _⟩
    by_cases hn : negative r
    · simp only [hn, if_true]
      exact hs
    · simp only [hn]
      exact ⟨hs, ha⟩

end Wp

section Open

-- A truncation leaves the blocks of the directories.
theorem Regular.dirsFull {f : Nat} (r : Regular m f m') (h : BlockInv m) (hf : Reach m f)
    (hd : ¬isDir m f) (hfull : DirsFull m) : DirsFull m' := by
  intro g hg hdir k hk₁ hk₂
  have hg := (r.reach_iff h hf hd).mp hg
  have hdir := (r.isDir_iff h hf hd hg).mp hdir
  have hs := r.sameDir h hf hd hg fun he => hd (he ▸ hdir)
  rw [hs.size] at hk₁
  rw [hs.ptrs k hk₂.le]
  exact hfull g hg hdir k hk₁ hk₂

theorem openPath_sized (h : Sized P m) (hc : OpenSized P m path omode) (h₀ : P False 0#32) :
    (openPath path omode).wp True (fun _ m' => KeepsSized P m m')
      (fun f m' => KeepsSized P m m' ∧ Reach m' f ∧ DirsFull m' ∧
        (omode &&& O_TRUNC ≠ 0#32 → ¬isDir m' f)) m := by
  obtain ⟨hfull, hcreate, htrunc⟩ := hc
  have hopen : (fileOpen path).wp True (fun _ m' => KeepsSized P m m')
      (fun f m' => KeepsSized P m m' ∧ Reach m' f ∧ DirsFull m' ∧
        (omode &&& O_TRUNC ≠ 0#32 → ¬isDir m' f)) m := by
    refine ((fileOpen_wp h.blocks hfull).and Prog.wp_eq).mono (fun _ => trivial) ?_ ?_
    · rintro _ m' ⟨rfl, -⟩
      exact h.refl
    · rintro f m' ⟨⟨rfl, hr⟩, hx⟩
      exact ⟨h.refl, hr, hfull, fun ht => htrunc ht f hx⟩
  rw [openPath, Prog.wp_ite]
  refine ⟨fun ho => ?_, fun _ => hopen⟩
  rw [Prog.wp_bind, Prog.wp_attempt]
  refine (create_sized h (hcreate ho) h₀).mono id ?_ ?_
  · rintro e m' ⟨hk, he⟩
    rw [Prog.wp_ite]
    refine ⟨fun hx => ?_, fun _ => hk⟩
    rw [he hx.2]
    exact hopen
  · rintro f m' ⟨hk, hr, hreg, hfull'⟩
    exact ⟨hk, hr, hfull', fun _ => hreg⟩

end Open

namespace Serv.Inv

variable (h : s.Inv P)

include h

theorem keeps (hk : KeepsSized P s.mem s'.mem) (ht : s'.tab = s.tab) (ho : s'.oFile = s.oFile) :
    s'.Inv P := by
  refine ⟨hk.1, ?_⟩
  rw [ht, ho]
  exact fun i hi => hk.2 _ (h.files i hi)

theorem fill {f : Nat} (hf : Reach s.mem f) :
    (s.fill o f omode).Inv P ∧ Reach s.mem ((s.fill o f omode).oFile o) := by
  refine ⟨⟨h.sized, fun i hi => ?_⟩, ?_⟩
  · show Reach s.mem (update s.oFile o f i)
    by_cases he : i = o
    · rw [he, update_self]
      exact hf
    · rw [update_of_ne he]
      exact h.files i hi
  · show Reach s.mem (update s.oFile o f o)
    rw [update_self]
    exact hf

-- The end of `serve_open`.
theorem fill_wp (hfull : DirsFull s.mem) :
    (do
      let f ← onDisk (fileOpen path)
      Prog.modify (Serv.fill · o f omode)
      pure o : ServProg Nat).wp True (fun _ s' => s'.Inv P)
        (fun o s' => s'.Inv P ∧ Reach s'.mem (s'.oFile o)) s := by
  rw [Prog.wp_bind, wp_onDisk]
  refine (fileOpen_wp h.sized.blocks hfull).mono id ?_ ?_
  · rintro _ m' rfl
    exact h
  · rintro f m' ⟨rfl, hf⟩
    exact h.fill hf

theorem serveOpen_wp (hc : OpenSized P s.mem (reqPath s.fsreq) (s.fsreq.load32 MAXPATHLEN))
    (h₀ : P False 0#32) : (serveOpen noMem).wp True (fun _ s' => s'.Inv P)
      (fun o s' => s'.Inv P ∧ Reach s'.mem (s'.oFile o)) s := by
  rw [serveOpen]
  simp only [Prog.wp_bind, wp_touch, Prog.wp_get]
  have halloc {s₁ : Serv}
      (ha : Serv.Alloced { s with touched := (0, MAXPATHLEN) :: s.touched } s₁) :
      s₁.Inv P := by
    refine ⟨ha.mem ▸ h.sized, ?_⟩
    rw [ha.clients, ha.mem, ha.oFile]
    exact h.files
  refine allocOpen_wp.mono id (fun _ _ => halloc) ?_
  rintro o s₁ ⟨ha, -⟩
  have h₁ := halloc ha
  have hm : s₁.mem = s.mem := ha.mem
  generalize reqPath s.fsreq = path at hc ⊢
  have hom : s₁.fsreq.load32 MAXPATHLEN = s.fsreq.load32 MAXPATHLEN :=
    congrArg (Memory.load32 · MAXPATHLEN) ha.fsreq
  rw [Prog.wp_bind, wp_reqField, hom, Prog.wp_bind, wp_onDisk]
  generalize s.fsreq.load32 MAXPATHLEN = omode at hc ⊢
  have hc : OpenSized P s₁.mem path omode := hm ▸ hc
  have h₂ : Serv.Inv P { s₁ with touched := (MAXPATHLEN, 4) :: s₁.touched } := ⟨h₁.sized, h₁.files⟩
  refine (openPath_sized h₁.sized hc h₀).mono id (fun _ _ hk => h₂.keeps hk rfl rfl) ?_
  rintro f m₁ ⟨hk, hr, hfull, hreg⟩
  have h₃ : Serv.Inv P { s₁ with mem := m₁, touched := (MAXPATHLEN, 4) :: s₁.touched } :=
    h₂.keeps hk rfl rfl
  rw [Prog.wp_ite]
  constructor
  case left =>
    intro ht
    have hset : SetSized P m₁ f 0#32 := ⟨hreg ht, h₀⟩
    rw [Prog.wp_bind, wp_onDisk]
    refine (setSize_sized h₃.sized hr hset).mono False.elim (fun _ _ => False.elim) ?_
    rintro _ m₂ ⟨hk₂, r⟩
    have h₄ : Serv.Inv P { s₁ with mem := m₂, touched := (MAXPATHLEN, 4) :: s₁.touched } :=
      h₃.keeps hk₂ rfl rfl
    exact h₄.fill_wp (r.dirsFull h₃.sized.blocks hr hset.1 hfull)
  case right => exact fun _ => h₃.fill_wp hfull

-- The start of the requests about an open file.
theorem lookup_wp {k : Nat → ServProg α} {Q : α → Serv → Prop}
    (hk : ∀ i, s.file s.fsreq = some i → Reach s.mem (s.oFile i) →
      (k i).wp True (fun _ s' => s'.Inv P) Q { s with touched := (0, 4) :: s.touched }) :
    (do
      let o ← lookupOpen (← reqField 0)
      k o).wp True (fun _ s' => s'.Inv P) Q s := by
  simp only [Prog.wp_bind, wp_reqField]
  refine lookupOpen_wp.mono False.elim ?_ ?_
  · rintro _ _ ⟨rfl, -⟩
    exact ⟨h.sized, h.files⟩
  · rintro i _ ⟨rfl, hi⟩
    exact hk i hi (h.files i (clients_pos hi))

theorem serveSetSize_wp (hc : ∀ i, s.file s.fsreq = some i →
    SetSized P s.mem (s.oFile i) (s.fsreq.load32 4)) :
    serveSetSize.wp True (fun _ s' => s'.Inv P) (fun _ s' => s'.Inv P) s := by
  refine h.lookup_wp fun i hi hf => ?_
  simp only [Prog.wp_bind, Prog.wp_get, wp_reqField, wp_onDisk]
  refine (setSize_sized h.sized hf (hc i hi)).mono False.elim (fun _ _ => False.elim) ?_
  exact fun _ _ hk => h.keeps hk.1 rfl rfl

theorem serveRead_wp (hc : ∀ i, s.file s.fsreq = some i →
    ReadSized s.mem (s.oFile i) (s.oFd i).fdOffset) :
    serveRead.wp True (fun _ s' => s'.Inv P) (fun _ s' => s'.Inv P) s := by
  refine h.lookup_wp fun i hi hf => ?_
  simp only [Prog.wp_bind, Prog.wp_get, wp_reqField, wp_touch, wp_onDisk]
  refine (read_sized h.sized hf (hc i hi)).mono id (fun _ _ hk => h.keeps hk rfl rfl) ?_
  rintro ⟨r, cs⟩ m' hk
  rw [Prog.wp_modify, Prog.wp_ite]
  exact ⟨fun _ => h.keeps hk rfl rfl, fun _ => h.keeps hk rfl rfl⟩

theorem serveWrite_wp (hc : ∀ i, s.file s.fsreq = some i →
    WriteSized P s.mem (s.oFile i) (s.fsreq.load32 4) (s.oFd i).fdOffset) :
    serveWrite.wp True (fun _ s' => s'.Inv P) (fun _ s' => s'.Inv P) s := by
  refine h.lookup_wp fun i hi hf => ?_
  simp only [Prog.wp_bind, Prog.wp_get, wp_reqField, wp_touch, wp_onDisk]
  refine (write_sized h.sized hf (hc i hi)).mono id (fun _ _ hk => h.keeps hk rfl rfl) ?_
  rintro ⟨r, cs⟩ m' hk
  rw [Prog.wp_modify, Prog.wp_ite]
  exact ⟨fun _ => h.keeps hk rfl rfl, fun _ => h.keeps hk rfl rfl⟩

theorem serveStat_wp : serveStat.wp True (fun _ s' => s'.Inv P) (fun _ s' => s'.Inv P) s := by
  refine h.lookup_wp fun i hi hf => ?_
  simp only [Prog.wp_bind, Prog.wp_get, wp_touch, Prog.wp_modify, Prog.wp_pure]
  exact ⟨h.sized, h.files⟩

theorem serveFlush_wp : serveFlush.wp True (fun _ s' => s'.Inv P) (fun _ s' => s'.Inv P) s := by
  refine h.lookup_wp fun i hi hf => ?_
  simp only [Prog.wp_bind, Prog.wp_get, wp_onDisk]
  refine (fileFlush_wp h.sized.blocks.owned hf).mono id (fun _ _ => False.elim) ?_
  rintro _ m' rfl
  exact ⟨h.sized, h.files⟩

theorem handler_wp {code : Fsreq} (hc : s.Sizing P (.request code s.fsreq noMem maps))
    (h₀ : P False 0#32) : (handler noMem code).wp True (fun _ s' => s'.Inv P)
      (fun r s' => s'.Inv P ∧ ∀ o, r.2 = some o → Reach s'.mem (s'.oFile o)) s := by
  have hk {x : ServProg Word} (hx : x.wp True (fun _ s' => s'.Inv P) (fun _ s' => s'.Inv P) s) :
      (do pure (← x, none) : ServProg (Word × Option Nat)).wp True (fun _ s' => s'.Inv P)
        (fun r s' => s'.Inv P ∧ ∀ o, r.2 = some o → Reach s'.mem (s'.oFile o)) s := by
    rw [Prog.wp_bind]
    exact hx.mono id (fun _ _ => id) fun _ _ h => ⟨h, fun _ ho => nomatch ho⟩
  cases code
  case other => exact h
  case «open» =>
    rw [handler, Prog.wp_bind]
    refine (h.serveOpen_wp hc h₀).mono id (fun _ _ => id) fun o s' hs => ⟨hs.1, fun o' ho => ?_⟩
    cases ho
    exact hs.2
  case setSize => exact hk (h.serveSetSize_wp hc)
  case read => exact hk (h.serveRead_wp hc)
  case write => exact hk (h.serveWrite_wp hc)
  case stat => exact hk h.serveStat_wp
  case flush => exact hk h.serveFlush_wp
  case sync => exact hk h

theorem setClients {n : Nat} (hi : 0 < n → Reach s.mem (s.oFile i)) : (s.setClients i n).Inv P := by
  refine ⟨h.sized, fun j hj => ?_⟩
  have hj : 0 < update s.tab.clients i n j := hj
  by_cases he : j = i
  · rw [he, update_self] at hj
    exact he ▸ hi hj
  · rw [update_of_ne he] at hj
    exact h.files j hj

theorem step (hc : s.Sizing P ev) (h₀ : P False 0#32) (hs : s.Step ev s') : s'.Inv P := by
  have hr {page : Memory} : (s.receive page).Inv P := ⟨h.sized, h.files⟩
  cases hs
  case error code page noMem maps e hx => exact (hr.handler_wp hc h₀).error hx
  case reply code page noMem maps r hx => exact ((hr.handler_wp hc h₀).ok hx).1
  case replyFd s₁ code page noMem maps r o hx =>
    obtain ⟨h₁, ho⟩ := (hr.handler_wp hc h₀).ok hx
    split
    case isTrue => exact h₁.setClients fun _ => ho o rfl
    case isFalse => exact h₁
  case map i hi => exact h.setClients fun _ => h.files i hi
  case unmap i hi => exact h.setClients fun _ => h.files i hi
  case poke i fd hi => exact ⟨h.sized, h.files⟩

end Serv.Inv

-- The open files at the start, when there are none.
theorem Serv.Inv.init (h : Sized P s.mem) (ht : s.tab = .init) : s.Inv P := by
  refine ⟨h, fun i hi => ?_⟩
  rw [ht] at hi
  exact absurd hi (Nat.lt_irrefl 0)

theorem Serv.Inv.run {s₀ : Serv} (h : Sized P s₀.mem) (ht : s₀.tab = .init) (h₀ : P False 0#32)
    (r : Run Serv.Step (Serv.Sizing P) s₀ s) : s.Inv P :=
  r.invariant (.init h ht) fun h hc hs => h.step hc h₀ hs

-- The size of a directory is a multiple of the block size.
def DirLaw : SizeLaw := fun dir size => dir → size.toNat % BLKSIZE = 0

-- The assertion of `dir_lookup` and `dir_alloc_file` holds.
def DirsAligned (m : Memory) : Prop := ∀ d, Reach m d → isDir m d →
  (m.load32 (fSize d)).toNat % BLKSIZE = 0 ∧ dirBlocks d m = .ok (nblock m d) m

theorem srem_eq_zero (h : v.toNat % BLKSIZE = 0) : v.srem 4096#32 = 0#32 := by
  apply BitVec.eq_of_toInt_eq
  rw [BitVec.toInt_srem]
  refine Int.tmod_eq_zero_of_dvd ?_
  have hv := BitVec.toInt_eq_toNat_cond (x := v)
  have h4 : (4096#32).toInt = 4096 := by decide
  rw [BLKSIZE] at h
  rw [h4, hv]
  split <;> omega

theorem Sizes.dirsAligned (h : Sizes DirLaw m) : DirsAligned m := by
  intro d hd hdir
  have ha := h d hd hdir
  refine ⟨ha, ?_⟩
  show (if _ then _ else _ : FsProg Nat) m = _
  rw [if_neg (not_not.mpr (srem_eq_zero ha))]
  rfl

-- In a run whose requests neither write to a directory nor set the size of one, and get no old data as
-- directories, the assertion holds for all directories, also where `serve_open` looks for the file again.
theorem dirs_aligned {s₀ : Serv} (h : Sized DirLaw s₀.mem) (ht : s₀.tab = .init)
    (r : Run Serv.Step (Serv.Sizing DirLaw) s₀ s) : DirsAligned s.mem ∧
      ∀ path omode f m', OpenSized DirLaw s.mem path omode → openPath path omode s.mem = .ok f m' →
        DirsAligned m' ∧ (omode &&& O_TRUNC ≠ 0#32 →
          ∀ m₂, fileSetSize f 0#32 m' = .ok () m₂ → DirsAligned m₂) := by
  have hi := Serv.Inv.run h ht False.elim r
  refine ⟨hi.sized.sizes.dirsAligned, fun path omode f m' hc hx => ?_⟩
  obtain ⟨hk, hf, -, hreg⟩ := (openPath_sized hi.sized hc False.elim).ok hx
  refine ⟨hk.1.sizes.dirsAligned, fun ho m₂ hx₂ => ?_⟩
  have hset : SetSized DirLaw m' f 0#32 := ⟨hreg ho, False.elim⟩
  exact ((setSize_sized hk.1 hf hset).ok hx₂).1.1.sizes.dirsAligned

namespace Sample

def serv : Serv := ⟨disk, .init, fun _ => 0, fun _ => 0, fun _ => ⟨0, 0, 0, 0⟩, fun _ => 0, [], []⟩

-- The pages of the requests to open `/` and `/a`.
def pageRoot : Memory := ofBytes [(0, 0x2F)]

def pageA : Memory := ofBytes [(0, 0x2F), (1, 0x61)]

-- The page of a request for the first file that has been opened, with a size or a count.
def sizePage (size : Word) : Memory := (ofBytes [(1, 4)]).store32 4 size

-- A client opens a file and makes a request for it.
def openThen (page : Memory) (code : Fsreq) (size : Word) : ServProg Unit := do
  Prog.modify (·.receive page)
  match ← handler false .open with
  | (_, none)   => Prog.throw E_INVAL
  | (_, some o) => do
    Prog.modify fun s => (s.setClients o (s.tab.clients o + 1)).receive (sizePage size)
    let _ ← handler false code

theorem openThen_cases {page : Memory} {code : Fsreq} {size : Word}
    (h : openThen page code size s = .ok () s') : ∃ s₁ r, s.Step (.request .open page false true) s₁ ∧
      handler false code (s₁.receive (sizePage size)) = .ok r s' := by
  rw [openThen, Prog.bind_eq_ok] at h
  obtain ⟨_, _, h₁, h⟩ := h
  cases h₁
  rw [Prog.bind_eq_ok] at h
  obtain ⟨⟨r, o⟩, s₁, h₁, h⟩ := h
  cases o
  case none => cases h
  case some o =>
    rw [Prog.bind_eq_ok] at h
    obtain ⟨_, _, h₂, h⟩ := h
    cases h₂
    rw [Prog.bind_eq_ok] at h
    obtain ⟨r, s₂, h₂, h⟩ := h
    cases h
    exact ⟨s₁.setClients o (s₁.tab.clients o + 1), r, .replyFd h₁, h₂⟩

theorem run_openThen {page : Memory} {code : Fsreq} {size : Word}
    (h : openThen page code size s = .ok () s') : Run Serv.Step (fun _ _ => True) s s' := by
  obtain ⟨s₁, ⟨r, o⟩, h₁, h₂⟩ := openThen_cases h
  have hs : s₁.Step (.request code (sizePage size) false false) s' := by
    cases o
    case none => exact .reply h₂
    case some => exact .replyFd h₂
  exact (Run.single trivial h₁).tail trivial hs

theorem sized_disk {P : SizeLaw} (hr : P True 4096#32) (ha : P False 10#32) : Sized P disk := by
  refine ⟨blockInv_disk, fun f hf => ?_⟩
  rcases reach_disk hf with rfl | rfl
  · have hd : isDir disk sRoot := by
      rw [isDir]
      decide
    have hs : disk.load32 (fSize sRoot) = 4096#32 := by decide
    rw [hs, eq_true hd]
    exact hr
  · have hs : disk.load32 (fSize fileA) = 10#32 := by decide
    rw [hs, eq_false not_isDir_fileA]
    exact ha

theorem dirsFull_disk : DirsFull disk := by
  intro d hd hdir k hk _
  rcases reach_disk hd with rfl | rfl
  · have hn : nblock disk sRoot = 1 := by decide
    have hk : k = 0 := by omega
    subst hk
    decide
  · exact absurd hdir not_isDir_fileA

theorem sizing_openA {P : SizeLaw} : Serv.Sizing P serv (.request .open pageA false true) := by
  have hm : pageA.load32 MAXPATHLEN = 0#32 := by decide
  refine ⟨dirsFull_disk, ?_, ?_⟩ <;> rw [hm] <;> exact fun h => absurd (by decide) h

theorem run_openA {P : SizeLaw} : ∃ s, Run Serv.Step (Serv.Sizing P) serv s ∧ s.tab.clients 0 = 1 := by
  have hx : (handler false .open (serv.receive pageA)).okAnd fun r s =>
      r.2 = some 0 ∧ s.tab.clients 0 = 0 := by
    decide +kernel
  obtain ⟨⟨r, o⟩, s, hx, hs⟩ := Outcome.exists_of_okAnd hx
  simp only [decide_eq_true_iff] at hs
  obtain ⟨rfl, hc⟩ := hs
  refine ⟨_, .single sizing_openA (.replyFd hx), ?_⟩
  show update s.tab.clients 0 (s.tab.clients 0 + 1) 0 = 1
  rw [update_self, hc]

end Sample

-- A client has opened the file `/a`.
theorem dirs_aligned_openA : ∃ s : Serv, s.tab.clients 0 = 1 ∧ DirsAligned s.mem := by
  obtain ⟨s, r, hc⟩ := Sample.run_openA
  exact ⟨s, hc, (dirs_aligned (Sample.sized_disk (fun _ => rfl) False.elim) rfl r).1⟩

-- The size of the root directory is set to 1.
theorem not_dirs_aligned : ¬∀ {s₀ s : Serv}, Sized DirLaw s₀.mem → s₀.tab = .init →
    Run Serv.Step (fun _ _ => True) s₀ s → DirsAligned s.mem := by
  intro h
  have hx : (Sample.openThen Sample.pageRoot .setSize 1#32 Sample.serv).okAnd fun _ s =>
      s.mem.load32 (fType sRoot) = FTYPE_DIR ∧ s.mem.load32 (fSize sRoot) = 1#32 := by
    decide +kernel
  obtain ⟨⟨⟩, s, hx, hs⟩ := Outcome.exists_of_okAnd hx
  simp only [decide_eq_true_iff] at hs
  have ha := (h (Sample.sized_disk (fun _ => rfl) False.elim) rfl (Sample.run_openThen hx) sRoot .root
    hs.1).1
  rw [hs.2] at ha
  exact absurd ha (by decide)

-- The size of a file is in range.
def RangeLaw : SizeLaw := fun _ size => size.toNat ≤ MAXFILESIZE

-- The number of blocks is computed without overflow: the block `k` is counted where it has bytes.
def Counts (size : Word) : Prop :=
  (size + 4096#32 - 1#32).toInt = size.toInt + BLKSIZE - 1 ∧
    ∀ k, k < (blocksFor size).toNat ↔ k * BLKSIZE < size.toNat

-- The sizes that a request hands to `file_set_size`.
def Serv.NewSize (s : Serv) : Event → Word → Prop
  | .request .open page _ _, v    => page.load32 MAXPATHLEN &&& O_TRUNC ≠ 0#32 ∧ v = 0#32
  | .request .setSize page _ _, v => ∃ i, s.file page = some i ∧ v = page.load32 4
  | .request .write page _ _, v   => ∃ i, s.file page = some i ∧
    v = (s.oFd i).fdOffset + page.load32 4 ∧ s.mem.load32 (fSize (s.oFile i)) < v
  | _, _                          => False

theorem counts (hv : v.toNat ≤ MAXFILESIZE) : Counts v := by
  have hM : MAXFILESIZE = 1034 * 4096 := by decide
  constructor
  case left =>
    have ha : (v + 4096#32 - 1#32).toNat = v.toNat + 4095 := by
      rw [BitVec.toNat_sub, BitVec.toNat_add]
      simp only [BitVec.toNat_ofNat]
      omega
    rw [BitVec.toInt_eq_toNat_cond, BitVec.toInt_eq_toNat_cond, ha, if_pos (by omega),
      if_pos (by omega), BLKSIZE]
    omega
  case right =>
    intro k
    rw [blocksFor_toNat hv, blocks, BLKSIZE]
    omega

def SizesInRange (m : Memory) : Prop := ∀ f, Reach m f → 0 ≤ (m.load32 (fSize f)).toInt ∧
  (m.load32 (fSize f)).toInt ≤ MAXFILESIZE ∧ Counts (m.load32 (fSize f))

-- In a run whose requests set no size above `MAXFILESIZE`, all sizes are in range and the numbers of
-- blocks are right.
theorem sizes_in_range {s₀ : Serv} (h : Sized RangeLaw s₀.mem) (ht : s₀.tab = .init)
    (r : Run Serv.Step (Serv.Sizing RangeLaw) s₀ s) :
    SizesInRange s.mem ∧ ∀ ev v, s.Sizing RangeLaw ev → s.NewSize ev v → Counts v := by
  have hM : MAXFILESIZE = 1034 * 4096 := by decide
  have hi := Serv.Inv.run h ht (Nat.zero_le _) r
  constructor
  case left =>
    intro f hf
    have hs : (s.mem.load32 (fSize f)).toNat ≤ MAXFILESIZE := hi.sized.sizes f hf
    rw [BitVec.toInt_eq_toNat_cond, if_pos (by omega)]
    exact ⟨Int.natCast_nonneg _, Int.ofNat_le.mpr hs, counts hs⟩
  case right =>
    intro ev v hc hn
    cases ev
    case map => exact hn.elim
    case unmap => exact hn.elim
    case poke => exact hn.elim
    case request code page noMem maps =>
      cases code
      case «open» => exact hn.2 ▸ counts (Nat.zero_le _)
      case setSize =>
        obtain ⟨i, hi, rfl⟩ := hn
        exact counts (hc i hi).2
      case write =>
        obtain ⟨i, hi, rfl, hlt⟩ := hn
        exact counts ((hc i hi).2.2 hlt)
      all_goals exact hn.elim

theorem Sample.sized_range : Sized RangeLaw disk := by
  have hM : MAXFILESIZE = 1034 * 4096 := by decide
  refine sized_disk ?_ ?_ <;> rw [RangeLaw, hM] <;> decide

theorem sizes_in_range_openA : ∃ s : Serv, s.tab.clients 0 = 1 ∧ SizesInRange s.mem := by
  obtain ⟨s, r, hc⟩ := Sample.run_openA
  exact ⟨s, hc, (sizes_in_range Sample.sized_range rfl r).1⟩

-- The size of `/a` is set to -1.
theorem not_sizes_in_range : ¬∀ {s₀ s : Serv}, Sized RangeLaw s₀.mem → s₀.tab = .init →
    Run Serv.Step (fun _ _ => True) s₀ s → SizesInRange s.mem := by
  intro h
  have hx : (Sample.openThen Sample.pageA .setSize 0xFFFFFFFF#32 Sample.serv).okAnd fun _ s =>
      (s.mem.load32 (fType sRoot) = FTYPE_DIR ∧ nblock s.mem sRoot = 1) ∧
        (ptr s.mem sRoot 0 = 3#32 ∧ s.mem Sample.fileA ≠ 0#8) ∧
        s.mem.load32 (fSize Sample.fileA) = 0xFFFFFFFF#32 := by
    decide +kernel
  obtain ⟨⟨⟩, s, hx, hs⟩ := Outcome.exists_of_okAnd hx
  simp only [decide_eq_true_iff] at hs
  obtain ⟨⟨hd, hn⟩, ⟨hp, hne⟩, hsize⟩ := hs
  have hslot : slot s.mem sRoot 0 0 = Sample.fileA := by
    rw [slot, hp]
    decide
  have hf : Reach s.mem Sample.fileA := by
    rw [← hslot] at hne ⊢
    exact .entry .root hd ⟨by omega, by decide, by rw [hp]; decide⟩ (by decide) hne
  have hr := (h Sample.sized_range rfl (Sample.run_openThen hx) _ hf).1
  rw [hsize] at hr
  exact absurd hr (by decide)

end Fs

import Sisop.Lib.Theorems.MapSegment

namespace Lib.Spawn

open Library

-- Before a call of `spawn` with the given pages.
def State.initial (parent : Space) : State := ⟨parent, .empty, false, false, [], []⟩

-- What `spawn` goes by.
structure Call where
  ans : Answers
  file : List Byte
  argv : List (List Byte)
  stack : Memory

namespace Call

variable (c : Call)

def phoff : Nat := e_phoff c.file c.stack
def phnum : Nat := e_phnum c.file c.stack

def load (k : Nat) : Prop := isLoad c.file c.stack k

instance : DecidablePred c.load := fun _ => inferInstanceAs (Decidable (isLoad _ _ _))

-- The program is there, and it starts as it should.
def Opened : Prop :=
  0 ≤ c.ans.open_ ∧ 0 ≤ c.ans.header ∧ 512 ≤ c.file.length ∧ e_magic c.file c.stack = ELF_MAGIC

-- The child is there with its stack.
def Forked : Prop :=
  0 ≤ c.ans.exofork ∧ ¬Refused c.argv ∧ 0 ≤ c.ans.stackAlloc ∧ 0 ≤ c.ans.stackMap

instance : Decidable c.Opened := inferInstanceAs (Decidable (_ ∧ _ ∧ _ ∧ _))
instance : Decidable c.Forked := inferInstanceAs (Decidable (_ ∧ ¬_ < _ ∧ _ ∧ _))

-- The segment of a program header.
def seg (k : Nat) : Segment where
  ans := c.ans.page k
  file := c.file
  va := (headerWord c.file c.stack k 8).toNat
  memsz := (headerWord c.file c.stack k 20).toNat
  filesz := (headerWord c.file c.stack k 16).toNat
  fileoffset := (headerWord c.file c.stack k 4).toNat
  perm := PTE_P + PTE_U + if headerWord c.file c.stack k 24 &&& ELF_PROG_FLAG_WRITE ≠ 0 then PTE_W else 0

-- There is nothing to load, or all of its pages get into the child.
def HeaderOk (k : Nat) : Prop :=
  c.load k → ∀ j, PGSIZE * j < (c.seg k).memEnd → (c.seg k).PageOk j

-- The offsets in `elf_buf` that are read for a program header.
def reads (k : Nat) : List Nat :=
  (0 :: if c.load k then [24, 8, 20, 16, 4] else []).map (headerField c.file c.stack k)

-- From the program header `k` on, the page `j` of the program header `i` is the first that fails.
structure Fails (k i j : Nat) : Prop where
  le      : k ≤ i
  load    : c.load i
  before  : ∀ h, k ≤ h → h < i → c.HeaderOk h
  reached : (c.seg i).Reached 0 j
  notOk   : ¬(c.seg i).PageOk j

def loop (n k : Nat) : Prog State Int Unit := segments c.ans c.file c.stack n k

def run : Prog State Int Int := spawn c.ans c.file c.argv c.stack

-- The words that are read for the program headers from `k` on and before `m`.
def HaveRead (k m : Nat) (s s' : State) : Prop :=
  ∀ o, o ∈ s'.headerReads ↔ o ∈ s.headerReads ∨ ∃ h, k ≤ h ∧ h < m ∧ o ∈ c.reads h

-- Everything is released.
def Released (s : State) : Prop := s.childExists = false ∧ s.fdOpen = false ∧ s.utemp = none

-- A failure of `spawn` leaves nothing behind.
def Clean (parent : Space) : Prop :=
  c.run.wp True (fun e s => e < 0 ∧ Released s) (fun _ _ => True) (.initial parent)

-- The program headers are in the part of the file that is read.
def TableFits : Prop := c.phnum = 0 ∨ c.phoff + 32 * c.phnum ≤ 512

instance : Decidable c.TableFits := inferInstanceAs (Decidable (_ ∨ _))

def Inside (s : State) : Prop := ∀ o ∈ s.headerReads, o + 4 ≤ 512

-- `spawn` reads no program header outside of `elf_buf`, and it refuses a table that does not fit.
def Safe (parent : Space) : Prop :=
  c.run.wp c.TableFits (fun e s => e < 0 ∧ Inside s) (fun _ s => c.TableFits ∧ Inside s) (.initial parent)

variable {c} {parent : Space} {i j k m n o : Nat} {s s' : State}

section Loop

theorem headerSegment_eq : headerSegment c.ans c.file c.stack k = (c.seg k).map := rfl

theorem readHeader_wp {os : List Nat} {P : Prop} {E : Int → State → Prop} {Q : Unit → State → Prop} :
    (readHeader c.file c.stack k os).wp P E Q s ↔
      Q () { s with headerReads := s.headerReads ++ os.map (headerField c.file c.stack k) } := Iff.rfl

theorem Fails.not_headerOk (h : c.Fails k i j) : ¬c.HeaderOk i :=
  fun hok => h.notOk (hok h.load j h.reached.inside)

-- The first page that fails is the same for all.
theorem Fails.unique {i' j' : Nat} (h : c.Fails k i j) (h' : c.Fails k i' j') : i = i' ∧ j = j' := by
  obtain hlt | rfl | hlt := Nat.lt_trichotomy i i'
  · exact absurd (h'.before i h.le hlt) h.not_headerOk
  · exact ⟨rfl, h.reached.unique h.notOk h'.reached h'.notOk⟩
  · exact absurd (h.before i' h'.le hlt) h'.not_headerOk

theorem Fails.prepend (hk : c.HeaderOk k) (h : c.Fails (k + 1) i j) : c.Fails k i j := by
  refine ⟨Nat.le_of_succ_le h.le, h.load, fun x hx hi => ?_, h.reached, h.notOk⟩
  obtain rfl | hx := Nat.eq_or_lt_of_le hx
  · exact hk
  · exact h.before x hx hi

-- A program header, and then the others.
theorem HaveRead.prepend {s₁ : State} (h₁ : s₁.headerReads = s.headerReads ++ c.reads k) (hk : k < m)
    (h : c.HaveRead (k + 1) m s₁ s') : c.HaveRead k m s s' := by
  intro o
  rw [h o, h₁, List.mem_append, or_assoc]
  refine or_congr_right ⟨?_, ?_⟩
  · rintro (ho | ⟨x, hx, hm, ho⟩)
    · exact ⟨k, Nat.le_refl k, hk, ho⟩
    · exact ⟨x, Nat.le_of_succ_le hx, hm, ho⟩
  · rintro ⟨x, hx, hm, ho⟩
    obtain rfl | hx := Nat.eq_or_lt_of_le hx
    · exact .inl ho
    · exact .inr ⟨x, hx, hm, ho⟩

theorem HaveRead.refl (h : s'.headerReads = s.headerReads) : c.HaveRead k k s s' := by
  intro o
  rw [h]
  refine ⟨.inl, Or.rec id ?_⟩
  rintro ⟨x, hx, hk, _⟩
  omega

-- What is known of a run of the loop that has failed.
structure Stopped (c : Call) (k m : Nat) (s s' : State) : Prop where
  childExists : s'.childExists = false
  fdOpen      : s'.fdOpen = false
  page        : ∃ i j, i < m ∧ c.Fails k i j ∧ ¬(c.seg i).PagePanics j ∧
    (s'.utemp = none ↔ ¬(c.seg i).Torn j) ∧ c.HaveRead k (i + 1) s s'

theorem Stopped.prepend {s₁ : State} (h₁ : s₁.headerReads = s.headerReads ++ c.reads k) (hk : c.HeaderOk k)
    (h : c.Stopped (k + 1) m s₁ s') : c.Stopped k m s s' := by
  obtain ⟨i, j, hi, hf, hp, hu, hr⟩ := h.page
  exact ⟨h.childExists, h.fdOpen, i, j, hi, hf.prepend hk, hp, hu, hr.prepend h₁ (by have := hf.le; omega)⟩

theorem loop_wp (hu : s.utemp = none) :
    (c.loop n k).wp (∃ i j, i < k + n ∧ c.Fails k i j ∧ (c.seg i).PagePanics j)
      (fun e s' => e < 0 ∧ c.Stopped k (k + n) s s')
      (fun _ s' => (∀ i, k ≤ i → i < k + n → c.HeaderOk i) ∧ c.HaveRead k (k + n) s s') s := by
  induction n generalizing k s
  case zero => exact ⟨fun i h₁ h₂ => absurd h₁ (Nat.not_le.mpr h₂), .refl rfl⟩
  case succ n hi =>
    -- The rest of the loop, once the program header has been dealt with.
    have hrest {s₁ : State} (hu : s₁.utemp = none) (h₁ : s₁.headerReads = s.headerReads ++ c.reads k)
        (hk : c.HeaderOk k) : (c.loop n (k + 1)).wp
        (∃ i j, i < k + (n + 1) ∧ c.Fails k i j ∧ (c.seg i).PagePanics j)
        (fun e s' => e < 0 ∧ c.Stopped k (k + (n + 1)) s s')
        (fun _ s' => (∀ i, k ≤ i → i < k + (n + 1) → c.HeaderOk i) ∧ c.HaveRead k (k + (n + 1)) s s')
        s₁ := by
      have he : k + 1 + n = k + (n + 1) := by omega
      have h := hi (k := k + 1) hu
      rw [he] at h
      refine h.mono (fun h => ?_) (fun e s' h => ?_) fun _ s' h => ?_
      · obtain ⟨i, j, hlt, hf, hp⟩ := h
        exact ⟨i, j, hlt, hf.prepend hk, hp⟩
      · exact ⟨h.1, h.2.prepend h₁ hk⟩
      · refine ⟨fun i hle hlt => ?_, h.2.prepend h₁ (by omega)⟩
        obtain rfl | hle := Nat.eq_or_lt_of_le hle
        · exact hk
        · exact h.1 i hle hlt
    rw [loop, segments, Prog.wp_bind, readHeader_wp]
    by_cases hl : isLoad c.file c.stack k
    case neg =>
      rw [if_neg hl]
      have hreads : c.reads k = [0].map (headerField c.file c.stack k) := by
        rw [reads, if_neg (show ¬c.load k from hl)]
      exact hrest hu (by rw [hreads]) fun h => absurd h hl
    case pos =>
      rw [if_pos hl, Prog.wp_bind, readHeader_wp, Prog.wp_bind, Prog.wp_attempt, headerSegment_eq]
      have hreads : c.reads k = [0].map (headerField c.file c.stack k) ++
          [24, 8, 20, 16, 4].map (headerField c.file c.stack k) := by
        rw [reads, if_pos (show c.load k from hl)]
        rfl
      have hva : (c.seg k).va < 2 ^ 32 := (headerWord c.file c.stack k 8).isLt
      have hnone (x) (h₁ : k ≤ x) (h₂ : x < k) : c.HeaderOk x := absurd h₁ (Nat.not_le.mpr h₂)
      refine (Segment.map_wp hva).mono (fun h => ?_) (fun e s' h => ?_) fun b s' h => ?_
      · obtain ⟨j, hr, hp⟩ := h
        exact ⟨k, j, by omega, ⟨Nat.le_refl k, hl, hnone, hr, hp.not_ok⟩, hp⟩
      · obtain ⟨he, hk, j, hr, hok, hp, ht⟩ := h
        refine ⟨he, rfl, rfl, k, j, by omega, ⟨Nat.le_refl k, hl, hnone, hr, hok⟩, hp, ?_, ?_⟩
        · obtain ⟨ht, hs⟩ | ⟨ht, hs⟩ := ht
          · exact ⟨fun _ => ht, fun _ => hs.elim (fun h => h.trans hu) id⟩
          · exact ⟨fun h => absurd h hs, fun h => absurd ht h⟩
        · have hs' : s'.headerReads = s.headerReads ++ c.reads k := by
            rw [hk.headerReads, hreads, List.append_assoc]
          exact .prepend hs' (Nat.lt_succ_self k) (.refl rfl)
      · obtain ⟨_, hall, hl'⟩ := h
        refine hrest (hl'.utemp.elim (fun h => h.trans hu) id) ?_ fun _ => hall
        rw [hl'.kept.headerReads, hreads, List.append_assoc]

end Loop

section Run

theorem setParent_headerReads {y : Option Mapping} : (s.setParent k y).headerReads = s.headerReads := rfl

theorem setChild_headerReads {y : Option Mapping} : (s.setChild k y).headerReads = s.headerReads := rfl

-- How a call of `spawn` fails.
inductive Failure (c : Call) (parent : Space) (s : State) : Prop
  | early (ho : ¬c.Opened) (hs : s.childExists = false ∧ s.fdOpen = false) (hr : s.headerReads = [])
      (hu : s.utemp = parent.pages (UTEMP / PGSIZE))
  | leaky (ho : c.Opened) (hf : ¬c.Forked) (hs : s.fdOpen = true) (hr : s.headerReads = [])
  | segment (ho : c.Opened) (hf : c.Forked) (s₁ : State) (hr : s₁.headerReads = [])
      (h : c.Stopped 0 c.phnum s₁ s)

theorem run_wp : c.run.wp
    (c.Opened ∧ c.Forked ∧ ∃ i j, i < c.phnum ∧ c.Fails 0 i j ∧ (c.seg i).PagePanics j)
    (fun e s => e < 0 ∧ c.Failure parent s)
    (fun _ s => c.Opened ∧ c.Forked ∧ (∀ i < c.phnum, c.HeaderOk i) ∧
      ∃ s₁ : State, s₁.headerReads = [] ∧ c.HaveRead 0 c.phnum s₁ s) (.initial parent) := by
  rw [run, spawn, Prog.wp_ite, Prog.wp_throw]
  refine ⟨fun h => ⟨h, .early (fun ho => ?_) ⟨rfl, rfl⟩ rfl rfl⟩, fun hopen => ?_⟩
  · exact absurd h (Int.not_lt.mpr ho.1)
  rw [Prog.wp_bind, Prog.wp_modify, Prog.wp_ite]
  refine ⟨fun h => ?_, fun hhead => ?_⟩
  · rw [Prog.wp_bind, Prog.wp_modify, Prog.wp_throw]
    refine ⟨by decide, .early (fun ho => ?_) ⟨rfl, rfl⟩ rfl rfl⟩
    obtain ⟨_, h₁, h₂, h₃⟩ := ho
    exact h.elim (Int.not_lt.mpr h₁) (Or.rec (Nat.not_lt.mpr h₂) fun h => h h₃)
  have ho : c.Opened := by
    rw [not_or, not_or, Int.not_lt, Nat.not_lt, not_not] at hhead
    exact ⟨Int.not_lt.mp hopen, hhead⟩
  rw [Prog.wp_ite, Prog.wp_throw]
  refine ⟨fun h => ⟨h, .leaky ho (fun hf => absurd h (Int.not_lt.mpr hf.1)) rfl rfl⟩, fun hfork => ?_⟩
  rw [Prog.wp_bind, Prog.wp_modify, Prog.wp_bind]
  generalize hs₂ : ({ State.initial parent with
    fdOpen := true, childExists := true, child := .empty } : State) = s₂
  have hs₂ : s₂.fdOpen = true ∧ s₂.headerReads = [] := by
    rw [← hs₂]
    exact ⟨rfl, rfl⟩
  have ⟨m, hm⟩ : ∃ m, (stackState c.argv s₂).utemp = some ⟨m, PTE_P + PTE_U + PTE_W⟩ := stackState_utemp
  have hst : Stored _ (stackState c.argv s₂) := stackState_stored
  rw [init_stack_wp hm]
  refine ⟨fun h => ?_, fun hr => ⟨fun h => ?_, fun hal => ⟨fun h => ?_, fun hmap => ?_⟩⟩⟩
  · exact ⟨by decide, .leaky ho (fun hf => hf.2.1 h) hs₂.1 hs₂.2⟩
  · exact ⟨h, .leaky ho (fun hf => absurd h (Int.not_lt.mpr hf.2.2.1)) hs₂.1 hs₂.2⟩
  · refine ⟨h, .leaky ho (fun hf => absurd h (Int.not_lt.mpr hf.2.2.2)) ?_ ?_⟩
    · exact hst.fdOpen.trans hs₂.1
    · exact hst.headerReads.trans hs₂.2
  have hf : c.Forked := ⟨Int.not_lt.mp hfork, hr, hal, hmap⟩
  rw [Prog.wp_bind]
  generalize hs₁ : ((stackState c.argv s₂).setChild _ _).setParent _ _ = s₁
  have hu : s₁.utemp = none := by
    rw [← hs₁]
    exact utemp_setParent
  have hst₂ : (stackState c.argv s₂).headerReads = [] := hst.headerReads.trans hs₂.2
  have hreads : s₁.headerReads = [] := by
    rw [← hs₁, setParent_headerReads, setChild_headerReads, hst₂]
  refine (loop_wp (c := c) (n := c.phnum) (k := 0) hu).mono (fun h => ?_) (fun e s h => ?_)
    fun _ s h => ?_
  · rw [Nat.zero_add] at h
    exact ⟨ho, hf, h⟩
  · rw [Nat.zero_add] at h
    exact ⟨h.1, .segment ho hf _ hreads h.2⟩
  · rw [Nat.zero_add] at h
    exact ⟨ho, hf, fun i => h.1 i (Nat.zero_le i), _, hreads, h.2⟩

end Run

theorem TableFits.reads (h : c.TableFits) (hk : k < c.phnum) (ho : o ∈ c.reads k) : o + 4 ≤ 512 := by
  have h := h.resolve_left (Nat.ne_of_gt (Nat.zero_lt_of_lt hk))
  obtain ⟨x, hx, rfl⟩ := List.mem_map.mp ho
  have hx : x ≤ 24 := by
    split at hx
    · simp only [List.mem_cons, List.not_mem_nil, or_false] at hx
      omega
    · rw [List.mem_singleton] at hx
      omega
  have hp : e_phoff c.file c.stack + 32 * c.phnum ≤ 512 := h
  rw [headerField, add]
  omega

theorem HaveRead.inside {s₁ : State} (h₁ : s₁.headerReads = []) (h : c.HaveRead 0 m s₁ s) :
    Inside s ↔ ∀ i < m, ∀ o ∈ c.reads i, o + 4 ≤ 512 := by
  have hmem (o) : o ∈ s.headerReads ↔ ∃ i < m, o ∈ c.reads i := by
    rw [h o, h₁]
    constructor
    · rintro (ho | ⟨i, _, hi, ho⟩)
      · cases ho
      · exact ⟨i, hi, ho⟩
    · exact fun ⟨i, hi, ho⟩ => .inr ⟨i, Nat.zero_le i, hi, ho⟩
  constructor
  · exact fun hin i hi o ho => hin o ((hmem o).mpr ⟨i, hi, ho⟩)
  · intro hin o ho
    obtain ⟨i, hi, ho⟩ := (hmem o).mp ho
    exact hin i hi o ho

-- A failure comes before the program headers outside of `elf_buf`.
structure StopsInside (c : Call) (i j : Nat) : Prop where
  lt     : i < c.phnum
  fails  : c.Fails 0 i j
  error  : ¬(c.seg i).PagePanics j
  inside : ∀ h ≤ i, ∀ o ∈ c.reads h, o + 4 ≤ 512

end Call

section Sample

attribute [local irreducible] Call.Clean

-- An executable without program headers but for the given fields of its header.
def executable (e_phoff e_phnum : Byte) : List Byte :=
  [0x7F, 0x45, 0x4C, 0x46] ++ List.replicate 24 0 ++ [0, e_phoff] ++ List.replicate 14 0 ++ [e_phnum] ++
    List.replicate 467 0

-- The kernel gives the child the number `e` or fails with it.
def answers (e : Int) : Answers := ⟨0, 512, e, 0, 0, fun _ _ => Segment.granted⟩

end Sample

end Lib.Spawn

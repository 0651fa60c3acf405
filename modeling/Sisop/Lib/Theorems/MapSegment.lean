import Sisop.Lib.Theorems.InitStack

namespace Lib.Spawn

open Library

-- A segment as `map_segment` is given it, with what is needed to load it.
structure Segment where
  ans : Nat → PageAnswer
  file : List Byte
  va : Nat
  memsz : Nat
  filesz : Nat
  fileoffset : Nat
  perm : Nat

namespace Segment

variable (g : Segment)

-- What the function makes of its arguments, with the segment starting at the start of a page.
def start : Nat := sub g.va (PGOFF g.va)
def memEnd : Nat := add g.memsz (PGOFF g.va)
def fileEnd : Nat := add g.filesz (PGOFF g.va)
def fileStart : Nat := sub g.fileoffset (PGOFF g.va)

-- The address of a page of the segment, and where its contents are in the file.
def addr (j : Nat) : Nat := add g.start (PGSIZE * j)
def seek (j : Nat) : Int := off (add g.fileStart (PGSIZE * j))

-- The page is not in the file.
def isBlank (j : Nat) : Prop := g.fileEnd ≤ PGSIZE * j

instance : DecidablePred g.isBlank := fun _ => inferInstanceAs (Decidable (_ ≤ _))

-- The page is to be read from the file, and it is.
def PageRead (j : Nat) : Prop :=
  ¬g.isBlank j ∧ 0 ≤ (g.ans j).alloc ∧ 0 ≤ g.seek j ∧ 0 ≤ (g.ans j).read

-- The page gets into the child.
def PageOk (j : Nat) : Prop :=
  (g.isBlank j ∧ 0 ≤ (g.ans j).alloc ∨ g.PageRead j ∧ 0 ≤ (g.ans j).map) ∧ g.addr j < UTOP

-- The page has been read, but cannot be mapped.
def PagePanics (j : Nat) : Prop := g.PageRead j ∧ ((g.ans j).map < 0 ∨ UTOP ≤ g.addr j)

-- The page is at `UTEMP`, but it cannot be read.
def Torn (j : Nat) : Prop :=
  ¬g.isBlank j ∧ 0 ≤ (g.ans j).alloc ∧ (g.seek j < 0 ∨ (g.ans j).read < 0)

-- What a page of the segment is in the child.
def mapping (j : Nat) : Mapping where
  page x :=
    if x < min PGSIZE (g.fileEnd - PGSIZE * j) ∧ (g.seek j).toNat + x < g.file.length then
      g.file.getD ((g.seek j).toNat + x) 0
    else 0
  perm := g.perm

def page (j : Nat) : Prog State Int Unit :=
  segmentPage g.ans g.file g.start g.fileEnd g.fileStart g.perm (PGSIZE * j)

def loop (n j : Nat) : Prog State Int Bool :=
  segmentLoop g.ans g.file g.start g.memEnd g.fileEnd g.fileStart g.perm n (PGSIZE * j)

def map : Prog State Int Bool := map_segment g.ans g.file g.va g.memsz g.filesz g.fileoffset g.perm

end Segment

variable {g : Segment} {j k n p : Nat} {s s' : State} {P : Prop} {E : Int → State → Prop}

-- The state with the page in the child. A page of the file goes through `UTEMP`.
def Segment.done (g : Segment) (j : Nat) (s : State) : State :=
  if g.isBlank j then s.setChild (g.addr j / PGSIZE) (some (g.mapping j))
  else (s.setChild (g.addr j / PGSIZE) (some (g.mapping j))).setParent (UTEMP / PGSIZE) none

-- A failure: the parent has at most something else at `UTEMP`.
structure Failed (s s' : State) : Prop where
  child       : s'.child = s.child
  parent      : ∀ p ≠ UTEMP / PGSIZE, s'.parent.pages p = s.parent.pages p
  childExists : s'.childExists = s.childExists
  fdOpen      : s'.fdOpen = s.fdOpen
  headerReads : s'.headerReads = s.headerReads

theorem Failed.refl : Failed s s := ⟨rfl, fun _ _ => rfl, rfl, rfl, rfl⟩

theorem failed_setParent {z : Option Mapping} (h : Failed s s') : Failed s (s'.setParent (UTEMP / PGSIZE) z) :=
  ⟨h.child, fun p hp => (Space.set_ne hp).trans (h.parent p hp), h.childExists, h.fdOpen, h.headerReads⟩

theorem Space.ext {x y : Space} (h : ∀ p, x.pages p = y.pages p) : x = y := by
  obtain ⟨_, _⟩ := x
  obtain ⟨_, _⟩ := y
  cases funext h
  rfl

theorem setParent_setParent {y z : Option Mapping} : (s.setParent p y).setParent p z = s.setParent p z := by
  have h : (s.parent.set p y).set p z = s.parent.set p z := by
    refine Space.ext fun q => ?_
    by_cases hq : q = p ∧ p < UTOP / PGSIZE
    case pos => exact (if_pos hq).trans (if_pos hq).symm
    case neg => exact (if_neg hq).trans ((if_neg hq).trans (if_neg hq).symm)
  rw [State.setParent, State.setParent, State.setParent, h]

theorem allocChild_wp {Q : Unit → State → Prop} {answer : Int} {va perm : Nat} :
    (allocChild answer va perm).wp P E Q s ↔ (UTOP ≤ va → E (-E_INVAL) s) ∧ (va < UTOP →
      (answer < 0 → E answer s) ∧ (0 ≤ answer → Q () (s.setChild (va / PGSIZE) (some (blank perm))))) := by
  rw [allocChild, Prog.wp_bind, check_wp]
  rfl

theorem readTemp_wp {Q : Unit → State → Prop} {ans : PageAnswer} {file : List Byte} {offset : Int} {y : Mapping}
    (hu : s.utemp = some y) : (readTemp ans file offset n).wp P E Q s ↔
      (offset < 0 → E (-E_INVAL) s) ∧ (0 ≤ offset →
        (ans.read < 0 → E ans.read (s.setParent (UTEMP / PGSIZE)
          (some ⟨fun x => if x < n then ans.torn x else y.page x, y.perm⟩))) ∧
        (0 ≤ ans.read → Q () (s.setParent (UTEMP / PGSIZE) (some ⟨fun x =>
          if x < n ∧ offset.toNat + x < file.length then file.getD (offset.toNat + x) 0 else y.page x,
          y.perm⟩)))) := by
  simp only [readTemp, Prog.wp_ite, Prog.wp_throw, Prog.wp_bind, Prog.wp_modify, hu, Option.map_some, not_lt]

theorem segment_index : PGSIZE * j / PGSIZE = j := Nat.mul_div_cancel_left j (by decide)

-- One page: it is mapped, or the call that failed says what is left.
theorem page_wp : (g.page j).wp (g.PagePanics j)
    (fun e s' => e < 0 ∧ ¬g.PageOk j ∧ ¬g.PagePanics j ∧ Failed s s' ∧
      (¬g.Torn j ∧ s'.utemp = s.utemp ∨ g.Torn j ∧ s'.utemp ≠ none))
    (fun _ s' => g.PageOk j ∧ s' = g.done j s) s := by
  rw [Segment.page, segmentPage, segment_index]
  by_cases hb : g.isBlank j
  case pos =>
    rw [if_pos (show g.fileEnd ≤ PGSIZE * j from hb), allocChild_wp]
    have hnr : ¬g.PageRead j := fun h => h.1 hb
    have hnt : ¬g.Torn j := fun h => h.1 hb
    have hnp : ¬g.PagePanics j := fun h => hnr h.1
    refine ⟨fun ha => ?_, fun ha => ⟨fun hal => ?_, fun hal => ?_⟩⟩
    · exact ⟨by decide, fun h => absurd h.2 (Nat.not_lt.mpr ha), hnp, .refl, .inl ⟨hnt, rfl⟩⟩
    · refine ⟨hal, fun h => ?_, hnp, .refl, .inl ⟨hnt, rfl⟩⟩
      obtain ⟨⟨_, h⟩ | ⟨h, _⟩, _⟩ := h
      · omega
      · exact hnr h
    · refine ⟨⟨.inl ⟨hb, hal⟩, ha⟩, ?_⟩
      have hm : blank g.perm = g.mapping j := by
        refine congrArg (Mapping.mk · g.perm) (funext fun x => (if_neg ?_).symm)
        have hb : g.fileEnd ≤ PGSIZE * j := hb
        omega
      rw [Segment.done, if_pos hb, hm]
      rfl
  case neg =>
    rw [if_neg (show ¬g.fileEnd ≤ PGSIZE * j from hb), Prog.wp_bind, allocTemp_wp]
    have hok : ¬g.PageRead j → ¬g.PageOk j := fun hr h => h.1.elim (fun h => hb h.1) fun h => hr h.1
    refine ⟨fun hal => ?_, fun hal => ?_⟩
    · have hnr : ¬g.PageRead j := fun h => absurd h.2.1 (Int.not_le.mpr hal)
      exact ⟨hal, hok hnr, fun h => hnr h.1, .refl, .inl ⟨fun h => absurd h.2.1 (Int.not_le.mpr hal), rfl⟩⟩
    rw [Prog.wp_bind, readTemp_wp utemp_setParent]
    refine ⟨fun hs => ?_, fun hs => ⟨fun hr => ?_, fun hr => ?_⟩⟩
    · have hnr : ¬g.PageRead j := fun h => absurd h.2.2.1 (Int.not_le.mpr hs)
      refine ⟨by decide, hok hnr, fun h => hnr h.1, failed_setParent .refl, .inr ⟨⟨hb, hal, .inl hs⟩, ?_⟩⟩
      rw [utemp_setParent]
      exact nofun
    · have hnr : ¬g.PageRead j := fun h => absurd h.2.2.2 (Int.not_le.mpr hr)
      refine ⟨hr, hok hnr, fun h => hnr h.1, failed_setParent (failed_setParent .refl),
        .inr ⟨⟨hb, hal, .inr hr⟩, ?_⟩⟩
      rw [utemp_setParent]
      exact nofun
    have hread : g.PageRead j := ⟨hb, hal, hs, hr⟩
    rw [Prog.wp_bind, Prog.wp_attempt, mapChild_wp utemp_setParent]
    refine ⟨fun ha => ⟨hread, .inr ha⟩, fun ha => ⟨fun hm => ⟨hread, .inl hm⟩, fun hm => ?_⟩⟩
    refine ⟨⟨.inr ⟨hread, hm⟩, ha⟩, ?_⟩
    rw [Segment.done, if_neg hb, setParent_setParent]
    exact setParent_setParent (s := s.setChild (g.addr j / PGSIZE) (some (g.mapping j)))

-- What neither the pages that have been mapped nor a failure change.
structure Kept (s s' : State) : Prop where
  parent      : ∀ p ≠ UTEMP / PGSIZE, s'.parent.pages p = s.parent.pages p
  childExists : s'.childExists = s.childExists
  fdOpen      : s'.fdOpen = s.fdOpen
  headerReads : s'.headerReads = s.headerReads

theorem Failed.kept (h : Failed s s') : Kept s s' := ⟨h.parent, h.childExists, h.fdOpen, h.headerReads⟩

theorem Kept.trans {s'' : State} (h : Kept s s') (h' : Kept s' s'') : Kept s s'' :=
  ⟨fun p hp => (h'.parent p hp).trans (h.parent p hp), h'.childExists.trans h.childExists,
    h'.fdOpen.trans h.fdOpen, h'.headerReads.trans h.headerReads⟩

namespace Segment

-- The pages from `j` on, up to `k`, which is a page of the segment, get into the child.
structure Reached (g : Segment) (j k : Nat) : Prop where
  le     : j ≤ k
  inside : PGSIZE * k < g.memEnd
  before : ∀ i, j ≤ i → i < k → g.PageOk i

-- The pages from `j` on are in the child.
structure Loaded (g : Segment) (j : Nat) (s s' : State) : Prop where
  mapped : ∀ k ≥ j, PGSIZE * k < g.memEnd → s'.child.pages (g.start / PGSIZE + k) = some (g.mapping k)
  others : ∀ p, (∀ k ≥ j, PGSIZE * k < g.memEnd → p ≠ g.start / PGSIZE + k) →
    s'.child.pages p = s.child.pages p
  kept   : Kept s s'
  utemp  : s'.utemp = s.utemp ∨ s'.utemp = none

-- The addresses of the pages up to `j` do not wrap around.
def NoWrap (g : Segment) (j : Nat) : Prop := g.start < 2 ^ 32 ∧ g.start % PGSIZE = 0 ∧
  (j = 0 ∨ g.start + PGSIZE * j ≤ UTOP)

theorem NoWrap.addr (hw : g.NoWrap j) (h : g.PageOk j) : g.addr j = g.start + PGSIZE * j := by
  have ha : (g.start + PGSIZE * j) % 2 ^ 32 < UTOP := h.2
  obtain ⟨hs, _, hw⟩ := hw
  rw [Segment.addr, add]
  rw [PGSIZE_eq, UTOP_eq] at *
  omega

theorem NoWrap.next (hw : g.NoWrap j) (h : g.PageOk j) : g.NoWrap (j + 1) := by
  have ha : g.addr j < UTOP := h.2
  rw [hw.addr h] at ha
  obtain ⟨hs, ho, hw⟩ := hw
  refine ⟨hs, ho, .inr ?_⟩
  rw [PGSIZE_eq, UTOP_eq] at *
  omega

theorem NoWrap.lt (hw : g.NoWrap j) : j + 1 < 2 ^ 20 := by
  obtain ⟨hs, ho, hw⟩ := hw
  rw [PGSIZE_eq, UTOP_eq] at *
  omega

theorem NoWrap.page (hw : g.NoWrap j) (h : g.PageOk j) : g.addr j / PGSIZE = g.start / PGSIZE + j := by
  rw [hw.addr h, Nat.add_mul_div_left _ _ (by decide)]

theorem done_kept : Kept s (g.done j s) := by
  rw [Segment.done]
  split
  · exact ⟨fun _ _ => rfl, rfl, rfl, rfl⟩
  · exact ⟨fun p hp => Space.set_ne hp, rfl, rfl, rfl⟩

theorem done_child : (g.done j s).child = s.child.set (g.addr j / PGSIZE) (some (g.mapping j)) := by
  rw [Segment.done]
  split <;> rfl

theorem done_utemp : (g.done j s).utemp = s.utemp ∨ (g.done j s).utemp = none := by
  rw [Segment.done]
  split
  · exact .inl rfl
  · exact .inr utemp_setParent

theorem Loaded.step (hw : g.NoWrap j) (h : g.PageOk j) (hin : PGSIZE * j < g.memEnd) (hl : g.Loaded (j + 1) (g.done j s) s') :
    g.Loaded j s s' := by
  have hp := hw.page h
  have hlt : g.addr j / PGSIZE < UTOP / PGSIZE := by
    have := h.2
    rw [PGSIZE_eq, UTOP_eq] at *
    omega
  refine ⟨fun k hk hin => ?_, fun p hne => ?_, done_kept.trans hl.kept, ?_⟩
  · obtain rfl | hk := Nat.eq_or_lt_of_le hk
    · rw [hl.others _ fun i hi _ => by omega, done_child, ← hp]
      exact Space.set_self hlt
    · exact hl.mapped k hk hin
  · rw [hl.others p fun k hk hin => hne k (by omega) hin, done_child]
    exact Space.set_ne fun he => hne j (Nat.le_refl _) hin (he.trans hp)
  · obtain h | h := hl.utemp
    · rw [h]
      exact done_utemp
    · exact .inr h

theorem loop_wp (hw : g.NoWrap j) (hn : 2 ^ 20 < n + j) :
    (g.loop n j).wp (∃ k, g.Reached j k ∧ g.PagePanics k)
      (fun e s' => e < 0 ∧ Kept s s' ∧ ∃ k, g.Reached j k ∧ ¬g.PageOk k ∧ ¬g.PagePanics k ∧
        (¬g.Torn k ∧ (s'.utemp = s.utemp ∨ s'.utemp = none) ∨ g.Torn k ∧ s'.utemp ≠ none))
      (fun b s' => b = true ∧ (∀ k ≥ j, PGSIZE * k < g.memEnd → g.PageOk k) ∧ g.Loaded j s s') s := by
  induction n generalizing j s
  case zero => exact absurd hw.lt (by omega)
  case succ n hi =>
    rw [loop, segmentLoop]
    by_cases hin : PGSIZE * j < g.memEnd
    case neg =>
      rw [if_neg hin]
      have hno (k) (hk : k ≥ j) : ¬PGSIZE * k < g.memEnd := by
        rw [PGSIZE_eq] at *
        omega
      exact ⟨rfl, fun k hk h => absurd h (hno k hk), fun k hk h => absurd h (hno k hk), fun _ _ => rfl,
        Failed.refl.kept, .inl rfl⟩
    case pos =>
      rw [if_pos hin, Prog.wp_bind]
      refine (page_wp (g := g) (j := j) (s := s)).mono (fun h => ?_) (fun e s' h => ?_) fun _ s' h => ?_
      · exact ⟨j, ⟨Nat.le_refl _, hin, fun i h₁ h₂ => absurd h₁ (by omega)⟩, h⟩
      · obtain ⟨he, hok, hnp, hf, hu⟩ := h
        refine ⟨he, hf.kept, j, ⟨Nat.le_refl _, hin, fun i h₁ h₂ => absurd h₁ (by omega)⟩, hok, hnp, ?_⟩
        exact hu.imp_left fun h => ⟨h.1, .inl h.2⟩
      · obtain ⟨hok, rfl⟩ := h
        have hj : add (PGSIZE * j) PGSIZE = PGSIZE * (j + 1) := by
          have := hw.lt
          rw [add, PGSIZE_eq]
          omega
        have hreach {k : Nat} (h : g.Reached (j + 1) k) : g.Reached j k :=
          ⟨by have := h.le; omega, h.inside, fun i h₁ h₂ => by
            obtain rfl | h₁ := Nat.eq_or_lt_of_le h₁
            · exact hok
            · exact h.before i h₁ h₂⟩
        rw [hj]
        refine (hi (hw.next hok) (by omega)).mono (fun h => ?_) (fun e s' h => ?_) fun b s' h => ?_
        · obtain ⟨k, hr, hp⟩ := h
          exact ⟨k, hreach hr, hp⟩
        · obtain ⟨he, hk, k, hr, h₁, h₂, hu⟩ := h
          refine ⟨he, done_kept.trans hk, k, hreach hr, h₁, h₂, hu.imp_left fun h => ⟨h.1, ?_⟩⟩
          obtain h | h := h.2
          · rw [h]
            exact done_utemp
          · exact .inr h
        · obtain ⟨hb, hall, hl⟩ := h
          refine ⟨hb, fun k hk hk' => ?_, hl.step hw hok hin⟩
          obtain rfl | hk := Nat.eq_or_lt_of_le hk
          · exact hok
          · exact hall k hk hk'

-- The arguments that the callers of `map_segment` promise.
structure Valid (g : Segment) : Prop where
  va      : g.va < 2 ^ 32
  memsz   : g.memsz < 2 ^ 32
  filesz  : g.filesz ≤ g.memsz
  offset  : g.fileoffset < 2 ^ 32
  aligned : PGOFF g.va = PGOFF g.fileoffset

-- The page has bytes of the segment.
def Covers (g : Segment) (p : Nat) : Prop :=
  0 < g.memsz ∧ PGSIZE * p < g.va + g.memsz ∧ g.va < PGSIZE * (p + 1)

-- What the segment is from `va` on.
def byte (g : Segment) (k : Nat) : Byte :=
  if k < g.filesz ∧ g.fileoffset + k < g.file.length then g.file.getD (g.fileoffset + k) 0 else 0

-- The segment is in the child, up to the end of its last page, and nothing else has changed.
structure Placed (g : Segment) (s s' : State) : Prop where
  bytes  : ∀ p, g.Covers p → ∃ page, s'.child.pages p = some ⟨page, g.perm⟩ ∧
    ∀ x < PGSIZE, g.va ≤ PGSIZE * p + x → page x = g.byte (PGSIZE * p + x - g.va)
  others : ∀ p, ¬g.Covers p → s'.child.pages p = s.child.pages p
  parent : ∀ p ≠ UTEMP / PGSIZE, s'.parent.pages p = s.parent.pages p

-- `map_segment` ends with a negative code or with the segment in its place.
def Faithful (g : Segment) (s : State) : Prop :=
  g.map.wp False (fun e s' => e < 0 ∧ ∀ p ≠ UTEMP / PGSIZE, s'.parent.pages p = s.parent.pages p)
    (fun b s' => b = true ∧ g.Placed s s') s

-- No page that has been read fails to be mapped; and if all pages get into the child, then the size does not
-- wrap around with the offset in the page, and an empty segment starts with a page, or its page was there.
structure Loads (g : Segment) (s : State) : Prop where
  noPanic : ∀ k, g.Reached 0 k → ¬g.PagePanics k
  sizes   : (∀ k, PGSIZE * k < g.memEnd → g.PageOk k) → g.memsz + PGOFF g.va < 2 ^ 32 ∧
    (g.memsz = 0 → PGOFF g.va = 0 ∨ s.child.pages (g.va / PGSIZE) = some (g.mapping 0))

section Faithful

theorem off_nonneg {a : Nat} (h : a < 2 ^ 32) : 0 ≤ off a ↔ a < 2 ^ 31 := by
  rw [off, Nat.mod_eq_of_lt h]
  split <;> omega

theorem off_eq {a : Nat} (h : a < 2 ^ 31) : off a = a := by
  rw [off, Nat.mod_eq_of_lt (by omega), if_pos h]

theorem start_spec (hv : g.va < 2 ^ 32) : g.start + PGOFF g.va = g.va ∧ g.start < 2 ^ 32 ∧
    g.start % PGSIZE = 0 ∧ PGOFF g.va < PGSIZE := by
  rw [Segment.start, sub, PGOFF, PGSIZE_eq]
  omega

theorem Valid.start (h : g.Valid) : g.start + PGOFF g.va = g.va ∧ g.start < 2 ^ 32 ∧ g.start % PGSIZE = 0 ∧
    PGOFF g.va < PGSIZE :=
  start_spec h.va

theorem Valid.fileStart (h : g.Valid) :
    g.fileStart + PGOFF g.va = g.fileoffset ∧ g.fileStart < 2 ^ 32 ∧ g.fileStart % PGSIZE = 0 := by
  have hv := h.offset
  rw [Segment.fileStart, h.aligned, sub, PGOFF, PGSIZE_eq]
  omega

theorem PagePanics.not_ok (h : g.PagePanics k) : ¬g.PageOk k := by
  rintro ⟨⟨hb, _⟩ | ⟨_, hm⟩, ha⟩
  · exact h.1.1 hb
  · obtain h | h := h.2
    · omega
    · omega

theorem seek_of_lt (h : g.fileStart + PGSIZE * k < 2 ^ 32) (h₀ : 0 ≤ g.seek k) :
    g.seek k = (g.fileStart + PGSIZE * k : Nat) ∧ g.fileStart + PGSIZE * k < 2 ^ 31 := by
  have ha : g.seek k = off (g.fileStart + PGSIZE * k) := by
    rw [seek, add, Nat.mod_eq_of_lt h]
  rw [ha] at h₀ ⊢
  have h₁ := (off_nonneg h).mp h₀
  exact ⟨off_eq h₁, h₁⟩

-- Where the pages that are read stand in the file.
theorem seek_eq (h : g.Valid) (hs : ∀ i ≤ k, 0 ≤ g.seek i) :
    g.seek k = (g.fileStart + PGSIZE * k : Nat) ∧ g.fileStart + PGSIZE * k < 2 ^ 31 := by
  induction k
  case zero =>
    refine seek_of_lt ?_ (hs 0 (Nat.le_refl _))
    rw [Nat.mul_zero, Nat.add_zero]
    exact h.fileStart.2.1
  case succ k hi =>
    have ⟨_, h₁⟩ := hi fun i hle => hs i (Nat.le_succ_of_le hle)
    refine seek_of_lt ?_ (hs (k + 1) (Nat.le_refl _))
    have hp : PGSIZE = 4096 := rfl
    rw [Nat.mul_succ]
    omega

theorem noWrap_zero (h : g.va < 2 ^ 32) : g.NoWrap 0 :=
  ⟨(start_spec h).2.1, (start_spec h).2.2.1, .inl rfl⟩

theorem map_eq : g.map = g.loop (2 ^ 20 + 1) 0 := by
  rw [map, map_segment, loop, Nat.mul_zero]
  simp only [start, memEnd, fileEnd, Segment.fileStart]

theorem map_wp (h : g.va < 2 ^ 32) :
    g.map.wp (∃ k, g.Reached 0 k ∧ g.PagePanics k)
      (fun e s' => e < 0 ∧ Kept s s' ∧ ∃ k, g.Reached 0 k ∧ ¬g.PageOk k ∧ ¬g.PagePanics k ∧
        (¬g.Torn k ∧ (s'.utemp = s.utemp ∨ s'.utemp = none) ∨ g.Torn k ∧ s'.utemp ≠ none))
      (fun b s' => b = true ∧ (∀ k, PGSIZE * k < g.memEnd → g.PageOk k) ∧ g.Loaded 0 s s') s := by
  rw [map_eq]
  generalize hn : 2 ^ 20 + 1 = n
  exact (loop_wp (noWrap_zero h) (by omega)).mono id (fun _ _ => id)
    fun _ _ h => ⟨h.1, fun k => h.2.1 k (Nat.zero_le _), h.2.2⟩

theorem Torn.not_ok (h : g.Torn k) : ¬g.PageOk k := by
  obtain ⟨hb, _, hr⟩ := h
  rintro ⟨⟨hb', _⟩ | ⟨hr', _⟩, _⟩
  · exact hb hb'
  · have := hr'.2.2
    omega

theorem Torn.not_panics (h : g.Torn k) : ¬g.PagePanics k := by
  rintro ⟨hr, _⟩
  have h₁ := h.2.2
  have h₂ := hr.2.2
  omega

-- The first page that fails is the same for all.
theorem Reached.unique {i : Nat} (h : g.Reached 0 k) (hk : ¬g.PageOk k) (h' : g.Reached 0 i)
    (hi : ¬g.PageOk i) : k = i := by
  obtain hlt | rfl | hlt := Nat.lt_trichotomy k i
  · exact absurd (h'.before k (Nat.zero_le _) hlt) hk
  · rfl
  · exact absurd (h.before i (Nat.zero_le _) hlt) hi

-- The pages of the segment, with the size that the loop goes by.
theorem covers_iff (h : g.Valid) (hm : g.memsz + PGOFF g.va < 2 ^ 32) (h₀ : 0 < g.memsz) :
    g.Covers p ↔ ∃ k, PGSIZE * k < g.memEnd ∧ p = g.start / PGSIZE + k := by
  have ⟨hv, _, hs, ho⟩ := h.start
  have he : g.memEnd = g.memsz + PGOFF g.va := by rw [memEnd, add, Nat.mod_eq_of_lt hm]
  have hp : PGSIZE = 4096 := rfl
  rw [Covers, he]
  rw [hp] at hs ho ⊢
  constructor
  · rintro ⟨_, h₁, h₂⟩
    exact ⟨p - g.start / 4096, by omega, by omega⟩
  · rintro ⟨k, hk, rfl⟩
    omega

theorem mapping_byte (h : g.Valid) (hm : g.memsz + PGOFF g.va < 2 ^ 32)
    (hall : ∀ k, PGSIZE * k < g.memEnd → g.PageOk k) (hk : PGSIZE * k < g.memEnd) {x : Nat}
    (hx : x < PGSIZE) (ho : PGOFF g.va ≤ PGSIZE * k + x) :
    (g.mapping k).page x = g.byte (PGSIZE * k + x - PGOFF g.va) := by
  have hf : g.fileEnd = g.filesz + PGOFF g.va := by
    rw [fileEnd, add, Nat.mod_eq_of_lt (Nat.lt_of_le_of_lt (Nat.add_le_add_right h.filesz _) hm)]
  obtain ⟨hfs, _, _⟩ := h.fileStart
  have hin : x < min PGSIZE (g.fileEnd - PGSIZE * k) ↔ PGSIZE * k + x - PGOFF g.va < g.filesz := by
    rw [lt_min_iff, hf]
    omega
  simp only [mapping, byte]
  by_cases hlt : PGSIZE * k + x - PGOFF g.va < g.filesz
  case neg => rw [if_neg fun h => hlt (hin.mp h.1), if_neg fun h => hlt h.1]
  case pos =>
    have hs (i : Nat) (hi : i ≤ k) : 0 ≤ g.seek i := by
      have hle : PGSIZE * i ≤ PGSIZE * k := Nat.mul_le_mul_left _ hi
      obtain ⟨⟨hb, _⟩ | ⟨hr, _⟩, _⟩ := hall i (Nat.lt_of_le_of_lt hle hk)
      · have hb : g.fileEnd ≤ PGSIZE * i := hb
        omega
      · exact hr.2.2.1
    have hoff : (g.seek k).toNat + x = g.fileoffset + (PGSIZE * k + x - PGOFF g.va) := by
      rw [(seek_eq h hs).1, Int.toNat_natCast]
      omega
    rw [hoff]
    exact if_congr (and_congr_left fun _ => ⟨fun _ => hlt, fun _ => hin.mpr hlt⟩) rfl rfl

theorem Valid.page (h : g.Valid) : g.start / PGSIZE = g.va / PGSIZE ∧
    PGSIZE * (g.start / PGSIZE + k) = g.start + PGSIZE * k := by
  have ⟨hv, _, hs, ho⟩ := h.start
  refine ⟨?_, by rw [Nat.mul_add, Nat.mul_div_cancel' (Nat.dvd_of_mod_eq_zero hs)]⟩
  rw [PGSIZE_eq] at hs ho ⊢
  omega

theorem Valid.distance (h : g.Valid) {x : Nat} (hx : g.va ≤ g.start + PGSIZE * k + x) :
    PGOFF g.va ≤ PGSIZE * k + x ∧ g.start + PGSIZE * k + x - g.va = PGSIZE * k + x - PGOFF g.va := by
  have hstart := h.start.1
  omega

-- An empty segment that does not start with a page has the page with the bytes before it.
theorem memEnd_empty (h : g.Valid) (h₀ : g.memsz = 0) : g.memEnd = PGOFF g.va := by
  have hlt : PGOFF g.va < 2 ^ 32 := Nat.lt_trans h.start.2.2.2 (by decide)
  rw [memEnd, h₀, add, Nat.zero_add, Nat.mod_eq_of_lt hlt]

theorem page_zero (h : g.Valid) (h₀ : g.memsz = 0) (hk : PGSIZE * k < g.memEnd) :
    PGOFF g.va ≠ 0 ∧ k = 0 := by
  have ho := h.start.2.2.2
  rw [memEnd_empty h h₀] at hk
  rw [PGSIZE_eq] at hk ho
  omega

theorem Loaded.placed (h : g.Valid) (hl : g.Loaded 0 s s')
    (hall : ∀ k, PGSIZE * k < g.memEnd → g.PageOk k) (hm : g.memsz + PGOFF g.va < 2 ^ 32)
    (he : g.memsz = 0 → PGOFF g.va = 0 ∨ s.child.pages (g.va / PGSIZE) = some (g.mapping 0)) :
    g.Placed s s' := by
  refine ⟨fun p hc => ?_, fun p hc => ?_, hl.kept.parent⟩
  · obtain ⟨k, hk, rfl⟩ := (covers_iff h hm hc.1).mp hc
    refine ⟨(g.mapping k).page, hl.mapped k (Nat.zero_le _) hk, fun x hx hva => ?_⟩
    rw [h.page.2] at hva ⊢
    rw [(h.distance hva).2]
    exact mapping_byte h hm hall hk hx (h.distance hva).1
  · by_cases h₀ : g.memsz = 0
    case neg =>
      refine hl.others p fun k _ hk hp => hc ?_
      exact (covers_iff h hm (Nat.pos_of_ne_zero h₀)).mpr ⟨k, hk, hp⟩
    case pos =>
      by_cases hp : PGOFF g.va ≠ 0 ∧ p = g.start / PGSIZE
      case neg =>
        refine hl.others p fun k _ hk hpk => hp ?_
        obtain ⟨ho, rfl⟩ := page_zero h h₀ hk
        exact ⟨ho, hpk.trans (Nat.add_zero _)⟩
      case pos =>
        have hin : PGSIZE * 0 < g.memEnd := by
          rw [memEnd_empty h h₀, Nat.mul_zero]
          exact Nat.pos_of_ne_zero hp.1
        have hmap := hl.mapped 0 (Nat.le_refl _) hin
        rw [Nat.add_zero] at hmap
        rw [hp.2, hmap, (h.page (k := 0)).1, (he h₀).resolve_left hp.1]

theorem Placed.sizes (h : g.Valid) (hl : g.Loaded 0 s s') (hp : g.Placed s s') :
    g.memsz + PGOFF g.va < 2 ^ 32 ∧
      (g.memsz = 0 → PGOFF g.va = 0 ∨ s.child.pages (g.va / PGSIZE) = some (g.mapping 0)) := by
  constructor
  · -- Otherwise the last page below 4 GiB would be one of the segment.
    have hva := h.va
    have ⟨hv, _, _, ho⟩ := h.start
    rw [PGSIZE_eq] at ho
    by_contra hge
    have hc : g.Covers 0xFFFFF := by
      rw [Covers, PGSIZE_eq]
      omega
    obtain ⟨page, hpage, _⟩ := hp.bytes _ hc
    rw [s'.child.user _ (by decide)] at hpage
    cases hpage
  · intro h₀
    by_cases hz : PGOFF g.va = 0
    case pos => exact .inl hz
    case neg =>
      have hin : PGSIZE * 0 < g.memEnd := by
        rw [memEnd_empty h h₀, Nat.mul_zero]
        exact Nat.pos_of_ne_zero hz
      have hmap := hl.mapped 0 (Nat.le_refl _) hin
      rw [Nat.add_zero, (h.page (k := 0)).1] at hmap
      rw [← hmap]
      exact .inr (hp.others _ fun hc => absurd h₀ (Nat.ne_of_gt hc.1)).symm

theorem map_spec (h : g.Valid) : g.Faithful s ↔ g.Loads s := by
  have hw := map_wp (s := s) h.va
  rw [Faithful]
  simp only [Prog.wp] at hw ⊢
  cases hx : g.map s
  case panic =>
    rw [hx] at hw
    obtain ⟨k, hr, hp⟩ := hw
    exact ⟨False.elim, fun hl => hl.noPanic k hr hp⟩
  case error e s' =>
    rw [hx] at hw
    obtain ⟨he, hk, k, hr, hok, hp, _⟩ := hw
    refine ⟨fun _ => ⟨fun i hi hpi => ?_, fun hall => absurd (hall k hr.inside) hok⟩, fun _ => ⟨he, hk.parent⟩⟩
    rw [hr.unique hok hi hpi.not_ok] at hp
    exact hp hpi
  case ok b s' =>
    rw [hx] at hw
    obtain ⟨hb, hall, hl⟩ := hw
    refine ⟨fun hf => ⟨fun k hr hp => hp.not_ok (hall k hr.inside), fun _ => hf.2.sizes h hl⟩, fun hld => ?_⟩
    obtain ⟨hm, he⟩ := hld.sizes hall
    exact ⟨hb, hl.placed h hall hm he⟩

end Faithful

section Sample

attribute [local irreducible] Faithful

def granted : PageAnswer := ⟨0, 0, 0, fun _ => 0⟩

-- A segment of 100 bytes, 3 of them in the file.
def small : Segment := ⟨fun _ => granted, [1, 2, 3], 0x800000, 100, 3, 0, 5⟩

-- A segment of almost 4 GiB, whose size wraps around with the offset in its first page.
def huge : Segment := ⟨fun _ => granted, [], 0x800FFF, 0xFFFFFFFF, 0, 0xFFF, 5⟩

end Sample

end Segment

end Lib.Spawn

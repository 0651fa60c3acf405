import Sisop.Fs.Path
import Sisop.Fs.Theorems.Requests
import Sisop.Fs.Theorems.Requests

-- `walk_path` finds what the names of a path lead to.

namespace Fs

open Inc Library

variable {m m' : Memory} {f g g₀ d n : Nat} {dir : Option Nat} {name c : List (BitVec 8)}
  {names cs suf : List (List (BitVec 8))} {path : List (BitVec 8)} {w : Walked}

-- A directory tree as `dir_lookup` expects it: without holes, and with one file for each name.
structure WellFormed (m : Memory) : Prop where
  blocks  : BlockInv m
  full    : DirsFull m
  aligned : ∀ {d}, Reach m d → isDir m d → (m.load32 (fSize d)).srem 4096#32 = 0#32
  small   : ∀ {d}, Reach m d → isDir m d → nblock m d ≤ INDIRECT
  unique  : ∀ {d name f g}, Reach m d → isDir m d → Name name → Entry m d name f → Entry m d name g →
    f = g

-- The names lead from the file `f` to the file `g`.
inductive Follows (m : Memory) : Nat → List (List (BitVec 8)) → Nat → Prop
  | nil {f : Nat} : Follows m f [] f
  | cons {f g g' : Nat} {name : List (BitVec 8)} {names : List (List (BitVec 8))} : Name name →
    isDir m f → Entry m f name g → Follows m g names g' → Follows m f (name :: names) g'

-- The name is reached with the file `g`, and the names `suf` are left after it.
def At (m : Memory) (f : Nat) (names : List (List (BitVec 8))) (name : List (BitVec 8))
    (suf : List (List (BitVec 8))) (g : Nat) : Prop :=
  ∃ pre, names = pre ++ name :: suf ∧ Follows m f pre g

-- What `walk_path` should return for the names, from the file `f` in the directory `dir`.
structure Resolved (m : Memory) (dir : Option Nat) (f : Nat) (names : List (List (BitVec 8)))
    (w : Walked) : Prop where
  codes    : w.r = 0#32 ∨ w.r = err E_BAD_PATH ∨ w.r = err E_NOT_FOUND
  found    : w.r = 0#32 ↔ ∃ g, Follows m f names g
  file     : ∀ g, w.pf = some g ↔ Follows m f names g
  parent   : w.r = 0#32 → ∀ d, w.pdir = some d ↔
    names = [] ∧ dir = some d ∨ ∃ name, At m f names name [] d
  badPath  : w.r = err E_BAD_PATH ↔
    ∃ name suf g, At m f names name suf g ∧ MAXNAMELEN ≤ name.length
  missing  : w.r = err E_NOT_FOUND → ∀ d, w.pdir = some d ↔
    ∃ name, At m f names name [] d ∧ isDir m d ∧ ∀ g, ¬Entry m d name g
  lastelem : w.r = err E_NOT_FOUND → w.lastelem = if w.pdir.isSome then names.getLast? else none

section Names

-- The names between the slashes.
def elems (path : List (BitVec 8)) : List (List (BitVec 8)) :=
  (path.splitOnP (· = 0x2F#8)).filter (· ≠ [])

theorem elems_slash : elems (0x2F#8 :: path) = elems path := by
  have hall : ∀ x ∈ ([] : List (BitVec 8)), decide (x = 0x2F#8) = false := by simp
  have h := List.splitOnP_append_cons_of_forall_mem hall 0x2F#8 (by decide) path
  rw [List.nil_append] at h
  simp [elems, h]

theorem elems_skipSlash : elems (skipSlash path) = elems path := by
  induction path
  case nil => rfl
  case cons c cs hi =>
    by_cases hc : c = 0x2F#8
    · rw [hc, elems_slash, ← hi]
      rfl
    · simp [skipSlash, hc]

theorem nextName_append : nextName path ++ afterName path = path := List.takeWhile_append_dropWhile

theorem nextName_ne_nil (hp : path ≠ []) (hs : path.head? ≠ some 0x2F#8) : nextName path ≠ [] := by
  cases path
  case nil => exact absurd rfl hp
  case cons c cs =>
    have hc : c ≠ 0x2F#8 := fun hc => hs (by rw [List.head?_cons, hc])
    simp [nextName, hc]

theorem elems_cons (hp : path ≠ []) (hs : path.head? ≠ some 0x2F#8) :
    elems path = nextName path :: elems (skipSlash (afterName path)) := by
  have hn := nextName_ne_nil hp hs
  have hall : ∀ x ∈ nextName path, decide (x = 0x2F#8) = false := by
    intro x hx
    have := List.mem_takeWhile_imp hx
    simpa using this
  rw [elems_skipSlash]
  have ha : path = nextName path ++ afterName path := nextName_append.symm
  cases hr : afterName path
  case nil =>
    rw [hr, List.append_nil] at ha
    have he : path.splitOnP (fun c => decide (c = 0x2F#8)) = [nextName path] := by
      conv_lhs => rw [ha]
      exact List.splitOnP_eq_singleton hall
    simp [elems, he, hn]
  case cons c cs =>
    have hc : c = 0x2F#8 := by
      have h := List.head?_dropWhile_not (fun c : BitVec 8 => decide (c ≠ 0x2F#8)) path
      have hd : path.dropWhile (fun c => decide (c ≠ 0x2F#8)) = c :: cs := hr
      rw [hd] at h
      simpa using h
    have he : path.splitOnP (fun c => decide (c = 0x2F#8)) =
        nextName path :: cs.splitOnP (fun c => decide (c = 0x2F#8)) := by
      conv_lhs => rw [ha, hr]
      exact List.splitOnP_append_cons_of_forall_mem hall c (by simp [hc]) cs
    rw [hc, elems_slash]
    simp [elems, he, hn]

end Names

section Steps

theorem Follows.reach (hr : Reach m f) (h : Follows m f names g) : Reach m g := by
  induction h
  case nil => exact hr
  case cons hn hd he _ hi => exact hi (he.reach hr hd hn.1 hn.2.1)

-- The next name leads to `g₀`.
structure Next (m : Memory) (f : Nat) (name : List (BitVec 8)) (g₀ : Nat) : Prop where
  valid : Name name
  dir   : isDir m f
  entry : Entry m f name g₀

theorem follows_nil : Follows m f [] g ↔ g = f :=
  ⟨fun h => by cases h; rfl, fun h => h ▸ .nil⟩

theorem Next.follows (h : WellFormed m) (hr : Reach m f) (hx : Next m f c g₀) :
    Follows m f (c :: cs) g ↔ Follows m g₀ cs g := by
  constructor
  case mp =>
    intro hf
    obtain _ | ⟨hn, hd, he, hf⟩ := hf
    exact h.unique hr hd hn he hx.entry ▸ hf
  case mpr => exact .cons hx.valid hx.dir hx.entry

theorem not_follows (hx : ∀ g₀, ¬Next m f c g₀) : ¬Follows m f (c :: cs) g := by
  intro hf
  obtain _ | ⟨hn, hd, he, _⟩ := hf
  exact hx _ ⟨hn, hd, he⟩

theorem not_at_nil : ¬At m f [] name suf g := by
  rintro ⟨pre, hp, _⟩
  simp at hp

theorem Next.at_iff (h : WellFormed m) (hr : Reach m f) (hx : Next m f c g₀) :
    At m f (c :: cs) name suf g ↔ name = c ∧ suf = cs ∧ g = f ∨ At m g₀ cs name suf g := by
  constructor
  case mp =>
    rintro ⟨pre, hp, hf⟩
    rcases List.cons_eq_append_iff.mp hp with ⟨rfl, hc⟩ | ⟨pre', rfl, hc⟩
    · cases hc
      exact .inl ⟨rfl, rfl, follows_nil.mp hf⟩
    · exact .inr ⟨pre', hc, (hx.follows h hr).mp hf⟩
  case mpr =>
    rintro (⟨rfl, rfl, rfl⟩ | ⟨pre, rfl, hf⟩)
    · exact ⟨[], rfl, .nil⟩
    · exact ⟨c :: pre, rfl, (hx.follows h hr).mpr hf⟩

theorem at_stop (hx : ∀ g₀, ¬Next m f c g₀) :
    At m f (c :: cs) name suf g ↔ name = c ∧ suf = cs ∧ g = f := by
  constructor
  case mp =>
    rintro ⟨pre, hp, hf⟩
    rcases List.cons_eq_append_iff.mp hp with ⟨rfl, hc⟩ | ⟨pre', rfl, hc⟩
    · cases hc
      exact ⟨rfl, rfl, follows_nil.mp hf⟩
    · exact absurd hf (not_follows hx)
  case mpr =>
    rintro ⟨rfl, rfl, rfl⟩
    exact ⟨[], rfl, .nil⟩

end Steps

section Resolve

theorem resolved_nil : Resolved m dir f [] ⟨0#32, dir, some f, none⟩ where
  codes    := .inl rfl
  found    := ⟨fun _ => ⟨f, .nil⟩, fun _ => rfl⟩
  file     := by
    intro g
    rw [follows_nil, Option.some.injEq, eq_comm]
  parent   := by
    intro _ d
    simp [not_at_nil]
  badPath  := by
    refine iff_of_false (show 0#32 ≠ err E_BAD_PATH by decide) ?_
    rintro ⟨_, _, _, h, _⟩
    exact not_at_nil h
  missing  := fun h => absurd h (show 0#32 ≠ err E_NOT_FOUND by decide)
  lastelem := fun h => absurd h (show 0#32 ≠ err E_NOT_FOUND by decide)

-- No further name can be followed.
theorem resolved_stop (hx : ∀ g₀, ¬Next m f c g₀) (hr : w.r = err E_BAD_PATH ∨ w.r = err E_NOT_FOUND)
    (hf : w.pf = none) (hb : w.r = err E_BAD_PATH ↔ MAXNAMELEN ≤ c.length)
    (hd : w.r = err E_NOT_FOUND → ∀ d, w.pdir = some d ↔
      d = f ∧ cs = [] ∧ isDir m f ∧ ∀ g, ¬Entry m f c g)
    (hl : w.r = err E_NOT_FOUND → w.lastelem = if w.pdir.isSome then some c else none) :
    Resolved m dir f (c :: cs) w := by
  have h₀ : w.r ≠ 0#32 := by
    rcases hr with hr | hr <;> rw [hr] <;> decide
  constructor
  case codes => exact .inr hr
  case found =>
    refine iff_of_false h₀ ?_
    rintro ⟨g, hg⟩
    exact not_follows hx hg
  case file =>
    intro g
    rw [hf]
    exact iff_of_false (fun h => by cases h) (not_follows hx)
  case parent => exact fun h => absurd h h₀
  case badPath =>
    rw [hb]
    constructor
    case mp => exact fun h => ⟨c, cs, f, (at_stop hx).mpr ⟨rfl, rfl, rfl⟩, h⟩
    case mpr =>
      rintro ⟨name, suf, g, ha, h⟩
      rw [((at_stop hx).mp ha).1] at h
      exact h
  case missing =>
    intro hn d
    rw [hd hn]
    constructor
    case mp =>
      rintro ⟨rfl, rfl, hdir, he⟩
      exact ⟨c, (at_stop hx).mpr ⟨rfl, rfl, rfl⟩, hdir, he⟩
    case mpr =>
      rintro ⟨name, ha, hdir, he⟩
      obtain ⟨rfl, rfl, rfl⟩ := (at_stop hx).mp ha
      exact ⟨rfl, rfl, hdir, he⟩
  case lastelem =>
    intro hn
    rw [hl hn]
    cases hp : w.pdir
    case none => rfl
    case some d =>
      rw [((hd hn d).mp hp).2.1]
      rfl

-- The walk goes on from the file that the next name leads to.
theorem Next.resolved (h : WellFormed m) (hr : Reach m f) (hx : Next m f c g₀)
    (hw : Resolved m (some f) g₀ cs w) : Resolved m dir f (c :: cs) w where
  codes    := hw.codes
  found    := by
    simp only [hx.follows h hr]
    exact hw.found
  file     := by
    simp only [hx.follows h hr]
    exact hw.file
  parent   := by
    intro h₀ d
    rw [hw.parent h₀ d]
    simp only [hx.at_iff h hr, Option.some.injEq, List.cons_ne_nil, false_and, false_or]
    constructor
    case mp =>
      rintro (⟨rfl, rfl⟩ | ⟨name, ha⟩)
      · exact ⟨c, .inl ⟨rfl, rfl, rfl⟩⟩
      · exact ⟨name, .inr ha⟩
    case mpr =>
      rintro ⟨name, ⟨_, hcs, rfl⟩ | ha⟩
      · exact .inl ⟨hcs.symm, rfl⟩
      · exact .inr ⟨name, ha⟩
  badPath  := by
    rw [hw.badPath]
    simp only [hx.at_iff h hr]
    constructor
    case mp =>
      rintro ⟨name, suf, g, ha, hl⟩
      exact ⟨name, suf, g, .inr ha, hl⟩
    case mpr =>
      rintro ⟨name, suf, g, ⟨rfl, _⟩ | ha, hl⟩
      · exact absurd hx.valid.2.2 (Nat.not_lt.mpr hl)
      · exact ⟨name, suf, g, ha, hl⟩
  missing  := by
    intro hn d
    rw [hw.missing hn d]
    simp only [hx.at_iff h hr]
    constructor
    case mp =>
      rintro ⟨name, ha, hd⟩
      exact ⟨name, .inr ha, hd⟩
    case mpr =>
      rintro ⟨name, ⟨rfl, _, rfl⟩ | ha, hd⟩
      · exact absurd hx.entry (hd.2 g₀)
      · exact ⟨name, ha, hd⟩
  lastelem := by
    intro hn
    rw [hw.lastelem hn]
    cases hp : w.pdir
    case none => rfl
    case some d =>
      obtain ⟨name, ⟨pre, hcs, _⟩, _⟩ := (hw.missing hn d).mp hp
      rw [hcs, ← List.cons_append, List.getLast?_concat, List.getLast?_concat]

theorem dirLookup_total (h : WellFormed m) (hr : Reach m d) (hd : isDir m d) :
    (dirLookup d name).wp False (fun e m' => m' = m ∧ e = E_NOT_FOUND ∧ ∀ f, ¬Entry m d name f)
      (fun f m' => m' = m ∧ Entry m d name f) m := by
  have hfull := h.full d hr hd
  have hsmall := h.small hr hd
  rw [dirLookup, dirBlocks, Prog.wp_bind, Prog.wp_bind, Prog.wp_get, Prog.wp_ite]
  refine ⟨fun hc => absurd (h.aligned hr hd) hc, fun _ => ?_⟩
  have hn : ((m.load32 (fSize d)).sdiv 4096#32).toNat = nblock m d := rfl
  rw [Prog.wp_pure, hn, List.range_eq_range', Prog.wp_bind]
  refine (dirScan_wp h.blocks.owned hr fun k _ h => hfull k (by omega)).mono id ?_ ?_
  · rintro e m₁ ⟨_, _, hlt, _⟩
    omega
  · rintro r m₁ ⟨rfl, h₁, h₂⟩
    cases r
    case some f =>
      obtain ⟨k, j, -, hk, hkI, hj, he, hp, -⟩ := h₁ f rfl
      exact ⟨rfl, k, j, ⟨by omega, hkI, hfull k (by omega) hkI⟩, hj, he, hp⟩
    case none =>
      refine ⟨rfl, rfl, ?_⟩
      rintro f ⟨k, j, hk, hj, rfl, hs⟩
      exact (h₂ rfl k (Nat.zero_le _) (by have := hk.1; omega)).2 j hj hs

theorem skipSlash_head : (skipSlash path).head? ≠ some 0x2F#8 := by
  intro h
  have hn := List.head?_dropWhile_not (fun c : BitVec 8 => decide (c = 0x2F#8)) path
  have hd : (path.dropWhile fun c => decide (c = 0x2F#8)).head? = some 0x2F#8 := h
  rw [hd] at hn
  simp at hn

theorem skipSlash_length : (skipSlash path).length ≤ path.length :=
  (List.dropWhile_sublist _).length_le

theorem afterName_length (hp : path ≠ []) (hs : path.head? ≠ some 0x2F#8) :
    (afterName path).length < path.length := by
  have hn := List.length_pos_of_ne_nil (nextName_ne_nil hp hs)
  have ha := congrArg List.length (nextName_append : nextName path ++ afterName path = path)
  rw [List.length_append] at ha
  omega

-- One turn takes one name of the path; every file on the way can be reached.
theorem walkLoop_wp (h : WellFormed m) (hn : path.length < n) (hs : path.head? ≠ some 0x2F#8)
    (h₀ : 0#8 ∉ path) (hr : Reach m f) :
    (walkLoop n dir f path).wp False (fun _ _ => False)
      (fun w m' => m' = m ∧ Resolved m dir f (elems path) w) m := by
  induction n generalizing dir f path
  case zero => exact absurd hn (Nat.not_lt_zero _)
  case succ n hi =>
    rw [walkLoop, Prog.wp_ite]
    constructor
    case left =>
      rintro rfl
      exact ⟨rfl, resolved_nil⟩
    intro hp
    have hne := nextName_ne_nil hp hs
    have hz : 0#8 ∉ nextName path := fun hc => h₀ ((List.takeWhile_sublist _).mem hc)
    have hm : skipSlash (afterName path) = [] → elems (skipSlash (afterName path)) = [] := by
      intro he
      rw [he]
      rfl
    rw [elems_cons hp hs, Prog.wp_ite]
    constructor
    case left =>
      intro hl
      refine ⟨rfl, resolved_stop (fun g hx => ?_) (.inl rfl) rfl (iff_of_true rfl hl)
        (fun hc => ?_) fun hc => ?_⟩
      · exact absurd hx.valid.2.2 (Nat.not_lt.mpr hl)
      · exact absurd hc (show err E_BAD_PATH ≠ err E_NOT_FOUND by decide)
      · exact absurd hc (show err E_BAD_PATH ≠ err E_NOT_FOUND by decide)
    intro hl
    have hbad : ¬MAXNAMELEN ≤ (nextName path).length := hl
    rw [Prog.wp_bind, Prog.wp_get, Prog.wp_ite]
    constructor
    case left =>
      intro hd
      refine ⟨rfl, resolved_stop (fun g hx => hd hx.dir) (.inr rfl) rfl
        (iff_of_false (show err E_NOT_FOUND ≠ err E_BAD_PATH by decide) hbad)
        (fun _ d => ?_) fun _ => rfl⟩
      refine iff_of_false (fun hc => by cases hc) ?_
      rintro ⟨_, _, hdir, _⟩
      exact hd hdir
    intro hd
    have hd : isDir m f := not_not.mp hd
    rw [Prog.wp_bind, Prog.wp_attempt]
    refine (dirLookup_total h hr hd).mono id ?_ ?_
    · rintro e m' ⟨rfl, rfl, he⟩
      have hx (g : Nat) : ¬Next m' f (nextName path) g := fun hx => he g hx.entry
      simp only
      rw [Prog.wp_ite]
      constructor
      case left =>
        rintro ⟨_, hnil⟩
        refine ⟨rfl, resolved_stop hx (.inr rfl) rfl
          (iff_of_false (show err E_NOT_FOUND ≠ err E_BAD_PATH by decide) hbad)
          (fun _ d => ?_) fun _ => rfl⟩
        rw [Option.some.injEq, eq_comm]
        exact ⟨fun hc => ⟨hc, hm hnil, hd, he⟩, fun hc => hc.1⟩
      case right =>
        intro hnil
        refine ⟨rfl, resolved_stop hx (.inr rfl) rfl
          (iff_of_false (show err E_NOT_FOUND ≠ err E_BAD_PATH by decide) hbad)
          (fun _ d => ?_) fun _ => rfl⟩
        refine iff_of_false (fun hc => by cases hc) ?_
        rintro ⟨_, hcs, _⟩
        refine hnil ⟨trivial, by_contra fun hsk => ?_⟩
        rw [elems_cons hsk skipSlash_head] at hcs
        cases hcs
    · rintro g m' ⟨rfl, he⟩
      have hx : Next m' f (nextName path) g := ⟨⟨hne, hz, Nat.not_le.mp hbad⟩, hd, he⟩
      have hlt := afterName_length hp hs
      have hle : (skipSlash (afterName path)).length ≤ (afterName path).length := skipSlash_length
      refine (hi (by omega) skipSlash_head ?_ (he.reach hr hd hne hz)).mono id (fun _ _ h => h) ?_
      · intro hc
        exact h₀ ((List.dropWhile_sublist _).mem ((List.dropWhile_sublist _).mem hc))
      · rintro w m₁ ⟨rfl, hw⟩
        exact ⟨rfl, hx.resolved h hr hw⟩

-- Path resolution changes nothing, and returns what the path leads to from the root.
theorem walk_path_spec (h : WellFormed m) (path : List (BitVec 8)) :
    ∃ w, walkPathname path m = .ok w m ∧ Resolved m none sRoot (pathElems path) w := by
  have he : pathElems path = elems (skipSlash (path.takeWhile (· ≠ 0#8))) := elems_skipSlash.symm
  have h₀ : 0#8 ∉ skipSlash (path.takeWhile (· ≠ 0#8)) := fun hc => by
    have := List.mem_takeWhile_imp ((List.dropWhile_sublist _).mem hc)
    simp at this
  have hl : (walkPathname path).wp False (fun _ _ => False)
      (fun w m' => m' = m ∧ Resolved m none sRoot (pathElems path) w) m := by
    rw [he]
    exact walkLoop_wp h (Nat.lt_succ_self _) skipSlash_head h₀ .root
  obtain ⟨w, m', hx, rfl, hw⟩ := hl.exists_ok
  exact ⟨w, hx, hw⟩

namespace Sample

theorem wellFormed_disk : WellFormed disk where
  blocks  := blockInv_disk
  full    := dirsFull_disk
  aligned := by
    intro d hr hd
    rcases reach_disk hr with rfl | rfl
    · decide
    · exact absurd hd not_isDir_fileA
  small   := by
    intro d hr hd
    rcases reach_disk hr with rfl | rfl
    · decide
    · exact absurd hd not_isDir_fileA
  unique  := by
    intro d name f g hr hd hn hf hg
    rcases reach_disk hr with rfl | rfl
    case inr => exact absurd hd not_isDir_fileA
    have hb : nblock disk sRoot = 1 := by decide
    have hz : ∀ j < BLKFILES, j ≠ 0 → disk (slot disk sRoot 0 j) = 0#8 := by decide
    have hfirst {f : Nat} (h : Entry disk sRoot name f) : f = slot disk sRoot 0 0 := by
      obtain ⟨k, j, hk, hj, rfl, hs⟩ := h
      have hk₀ : k = 0 := by
        have := hk.1
        omega
      subst hk₀
      have hj₀ : j = 0 := by_contra fun hc => ne_zero_of_strEq hn.1 hn.2.1 hs (hz j hj hc)
      rw [hj₀]
    rw [hfirst hf, hfirst hg]

end Sample

-- The path `/a`.
theorem walk_path_spec_a : ∃ w, walkPathname [0x2F#8, 0x61#8] Sample.disk = .ok w Sample.disk ∧
    Resolved Sample.disk none sRoot (pathElems [0x2F#8, 0x61#8]) w :=
  walk_path_spec Sample.wellFormed_disk _

end Resolve

section Walk

-- How the result of `walk_path` appears where only the file, or the directory of a missing one, is used.
inductive Agrees : Outcome Memory Nat Walk → Outcome Memory Nat Walked → Prop
  | found {m : Memory} {g : Nat} {dir : Option Nat} :
    Agrees (.ok (.found g) m) (.ok ⟨0#32, dir, some g, none⟩ m)
  | missing {m : Memory} {d : Nat} {name : List (BitVec 8)} :
    Agrees (.ok (.missing d name) m) (.ok ⟨err E_NOT_FOUND, some d, none, some name⟩ m)
  | error {m : Memory} {e : Nat} : Agrees (.error e m) (.ok ⟨err e, none, none, none⟩ m)
  | panic : Agrees .panic .panic

theorem get_bind {α : Type} {k : Memory → FsProg α} : (Prog.get >>= k) m = k m m := rfl

theorem attempt_bind {α β : Type} {x : FsProg α} {k : Except Nat α → FsProg β} : (x.attempt >>= k) m =
    match x m with
    | .panic      => .panic
    | .error e m₁ => k (.error e) m₁
    | .ok a m₁    => k (.ok a) m₁ := by
  simp only [bind, Prog.attempt]
  cases x m <;> rfl

theorem walkLoop_agrees (hn : path.length < n) (hs : path.head? ≠ some 0x2F#8) :
    Agrees (walkPath f (elems path) m) (walkLoop n dir f path m) := by
  induction n generalizing dir f path m
  case zero => exact absurd hn (Nat.not_lt_zero _)
  case succ n hi =>
    by_cases hp : path = []
    case pos =>
      subst hp
      exact .found
    rw [elems_cons hp hs, walkPath]
    simp only [walkLoop, if_neg hp]
    by_cases hl : MAXNAMELEN ≤ (nextName path).length
    case pos =>
      rw [if_pos hl, if_pos hl]
      exact .error
    rw [if_neg hl, if_neg hl]
    have hlt := afterName_length hp hs
    have hle : (skipSlash (afterName path)).length ≤ (afterName path).length := skipSlash_length
    have hnil : elems (skipSlash (afterName path)) = [] ↔ skipSlash (afterName path) = [] := by
      refine ⟨fun he => by_contra fun hc => ?_, fun he => by rw [he]; rfl⟩
      rw [elems_cons hc skipSlash_head] at he
      cases he
    rw [get_bind, get_bind]
    by_cases hd : m.load32 (fType f) ≠ FTYPE_DIR
    case pos =>
      rw [if_pos hd, if_pos hd]
      exact .error
    rw [if_neg hd, if_neg hd, attempt_bind, attempt_bind]
    simp only [hnil]
    cases dirLookup f (nextName path) m
    case panic => exact .panic
    case ok g m₁ => exact hi (by omega) skipSlash_head
    case error e m₁ =>
      by_cases hc : e = E_NOT_FOUND ∧ skipSlash (afterName path) = []
      case pos =>
        simp only [if_pos hc]
        rw [hc.1]
        exact .missing
      simp only [if_neg hc]
      exact .error

theorem walkPathname_agrees :
    Agrees (walkPath sRoot (pathElems path) m) (walkPathname path m) := by
  have he : pathElems path = elems (skipSlash (path.takeWhile (· ≠ 0#8))) := elems_skipSlash.symm
  rw [he]
  exact walkLoop_agrees (Nat.lt_succ_self _) skipSlash_head

end Walk

end Fs

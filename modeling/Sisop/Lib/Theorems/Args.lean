import Sisop.Lib.Args
import Mathlib.Algebra.Order.Ring.Nat

namespace Lib.Args

-- An argument with flags, or "--".
def isFlags (w : Str) : Bool := w.head? = some DASH && 1 < w.length

def dashes : Str := [DASH, DASH]

-- The arguments of which `argnext` returns the characters.
def flagWords (ws : List Str) : List Str := ws.takeWhile fun w => isFlags w && w ≠ dashes

-- The arguments behind them.
def others (ws : List Str) : List Str :=
  let rest := ws.drop (flagWords ws).length
  if rest.head? = some dashes then rest.tail else rest

-- A flag with what the calls of `argvalue` after it return.
abbrev Flag := UInt8 × List (Option Str)

section Run

-- `k` calls of `argvalue`
def argvalues : Nat → Argstate → List (Option Str) × Argstate
  | 0, args     => ([], args)
  | k + 1, args =>
    let (v, args) := argvalue args
    let (vs, args) := argvalues k args
    (v :: vs, args)

variable (asks : Nat → Nat)

-- `argnext` until it returns `-1`, with `asks i` calls of `argvalue` after flag `i`; `none` is a null pointer
-- that is dereferenced, or no end within so many calls of `argnext`.
def argloop : Nat → Nat → Argstate → Option (List Flag × Argstate)
  | 0, _, _        => none
  | n + 1, i, args =>
    match argnext args with
    | none                => none
    | some (none, args)   => some ([], args)
    | some (some c, args) =>
      let (vs, args) := argvalues (asks i) args
      (argloop n (i + 1) args).map fun (fs, args) => ((c, vs) :: fs, args)

-- The flags of the arguments `ws` and of the rest `cur` of a word before them, and the arguments that remain.
inductive Parses : Nat → Str → List Str → List Flag → List Str → Prop
  | nil : Parses i [] [] [] []
  | other : isFlags w = false → Parses i [] (w :: ws) [] (w :: ws)
  | dashes : Parses i [] (dashes :: ws) [] ws
  | word : cur ≠ [] → DASH :: cur ≠ Args.dashes → Parses i cur ws fs rest →
    Parses i [] ((DASH :: cur) :: ws) fs rest
  | flag : asks i = 0 → Parses (i + 1) cur ws fs rest → Parses i (c :: cur) ws ((c, []) :: fs) rest
  | value : asks i ≠ 0 → cur ≠ [] → Parses (i + 1) [] ws fs rest →
    Parses i (c :: cur) ws ((c, List.replicate (asks i) (some cur)) :: fs) rest
  | next : asks i ≠ 0 → Parses (i + 1) [] ws fs rest →
    Parses i [c] (w :: ws) ((c, List.replicate (asks i) (some w)) :: fs) rest
  | null : asks i ≠ 0 → Parses i [c] [] [(c, List.replicate (asks i) none)] []

end Run

-- The array holds the program's name, the arguments, and a null pointer.
structure Holds (prog : Option Str) (ws : List Str) (args : Argstate) : Prop where
  argc  : args.argc = ws.length + 1
  prog  : args.argv 0 = prog
  words : ∀ i ≤ ws.length, args.argv (i + 1) = ws[i]?

variable {asks : Nat → Nat} {prog : Option Str} {w cur : Str} {ws rest : List Str} {args : Argstate}
  {fs : List Flag} {c : UInt8} {i : Nat}

section Steps

theorem Holds.shift (h : Holds prog (w :: ws) args) : Holds prog ws (shift args) where
  argc  := by
    simp only [Args.shift, h.argc, List.length_cons]
    rfl
  prog  := h.prog
  words := by
    intro i hi
    have hc := h.argc
    rw [List.length_cons] at hc
    simp only [Args.shift]
    rw [if_pos (by omega)]
    exact h.words (i + 1) (Nat.succ_le_succ hi)

theorem Holds.curarg {v s : Option Str} (h : Holds prog ws args) :
    Holds prog ws { args with curarg := s, argvalue := v } :=
  ⟨h.argc, h.prog, h.words⟩

theorem Holds.first (h : Holds prog (w :: ws) args) : args.argc ≠ 1 ∧ args.argv 1 = some w :=
  ⟨by simp [h.argc], h.words 0 (Nat.zero_le _)⟩

theorem argnext_null (h : args.curarg = none) :
    argnext args = some (none, { args with argvalue := none }) := by
  simp [argnext, h]

theorem argnext_char (h : args.curarg = some (c :: cur)) :
    argnext args = some (some c, { args with curarg := some cur, argvalue := none }) := by
  simp [argnext, h]

theorem argnext_nil (h : Holds prog [] args) (hc : args.curarg = some []) :
    argnext args = some (none, { args with curarg := none, argvalue := none }) := by
  simp [argnext, hc, h.argc, endofargs]

theorem argnext_other (h : Holds prog (w :: ws) args) (hc : args.curarg = some [])
    (hw : isFlags w = false) :
    argnext args = some (none, { args with curarg := none, argvalue := none }) := by
  obtain ⟨h₁, h₂⟩ := h.first
  rcases w with _ | ⟨d, _ | ⟨c, s⟩⟩
  · simp [argnext, hc, h₁, h₂, endofargs]
  · simp [argnext, hc, h₁, h₂, endofargs]
  · have hd : d ≠ DASH := by simpa [isFlags] using hw
    simp [argnext, hc, h₁, h₂, endofargs, hd]

theorem argnext_dashes (h : Holds prog (dashes :: ws) args) (hc : args.curarg = some []) :
    argnext args = some (none, { shift args with curarg := none, argvalue := none }) := by
  obtain ⟨h₁, h₂⟩ := h.first
  simp [argnext, hc, h₁, h₂, dashes, endofargs, shift]

-- A word is taken, and its first character returned.
theorem argnext_word (h : Holds prog ((DASH :: cur) :: ws) args) (hc : args.curarg = some [])
    (hne : cur ≠ []) (hd : DASH :: cur ≠ dashes) :
    argnext args = argnext { shift args with curarg := some cur } := by
  obtain ⟨h₁, h₂⟩ := h.first
  obtain ⟨c, s, rfl⟩ := List.exists_cons_of_ne_nil hne
  have hd : ¬(c = DASH ∧ s = []) := by simpa [dashes] using hd
  simp [argnext, hc, h₁, h₂, hd, shift]

-- More calls of `argvalue` return the same.
theorem argvalues_same {v : Option Str} {args' : Argstate} {k : Nat} (h : argvalue args = (v, args'))
    (h' : argvalue args' = (v, args')) (hk : k ≠ 0) : argvalues k args = (List.replicate k v, args') := by
  have hsame : ∀ k, argvalues k args' = (List.replicate k v, args') := by
    intro k
    induction k
    case zero => rfl
    case succ k ih => simp [argvalues, h', ih, List.replicate_succ]
  obtain ⟨k, rfl⟩ := Nat.exists_eq_succ_of_ne_zero hk
  simp [argvalues, h, hsame, List.replicate_succ]

theorem argvalues_cur {k : Nat} (hv : args.argvalue = none) (hc : args.curarg = some cur) (hne : cur ≠ [])
    (hk : k ≠ 0) : argvalues k args =
      (List.replicate k (some cur), { args with curarg := some [], argvalue := some cur }) := by
  obtain ⟨c, s, rfl⟩ := List.exists_cons_of_ne_nil hne
  exact argvalues_same (by simp [argvalue, hv, argnextvalue, hc]) rfl hk

theorem argvalues_next {k : Nat} (h : Holds prog (w :: ws) args) (hv : args.argvalue = none)
    (hc : args.curarg = some []) (hk : k ≠ 0) : argvalues k args =
      (List.replicate k (some w), { shift args with curarg := some [], argvalue := some w }) := by
  obtain ⟨h₁, h₂⟩ := h.first
  have hlt : args.argc > 1 := by simp [h.argc]
  refine argvalues_same ?_ rfl hk
  simp [argvalue, hv, argnextvalue, hc, hlt, h₂, shift]

theorem argvalues_null {k : Nat} (h : Holds prog [] args) (hv : args.argvalue = none)
    (hc : args.curarg = some []) (hk : k ≠ 0) : argvalues k args =
      (List.replicate k none, { args with curarg := none, argvalue := none }) := by
  refine argvalues_same ?_ rfl hk
  simp [argvalue, hv, argnextvalue, hc, h.argc]

theorem argloop_congr {args' : Argstate} {n : Nat} (h : argnext args = argnext args') :
    argloop asks n i args = argloop asks n i args' := by
  cases n
  case zero => rfl
  case succ n => rw [argloop, argloop, h]

end Steps

section Loop

-- What is left to read.
def todo (cur : Str) (ws : List Str) : Nat := cur.length + (ws.map fun w => w.length + 1).sum

variable (asks prog) in
-- The loop ends at some time in a state which holds what the grammar leaves.
def Ends (i : Nat) (cur : Str) (ws : List Str) (args : Argstate) : Prop :=
  ∃ n fs rest args', argloop asks n i args = some (fs, args') ∧ Parses asks i cur ws fs rest ∧
    Holds prog rest args'

-- `argnext` returns `-1`.
theorem ends_here {args' : Argstate} (h : argnext args = some (none, args'))
    (hp : Parses asks i cur ws [] rest) (hh : Holds prog rest args') : Ends asks prog i cur ws args :=
  ⟨1, [], rest, args', by simp [argloop, h], hp, hh⟩

-- `argnext` returns a flag.
theorem ends_flag {vs : List (Option Str)} {args₁ args₂ : Argstate} {cur' : Str} {ws' : List Str}
    (h : argnext args = some (some c, args₁)) (hv : argvalues (asks i) args₁ = (vs, args₂))
    (hp : ∀ fs rest, Parses asks (i + 1) cur' ws' fs rest → Parses asks i cur ws ((c, vs) :: fs) rest)
    (he : Ends asks prog (i + 1) cur' ws' args₂) : Ends asks prog i cur ws args := by
  obtain ⟨n, fs, rest, args', hl, hps, hh⟩ := he
  exact ⟨n + 1, _, rest, args', by simp [argloop, h, hv, hl], hp fs rest hps, hh⟩

-- Every call of `argnext` makes less to read.
theorem argloop_ends (h : Holds prog ws args) (hc : args.curarg = some cur) :
    Ends asks prog i cur ws args := by
  induction hn : todo cur ws using Nat.strongRecOn generalizing i cur ws args
  case ind n ih =>
    subst hn
    cases cur
    case nil =>
      cases ws
      case nil => exact ends_here (argnext_nil h hc) .nil h.curarg
      case cons w ws =>
        by_cases hw : isFlags w
        case neg =>
          rw [Bool.not_eq_true] at hw
          exact ends_here (argnext_other h hc hw) (.other hw) h.curarg
        case pos =>
          by_cases hd : w = dashes
          · subst hd
            exact ends_here (argnext_dashes h hc) .dashes h.shift.curarg
          · obtain ⟨cur, rfl, hne⟩ : ∃ cur, w = DASH :: cur ∧ cur ≠ [] := by
              rcases w with _ | ⟨d, cur⟩
              · cases hw
              · simp only [isFlags, List.head?_cons, Option.some.injEq, List.length_cons, Bool.and_eq_true,
                  decide_eq_true_eq] at hw
                exact ⟨cur, by rw [hw.1], by rintro rfl; simp at hw⟩
            have hlt : todo cur ws < todo [] ((DASH :: cur) :: ws) := by
              simp only [todo, List.length_nil, List.map_cons, List.sum_cons, List.length_cons]
              omega
            obtain ⟨n, fs, rest, args', hl, hp, hh⟩ := ih _ hlt h.shift.curarg rfl rfl
            exact ⟨n, fs, rest, args', (argloop_congr (argnext_word h hc hne hd)).trans hl,
              .word hne hd hp, hh⟩
    case cons c cur =>
      have hnext := argnext_char hc
      have hlt : todo cur ws < todo (c :: cur) ws := by simp [todo]
      by_cases hk : asks i = 0
      case pos =>
        refine ends_flag hnext (by rw [hk]; rfl) (fun _ _ => .flag hk) (ih _ hlt h.curarg rfl rfl)
      case neg =>
        by_cases hne : cur = []
        case neg =>
          have hlt' : todo [] ws < todo (c :: cur) ws := by simp [todo]
          exact ends_flag hnext (argvalues_cur rfl rfl hne hk) (fun _ _ => .value hk hne)
            (ih _ hlt' h.curarg rfl rfl)
        case pos =>
          subst hne
          cases ws
          case nil =>
            have hvs := argvalues_null (h.curarg (v := none) (s := some [])) rfl rfl hk
            refine ⟨2, _, [], { args with curarg := none, argvalue := none }, ?_, .null hk, h.curarg⟩
            rw [argloop, hnext]
            simp only [hvs]
            rw [argloop, argnext_null rfl]
            rfl
          case cons w ws =>
            have hlt' : todo [] ws < todo [c] (w :: ws) := by
              simp only [todo, List.length_nil, List.map_cons, List.sum_cons, List.length_cons]
              omega
            exact ends_flag hnext (argvalues_next h.curarg rfl rfl hk) (fun _ _ => .next hk)
              (ih _ hlt' h.curarg.shift.curarg rfl rfl)

-- The arguments that remain are the last ones, in their order.
theorem Parses.suffix (h : Parses asks i cur ws fs rest) : rest <:+ ws := by
  induction h
  case nil => exact List.suffix_rfl
  case other => exact List.suffix_rfl
  case dashes => exact List.suffix_cons _ _
  case word ih => exact ih.trans (List.suffix_cons _ _)
  case flag ih => exact ih
  case value ih => exact ih
  case next ih => exact ih.trans (List.suffix_cons _ _)
  case null => exact List.suffix_rfl

theorem others_cons (hf : isFlags w) (hd : w ≠ dashes) : others (w :: ws) = others ws := by
  simp [others, flagWords, hf, hd]

-- Without a call of `argvalue`, the flags are the characters of the leading words.
theorem Parses.flags (h : Parses asks i cur ws fs rest) (ha : ∀ i, asks i = 0) :
    fs.map Prod.fst = cur ++ (flagWords ws).flatMap List.tail ∧ rest = others ws := by
  induction h
  case nil => exact ⟨rfl, rfl⟩
  case other w _ _ hw =>
    have hd : w ≠ Args.dashes := by
      rintro rfl
      cases hw
    simp [flagWords, others, hw, hd]
  case dashes => simp [flagWords, others]
  case word cur _ _ _ _ hne hd _ ih =>
    have hf : isFlags (DASH :: cur) := by simp [isFlags, List.length_pos_iff.mpr hne]
    rw [others_cons hf hd]
    simpa [flagWords, hf, hd] using ih
  case flag ih => simpa using ih
  case value hk _ _ _ => exact absurd (ha _) hk
  case next hk _ _ => exact absurd (ha _) hk
  case null hk => exact absurd (ha _) hk

end Loop

-- The loop ends. What it returns are the flags and values of the leading arguments, all characters of these
-- if nothing asks for a value, and the array then holds the other arguments.
def Reads (asks : Nat → Nat) (prog : Option Str) (ws : List Str) (argv : Nat → Option Str) : Prop :=
  ∃ n fs rest args, argloop asks n 0 (argstart (ws.length + 1) argv) = some (fs, args) ∧
    Parses asks 0 [] ws fs rest ∧ Holds prog rest args ∧ rest <:+ ws ∧
    ((∀ i, asks i = 0) → fs.map Prod.fst = (flagWords ws).flatMap List.tail ∧ rest = others ws)

variable (asks) in
theorem argnext_reads {argv : Nat → Option Str} (h : argv 0 = prog)
    (hw : ∀ i ≤ ws.length, argv (i + 1) = ws[i]?) : Reads asks prog ws argv := by
  have hh : Holds prog ws (argstart (ws.length + 1) argv) := ⟨rfl, h, hw⟩
  have he : Ends asks prog 0 [] ws (argstart (ws.length + 1) argv) := by
    cases ws
    case nil => exact ends_here (argnext_null rfl) .nil hh.curarg
    case cons => exact argloop_ends hh (by simp [argstart])
  obtain ⟨n, fs, rest, args, hl, hp, hr⟩ := he
  exact ⟨n, fs, rest, args, hl, hp, hr, hp.suffix, hp.flags⟩

-- prog -ab x, with a value for the second flag
theorem argnext_reads_ab : Reads (fun i => i) (some [112]) [[DASH, 97, 98], [120]]
    fun i => if i = 0 then some [112] else [[DASH, 97, 98], [120]][i - 1]? :=
  argnext_reads (fun i => i) rfl fun _ _ => rfl

end Lib.Args

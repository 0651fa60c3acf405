import Sisop.Shell.Parsing
import Mathlib.Data.List.TakeWhile
import Mathlib.Tactic.Common

namespace Shell

-- The tokens of a command.
def tokens : List Char → List (List Char)
  | []     => []
  | c :: s =>
    if c = SPACE then [] :: tokens s
    else
      match tokens s with
      | []        => [[c]]
      | tok :: ts => (c :: tok) :: ts

def isRedir (tok : List Char) : Bool := (blockContains tok '>').isSome || (blockContains tok '<').isSome

-- The tokens that go to `eargv` and to `argv`.
def isEarg (tok : List Char) : Bool := !isRedir tok && isEnvironVar tok

def isArg (tok : List Char) : Bool := !isRedir tok && !isEnvironVar tok

-- A line: the first command, and the others with the number of spaces between them and the `|`.
def line (c : List Char) : List (Nat × List Char) → List Char
  | []             => c
  | (k, c') :: cs => c ++ '|' :: (List.replicate k SPACE ++ line c' cs)

-- A command as it stands in a line.
structure Segment (c : List Char) : Prop where
  ne_nil : c ≠ []
  noEnd  : END_STRING ∉ c
  noPipe : '|' ∉ c
  short  : (tokens c).length < MAXARGS

structure IsLine (c : List Char) (cs : List (Nat × List Char)) : Prop where
  first  : Segment c
  others : ∀ kc ∈ cs, Segment kc.2 ∧ kc.2.head? ≠ some SPACE

-- `parse_line` parses the string as one command, and changes nothing.
structure Fits (s : List Char) : Prop where
  back : isBack END_STRING s = false
  args : ((tokens s).filter isArg).length < MAXARGS
  envs : ((tokens s).filter isEarg).length ≤ MAXARGS

-- What remains of the line after its first command, after its second command and so on, up to two commands.
def RestFits : List (Nat × List Char) → Prop
  | (_, c) :: kc :: cs => Fits (line c (kc :: cs)) ∧ RestFits (kc :: cs)
  | _                  => True

def Cmd.tree : Cmd → List Cmd → Cmd
  | c, []       => c
  | c, c' :: cs => .pipe c (c'.tree cs)

section Parse

variable (getenv : List Char → Option (List Char))

-- What `parse_cmd` returns for a command alone.
def parseAlone (prev : Char) (c : List Char) : Option Cmd :=
  (parseCmd getenv prev (c ++ [END_STRING])).map Prod.fst

end Parse

def Cmd.isLeaf : Cmd → Bool
  | .exec _  => true
  | .back .. => true
  | _        => false

def Cmd.hasBack : Cmd → Bool
  | .null     => false
  | .exec _   => false
  | .back ..  => true
  | .pipe l r => l.hasBack || r.hasBack

variable {getenv : List Char → Option (List Char)} {prev : Char} {s s₁ s₂ after tok buf : List Char}
  {c c' : ExecCmd} {i k : Nat}

section Strings

theorem takeWhile_append {p : Char → Bool} {x : Char} (h : ∀ a ∈ s₁, p a) (hx : p x = false) :
    (s₁ ++ x :: s₂).takeWhile p = s₁ := by
  rw [List.takeWhile_append_of_pos h, List.takeWhile_cons_of_neg (by simp [hx]), List.append_nil]

theorem cstr_append (h : END_STRING ∉ s) : cstr (s ++ END_STRING :: after) = s := by
  apply takeWhile_append
  · intro a ha
    simp only [ne_eq, decide_not, Bool.not_eq_eq_eq_not, Bool.not_true, decide_eq_false_iff_not]
    rintro rfl
    exact h ha
  · simp

theorem blockContains_none {x : Char} (h : x ∉ s) : blockContains s x = none := by
  simp only [blockContains, List.findIdx?_eq_none_iff, decide_eq_false_iff_not]
  rintro _ hy rfl
  exact h hy

theorem blockContains_append {x : Char} (h : x ∉ s₁) :
    blockContains (s₁ ++ x :: s₂) x = some s₁.length := by
  have hn : s₁.findIdx? (· = x) = none := blockContains_none h
  rw [blockContains, List.findIdx?_append, hn, List.findIdx?_cons]
  simp

variable (buf) in
theorem splitLine_append {x : Char} (hx : x = '|' ∨ x = END_STRING) (h : '|' ∉ s)
    (h' : END_STRING ∉ s) :
    splitLine (s ++ x :: buf) '|' = (s ++ [END_STRING],
      (buf.takeWhile (· = SPACE)).getLastD END_STRING, buf.dropWhile (· = SPACE)) := by
  have ht : (s ++ x :: buf).takeWhile (fun c => c ≠ '|' ∧ c ≠ END_STRING) = s := by
    apply takeWhile_append
    · intro a ha
      simp only [ne_eq, decide_eq_true_eq]
      exact ⟨fun he => h (he ▸ ha), fun he => h' (he ▸ ha)⟩
    · rcases hx with rfl | rfl <;> simp
  have hd : (s ++ x :: buf).drop (s.length + 1) = buf := by simp
  simp only [splitLine, ht, hd]

-- The spaces before a command, or nothing.
theorem spaces_last : (buf.takeWhile (· = SPACE)).getLastD END_STRING ≠ '>' := by
  rcases List.eq_nil_or_concat (buf.takeWhile (· = SPACE)) with he | ⟨_, x, he⟩
  · rw [he]
    decide
  · have hx : x ∈ buf.takeWhile (· = SPACE) := by simp [he]
    have hx : x = SPACE := by simpa using List.mem_takeWhile_imp hx
    rw [he, hx]
    simp only [List.concat_eq_append, List.getLastD_concat]
    decide

theorem isBack_first (h : '&' ∉ s₁) : isBack prev (s₁ ++ '&' :: s₂) ↔ s₁.getLastD prev ≠ '>' := by
  simp [isBack, blockContains_append h]

theorem isBack_none (h : '&' ∉ s) : isBack prev s = false := by
  rw [isBack, blockContains_none h]

theorem isBack_iff : isBack prev s ↔
    ∃ s₁ s₂, s = s₁ ++ '&' :: s₂ ∧ '&' ∉ s₁ ∧ s₁.getLastD prev ≠ '>' := by
  constructor
  case mp =>
    intro h
    by_cases hm : '&' ∈ s
    · obtain ⟨s₁, s₂, rfl, hn⟩ := List.eq_append_cons_of_mem hm
      exact ⟨s₁, s₂, rfl, hn, (isBack_first hn).mp h⟩
    · rw [isBack_none hm] at h
      cases h
  case mpr =>
    rintro ⟨s₁, s₂, rfl, hn, h⟩
    exact (isBack_first hn).mpr h

-- Only the first `&` counts.
theorem isBack_append (h : '&' ∈ s) : isBack prev (s ++ s₂) = isBack prev s := by
  obtain ⟨s₁, s₃, rfl, hn⟩ := List.eq_append_cons_of_mem h
  rw [Bool.eq_iff_iff, List.append_assoc, List.cons_append, isBack_first hn, isBack_first hn]

theorem isBack_skip (h : '&' ∉ s) : isBack prev (s ++ s₂) = isBack (s.getLastD prev) s₂ := by
  by_cases hm : '&' ∈ s₂
  · obtain ⟨s₁, s₃, rfl, hn⟩ := List.eq_append_cons_of_mem hm
    have hn' : '&' ∉ s ++ s₁ := by simp [h, hn]
    rw [Bool.eq_iff_iff, ← List.append_assoc, isBack_first hn', isBack_first hn]
    simp [List.getLastD_eq_getLast?, List.getLast?_append, Option.getD_or]
  · rw [isBack_none hm, isBack_none (by simp [h, hm])]

theorem isBack_prev {prev' : Char} (h : prev ≠ '>') (h' : prev' ≠ '>') :
    isBack prev s = isBack prev' s := by
  have hlast (s₁ : List Char) : s₁.getLastD prev ≠ '>' ↔ s₁.getLastD prev' ≠ '>' := by
    cases s₁
    case nil => exact iff_of_true h h'
    case cons => rw [List.getLastD_cons, List.getLastD_cons]
  rw [Bool.eq_iff_iff, isBack_iff, isBack_iff]
  simp only [hlast]

end Strings

section Tokens

theorem tokens_eq (h : s ≠ []) :
    tokens s = getToken s :: tokens ((s.drop (getToken s).length).drop 1) := by
  induction s
  case nil => exact absurd rfl h
  case cons x s ih =>
    by_cases hx : x = SPACE
    · simp [tokens, getToken, hx]
    · by_cases hs : s = []
      · simp [tokens, getToken, hx, hs]
      · rw [tokens, if_neg hx, ih hs]
        simp [getToken, hx]

theorem tokens_length_cons {x : Char} : (tokens (x :: s)).length =
    if x = SPACE then (tokens s).length + 1 else max 1 (tokens s).length := by
  rw [tokens]
  split
  · rfl
  · split
    · simp [*]
    · simp [*]

theorem tokens_length_append : (tokens s).length ≤ (tokens (s ++ s₂)).length := by
  induction s
  case nil => simp [tokens]
  case cons x s ih =>
    rw [List.cons_append, tokens_length_cons, tokens_length_cons]
    split <;> omega

theorem parseTokens_eq : parseTokens getenv c s = (tokens s).foldlM (parseToken getenv) c := by
  induction c, s using parseTokens.induct
  case case1 =>
    rw [parseTokens]
    rfl
  case case2 c s h ih =>
    rw [parseTokens, dif_neg h, tokens_eq h, List.foldlM_cons]
    exact congrArg _ (funext ih)

variable (getenv tok c) in
-- A token goes to one of the arrays, or to neither.
theorem parseToken_eq : (isRedir tok ∧ ∃ c', parseToken getenv c tok = some c' ∧
      c'.argv = c.argv ∧ c'.eargv = c.eargv ∧ c'.type = .redir) ∨
    (isEarg tok ∧ parseToken getenv c tok =
      if c.eargv.length < MAXARGS then some { c with eargv := c.eargv ++ [tok] } else none) ∨
    (isArg tok ∧ parseToken getenv c tok =
      if c.argv.length < MAXARGS then some { c with argv := c.argv ++ [expandEnvironVar getenv tok] }
      else none) := by
  unfold parseToken
  cases hr : parseRedirFlow c tok
  case some c₁ =>
    refine .inl ?_
    unfold parseRedirFlow at hr
    split at hr
    case h_4 hb =>
      split at hr
      case isTrue hs =>
        cases hr
        exact ⟨by simp [isRedir, hs], _, rfl, rfl, rfl, rfl⟩
      case isFalse => cases hr
    all_goals
      rename_i hb
      cases hr
      exact ⟨by simp [isRedir, hb], _, rfl, rfl, rfl, rfl⟩
  case none =>
    have hn : isRedir tok = false := by
      unfold parseRedirFlow at hr
      split at hr
      case h_4 hb =>
        split at hr
        case isTrue => cases hr
        case isFalse hs => simpa [isRedir, hb] using hs
      all_goals cases hr
    cases he : isEnvironVar tok
    case true => exact .inr (.inl ⟨by simp [isEarg, hn, he], rfl⟩)
    case false => exact .inr (.inr ⟨by simp [isArg, hn, he], rfl⟩)

variable (tok) in
-- Which tokens go where.
theorem isRedir_cases : (isRedir tok → isArg tok = false ∧ isEarg tok = false) ∧
    (isEarg tok → isArg tok = false) ∧ (isArg tok → isEarg tok = false) := by
  unfold isArg isEarg
  cases isRedir tok <;> cases isEnvironVar tok <;> simp

variable (getenv) in
theorem parseTokens_isSome (ts : List (List Char)) (hc : c.eargv.length ≤ MAXARGS) :
    (∃ c', ts.foldlM (parseToken getenv) c = some c' ∧ c'.argv.length < MAXARGS) ↔
      c.argv.length + (ts.filter isArg).length < MAXARGS ∧
        c.eargv.length + (ts.filter isEarg).length ≤ MAXARGS := by
  induction ts generalizing c
  case nil => simp [hc]
  case cons tok ts ih =>
    rw [List.foldlM_cons]
    obtain ⟨hr, he, ha⟩ := isRedir_cases tok
    rcases parseToken_eq getenv tok c with
      ⟨hi, c', hx, h₁, h₂, -⟩ | ⟨hi, hx⟩ | ⟨hi, hx⟩
    · simp [hx, ih (h₂ ▸ hc), hr hi, h₁, h₂]
    · rw [hx]
      by_cases hlt : c.eargv.length < MAXARGS
      · have hc' : (c.eargv ++ [tok]).length ≤ MAXARGS := by
          rw [List.length_append]
          exact hlt
        simp [hlt, ih (c := { c with eargv := c.eargv ++ [tok] }) hc', hi, he hi]
        omega
      · simp [hlt, hi, he hi]
        omega
    · rw [hx]
      by_cases hlt : c.argv.length < MAXARGS
      · simp [hlt, ih, hc, hi, ha hi]
        omega
      · simp [hlt, hi, ha hi]
        omega

-- What is in the arrays after the tokens, and whether the command has redirections.
structure ParsedAs (getenv : List Char → Option (List Char)) (ts : List (List Char)) (c c' : ExecCmd) :
    Prop where
  argv  : c'.argv = c.argv ++ (ts.filter isArg).map (expandEnvironVar getenv)
  eargv : c'.eargv = c.eargv ++ ts.filter isEarg
  type  : c'.type = if ts.any isRedir then .redir else c.type

theorem parseTokens_argv {ts : List (List Char)} (h : ts.foldlM (parseToken getenv) c = some c') :
    ParsedAs getenv ts c c' := by
  induction ts generalizing c
  case nil =>
    cases h
    constructor <;> simp
  case cons tok ts ih =>
    rw [List.foldlM_cons, Option.bind_eq_bind, Option.bind_eq_some_iff] at h
    obtain ⟨d, hd, h⟩ := h
    obtain ⟨ha, he, ht⟩ := ih h
    obtain ⟨hr, hea, hae⟩ := isRedir_cases tok
    rcases parseToken_eq getenv tok c with ⟨hi, d', hx, h₁, h₂, h₃⟩ | ⟨hi, hx⟩ | ⟨hi, hx⟩
    · rw [hx] at hd
      cases hd
      constructor <;> simp [ha, he, ht, h₁, h₂, h₃, hr hi, hi]
    · have hn : isRedir tok = false := by
        by_contra hc
        rw [(hr (by simpa using hc)).2] at hi
        cases hi
      rw [hx] at hd
      split at hd
      case isTrue =>
        cases hd
        constructor <;> simp [ha, he, ht, hi, hea hi, hn]
      case isFalse => cases hd
    · have hn : isRedir tok = false := by
        by_contra hc
        rw [(hr (by simpa using hc)).1] at hi
        cases hi
      rw [hx] at hd
      split at hd
      case isTrue =>
        cases hd
        constructor <;> simp [ha, he, ht, hi, hae hi, hn]
      case isFalse => cases hd

-- `parse_exec` on a string with its terminator.
theorem parseExec_argv {e : ExecCmd} (h : END_STRING ∉ s)
    (he : parseExec getenv (s ++ END_STRING :: after) = some e) :
    ParsedAs getenv (tokens s) (execCmdCreate s) e := by
  rw [parseExec, cstr_append h, parseTokens_eq, Option.bind_eq_bind, Option.bind_eq_some_iff] at he
  obtain ⟨c, hc, he⟩ := he
  split at he
  case isTrue =>
    cases he
    exact parseTokens_argv hc
  case isFalse => cases he

variable (getenv after) in
theorem parseExec_isSome (h : END_STRING ∉ s) :
    (∃ e, parseExec getenv (s ++ END_STRING :: after) = some e) ↔
      ((tokens s).filter isArg).length < MAXARGS ∧ ((tokens s).filter isEarg).length ≤ MAXARGS := by
  have hx := parseTokens_isSome getenv (c := execCmdCreate s) (tokens s) (Nat.zero_le _)
  simp only [execCmdCreate, List.length_nil, Nat.zero_add] at hx
  rw [← hx, parseExec, cstr_append h, parseTokens_eq]
  simp only [execCmdCreate, Option.bind_eq_bind, Option.bind_eq_some_iff]
  constructor
  case mp =>
    rintro ⟨e, c', he, hc⟩
    split at hc
    case isTrue hlt => exact ⟨c', he, hlt⟩
    case isFalse => cases hc
  case mpr =>
    rintro ⟨c', he, hlt⟩
    exact ⟨c', c', he, if_pos hlt⟩

-- Only the string counts.
theorem parseExec_after (after' : List Char) (h : END_STRING ∉ s) :
    parseExec getenv (s ++ END_STRING :: after) = parseExec getenv (s ++ END_STRING :: after') := by
  rw [parseExec, parseExec, cstr_append h, cstr_append h]

theorem filter_length {ts : List (List Char)} (h : ts.length < MAXARGS) :
    (ts.filter isArg).length < MAXARGS ∧ (ts.filter isEarg).length ≤ MAXARGS :=
  ⟨lt_of_le_of_lt (List.length_filter_le _ _) h,
    Nat.le_of_lt (lt_of_le_of_lt (List.length_filter_le _ _) h)⟩

end Tokens

section Commands

variable (getenv after) in
theorem parseCmd_exec (h : END_STRING ∉ s) (hne : s ≠ []) (hb : isBack prev s = false) :
    parseCmd getenv prev (s ++ END_STRING :: after) =
      (parseExec getenv (s ++ END_STRING :: after)).map fun e => (.exec e, s ++ END_STRING :: after) := by
  rw [parseCmd, cstr_append h, if_neg (by simpa using hne), hb, if_neg (by decide)]
  cases parseExec getenv (s ++ END_STRING :: after) <;> rfl

theorem parseCmd_back (h₁ : END_STRING ∉ s₁) (h₂ : END_STRING ∉ s₂) (hn : '&' ∉ s₁)
    (hb : s₁.getLastD prev ≠ '>') : parseCmd getenv prev (s₁ ++ '&' :: s₂ ++ END_STRING :: after) =
      (parseExec getenv (s₁ ++ END_STRING :: after)).map fun e =>
        (.back e.scmd e, s₁ ++ END_STRING :: (s₂ ++ END_STRING :: after)) := by
  have hs : END_STRING ∉ s₁ ++ '&' :: s₂ := by
    simp only [List.mem_append, List.mem_cons, h₁, h₂, or_false, false_or]
    decide
  have hi : (s₁ ++ '&' :: s₂ ++ END_STRING :: after).findIdx (· = '&') = s₁.length := by
    rw [List.append_assoc, List.cons_append]
    exact (List.findIdx?_eq_some_iff_findIdx_eq.mp (blockContains_append hn)).2
  rw [parseCmd, cstr_append hs, if_neg (by simp),
    if_pos (isBack_iff.mpr ⟨s₁, s₂, rfl, hn, hb⟩), parseBack]
  simp only [hi]
  have hset : (s₁ ++ '&' :: s₂ ++ END_STRING :: after).set s₁.length END_STRING =
      s₁ ++ END_STRING :: (s₂ ++ END_STRING :: after) := by
    simp
  rw [hset, parseExec_after after h₁]
  cases parseExec getenv (s₁ ++ END_STRING :: after) <;> rfl

variable (getenv prev) in
-- A string that holds one command with few tokens.
theorem parseCmd_short (h : END_STRING ∉ s) (hne : s ≠ []) (ht : (tokens s).length < MAXARGS) :
    ∃ cmd, parseAlone getenv prev s = some cmd ∧ cmd.hasBack = isBack prev s ∧ cmd.isLeaf ∧
      ∀ after, ∃ s' after', parseCmd getenv prev (s ++ END_STRING :: after) =
        some (cmd, s' ++ END_STRING :: after') ∧ END_STRING ∉ s' ∧ s' ⊆ s := by
  unfold parseAlone
  cases hb : isBack prev s
  case false =>
    obtain ⟨e, he⟩ := (parseExec_isSome getenv [] h).mpr (filter_length ht)
    refine ⟨.exec e, ?_, rfl, rfl, fun after => ⟨s, after, ?_, h, List.Subset.refl s⟩⟩
    · rw [parseCmd_exec _ _ h hne hb, he]
      rfl
    · rw [parseCmd_exec _ _ h hne hb, parseExec_after [] h, he]
      rfl
  case true =>
    obtain ⟨s₁, s₂, rfl, hn, hl⟩ := isBack_iff.mp hb
    have h₁ : END_STRING ∉ s₁ := fun hm => h (List.mem_append_left _ hm)
    have h₂ : END_STRING ∉ s₂ := fun hm => h (List.mem_append_right _ (List.mem_cons_of_mem _ hm))
    obtain ⟨e, he⟩ := (parseExec_isSome getenv [] h₁).mpr
      (filter_length (lt_of_le_of_lt tokens_length_append ht))
    refine ⟨.back e.scmd e, ?_, rfl, rfl, fun after => ⟨s₁, s₂ ++ END_STRING :: after, ?_, h₁,
      List.subset_append_left _ _⟩⟩
    · rw [parseCmd_back h₁ h₂ hn hl, he]
      rfl
    · rw [parseCmd_back h₁ h₂ hn hl, parseExec_after [] h₁, he]
      rfl

-- The character before a string matters only if it is a `>`.
theorem parseCmd_prev {prev' : Char} (h : prev ≠ '>') (h' : prev' ≠ '>') :
    parseCmd getenv prev buf = parseCmd getenv prev' buf := by
  rw [parseCmd, parseCmd, isBack_prev h h']

theorem parseLine_prev {prev' : Char} (h : prev ≠ '>') (h' : prev' ≠ '>') :
    parseLine getenv prev buf = parseLine getenv prev' buf := by
  rw [parseLine, parseLine]
  simp only [parseCmd_prev h h']

-- `parse_line` after `split_line` and the two calls of `parse_cmd`.
theorem parseLine_eq {left right right' b : List Char} {prev' : Char} {l r : Cmd}
    (hs : splitLine buf '|' = (left, prev', right)) (hl : parseCmd getenv prev left = some (l, b))
    (hr : parseCmd getenv prev' right = some (r, right')) : parseLine getenv prev buf =
      if hasPipe right' then (parseLine getenv prev' right').map (pipeCmdCreate l)
      else some (pipeCmdCreate l r) := by
  rw [parseLine]
  split
  case h_1 hs' =>
    rw [hs, Prod.mk.injEq, Prod.mk.injEq] at hs'
    obtain ⟨rfl, rfl, rfl⟩ := hs'
    split
    case h_1 hl' hr' =>
      rw [hl] at hl'
      rw [hr] at hr'
      cases hl'
      cases hr'
      split
      · cases parseLine getenv prev' right' <;> rfl
      · rfl
    case h_2 hno => exact absurd hr (hno _ _ _ _ hl)

theorem parseLine_some {left right : List Char} {prev' : Char} {t : Cmd}
    (hs : splitLine buf '|' = (left, prev', right)) (h : parseLine getenv prev buf = some t) :
    ∃ l b r right', parseCmd getenv prev left = some (l, b) ∧
      parseCmd getenv prev' right = some (r, right') ∧
      if hasPipe right' then ∃ t', parseLine getenv prev' right' = some t' ∧ t = pipeCmdCreate l t'
      else t = pipeCmdCreate l r := by
  rw [parseLine] at h
  split at h
  case h_1 hs' =>
    rw [hs, Prod.mk.injEq, Prod.mk.injEq] at hs'
    obtain ⟨rfl, rfl, rfl⟩ := hs'
    split at h
    case h_1 l b r right' hl hr =>
      refine ⟨l, b, r, right', hl, hr, ?_⟩
      split at h
      case isTrue hp =>
        rw [if_pos hp]
        obtain ⟨t', ht, he⟩ := Option.bind_eq_some_iff.mp h
        exact ⟨t', ht, (Option.some.inj he).symm⟩
      case isFalse hp =>
        rw [if_neg hp]
        exact (Option.some.inj h).symm
    case h_2 => cases h

theorem pipeCmdCreate_hasBack {l r : Cmd} (hl : l.hasBack = false) (hr : r.hasBack = false) :
    (pipeCmdCreate l r).hasBack = false := by
  unfold pipeCmdCreate
  split
  · exact hl
  · simp [Cmd.hasBack, hl, hr]

-- Without an `&`, nothing runs in the back.
theorem parseCmd_noBack {cmd : Cmd} {buf' : List Char} (h : END_STRING ∉ s) (hn : '&' ∉ s)
    (hx : parseCmd getenv prev (s ++ END_STRING :: after) = some (cmd, buf')) :
    cmd.hasBack = false ∧ buf' = s ++ END_STRING :: after := by
  by_cases hs : s = []
  · subst hs
    rw [parseCmd, cstr_append h, if_pos List.length_nil] at hx
    cases hx
    exact ⟨rfl, rfl⟩
  · rw [parseCmd_exec _ _ h hs (isBack_none hn)] at hx
    obtain ⟨e, -, he⟩ := Option.map_eq_some_iff.mp hx
    cases he
    exact ⟨rfl, rfl⟩

theorem dropWhile_end : (s ++ END_STRING :: after).dropWhile (· = SPACE) =
    s.dropWhile (· = SPACE) ++ END_STRING :: after := by
  induction s
  case nil => simp [SPACE, END_STRING]
  case cons x s ih =>
    by_cases hx : x = SPACE
    · simpa [hx] using ih
    · simp [hx]

theorem parseLine_noBack {t : Cmd} (h : END_STRING ∉ s) (hn : '&' ∉ s) (hp : '|' ∈ s)
    (hx : parseLine getenv prev (s ++ END_STRING :: after) = some t) : t.hasBack = false := by
  induction hlen : s.length using Nat.strongRecOn generalizing s prev t
  case ind n ih =>
    obtain ⟨s₁, s₂, rfl, hp₁⟩ := List.eq_append_cons_of_mem hp
    simp only [List.mem_append, List.mem_cons, not_or] at h hn
    have hs := splitLine_append (s₂ ++ END_STRING :: after) (.inl rfl) hp₁ h.1
    rw [dropWhile_end] at hs
    have hsub : s₂.dropWhile (· = SPACE) ⊆ s₂ := (List.dropWhile_sublist _).subset
    have h₂ : END_STRING ∉ s₂.dropWhile (· = SPACE) := fun hm => h.2.2 (hsub hm)
    have hn₂ : '&' ∉ s₂.dropWhile (· = SPACE) := fun hm => hn.2.2 (hsub hm)
    rw [List.append_assoc, List.cons_append] at hx
    obtain ⟨l, b, r, right', hl, hr, ht⟩ := parseLine_some hs hx
    obtain ⟨hlb, -⟩ := parseCmd_noBack h.1 hn.1 hl
    obtain ⟨hrb, rfl⟩ := parseCmd_noBack h₂ hn₂ hr
    split at ht
    case isTrue hpipe =>
      obtain ⟨t', hx', rfl⟩ := ht
      have hp₂ : '|' ∈ s₂.dropWhile (· = SPACE) := by
        by_contra hno
        rw [hasPipe, cstr_append h₂, blockContains_none hno] at hpipe
        cases hpipe
      refine pipeCmdCreate_hasBack hlb (ih _ ?_ h₂ hn₂ hp₂ hx' rfl)
      have hle := (List.dropWhile_sublist (· = SPACE) (l := s₂)).length_le
      simp only [List.length_append, List.length_cons] at hlen
      omega
    case isFalse =>
      rw [ht]
      exact pipeCmdCreate_hasBack hlb hrb

end Commands

-- `parse_line` returns the tree of the commands that `parse_cmd` builds.
def Composes (getenv : List Char → Option (List Char)) (prev : Char) (c : List Char)
    (cs : List (Nat × List Char)) (after : List Char) : Prop :=
  ∃ cmd cmds, parseAlone getenv prev c = some cmd ∧
    List.Forall₂ (fun kc cmd => parseAlone getenv END_STRING kc.2 = some cmd) cs cmds ∧
    parseLine getenv prev (line c cs ++ END_STRING :: after) = some (cmd.tree cmds)

section Line

variable {s c c' : List Char} {cs : List (Nat × List Char)} {cmd cmd' : Cmd} {cmds : List Cmd}

theorem IsLine.tail (h : IsLine c ((k, c') :: cs)) : IsLine c' cs where
  first  := (h.others (k, c') List.mem_cons_self).1
  others := fun _ hm => h.others _ (List.mem_cons_of_mem _ hm)

theorem IsLine.noEnd (h : IsLine c cs) : END_STRING ∉ line c cs := by
  induction cs generalizing c
  case nil => exact h.first.noEnd
  case cons kc cs ih =>
    have hr := ih h.tail
    simp only [line, List.mem_append, List.mem_cons, List.mem_replicate, not_or, not_and]
    exact ⟨h.first.noEnd, by decide, fun _ => by decide, hr⟩

theorem line_ne_nil (h : IsLine c cs) : line c cs ≠ [] := by
  cases cs
  case nil => exact h.first.ne_nil
  case cons => simp [line]

variable (after) in
theorem splitLine_line (h : IsLine c ((k, c') :: cs)) :
    splitLine (line c ((k, c') :: cs) ++ END_STRING :: after) '|' = (c ++ [END_STRING],
      ((List.replicate k SPACE ++ (line c' cs ++ END_STRING :: after)).takeWhile
        (· = SPACE)).getLastD END_STRING,
      line c' cs ++ END_STRING :: after) := by
  have hd : (List.replicate k SPACE ++ (line c' cs ++ END_STRING :: after)).dropWhile (· = SPACE) =
      line c' cs ++ END_STRING :: after := by
    rw [List.dropWhile_append_of_pos fun a ha => by simp [List.eq_of_mem_replicate ha]]
    obtain ⟨hs, hh⟩ := h.others (k, c') List.mem_cons_self
    obtain ⟨x, c₁, rfl⟩ := List.exists_cons_of_ne_nil hs.ne_nil
    have hx : x ≠ SPACE := by simpa using hh
    cases cs <;> simp [line, hx]
  rw [line, List.append_assoc, List.cons_append, List.append_assoc,
    splitLine_append _ (.inl rfl) h.first.noPipe h.first.noEnd, hd]

theorem hasPipe_line (h : IsLine c ((k, c') :: cs)) :
    hasPipe (line c ((k, c') :: cs) ++ END_STRING :: after) := by
  rw [hasPipe, cstr_append h.noEnd, line, blockContains_append h.first.noPipe]
  simpa using List.length_pos_of_ne_nil h.first.ne_nil

variable (getenv prev) in
theorem parseAlone_short (h : Segment c) : ∃ cmd, parseAlone getenv prev c = some cmd ∧
    cmd.hasBack = isBack prev c ∧ cmd.isLeaf :=
  have ⟨cmd, h₁, h₂, h₃, _⟩ := parseCmd_short getenv prev h.noEnd h.ne_nil h.short
  ⟨cmd, h₁, h₂, h₃⟩

-- If there is an `&` in a line, it makes a command run in the back.
theorem tree_hasBack (h : IsLine c cs) (hb : isBack prev (line c cs))
    (hc : parseAlone getenv prev c = some cmd)
    (hcs : List.Forall₂ (fun kc cmd => parseAlone getenv END_STRING kc.2 = some cmd) cs cmds) :
    (cmd.tree cmds).hasBack := by
  induction hcs generalizing prev c cmd
  case nil =>
    obtain ⟨_, he, hb', -⟩ := parseAlone_short getenv prev h.first
    rw [hc] at he
    cases he
    exact hb'.trans hb
  case cons kc cmd' cs cmds hc' hcs ih =>
    simp only [Cmd.tree, Cmd.hasBack, Bool.or_eq_true]
    by_cases hm : '&' ∈ c
    · rw [line, isBack_append hm] at hb
      obtain ⟨_, he, hb', -⟩ := parseAlone_short getenv prev h.first
      rw [hc] at he
      cases he
      exact .inl (hb'.trans hb)
    · have hsplit : line c (kc :: cs) = (c ++ '|' :: List.replicate kc.1 SPACE) ++ line kc.2 cs := by
        simp [line]
      have hm' : '&' ∉ c ++ '|' :: List.replicate kc.1 SPACE := by
        simp only [List.mem_append, List.mem_cons, List.mem_replicate, not_or, not_and]
        exact ⟨hm, by decide, fun _ => by decide⟩
      have hl : (c ++ '|' :: List.replicate kc.1 SPACE).getLastD prev ≠ '>' := by
        cases kc.1
        case zero => simp
        case succ k =>
          rw [List.replicate_succ', ← List.cons_append, ← List.append_assoc, List.getLastD_concat]
          decide
      rw [hsplit, isBack_skip hm', isBack_prev hl (by decide : END_STRING ≠ '>')] at hb
      exact .inr (ih h.tail hb hc')

theorem pipeCmdCreate_eq {l r t : Cmd} (hl : l.isLeaf) (h : Cmd.pipe l t = pipeCmdCreate l r) :
    r = t := by
  unfold pipeCmdCreate at h
  split at h
  · rw [← h] at hl
    cases hl
  · cases h
    rfl

-- A line of one command; nothing is behind it.
theorem composes_one (h : Segment c) (ha : ∀ x ∈ after, x = END_STRING) :
    Composes getenv prev c [] after := by
  obtain ⟨cmd, hc, -, -, hx⟩ := parseCmd_short getenv prev h.noEnd h.ne_nil h.short
  obtain ⟨s', after', hx, -⟩ := hx []
  refine ⟨cmd, [], hc, .nil, ?_⟩
  have hcstr : cstr (after.dropWhile (· = SPACE)) = [] := by
    cases after
    case nil => rfl
    case cons x after =>
      have hx : x = END_STRING := ha x List.mem_cons_self
      simp [hx, SPACE, END_STRING, cstr]
  rw [line, parseLine_eq (splitLine_append _ (.inr rfl) h.noPipe h.noEnd) hx
    (by rw [parseCmd, hcstr, if_pos List.length_nil]), hasPipe, hcstr]
  rfl

-- A line of two commands.
theorem composes_two (h : IsLine c [(k, c')]) : Composes getenv prev c [(k, c')] after := by
  have h' := h.tail.first
  obtain ⟨cmd, hc, -, -, hx⟩ :=
    parseCmd_short getenv prev h.first.noEnd h.first.ne_nil h.first.short
  obtain ⟨s', after', hx, -⟩ := hx []
  obtain ⟨cmd', hc', -, hleaf, hx'⟩ :=
    parseCmd_short getenv END_STRING h'.noEnd h'.ne_nil h'.short
  obtain ⟨s₂, after₂, hx', hn, hsub⟩ := hx' after
  refine ⟨cmd, [cmd'], hc, .cons hc' .nil, ?_⟩
  have hno : hasPipe (s₂ ++ END_STRING :: after₂) = false := by
    rw [hasPipe, cstr_append hn, blockContains_none fun hm => h'.noPipe (hsub hm)]
    rfl
  have hnull : cmd' ≠ .null := by
    rintro rfl
    cases hleaf
  rw [parseLine_eq (splitLine_line after h) hx
    ((parseCmd_prev spaces_last (by decide)).trans hx'), hno]
  simp [pipeCmdCreate, hnull, Cmd.tree]

-- If the first parse of a string finds a command in the back, the second parse finds none.
theorem parseCmd_isBack {r : Cmd} {right' : List Char} (h : END_STRING ∉ s)
    (hb : isBack prev s) (hr : parseCmd getenv prev (s ++ END_STRING :: after) = some (r, right')) :
    r.isLeaf ∧ (hasPipe right' → ∀ {prev' t}, parseLine getenv prev' right' = some t →
      t.hasBack = false) := by
  obtain ⟨s₁, s₂, rfl, hn, hl⟩ := isBack_iff.mp hb
  have h₁ : END_STRING ∉ s₁ := fun hm => h (List.mem_append_left _ hm)
  have h₂ : END_STRING ∉ s₂ := fun hm => h (List.mem_append_right _ (List.mem_cons_of_mem _ hm))
  rw [parseCmd_back h₁ h₂ hn hl] at hr
  obtain ⟨e, -, he⟩ := Option.map_eq_some_iff.mp hr
  cases he
  refine ⟨rfl, fun hp _ _ ht => parseLine_noBack h₁ hn ?_ ht⟩
  by_contra hno
  rw [hasPipe, cstr_append h₁, blockContains_none hno] at hp
  cases hp

-- A longer line composes if the first parse of what follows the first command does no harm, and the second
-- one composes.
theorem composes_cons {kc : Nat × List Char} (h : IsLine c ((k, c') :: kc :: cs)) :
    Composes getenv prev c ((k, c') :: kc :: cs) after ↔
      Fits (line c' (kc :: cs)) ∧ Composes getenv END_STRING c' (kc :: cs) after := by
  have hr := h.tail
  obtain ⟨cmd, hc, -, hleaf, hx⟩ := parseCmd_short getenv prev h.first.noEnd h.first.ne_nil h.first.short
  obtain ⟨s', after', hx, -⟩ := hx []
  have hs := splitLine_line after h
  have hgt : END_STRING ≠ '>' := by decide
  constructor
  case mp =>
    rintro ⟨_, _, hc₀, hcs, hline⟩
    rw [hc] at hc₀
    cases hc₀
    cases hcs
    case cons cmd' cmds hc' hcs =>
      obtain ⟨l, b, r, right', hl, hr', ht⟩ := parseLine_some hs hline
      rw [hx] at hl
      cases hl
      rw [parseCmd_prev spaces_last hgt] at hr'
      rw [parseLine_prev spaces_last hgt] at ht
      cases hb : isBack END_STRING (line c' (kc :: cs))
      case true =>
        obtain ⟨hleaf', hno⟩ := parseCmd_isBack hr.noEnd hb hr'
        have hback := tree_hasBack hr hb hc' hcs
        split at ht
        case isTrue hpipe =>
          obtain ⟨t', ht', hte⟩ := ht
          cases pipeCmdCreate_eq hleaf hte
          rw [hno hpipe ht'] at hback
          cases hback
        case isFalse =>
          cases pipeCmdCreate_eq hleaf ht
          cases hcs
          cases hleaf'
      case false =>
        rw [parseCmd_exec _ _ hr.noEnd (line_ne_nil hr) hb] at hr'
        obtain ⟨e, he, hre⟩ := Option.map_eq_some_iff.mp hr'
        cases hre
        rw [if_pos (hasPipe_line hr)] at ht
        obtain ⟨t', ht', hte⟩ := ht
        cases pipeCmdCreate_eq hleaf hte
        have hfit := (parseExec_isSome getenv after hr.noEnd).mp ⟨e, he⟩
        exact ⟨⟨hb, hfit.1, hfit.2⟩, cmd', cmds, hc', hcs, ht'⟩
  case mpr =>
    rintro ⟨hf, cmd', cmds, hc', hcs, ht⟩
    obtain ⟨e, he⟩ := (parseExec_isSome getenv after hr.noEnd).mpr ⟨hf.args, hf.envs⟩
    have hr' := parseCmd_exec getenv after hr.noEnd (line_ne_nil hr) hf.back
    rw [he, Option.map_some, parseCmd_prev hgt spaces_last] at hr'
    refine ⟨cmd, cmd' :: cmds, hc, .cons hc' hcs, ?_⟩
    rw [parseLine_eq hs hx hr', if_pos (hasPipe_line hr), parseLine_prev spaces_last hgt, ht]
    cases hcs
    simp [pipeCmdCreate, Cmd.tree]

-- `parse_line` returns the pipe of the commands of a line, without a write outside the arrays, if and only
-- if it gets through the rests of the line.
theorem parse_line_composes (h : IsLine c cs) (ha : ∀ x ∈ after, x = END_STRING) :
    Composes getenv prev c cs after ↔ RestFits cs := by
  induction cs generalizing prev c
  case nil => exact iff_of_true (composes_one h.first ha) trivial
  case cons kc cs ih =>
    cases cs
    case nil => exact iff_of_true (composes_two h) trivial
    case cons => rw [composes_cons h, ih h.tail, RestFits]

-- "a | b | c"
theorem parse_line_composes_abc :
    Composes (fun _ => none) END_STRING ['a', ' '] [(1, ['b', ' ']), (1, ['c'])] [] :=
  (parse_line_composes ⟨⟨by decide, by decide, by decide, by decide⟩, by
    simp only [List.mem_cons, List.not_mem_nil, or_false]
    rintro _ (rfl | rfl)
    · exact ⟨⟨by decide, by decide, by decide, by decide⟩, by decide⟩
    · exact ⟨⟨by decide, by decide, by decide, by decide⟩, by decide⟩⟩
    (fun _ h => absurd h List.not_mem_nil)).mpr ⟨⟨by decide, by decide, by decide⟩, trivial⟩

-- "a | b& | c"
theorem not_parse_line_composes : ¬∀ (getenv : List Char → Option (List Char)) (prev : Char)
    (c : List Char) (cs : List (Nat × List Char)) (after : List Char), IsLine c cs →
      (∀ x ∈ after, x = END_STRING) → Composes getenv prev c cs after := by
  intro hall
  have h : IsLine ['a', ' '] [(1, ['b', '&', ' ']), (1, ['c'])] := by
    refine ⟨⟨by decide, by decide, by decide, by decide⟩, ?_⟩
    simp only [List.mem_cons, List.not_mem_nil, or_false]
    rintro _ (rfl | rfl)
    · exact ⟨⟨by decide, by decide, by decide, by decide⟩, by decide⟩
    · exact ⟨⟨by decide, by decide, by decide, by decide⟩, by decide⟩
  have hf := (composes_cons h).mp (hall (fun _ => none) END_STRING _ _ [] h fun _ hm =>
    absurd hm List.not_mem_nil)
  exact absurd hf.1.back (by decide)

end Line

end Shell

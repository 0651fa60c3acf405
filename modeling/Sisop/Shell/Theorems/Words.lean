import Sisop.Shell.Theorems.Parsing

namespace Shell

-- The maximal runs of characters other than the space.
def words (s : List Char) : List (List Char) := (s.splitOnP (· = SPACE)).filter (· ≠ [])

-- What the spaces must not change: the command less its text.
def ExecCmd.parts (c : ExecCmd) : ExecCmd := { c with scmd := [] }

-- `parse_exec` sees the words of the string, and nothing else.
structure SplitsWords (getenv : List Char → Option (List Char)) (s : List Char) (c : ExecCmd) : Prop where
  parses : parseExec getenv (s ++ [END_STRING]) = some c
  argv   : c.argv = ((words s).filter isArg).map some
  eargv  : c.eargv = (words s).filter isEarg
  filled : some [] ∉ c.argv

-- Single spaces between the words, none before them, and not too many words.
structure Spaced (s : List Char) : Prop where
  first  : s.head? ≠ some SPACE
  single : ¬[SPACE, SPACE] <:+: s
  args   : ((words s).filter isArg).length < MAXARGS
  envs   : ((words s).filter isEarg).length ≤ MAXARGS

variable {getenv : List Char → Option (List Char)} {s t tok : List Char} {c c' d : ExecCmd}

-- The tokens are the pieces between the spaces; a last empty piece is no token.
theorem splitOnP_tokens : s.splitOnP (· = SPACE) = tokens s ∨
    s.splitOnP (· = SPACE) = tokens s ++ [[]] := by
  induction s
  case nil => simp [tokens]
  case cons x s ih =>
    rw [List.splitOnP_cons_eq_if_modifyHead, tokens]
    by_cases hx : x = SPACE
    · simpa [hx] using ih
    · rw [if_neg hx, if_neg (by simpa using hx)]
      rcases ih with ih | ih
      · have hne := List.splitOnP_ne_nil (· = SPACE) s
        rw [ih] at hne ⊢
        obtain ⟨tok, ts, ht⟩ := List.exists_cons_of_ne_nil hne
        simp [ht]
      · rw [ih]
        cases tokens s <;> simp

theorem words_eq : words s = (tokens s).filter (· ≠ []) := by
  rw [words]
  rcases splitOnP_tokens (s := s) with h | h
  · rw [h]
  · simp [h]

theorem nil_mem_tokens : [] ∈ tokens s ↔ s.head? = some SPACE ∨ [] ∈ (tokens s).tail := by
  cases s
  case nil => simp [tokens]
  case cons x s =>
    rw [tokens]
    by_cases hx : x = SPACE
    · simp [hx]
    · rw [if_neg hx]
      cases tokens s <;> simp [hx]

-- The empty tokens after the first token come from two spaces in a row.
theorem tokens_tail : [] ∈ (tokens s).tail ↔ [SPACE, SPACE] <:+: s := by
  induction s
  case nil => simp [tokens]
  case cons x s ih =>
    rw [tokens, List.infix_cons_iff, ← ih]
    by_cases hx : x = SPACE
    · rw [if_pos hx, List.tail_cons, nil_mem_tokens, hx]
      cases s <;> simp [eq_comm]
    · have hn : ¬[SPACE, SPACE] <+: x :: s := by
        rw [List.cons_prefix_cons]
        exact fun h => hx h.1.symm
      rw [if_neg hx]
      cases tokens s <;> simp [hn]

-- Without an empty token, the tokens are the words.
theorem tokens_words (h : [] ∉ tokens s) : tokens s = words s := by
  rw [words_eq, eq_comm, List.filter_eq_self]
  intro tok hm
  simpa using fun (he : tok = []) => h (he ▸ hm)

theorem Spaced.tokens_eq (h : Spaced s) : tokens s = words s := by
  apply tokens_words
  rw [nil_mem_tokens, tokens_tail]
  exact fun hm => hm.elim h.first h.single

-- An empty token is an argument.
theorem isArg_nil : isArg [] := by
  decide

theorem blockContains_head {c : Char} {name : List Char} : blockContains (c :: name) c = some 0 := by
  simp [blockContains, List.findIdx?_cons]

theorem blockContains_status {name : List Char} :
    blockContains ('$' :: name) '?' = some 1 ↔ name.head? = some '?' := by
  cases name <;> simp [blockContains, List.findIdx?_cons]

-- What becomes of a token of the arguments.
theorem expand_dollar {name : List Char} : expandEnvironVar getenv ('$' :: name) =
    if name.head? = some '?' then none else some ((getenv name).getD []) := by
  rw [expandEnvironVar, if_pos blockContains_head, removerCaracter, List.erase_cons_head]
  simp only [blockContains_status]

-- A token that does not start with a `$`
theorem blockContains_dollar (h : tok.head? ≠ some '$') : blockContains tok '$' ≠ some 0 := by
  cases tok
  case nil => simp [blockContains]
  case cons c tok =>
    have hc : c ≠ '$' := by simpa using h
    simp [blockContains, List.findIdx?_cons, hc]

theorem expand_other (h : tok.head? ≠ some '$') : expandEnvironVar getenv tok = some tok := by
  rw [expandEnvironVar, if_neg (blockContains_dollar h)]

theorem expand_noDollar (h : '$' ∉ tok) : expandEnvironVar getenv tok = some tok :=
  expand_other fun hh => h (List.mem_of_head? hh)

theorem mem_of_mem_tokens {x : Char} (hm : tok ∈ tokens s) (hx : x ∈ tok) : x ∈ s := by
  induction s generalizing tok
  case nil => simp [tokens] at hm
  case cons y s ih =>
    rw [tokens] at hm
    split at hm
    case isTrue =>
      rcases List.mem_cons.mp hm with rfl | hm
      · cases hx
      · exact List.mem_cons_of_mem _ (ih hm hx)
    case isFalse =>
      split at hm
      case h_1 =>
        rw [List.mem_singleton] at hm
        subst hm
        exact List.mem_cons.mpr (.inl (List.mem_singleton.mp hx))
      case h_2 tok' ts ht =>
        rcases List.mem_cons.mp hm with rfl | hm
        · rcases List.mem_cons.mp hx with rfl | hx
          · exact List.mem_cons_self
          · exact List.mem_cons_of_mem _ (ih (ht ▸ List.mem_cons_self) hx)
        · exact List.mem_cons_of_mem _ (ih (ht ▸ List.mem_cons_of_mem _ hm) hx)

-- Without a `$`, the arguments are the tokens as they stand.
theorem map_expand (h : '$' ∉ s) : ((tokens s).filter isArg).map (expandEnvironVar getenv) =
    ((tokens s).filter isArg).map some := by
  apply List.map_congr_left
  intro tok hm
  exact expand_noDollar fun hx => h (mem_of_mem_tokens (List.mem_of_mem_filter hm) hx)

theorem parseRedirFlow_parts : (parseRedirFlow c tok).map ExecCmd.parts =
    parseRedirFlow c.parts tok := by
  unfold parseRedirFlow
  split
  case h_4 => split <;> rfl
  all_goals rfl

theorem parseToken_parts : (parseToken getenv c tok).map ExecCmd.parts =
    parseToken getenv c.parts tok := by
  unfold parseToken
  rw [← parseRedirFlow_parts]
  cases parseRedirFlow c tok
  case some => rfl
  case none =>
    simp only [Option.map_none, ExecCmd.parts]
    split
    · exact apply_ite _ _ _ _
    · exact apply_ite _ _ _ _

variable (getenv) in
-- The text of the command goes along.
theorem parseTokens_parts (ts : List (List Char)) (h : c.parts = d.parts) :
    (ts.foldlM (parseToken getenv) c).map ExecCmd.parts =
      (ts.foldlM (parseToken getenv) d).map ExecCmd.parts := by
  induction ts generalizing c d
  case nil => simpa using h
  case cons tok ts ih =>
    rw [List.foldlM_cons, List.foldlM_cons]
    have hp : (parseToken getenv c tok).map ExecCmd.parts = (parseToken getenv d tok).map ExecCmd.parts := by
      rw [parseToken_parts, parseToken_parts, h]
    cases hc : parseToken getenv c tok <;> cases hd : parseToken getenv d tok
    · rfl
    · simp [hc, hd] at hp
    · simp [hc, hd] at hp
    · exact ih (by simpa [hc, hd] using hp)

theorem parseExec_parts {e : ExecCmd} (hs : END_STRING ∉ s) (ht : END_STRING ∉ t)
    (h : tokens s = tokens t) (he : parseExec getenv (s ++ [END_STRING]) = some e) :
    ∃ e', parseExec getenv (t ++ [END_STRING]) = some e' ∧ e'.parts = e.parts := by
  rw [parseExec, cstr_append hs, parseTokens_eq, Option.bind_eq_bind, Option.bind_eq_some_iff] at he
  obtain ⟨c, hc, he⟩ := he
  split at he
  case isFalse => cases he
  case isTrue hlt =>
    cases he
    have hp := parseTokens_parts getenv (c := execCmdCreate s) (d := execCmdCreate t) (tokens s) rfl
    rw [hc, Option.map_some, eq_comm, Option.map_eq_some_iff] at hp
    obtain ⟨c', hc', hp⟩ := hp
    have hlt' : c'.argv.length < MAXARGS := by
      have ha : c'.parts.argv = e.parts.argv := congrArg ExecCmd.argv hp
      exact lt_of_eq_of_lt (congrArg List.length ha) hlt
    refine ⟨c', ?_, hp⟩
    rw [parseExec, cstr_append ht, parseTokens_eq, ← h, Option.bind_eq_bind, hc', Option.bind_some,
      if_pos hlt']

theorem splitsWords_spaced (hs : END_STRING ∉ s) (hd : '$' ∉ s) (h : SplitsWords getenv s c) :
    Spaced s := by
  have ha := (parseExec_argv hs h.parses).argv
  have hn : [] ∉ tokens s := by
    intro hm
    have hf : [] ∈ (tokens s).filter isArg := List.mem_filter.mpr ⟨hm, isArg_nil⟩
    refine h.filled ?_
    rw [ha, map_expand hd]
    exact List.mem_map_of_mem hf
  obtain ⟨hargs, henvs⟩ := (parseExec_isSome getenv [] hs).mp ⟨c, h.parses⟩
  rw [tokens_words hn] at hargs henvs
  rw [nil_mem_tokens, tokens_tail, not_or] at hn
  exact ⟨hn.1, hn.2, hargs, henvs⟩

variable (getenv) in
theorem Spaced.splitsWords (hs : END_STRING ∉ s) (hd : '$' ∉ s) (h : Spaced s) :
    ∃ c, SplitsWords getenv s c := by
  obtain ⟨c, hc⟩ := (parseExec_isSome getenv [] hs).mpr ⟨h.tokens_eq ▸ h.args, h.tokens_eq ▸ h.envs⟩
  obtain ⟨ha, he, -⟩ := parseExec_argv hs hc
  rw [map_expand hd, h.tokens_eq] at ha
  rw [h.tokens_eq] at he
  refine ⟨c, hc, ha, he, ?_⟩
  rw [ha]
  intro hm
  obtain ⟨w, hw, he⟩ := List.mem_map.mp hm
  cases he
  have hw := List.mem_of_mem_filter hw
  simp [words] at hw

-- `parse_exec` splits two texts with the same words into these words, and does the same with both, if and
-- only if neither starts with a space or has two spaces in a row, and there is room for the words.
theorem parse_exec_words_iff (hs : END_STRING ∉ s) (ht : END_STRING ∉ t) (hds : '$' ∉ s)
    (hdt : '$' ∉ t) (h : words s = words t) :
    (∃ c d, SplitsWords getenv s c ∧ SplitsWords getenv t d ∧ c.parts = d.parts) ↔
      Spaced s ∧ Spaced t := by
  constructor
  case mp =>
    rintro ⟨c, d, hc, hd, -⟩
    exact ⟨splitsWords_spaced hs hds hc, splitsWords_spaced ht hdt hd⟩
  case mpr =>
    rintro ⟨h₁, h₂⟩
    obtain ⟨c, hc⟩ := h₁.splitsWords getenv hs hds
    obtain ⟨d, hd⟩ := h₂.splitsWords getenv ht hdt
    have he : tokens s = tokens t := by rw [h₁.tokens_eq, h₂.tokens_eq, h]
    obtain ⟨d', hd', hp⟩ := parseExec_parts hs ht he hc.parses
    rw [hd.parses] at hd'
    cases hd'
    exact ⟨c, d, hc, hd, hp.symm⟩

-- "ls -l" and "ls -l "
theorem parse_exec_words_ls : ∃ c d, SplitsWords (fun _ => none) ['l', 's', ' ', '-', 'l'] c ∧
    SplitsWords (fun _ => none) ['l', 's', ' ', '-', 'l', ' '] d ∧ c.parts = d.parts :=
  (parse_exec_words_iff (by decide) (by decide) (by decide) (by decide) (by decide)).mpr
    ⟨⟨by decide, by decide, by decide, by decide⟩, ⟨by decide, by decide, by decide, by decide⟩⟩

-- " ls" and "ls"
theorem not_parse_exec_words : ¬∀ (getenv : List Char → Option (List Char)) (s t : List Char),
    END_STRING ∉ s → END_STRING ∉ t → '$' ∉ s → '$' ∉ t → words s = words t →
      ∃ c d, SplitsWords getenv s c ∧ SplitsWords getenv t d ∧ c.parts = d.parts := by
  intro hall
  obtain ⟨c, -, hc, -⟩ := hall (fun _ => none) [' ', 'l', 's'] ['l', 's'] (by decide) (by decide)
    (by decide) (by decide) (by decide)
  exact (splitsWords_spaced (by decide) (by decide) hc).first rfl

end Shell

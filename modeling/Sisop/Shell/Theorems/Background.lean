import Sisop.Shell.Theorems.Words

namespace Shell

-- The text before the first `&` that does not follow a `>`; `prev` is the character before the string.
def beforeBack (prev : Char) : List Char → Option (List Char)
  | []     => none
  | c :: s => if c = '&' ∧ prev ≠ '>' then some [] else (beforeBack c s).map (c :: ·)

-- The text of the command: nothing stands before a line.
def commandText (s : List Char) : List Char := (beforeBack SPACE s).getD s

-- The node of a command, and which text it comes from.
structure Detected (getenv : List Char → Option (List Char)) (prev : Char) (s : List Char) (e : ExecCmd) :
    Prop where
  parses : parseExec getenv (commandText s ++ [END_STRING]) = some e
  node   : parseAlone getenv prev s =
    some (if (beforeBack SPACE s).isSome then .back e.scmd e else .exec e)
  argv   : ∀ w, some w ∈ e.argv → '&' ∉ w
  inside : blockContains s '&' ≠ some 0

-- The first `&` is not the first character, and if it follows a `>`, so do the others; there is room for the
-- words; and no `&` comes from a variable.
structure Detectable (getenv : List Char → Option (List Char)) (s : List Char) : Prop where
  first : s.head? ≠ some '&'
  redir : ∀ s₁ s₂, s = s₁ ++ '>' :: '&' :: s₂ → '&' ∉ s₁ → beforeBack SPACE s = none
  args  : ((tokens (commandText s)).filter isArg).length < MAXARGS
  envs  : ((tokens (commandText s)).filter isEarg).length ≤ MAXARGS
  vars  : ∀ name value, '$' :: name ∈ tokens (commandText s) → isArg ('$' :: name) →
    name.head? ≠ some '?' → getenv name = some value → '&' ∉ value

variable {getenv : List Char → Option (List Char)} {prev : Char} {s s₁ s₂ t tok : List Char} {e : ExecCmd}

section BeforeBack

theorem beforeBack_none (h : '&' ∉ s) : beforeBack prev s = none := by
  induction s generalizing prev
  case nil => rfl
  case cons c s ih =>
    rw [List.mem_cons, not_or] at h
    rw [beforeBack, if_neg fun hc => h.1 hc.1.symm, ih h.2, Option.map_none]

theorem beforeBack_append (h : beforeBack prev s₁ = none) :
    beforeBack prev (s₁ ++ s₂) = (beforeBack (s₁.getLastD prev) s₂).map (s₁ ++ ·) := by
  induction s₁ generalizing prev
  case nil => simp
  case cons c s ih =>
    rw [beforeBack] at h
    split at h
    case isTrue => cases h
    case isFalse hc =>
      rw [Option.map_eq_none_iff] at h
      rw [List.cons_append, beforeBack, if_neg hc, ih h, Option.map_map, List.getLastD_cons]
      rfl

theorem beforeBack_first (h : '&' ∉ s₁) (hl : s₁.getLastD prev ≠ '>') :
    beforeBack prev (s₁ ++ '&' :: s₂) = some s₁ := by
  rw [beforeBack_append (beforeBack_none h), beforeBack, if_pos ⟨rfl, hl⟩]
  simp

-- No other `&` is in the text before.
theorem beforeBack_before (h : beforeBack prev s = some t) : beforeBack prev t = none ∧ t <+: s := by
  induction s generalizing prev t
  case nil => cases h
  case cons c s ih =>
    rw [beforeBack] at h
    split at h
    case isTrue =>
      cases h
      exact ⟨rfl, List.nil_prefix⟩
    case isFalse hc =>
      obtain ⟨t', ht, rfl⟩ := Option.map_eq_some_iff.mp h
      obtain ⟨hn, hp⟩ := ih ht
      rw [beforeBack, if_neg hc, hn]
      exact ⟨rfl, (List.prefix_cons_inj c).mpr hp⟩

-- An `&` after a `>` is in one token with it.
theorem beforeBack_redir (h : beforeBack prev s = none) (hp : prev ≠ '>') (hm : '&' ∈ s) : '>' ∈ s := by
  induction s generalizing prev
  case nil => cases hm
  case cons c s ih =>
    rw [beforeBack] at h
    split at h
    case isTrue => cases h
    case isFalse hc =>
      by_cases hgt : c = '>'
      · rw [hgt]
        exact List.mem_cons_self
      · rcases List.mem_cons.mp hm with rfl | hm
        · exact absurd ⟨rfl, hp⟩ hc
        · exact List.mem_cons_of_mem _ (ih (Option.map_eq_none_iff.mp h) hgt hm)

-- Only the first token can follow something else than a space.
theorem beforeBack_head (h : beforeBack prev s = none) :
    (∀ tok ∈ (tokens s).head?, beforeBack prev tok = none) ∧
      ∀ tok ∈ (tokens s).tail, beforeBack SPACE tok = none := by
  induction s generalizing prev
  case nil => simp [tokens]
  case cons c s ih =>
    rw [beforeBack] at h
    split at h
    case isTrue => cases h
    case isFalse hc =>
      obtain ⟨hh, ht⟩ := ih (Option.map_eq_none_iff.mp h)
      rw [tokens]
      split
      case isTrue hsp =>
        refine ⟨fun tok hm => ?_, fun tok hm => ?_⟩
        · cases Option.mem_some_iff.mp hm
          rfl
        · rw [hsp] at hh
          cases hts : tokens s
          case nil => simp [hts] at hm
          case cons tok' ts =>
            rw [hts] at hh ht hm
            rcases List.mem_cons.mp hm with rfl | hm
            · exact hh _ rfl
            · exact ht tok hm
      case isFalse =>
        split
        case h_1 =>
          refine ⟨fun tok hm => ?_, fun tok hm => absurd hm List.not_mem_nil⟩
          cases Option.mem_some_iff.mp hm
          rw [beforeBack, if_neg hc]
          rfl
        case h_2 tok' ts hts =>
          rw [hts] at hh ht
          refine ⟨fun tok hm => ?_, ht⟩
          cases Option.mem_some_iff.mp hm
          rw [beforeBack, if_neg hc, hh tok' rfl]
          rfl

theorem beforeBack_tokens (h : beforeBack SPACE s = none) (hm : tok ∈ tokens s) :
    beforeBack SPACE tok = none := by
  obtain ⟨hh, ht⟩ := beforeBack_head h
  cases hts : tokens s
  case nil => simp [hts] at hm
  case cons tok' ts =>
    rw [hts] at hh ht hm
    rcases List.mem_cons.mp hm with rfl | hm
    · exact hh _ rfl
    · exact ht tok hm

-- No argument of the command has an `&`.
theorem noAmpersand (h : beforeBack SPACE s = none) (hm : tok ∈ tokens s) (ha : isArg tok) :
    '&' ∉ tok := by
  intro hx
  have hgt := beforeBack_redir (beforeBack_tokens h hm) (by decide) hx
  have hr : isRedir tok := by
    obtain ⟨t₁, t₂, rfl, hn⟩ := List.eq_append_cons_of_mem hgt
    simp [isRedir, blockContains_append hn]
  rw [((isRedir_cases tok).1 hr).1] at ha
  cases ha

theorem commandText_none : beforeBack SPACE (commandText s) = none := by
  unfold commandText
  cases h : beforeBack SPACE s
  case none => exact h
  case some => exact (beforeBack_before h).1

theorem commandText_noEnd (h : END_STRING ∉ s) : END_STRING ∉ commandText s := by
  unfold commandText
  cases hb : beforeBack SPACE s
  case none => exact h
  case some => exact fun hm => h ((beforeBack_before hb).2.subset hm)

end BeforeBack

section Node

theorem argv_noAmpersand (hs : END_STRING ∉ s) (h : beforeBack SPACE s = none)
    (he : parseExec getenv (s ++ [END_STRING]) = some e) :
    (∀ w, some w ∈ e.argv → '&' ∉ w) ↔ ∀ name value, '$' :: name ∈ tokens s → isArg ('$' :: name) →
      name.head? ≠ some '?' → getenv name = some value → '&' ∉ value := by
  have ha : e.argv = _ := (parseExec_argv hs he).argv
  rw [ha]
  constructor
  case mp =>
    intro hall name value hm ha hq hv
    refine hall value (List.mem_map.mpr ⟨'$' :: name, List.mem_filter.mpr ⟨hm, ha⟩, ?_⟩)
    rw [expand_dollar, if_neg hq, hv]
    rfl
  case mpr =>
    intro hall w hw
    obtain ⟨tok, hm, hx⟩ := List.mem_map.mp hw
    obtain ⟨hm, ha⟩ := List.mem_filter.mp hm
    by_cases hd : tok.head? = some '$'
    · obtain ⟨name, rfl⟩ := List.head?_eq_some_iff.mp hd
      rw [expand_dollar] at hx
      split at hx
      case isTrue => cases hx
      case isFalse hq =>
        cases hx
        cases hv : getenv name
        case none => exact List.not_mem_nil
        case some value => exact hall name value hm ha hq hv
    · rw [expand_other hd] at hx
      cases hx
      exact noAmpersand h hm ha

-- The first `&` of a string is free.
theorem parseAlone_back (h : END_STRING ∉ s₁ ++ '&' :: s₂) (hn : '&' ∉ s₁) (hl : s₁.getLastD prev ≠ '>') :
    parseAlone getenv prev (s₁ ++ '&' :: s₂) =
      (parseExec getenv (s₁ ++ [END_STRING])).map fun e => .back e.scmd e := by
  simp only [List.mem_append, List.mem_cons, not_or] at h
  rw [parseAlone, parseCmd_back h.1 h.2.2 hn hl]
  cases parseExec getenv (s₁ ++ [END_STRING]) <;> rfl

theorem parseAlone_exec (h : END_STRING ∉ s) (hne : s ≠ []) (hb : isBack prev s = false) :
    parseAlone getenv prev s = (parseExec getenv (s ++ [END_STRING])).map .exec := by
  rw [parseAlone, parseCmd_exec _ _ h hne hb]
  cases parseExec getenv (s ++ [END_STRING]) <;> rfl

theorem isBack_redir (h : '&' ∉ s₁) : isBack prev (s₁ ++ '>' :: '&' :: s₂) = false := by
  have hn : '&' ∉ s₁ ++ ['>'] := by simp [h]
  have hb := (isBack_first hn : isBack prev (s₁ ++ ['>'] ++ '&' :: s₂) ↔ _).not
  simpa using hb

-- `parse_cmd` finds the text before the right `&`.
theorem Detectable.node (h : END_STRING ∉ s) (hne : s ≠ []) (hd : Detectable getenv s)
    (he : parseExec getenv (commandText s ++ [END_STRING]) = some e) : parseAlone getenv prev s =
      some (if (beforeBack SPACE s).isSome then .back e.scmd e else .exec e) := by
  by_cases hm : '&' ∈ s
  case neg =>
    rw [commandText, beforeBack_none hm] at he
    rw [beforeBack_none hm, parseAlone_exec h hne (isBack_none hm), ← Option.getD_none (a := s), he]
    rfl
  case pos =>
    obtain ⟨s₁, s₂, rfl, hn⟩ := List.eq_append_cons_of_mem hm
    rcases List.eq_nil_or_concat s₁ with rfl | ⟨s₃, c, rfl⟩
    · exact absurd rfl hd.first
    · rw [List.concat_eq_append] at *
      by_cases hc : c = '>'
      · subst hc
        have hs₃ : '&' ∉ s₃ := fun hx => hn (List.mem_append_left _ hx)
        have hx : s₃ ++ ['>'] ++ '&' :: s₂ = s₃ ++ '>' :: '&' :: s₂ := by simp
        have hnone := hd.redir s₃ s₂ hx hs₃
        rw [commandText, hnone, Option.getD_none] at he
        rw [hnone, parseAlone_exec h hne (hx ▸ isBack_redir hs₃), he]
        rfl
      · have hl (prev : Char) : (s₃ ++ [c]).getLastD prev ≠ '>' := by
          rwa [List.getLastD_concat]
        have hb : beforeBack SPACE (s₃ ++ [c] ++ '&' :: s₂) = some (s₃ ++ [c]) :=
          beforeBack_first hn (hl _)
        rw [commandText, hb, Option.getD_some] at he
        rw [hb, parseAlone_back h hn (hl _), he]
        rfl

end Node

-- `parse_cmd` runs a command in the back if and only if it should, and looks at nothing before the command, if
-- and only if the first `&` of the command decides.
theorem parse_cmd_back_iff (h : END_STRING ∉ s) (hne : s ≠ []) :
    (∃ e, Detected getenv prev s e) ↔ Detectable getenv s := by
  have hend := commandText_noEnd h
  constructor
  case mp =>
    rintro ⟨e, hparses, hnode, hargv, hinside⟩
    obtain ⟨hargs, henvs⟩ := (parseExec_isSome getenv [] hend).mp ⟨e, hparses⟩
    refine ⟨?first, ?redir, hargs, henvs, (argv_noAmpersand hend commandText_none hparses).mp hargv⟩
    case first =>
      intro hf
      obtain ⟨s', rfl⟩ := List.head?_eq_some_iff.mp hf
      exact hinside blockContains_head
    case redir =>
      rintro s₁ s₂ rfl hn
      rw [parseAlone_exec h hne (isBack_redir hn), Option.map_eq_some_iff] at hnode
      obtain ⟨e', -, he'⟩ := hnode
      by_contra hb
      rw [← ne_eq, Option.ne_none_iff_isSome] at hb
      rw [if_pos hb] at he'
      cases he'
  case mpr =>
    intro hd
    obtain ⟨e, he⟩ := (parseExec_isSome getenv [] hend).mpr ⟨hd.args, hd.envs⟩
    refine ⟨e, he, hd.node h hne he, (argv_noAmpersand hend commandText_none he).mpr hd.vars, ?_⟩
    cases s
    case nil => exact absurd rfl hne
    case cons c s =>
      have hc : c ≠ '&' := by simpa using hd.first
      simp [blockContains, List.findIdx?_cons, hc]

-- "ls &"
theorem parse_cmd_back_ls : ∃ e, Detected (fun _ => none) END_STRING ['l', 's', ' ', '&'] e :=
  (parse_cmd_back_iff (by decide) (by decide)).mpr ⟨by decide, by
    intro s₁ s₂ hs hn
    have hm : '>' ∈ ['l', 's', ' ', '&'] := hs ▸ List.mem_append_right _ List.mem_cons_self
    exact absurd hm (by decide), by decide, by decide, fun _ _ _ _ _ hv => absurd hv (by simp)⟩

-- "ls 2>&1 &"
theorem not_parse_cmd_back : ¬∀ (getenv : List Char → Option (List Char)) (prev : Char)
    (s : List Char), END_STRING ∉ s → s ≠ [] → ∃ e, Detected getenv prev s e := by
  intro hall
  have hs : END_STRING ∉ ['l', 's', ' ', '2', '>', '&', '1', ' ', '&'] := by decide
  obtain ⟨e, he⟩ := hall (fun _ => none) END_STRING _ hs (by decide)
  have hn := he.node
  rw [parseAlone_exec hs (by decide) (by decide), Option.map_eq_some_iff] at hn
  obtain ⟨e', -, he'⟩ := hn
  rw [if_pos (by decide)] at he'
  cases he'

end Shell

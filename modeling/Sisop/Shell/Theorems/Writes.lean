import Sisop.Shell.Writes
import Sisop.Shell.Theorems.Environ

namespace Shell

-- What `parse_cmd` leaves of a command, and of its buffer: what stands before the `&`.
def cut (prev : Char) (s : List Char) : List Char := if isBack prev s then s.takeWhile (· ≠ '&') else s

def cutBuf (prev : Char) (buf : List Char) : List Char :=
  if isBack prev (cstr buf) then buf.set (buf.findIdx (· = '&')) END_STRING else buf

-- The text that `parse_cmd` parses, if any, and whether the command goes into the tree.
def cmdTexts (leaf : Bool) (prev : Char) (buf : List Char) : List (List Char × Bool) :=
  if cstr buf = [] then [] else [(cut prev (cstr buf), leaf)]

theorem cutBuf_length {prev : Char} {buf : List Char} : (cutBuf prev buf).length = buf.length := by
  unfold cutBuf
  split
  · exact List.length_set
  · rfl

-- The texts of a line: its first command, and the rest as one command and then as a line.
def lineTexts (prev : Char) (buf : List Char) : List (List Char × Bool) :=
  match _hs : splitLine buf '|' with
  | (left, prev', right) =>
    cmdTexts true prev left ++ (cmdTexts (!hasPipe (cutBuf prev' right)) prev' right ++
      if _hp : hasPipe (cutBuf prev' right) then lineTexts prev' (cutBuf prev' right) else [])
termination_by buf.length
decreasing_by
  rw [cutBuf_length]
  refine splitLine_lt _hs ?_
  rintro rfl
  cases _hp

section Conditions

variable (getenv : Env)

-- A token that does not stand for a value.
def NoValue (tok : List Char) : Prop :=
  ∀ name, tok = '$' :: name → name.head? ≠ some '?' → (getenv name).getD [] = []

-- A text that can be parsed.
structure Roomy (t : List Char) : Prop where
  args : ((tokens t).filter isArg).length < MAXARGS
  envs : ((tokens t).filter isEarg).length ≤ MAXARGS
  vars : ∀ tok ∈ tokens t, isArg tok → NoValue getenv tok

-- The assignments of a command without redirections fit into the buffers.
def Keys (t : List Char) : Prop :=
  (∀ w ∈ tokens t, isRedir w = false) → ∀ w ∈ tokens t, isEarg w →
    (getEnvironKey w).length < MAXARGS ∧
      (getEnvironValue w (getEnvironKey w).length).length < MAXARGS

-- The line has room in the buffer, its first command ends before the last byte, and its texts have room.
structure Bounded (prev : Char) (line : List Char) : Prop where
  length : line.length < BUFLEN
  inside : (line.takeWhile fun c => c ≠ '|' ∧ c ≠ END_STRING).length + 1 < BUFLEN
  texts  : ∀ x ∈ lineTexts prev (buffer line []), Roomy getenv x.1 ∧ (x.2 → Keys x.1)

end Conditions

def Inside (ws : List Write) : Prop := ∀ w ∈ ws, w.Inside

variable {getenv : Env} {prev prev' : Char} {s tok buf left right : List Char} {c c' e : ExecCmd} {t : Cmd}
  {pos : Nat} {leaf : Bool} {w : Write} {ws ws' : List Write}

section Inside

theorem inside_append : Inside (ws ++ ws') ↔ Inside ws ∧ Inside ws' := List.forall_mem_append

theorem inside_cons : Inside (w :: ws) ↔ w.last < w.size ∧ Inside ws := List.forall_mem_cons

theorem inside_nil : Inside [] := List.forall_mem_nil _

end Inside

section Tokens

theorem expandWrites_inside (h : tok.length < ARGSIZE) :
    Inside (expandWrites getenv tok) ↔ NoValue getenv tok := by
  have hlt : 1 < ARGSIZE := by decide
  by_cases hd : tok.head? = some '$'
  case neg =>
    rw [expandWrites, if_neg (blockContains_dollar hd)]
    refine iff_of_true inside_nil ?_
    rintro name rfl
    exact absurd rfl hd
  case pos =>
    obtain ⟨name, rfl⟩ := List.head?_eq_some_iff.mp hd
    rw [expandWrites, if_pos blockContains_head]
    simp only [blockContains_status, removerCaracter, List.erase_cons_head]
    by_cases hq : name.head? = some '?'
    case pos =>
      rw [if_pos hq]
      refine iff_of_true inside_nil ?_
      rintro _ he hn
      cases he
      exact absurd hq hn
    case neg =>
      have hrem : Inside (removerCaracterWrites ('$' :: name)) := by
        refine inside_cons.mpr ⟨?_, inside_nil⟩
        simp only
        split
        · exact hlt
        · omega
      have hval : NoValue getenv ('$' :: name) ↔ (getenv name).getD [] = [] := by
        constructor
        · exact fun hn => hn name rfl hq
        · rintro hn _ he -
          cases he
          exact hn
      rw [if_neg hq, inside_append, hval]
      split
      case h_1 hg => simp [hrem, hg, inside_cons, inside_nil, ARGSIZE]
      case h_2 hg => simp [hrem, hg, inside_cons, inside_nil, ARGSIZE]
      case h_3 c cs hg => simp [hrem, hg, inside_cons, inside_nil]

theorem redirWrites_inside (h : tok.length < ARGSIZE) : Inside (redirWrites tok) := by
  have hs : ARGSIZE = FNAMESIZE := rfl
  unfold redirWrites
  split
  · exact inside_cons.mpr ⟨by simp only; omega, inside_nil⟩
  · exact inside_cons.mpr ⟨by simp only; omega, inside_nil⟩
  · exact inside_nil
  · exact inside_cons.mpr ⟨by simp only; omega, inside_nil⟩

theorem getTokenWrites_inside (h : tok.length < ARGSIZE) : Inside (getTokenWrites tok) := by
  unfold getTokenWrites
  split
  · exact inside_nil
  · exact inside_cons.mpr ⟨by simp only; omega, inside_nil⟩

variable (c tok) in
theorem parseRedirFlow_isSome : (parseRedirFlow c tok).isSome = isRedir tok := by
  unfold parseRedirFlow isRedir
  split
  case h_4 hb =>
    rw [hb]
    cases blockContains tok '<' <;> rfl
  all_goals
    rename_i hb
    rw [hb]
    rfl

-- The writes for one token
theorem tokenWrites_inside (h : tok.length < ARGSIZE) : Inside (tokenWrites getenv c tok) ↔
    (isEarg tok → c.eargv.length < MAXARGS) ∧
      (isArg tok → c.argv.length < MAXARGS ∧ NoValue getenv tok) := by
  have hr := parseRedirFlow_isSome tok c
  rw [tokenWrites, inside_append]
  simp only [getTokenWrites_inside h, true_and]
  cases hf : parseRedirFlow c tok
  case some =>
    rw [hf] at hr
    obtain ⟨ha, he⟩ := (isRedir_cases tok).1 hr.symm
    simp [redirWrites_inside h, ha, he]
  case none =>
    rw [hf] at hr
    have hn : isRedir tok = false := hr.symm
    cases he : isEnvironVar tok
    case true => simp [isEarg, isArg, hn, he, inside_cons, inside_nil]
    case false =>
      simp [isEarg, isArg, hn, he, inside_append, inside_cons, inside_nil, expandWrites_inside h, and_comm]

theorem getToken_length : (getToken s).length ≤ s.length := (List.takeWhile_prefix _).length_le

variable (getenv) in
theorem tokensWrites_inside (h : s.length < ARGSIZE) (hc : c.eargv.length ≤ MAXARGS) :
    Inside (tokensWrites getenv c s) ↔
      c.argv.length + ((tokens s).filter isArg).length < MAXARGS ∧
      c.eargv.length + ((tokens s).filter isEarg).length ≤ MAXARGS ∧
      ∀ tok ∈ tokens s, isArg tok → NoValue getenv tok := by
  induction hn : s.length using Nat.strongRecOn generalizing s c
  case ind n ih =>
    subst hn
    rw [tokensWrites]
    by_cases hs : s = []
    case pos =>
      subst hs
      simp [inside_cons, inside_nil, tokens, hc]
    case neg =>
      rw [dif_neg hs, tokens_eq hs, inside_append,
        tokenWrites_inside (Nat.lt_of_le_of_lt getToken_length h)]
      have hlt := getToken_lt hs
      have hrest (d : ExecCmd) (hd : d.eargv.length ≤ MAXARGS) :=
        ih _ hlt (c := d) (Nat.lt_trans hlt h) hd rfl
      obtain ⟨hr, he, ha⟩ := isRedir_cases (getToken s)
      rcases parseToken_eq getenv (getToken s) c with ⟨hi, d, hx, h₁, h₂, -⟩ | ⟨hi, hx⟩ | ⟨hi, hx⟩
      · rw [hx]
        simp only [hrest d (h₂ ▸ hc)]
        simp [hr hi, h₁, h₂]
      · rw [hx]
        by_cases hlt : c.eargv.length < MAXARGS
        · have hd : (c.eargv ++ [getToken s]).length ≤ MAXARGS := by
            rw [List.length_append]
            exact hlt
          rw [if_pos hlt]
          simp only [hrest { c with eargv := c.eargv ++ [getToken s] } hd]
          simp [hi, he hi, hlt, Nat.add_assoc, Nat.add_comm 1]
        · rw [if_neg hlt, List.filter_cons_of_pos hi, List.length_cons]
          apply iff_of_false
          · rintro ⟨⟨h, -⟩, -⟩
            exact hlt (h hi)
          · rintro ⟨-, h, -⟩
            omega
      · rw [hx]
        by_cases hlt : c.argv.length < MAXARGS
        · rw [if_pos hlt]
          simp only [hrest { c with argv := c.argv ++ [expandEnvironVar getenv (getToken s)] } hc]
          simp [hi, ha hi, hlt, Nat.add_assoc, Nat.add_comm 1]
          tauto
        · rw [if_neg hlt, List.filter_cons_of_pos hi, List.length_cons]
          apply iff_of_false
          · rintro ⟨⟨-, h⟩, -⟩
            exact hlt (h hi).1
          · rintro ⟨h, -⟩
            omega

end Tokens

section Texts

variable (buf) in
theorem noEnd_cstr : END_STRING ∉ cstr buf := by
  intro hm
  simpa using List.mem_takeWhile_imp hm

variable (getenv buf) in
theorem execWrites_inside (h : (cstr buf).length < BUFLEN) :
    Inside (execWrites getenv buf) ↔ Roomy getenv (cstr buf) := by
  have hx := tokensWrites_inside getenv (c := execCmdCreate (cstr buf)) h (Nat.zero_le _)
  simp only [execCmdCreate, List.length_nil, Nat.zero_add] at hx
  rw [execWrites, inside_cons]
  simp only [execCmdCreate, hx]
  constructor
  case mp =>
    rintro ⟨-, ha, he, hv⟩
    exact ⟨ha, he, hv⟩
  case mpr =>
    rintro ⟨ha, he, hv⟩
    exact ⟨h, ha, he, hv⟩

-- The `&` that counts in a command, and what `parse_back` does to the buffer.
theorem back_split (h : isBack prev (cstr buf)) : ∃ s rest, buf = s ++ '&' :: rest ∧
    cutBuf prev buf = s ++ END_STRING :: rest ∧ cut prev (cstr buf) = s ∧ END_STRING ∉ s ∧
    buf.findIdx (· = '&') < (cstr buf).length := by
  obtain ⟨s, s', hs, hn, -⟩ := isBack_iff.mp h
  have he : END_STRING ∉ s := by
    intro hm
    exact noEnd_cstr buf (hs ▸ List.mem_append_left _ hm)
  obtain ⟨rest, hr⟩ := List.takeWhile_prefix (l := buf) (· ≠ END_STRING)
  change cstr buf ++ rest = buf at hr
  rw [hs, List.append_assoc, List.cons_append] at hr
  have hi : buf.findIdx (· = '&') = s.length := by
    rw [← hr]
    exact (List.findIdx?_eq_some_iff_findIdx_eq.mp (blockContains_append hn)).2
  refine ⟨s, s' ++ rest, hr.symm, ?_, ?_, he, ?_⟩
  · rw [cutBuf, if_pos h, hi, ← hr]
    simp
  · rw [cut, if_pos h, hs]
    apply takeWhile_append
    · intro a ha
      simp only [ne_eq, decide_not, Bool.not_eq_eq_eq_not, Bool.not_true, decide_eq_false_iff_not]
      rintro rfl
      exact hn ha
    · simp
  · rw [hi, hs]
    simp

theorem cstr_cutBuf : cstr (cutBuf prev buf) = cut prev (cstr buf) := by
  by_cases h : isBack prev (cstr buf)
  · obtain ⟨s, rest, -, hb, hc, he, -⟩ := back_split h
    rw [hb, hc, cstr_append he]
  · rw [cutBuf, if_neg h, cut, if_neg h]

variable (prev s) in
theorem cut_length : (cut prev s).length ≤ s.length := by
  unfold cut
  split
  · exact (List.takeWhile_prefix _).length_le
  · exact Nat.le_refl _

variable (leaf) in
-- The writes for one command
theorem cmdWrites_inside (h : pos + (cstr buf).length < BUFLEN) :
    Inside (cmdWrites getenv pos prev buf) ↔ ∀ x ∈ cmdTexts leaf prev buf, Roomy getenv x.1 := by
  have hcut := execWrites_inside getenv (cutBuf prev buf)
  rw [cstr_cutBuf] at hcut
  have hl := cut_length prev (cstr buf)
  specialize hcut (by omega)
  unfold cmdWrites cmdTexts
  by_cases he : cstr buf = []
  · simp [he, inside_nil]
  · rw [if_neg he, if_neg (by simpa using he), List.forall_mem_singleton, ← hcut]
    by_cases hb : isBack prev (cstr buf)
    · obtain ⟨-, -, -, -, -, -, hi⟩ := back_split hb
      have hbuf : buf.set (buf.findIdx (· = '&')) END_STRING = cutBuf prev buf := by
        rw [cutBuf, if_pos hb]
      rw [if_pos hb]
      simp only [hbuf, inside_cons, inside_append, inside_nil, and_true]
      rw [cstr_cutBuf]
      constructor
      · exact fun hw => hw.2.1
      · exact fun hw => ⟨by omega, hw, by omega⟩
    · rw [if_neg hb, cutBuf, if_neg hb]

-- `parse_cmd`
theorem parseCmd_eq : parseCmd getenv prev buf =
    if cstr buf = [] then some (.null, buf)
    else (parseExec getenv (cut prev (cstr buf) ++ [END_STRING])).map fun e =>
      (if isBack prev (cstr buf) then .back e.scmd e else .exec e, cutBuf prev buf) := by
  have hx : parseExec getenv (cut prev (cstr buf) ++ [END_STRING]) = parseExec getenv (cutBuf prev buf) := by
    rw [← cstr_cutBuf, parseExec, parseExec, cstr_append (noEnd_cstr _)]
  rw [hx, parseCmd]
  by_cases he : cstr buf = []
  · simp [he]
  · rw [if_neg he, if_neg (by simpa using he)]
    by_cases hb : isBack prev (cstr buf)
    · simp only [hb, if_true, parseBack, cutBuf]
      cases parseExec getenv (buf.set (buf.findIdx (· = '&')) END_STRING) <;> rfl
    · simp only [hb, cutBuf, Bool.false_eq_true, if_false]
      cases parseExec getenv buf <;> rfl

theorem leafWrites_inside (h : ParsedAs getenv (tokens s) (execCmdCreate s) e) :
    Inside (environWrites.leafWrites e) ↔ Keys s := by
  have ht := h.type
  have he : e.eargv = (tokens s).filter isEarg := h.eargv
  unfold environWrites.leafWrites
  by_cases hr : (tokens s).any isRedir
  case pos =>
    rw [if_pos hr] at ht
    rw [ht]
    refine iff_of_true inside_nil fun hn => ?_
    obtain ⟨w, hw, hi⟩ := List.any_eq_true.mp hr
    rw [hn w hw] at hi
    cases hi
  case neg =>
    rw [if_neg hr] at ht
    have hn : ∀ w ∈ tokens s, isRedir w = false := by simpa using hr
    rw [ht]
    constructor
    case mp =>
      intro hi _ w hw hea
      have hm : w ∈ e.eargv := he ▸ List.mem_filter.mpr ⟨hw, hea⟩
      have hall := List.forall_mem_flatMap.mp hi w hm
      rw [blockContains_key (isEarg_mem hea)] at hall
      obtain ⟨h₁, hrest⟩ := inside_cons.mp hall
      exact ⟨h₁, (inside_cons.mp hrest).1⟩
    case mpr =>
      intro hk
      refine List.forall_mem_flatMap.mpr fun w hw => ?_
      obtain ⟨hw, hea⟩ := List.mem_filter.mp (he ▸ hw)
      obtain ⟨h₁, h₂⟩ := hk hn w hw hea
      rw [blockContains_key (isEarg_mem hea)]
      exact inside_cons.mpr ⟨h₁, inside_cons.mpr ⟨h₂, inside_nil⟩⟩

theorem noEnd_cut : END_STRING ∉ cut prev (cstr buf) := by
  intro hm
  unfold cut at hm
  split at hm
  · exact noEnd_cstr _ ((List.takeWhile_prefix _).subset hm)
  · exact noEnd_cstr _ hm

-- A command whose text has room is parsed.
theorem parseCmd_texts (h : ∀ x ∈ cmdTexts leaf prev buf, Roomy getenv x.1) :
    ∃ cmd, parseCmd getenv prev buf = some (cmd, cutBuf prev buf) ∧
      (Inside (environWrites cmd) ↔ ∀ x ∈ cmdTexts true prev buf, x.2 → Keys x.1) := by
  rw [parseCmd_eq]
  unfold cmdTexts at h ⊢
  by_cases hs : cstr buf = []
  case pos =>
    have hb : cutBuf prev buf = buf := by
      rw [cutBuf, hs, isBack_none (by simp), if_neg (by simp)]
    rw [if_pos hs, if_pos hs, hb]
    exact ⟨.null, rfl, iff_of_true inside_nil (List.forall_mem_nil _)⟩
  case neg =>
    rw [if_neg hs] at h
    obtain ⟨ha, he, -⟩ := (List.forall_mem_singleton).mp h
    obtain ⟨e, hx⟩ := (parseExec_isSome getenv [] noEnd_cut).mpr ⟨ha, he⟩
    rw [if_neg hs, if_neg hs, hx]
    refine ⟨_, rfl, ?_⟩
    rw [List.forall_mem_singleton, ← leafWrites_inside (parseExec_argv noEnd_cut hx)]
    split <;> simp [environWrites]

end Texts

section Lines

variable {after : List Char}

theorem takeWhile_stop {p : Char → Bool} {x : Char} (hx : p x = false) :
    (s ++ x :: after).takeWhile p = s.takeWhile p := by
  induction s
  case nil => simp [hx]
  case cons y s ih => cases hy : p y <;> simp [hy, ih]

theorem takeWhile_length_le {p : Char → Bool} {x : Char} {i : Nat} (h : buf[i]? = some x) (hx : p x = false) :
    (buf.takeWhile p).length ≤ i := by
  induction buf generalizing i
  case nil => exact Nat.zero_le _
  case cons y buf ih =>
    cases i
    case zero =>
      cases h
      simp [hx]
    case succ i =>
      cases hy : p y
      case false => simp [hy]
      case true =>
        rw [List.takeWhile_cons_of_pos hy, List.length_cons]
        exact Nat.succ_le_succ (ih h)

theorem dropWhile_eq_drop {p : Char → Bool} : buf.dropWhile p = buf.drop (buf.takeWhile p).length := by
  have h : ((buf.takeWhile p) ++ buf.dropWhile p).drop (buf.takeWhile p).length = buf.dropWhile p :=
    List.drop_left
  rwa [List.takeWhile_append_dropWhile, eq_comm] at h

-- The buffer from a position on, with the terminator in the last byte of the array.
structure Rest (pos : Nat) (buf : List Char) : Prop where
  inside : pos < BUFLEN
  last   : buf[BUFLEN - 1 - pos]? = some END_STRING

theorem Rest.cstr_lt (h : Rest pos buf) : pos + (cstr buf).length < BUFLEN := by
  have hle := takeWhile_length_le (p := (· ≠ END_STRING)) h.last (by simp)
  have hpos := h.inside
  change (cstr buf).length ≤ _ at hle
  omega

variable (prev) in
theorem Rest.cut (h : Rest pos buf) : Rest pos (cutBuf prev buf) := by
  refine ⟨h.inside, ?_⟩
  unfold cutBuf
  split
  · rw [List.getElem?_set]
    split
    case isTrue hi =>
      have hlt : BUFLEN - 1 - pos < buf.length := (List.getElem?_eq_some_iff.mp h.last).1
      simp [hi, hlt]
    case isFalse => exact h.last
  · exact h.last

theorem Rest.drop {n : Nat} (h : Rest pos buf) (hn : pos + n < BUFLEN) : Rest (pos + n) (buf.drop n) := by
  refine ⟨hn, ?_⟩
  rw [List.getElem?_drop, ← h.last]
  congr 1
  omega

theorem Rest.length_lt (h : Rest pos buf) : BUFLEN - 1 - pos < buf.length :=
  (List.getElem?_eq_some_iff.mp h.last).1

theorem Rest.spaces_lt (h : Rest pos buf) : pos + (buf.takeWhile (· = SPACE)).length < BUFLEN := by
  have hle := takeWhile_length_le (p := (· = SPACE)) h.last (by decide)
  have hpos := h.inside
  omega

-- `split_line` on a buffer, with the first command in front of the last byte.
theorem Rest.split (h : Rest pos buf)
    (hc : pos + (buf.takeWhile fun c => c ≠ '|' ∧ c ≠ END_STRING).length + 1 < BUFLEN)
    (hs : splitLine buf '|' = (left, prev', right)) :
    Rest (pos + (buf.length - right.length)) right := by
  simp only [splitLine, Prod.mk.injEq] at hs
  obtain ⟨-, -, rfl⟩ := hs
  rw [Nat.add_assoc] at hc
  have hr := h.drop hc
  have hlen := h.length_lt
  have hsp := hr.spaces_lt
  have hx := hr.drop hsp
  rw [← dropWhile_eq_drop] at hx
  convert hx using 1
  rw [dropWhile_eq_drop, List.length_drop, List.length_drop]
  omega

theorem hasPipe_lt (h : hasPipe buf) :
    (buf.takeWhile fun c => c ≠ '|' ∧ c ≠ END_STRING).length < (cstr buf).length := by
  obtain ⟨s₁, s₂, hs, hn⟩ := List.eq_append_cons_of_mem (mem_of_blockContains (Option.isSome_of_any h))
  obtain ⟨rest, hr⟩ := List.takeWhile_prefix (l := buf) (· ≠ END_STRING)
  change cstr buf ++ rest = buf at hr
  have he : END_STRING ∉ s₁ := by
    intro hm
    exact noEnd_cstr buf (hs ▸ List.mem_append_left _ hm)
  rw [hs, ← hr, hs, List.append_assoc, List.cons_append, takeWhile_append]
  · simp
  · intro a ha
    simp only [ne_eq, decide_eq_true_eq]
    exact ⟨fun hx => hn (hx ▸ ha), fun hx => he (hx ▸ ha)⟩
  · simp

theorem lineTexts_eq (hs : splitLine buf '|' = (left, prev', right)) : lineTexts prev buf =
    cmdTexts true prev left ++ (cmdTexts (!hasPipe (cutBuf prev' right)) prev' right ++
      if hasPipe (cutBuf prev' right) then lineTexts prev' (cutBuf prev' right) else []) := by
  rw [lineTexts]
  split
  rename_i hs'
  rw [hs, Prod.mk.injEq, Prod.mk.injEq] at hs'
  obtain ⟨rfl, rfl, rfl⟩ := hs'
  simp only [dite_eq_ite]

-- What stands behind the terminator does not count.
theorem takeWhile_after {p : Char → Bool} (h : END_STRING ∈ buf) (hp : p END_STRING = false) :
    (buf ++ after).takeWhile p = buf.takeWhile p := by
  obtain ⟨s₁, s₂, rfl, -⟩ := List.eq_append_cons_of_mem h
  rw [List.append_assoc, List.cons_append, takeWhile_stop hp, takeWhile_stop hp]

theorem cstr_after (h : END_STRING ∈ buf) : cstr (buf ++ after) = cstr buf :=
  takeWhile_after h (by simp)

theorem cutBuf_after (h : END_STRING ∈ buf) : cutBuf prev (buf ++ after) = cutBuf prev buf ++ after := by
  unfold cutBuf
  rw [cstr_after h]
  split
  case isTrue hb =>
    obtain ⟨-, -, -, -, -, -, hi⟩ := back_split hb
    have hlt := Nat.lt_of_lt_of_le hi (List.takeWhile_prefix _).length_le
    rw [List.findIdx_append, if_pos hlt, List.set_append_left _ _ hlt]
  case isFalse => rfl

theorem cmdTexts_after (h : END_STRING ∈ buf) :
    cmdTexts leaf prev (buf ++ after) = cmdTexts leaf prev buf := by
  rw [cmdTexts, cmdTexts, cstr_after h]

theorem hasPipe_after (h : END_STRING ∈ buf) : hasPipe (buf ++ after) = hasPipe buf := by
  rw [hasPipe, hasPipe, cstr_after h]

theorem Rest.mem (h : Rest pos buf) : END_STRING ∈ buf := List.mem_of_getElem? h.last

theorem Rest.split_after (h : Rest pos buf)
    (hc : pos + (buf.takeWhile fun c => c ≠ '|' ∧ c ≠ END_STRING).length + 1 < BUFLEN)
    (hs : splitLine buf '|' = (left, prev', right)) :
    splitLine (buf ++ after) '|' = (left, prev', right ++ after) := by
  rw [Nat.add_assoc] at hc
  have hr := h.drop hc
  have hlen := h.length_lt
  have htake : ((buf ++ after).takeWhile fun c => c ≠ '|' ∧ c ≠ END_STRING) =
      buf.takeWhile fun c => c ≠ '|' ∧ c ≠ END_STRING := takeWhile_after h.mem (by simp)
  have hdrop : (buf ++ after).drop ((buf.takeWhile fun c => c ≠ '|' ∧ c ≠ END_STRING).length + 1) =
      buf.drop ((buf.takeWhile fun c => c ≠ '|' ∧ c ≠ END_STRING).length + 1) ++ after :=
    List.drop_append_of_le_length (by omega)
  simp only [splitLine, Prod.mk.injEq] at hs
  obtain ⟨rfl, rfl, rfl⟩ := hs
  simp only [splitLine, htake, hdrop, takeWhile_after (p := (· = SPACE)) hr.mem (by decide)]
  rw [dropWhile_eq_drop, takeWhile_after hr.mem (by decide),
    List.drop_append_of_le_length (List.takeWhile_prefix _).length_le, ← dropWhile_eq_drop]

theorem cutBuf_lt (hs : splitLine buf '|' = (left, prev', right)) (hp : hasPipe (cutBuf prev' right)) :
    (cutBuf prev' right).length < buf.length := by
  rw [cutBuf_length]
  refine splitLine_lt hs ?_
  rintro rfl
  cases hp

-- The texts of a line are in the array.
theorem Rest.texts (h : Rest pos buf)
    (hc : pos + (buf.takeWhile fun c => c ≠ '|' ∧ c ≠ END_STRING).length + 1 < BUFLEN) :
    lineTexts prev (buf ++ after) = lineTexts prev buf := by
  induction hn : buf.length using Nat.strongRecOn generalizing pos prev buf
  case ind n ih =>
    subst hn
    rcases hs : splitLine buf '|' with ⟨left, prev', right⟩
    have hright := h.split hc hs
    have hcut := hright.cut prev'
    rw [lineTexts_eq hs, lineTexts_eq (h.split_after hc hs), cutBuf_after hright.mem,
      hasPipe_after hcut.mem, cmdTexts_after hright.mem]
    by_cases hp : hasPipe (cutBuf prev' right)
    case pos =>
      have hlt := hasPipe_lt hp
      have hlt' := hcut.cstr_lt
      rw [if_pos hp, if_pos hp, ih _ (cutBuf_lt hs hp) hcut (by omega) rfl]
    case neg => rw [if_neg hp, if_neg hp]

variable (getenv pos prev) in
-- The writes for the two parts of a line, and for the other commands if the right part is parsed.
theorem lineWrites_eq (hs : splitLine buf '|' = (left, prev', right)) : ∃ ws,
    lineWrites getenv pos prev buf = ⟨BUFLEN, pos + (left.length - 1)⟩ :: (cmdWrites getenv pos prev left ++
      (cmdWrites getenv (pos + (buf.length - right.length)) prev' right ++ ws)) ∧
    ∀ r right', parseCmd getenv prev' right = some (r, right') → ws =
      if hasPipe right' then lineWrites getenv (pos + (buf.length - right.length)) prev' right' else [] := by
  rw [lineWrites]
  split
  rename_i hs'
  rw [hs, Prod.mk.injEq, Prod.mk.injEq] at hs'
  obtain ⟨rfl, rfl, rfl⟩ := hs'
  refine ⟨_, rfl, fun r right' hr => ?_⟩
  split
  case h_1 hr' =>
    rw [hr] at hr'
    cases hr'
    rw [dite_eq_ite]
  case h_2 hr' =>
    rw [hr] at hr'
    cases hr'

theorem splitLine_left (hs : splitLine buf '|' = (left, prev', right)) :
    left = (buf.takeWhile fun c => c ≠ '|' ∧ c ≠ END_STRING) ++ [END_STRING] ∧
      cstr left = buf.takeWhile fun c => c ≠ '|' ∧ c ≠ END_STRING := by
  simp only [splitLine, Prod.mk.injEq] at hs
  obtain ⟨rfl, -, -⟩ := hs
  refine ⟨rfl, cstr_append fun hm => ?_⟩
  simpa using List.mem_takeWhile_imp hm

-- The writes for a line
theorem lineWrites_inside (h : Rest pos buf)
    (hc : pos + (buf.takeWhile fun c => c ≠ '|' ∧ c ≠ END_STRING).length + 1 < BUFLEN) :
    Inside (lineWrites getenv pos prev buf) ↔ ∀ x ∈ lineTexts prev buf, Roomy getenv x.1 := by
  induction hn : buf.length using Nat.strongRecOn generalizing pos prev buf
  case ind n ih =>
    subst hn
    rcases hs : splitLine buf '|' with ⟨left, prev', right⟩
    obtain ⟨hl, hcl⟩ := splitLine_left hs
    have hright := h.split hc hs
    obtain ⟨ws, hw, hrest⟩ := lineWrites_eq getenv prev pos hs
    have hlen : pos + (left.length - 1) < BUFLEN := by
      rw [hl, List.length_append, List.length_singleton, Nat.add_sub_cancel]
      omega
    have hleft : pos + (cstr left).length < BUFLEN := by
      rw [hcl]
      omega
    rw [hw, inside_cons, inside_append, inside_append, cmdWrites_inside true hleft,
      cmdWrites_inside (!hasPipe (cutBuf prev' right)) hright.cstr_lt, lineTexts_eq hs,
      List.forall_mem_append, List.forall_mem_append]
    simp only [hlen, true_and, and_congr_right_iff]
    intro _ hr
    obtain ⟨r, hx, -⟩ := parseCmd_texts hr
    rw [hrest r _ hx]
    by_cases hp : hasPipe (cutBuf prev' right)
    case pos =>
      have hcut := hright.cut prev'
      have hlt := hasPipe_lt hp
      have hlt' := hcut.cstr_lt
      rw [if_pos hp, if_pos hp]
      exact ih _ (cutBuf_lt hs hp) hcut (by omega) rfl
    case neg => simp [hp, inside_nil]

theorem environWrites_pipe {l r : Cmd} :
    environWrites (pipeCmdCreate l r) = environWrites l ++ environWrites r := by
  unfold pipeCmdCreate
  split
  case isTrue hr => simp [hr, environWrites]
  case isFalse => rfl

-- A line whose texts have room is parsed.
theorem parseLine_texts (h : ∀ x ∈ lineTexts prev buf, Roomy getenv x.1) :
    ∃ t, parseLine getenv prev buf = some t ∧
      (Inside (environWrites t) ↔ ∀ x ∈ lineTexts prev buf, x.2 → Keys x.1) := by
  induction hn : buf.length using Nat.strongRecOn generalizing prev buf
  case ind n ih =>
    subst hn
    rcases hs : splitLine buf '|' with ⟨left, prev', right⟩
    rw [lineTexts_eq hs, List.forall_mem_append, List.forall_mem_append] at h
    obtain ⟨hl, hr, hrest⟩ := h
    obtain ⟨l, hxl, hel⟩ := parseCmd_texts hl
    obtain ⟨r, hxr, her⟩ := parseCmd_texts hr
    rw [parseLine_eq hs hxl hxr, lineTexts_eq hs, List.forall_mem_append, List.forall_mem_append, ← hel]
    by_cases hp : hasPipe (cutBuf prev' right)
    case pos =>
      rw [if_pos hp] at hrest
      obtain ⟨t, ht, het⟩ := ih _ (cutBuf_lt hs hp) hrest rfl
      rw [if_pos hp, if_pos hp, ht, ← het]
      refine ⟨pipeCmdCreate l t, rfl, ?_⟩
      -- The first parse of the right part does not count.
      have hnone : ∀ x ∈ cmdTexts (!true) prev' right, x.2 → Keys x.1 := by
        unfold cmdTexts
        split <;> simp
      rw [environWrites_pipe, inside_append, hp]
      constructor
      · rintro ⟨h₁, h₂⟩
        exact ⟨h₁, hnone, h₂⟩
      · rintro ⟨h₁, -, h₂⟩
        exact ⟨h₁, h₂⟩
    case neg =>
      rw [if_neg hp, if_neg hp]
      refine ⟨pipeCmdCreate l r, rfl, ?_⟩
      rw [environWrites_pipe, inside_append, her]
      simp [hp]

end Lines

section Shell

variable {line after : List Char}

theorem buffer_rest (h : line.length < BUFLEN) : Rest 0 (buffer line after) := by
  refine ⟨by decide, ?_⟩
  rw [buffer, List.append_assoc, List.getElem?_append_right (by omega), List.getElem?_append_left]
  · rw [List.getElem?_replicate_of_lt]
    omega
  · rw [List.length_replicate]
    omega

theorem buffer_append : buffer line after = buffer line [] ++ after := by
  rw [buffer, buffer, List.append_nil]

theorem takeWhile_buffer (h : line.length < BUFLEN) :
    ((buffer line after).takeWhile fun c => c ≠ '|' ∧ c ≠ END_STRING) =
      line.takeWhile fun c => c ≠ '|' ∧ c ≠ END_STRING := by
  have hr : List.replicate (BUFLEN - line.length) END_STRING =
      END_STRING :: List.replicate (BUFLEN - line.length - 1) END_STRING := by
    rw [← List.replicate_succ]
    congr 1
    omega
  rw [buffer, hr, List.append_assoc, List.cons_append]
  exact takeWhile_stop (by simp)

-- A line that ends with the array is split behind it.
theorem splitLine_after (h : line.length + 1 = BUFLEN) (hl : ∀ c ∈ line, c ≠ '|' ∧ c ≠ END_STRING) :
    splitLine (buffer line ['a', '&', END_STRING]) '|' =
      (line ++ [END_STRING], END_STRING, ['a', '&', END_STRING]) := by
  have hb : buffer line ['a', '&', END_STRING] = line ++ END_STRING :: ['a', '&', END_STRING] := by
    rw [buffer, ← h, Nat.add_sub_cancel_left]
    simp
  rw [hb, splitLine_append _ (.inr rfl)]
  · rfl
  · exact fun hm => (hl _ hm).1 rfl
  · exact fun hm => (hl _ hm).2 rfl

-- What stands behind the array must not matter.
theorem inside_of_all (h : line.length < BUFLEN)
    (hall : ∀ after, Inside (shellWrites getenv prev line after)) :
    (line.takeWhile fun c => c ≠ '|' ∧ c ≠ END_STRING).length + 1 < BUFLEN := by
  by_contra hge
  have hpre := List.takeWhile_prefix (l := line) fun c => c ≠ '|' ∧ c ≠ END_STRING
  have hlen := hpre.length_le
  have heq := hpre.eq_of_length (by omega)
  have hend : line.length + 1 = BUFLEN := by omega
  have hnone : ∀ c ∈ line, c ≠ '|' ∧ c ≠ END_STRING := by
    intro c hc
    simpa using List.takeWhile_eq_self_iff.mp heq c hc
  have hs := splitLine_after hend hnone
  obtain ⟨ws, hw, -⟩ := lineWrites_eq getenv prev 0 hs
  have hi := hall ['a', '&', END_STRING]
  rw [shellWrites, inside_append, inside_append, hw, inside_cons, inside_append, inside_append] at hi
  obtain ⟨-, ⟨-, -, hi, -⟩, -⟩ := hi
  have hpos : (buffer line ['a', '&', END_STRING]).length = BUFLEN + 3 := by
    simp only [buffer, List.length_append, List.length_replicate, List.length_cons, List.length_nil]
    omega
  rw [cmdWrites, if_neg (by decide), if_pos (by decide), hpos] at hi
  obtain ⟨hi, -⟩ := inside_cons.mp hi
  simp only [List.length_cons, List.length_nil] at hi
  omega

-- The shell writes inside its arrays if and only if the line has room.
theorem shell_writes_iff :
    (∀ after, Inside (shellWrites getenv prev line after)) ↔ Bounded getenv prev line := by
  constructor
  case mp =>
    intro hall
    have hlen : line.length < BUFLEN := by
      have h := hall []
      rw [shellWrites, inside_append] at h
      exact (inside_cons.mp h.1).1
    have hin := inside_of_all hlen hall
    refine ⟨hlen, hin, fun x hx => ?_⟩
    have hi := hall []
    rw [shellWrites, inside_append, inside_append, lineWrites_inside (buffer_rest hlen)
      (by rwa [takeWhile_buffer hlen, Nat.zero_add])] at hi
    obtain ⟨-, hr, he⟩ := hi
    obtain ⟨t, ht, hk⟩ := parseLine_texts hr
    rw [ht] at he
    exact ⟨hr x hx, hk.mp he x hx⟩
  case mpr =>
    rintro ⟨hlen, hin, ht⟩ after
    have htexts : lineTexts prev (buffer line after) = lineTexts prev (buffer line []) := by
      rw [buffer_append]
      exact (buffer_rest hlen).texts (by rwa [takeWhile_buffer hlen, Nat.zero_add])
    rw [← htexts] at ht
    have hr : ∀ x ∈ lineTexts prev (buffer line after), Roomy getenv x.1 := fun x hx => (ht x hx).1
    obtain ⟨t, hx, hk⟩ := parseLine_texts hr
    rw [shellWrites, inside_append, inside_append, lineWrites_inside (buffer_rest hlen)
      (by rwa [takeWhile_buffer hlen, Nat.zero_add]), hx]
    exact ⟨inside_cons.mpr ⟨hlen, inside_nil⟩, hr, hk.mpr fun x hx => (ht x hx).2⟩

-- "ls $A", with A=x
theorem not_shell_writes : ¬∀ (getenv : Env) (prev : Char) (line after : List Char),
    Inside (shellWrites getenv prev line after) := by
  intro hall
  have hb := shell_writes_iff.mp (hall (fun _ => some ['x']) END_STRING ['l', 's', ' ', '$', 'A'])
  have hs : splitLine (buffer ['l', 's', ' ', '$', 'A'] []) '|' =
      (['l', 's', ' ', '$', 'A', END_STRING], END_STRING, List.replicate 1018 END_STRING) := by
    decide +kernel
  have hx : (['l', 's', ' ', '$', 'A'], true) ∈ lineTexts END_STRING (buffer ['l', 's', ' ', '$', 'A'] []) := by
    rw [lineTexts_eq hs]
    exact List.mem_append_left _ (by decide)
  have hv := (hb.texts _ hx).1.vars ['$', 'A'] (by decide) (by decide) ['A'] rfl (by decide)
  cases hv

end Shell

end Shell

import Sisop.User.Theorems.Gettoken

namespace User.Sh

open Library

def Store.fits : Store → Prop
  | .argv i     => i < MAXARGS
  | .argv0buf i => i < BUFSIZ

-- The command that is run for the given tokens, where `args` are the words before them and `k` answers have
-- been used: the process that runs a command of a pipeline gets there as the child of the `fork`s before it.
inductive Runs (answer : Nat → Int) :
    Nat → List Token → List (List Byte) → List (List Byte) → Prop
  | done {k args} : Runs answer k [] args args
  | word {k w ts args ws} : args.length < MAXARGS → Runs answer k ts (args ++ [w]) ws →
      Runs answer k (.word w :: ts) args ws
  | redirect {k c w ts args ws} : c = char '>' → 0 ≤ answer k → Runs answer (k + 1) ts args ws →
      Runs answer k (.symbol c :: .word w :: ts) args ws
  | parent {k c ts args} : c = char '|' → 0 ≤ answer k → 0 < answer (k + 1) →
      Runs answer k (.symbol c :: ts) args args
  | child {k c ts args ws} : c = char '|' → 0 ≤ answer k → answer (k + 1) = 0 →
      Runs answer (k + 2) ts [] ws → Runs answer k (.symbol c :: ts) args ws

-- No store is outside the arrays, and the loop comes to an end.
def WithinBuffers (r : Option Loop × Cmd) : Prop := r.1.isSome ∧ ∀ st ∈ r.2.stores, st.fits

-- The argument list and the name with its `/` fit into the arrays.
structure Fits (ws : List (List Byte)) : Prop where
  args : ws.length < MAXARGS
  name : ∀ w, ws.head? = some w → w.head? = some (char '/') ∨ w.length + 2 ≤ BUFSIZ

variable {answer : Nat → Int} {n a e f k : Nat} {c : Byte} {s w line : List Byte} {tok : Token}
  {ts : List Token} {args ws : List (List Byte)} {x y : Cmd}

theorem char_ne : char '>' ≠ char '|' := by decide

theorem Runs.unique {ws' : List (List Byte)} (h : Runs answer k ts args ws) (h' : Runs answer k ts args ws') :
    ws = ws' := by
  induction h
  case done =>
    cases h'
    rfl
  case word hi =>
    cases h'
    case word h => exact hi h
  case redirect hc _ _ hi =>
    rcases h' with _ | _ | ⟨_, _, h⟩ | ⟨hc', _, _⟩ | ⟨hc', _, _, _⟩
    · exact hi h
    · exact absurd (hc.symm.trans hc') char_ne
    · exact absurd (hc.symm.trans hc') char_ne
  case parent hc _ h₁ =>
    rcases h' with _ | _ | ⟨hc', _, _⟩ | ⟨_, _, _⟩ | ⟨_, _, h₂, _⟩
    · exact absurd (hc'.symm.trans hc) char_ne
    · rfl
    · exact absurd (h₂ ▸ h₁) (Int.lt_irrefl 0)
  case child hc _ h₁ _ hi =>
    rcases h' with _ | _ | ⟨hc', _, _⟩ | ⟨_, _, h₂⟩ | ⟨_, _, _, h⟩
    · exact absurd (hc'.symm.trans hc) char_ne
    · exact absurd (h₁ ▸ h₂) (Int.lt_irrefl 0)
    · exact hi h

section Tokens

-- The first token of a word that goes on with `s`.
theorem tokens_cons (hw : c ∉ WHITESPACE) (hs : c ∉ SYMBOLS) :
    tokens (c :: s) = .word [c] :: tokens s ∨
      s.head?.any isWordChar ∧ ∃ w ts, tokens s = .word w :: ts ∧ tokens (c :: s) = .word (c :: w) :: ts := by
  rw [tokens, if_neg hw, if_neg hs]
  split
  case h_1 w ts h ht => exact .inr ⟨h, w, ts, ht, rfl⟩
  case h_2 => exact .inl rfl

theorem tokens_symbols (h : Token.symbol c ∈ tokens s) : c ∈ SYMBOLS := by
  induction s
  case nil => cases h
  case cons d s hi =>
    by_cases hw : d ∈ WHITESPACE
    case pos =>
      rw [tokens, if_pos hw] at h
      exact hi h
    by_cases hs : d ∈ SYMBOLS
    case pos =>
      rw [tokens_symbol hs] at h
      obtain h | h := List.mem_cons.mp h
      · cases h
        exact hs
      · exact hi h
    obtain ht | ⟨_, w, ts, ht, hc⟩ := tokens_cons (s := s) hw hs
    · rw [ht] at h
      exact hi (List.mem_of_ne_of_mem Token.noConfusion h)
    · rw [hc] at h
      exact hi (ht ▸ List.mem_cons_of_mem _ (List.mem_of_ne_of_mem Token.noConfusion h))

theorem tokens_length : (tokens s).length ≤ s.length := by
  induction s
  case nil => exact Nat.le_refl _
  case cons d s hi =>
    by_cases hw : d ∈ WHITESPACE
    case pos =>
      rw [tokens, if_pos hw]
      exact Nat.le_succ_of_le hi
    by_cases hs : d ∈ SYMBOLS
    case pos =>
      rw [tokens_symbol hs]
      exact Nat.succ_le_succ hi
    obtain ht | ⟨_, w, ts, ht, hc⟩ := tokens_cons (s := s) hw hs
    · rw [ht]
      exact Nat.succ_le_succ hi
    · rw [hc]
      rw [ht] at hi
      exact Nat.le_succ_of_le hi

-- The words of a line are parts of it.
theorem tokens_infix : (∀ w, .word w ∈ tokens s → w <:+: s) ∧
    (s.head?.any isWordChar → ∀ w ts, tokens s = .word w :: ts → w <+: s) := by
  induction s
  case nil => exact ⟨fun _ h => (List.not_mem_nil h).elim, fun h => Bool.noConfusion h⟩
  case cons d s hi =>
    by_cases hd : isWordChar d
    case neg =>
      refine ⟨fun w h => ?_, fun h => absurd h hd⟩
      rw [isWordChar_iff, not_and_or, not_not, not_not] at hd
      have h : .word w ∈ tokens s := by
        obtain hd | hd := hd
        · rwa [tokens, if_pos hd] at h
        · rw [tokens_symbol hd] at h
          exact List.mem_of_ne_of_mem Token.noConfusion h
      exact (hi.1 w h).trans (List.suffix_cons d s).isInfix
    obtain ⟨hw, hs⟩ := isWordChar_iff.mp hd
    obtain ht | ⟨hh, v, ts, ht, hc⟩ := tokens_cons (s := s) hw hs
    · have hp : [d] <+: d :: s := ⟨s, rfl⟩
      rw [ht]
      refine ⟨fun w h => ?_, fun _ w ts h => ?_⟩
      · obtain h | h := List.mem_cons.mp h
        · cases h
          exact hp.isInfix
        · exact (hi.1 w h).trans (List.suffix_cons d s).isInfix
      · cases h
        exact hp
    · have hp : d :: v <+: d :: s := (List.prefix_cons_inj d).mpr (hi.2 hh v ts ht)
      rw [hc]
      refine ⟨fun w h => ?_, fun _ w ts h => ?_⟩
      · obtain h | h := List.mem_cons.mp h
        · cases h
          exact hp.isInfix
        · exact (hi.1 w (ht ▸ List.mem_cons_of_mem _ h)).trans (List.suffix_cons d s).isInfix
      · cases h
        exact hp

end Tokens

section Turn

-- The first of the words is in memory at `p`, for good.
def Holds (x : Lexer) (line : List Byte) (p : Nat) (w : List Byte) : Prop :=
  w <:+: line ∧ x.mem.strEq p w ∧ ∃ b, Beyond b x ∧ p + w.length ≤ b

-- The tokens still to be read and the words read before them.
structure Parsed (n e : Nat) (line : List Byte) (x : Cmd) (ts : List Token) (args : List (List Byte)) :
    Prop where
  reads   : Reads n e x.lexer ts
  words   : ∀ w, .word w ∈ ts → w <:+: line
  symbols : ∀ c, .symbol c ∈ ts → c ∈ SYMBOLS
  argc    : x.argc = args.length
  few     : args.length ≤ MAXARGS
  first   : ∀ w, args.head? = some w → Holds x.lexer line (x.argv 0) w
  stores  : ∀ st ∈ x.stores, st.fits

theorem Holds.next {t p : Nat} {x : Lexer} (h : Holds x line p w) (hr : Reads n e x ts) :
    Holds (Sh.gettoken n 0 t x).2.2 line p w := by
  obtain ⟨hl, hm, b, hb, hp⟩ := h
  have ⟨_, _, hb', hm', _⟩ := hr.step (t := t) hb
  exact ⟨hl, (Memory.strEq_congr fun q _ hq => hm' q (by omega)).trans hm, b, hb', hp⟩

theorem Parsed.next_end (h : Parsed n e line x [] args) :
    ∃ y, x.gettoken n = (0, y) ∧ y.calls = x.calls ∧ Parsed n e line y [] args := by
  have ⟨hc, hr, _⟩ := h.reads.step (t := x.t) (b := 0) (by
    have hr := h.reads
    cases hr
    case nil hp => exact .inl hp)
  exact ⟨_, Prod.ext hc rfl, rfl, hr, h.words, h.symbols, h.argc, h.few,
    fun w hw => (h.first w hw).next (t := x.t) h.reads, h.stores⟩

theorem Parsed.next (h : Parsed n e line x (tok :: ts) args) :
    ∃ y, x.gettoken n = (tok.code, y) ∧ y.calls = x.calls ∧ Parsed n e line y ts args ∧
      ∀ w, tok = .word w → Holds y.lexer line y.t w := by
  obtain ⟨s, ha, rfl⟩ := h.reads.ahead
  have ⟨hc, _, hr, _⟩ := gettoken_spec (t := x.t) ha
  refine ⟨_, Prod.ext hc rfl, rfl, ⟨hr, fun w hw => h.words w (List.mem_cons_of_mem _ hw),
    fun c hc => h.symbols c (List.mem_cons_of_mem _ hc), h.argc, h.few,
    fun w hw => (h.first w hw).next (t := x.t) h.reads, h.stores⟩, ?_⟩
  rintro w rfl
  have ⟨ht, hb⟩ := ha.terminated (t := x.t)
  exact ⟨h.words w List.mem_cons_self, ht, _, hb, Nat.le_refl _⟩

theorem Parsed.push (h : Parsed n e line x ts args) (hw : Holds x.lexer line x.t w)
    (hlt : args.length < MAXARGS) : Parsed n e line x.push ts (args ++ [w]) := by
  refine ⟨h.reads, h.words, h.symbols, ?_, ?_, fun v hv => ?_, fun st hst => ?_⟩
  · rw [List.length_append, ← h.argc]
    rfl
  · rw [List.length_append]
    exact hlt
  · show Holds x.lexer line (Function.update x.argv x.argc x.t 0) v
    rw [h.argc]
    cases args
    case nil =>
      cases hv
      exact hw
    case cons u args => exact h.first v hv
  · obtain rfl | hst := List.mem_cons.mp hst
    · exact show x.argc < MAXARGS from h.argc ▸ hlt
    · exact h.stores st hst

-- How the loop ends: at `runit` with the command that is run, or elsewhere where no command is.
structure Ends (answer : Nat → Int) (n e : Nat) (line : List Byte) (k : Nat) (ts : List Token)
    (args : List (List Byte)) (l : Loop) (y : Cmd) : Prop where
  runit  : l = .runit → ∃ ws ts', Runs answer k ts args ws ∧ Parsed n e line y ts' ws
  others : l ≠ .runit → ∀ ws, ¬Runs answer k ts args ws
  stores : ∀ st ∈ y.stores, st.fits

-- A step of the loop: it goes on with fewer tokens, or it ends.
def Turned (answer : Nat → Int) (n e : Nat) (line : List Byte) (k : Nat) (ts : List Token)
    (args : List (List Byte)) : Option Loop × Cmd → Prop
  | (some l, y) => Ends answer n e line k ts args l y
  | (none, y)   => ∃ ts' args', ts'.length < ts.length ∧ Parsed n e line y ts' args' ∧
    ∀ ws, Runs answer k ts args ws ↔ Runs answer y.calls ts' args' ws

theorem Ends.no_command {l : Loop} (hl : l ≠ .runit) (h : ∀ ws, ¬Runs answer k ts args ws)
    (hs : ∀ st ∈ y.stores, st.fits) : Ends answer n e line k ts args l y :=
  ⟨fun he => absurd he hl, fun _ => h, hs⟩

theorem turn_word (h : Parsed n e line x (.word w :: ts) args) :
    Turned answer n e line x.calls (.word w :: ts) args (turn answer n x) := by
  obtain ⟨y, hy, hk, hp, hw⟩ := h.next
  simp only [turn, hy, Token.code, if_true]
  split
  case isTrue hmax =>
    refine Ends.no_command (by decide) (fun ws hr => ?_) hp.stores
    cases hr
    case word hlt _ => exact absurd (hp.argc ▸ hmax) (Nat.ne_of_lt hlt)
  case isFalse hmax =>
    have hlt := Nat.lt_of_le_of_ne hp.few (hp.argc ▸ hmax)
    refine ⟨ts, args ++ [w], Nat.lt_succ_self _, hp.push (hw w rfl) hlt, fun ws => ?_⟩
    show _ ↔ Runs answer y.calls ts (args ++ [w]) ws
    rw [hk]
    constructor
    · intro hr
      cases hr
      case word hr => exact hr
    · exact .word hlt

theorem Parsed.called (h : Parsed n e line x ts args) (k : Nat) :
    Parsed n e line { x with calls := k } ts args :=
  ⟨h.reads, h.words, h.symbols, h.argc, h.few, h.first, h.stores⟩

theorem Parsed.again (h : Parsed n e line x ts args) (k : Nat) :
    Parsed n e line { x with calls := k, argc := 0 } ts [] :=
  ⟨h.reads, h.words, h.symbols, rfl, Nat.zero_le _, nofun, h.stores⟩

-- Only a word, `>` and `|` have a command after them.
theorem Runs.not_symbol (h₁ : c ≠ char '>') (h₂ : c ≠ char '|') : ¬Runs answer k (.symbol c :: ts) args ws := by
  rintro (_ | _ | ⟨h, _, _⟩ | ⟨h, _, _⟩ | ⟨h, _, _, _⟩)
  · exact h₁ h
  · exact h₂ h
  · exact h₂ h

theorem runs_redirect : Runs answer k (.symbol (char '>') :: ts) args ws ↔
    ∃ w ts', ts = .word w :: ts' ∧ 0 ≤ answer k ∧ Runs answer (k + 1) ts' args ws := by
  constructor
  · rintro (_ | _ | ⟨_, h₀, hr⟩ | ⟨h, _, _⟩ | ⟨h, _, _, _⟩)
    · exact ⟨_, _, rfl, h₀, hr⟩
    · exact absurd h char_ne
    · exact absurd h char_ne
  · rintro ⟨w, ts', rfl, h, hr⟩
    exact .redirect rfl h hr

theorem runs_pipe : Runs answer k (.symbol (char '|') :: ts) args ws ↔
    0 ≤ answer k ∧ (0 < answer (k + 1) ∧ ws = args ∨
      answer (k + 1) = 0 ∧ Runs answer (k + 2) ts [] ws) := by
  constructor
  · rintro (_ | _ | ⟨h, _, _⟩ | ⟨_, h, h₁⟩ | ⟨_, h, h₁, hr⟩)
    · exact absurd h.symm char_ne
    · exact ⟨h, .inl ⟨h₁, rfl⟩⟩
    · exact ⟨h, .inr ⟨h₁, hr⟩⟩
  · rintro ⟨h, ⟨h₁, rfl⟩ | ⟨h₁, hr⟩⟩
    · exact .parent rfl h h₁
    · exact .child rfl h h₁ hr

theorem symbol_ne (h : c ∈ SYMBOLS) : c ≠ char 'w' ∧ c ≠ 0 := by
  revert h
  revert c
  decide

theorem turn_redirect (h : Parsed n e line x (.symbol (char '>') :: ts) args) :
    Turned answer n e line x.calls (.symbol (char '>') :: ts) args (turn answer n x) := by
  obtain ⟨y, hy, hk, hp, _⟩ := h.next
  simp only [turn, hy, Token.code, if_neg (show char '>' ≠ char 'w' by decide),
    if_neg (show char '>' ≠ char '<' by decide), if_true]
  cases ts
  case nil =>
    obtain ⟨z, hz, _, hpz⟩ := hp.next_end
    rw [hz]
    refine Ends.no_command (by decide) (fun ws hr => ?_) hpz.stores
    obtain ⟨_, _, ht, _⟩ := runs_redirect.mp hr
    cases ht
  case cons tok ts =>
    obtain ⟨z, hz, hkz, hpz, -⟩ := hp.next
    simp only [hz]
    cases tok
    case symbol c =>
      have hc := (symbol_ne (hp.symbols c List.mem_cons_self)).1
      rw [if_pos (show (Token.symbol c).code ≠ char 'w' from hc)]
      refine Ends.no_command (by decide) (fun ws hr => ?_) hpz.stores
      obtain ⟨_, _, ht, _⟩ := runs_redirect.mp hr
      cases ht
    case word w =>
      rw [if_neg (show ¬(Token.word w).code ≠ char 'w' from not_not.mpr rfl), hkz, hk]
      split
      case isTrue ha =>
        refine Ends.no_command (by decide) (fun ws hr => ?_) hpz.stores
        obtain ⟨_, _, _, h₀, _⟩ := runs_redirect.mp hr
        exact absurd h₀ (Int.not_le.mpr ha)
      case isFalse ha =>
        refine ⟨ts, args, Nat.lt_add_of_pos_right Nat.two_pos, hpz.called _, fun ws => ?_⟩
        rw [runs_redirect]
        constructor
        · rintro ⟨_, _, ht, _, hr⟩
          cases ht
          exact hr
        · exact fun hr => ⟨w, ts, rfl, Int.not_lt.mp ha, hr⟩

theorem turn_pipe (h : Parsed n e line x (.symbol (char '|') :: ts) args) :
    Turned answer n e line x.calls (.symbol (char '|') :: ts) args (turn answer n x) := by
  obtain ⟨y, hy, hk, hp, _⟩ := h.next
  simp only [turn, hy, Token.code, if_neg (show char '|' ≠ char 'w' by decide),
    if_neg (show char '|' ≠ char '<' by decide), if_neg char_ne.symm, if_true, hk]
  split
  case isTrue ha =>
    exact Ends.no_command (by decide) (fun ws hr => absurd (runs_pipe.mp hr).1 (Int.not_le.mpr ha)) hp.stores
  case isFalse ha =>
    split
    case isTrue hf =>
      refine Ends.no_command (by decide) (fun ws hr => ?_) hp.stores
      obtain ⟨_, ⟨h₁, _⟩ | ⟨h₁, _⟩⟩ := runs_pipe.mp hr <;> omega
    case isFalse hf =>
      split
      case isTrue h₀ =>
        refine ⟨ts, [], Nat.lt_succ_self _, hp.again _, fun ws => ?_⟩
        rw [runs_pipe]
        constructor
        · rintro ⟨_, ⟨h₁, _⟩ | ⟨_, hr⟩⟩
          · omega
          · exact hr
        · exact fun hr => ⟨Int.not_lt.mp ha, .inr ⟨h₀, hr⟩⟩
      case isFalse h₀ =>
        refine ⟨fun _ => ⟨args, ts, runs_pipe.mpr ⟨Int.not_lt.mp ha, .inl ⟨by omega, rfl⟩⟩, hp.called _⟩,
          fun hl => absurd rfl hl, hp.stores⟩

theorem turn_spec (h : Parsed n e line x ts args) :
    Turned answer n e line x.calls ts args (turn answer n x) := by
  cases ts
  case nil =>
    obtain ⟨y, hy, _, hp⟩ := h.next_end
    simp only [turn, hy]
    exact ⟨fun _ => ⟨args, [], .done, hp⟩, fun hl => absurd rfl hl, hp.stores⟩
  case cons tok ts =>
    cases tok
    case word w => exact turn_word h
    case symbol c =>
      by_cases h₁ : c = char '>'
      case pos =>
        subst h₁
        exact turn_redirect h
      by_cases h₂ : c = char '|'
      case pos =>
        subst h₂
        exact turn_pipe h
      have ⟨hw, h₀⟩ := symbol_ne (h.symbols c List.mem_cons_self)
      obtain ⟨y, hy, _, hp, _⟩ := h.next
      simp only [turn, hy, Token.code, if_neg hw, if_neg h₁, if_neg h₂, if_neg h₀]
      split
      case isFalse => exact Ends.no_command (by decide) (fun _ => Runs.not_symbol h₁ h₂) hp.stores
      case isTrue =>
        have hz : ∀ st ∈ (y.gettoken n).2.stores, st.fits := hp.stores
        split
        · exact Ends.no_command (by decide) (fun _ => Runs.not_symbol h₁ h₂) hz
        · exact Ends.no_command (by decide) (fun _ => Runs.not_symbol h₁ h₂) hz

-- The whole loop, with a turn for every token that is left and one for the end.
theorem turns_spec (h : Parsed n e line x ts args) (hf : ts.length < f) :
    ∃ l y, turns answer n f x = (some l, y) ∧ Ends answer n e line x.calls ts args l y := by
  induction f generalizing x ts args
  case zero => exact absurd hf (Nat.not_lt_zero _)
  case succ f hi =>
    have ht : Turned answer n e line x.calls ts args (turn answer n x) := turn_spec h
    rw [turns]
    generalize turn answer n x = r at ht
    obtain ⟨_ | l, y⟩ := r
    · obtain ⟨ts', args', hlt, hp, hr⟩ := ht
      have ⟨l, z, hz, he⟩ := hi hp (by omega)
      refine ⟨l, z, hz, fun hl => ?_, fun hl ws hw => he.others hl ws ((hr ws).mp hw), he.stores⟩
      obtain ⟨ws, ts'', hw, hpz⟩ := he.runit hl
      exact ⟨ws, ts'', (hr ws).mpr hw, hpz⟩
    · exact ⟨l, y, rfl, ht⟩

end Turn

section Readline

theorem readline_spec {buf : List Byte} {input : List (Option Byte)} (h : readline buf input = some line)
    (hb : buf.length ≤ 1023) (hz : 0 ∉ buf) : line.length ≤ 1023 ∧ 0 ∉ line := by
  induction input generalizing buf
  case nil => cases h
  case cons c cs hi =>
    cases c
    case none => cases h
    case some c =>
      rw [readline] at h
      split at h
      · exact hi h (by rw [List.length_dropLast]; omega) fun h => hz (List.dropLast_subset _ h)
      split at h
      case isTrue hc =>
        refine hi h ?_ fun h => ?_
        · have := hc.2
          rw [BUFLEN] at this
          rw [List.length_append, List.length_singleton]
          omega
        · obtain h | h := List.mem_append.mp h
          · exact hz h
          · rw [← List.mem_singleton.mp h] at hc
            exact absurd hc.1 (by decide)
      split at h
      · cases h
        exact ⟨hb, hz⟩
      · exact hi h hb hz

end Readline

section Runit

theorem strlen_from {m : Memory} {p i : Nat} (h : m.strEq (p + i) w) (hz : 0 ∉ w) (hn : w.length < n) :
    whileLoop (fun i => m (p + i) ≠ 0) (· + 1) n i = i + w.length := by
  induction w generalizing i n
  case nil => exact whileLoop_end fun h₀ => h₀ (strEq_nil.mp h)
  case cons c w hi =>
    have ⟨hc, hw⟩ := strEq_cons.mp h
    obtain ⟨n, rfl⟩ := Nat.exists_eq_add_of_le' (Nat.lt_of_le_of_lt (Nat.zero_le _) hn)
    have hc₀ : m (p + i) ≠ 0 := fun h₀ => hz (h₀ ▸ hc ▸ List.mem_cons_self)
    rw [whileLoop_turn (c := fun i => m (p + i) ≠ 0) hc₀]
    rw [hi (i := i + 1) hw (fun h => hz (List.mem_cons_of_mem _ h)) (Nat.lt_of_succ_lt_succ hn)]
    rw [List.length_cons]
    omega

theorem strlen_eq {m : Memory} {p : Nat} (h : m.strEq p w) (hz : 0 ∉ w) (hn : w.length < n) :
    strlen n m p = w.length :=
  (strlen_from h hz hn).trans (Nat.zero_add _)

theorem strEq_head {m : Memory} {p : Nat} (h : m.strEq p w) (hc : c ≠ 0) : m p = c ↔ w.head? = some c := by
  cases w
  case nil =>
    rw [strEq_nil.mp h]
    exact ⟨fun h => absurd h.symm hc, nofun⟩
  case cons d w =>
    rw [(strEq_cons.mp h).1]
    exact Option.some_inj.symm

theorem runit_fits (hp : Parsed n e line x ts ws) (hz : 0 ∉ line) (hn : line.length < n) :
    (∀ st ∈ (runit n x).stores, st.fits) ↔ Fits ws := by
  cases ws
  case nil =>
    rw [runit, if_pos (show x.argc = 0 from hp.argc)]
    exact ⟨fun _ => ⟨by decide, nofun⟩, fun _ => hp.stores⟩
  case cons w ws =>
    have ⟨hw, hm, _⟩ := hp.first w rfl
    have hl : strlen n x.lexer.mem (x.argv 0) = w.length :=
      strlen_eq hm (fun h => hz (hw.subset h)) (Nat.lt_of_le_of_lt hw.length_le hn)
    have hc : x.argc ≠ 0 := by
      rw [hp.argc]
      exact Nat.succ_ne_zero _
    rw [runit, if_neg hc]
    simp only [hl]
    have hlast : (Store.argv x.argc).fits ↔ (w :: ws).length < MAXARGS := by rw [← hp.argc]; rfl
    by_cases hs : x.lexer.mem (x.argv 0) = char '/'
    case pos =>
      rw [if_pos hs, List.forall_mem_cons, hlast]
      refine ⟨fun h => ⟨h.1, fun v hv => ?_⟩, fun h => ⟨h.args, hp.stores⟩⟩
      cases hv
      exact .inl ((strEq_head hm (by decide)).mp hs)
    case neg =>
      rw [if_neg hs, List.forall_mem_cons, hlast]
      constructor
      case mp =>
        refine fun h => ⟨h.1, fun v hv => ?_⟩
        cases hv
        have hb : (Store.argv0buf (w.length + 1)).fits := h.2 _ (by simp)
        exact .inr hb
      case mpr =>
        intro h
        have hb := (h.name w rfl).resolve_left fun h => hs ((strEq_head hm (by decide)).mpr h)
        refine ⟨h.args, fun st hst => ?_⟩
        simp only [List.cons_append, List.mem_cons, List.mem_append, List.mem_map, List.mem_range] at hst
        obtain rfl | ⟨i, hi, rfl⟩ | rfl | hst := hst
        · exact Nat.succ_pos _
        · exact Nat.lt_of_lt_of_le (Nat.succ_lt_succ hi) hb
        · exact Nat.succ_pos _
        · exact hp.stores st hst

end Runit

theorem runcmd_spec {x : Lexer} (hz : 0 ∉ line) (ha : 0 < a) (hm : x.mem.strEq a line)
    (hn : line.length < n) :
    WithinBuffers (runcmd answer n a x) ↔ ∀ ws, Runs answer 0 (tokens line) [] ws → Fits ws := by
  have ⟨hr, _⟩ := advance_spec hm hz ha hn
  have hp : Parsed n (a + line.length) line ⟨x.advance n a, 0, 0, fun _ => 0, [], 0⟩ (tokens line) [] :=
    ⟨hr, fun w hw => tokens_infix.1 w hw, fun c => tokens_symbols, rfl, Nat.zero_le _, nofun,
      fun _ h => absurd h List.not_mem_nil⟩
  have ht : (tokens line).length < n := Nat.lt_of_le_of_lt tokens_length hn
  obtain ⟨l, y, hy, he⟩ : ∃ l y, turns answer n n ⟨x.advance n a, 0, 0, fun _ => 0, [], 0⟩ = (some l, y) ∧
      Ends answer n (a + line.length) line 0 (tokens line) [] l y := turns_spec hp ht
  rw [runcmd, gettoken_init (Nat.ne_of_gt ha)]
  simp only [hy]
  cases l
  case runit =>
    obtain ⟨ws, ts, hw, hpy⟩ := he.runit rfl
    have hf := runit_fits hpy hz hn
    refine ⟨fun h ws' hw' => ?_, fun h => ⟨rfl, hf.mpr (h ws hw)⟩⟩
    rw [← hw.unique hw']
    exact hf.mp h.2
  all_goals exact ⟨fun _ ws hw => absurd hw (he.others (by decide) ws), fun _ => ⟨rfl, he.stores⟩⟩

-- Every store is inside the arrays exactly if the command that is run, if there is one, has at most 15 words
-- and a name with room for a `/` before it.
theorem runcmd_stores_iff {input : List (Option Byte)} {x : Lexer} (h : readline [] input = some line)
    (ha : 0 < a) (hm : x.mem.strEq a line) (hn : line.length < n) :
    WithinBuffers (runcmd answer n a x) ↔ ∀ ws, Runs answer 0 (tokens line) [] ws → Fits ws :=
  runcmd_spec (readline_spec h (Nat.zero_le _) List.not_mem_nil).2 ha hm hn

-- The line `ls`.
theorem runcmd_stores_iff_sample :
    let line := [char 'l', char 's']
    readline [] (line.map some ++ [some (char '\n')]) = some line ∧
      WithinBuffers (runcmd (fun _ => 0) 3 4096 ⟨fun p => line.getD (p - 4096) 0, [], 0, 0, 0⟩) := by
  intro line
  have hl : readline [] (line.map some ++ [some (char '\n')]) = some line := by decide
  refine ⟨hl, (runcmd_stores_iff hl (by decide) (by decide) (by decide)).mpr fun ws h => ?_⟩
  rw [show tokens line = [.word line] by decide] at h
  cases h
  case word h =>
    cases h
    refine ⟨by decide, fun w hw => ?_⟩
    cases hw
    exact .inr (by decide)

-- With 16 words the terminating null pointer is stored after the end of `argv`.
theorem runcmd_overruns :
    let line := (List.replicate 15 [char 'a', char ' ']).flatten ++ [char 'a']
    readline [] (line.map some ++ [some (char '\n')]) = some line ∧
      ¬WithinBuffers (runcmd (fun _ => 0) 32 4096 ⟨fun p => line.getD (p - 4096) 0, [], 0, 0, 0⟩) := by
  intro line
  have hr : ∀ (k : Nat) (args : List (List Byte)), args.length + k ≤ MAXARGS →
      Runs (fun _ => 0) 0 (List.replicate k (.word [char 'a'])) args (args ++ List.replicate k [char 'a']) := by
    intro k
    induction k
    case zero =>
      intro args _
      rw [List.replicate_zero, List.replicate_zero, List.append_nil]
      exact .done
    case succ k hi =>
      intro args hk
      have hrec := hi (args ++ [[char 'a']]) (by rw [List.length_append, List.length_singleton]; omega)
      rw [List.append_assoc, List.singleton_append, ← List.replicate_succ] at hrec
      exact .word (by omega) hrec
  have ht : tokens line = List.replicate 16 (.word [char 'a']) := by decide
  refine ⟨by decide, fun h => ?_⟩
  have hf := (runcmd_spec (by decide) (by decide) (by decide) (by decide)).mp h _ (ht ▸ hr 16 [] (by decide))
  exact absurd hf.args (by decide)

end User.Sh

import Sisop.User.Sh
import Mathlib.Tactic.Common

namespace User.Sh

open Library

inductive Token
  | word (text : List Byte)
  | symbol (c : Byte)
deriving DecidableEq

def Token.code : Token → Byte
  | .word _   => char 'w'
  | .symbol c => c

def isWordChar (c : Byte) : Bool := c ∉ WHITESPACE && c ∉ SYMBOLS

-- The tokens of a line: a character of a word belongs to the word that starts right after it.
def tokens : List Byte → List Token
  | []     => []
  | c :: s =>
    if c ∈ WHITESPACE then tokens s
    else if c ∈ SYMBOLS then .symbol c :: tokens s
    else
      match s.head?.any isWordChar, tokens s with
      | true, .word w :: ts => .word (c :: w) :: ts
      | _,    ts            => .word [c] :: ts

variable {n a e p t : Nat} {c : Byte} {s v w line : List Byte} {m m' : Memory} {tok : Token}
  {ts : List Token}

section Tokens

theorem isWordChar_iff : isWordChar c ↔ c ∉ WHITESPACE ∧ c ∉ SYMBOLS := by
  simp [isWordChar]

theorem tokens_white (h : ∀ c ∈ w, c ∈ WHITESPACE) : tokens (w ++ s) = tokens s := by
  induction w
  case nil => rfl
  case cons c w hi =>
    rw [List.cons_append, tokens, if_pos (h c List.mem_cons_self)]
    exact hi fun c hc => h c (List.mem_cons_of_mem _ hc)

theorem not_white_of_symbol (h : c ∈ SYMBOLS) : c ∉ WHITESPACE := by
  revert h
  revert c
  decide

theorem tokens_symbol (h : c ∈ SYMBOLS) : tokens (c :: s) = .symbol c :: tokens s := by
  rw [tokens, if_neg (not_white_of_symbol h), if_pos h]

-- A maximal run of the other characters is one word.
theorem tokens_word (hv : v ≠ []) (h : ∀ c ∈ v, isWordChar c) (hs : s.head?.any isWordChar = false) :
    tokens (v ++ s) = .word v :: tokens s := by
  induction v
  case nil => exact absurd rfl hv
  case cons c v hi =>
    have ⟨hw, hy⟩ := isWordChar_iff.mp (h c List.mem_cons_self)
    rw [List.cons_append, tokens, if_neg hw, if_neg hy]
    cases v
    case nil =>
      rw [List.nil_append, hs]
    case cons d v =>
      have hd := h d (List.mem_cons_of_mem _ List.mem_cons_self)
      rw [hi (List.cons_ne_nil _ _) fun c hc => h c (List.mem_cons_of_mem _ hc)]
      simp [hd]

end Tokens

section Scan

variable {x y : Scan}

theorem strchr_isSome : (strchr s c).isSome ↔ c ∈ s := by
  simp [strchr, List.findIdx?_isSome]

theorem Scan.isWhite_iff : x.isWhite ↔ x.cur ∈ WHITESPACE := strchr_isSome

theorem Scan.inWord_iff : x.inWord ↔ x.cur ≠ 0 ∧ isWordChar x.cur := by
  rw [isWordChar_iff, inWord, Option.isNone_iff_eq_none, ← Option.not_isSome_iff_eq_none, strchr_isSome,
    List.mem_append, not_or]

theorem strEq_nil : m.strEq a [] ↔ m a = 0 := decide_eq_true_iff

theorem strEq_cons : m.strEq a (c :: s) ↔ m a = c ∧ m.strEq (a + 1) s := by
  rw [Memory.strEq, Bool.and_eq_true, decide_eq_true_iff]

theorem strEq_append : m.strEq a (v ++ s) ↔
    (∀ i < v.length, m (a + i) = v.getD i 0) ∧ m.strEq (a + v.length) s := by
  induction v generalizing a
  case nil => simp
  case cons c v hi =>
    have hl : a + 1 + v.length = a + (c :: v).length := by
      rw [List.length_cons]
      omega
    rw [List.cons_append, strEq_cons, hi, hl, ← and_assoc]
    refine and_congr_left fun _ => ?_
    constructor
    case mp =>
      rintro ⟨h₀, h⟩ i hlt
      cases i
      case zero => exact h₀
      case succ i => simpa [Nat.add_assoc, Nat.add_comm 1] using h i (Nat.lt_of_succ_lt_succ hlt)
    case mpr =>
      intro h
      refine ⟨h 0 (Nat.succ_pos _), fun i hlt => ?_⟩
      simpa [Nat.add_assoc, Nat.add_comm 1] using h (i + 1) (Nat.succ_lt_succ hlt)

-- Where the scan of a string is, after having passed the start `w` of it.
structure Passed (x y : Scan) (w s : List Byte) : Prop where
  at_s : y.s = x.s + w.length
  rest : y.mem.strEq y.s s
  seen : ∀ p ∈ y.seen, p ∈ x.seen ∨ x.s < p ∧ p ≤ y.s

theorem Scan.zero_mem (h : p ≠ x.s) : x.zero.mem p = x.mem p := by
  show x.mem.write x.s 1 (fun _ => 0) p = x.mem p
  exact Memory.write_of_not_mem (by omega)

theorem Scan.zero_mem_self : x.zero.mem x.s = 0 := by
  show x.mem.write x.s 1 (fun _ => 0) x.s = 0
  exact Memory.write_of_mem (Nat.le_refl _) (Nat.lt_succ_self _)

-- The white space is passed and set to zero.
theorem skipWhite_spec (h : x.mem.strEq x.s s) (hz : 0 ∉ s) (hn : s.length < n) :
    let y := x.skipWhite n
    ∃ w s', s = w ++ s' ∧ (∀ c ∈ w, c ∈ WHITESPACE) ∧ (∀ c ∈ s'.head?, c ∉ WHITESPACE) ∧
      Passed x y w s' ∧ (∀ p, x.s ≤ p → p < y.s → y.mem p = 0) ∧
      ∀ p, p < x.s ∨ y.s ≤ p → y.mem p = x.mem p := by
  intro y
  induction s generalizing x n
  case nil =>
    have hw : ¬x.isWhite := by
      rw [Scan.isWhite_iff, Scan.cur, strEq_nil.mp h]
      decide
    have hy : y = x := whileLoop_end hw
    refine ⟨[], [], rfl, by simp, by simp, ⟨?_, ?_, ?_⟩, ?_, ?_⟩ <;> rw [hy]
    · rfl
    · exact h
    · exact fun _ => Or.inl
    · omega
    · exact fun _ _ => rfl
  case cons c s hi =>
    have ⟨hc, hs⟩ := strEq_cons.mp h
    by_cases hw : x.isWhite
    case neg =>
      have hy : y = x := whileLoop_end hw
      rw [Scan.isWhite_iff, Scan.cur, hc] at hw
      refine ⟨[], c :: s, rfl, by simp, by simpa using hw, ⟨?_, ?_, ?_⟩, ?_, ?_⟩ <;> rw [hy]
      · rfl
      · exact h
      · exact fun _ => Or.inl
      · omega
      · exact fun _ _ => rfl
    case pos =>
      obtain ⟨n, rfl⟩ := Nat.exists_eq_add_of_le' (Nat.lt_of_le_of_lt (Nat.zero_le _) hn)
      have hy : y = x.zero.next.skipWhite n := whileLoop_turn hw
      have hs' : x.zero.next.mem.strEq x.zero.next.s s := by
        rwa [Memory.strEq_congr (m := x.mem)]
        intro p h₁ _
        exact Scan.zero_mem (show p ≠ x.s from by
          have : x.zero.next.s = x.s + 1 := rfl
          omega)
      have ⟨w, s', he, hw', hs₁, hp, h₀, hm⟩ := hi hs' (fun h => hz (List.mem_cons_of_mem _ h))
        (Nat.lt_of_succ_lt_succ hn)
      rw [← hy] at hp h₀ hm
      have hx : x.zero.next.s = x.s + 1 := rfl
      have ha := hp.at_s
      have hl : x.s < y.s := by omega
      have hm₀ : y.mem x.s = 0 := by
        rw [hm x.s (.inl (by omega))]
        exact Scan.zero_mem_self
      refine ⟨c :: w, s', by rw [he]; rfl, ?_, hs₁, ⟨?_, hp.rest, ?_⟩, ?_, ?_⟩
      · rw [Scan.isWhite_iff, Scan.cur, hc] at hw
        exact List.forall_mem_cons.mpr ⟨hw, hw'⟩
      · rw [List.length_cons]
        omega
      · intro p h
        obtain h | h := hp.seen p h
        · obtain rfl | h := List.mem_cons.mp h
          · exact .inr ⟨Nat.lt_succ_self _, hl⟩
          · exact .inl h
        · exact .inr ⟨by omega, h.2⟩
      · intro p h₁ h₂
        obtain rfl | h₁ := Nat.eq_or_lt_of_le h₁
        · exact hm₀
        · exact h₀ p (by omega) h₂
      · intro p h
        rw [hm p (by omega)]
        exact Scan.zero_mem (by omega)

-- The characters of a word are passed, and nothing is stored.
theorem skipWord_spec (h : x.mem.strEq x.s s) (hz : 0 ∉ s) (hn : s.length < n) :
    let y := x.skipWord n
    ∃ v s', s = v ++ s' ∧ (∀ c ∈ v, isWordChar c) ∧ s'.head?.any isWordChar = false ∧ Passed x y v s' ∧
      y.mem = x.mem := by
  intro y
  induction s generalizing x n
  case nil =>
    have hw : ¬x.inWord := fun hw => (Scan.inWord_iff.mp hw).1 (strEq_nil.mp h)
    have hy : y = x := whileLoop_end hw
    refine ⟨[], [], rfl, by simp, by simp, ⟨?_, ?_, ?_⟩, ?_⟩ <;> rw [hy]
    · rfl
    · exact h
    · exact fun _ => Or.inl
  case cons c s hi =>
    have ⟨hc, hs⟩ := strEq_cons.mp h
    by_cases hw : x.inWord
    case neg =>
      have hy : y = x := whileLoop_end hw
      have h₀ : c ≠ 0 := fun h => hz (h ▸ List.mem_cons_self)
      rw [Scan.inWord_iff, Scan.cur, hc] at hw
      have hw : isWordChar c = false := Bool.not_eq_true _ ▸ fun h => hw ⟨h₀, h⟩
      refine ⟨[], c :: s, rfl, by simp, hw, ⟨?_, ?_, ?_⟩, ?_⟩ <;> rw [hy]
      · rfl
      · exact h
      · exact fun _ => Or.inl
    case pos =>
      obtain ⟨n, rfl⟩ := Nat.exists_eq_add_of_le' (Nat.lt_of_le_of_lt (Nat.zero_le _) hn)
      have hy : y = x.next.skipWord n := whileLoop_turn hw
      have ⟨v, s', he, hv, hs₁, hp, hm⟩ := hi (x := x.next) hs (fun h => hz (List.mem_cons_of_mem _ h))
        (Nat.lt_of_succ_lt_succ hn)
      rw [← hy] at hp hm
      have hx : x.next.s = x.s + 1 := rfl
      have ha := hp.at_s
      refine ⟨c :: v, s', by rw [he]; rfl, ?_, hs₁, ⟨?_, hp.rest, ?_⟩, hm⟩
      · rw [Scan.inWord_iff, Scan.cur, hc] at hw
        exact List.forall_mem_cons.mpr ⟨hw.2, hv⟩
      · rw [List.length_cons]
        omega
      · intro p h
        obtain h | h := hp.seen p h
        · obtain rfl | h := List.mem_cons.mp h
          · exact .inr ⟨Nat.lt_succ_self _, by omega⟩
          · exact .inl h
        · exact .inr ⟨by omega, h.2⟩

end Scan

section Gettoken

variable {x y : Lexer}

-- What `gettoken` does with `nc` and the memory: it reads the token at `p` ahead.
def Lexer.advance (n p : Nat) (x : Lexer) : Lexer :=
  let (c, y) := _gettoken n p x
  { y with nc := c }

theorem gettoken_init (h : a ≠ 0) : gettoken n a t x = (0, t, x.advance n a) := if_pos h

-- The token that has been read ahead is `tok`, and `s` is the line after it, up to its terminator at `e`.
structure Ahead (n e : Nat) (x : Lexer) (tok : Token) (s : List Byte) : Prop where
  code  : x.nc = tok.code
  rest  : x.mem.strEq x.np2 s
  noEnd : 0 ∉ s
  fuel  : s.length < n
  pos   : 0 < x.np2
  ends  : x.np2 + s.length = e
  text  : ∀ w, tok = .word w → x.np2 = x.np1 + w.length ∧
    (∀ i < w.length, x.mem (x.np1 + i) = w.getD i 0) ∧ s.head?.any isWordChar = false

-- The tokens that are still to be returned.
inductive Reads (n e : Nat) : Lexer → List Token → Prop
  | nil {x : Lexer} : x.nc = 0 → x.np2 = 0 → Reads n e x []
  | cons {x : Lexer} {tok : Token} {s : List Byte} : Ahead n e x tok s → Reads n e x (tok :: tokens s)

-- What reading ahead from `p` on leaves as it is: the memory before `p`, and a word that ends at `p` gets
-- its terminator.
structure Kept (p e : Nat) (x y : Lexer) : Prop where
  before : ∀ q < p, y.mem q = x.mem q
  past   : y.np2 = 0 ∨ p < y.np2
  seen   : ∀ q ∈ y.seen, q ∈ x.seen ∨ p ≤ q ∧ q ≤ e

theorem advance_spec (h : x.mem.strEq p s) (hz : 0 ∉ s) (hp : 0 < p) (hn : s.length < n) :
    let y := x.advance n p
    Reads n (p + s.length) y (tokens s) ∧ Kept p (p + s.length) x y ∧
      (s.head?.any isWordChar = false → y.mem p = 0) := by
  intro y
  have ⟨w, s', he, hw, hh, hpass, h₀, hm⟩ := skipWhite_spec (x := ⟨x.mem, p, p :: x.seen⟩) h hz hn
  generalize hz' : Scan.skipWhite n ⟨x.mem, p, p :: x.seen⟩ = z at hpass h₀ hm
  have hs : z.s = p + w.length := hpass.at_s
  have hseen : ∀ q ∈ z.seen, q ∈ x.seen ∨ p ≤ q ∧ q ≤ z.s := by
    intro q hq
    obtain hq | hq := hpass.seen q hq
    · obtain rfl | hq := List.mem_cons.mp hq
      · exact .inr ⟨Nat.le_refl _, by omega⟩
      · exact .inl hq
    · exact .inr ⟨Nat.le_of_lt hq.1, hq.2⟩
  have hl : s.length = w.length + s'.length := by rw [he, List.length_append]
  -- Either white space at `p` has been set to zero, or `p` is where the scan stands.
  have hfirst : z.mem p = 0 ∨ z.s = p ∧ s' = s := by
    cases w
    case nil => exact .inr ⟨hs, he.symm⟩
    case cons c w => exact .inl (h₀ p (Nat.le_refl _) (by rw [hs, List.length_cons]; omega))
  have hbefore (q) (hq : q < p) : z.mem q = x.mem q := hm q (.inl hq)
  have hz₁ : 0 ∉ s' := fun h => hz (he ▸ List.mem_append_right _ h)
  rw [he, tokens_white hw, ← he]
  have hg : y = Lexer.advance n p x := rfl
  simp only [Lexer.advance, _gettoken, if_neg (Nat.ne_of_gt hp), hz'] at hg
  cases hs' : s'
  case nil =>
    have hc : z.cur = 0 := strEq_nil.mp (hs' ▸ hpass.rest)
    rw [if_pos hc] at hg
    rw [hg]
    refine ⟨.nil rfl rfl, ⟨hbefore, .inl rfl, fun q hq => ?_⟩, fun _ => ?_⟩
    · refine (hseen q hq).imp_right fun h => ⟨h.1, ?_⟩
      omega
    · obtain h | h := hfirst
      · exact h
      · exact h.1 ▸ hc
  case cons c s₁ =>
    have ⟨hc, hs₁⟩ := strEq_cons.mp (hs' ▸ hpass.rest)
    have hcur : z.cur = c := hc
    have hc₀ : c ≠ 0 := fun h => hz₁ (hs' ▸ h ▸ List.mem_cons_self)
    rw [hs', List.length_cons] at hl
    rw [hcur, if_neg hc₀] at hg
    by_cases hy : c ∈ SYMBOLS
    case pos =>
      rw [if_pos (strchr_isSome.mpr hy)] at hg
      have hn₂ : y.np2 = p + w.length + 1 := by
        rw [hg, ← hs]
        rfl
      have hmem : y.mem = z.zero.mem := by
        rw [hg]
        rfl
      rw [tokens_symbol hy]
      refine ⟨.cons ⟨?_, ?_, ?_, by omega, by omega, by omega, fun w hw => by cases hw⟩,
        ⟨fun q hq => ?_, by omega, fun q hq => ?_⟩, fun _ => ?_⟩
      · rw [hg]
        rfl
      · rwa [hmem, hn₂, ← hs, Memory.strEq_congr (m := z.mem)]
        intro q h₁ _
        exact Scan.zero_mem (Nat.ne_of_gt h₁)
      · exact fun h => hz₁ (hs' ▸ List.mem_cons_of_mem _ h)
      · rw [hmem, Scan.zero_mem (show q ≠ z.s by omega), hbefore q hq]
      · rw [hg] at hq
        obtain rfl | hq := List.mem_cons.mp hq
        · exact .inr (show p ≤ z.s + 1 ∧ z.s + 1 ≤ p + s.length by omega)
        · exact (hseen q hq).imp_right fun h => ⟨h.1, by omega⟩
      · rw [hmem]
        obtain h | h := hfirst
        · by_cases hq : p = z.s
          case pos => exact hq ▸ Scan.zero_mem_self
          case neg => rw [Scan.zero_mem hq, h]
        · exact h.1 ▸ Scan.zero_mem_self
    case neg =>
      have hcw : isWordChar c := isWordChar_iff.mpr ⟨hh c (by rw [hs']; rfl), hy⟩
      rw [if_neg (mt strchr_isSome.mp hy)] at hg
      have ⟨v, s₂, hv, hvw, hs₂, hpass₂, hm₂⟩ := skipWord_spec (n := n) (hs' ▸ hpass.rest)
        (hs' ▸ hz₁) (by rw [List.length_cons]; omega)
      generalize hz₂ : Scan.skipWord n z = z₂ at hpass₂ hm₂ hg
      have hv₀ : v ≠ [] := by
        rintro rfl
        rw [List.nil_append] at hv
        rw [← hv] at hs₂
        exact absurd (hs₂.symm.trans hcw) Bool.noConfusion
      have hvl := List.length_pos_iff.mpr hv₀
      have hs₃ : z₂.s = z.s + v.length := hpass₂.at_s
      have hl₂ : s₁.length + 1 = v.length + s₂.length := by
        rw [← List.length_append, ← hv, List.length_cons]
      have hn₂ : y.np2 = p + w.length + v.length := by
        rw [hg, ← hs, ← hs₃]
      have hmem : y.mem = z.mem := by
        rw [hg]
        exact hm₂
      have hn₁ : y.np1 = z.s := by rw [hg]
      rw [hv, tokens_word hv₀ hvw hs₂]
      refine ⟨.cons ⟨?_, ?_, ?_, by omega, by omega, by omega, fun u hu => ?_⟩,
        ⟨fun q hq => ?_, by omega, fun q hq => ?_⟩, fun hfw => ?_⟩
      · rw [hg]
        rfl
      · rw [hmem, hn₂, ← hs, ← hs₃, ← hm₂]
        exact hpass₂.rest
      · exact fun h => hz₁ (hs' ▸ hv ▸ List.mem_append_right _ h)
      · cases hu
        refine ⟨by omega, fun i hi => ?_, hs₂⟩
        rw [hmem, hn₁]
        exact (strEq_append.mp (hv ▸ hs' ▸ hpass.rest)).1 i hi
      · rw [hmem, hbefore q hq]
      · rw [hg] at hq
        obtain hq | hq := hpass₂.seen q hq
        · exact (hseen q hq).imp_right fun h => ⟨h.1, by omega⟩
        · exact .inr (by omega)
      · rw [hmem]
        obtain h | h := hfirst
        · exact h
        · rw [← h.2, hs'] at hfw
          exact absurd (hfw.symm.trans hcw) Bool.noConfusion

-- One call returns the token that has been read ahead, and reads the one after it.
theorem gettoken_spec (h : Ahead n e x tok s) :
    let (c, t', y) := gettoken n 0 t x
    c = tok.code ∧ t' = x.np1 ∧ Reads n e y (tokens s) ∧ Kept x.np2 e x y ∧
      ∀ w, tok = .word w → y.mem x.np2 = 0 := by
  have ⟨hr, hk, h₀⟩ := advance_spec h.rest h.noEnd h.pos h.fuel
  rw [h.ends] at hr hk
  exact ⟨h.code, rfl, hr, hk, fun w hw => h₀ (h.text w hw).2.2⟩

theorem gettoken_end (h : Reads n e x []) : gettoken n 0 t x = (0, x.np1, x) := by
  cases h
  case nil hc hp =>
    have hg : _gettoken n x.np2 x = (0, x) := if_pos hp
    have hx : x.advance n x.np2 = x := by
      simp only [Lexer.advance, hg]
      exact hc ▸ rfl
    exact Prod.ext hc (Prod.ext rfl hx)

theorem Reads.ahead (h : Reads n e x (tok :: ts)) : ∃ s, Ahead n e x tok s ∧ ts = tokens s := by
  cases h
  case cons s h => exact ⟨s, h, rfl⟩

-- The scan is beyond `b` for good.
def Beyond (b : Nat) (x : Lexer) : Prop := x.np2 = 0 ∨ b < x.np2

theorem Reads.step {b : Nat} (h : Reads n e x ts) (hb : Beyond b x) :
    let (c, _, y) := gettoken n 0 t x
    c = (ts.head?.map Token.code).getD 0 ∧ Reads n e y ts.tail ∧ Beyond b y ∧
      (∀ q ≤ b, y.mem q = x.mem q) ∧ ∀ q ∈ y.seen, q ∈ x.seen ∨ b ≤ q ∧ q ≤ e := by
  cases h
  case nil hc hp =>
    have he : Reads n e x [] := .nil hc hp
    rw [gettoken_end he]
    exact ⟨rfl, he, hb, fun _ _ => rfl, fun _ => Or.inl⟩
  case cons tok s h =>
    have hlt : b < x.np2 := hb.resolve_left (Nat.ne_of_gt h.pos)
    have ⟨hc, _, hr, hk, _⟩ := gettoken_spec (t := t) h
    refine ⟨hc, hr, hk.past.imp_right (Nat.lt_trans hlt), fun q hq => hk.before q (by omega), ?_⟩
    intro q hq
    exact (hk.seen q hq).imp_right fun h => ⟨by omega, h.2⟩

-- A word that is returned has its terminator from then on.
theorem Ahead.terminated (h : Ahead n e x (.word w) s) :
    let y := (gettoken n 0 t x).2.2
    y.mem.strEq x.np1 w ∧ Beyond (x.np1 + w.length) y := by
  have ⟨_, _, _, hk, h₀⟩ := gettoken_spec (t := t) h
  have ⟨hn, ht, _⟩ := h.text w rfl
  constructor
  · rw [← List.append_nil w, strEq_append, strEq_nil, ← hn]
    exact ⟨fun i hi => (hk.before _ (by omega)).trans (ht i hi), h₀ w rfl⟩
  · rw [← hn]
    exact hk.past

end Gettoken

section Calls

-- The results of `gettoken(line, 0)` and of the calls after it.
def call (n : Nat) (x : Lexer) (a : Nat) : Nat → Byte × Nat × Lexer
  | 0     => gettoken n a 0 x
  | k + 1 => gettoken n 0 (call n x a k).2.1 (call n x a k).2.2

variable {x : Lexer} {k j : Nat}

-- The state after the first calls: the tokens from `k` on are to be returned.
theorem call_reads (ha : 0 < a) (hm : x.mem.strEq a line) (hz : 0 ∉ line) (hn : line.length < n) (k : Nat) :
    let y := (call n x a k).2.2
    Reads n (a + line.length) y ((tokens line).drop k) ∧ Beyond a y ∧
      ∀ p ∈ y.seen, p ∈ x.seen ∨ a ≤ p ∧ p ≤ a + line.length := by
  induction k
  case zero =>
    have ⟨hr, hk, _⟩ := advance_spec hm hz ha hn
    rw [call, gettoken_init (Nat.ne_of_gt ha)]
    exact ⟨hr, hk.past, hk.seen⟩
  case succ k hi =>
    have ⟨hr, hb, hs⟩ := hi
    have ⟨_, hr, hb, _, hs'⟩ := hr.step (t := (call n x a k).2.1) hb
    rw [List.tail_drop] at hr
    refine ⟨hr, hb, fun p hp => ?_⟩
    obtain hp | hp := hs' p hp
    · exact hs p hp
    · exact .inr hp

theorem call_keeps {b : Nat} (h : Reads n e (call n x a k).2.2 ts) (hb : Beyond b (call n x a k).2.2)
    (hj : k ≤ j) : ∀ q ≤ b, (call n x a j).2.2.mem q = (call n x a k).2.2.mem q := by
  suffices hs : ∃ ts, Reads n e (call n x a j).2.2 ts ∧ Beyond b (call n x a j).2.2 ∧
      ∀ q ≤ b, (call n x a j).2.2.mem q = (call n x a k).2.2.mem q by
    obtain ⟨_, _, _, hs⟩ := hs
    exact hs
  induction j, hj using Nat.le_induction
  case base => exact ⟨ts, h, hb, fun _ _ => rfl⟩
  case succ j _ hi =>
    obtain ⟨ts, hr, hb, hm⟩ := hi
    have ⟨_, hr, hb, hm', _⟩ := hr.step (t := (call n x a j).2.1) hb
    exact ⟨_, hr, hb, fun q hq => (hm' q hq).trans (hm q hq)⟩

-- The calls return the tokens of the line, each word with its text terminated from then on, and look at
-- nothing outside the line.
theorem gettoken_tokens (ha : 0 < a) (hm : x.mem.strEq a line) (hz : 0 ∉ line) (hn : line.length < n) :
    (∀ k, (call n x a (k + 1)).1 = ((tokens line)[k]?.map Token.code).getD 0) ∧
      (∀ k w, (tokens line)[k]? = some (.word w) → ∀ j > k,
        (call n x a j).2.2.mem.strEq (call n x a (k + 1)).2.1 w) ∧
      ∀ k, ∀ p ∈ (call n x a k).2.2.seen, p ∈ x.seen ∨ a ≤ p ∧ p ≤ a + line.length := by
  have hr := call_reads ha hm hz hn
  refine ⟨fun k => ?_, fun k w hw j hj => ?_, fun k => (hr k).2.2⟩
  · have ⟨hc, _⟩ := (hr k).1.step (t := (call n x a k).2.1) (hr k).2.1
    rwa [List.head?_drop] at hc
  · obtain ⟨hlt, hw⟩ := List.getElem?_eq_some_iff.mp hw
    have h := (hr k).1
    rw [List.drop_eq_getElem_cons hlt, hw] at h
    obtain ⟨s, h, _⟩ := h.ahead
    have ⟨ht, hb⟩ := h.terminated (t := (call n x a k).2.1)
    have hm := call_keeps (hr (k + 1)).1 hb hj
    have hp : (call n x a (k + 1)).2.1 = (call n x a k).2.2.np1 := rfl
    exact (Memory.strEq_congr fun q _ hq => hm q (by omega)).trans ht

-- The line `ab|c` at 4096.
theorem gettoken_tokens_sample :
    let line := [char 'a', char 'b', char '|', char 'c']
    let x : Lexer := ⟨fun p => line.getD (p - 4096) 0, [], 0, 0, 0⟩
    x.mem.strEq 4096 line ∧ 0 ∉ line ∧
      tokens line = [.word [char 'a', char 'b'], .symbol (char '|'), .word [char 'c']] ∧
      ∀ k, (call 5 x 4096 (k + 1)).1 = ((tokens line)[k]?.map Token.code).getD 0 :=
  ⟨by decide, by decide, by decide,
    (gettoken_tokens (by decide) (by decide) (by decide) (by decide)).1⟩

end Calls

end User.Sh

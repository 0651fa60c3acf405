import Mathlib.Tactic.Common
import Mathlib.Algebra.Order.Ring.Int

-- lib/printfmt.c, and strtol of lib/string.c

namespace Lib.Printfmt

inductive Base
  | oct
  | dec
  | hex
deriving DecidableEq

def Base.val : Base → Nat
  | oct => 8
  | dec => 10
  | hex => 16

theorem Base.one_lt (base : Base) : 1 < base.val := by
  cases base <;> decide

theorem Base.le (base : Base) : base.val ≤ 16 := by
  cases base <;> decide

def digits : List Char :=
  ['0', '1', '2', '3', '4', '5', '6', '7', '8', '9', 'a', 'b', 'c', 'd', 'e', 'f']

-- What goes to `putch`. An `int` is an `Int`.
def printnum (num : Nat) (base : Base) (width : Int) (padc : Char) : List Char :=
  (if num ≥ base.val then printnum (num / base.val) base (width - 1) padc
    else List.replicate (width - 1).toNat padc) ++ [digits.getD (num % base.val) '0']
termination_by num
decreasing_by exact Nat.div_lt_self (by have := base.one_lt; omega) base.one_lt

-- The arguments as they lie on the stack.
abbrev Args := List (BitVec 32)

def getuint (lflag : Nat) : Args → Option (BitVec 64 × Args)
  | lo :: hi :: ap => some (if lflag ≥ 2 then (hi ++ lo, ap) else (lo.setWidth 64, hi :: ap))
  | [lo]           => if lflag ≥ 2 then none else some (lo.setWidth 64, [])
  | []             => none

def getint (lflag : Nat) : Args → Option (BitVec 64 × Args)
  | lo :: hi :: ap => some (if lflag ≥ 2 then (hi ++ lo, ap) else (lo.signExtend 64, hi :: ap))
  | [lo]           => if lflag ≥ 2 then none else some (lo.signExtend 64, [])
  | []             => none

structure Spec where
  padc : Char
  width : Int
  precision : Int
  lflag : Nat
  altflag : Bool

def Spec.init : Spec := ⟨' ', -1, -1, 0, false⟩

def Spec.processPrecision (sp : Spec) : Spec :=
  if sp.width < 0 then { sp with width := sp.precision, precision := -1 } else sp

-- The digits after the first one of a width.
def readPrecision (precision : Int) : List Char → Int × List Char
  | []       => (precision, [])
  | ch :: fmt =>
    if '0' ≤ ch ∧ ch ≤ '9' then readPrecision (precision * 10 + ((ch.toNat : Int) - '0'.toNat)) fmt
    else (precision, ch :: fmt)

theorem readPrecision_length (precision : Int) (fmt : List Char) :
    (readPrecision precision fmt).2.length ≤ fmt.length := by
  induction fmt generalizing precision
  case nil => exact Nat.le_refl _
  case cons ch fmt ih =>
    rw [readPrecision]
    split
    · exact Nat.le_succ_of_le (ih _)
    · exact Nat.le_refl _

-- From `reswitch` on: what is printed, and the format and the arguments that remain. `start` is the format
-- after the `%`. `none` is an argument that is not there, or a conversion of a string (%s and %e).
def reswitch (start : List Char) (sp : Spec) (fmt : List Char) (ap : Args) :
    Option (List Char × List Char × Args) :=
  match fmt with
  | []        => some (['%'], start, ap)
  | ch :: fmt =>
    if ch = '-' then reswitch start { sp with padc := '-' } fmt ap
    else if ch = '0' then reswitch start { sp with padc := '0' } fmt ap
    else if '1' ≤ ch ∧ ch ≤ '9' then
      let r := readPrecision ((ch.toNat : Int) - '0'.toNat) fmt
      reswitch start { sp with precision := r.1 }.processPrecision r.2 ap
    else if ch = '*' then
      match ap with
      | []      => none
      | w :: ap => reswitch start { sp with precision := w.toInt }.processPrecision fmt ap
    else if ch = '.' then
      reswitch start { sp with width := if sp.width < 0 then 0 else sp.width } fmt ap
    else if ch = '#' then reswitch start { sp with altflag := true } fmt ap
    else if ch = 'l' then reswitch start { sp with lflag := sp.lflag + 1 } fmt ap
    else if ch = 'c' then
      match ap with
      | []      => none
      | c :: ap => some ([Char.ofNat (c.setWidth 8).toNat], fmt, ap)
    else if ch = 'e' ∨ ch = 's' then none
    else if ch = 'd' then
      (getint sp.lflag ap).map fun (num, ap) =>
        if num.toInt < 0 then ('-' :: printnum (-num).toNat .dec sp.width sp.padc, fmt, ap)
        else (printnum num.toNat .dec sp.width sp.padc, fmt, ap)
    else if ch = 'u' then
      (getuint sp.lflag ap).map fun (num, ap) => (printnum num.toNat .dec sp.width sp.padc, fmt, ap)
    else if ch = 'o' then
      (getuint sp.lflag ap).map fun (num, ap) => (printnum num.toNat .oct sp.width sp.padc, fmt, ap)
    else if ch = 'p' then
      match ap with
      | []        => none
      | num :: ap => some ('0' :: 'x' :: printnum num.toNat .hex sp.width sp.padc, fmt, ap)
    else if ch = 'x' then
      (getuint sp.lflag ap).map fun (num, ap) => (printnum num.toNat .hex sp.width sp.padc, fmt, ap)
    else if ch = '%' then some (['%'], fmt, ap)
    else some (['%'], start, ap)
termination_by fmt.length
decreasing_by
  all_goals first
    | exact Nat.lt_succ_self _
    | exact Nat.lt_succ_of_le (readPrecision_length _ _)

-- The format that remains is behind the `%`.
theorem reswitch_length {start fmt fmt' out : List Char} {sp : Spec} {ap ap' : Args}
    (h : reswitch start sp fmt ap = some (out, fmt', ap')) (hs : fmt.length ≤ start.length) :
    fmt'.length ≤ start.length := by
  fun_induction reswitch start sp fmt ap
  case case4 r ih => exact ih h (Nat.le_trans (readPrecision_length _ _) (Nat.le_of_succ_le hs))
  case case13 =>
    obtain ⟨⟨num, ap⟩, -, he⟩ := Option.map_eq_some_iff.mp h
    simp only at he
    split at he
    all_goals
      cases he
      exact Nat.le_of_succ_le hs
  case case14 | case15 | case18 =>
    obtain ⟨_, -, he⟩ := Option.map_eq_some_iff.mp h
    cases he
    exact Nat.le_of_succ_le hs
  all_goals
    simp_all
  all_goals omega

def vprintfmt (fmt : List Char) (ap : Args) : Option (List Char) :=
  match fmt with
  | []        => some []
  | ch :: fmt =>
    if ch ≠ '%' then (vprintfmt fmt ap).map (ch :: ·)
    else
      match _h : reswitch fmt .init fmt ap with
      | none                 => none
      | some (out, fmt', ap) => (vprintfmt fmt' ap).map (out ++ ·)
termination_by fmt.length
decreasing_by
  · exact Nat.lt_succ_self _
  · exact Nat.lt_succ_of_le (reswitch_length _h (Nat.le_refl _))

section Strtol

def digitOf (c : Char) : Option Nat :=
  if '0' ≤ c ∧ c ≤ '9' then some (c.toNat - '0'.toNat)
  else if 'a' ≤ c ∧ c ≤ 'z' then some (c.toNat - 'a'.toNat + 10)
  else if 'A' ≤ c ∧ c ≤ 'Z' then some (c.toNat - 'A'.toNat + 10)
  else none

-- The value, and the string at `*endptr`. A `long` wraps around.
def strtolDigits (base : Nat) (val : BitVec 32) : List Char → BitVec 32 × List Char
  | []     => (val, [])
  | c :: s =>
    match digitOf c with
    | none     => (val, c :: s)
    | some dig =>
      if dig ≥ base then (val, c :: s)
      else strtolDigits base (val * BitVec.ofNat 32 base + BitVec.ofNat 32 dig) s

def strtol (s : List Char) (base : Nat) : BitVec 32 × List Char :=
  let s := s.dropWhile fun c => c = ' ' ∨ c = '\t'
  let neg := s.head? = some '-'
  let s := if s.head? = some '+' ∨ neg then s.tail else s
  let (s, base) :=
    if (base = 0 ∨ base = 16) ∧ s[0]? = some '0' ∧ s[1]? = some 'x' then (s.drop 2, 16)
    else if base = 0 ∧ s[0]? = some '0' then (s.tail, 8)
    else if base = 0 then (s, 10)
    else (s, base)
  let (val, s) := strtolDigits base 0#32 s
  (if neg then -val else val, s)

end Strtol

end Lib.Printfmt

import Sisop.Lib.Printfmt

namespace Lib.Printfmt

-- The conversions of numbers.
inductive Conv
  | d
  | u
  | o
  | x
deriving DecidableEq

def Conv.char : Conv → Char
  | d => 'd'
  | u => 'u'
  | o => 'o'
  | x => 'x'

def Conv.base : Conv → Base
  | d => .dec
  | u => .dec
  | o => .oct
  | x => .hex

inductive Flag
  | none
  | zero
  | dash
deriving DecidableEq

def Flag.text : Flag → List Char
  | none => []
  | zero => ['0']
  | dash => ['-']

-- The padding character that `vprintfmt` takes.
def Flag.padc : Flag → Char
  | none => ' '
  | zero => '0'
  | dash => '-'

-- A field width: none, in the format, or an argument.
inductive Width
  | absent
  | digits (ds : List Char)
  | star (w : Nat)

namespace Width

def text : Width → List Char
  | absent    => []
  | digits ds => ds
  | star _    => ['*']

def args : Width → Args
  | star w => [BitVec.ofNat 32 w]
  | _      => []

def val : Width → Nat
  | absent    => 0
  | digits ds => Nat.ofDigitChars 10 ds 0
  | star w    => w

def Valid : Width → Prop
  | absent    => True
  | digits ds => ds ≠ [] ∧ ds.head? ≠ some '0' ∧ ∀ c ∈ ds, '0' ≤ c ∧ c ≤ '9'
  | star w    => w < 2 ^ 31

end Width

def bits (lflag : Nat) : Nat := if lflag ≥ 2 then 64 else 32

-- The values of the argument's type.
def InRange (conv : Conv) (lflag : Nat) (v : Int) : Prop :=
  if conv = .d then -2 ^ (bits lflag - 1) ≤ v ∧ v < 2 ^ (bits lflag - 1) else 0 ≤ v ∧ v < 2 ^ bits lflag

def valueArgs (lflag : Nat) (v : Int) : Args :=
  if lflag ≥ 2 then [(BitVec.ofInt 64 v).extractLsb' 0 32, (BitVec.ofInt 64 v).extractLsb' 32 32]
  else [BitVec.ofInt 32 v]

-- %, the flag, the width, the length modifiers and the conversion.
def directive (conv : Conv) (flag : Flag) (width : Width) (lflag : Nat) : List Char :=
  '%' :: (flag.text ++ (width.text ++ (List.replicate lflag 'l' ++ [conv.char])))

def sign (v : Int) : List Char := if v < 0 then ['-'] else []

-- The digits of a value.
def numeral (conv : Conv) (v : Int) : List Char := Nat.toDigits conv.base.val v.natAbs

def unpadded (conv : Conv) (v : Int) : List Char := sign v ++ numeral conv v

-- The text as the flag documents it.
def padded (conv : Conv) (flag : Flag) (w : Nat) (v : Int) : List Char :=
  let k := w - (unpadded conv v).length
  match flag with
  | .none => List.replicate k ' ' ++ unpadded conv v
  | .zero => sign v ++ List.replicate k '0' ++ numeral conv v
  | .dash => unpadded conv v ++ List.replicate k ' '

structure Formats (conv : Conv) (flag : Flag) (width : Width) (lflag : Nat) (v : Int) (t : List Char) :
    Prop where
  prints : vprintfmt (directive conv flag width lflag) (width.args ++ valueArgs lflag v) = some t
  length : t.length = max width.val (unpadded conv v).length
  padded : t = padded conv flag width.val v
  strtol : -2 ^ 31 ≤ v → v < 2 ^ 31 → (strtol t conv.base.val).1.toInt = v

variable {conv : Conv} {flag : Flag} {width : Width} {lflag n k : Nat} {v : Int} {s start : List Char}
  {sp : Spec} {ap : Args} {base : Base} {padc : Char}

section Numbers

theorem digits_getD (h : n < 16) : digits.getD n '0' = Nat.digitChar n := by
  decide +revert

-- The padding stands before the digits, as many as the number has.
theorem printnum_eq (w : Int) : printnum n base w padc =
    List.replicate (w - (Nat.toDigits base.val n).length).toNat padc ++ Nat.toDigits base.val n := by
  induction n using Nat.strongRecOn generalizing w
  case ind n ih =>
    have hb := base.one_lt
    have hle := base.le
    have hmod : n % base.val < 16 := Nat.lt_of_lt_of_le (Nat.mod_lt n (by omega)) hle
    rw [printnum, digits_getD hmod, Nat.toDigits_eq_if hb]
    by_cases hn : n < base.val
    · rw [if_neg (by omega), if_pos hn, Nat.mod_eq_of_lt hn, List.length_singleton]
      rfl
    · rw [if_pos (by omega), if_neg hn, ih _ (Nat.div_lt_self (by omega) hb), List.append_assoc,
        List.length_append, List.length_singleton]
      congr 3
      push_cast
      omega

-- The two words of a `long long`
theorem words_append (b : BitVec 64) : b.extractLsb' 32 32 ++ b.extractLsb' 0 32 = b := by
  apply BitVec.eq_of_getLsbD_eq
  intro i hi
  rw [BitVec.getLsbD_append]
  by_cases h : i < 32
  · simp [h]
  · have h' : i - 32 < 32 := by omega
    have hi : 32 + (i - 32) = i := by omega
    simp [h, h', hi]

theorem getuint_value (h₀ : 0 ≤ v) (h : v < 2 ^ bits lflag) :
    ∃ num, getuint lflag (valueArgs lflag v) = some (num, []) ∧ num.toNat = v.natAbs := by
  unfold valueArgs bits at *
  by_cases hl : lflag ≥ 2
  · rw [if_pos hl] at *
    refine ⟨BitVec.ofInt 64 v, ?_, ?_⟩
    · rw [getuint, if_pos hl, words_append]
    · rw [BitVec.toNat_ofInt]
      omega
  · rw [if_neg hl] at *
    refine ⟨(BitVec.ofInt 32 v).setWidth 64, by rw [getuint, if_neg hl], ?_⟩
    rw [BitVec.toNat_setWidth, BitVec.toNat_ofInt]
    omega

theorem getint_value (h₀ : -2 ^ (bits lflag - 1) ≤ v) (h : v < 2 ^ (bits lflag - 1)) :
    ∃ num, getint lflag (valueArgs lflag v) = some (num, []) ∧ num.toInt = v := by
  unfold valueArgs bits at *
  by_cases hl : lflag ≥ 2
  · rw [if_pos hl] at *
    refine ⟨BitVec.ofInt 64 v, ?_, ?_⟩
    · rw [getint, if_pos hl, words_append]
    · rw [BitVec.toInt_ofInt, Int.bmod_eq_of_le (by omega) (by omega)]
  · rw [if_neg hl] at *
    refine ⟨(BitVec.ofInt 32 v).signExtend 64, by rw [getint, if_neg hl], ?_⟩
    rw [BitVec.toInt_signExtend_of_le (by omega), BitVec.toInt_ofInt,
      Int.bmod_eq_of_le (by omega) (by omega)]

-- The value less its sign, as `vprintfmt` computes it.
theorem neg_toNat {num : BitVec 64} (h : num.toInt < 0) : (-num).toNat = num.toInt.natAbs := by
  have h₁ := BitVec.toInt_eq_toNat_cond num
  have h₂ := num.isLt
  rw [BitVec.toNat_neg]
  split at h₁
  · omega
  · rw [Nat.mod_eq_of_lt (by omega)]
    omega

theorem nonneg_toNat {num : BitVec 64} (h : ¬num.toInt < 0) : num.toNat = num.toInt.natAbs := by
  have h₁ := BitVec.toInt_eq_toNat_cond num
  have h₂ := num.isLt
  split at h₁ <;> omega

end Numbers

section Reswitch

theorem readPrecision_append {ds : List Char} {c : Char} {fmt : List Char} {a : Nat}
    (hd : ∀ c ∈ ds, '0' ≤ c ∧ c ≤ '9') (hc : ¬('0' ≤ c ∧ c ≤ '9')) :
    readPrecision a (ds ++ c :: fmt) = ((Nat.ofDigitChars 10 ds a : Int), c :: fmt) := by
  induction ds generalizing a
  case nil => rw [List.nil_append, readPrecision, if_neg hc, Nat.ofDigitChars_nil]
  case cons d ds ih =>
    have hd₀ := hd d List.mem_cons_self
    rw [List.cons_append, readPrecision, if_pos hd₀, Nat.ofDigitChars_cons,
      ← ih fun c hm => hd c (List.mem_cons_of_mem _ hm)]
    have hle : 48 ≤ d.toNat := hd₀.1
    congr 1
    simp only [Char.reduceToNat, Int.natCast_add, Int.natCast_mul, Int.natCast_sub hle]
    omega

-- The length modifiers
theorem reswitch_l {fmt : List Char} : reswitch start sp (List.replicate k 'l' ++ fmt) ap =
    reswitch start { sp with lflag := sp.lflag + k } fmt ap := by
  induction k generalizing sp
  case zero => rfl
  case succ k ih =>
    rw [List.replicate_succ, List.cons_append, reswitch.eq_def]
    simp [ih, Nat.add_assoc, Nat.add_comm 1 k]

theorem reswitch_flag {fmt : List Char} (hp : sp.padc = ' ') : reswitch start sp (flag.text ++ fmt) ap =
    reswitch start { sp with padc := flag.padc } fmt ap := by
  cases flag
  case none =>
    obtain ⟨_, _, _, _, _⟩ := sp
    cases hp
    rfl
  case zero =>
    rw [Flag.text, List.singleton_append, reswitch.eq_def]
    simp [Flag.padc]
  case dash =>
    rw [Flag.text, List.singleton_append, reswitch.eq_def]
    simp [Flag.padc]

-- The width that `vprintfmt` takes.
def Width.field : Width → Int
  | absent    => -1
  | digits ds => Nat.ofDigitChars 10 ds 0
  | star w    => w

theorem Width.field_sub (hn : 0 < n) : (width.field - n).toNat = width.val - n := by
  cases width
  all_goals
    simp only [field, val]
    omega

theorem reswitch_width {c : Char} {fmt : List Char} (hv : width.Valid) (hw : sp.width = -1)
    (hp : sp.precision = -1) (hc : ¬('0' ≤ c ∧ c ≤ '9')) :
    reswitch start sp (width.text ++ c :: fmt) (width.args ++ ap) =
      reswitch start { sp with width := width.field } (c :: fmt) ap := by
  obtain ⟨_, _, _, _, _⟩ := sp
  cases hw
  cases hp
  cases width
  case absent => rfl
  case digits ds =>
    obtain ⟨hne, hh, hd⟩ := hv
    obtain ⟨d, ds, rfl⟩ := List.exists_cons_of_ne_nil hne
    have hd₀ := hd d List.mem_cons_self
    have h₀ : d ≠ '0' := by simpa using hh
    have h₁ : d ≠ '-' := by
      rintro rfl
      exact absurd hd₀.1 (by decide)
    have hle : 48 ≤ d.toNat := hd₀.1
    have h₂ : '1' ≤ d := by
      have hn : d.toNat ≠ 48 := fun h => h₀ (Char.toNat_inj.mp h)
      exact (by omega : 49 ≤ d.toNat)
    have hr : readPrecision (d.toNat - '0'.toNat : Nat) (ds ++ c :: fmt) = _ :=
      readPrecision_append (fun c hm => hd c (List.mem_cons_of_mem _ hm)) hc
    have hcast : ((d.toNat - '0'.toNat : Nat) : Int) = (d.toNat : Int) - '0'.toNat := Int.natCast_sub hle
    rw [hcast] at hr
    show reswitch start _ (d :: (ds ++ c :: fmt)) ap = _
    rw [reswitch.eq_def]
    simp only [h₀, h₁, h₂, hd₀.2, and_self, if_true, if_false, hr]
    simp [Spec.processPrecision, Width.field, Nat.ofDigitChars_cons]
  case star w =>
    have hi : (BitVec.ofNat 32 w).toInt = w := by
      have hlt : w < 2 ^ 31 := hv
      have hw := BitVec.toInt_eq_toNat_cond (BitVec.ofNat 32 w)
      rw [BitVec.toNat_ofNat, Nat.mod_eq_of_lt (by omega)] at hw
      omega
    rw [Width.text, Width.args, List.singleton_append, List.singleton_append, reswitch.eq_def]
    simp [Spec.processPrecision, hi, Width.field]

variable (start sp) in
theorem reswitch_conv (hr : InRange conv sp.lflag v) :
    reswitch start sp [conv.char] (valueArgs sp.lflag v) = some (sign v ++
      (List.replicate (sp.width - (numeral conv v).length).toNat sp.padc ++ numeral conv v), [], []) := by
  unfold InRange at hr
  cases conv
  case d =>
    rw [if_pos rfl] at hr
    obtain ⟨num, hg, hn⟩ := getint_value hr.1 hr.2
    rw [Conv.char, reswitch.eq_def]
    subst hn
    by_cases hneg : num.toInt < 0
    · simp [hg, hneg, neg_toNat hneg, printnum_eq, sign, numeral, Conv.base, -BitVec.toNat_neg]
    · simp [hg, hneg, nonneg_toNat hneg, printnum_eq, sign, numeral, Conv.base]
  all_goals
    rw [if_neg (by decide)] at hr
    obtain ⟨num, hg, hn⟩ := getuint_value hr.1 hr.2
    have hs : sign v = [] := if_neg (by omega)
    rw [Conv.char, reswitch.eq_def]
    simp [hg, hn, printnum_eq, hs, numeral, Conv.base]

theorem vprintfmt_percent {fmt out : List Char} {ap' : Args}
    (h : reswitch fmt .init fmt ap = some (out, [], ap')) : vprintfmt ('%' :: fmt) ap = some out := by
  rw [vprintfmt, if_neg (by simp)]
  split
  case h_1 hn =>
    rw [h] at hn
    cases hn
  case h_2 hs =>
    rw [h] at hs
    cases hs
    simp [vprintfmt]

variable (flag) in
-- What a directive prints: the sign stands before the padding.
theorem vprintfmt_directive (hv : width.Valid) (hr : InRange conv lflag v) :
    vprintfmt (directive conv flag width lflag) (width.args ++ valueArgs lflag v) =
      some (sign v ++ (List.replicate (width.val - (numeral conv v).length) flag.padc ++
        numeral conv v)) := by
  have hc : ∃ c fmt, List.replicate lflag 'l' ++ [conv.char] = c :: fmt ∧ ¬('0' ≤ c ∧ c ≤ '9') := by
    cases lflag
    case zero => exact ⟨conv.char, [], rfl, by cases conv <;> decide⟩
    case succ k => exact ⟨'l', List.replicate k 'l' ++ [conv.char], rfl, by decide⟩
  obtain ⟨c, fmt, hc, hn⟩ := hc
  refine vprintfmt_percent (?_ : reswitch _ _ _ _ = some (_, [], []))
  rw [reswitch_flag rfl, hc, reswitch_width hv rfl rfl hn, ← hc, reswitch_l]
  have hconv := reswitch_conv (flag.text ++ (width.text ++ c :: fmt))
    { Spec.init with padc := flag.padc, width := width.field, lflag := lflag } hr
  have hlen : 0 < (numeral conv v).length := Nat.length_toDigits_pos
  rw [Width.field_sub hlen] at hconv
  rw [hc]
  simpa [Spec.init] using hconv

end Reswitch

section Strtol

theorem digitOf_digitChar (h : n < 16) : digitOf (Nat.digitChar n) = some n := by
  decide +revert

theorem mem_toDigits {c : Char} (hm : c ∈ Nat.toDigits base.val n) : ∃ i < base.val, c = Nat.digitChar i := by
  induction n using Nat.strongRecOn
  case ind n ih =>
    have hb := base.one_lt
    rw [Nat.toDigits_eq_if hb] at hm
    split at hm
    case isTrue h => exact ⟨n, h, List.mem_singleton.mp hm⟩
    case isFalse h =>
      rcases List.mem_append.mp hm with hm | hm
      · exact ih _ (Nat.div_lt_self (by omega) hb) hm
      · exact ⟨n % base.val, Nat.mod_lt n (by omega), List.mem_singleton.mp hm⟩

-- The digits of a number are read as the number.
theorem strtolDigits_toDigits : strtolDigits base.val 0#32 (Nat.toDigits base.val n ++ s) =
    strtolDigits base.val (BitVec.ofNat 32 n) s := by
  induction n using Nat.strongRecOn generalizing s
  case ind n ih =>
    have hb := base.one_lt
    have hle := base.le
    rw [Nat.toDigits_eq_if hb]
    by_cases hn : n < base.val
    · rw [if_pos hn, List.singleton_append, strtolDigits, digitOf_digitChar (Nat.lt_of_lt_of_le hn hle)]
      simp only [ge_iff_le, Nat.not_le.mpr hn, if_false]
      rw [BitVec.zero_mul, BitVec.zero_add]
    · have hmod := Nat.mod_lt n (Nat.lt_of_succ_lt hb)
      rw [if_neg hn, List.append_assoc, ih _ (Nat.div_lt_self (by omega) hb), List.singleton_append,
        strtolDigits, digitOf_digitChar (Nat.lt_of_lt_of_le hmod hle)]
      simp only [ge_iff_le, Nat.not_le.mpr hmod, if_false]
      rw [← BitVec.ofNat_mul, ← BitVec.ofNat_add, Nat.div_add_mod']

theorem strtolDigits_zeros :
    strtolDigits base.val 0#32 (List.replicate k '0' ++ s) = strtolDigits base.val 0#32 s := by
  induction k
  case zero => rfl
  case succ k ih =>
    have hb : ¬0 ≥ base.val := Nat.not_le.mpr (Nat.lt_of_succ_lt base.one_lt)
    have hd : digitOf '0' = some 0 := by decide
    rw [List.replicate_succ, List.cons_append, strtolDigits, hd]
    simp only [hb, if_false]
    simpa using ih

theorem digitChar_ne (h : n < 16) : Nat.digitChar n ≠ ' ' ∧ Nat.digitChar n ≠ '\t' ∧ Nat.digitChar n ≠ '+' ∧
    Nat.digitChar n ≠ '-' ∧ Nat.digitChar n ≠ 'x' := by
  decide +revert

-- Padding with zeros and a number are digits.
theorem digits_ne {c : Char} (hm : c ∈ List.replicate k '0' ++ Nat.toDigits base.val n) :
    c ≠ ' ' ∧ c ≠ '\t' ∧ c ≠ '+' ∧ c ≠ '-' ∧ c ≠ 'x' := by
  rcases List.mem_append.mp hm with hm | hm
  · rw [List.eq_of_mem_replicate hm]
    decide
  · obtain ⟨i, hi, rfl⟩ := mem_toDigits hm
    exact digitChar_ne (Nat.lt_of_lt_of_le hi base.le)

theorem strtol_number (j : Nat) : (strtol (List.replicate k ' ' ++ (sign v ++
    (List.replicate j '0' ++ Nat.toDigits base.val n))) base.val).1 =
      if v < 0 then -BitVec.ofNat 32 n else BitVec.ofNat 32 n := by
  generalize hds : List.replicate j '0' ++ Nat.toDigits base.val n = ds
  have hne (c : Char) (hm : c ∈ ds) := digits_ne (k := j) (hds ▸ hm)
  have hval : strtolDigits base.val 0#32 ds = (BitVec.ofNat 32 n, []) := by
    rw [← hds, strtolDigits_zeros, ← List.append_nil (Nat.toDigits base.val n), strtolDigits_toDigits]
    rfl
  have hdrop : (List.replicate k ' ' ++ (sign v ++ ds)).dropWhile (fun c => c = ' ' ∨ c = '\t') =
      sign v ++ ds := by
    rw [List.dropWhile_append_of_pos fun c hm => by simp [List.eq_of_mem_replicate hm], sign]
    split
    · rw [List.singleton_append, List.dropWhile_cons_of_neg (by decide)]
    · rw [List.nil_append]
      cases ds
      case nil => rfl
      case cons c ds =>
        have hc := hne c List.mem_cons_self
        rw [List.dropWhile_cons_of_neg (by simp [hc.1, hc.2.1])]
  have hx : ds[1]? ≠ some 'x' := fun h => (hne 'x' (List.mem_of_getElem? h)).2.2.2.2 rfl
  have hb : base.val ≠ 0 := by
    have := base.one_lt
    omega
  unfold strtol
  rw [hdrop]
  by_cases hv : v < 0
  · simp [sign, hv, hx, hb, hval]
  · have hp : ds.head? ≠ some '+' := fun h => (hne '+' (List.mem_of_head? h)).2.2.1 rfl
    have hm : ds.head? ≠ some '-' := fun h => (hne '-' (List.mem_of_head? h)).2.2.2.1 rfl
    simp [sign, hv, hx, hb, hval, hp, hm]

end Strtol

section Formats

theorem strtol_value {t : List Char} (j : Nat) (h₁ : -2 ^ 31 ≤ v) (h₂ : v < 2 ^ 31)
    (ht : t = List.replicate k ' ' ++ (sign v ++ (List.replicate j '0' ++ numeral conv v))) :
    (strtol t conv.base.val).1.toInt = v := by
  rw [ht, numeral, strtol_number]
  split
  case isTrue hv =>
    rw [← BitVec.ofInt_natCast, ← BitVec.ofInt_neg, BitVec.toInt_ofInt]
    rw [Int.bmod_eq_of_le (by omega) (by omega)]
    omega
  case isFalse hv =>
    rw [← BitVec.ofInt_natCast, BitVec.toInt_ofInt, Int.bmod_eq_of_le (by omega) (by omega)]
    omega

theorem dash_numeral : '-' ∉ numeral conv v := by
  intro hm
  obtain ⟨i, hi, he⟩ := mem_toDigits hm
  exact (digitChar_ne (Nat.lt_of_lt_of_le hi conv.base.le)).2.2.2.1 he.symm

theorem padded_length (w : Nat) : (padded conv flag w v).length = max w (unpadded conv v).length := by
  cases flag
  all_goals
    simp only [padded, unpadded, List.length_append, List.length_replicate]
    omega

-- What the conversion prints is padded as documented, and `strtol` can read it.
theorem conversion_padded {w : Nat} (hc : w ≤ (numeral conv v).length ∨ 0 ≤ v ∧ flag ≠ .dash) :
    ∃ k j, List.replicate k ' ' ++ (sign v ++ (List.replicate j '0' ++ numeral conv v)) =
      padded conv flag w v ∧
      sign v ++ (List.replicate (w - (numeral conv v).length) flag.padc ++ numeral conv v) =
        padded conv flag w v := by
  by_cases hw : w ≤ (numeral conv v).length
  case pos =>
    have h₁ : w - (numeral conv v).length = 0 := by omega
    have h₂ : w - ((sign v).length + (numeral conv v).length) = 0 := by omega
    refine ⟨0, 0, ?_, ?_⟩
    all_goals
      cases flag <;> simp [padded, h₁, h₂, unpadded]
  case neg =>
    obtain ⟨hv, hf⟩ := hc.resolve_left hw
    have hs : sign v = [] := if_neg (by omega)
    cases flag
    case none => exact ⟨w - (numeral conv v).length, 0, by simp [padded, unpadded, hs],
      by simp [padded, unpadded, hs, Flag.padc]⟩
    case zero => exact ⟨0, w - (numeral conv v).length, by simp [padded, unpadded, hs],
      by simp [padded, unpadded, hs, Flag.padc]⟩
    case dash => exact absurd rfl hf

end Formats

end Lib.Printfmt

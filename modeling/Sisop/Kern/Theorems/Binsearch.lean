import Sisop.Kern.Kdebug

-- What `stab_binsearch` returns.

namespace Kern.Kdebug

open Inc Library

variable {stabs : Int → Stab} {type l r t m i j L R : Int} {k n : Nat} {a : Word} {s : Search}

-- The number that the entries are ordered by.
def value (stabs : Int → Stab) (i : Int) : Nat := (stabs i).n_value.toNat

-- The entries that count in a search for `type` in `[L, R]`.
structure Counts (stabs : Int → Stab) (type L R i : Int) : Prop where
  lo : L ≤ i
  hi : i ≤ R
  is : isType stabs type i

def Increasing (stabs : Int → Stab) (type L R : Int) : Prop :=
  ∀ {i j}, Counts stabs type L R i → Counts stabs type L R j → i < j → value stabs i < value stabs j

section Scan

theorem scanBack_cases (stabs : Int → Stab) (type l : Int) (k : Nat) :
    ((scanBack stabs type l k).1 = l - 1 ∧ ∀ i, l ≤ i → i < l + k → ¬isType stabs type i) ∨
    (l ≤ (scanBack stabs type l k).1 ∧ (scanBack stabs type l k).1 < l + k ∧
      isType stabs type (scanBack stabs type l k).1 ∧
      ∀ i, (scanBack stabs type l k).1 < i → i < l + k → ¬isType stabs type i) := by
  induction k
  case zero => exact .inl ⟨rfl, fun i h₁ h₂ => by omega⟩
  case succ k hi =>
    by_cases ht : isType stabs type (l + k)
    case pos =>
      refine .inr ?_
      simp only [scanBack, if_pos ht]
      exact ⟨by omega, by omega, ht, fun i h₁ h₂ => by omega⟩
    case neg =>
      have last : ∀ i : Int, i < l + (k + 1 : Nat) → i < l + k ∨ i = l + k := fun i h => by omega
      simp only [scanBack, if_neg ht]
      refine hi.imp (fun ⟨hm, no⟩ => ⟨hm, fun i h₁ h₂ => ?_⟩)
        fun ⟨h₀, h₁, hm, no⟩ => ⟨h₀, by omega, hm, fun i h₂ h₃ => ?_⟩
      · obtain h₂ | rfl := last i h₂
        · exact no i h₁ h₂
        · exact ht
      · obtain h₃ | rfl := last i h₃
        · exact no i h₂ h₃
        · exact ht

theorem midpoint (h₀ : 0 ≤ l) (h₁ : l ≤ r) (h₂ : r < 1073741824) :
    (intAdd l r).tdiv 2 = (l + r) / 2 := by
  have hs : intAdd l r = l + r := Int.bmod_eq_of_le (by omega) (by omega)
  rw [hs, Int.tdiv_eq_ediv_of_nonneg (by omega)]

-- Everything that one turn can do: there is nothing of the type up to the middle `t`, or else its last
-- entry `m` there is before, after or at the address.
inductive Turn (stabs : Int → Stab) (type : Int) (s : Search) (t : Int) : Search → Prop
  | skip {reads} (none : ∀ i, s.l ≤ i → i ≤ t → ¬isType stabs type i) :
    Turn stabs type s t { s with l := t + 1, reads := reads }
  | below {m reads} (lo : s.l ≤ m) (hi : m ≤ t) (is : isType stabs type m)
    (last : ∀ i, m < i → i ≤ t → ¬isType stabs type i) (lt : value stabs m < s.addr.toNat) :
    Turn stabs type s t { s with any_matches := true, left := m, l := t + 1, reads := reads }
  | above {m reads} (lo : s.l ≤ m) (hi : m ≤ t) (is : isType stabs type m)
    (last : ∀ i, m < i → i ≤ t → ¬isType stabs type i) (gt : s.addr.toNat < value stabs m) :
    Turn stabs type s t { s with any_matches := true, right := m - 1, r := m - 1, reads := reads }
  | exact {m reads} (lo : s.l ≤ m) (hi : m ≤ t) (is : isType stabs type m)
    (last : ∀ i, m < i → i ≤ t → ¬isType stabs type i) (eq : value stabs m = s.addr.toNat) :
    Turn stabs type s t { s with any_matches := true, left := m, l := m, addr := s.addr + 1, reads := reads }

theorem searchStep_turn (h₀ : 0 ≤ s.l) (h₁ : s.l ≤ s.r) (h₂ : s.r < 1073741824) :
    Turn stabs type s ((s.l + s.r) / 2) (searchStep stabs type s) := by
  obtain ⟨t, ht⟩ : ∃ t, t = (s.l + s.r) / 2 := ⟨_, rfl⟩
  have hk : s.l + ((t + 1 - s.l).toNat : Int) = t + 1 := by omega
  have hc := scanBack_cases stabs type s.l (t + 1 - s.l).toNat
  simp only [hk, Int.lt_add_one_iff] at hc
  simp only [searchStep, midpoint h₀ h₁ h₂, ← ht]
  obtain ⟨hm, no⟩ | ⟨lo, hi, is, last⟩ := hc
  case inl =>
    rw [if_pos (by omega)]
    exact .skip no
  case inr =>
    rw [if_neg (by omega)]
    split
    case isTrue hlt => exact .below lo hi is last hlt
    case isFalse hlt =>
      split
      case isTrue hgt => exact .above lo hi is last hgt
      case isFalse hgt =>
        refine .exact lo hi is last ?_
        have h₁ : ¬value stabs _ < s.addr.toNat := hlt
        have h₂ : ¬s.addr.toNat < value stabs _ := hgt
        omega

end Scan

-- A turn shortens the interval, or moves the address past the entry at its left end.
def turnsLeft (stabs : Int → Stab) (s : Search) : Nat :=
  2 * (s.r + 1 - s.l).toNat + if value stabs s.l = s.addr.toNat then 1 else 0

theorem Turn.turnsLeft_lt {s' : Search} (h : Turn stabs type s t s') (h₁ : s.l ≤ t) (h₂ : t ≤ s.r) :
    turnsLeft stabs s' < turnsLeft stabs s := by
  have hone : ∀ (p : Prop) [Decidable p], (if p then 1 else 0) ≤ 1 := fun p _ => by split <;> omega
  cases h
  case skip =>
    have := hone (value stabs (t + 1) = s.addr.toNat)
    simp only [turnsLeft]
    omega
  case below =>
    have := hone (value stabs (t + 1) = s.addr.toNat)
    simp only [turnsLeft]
    omega
  case above =>
    simp only [turnsLeft]
    omega
  case exact m _ lo hi is last eq =>
    have := hone (value stabs m = (s.addr + 1).toNat)
    simp only [turnsLeft]
    by_cases hm : m = s.l
    case neg => omega
    case pos =>
      have hne : value stabs s.l ≠ (s.addr + 1).toNat := by
        rw [← hm, eq, BitVec.toNat_add]
        have := s.addr.isLt
        have h1 : (1 : Word).toNat = 1 := rfl
        omega
      rw [hm, if_neg hne, if_pos (hm ▸ eq)]
      omega

section Answer

variable (stabs : Int → Stab) (type L R : Int) (a : Word) (left right : Int)

-- The last entry at or before the address.
structure Holds : Prop where
  counts : Counts stabs type L R left
  le     : value stabs left ≤ a.toNat
  last   : ∀ {j}, Counts stabs type L R j → value stabs j ≤ a.toNat → j ≤ left

-- Where the next entry after `left` begins, or else where the range ends.
def Ends : Prop :=
  (right = R ∧ ∀ {j}, Counts stabs type L R j → j ≤ left) ∨
  (Counts stabs type L R (right + 1) ∧ left < right + 1 ∧
    ∀ {j}, Counts stabs type L R j → left < j → right + 1 ≤ j)

-- What the comment on `stab_binsearch` says of the range that it leaves.
structure Brackets : Prop where
  found : ∀ {i}, Counts stabs type L R i → value stabs i ≤ a.toNat →
    Holds stabs type L R a left ∧ Ends stabs type L R left right
  none  : (∀ {i}, Counts stabs type L R i → a.toNat < value stabs i) → right < left

-- There are entries, but all of them are after the address.
def StartsLate : Prop :=
  (∃ i, Counts stabs type L R i) ∧ ∀ {i}, Counts stabs type L R i → a.toNat < value stabs i

-- Halving `[l, r]` comes between the entries `i₀` and `i₁` before it comes to `i₁`.
inductive Splits (i₀ i₁ : Int) : Int → Int → Prop
  | here {l r : Int} (h₀ : i₀ ≤ (l + r) / 2) (h₁ : (l + r) / 2 < i₁) : Splits i₀ i₁ l r
  | upper {l r : Int} (h : (l + r) / 2 < i₀) (next : Splits i₀ i₁ ((l + r) / 2 + 1) r) : Splits i₀ i₁ l r
  | lower {l r m : Int} (is : isType stabs type m) (hi : m ≤ (l + r) / 2)
    (last : ∀ i, m < i → i ≤ (l + r) / 2 → ¬isType stabs type i) (h : i₁ < m)
    (next : Splits i₀ i₁ l (m - 1)) : Splits i₀ i₁ l r

-- An entry at the address itself with the next one just after it.
structure Adjacent (i₀ i₁ : Int) : Prop where
  fst    : Counts stabs type L R i₀
  snd    : Counts stabs type L R i₁
  fst_eq : value stabs i₀ = a.toNat
  snd_eq : value stabs i₁ = a.toNat + 1

-- The search sees the first of two such entries before it sees the second, and not at the very end of
-- the address space, where the address that it looks for becomes 0.
def Overruns : Prop :=
  ∃ i₀ i₁, Adjacent stabs type L R a i₀ i₁ ∧ Splits stabs type i₀ i₁ L R ∧
    ¬(a.toNat + 1 = 4294967295 ∧ i₁ = i₀ + 1)

end Answer

section Order

variable {i₀ i₁ : Int}

theorem Increasing.lt (hs : Increasing stabs type L R) (hi : Counts stabs type L R i)
    (hj : Counts stabs type L R j) (h : value stabs i < value stabs j) : i < j := by
  by_contra hn
  obtain rfl | hlt := Int.le_iff_eq_or_lt.mp (Int.not_lt.mp hn)
  · omega
  · have := hs hj hi hlt
    omega

theorem Increasing.eq (hs : Increasing stabs type L R) (hi : Counts stabs type L R i)
    (hj : Counts stabs type L R j) (h : value stabs i = value stabs j) : i = j := by
  obtain hlt | rfl | hlt := Int.lt_trichotomy i j
  · have := hs hi hj hlt
    omega
  · rfl
  · have := hs hj hi hlt
    omega

theorem Adjacent.lt (hs : Increasing stabs type L R) (h : Adjacent stabs type L R a i₀ i₁) : i₀ < i₁ :=
  hs.lt h.fst h.snd (by rw [h.fst_eq, h.snd_eq]; omega)

end Order

section Finish

theorem searchFinish_none (h : s.any_matches = false) :
    (searchFinish stabs type s).1 = (s.left, s.left - 1) := by
  simp [searchFinish, h]

theorem searchFinish_over (h : s.any_matches = true) (hr : s.right ≤ s.left) :
    (searchFinish stabs type s).1 = (s.right, s.right) := by
  have hn : ¬s.left < s.right := by omega
  simp [searchFinish, h, hn]

theorem searchFinish_left (h : s.any_matches = true) (hr : s.left ≤ s.right)
    (no : ∀ i, s.left < i → i ≤ s.right → ¬isType stabs type i) :
    (searchFinish stabs type s).1 = (s.left, s.right) := by
  obtain hr | hr := Int.le_iff_eq_or_lt.mp hr
  · rw [searchFinish_over h (by omega), hr]
  · have hc := scanBack_cases stabs type (s.left + 1) (s.right - s.left).toNat
    simp only [searchFinish, h, Bool.not_true, Bool.false_eq_true, if_false, if_pos hr]
    obtain ⟨hm, _⟩ | ⟨lo, hi, is, _⟩ := hc
    · rw [hm]
      simp
    · exact absurd is (no _ (by omega) (by omega))

theorem searchFinish_le (h : s.any_matches = true) :
    (searchFinish stabs type s).1.1 ≤ (searchFinish stabs type s).1.2 := by
  by_cases hr : s.left < s.right
  · have hc := scanBack_cases stabs type (s.left + 1) (s.right - s.left).toNat
    simp only [searchFinish, h, Bool.not_true, Bool.false_eq_true, if_false, if_pos hr]
    obtain ⟨hm, _⟩ | ⟨_, hi, _⟩ := hc <;> omega
  · rw [searchFinish_over h (by omega)]

end Finish

section Phases

variable (stabs : Int → Stab) (type L R : Int) (a : Word) (s : Search)

-- As long as no entry at the address itself has been seen: the entries before the interval are before
-- the address, those after it are after the address.
structure Seeking : Prop where
  addr  : s.addr = a
  lo    : L ≤ s.l
  hi    : s.r ≤ R
  len   : L ≤ R → s.l ≤ s.r + 1
  right : s.right = s.r
  below : ∀ {i}, Counts stabs type L R i → i < s.l → value stabs i < a.toNat
  above : ∀ {i}, Counts stabs type L R i → s.r < i → a.toNat < value stabs i
  next  : s.r = R ∨ Counts stabs type L R (s.r + 1)
  left  : (s.left = L ∧ ∀ {i}, Counts stabs type L R i → ¬i < s.l) ∨
    (Counts stabs type L R s.left ∧ s.left < s.l ∧
      ∀ {i}, Counts stabs type L R i → i < s.l → i ≤ s.left)
  any   : s.any_matches = true ↔ ∃ i, Counts stabs type L R i ∧ (i < s.l ∨ s.r < i)

-- The entry `i₀` at the address has been seen, and no later one can be mistaken for it.
structure Settled (i₀ : Int) : Prop where
  any    : s.any_matches = true
  addr   : s.addr.toNat = a.toNat + 1
  counts : Counts stabs type L R i₀
  eq     : value stabs i₀ = a.toNat
  left   : s.left = i₀
  right  : s.right = s.r
  lo     : i₀ ≤ s.l
  le     : i₀ ≤ s.r
  hi     : s.r ≤ R
  len    : s.l ≤ s.r + 1
  none   : ∀ {i}, Counts stabs type L R i → i₀ < i → ¬i < s.l
  rest   : ∀ {i}, Counts stabs type L R i → i₀ < i → i ≤ s.r → a.toNat + 1 < value stabs i
  next   : s.r = R ∨ Counts stabs type L R (s.r + 1)

-- The entry at the address has been seen, and the one just after it, `i₁`, is still in the interval.
structure Passing (i₁ : Int) : Prop where
  any   : s.any_matches = true
  addr  : a.toNat + 1 ≤ s.addr.toNat
  first : s.addr.toNat = a.toNat + 1 → s.l ≤ i₁
  lo    : L ≤ s.l
  hi    : s.r ≤ R
  len   : s.l ≤ s.r + 1
  mem   : i₁ ≤ s.r
  right : s.right = s.r
  left  : Counts stabs type L R s.left
  lt    : value stabs s.left < s.addr.toNat
  le    : s.left ≤ s.r
  last  : ∀ {i}, Counts stabs type L R i → i < s.l → i ≤ s.left

-- The address has become 0 at the entry `m`.
structure Wrapped (i₁ m : Int) : Prop where
  any    : s.any_matches = true
  counts : Counts stabs type L R m
  top    : value stabs m = 4294967295
  le     : i₁ ≤ m
  l      : s.l = m
  left   : s.left = m
  right  : s.right = s.r
  hi     : s.r ≤ R
  addr   : s.addr = 0#32
  r      : m ≤ s.r ∨ s.r = m - 1

end Phases

section Seek

variable {s' : Search}

theorem searchStart_seeking : Seeking stabs type L R a (searchStart L R a) where
  addr  := rfl
  lo    := Int.le_refl _
  hi    := Int.le_refl _
  len   := fun h => by simp only [searchStart]; omega
  right := rfl
  below := fun hi h => absurd hi.lo (Int.not_le.mpr h)
  above := fun hi h => absurd hi.hi (Int.not_le.mpr h)
  next  := .inl rfl
  left  := .inl ⟨rfl, fun hi h => absurd hi.lo (Int.not_le.mpr h)⟩
  any   := by
    refine ⟨fun h => absurd h Bool.false_ne_true, fun ⟨i, hi, h⟩ => ?_⟩
    have h₁ := hi.lo
    have h₂ := hi.hi
    simp only [searchStart] at h
    omega

theorem Seeking.skip {reads} (h : Seeking stabs type L R a s) (h₁ : s.l ≤ t) (h₂ : t ≤ s.r)
    (none : ∀ i, s.l ≤ i → i ≤ t → ¬isType stabs type i) :
    Seeking stabs type L R a { s with l := t + 1, reads := reads } := by
  have before : ∀ {i}, Counts stabs type L R i → i < t + 1 → i < s.l := fun {i} hc hi => by
    by_contra hn
    exact none i (by omega) (by omega) hc.is
  refine ⟨h.addr, ?_, h.hi, fun _ => ?_, h.right, fun hc hi => h.below hc (before hc hi), h.above,
    h.next, ?_, h.any.trans ?_⟩
  · have := h.lo
    show L ≤ t + 1
    omega
  · show t + 1 ≤ s.r + 1
    omega
  · obtain ⟨hl, no⟩ | ⟨hc, hl, no⟩ := h.left
    · exact .inl ⟨hl, fun hc hi => no hc (before hc hi)⟩
    · exact .inr ⟨hc, by show s.left < t + 1; omega, fun hc hi => no hc (before hc hi)⟩
  · refine exists_congr fun i => and_congr_right fun hc => or_congr_left ?_
    exact ⟨fun hi => show i < t + 1 by omega, before hc⟩

theorem Seeking.lower {reads} (h : Seeking stabs type L R a s) (hs : Increasing stabs type L R)
    (h₁ : s.l ≤ m) (h₂ : m ≤ t) (h₃ : t ≤ s.r) (is : isType stabs type m)
    (last : ∀ i, m < i → i ≤ t → ¬isType stabs type i) (lt : value stabs m < s.addr.toNat) :
    Seeking stabs type L R a
      { s with any_matches := true, left := m, l := t + 1, reads := reads } := by
  have hlo := h.lo
  have hhi := h.hi
  have hm : Counts stabs type L R m := ⟨by omega, by omega, is⟩
  have before : ∀ {i}, Counts stabs type L R i → i < t + 1 → i ≤ m := fun {i} hc hi => by
    by_contra hn
    exact last i (by omega) (by omega) hc.is
  rw [h.addr] at lt
  refine ⟨h.addr, by show L ≤ t + 1; omega, hhi, fun _ => by show t + 1 ≤ s.r + 1; omega, h.right,
    fun {i} hc hi => ?_, h.above, h.next, .inr ⟨hm, by show m < t + 1; omega, before⟩, ?_⟩
  · obtain rfl | hlt := Int.le_iff_eq_or_lt.mp (before hc hi)
    · exact lt
    · exact Nat.lt_trans (hs hc hm hlt) lt
  · exact iff_of_true rfl ⟨m, hm, .inl (by show m < t + 1; omega)⟩

theorem Seeking.higher {reads} (h : Seeking stabs type L R a s) (hs : Increasing stabs type L R)
    (h₁ : s.l ≤ m) (h₂ : m ≤ s.r) (is : isType stabs type m) (gt : s.addr.toNat < value stabs m) :
    Seeking stabs type L R a
      { s with any_matches := true, right := m - 1, r := m - 1, reads := reads } := by
  have hlo := h.lo
  have hhi := h.hi
  have hm : Counts stabs type L R m := ⟨by omega, by omega, is⟩
  rw [h.addr] at gt
  refine ⟨h.addr, hlo, by show m - 1 ≤ R; omega, fun _ => by show s.l ≤ m - 1 + 1; omega, rfl, h.below,
    fun {i} hc hi => ?_, .inr ?_, h.left, ?_⟩
  · have hle : m ≤ i := by
      have : m - 1 < i := hi
      omega
    obtain rfl | hlt := Int.le_iff_eq_or_lt.mp hle
    · exact gt
    · exact Nat.lt_trans gt (hs hm hc hlt)
  · show Counts stabs type L R (m - 1 + 1)
    rwa [Int.sub_add_cancel]
  · exact iff_of_true rfl ⟨m, hm, .inr (by show m - 1 < m; omega)⟩

end Seek

section Settle

variable {s' : Search} {i₀ i₁ : Int}

-- The turn that sees the entry at the address, when the one just after it is no longer in the interval.
theorem Seeking.settle {reads} (h : Seeking stabs type L R a s) (hs : Increasing stabs type L R)
    (ha : a.toNat < 4294967295) (h₁ : s.l ≤ m) (h₂ : m ≤ t) (h₃ : t ≤ s.r) (is : isType stabs type m)
    (last : ∀ i, m < i → i ≤ t → ¬isType stabs type i) (eq : value stabs m = s.addr.toNat)
    (no : ∀ {i₁}, Adjacent stabs type L R a m i₁ → i₁ ≤ s.r → i₁ ≤ t) :
    Settled stabs type L R a
      { s with any_matches := true, left := m, l := m, addr := s.addr + 1, reads := reads } m := by
  have hlo := h.lo
  have hhi := h.hi
  have hlen := h.len (by omega)
  have hm : Counts stabs type L R m := ⟨by omega, by omega, is⟩
  rw [h.addr] at eq
  refine ⟨rfl, ?_, hm, eq, rfl, h.right, Int.le_refl _, by show m ≤ s.r; omega, hhi,
    by show m ≤ s.r + 1; omega, fun {i} _ hi => Int.not_lt.mpr (Int.le_of_lt hi), fun {i} hc hi hr => ?_,
    h.next⟩
  · show (s.addr + 1).toNat = a.toNat + 1
    rw [h.addr, BitVec.toNat_add]
    have h1 : (1 : Word).toNat = 1 := rfl
    omega
  · have hlt := hs hm hc hi
    rw [eq] at hlt
    obtain he | hlt := Nat.eq_or_lt_of_le (Nat.succ_le_of_lt hlt)
    · exact absurd hc.is (last i hi (no ⟨hm, hc, eq, he.symm⟩ hr))
    · exact hlt

theorem Settled.step (h : Settled stabs type L R a s i₀) (hs : Increasing stabs type L R)
    (h₁ : s.l ≤ t) (h₂ : t ≤ s.r) (ht : Turn stabs type s t s') :
    Settled stabs type L R a s' i₀ := by
  have hlo := h.lo
  have hhi := h.hi
  have counts : ∀ {m}, s.l ≤ m → m ≤ t → isType stabs type m → Counts stabs type L R m :=
    fun hl hr is => ⟨by have := h.counts.lo; omega, by omega, is⟩
  cases ht
  case skip reads none =>
    refine ⟨h.any, h.addr, h.counts, h.eq, h.left, h.right, by show i₀ ≤ t + 1; omega, h.le, hhi,
      by show t + 1 ≤ s.r + 1; omega, fun {i} hc h₀ hi => ?_, h.rest, h.next⟩
    have := h.none hc h₀
    have : i < t + 1 := hi
    exact none i (by omega) (by omega) hc.is
  case below m reads lo hi is last lt =>
    have hm : m = i₀ := by
      by_contra hne
      have := h.rest (counts lo hi is) (by omega) (by omega)
      have := h.addr
      omega
    subst hm
    refine ⟨rfl, h.addr, h.counts, h.eq, rfl, h.right, by show m ≤ t + 1; omega, h.le, hhi,
      by show t + 1 ≤ s.r + 1; omega, fun {i} hc h₀ hi => ?_, h.rest, h.next⟩
    have : i < t + 1 := hi
    exact last i h₀ (by omega) hc.is
  case above m reads lo hi is last gt =>
    have hm : i₀ < m := hs.lt h.counts (counts lo hi is) (by rw [h.eq]; have := h.addr; omega)
    refine ⟨rfl, h.addr, h.counts, h.eq, h.left, rfl, hlo, by show i₀ ≤ m - 1; omega,
      by show m - 1 ≤ R; omega, by show s.l ≤ m - 1 + 1; omega, h.none,
      fun {i} hc h₀ hi => h.rest hc h₀ (by have : i ≤ m - 1 := hi; omega), .inr ?_⟩
    show Counts stabs type L R (m - 1 + 1)
    rw [Int.sub_add_cancel]
    exact counts lo hi is
  case exact m reads lo hi is last eq =>
    have ha := h.addr
    have hm : i₀ < m := hs.lt h.counts (counts lo hi is) (by rw [h.eq, eq]; omega)
    have := h.rest (counts lo hi is) hm (by omega)
    omega

end Settle

section Pass

variable {s' : Search} {i₀ i₁ : Int}

-- The turn that sees the entry at the address, when the one just after it is still in the interval.
theorem Seeking.pass {reads} (h : Seeking stabs type L R a s) (hs : Increasing stabs type L R)
    (ha : a.toNat < 4294967295) (hp : Adjacent stabs type L R a i₀ i₁) (hr : i₁ ≤ s.r) (h₁ : s.l ≤ i₀)
    (eq : value stabs i₀ = s.addr.toNat) :
    Passing stabs type L R a
      { s with any_matches := true, left := i₀, l := i₀, addr := s.addr + 1, reads := reads } i₁ := by
  have hlo := h.lo
  have hhi := h.hi
  have hlt := hp.lt hs
  have h1 : (1 : Word).toNat = 1 := rfl
  have hadd : (s.addr + 1).toNat = a.toNat + 1 := by
    rw [h.addr, BitVec.toNat_add]
    omega
  rw [h.addr] at eq
  exact ⟨rfl, Nat.le_of_eq hadd.symm, fun _ => by show i₀ ≤ i₁; omega, by show L ≤ i₀; omega, hhi,
    by show i₀ ≤ s.r + 1; omega, hr, h.right, hp.fst,
    by show value stabs i₀ < (s.addr + 1).toNat; omega, by show i₀ ≤ s.r; omega,
    fun _ hi => Int.le_of_lt hi⟩

theorem Passing.step (h : Passing stabs type L R a s i₁) (hs : Increasing stabs type L R)
    (h₀ : Counts stabs type L R i₁) (he : value stabs i₁ = a.toNat + 1)
    (h₁ : s.l ≤ t) (h₂ : t ≤ s.r) (ht : Turn stabs type s t s') :
    Passing stabs type L R a s' i₁ ∨ ∃ m, Wrapped stabs type L R s' i₁ m := by
  have hlo := h.lo
  have hhi := h.hi
  have haddr := h.addr
  have counts : ∀ {m}, s.l ≤ m → m ≤ t → isType stabs type m → Counts stabs type L R m :=
    fun hl hr is => ⟨by omega, by omega, is⟩
  cases ht
  case skip reads none =>
    refine .inl ⟨h.any, haddr, fun ha => ?_, by show L ≤ t + 1; omega, hhi,
      by show t + 1 ≤ s.r + 1; omega, h.mem, h.right, h.left, h.lt, h.le, fun {i} hc hi => ?_⟩
    · have := h.first ha
      by_contra hn
      exact none i₁ this (by have : ¬t + 1 ≤ i₁ := hn; omega) h₀.is
    · refine h.last hc ?_
      by_contra hn
      exact none i (by omega) (by have : i < t + 1 := hi; omega) hc.is
  case below m reads lo hi is last lt =>
    refine .inl ⟨rfl, haddr, fun ha => ?_, by show L ≤ t + 1; omega, hhi,
      by show t + 1 ≤ s.r + 1; omega, h.mem, h.right, counts lo hi is, lt, by show m ≤ s.r; omega,
      fun {i} hc hi => ?_⟩
    · have ha : s.addr.toNat = a.toNat + 1 := ha
      have hm : m < i₁ := hs.lt (counts lo hi is) h₀ (by omega)
      by_contra hn
      exact last i₁ hm (by have : ¬t + 1 ≤ i₁ := hn; omega) h₀.is
    · by_contra hn
      exact last i (by have : ¬i ≤ m := hn; omega) (by have : i < t + 1 := hi; omega) hc.is
  case above m reads lo hi is last gt =>
    have hm : i₁ < m := hs.lt h₀ (counts lo hi is) (by omega)
    have hl : s.left < m := hs.lt h.left (counts lo hi is) (Nat.lt_trans h.lt gt)
    exact .inl ⟨rfl, haddr, h.first, hlo, by show m - 1 ≤ R; omega, by show s.l ≤ m - 1 + 1; omega,
      by show i₁ ≤ m - 1; omega, rfl, h.left, h.lt, by show s.left ≤ m - 1; omega, h.last⟩
  case exact m reads lo hi is last eq =>
    have h1 : (1 : Word).toNat = 1 := rfl
    have hm := counts lo hi is
    by_cases htop : s.addr.toNat = 4294967295
    case pos =>
      have hz : s.addr + 1 = 0#32 := BitVec.eq_of_toNat_eq (by rw [BitVec.toNat_add]; simp; omega)
      have hle : i₁ ≤ m := by
        by_contra hn
        have := hs hm h₀ (by omega)
        have := s.addr.isLt
        omega
      exact .inr ⟨m, rfl, hm, by omega, hle, rfl, rfl, h.right, hhi, hz, .inl (by show m ≤ s.r; omega)⟩
    case neg =>
      have hadd : (s.addr + 1).toNat = s.addr.toNat + 1 := by
        rw [BitVec.toNat_add]
        have := s.addr.isLt
        omega
      refine .inl ⟨rfl, by show a.toNat + 1 ≤ (s.addr + 1).toNat; omega, fun ha => ?_,
        by show L ≤ m; omega, hhi, by show m ≤ s.r + 1; omega, h.mem, h.right, hm,
        by show value stabs m < (s.addr + 1).toNat; omega, by show m ≤ s.r; omega,
        fun _ hi => Int.le_of_lt hi⟩
      have ha : (s.addr + 1).toNat = a.toNat + 1 := ha
      omega

theorem Wrapped.step (h : Wrapped stabs type L R s i₁ m) (hs : Increasing stabs type L R)
    (h₁ : s.l ≤ t) (h₂ : t ≤ s.r) (ht : Turn stabs type s t s') : Wrapped stabs type L R s' i₁ m := by
  have hl := h.l
  have hhi := h.hi
  have hz : s.addr.toNat = 0 := by rw [h.addr]; rfl
  have top : ∀ {i}, s.l ≤ i → i ≤ t → isType stabs type i → i = m := fun {i} lo hi is => by
    have hc : Counts stabs type L R i := ⟨by have := h.counts.lo; omega, by omega, is⟩
    by_contra hn
    have := hs h.counts hc (by omega)
    have : value stabs i < 4294967296 := (stabs i).n_value.isLt
    have := h.top
    omega
  cases ht
  case skip reads none => exact absurd h.counts.is (none m (by omega) (by omega))
  case below m' reads lo hi is last lt => omega
  case above m' reads lo hi is last gt =>
    obtain rfl := top lo hi is
    exact ⟨rfl, h.counts, h.top, h.le, hl, h.left, rfl, by show m' - 1 ≤ R; omega, h.addr, .inr rfl⟩
  case exact m' reads lo hi is last eq =>
    obtain rfl := top lo hi is
    have := h.top
    omega

end Pass

section Exit

variable {i₀ i₁ : Int}

-- The next entry after `left` begins behind the interval, or there is none.
theorem Ends.of_gap {left right : Int} (hn : right = R ∨ Counts stabs type L R (right + 1))
    (hle : left ≤ right) (no : ∀ i, left < i → i ≤ right → ¬isType stabs type i) :
    Ends stabs type L R left right := by
  have beyond : ∀ {j}, Counts stabs type L R j → left < j → right + 1 ≤ j := fun hc hj => by
    by_contra hn
    exact no _ hj (by omega) hc.is
  obtain hR | hnext := hn
  · refine .inl ⟨hR, fun hc => ?_⟩
    by_contra hn
    have := beyond hc (Int.not_le.mp hn)
    have := hc.hi
    omega
  · exact .inr ⟨hnext, by omega, beyond⟩

theorem Seeking.exit (h : Seeking stabs type L R a s) (he : ¬s.l ≤ s.r) :
    Brackets stabs type L R a (searchFinish stabs type s).1.1 (searchFinish stabs type s).1.2 ↔
    ¬StartsLate stabs type L R a := by
  have side : ∀ {i}, Counts stabs type L R i → i < s.l ∨ s.r < i := fun {i} _ => by omega
  by_cases hany : s.any_matches = true
  case neg =>
    have none : ∀ {i}, ¬Counts stabs type L R i := fun hc => hany (h.any.mpr ⟨_, hc, side hc⟩)
    rw [searchFinish_none (Bool.not_eq_true _ ▸ hany)]
    refine iff_of_true ⟨fun hc => absurd hc none, fun _ => ?_⟩ fun ⟨⟨_, hc⟩, _⟩ => none hc
    show s.left - 1 < s.left
    omega
  case pos =>
    obtain ⟨i, hc, _⟩ := h.any.mp hany
    have hlen := h.len (Int.le_trans hc.lo hc.hi)
    obtain ⟨_, no⟩ | ⟨hleft, hlt, last⟩ := h.left
    case inl =>
      have after : ∀ {i}, Counts stabs type L R i → a.toNat < value stabs i := fun hc =>
        h.above hc ((side hc).resolve_left (no hc))
      refine iff_of_false (fun hb => ?_) (not_not_intro ⟨⟨i, hc⟩, after⟩)
      exact Int.not_lt.mpr (searchFinish_le hany) (hb.none after)
    case inr =>
      have hle := h.below hleft hlt
      have hr := h.right
      have no : ∀ i, s.left < i → i ≤ s.right → ¬isType stabs type i := fun i h₁ h₂ is => by
        have := hleft.lo
        have := h.hi
        have := last ⟨by omega, by omega, is⟩ (by omega)
        omega
      rw [searchFinish_left hany (by omega) no]
      refine iff_of_true ⟨fun _ _ => ⟨⟨hleft, Nat.le_of_lt hle, fun hc hv => ?_⟩, ?_⟩, fun hn => ?_⟩
        fun ⟨_, hn⟩ => Nat.lt_asymm hle (hn hleft)
      · obtain hi | hi := side hc
        · exact last hc hi
        · exact absurd (h.above hc hi) (Nat.not_lt.mpr hv)
      · exact .of_gap (by rw [hr]; exact h.next) (by omega) no
      · exact absurd (hn hleft) (Nat.lt_asymm hle)

theorem Settled.exit (h : Settled stabs type L R a s i₀) (hs : Increasing stabs type L R)
    (he : ¬s.l ≤ s.r) :
    Brackets stabs type L R a (searchFinish stabs type s).1.1 (searchFinish stabs type s).1.2 ↔
    ¬StartsLate stabs type L R a := by
  have hleft := h.left
  have hle := h.le
  have hhi := h.hi
  have hr := h.right
  have no : ∀ i, s.left < i → i ≤ s.right → ¬isType stabs type i := fun i h₁ h₂ is =>
    h.none ⟨by have := h.counts.lo; omega, by omega, is⟩ (by omega) (by omega)
  rw [searchFinish_left h.any (by omega) no, hleft]
  refine iff_of_true ⟨fun _ _ => ⟨⟨h.counts, Nat.le_of_eq h.eq, fun hc hv => ?_⟩, ?_⟩, fun hn => ?_⟩
    fun ⟨_, hn⟩ => Nat.ne_of_gt (hn h.counts) h.eq
  · by_contra hn
    have := hs h.counts hc (Int.not_le.mp hn)
    have := h.eq
    omega
  · exact .of_gap (by rw [hr]; exact h.next) (by omega) (hleft ▸ no)
  · exact absurd (hn h.counts) (Nat.not_lt.mpr (Nat.le_of_eq h.eq))

-- What `Brackets` says of the index is that it is `i₀`.
theorem Brackets.left_eq {left right : Int} (hs : Increasing stabs type L R)
    (hb : Brackets stabs type L R a left right) (hp : Adjacent stabs type L R a i₀ i₁) : left = i₀ := by
  obtain ⟨h, _⟩ := hb.found hp.fst (Nat.le_of_eq hp.fst_eq)
  have h₁ := h.last hp.fst (Nat.le_of_eq hp.fst_eq)
  by_contra hne
  have := hs hp.fst h.counts (by omega)
  have := h.le
  have := hp.fst_eq
  omega

theorem Passing.exit (h : Passing stabs type L R a s i₁) (hs : Increasing stabs type L R)
    (hp : Adjacent stabs type L R a i₀ i₁) (he : ¬s.l ≤ s.r) :
    Brackets stabs type L R a (searchFinish stabs type s).1.1 (searchFinish stabs type s).1.2 ↔
    (a.toNat + 1 = 4294967295 ∧ i₁ = i₀ + 1) := by
  have hlt := hp.lt hs
  have hlen := h.len
  have hmem := h.mem
  have hr := h.right
  have hhi := h.hi
  have hle := h.le
  have hlast := h.last hp.snd (by omega)
  have haddr := h.addr
  have hwide := s.addr.isLt
  have hfirst := h.first
  have no : ∀ i, s.left < i → i ≤ s.right → ¬isType stabs type i := fun i h₁ h₂ is => by
    have := h.last (i := i) ⟨by have := h.left.lo; omega, by omega, is⟩ (by omega)
    omega
  rw [searchFinish_left h.any (by omega) no]
  refine iff_of_false (fun hb => ?_) fun ⟨ha, _⟩ => ?_
  · have : s.left = i₀ := hb.left_eq hs hp
    omega
  · have := hfirst (by omega)
    omega

theorem Wrapped.exit (h : Wrapped stabs type L R s i₁ m) (hs : Increasing stabs type L R)
    (hp : Adjacent stabs type L R a i₀ i₁) (he : ¬s.l ≤ s.r) :
    Brackets stabs type L R a (searchFinish stabs type s).1.1 (searchFinish stabs type s).1.2 ↔
    (a.toNat + 1 = 4294967295 ∧ i₁ = i₀ + 1) := by
  have hlt := hp.lt hs
  have hl := h.l
  have hleft := h.left
  have hright := h.right
  have hm : s.r = m - 1 := h.r.resolve_left (by omega)
  have hle := h.le
  have hsnd := hp.snd_eq
  have htop := h.top
  rw [searchFinish_over h.any (by omega), hright, hm]
  constructor
  case mp =>
    intro hb
    have hb : m - 1 = i₀ := hb.left_eq hs hp
    have : m = i₁ := by omega
    subst this
    exact ⟨by omega, by omega⟩
  case mpr =>
    rintro ⟨ha, hi⟩
    have hm : m = i₁ := hs.eq h.counts hp.snd (by omega)
    have hm : m - 1 = i₀ := by omega
    have hfst := hp.fst_eq
    rw [hm]
    refine ⟨fun _ _ => ⟨⟨hp.fst, Nat.le_of_eq hfst, fun hc hv => ?_⟩, .inr ⟨hi ▸ hp.snd, by omega, ?_⟩⟩,
      fun hn => ?_⟩
    · by_contra hn
      have := hs hp.fst hc (Int.not_le.mp hn)
      omega
    · exact fun _ hj => hj
    · exact absurd (hn hp.fst) (by omega)

end Exit

section Loop

variable {i₀ i₁ : Int}

-- What the first loop keeps where no two entries make it overrun, and where two do.
def Clear (stabs : Int → Stab) (type L R : Int) (a : Word) (s : Search) : Prop :=
  (Seeking stabs type L R a s ∧
    ∀ {i₀ i₁}, Adjacent stabs type L R a i₀ i₁ → i₁ ≤ s.r → ¬Splits stabs type i₀ i₁ s.l s.r) ∨
  ∃ i₀, Settled stabs type L R a s i₀

def Astray (stabs : Int → Stab) (type L R : Int) (a : Word) (i₀ i₁ : Int) (s : Search) : Prop :=
  (Seeking stabs type L R a s ∧ i₁ ≤ s.r ∧ Splits stabs type i₀ i₁ s.l s.r) ∨
  Passing stabs type L R a s i₁ ∨ ∃ m, Wrapped stabs type L R s i₁ m

theorem Clear.bounds (h : Clear stabs type L R a s) : L ≤ s.l ∧ s.r ≤ R := by
  obtain ⟨h, _⟩ | ⟨_, h⟩ := h
  · exact ⟨h.lo, h.hi⟩
  · exact ⟨Int.le_trans h.counts.lo h.lo, h.hi⟩

theorem Astray.bounds (h : Astray stabs type L R a i₀ i₁ s) : L ≤ s.l ∧ s.r ≤ R := by
  obtain ⟨h, _⟩ | h | ⟨_, h⟩ := h
  · exact ⟨h.lo, h.hi⟩
  · exact ⟨h.lo, h.hi⟩
  · exact ⟨h.l ▸ h.counts.lo, h.hi⟩

theorem Clear.step {s' : Search} (h : Clear stabs type L R a s) (hs : Increasing stabs type L R)
    (ha : a.toNat < 4294967295) (hc : s.l ≤ s.r) (ht : Turn stabs type s ((s.l + s.r) / 2) s') :
    Clear stabs type L R a s' := by
  obtain ⟨t, he⟩ : ∃ t, t = (s.l + s.r) / 2 := ⟨_, rfl⟩
  rw [← he] at ht
  have h₁ : s.l ≤ t := by omega
  have h₂ : t ≤ s.r := by omega
  obtain ⟨h, no⟩ | ⟨i₀, h⟩ := h
  case inr => exact .inr ⟨i₀, h.step hs h₁ h₂ ht⟩
  have hlo := h.lo
  have hhi := h.hi
  have inside : ∀ {i₀ i₁}, Adjacent stabs type L R a i₀ i₁ → s.l ≤ i₀ := fun hp => by
    by_contra hn
    have := h.below hp.fst (Int.not_le.mp hn)
    have := hp.fst_eq
    omega
  cases ht
  case skip reads none =>
    refine .inl ⟨h.skip h₁ h₂ none, fun hp hr hsp => no hp hr (.upper ?_ (he ▸ hsp))⟩
    by_contra hn
    exact none _ (inside hp) (by omega) hp.fst.is
  case below m reads lo hi is last lt =>
    refine .inl ⟨h.lower hs lo hi h₂ is last lt, fun hp hr hsp => no hp hr (.upper ?_ (he ▸ hsp))⟩
    have hm : m < _ := hs.lt ⟨by omega, by omega, is⟩ hp.fst (by rw [hp.fst_eq, ← h.addr]; exact lt)
    by_contra hn
    exact last _ hm (by omega) hp.fst.is
  case above m reads lo hi is last gt =>
    refine .inl ⟨h.higher hs lo (by omega) is gt, fun {i₀ i₁} hp hr hsp => ?_⟩
    have hr : i₁ ≤ m - 1 := hr
    exact no hp (by omega) (.lower is (he ▸ hi) (he ▸ last) (by omega) hsp)
  case exact m reads lo hi is last eq =>
    refine .inr ⟨m, h.settle hs ha lo hi h₂ is last eq fun {i₁} hp hr => ?_⟩
    by_contra hn
    exact no hp hr (.here (he ▸ hi) (by omega))

theorem Astray.step {s' : Search} (h : Astray stabs type L R a i₀ i₁ s) (hs : Increasing stabs type L R)
    (ha : a.toNat < 4294967295) (hp : Adjacent stabs type L R a i₀ i₁) (hc : s.l ≤ s.r)
    (ht : Turn stabs type s ((s.l + s.r) / 2) s') : Astray stabs type L R a i₀ i₁ s' := by
  obtain ⟨t, he⟩ : ∃ t, t = (s.l + s.r) / 2 := ⟨_, rfl⟩
  rw [← he] at ht
  have h₁ : s.l ≤ t := by omega
  have h₂ : t ≤ s.r := by omega
  have hlt := hp.lt hs
  obtain ⟨h, hr, hsp⟩ | h | ⟨m, h⟩ := h
  case inr.inl => exact .inr (h.step hs hp.snd hp.snd_eq h₁ h₂ ht)
  case inr.inr => exact .inr (.inr ⟨m, h.step hs h₁ h₂ ht⟩)
  have hlo := h.lo
  have hhi := h.hi
  have haddr := h.addr
  have hin : s.l ≤ i₀ := by
    by_contra hn
    have := h.below hp.fst (Int.not_le.mp hn)
    have := hp.fst_eq
    omega
  -- Only the middle that the interval has can be taken by the rules of `Splits`.
  have upper : t < i₀ → Splits stabs type i₀ i₁ (t + 1) s.r := fun hn => by
    cases hsp
    case here h₀ h₁     => omega
    case upper hsp      => exact he ▸ hsp
    case lower h₀ h₁ h₂ => omega
  cases ht
  case skip reads none =>
    refine .inl ⟨h.skip h₁ h₂ none, hr, upper ?_⟩
    by_contra hn
    exact none i₀ hin (by omega) hp.fst.is
  case below m reads lo hi is last lt =>
    refine .inl ⟨h.lower hs lo hi h₂ is last lt, hr, upper ?_⟩
    have hm : m < i₀ := hs.lt ⟨by omega, by omega, is⟩ hp.fst (by rw [hp.fst_eq, ← haddr]; exact lt)
    by_contra hn
    exact last i₀ hm (by omega) hp.fst.is
  case above m reads lo hi is last gt =>
    have hm : Counts stabs type L R m := ⟨by omega, by omega, is⟩
    have hfst := hp.fst_eq
    have hsnd := hp.snd_eq
    have h₀ : i₀ < m := hs.lt hp.fst hm (by rw [haddr] at gt; omega)
    cases hsp
    case here _ h₁ =>
      have := hs hm hp.snd (by omega)
      rw [haddr] at gt
      omega
    case upper => omega
    case lower m' is' hlt' hsp hi' last' =>
      have hmm : m' = m := by
        by_contra hne
        obtain h | h := Int.lt_or_gt_of_ne hne
        · exact last' m h (he ▸ hi) is
        · exact last m' h (he ▸ hi') is'
      subst hmm
      exact .inl ⟨h.higher hs lo (by omega) is gt, by show i₁ ≤ m' - 1; omega, hsp⟩
  case exact m reads lo hi is last eq =>
    have hm : m = i₀ := hs.eq ⟨by omega, by omega, is⟩ hp.fst (by rw [eq, haddr, hp.fst_eq])
    subst hm
    exact .inr (.inl (h.pass hs ha hp hr hin eq))

end Loop

-- The rule for the first loop of `stab_binsearch`.
theorem searchLoop_invariant {inv : Search → Prop} (hL : 0 ≤ L) (hR : R < 1073741824)
    (h₀ : inv (searchStart L R a)) (bounds : ∀ {s}, inv s → L ≤ s.l ∧ s.r ≤ R)
    (step : ∀ {s s'}, inv s → s.l ≤ s.r → Turn stabs type s ((s.l + s.r) / 2) s' → inv s')
    (hn : turnsLeft stabs (searchStart L R a) ≤ n) :
    ¬(searchLoop stabs type n (searchStart L R a)).l ≤ (searchLoop stabs type n (searchStart L R a)).r ∧
    inv (searchLoop stabs type n (searchStart L R a)) := by
  have turn : ∀ s, inv s → s.l ≤ s.r → Turn stabs type s ((s.l + s.r) / 2) (searchStep stabs type s) :=
    fun s h hc => by
      have ⟨h₁, h₂⟩ := bounds h
      exact searchStep_turn (by omega) hc (by omega)
  have both : ∀ s, inv s → s.l ≤ s.r →
      inv (searchStep stabs type s) ∧ turnsLeft stabs (searchStep stabs type s) < turnsLeft stabs s :=
    fun s h hc =>
      ⟨step h hc (turn s h hc), (turn s h hc).turnsLeft_lt (by omega) (by omega)⟩
  exact ⟨whileLoop_ends h₀ both hn, whileLoop_invariant h₀ fun s h hc => (both s h hc).left⟩

theorem stabBinsearch_more {x : Int × Int} (h : stabBinsearch stabs type n L R a = some x) (hk : n ≤ k) :
    stabBinsearch stabs type k L R a = some x := by
  simp only [stabBinsearch] at h ⊢
  split at h
  case isTrue => cases h
  case isFalse he =>
    have hm : searchLoop stabs type k (searchStart L R a) = searchLoop stabs type n (searchStart L R a) :=
      whileLoop_more he hk
    rw [hm, if_neg he]
    exact h

-- The search always ends. An entry takes 12 bytes, so that the indices of an array stay below 2^32 / 12.
theorem stab_binsearch_exact (hL : 0 ≤ L) (hR : 12 * R < 4294967296) (hs : Increasing stabs type L R)
    (ha : a.toNat < 4294967295) :
    ∃ n left right, (∀ fuel ≥ n, stabBinsearch stabs type fuel L R a = some (left, right)) ∧
      (Brackets stabs type L R a left right ↔
        ¬StartsLate stabs type L R a ∧ ¬Overruns stabs type L R a) := by
  obtain ⟨n, hn⟩ : ∃ n, n = turnsLeft stabs (searchStart L R a) := ⟨_, rfl⟩
  obtain ⟨s, hse⟩ : ∃ s, s = searchLoop stabs type n (searchStart L R a) := ⟨_, rfl⟩
  have answer (he : ¬s.l ≤ s.r) : ∀ fuel ≥ n,
      stabBinsearch stabs type fuel L R a = some (searchFinish stabs type s).1 := fun fuel hf => by
    have hend : stabBinsearch stabs type n L R a = some (searchFinish stabs type s).1 := by
      simp only [stabBinsearch, ← hse, if_neg he]
    exact stabBinsearch_more hend hf
  by_cases hp : ∃ i₀ i₁, Adjacent stabs type L R a i₀ i₁ ∧ Splits stabs type i₀ i₁ L R
  case pos =>
    obtain ⟨i₀, i₁, hp, hsp⟩ := hp
    have h₀ : Astray stabs type L R a i₀ i₁ (searchStart L R a) :=
      .inl ⟨searchStart_seeking, hp.snd.hi, hsp⟩
    obtain ⟨he, h⟩ := searchLoop_invariant hL (by omega) h₀ Astray.bounds
      (fun h hc ht => h.step hs ha hp hc ht) (Nat.le_of_eq hn.symm)
    rw [← hse] at he h
    refine ⟨n, _, _, answer he, ?_⟩
    have late : ¬StartsLate stabs type L R a := fun ⟨_, hn⟩ => Nat.ne_of_gt (hn hp.fst) hp.fst_eq
    have hover : Overruns stabs type L R a ↔ ¬(a.toNat + 1 = 4294967295 ∧ i₁ = i₀ + 1) := by
      refine ⟨fun ⟨j₀, j₁, hj, _, hn⟩ => ?_, fun hn => ⟨i₀, i₁, hp, hsp, hn⟩⟩
      rwa [hs.eq hj.fst hp.fst (hj.fst_eq.trans hp.fst_eq.symm),
        hs.eq hj.snd hp.snd (hj.snd_eq.trans hp.snd_eq.symm)] at hn
    rw [hover, not_not, and_iff_right late]
    obtain ⟨h, hr, _⟩ | h | ⟨m, h⟩ := h
    · have := h.below hp.fst (by have := hp.lt hs; omega)
      have := hp.fst_eq
      omega
    · exact h.exit hs hp he
    · exact h.exit hs hp he
  case neg =>
    have no : ∀ {i₀ i₁}, Adjacent stabs type L R a i₀ i₁ → ¬Splits stabs type i₀ i₁ L R :=
      fun h₁ h₂ => hp ⟨_, _, h₁, h₂⟩
    have h₀ : Clear stabs type L R a (searchStart L R a) :=
      .inl ⟨searchStart_seeking, fun h _ => no h⟩
    obtain ⟨he, h⟩ := searchLoop_invariant hL (by omega) h₀ Clear.bounds
      (fun h hc ht => h.step hs ha hc ht) (Nat.le_of_eq hn.symm)
    rw [← hse] at he h
    refine ⟨n, _, _, answer he, ?_⟩
    have hover : ¬Overruns stabs type L R a := fun ⟨_, _, h₁, h₂, _⟩ => no h₁ h₂
    rw [and_iff_left hover]
    obtain ⟨h, _⟩ | ⟨_, h⟩ := h
    · exact h.exit he
    · exact h.exit hs he

-- A function at each of the addresses from 5 on.
def sampleStabs (i : Int) : Stab where
  n_strx  := 0#32
  n_type  := 0x24#8
  n_desc  := 0#16
  n_value := BitVec.ofInt 32 (i + 5)

theorem sampleStabs_increasing : Increasing sampleStabs N_FUN 0 1 := by
  intro i j hi hj hlt
  have hi : i = 0 := by have := hi.lo; have := hj.hi; omega
  have hj : j = 1 := by have := hj.hi; omega
  subst hi hj
  decide

theorem stab_binsearch_exact_sample :
    ∃ n left right, (∀ fuel ≥ n, stabBinsearch sampleStabs N_FUN fuel 0 1 5#32 = some (left, right)) ∧
      (Brackets sampleStabs N_FUN 0 1 5#32 left right ↔
        ¬StartsLate sampleStabs N_FUN 0 1 5#32 ∧ ¬Overruns sampleStabs N_FUN 0 1 5#32) :=
  stab_binsearch_exact (by decide) (by decide) sampleStabs_increasing (by decide)

-- The search for the address 5 answers with the entry of the address 6.
theorem not_stab_binsearch_exact :
    Increasing sampleStabs N_FUN 0 1 ∧ (5#32).toNat < 4294967295 ∧
    ¬∃ n left right, (∀ fuel ≥ n, stabBinsearch sampleStabs N_FUN fuel 0 1 5#32 = some (left, right)) ∧
      Brackets sampleStabs N_FUN 0 1 5#32 left right := by
  refine ⟨sampleStabs_increasing, by decide, fun ⟨n, left, right, hf, hb⟩ => ?_⟩
  have hend : stabBinsearch sampleStabs N_FUN 4 0 1 5#32 = some (1, 1) := by decide
  have hmax := hf (max n 4) (Nat.le_max_left n 4)
  rw [stabBinsearch_more hend (Nat.le_max_right n 4)] at hmax
  cases hmax
  have hc : Counts sampleStabs N_FUN 0 1 0 := ⟨by decide, by decide, by decide⟩
  have hle := (hb.found hc (by decide)).left.le
  exact absurd hle (by decide)

end Kern.Kdebug

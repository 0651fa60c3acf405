import Mathlib.Data.List.Range

namespace Library

-- A memory of bytes.
def Memory := Nat → BitVec 8

namespace Memory

variable {m m' : Memory} {a b n x : Nat} {v : BitVec 32} {src : Nat → BitVec 8}

-- The memory after the `n` bytes of `src` have been stored from `a` on.
def write (m : Memory) (a n : Nat) (src : Nat → BitVec 8) : Memory := fun x =>
  if a ≤ x ∧ x < a + n then src (x - a) else m x

-- Words are stored with their low byte first.
def load32 (m : Memory) (a : Nat) : BitVec 32 := m (a + 3) ++ m (a + 2) ++ m (a + 1) ++ m a

def store32 (m : Memory) (a : Nat) (v : BitVec 32) : Memory :=
  m.write a 4 fun i => (v >>> (8 * i)).setWidth 8

def memset (m : Memory) (a n : Nat) (c : BitVec 8) : Memory := m.write a n fun _ => c

-- The bytes stored by `strcpy` of a string.
def strcpy (m : Memory) (a : Nat) (str : List (BitVec 8)) : Memory :=
  m.write a (str.length + 1) fun i => str.getD i 0

-- Whether the string at `a` is `str`.
def strEq (m : Memory) (a : Nat) : List (BitVec 8) → Bool
  | []       => m a = 0
  | c :: str => m a = c && strEq m (a + 1) str

-- Whether `m` and `m'` have the same bytes in the `n` places from `a` on.
def AgreeOn (a n : Nat) (m m' : Memory) : Prop := ∀ x, a ≤ x → x < a + n → m' x = m x

theorem write_of_mem (h₁ : a ≤ x) (h₂ : x < a + n) : m.write a n src x = src (x - a) :=
  if_pos ⟨h₁, h₂⟩

theorem write_of_not_mem (h : x < a ∨ a + n ≤ x) : m.write a n src x = m x :=
  if_neg (by omega)

theorem load32_congr (h : AgreeOn a 4 m m') : m'.load32 a = m.load32 a := by
  simp only [load32]
  rw [h a (by omega) (by omega), h (a + 1) (by omega) (by omega), h (a + 2) (by omega) (by omega),
    h (a + 3) (by omega) (by omega)]

theorem load32_write (h : a + 4 ≤ b ∨ b + n ≤ a) : (m.write b n src).load32 a = m.load32 a :=
  load32_congr fun _ _ _ => write_of_not_mem (by omega)

theorem load32_store32_self : (m.store32 a v).load32 a = v := by
  have hb {i : Nat} (hi : i < 4) : m.store32 a v (a + i) = (v >>> (8 * i)).setWidth 8 := by
    rw [store32, write_of_mem (by omega) (by omega), Nat.add_sub_cancel_left]
  have h0 := hb (show 0 < 4 by omega)
  rw [Nat.add_zero] at h0
  rw [load32, hb (show 3 < 4 by omega), hb (show 2 < 4 by omega), hb (show 1 < 4 by omega), h0]
  apply BitVec.eq_of_getLsbD_eq
  intro i hi
  simp only [BitVec.getLsbD_append, BitVec.getLsbD_setWidth, BitVec.getLsbD_ushiftRight]
  by_cases h1 : i < 8
  · simp [h1]
  by_cases h2 : i < 16
  · simp [h1, show i - 8 < 8 by omega, show 8 + (i - 8) = i by omega]
  by_cases h3 : i < 24
  · simp [h1, show ¬i - 8 < 8 by omega, show i - 8 - 8 < 8 by omega,
      show 16 + (i - 8 - 8) = i by omega]
  · simp [h1, show ¬i - 8 < 8 by omega, show ¬i - 8 - 8 < 8 by omega,
      show i - 8 - 8 - 8 < 8 by omega, show 24 + (i - 8 - 8 - 8) = i by omega]

theorem load32_store32 (h : a + 4 ≤ b ∨ b + 4 ≤ a) : (m.store32 b v).load32 a = m.load32 a :=
  load32_write h

theorem load32_move {a' : Nat} (h : ∀ i < 4, m' (a' + i) = m (a + i)) : m'.load32 a' = m.load32 a := by
  have h₀ := h 0 (by decide)
  rw [Nat.add_zero, Nat.add_zero] at h₀
  rw [load32, load32, h₀, h 1 (by decide), h 2 (by decide), h 3 (by decide)]

theorem store32_of_not_mem (h : x < a ∨ a + 4 ≤ x) : m.store32 a v x = m x := write_of_not_mem h

-- A table of words, stored one after the other.
theorem foldl_store32 {v : Nat → BitVec 32} :
    let m' := (List.range n).foldl (fun m i => m.store32 (a + 4 * i) (v i)) m
    (∀ i < n, m'.load32 (a + 4 * i) = v i) ∧ ∀ x, x < a ∨ a + 4 * n ≤ x → m' x = m x := by
  induction n
  case zero => exact ⟨fun i hi => absurd hi (Nat.not_lt_zero i), fun _ _ => rfl⟩
  case succ n hi =>
    simp only [List.range_succ, List.foldl_append, List.foldl_cons, List.foldl_nil]
    refine ⟨fun i hlt => ?_, fun x hx => ?_⟩
    · by_cases h : i = n
      · rw [h, load32_store32_self]
      · rw [load32_store32 (by omega)]
        exact hi.1 i (by omega)
    · rw [store32_of_not_mem (by omega)]
      exact hi.2 x (by omega)

theorem memset_of_not_mem {c : BitVec 8} (h : x < a ∨ a + n ≤ x) : m.memset a n c x = m x :=
  write_of_not_mem h

theorem load32_memset (h₁ : b ≤ a) (h₂ : a + 4 ≤ b + n) : (m.memset b n 0).load32 a = 0 := by
  have hb {i : Nat} (hi : i < 4) : m.memset b n 0 (a + i) = 0 :=
    write_of_mem (by omega) (by omega)
  have h0 := hb (show 0 < 4 by omega)
  rw [Nat.add_zero] at h0
  rw [load32, hb (show 3 < 4 by omega), hb (show 2 < 4 by omega), hb (show 1 < 4 by omega), h0]
  rfl

theorem strEq_congr {str : List (BitVec 8)} (h : AgreeOn a (str.length + 1) m m') :
    m'.strEq a str = m.strEq a str := by
  induction str generalizing a
  case nil => rw [strEq, strEq, h a le_rfl (by omega)]
  case cons c str hi =>
    rw [strEq, strEq, h a le_rfl (by omega), hi]
    intro x h₁ h₂
    refine h x (by omega) ?_
    rw [List.length_cons]
    omega

-- The string that has been stored is the only one that `strEq` finds.
theorem strEq_iff {str str' : List (BitVec 8)} (h : ∀ i ≤ str.length, m (a + i) = str.getD i 0)
    (h₁ : 0#8 ∉ str) (h₂ : 0#8 ∉ str') : m.strEq a str' ↔ str' = str := by
  induction str generalizing a str'
  case nil =>
    have h₀ : m a = 0#8 := h 0 le_rfl
    cases str'
    case nil => simp [strEq, h₀]
    case cons c str' =>
      have hc : 0#8 ≠ c := fun hc => h₂ (hc ▸ List.mem_cons_self)
      simp [strEq, h₀, hc]
  case cons c str hi =>
    have h₀ : m a = c := h 0 (Nat.zero_le _)
    cases str'
    case nil =>
      have hc : c ≠ 0#8 := fun hc => h₁ (hc ▸ List.mem_cons_self)
      simp [strEq, h₀, hc]
    case cons c' str' =>
      have hs := @hi (a + 1) str' (fun i hle => by
        have := h (i + 1) (by simpa using hle)
        rw [Nat.add_assoc, Nat.add_comm 1, this, List.getD_cons_succ])
        (fun hm => h₁ (List.mem_cons_of_mem _ hm)) fun hm => h₂ (List.mem_cons_of_mem _ hm)
      rw [strEq, Bool.and_eq_true, decide_eq_true_iff, h₀, hs, List.cons.injEq, eq_comm]

theorem strEq_strcpy {str str' : List (BitVec 8)} (h₁ : 0#8 ∉ str) (h₂ : 0#8 ∉ str') :
    (m.strcpy a str).strEq a str' ↔ str' = str := by
  refine strEq_iff (fun i hi => ?_) h₁ h₂
  rw [strcpy, write_of_mem (by omega) (by omega), Nat.add_sub_cancel_left]

theorem AgreeOn.trans {m'' : Memory} (h : AgreeOn a n m m') (h' : AgreeOn a n m' m'') :
    AgreeOn a n m m'' :=
  fun x h₁ h₂ => (h' x h₁ h₂).trans (h x h₁ h₂)

theorem AgreeOn.mono {b k : Nat} (h : AgreeOn a n m m') (h₁ : a ≤ b) (h₂ : b + k ≤ a + n) :
    AgreeOn b k m m' :=
  fun x hx₁ hx₂ => h x (by omega) (by omega)

theorem agreeOn_write (h : a + n ≤ b ∨ b + x ≤ a) : AgreeOn a n m (m.write b x src) :=
  fun _ _ _ => write_of_not_mem (by omega)

end Memory

end Library

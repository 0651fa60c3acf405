import Mathlib.Data.List.Basic

namespace Library

variable {α : Type*} {n : Nat} {l b : List α}

-- The batches of `n` elements that are taken from a list until one is not full. This one is the last,
-- and empty where the others have used up the list.
def batches (n : Nat) (l : List α) : List (List α) :=
  if 0 < n ∧ n ≤ l.length then l.take n :: batches n (l.drop n) else [l]
termination_by l.length
decreasing_by
  rw [List.length_drop]
  omega

theorem batches_full (hn : 0 < n) (h : n ≤ l.length) : batches n l = l.take n :: batches n (l.drop n) := by
  rw [batches, if_pos ⟨hn, h⟩]

theorem batches_last (h : l.length < n) : batches n l = [l] := by
  rw [batches, if_neg]
  omega

theorem batches_ne_nil : batches n l ≠ [] := by
  rw [batches]
  split <;> simp

theorem batches_flatten : (batches n l).flatten = l := by
  fun_induction batches n l
  case case1 l h hi => rw [List.flatten_cons, hi, List.take_append_drop]
  case case2        => simp

theorem batches_length (hn : 0 < n) : (batches n l).length = l.length / n + 1 := by
  fun_induction batches n l
  case case1 l h hi =>
    have hd := Nat.div_eq_sub_div hn h.right
    rw [List.length_cons, hi, List.length_drop, hd]
  case case2 l h    =>
    rw [Nat.div_eq_of_lt (by omega)]
    rfl

-- Only the last batch is not full.
theorem batches_dropLast (hb : b ∈ (batches n l).dropLast) : b.length = n := by
  fun_induction batches n l
  case case1 l h hi =>
    rw [List.dropLast_cons_of_ne_nil batches_ne_nil] at hb
    rcases List.mem_cons.mp hb with rfl | hb
    · rw [List.length_take, Nat.min_eq_left h.right]
    · exact hi hb
  case case2        => cases hb

theorem batches_getLast (hn : 0 < n) (hb : (batches n l).getLast? = some b) :
    b.length = l.length % n := by
  fun_induction batches n l
  case case1 l h hi =>
    obtain ⟨c, bs, hc⟩ := List.exists_cons_of_ne_nil (@batches_ne_nil _ n (l.drop n))
    rw [hc, List.getLast?_cons_cons, ← hc] at hb
    rw [hi hb, List.length_drop, ← Nat.mod_eq_sub_mod h.right]
  case case2 l h    =>
    have hl : l = b := by simpa using hb
    rw [← hl, Nat.mod_eq_of_lt (by omega)]

end Library

import Mathlib.Data.Fin.Basic
import Mathlib.Data.List.Range
import Mathlib.Tactic.Linarith

namespace Library

variable {n : Nat}

-- How far `e` is from `start`, going round.
def distance (start e : Fin n) : Nat :=
  if start.val ≤ e.val then e.val - start.val else n - start.val + e.val

section Distance

variable {a b c e : Fin n}

theorem distance_lt : distance a e < n := by
  have := a.isLt
  have := e.isLt
  simp only [distance]
  split <;> omega

@[simp] theorem distance_self : distance a a = 0 := by
  simp [distance]

theorem distance_inj (h : distance a b = distance a c) : b = c := by
  have := a.isLt
  have := b.isLt
  have := c.isLt
  simp only [distance] at h
  ext
  split_ifs at h <;> omega

variable [NeZero n]

theorem val_add_ofNat {i : Nat} (h : i < n) :
    (a + Fin.ofNat n i).val = if a.val + i < n then a.val + i else a.val + i - n := by
  have := a.isLt
  rw [Fin.val_add, Fin.val_ofNat, Nat.mod_eq_of_lt h]
  split
  case isTrue h  => exact Nat.mod_eq_of_lt h
  case isFalse h => rw [Nat.mod_eq_sub_mod (by omega), Nat.mod_eq_of_lt (by omega)]

theorem add_distance : a + Fin.ofNat n (distance a e) = e := by
  have := a.isLt
  have := e.isLt
  ext
  rw [val_add_ofNat distance_lt]
  simp only [distance]
  split_ifs <;> omega

theorem distance_add {i : Nat} (h : i < n) : distance a (a + Fin.ofNat n i) = i := by
  have := a.isLt
  simp only [distance, val_add_ofNat h]
  split_ifs <;> omega

theorem val_succ : (a + 1).val = if a.val + 1 < n then a.val + 1 else 0 := by
  have := a.isLt
  have h1 : (1 : Fin n).val = 1 % n := rfl
  rw [Fin.val_add, h1, Nat.add_mod_mod]
  split
  case isTrue h  => exact Nat.mod_eq_of_lt h
  case isFalse h => rw [show a.val + 1 = n by omega, Nat.mod_self]

-- Going on from just after `a`, nothing but `a` itself gets further away.
theorem distance_succ (h : e ≠ a) : distance a e = distance (a + 1) e + 1 := by
  have := a.isLt
  have := e.isLt
  have : e.val ≠ a.val := fun h' => h (Fin.ext h')
  simp only [distance, val_succ]
  split_ifs <;> omega

end Distance

-- All indices in order, starting at `start` and going round.
def rotation [NeZero n] (start : Fin n) : List (Fin n) :=
  (List.range n).map fun i => start + Fin.ofNat n i

section Search

variable [NeZero n] {p : Fin n → Bool} {a b e x : Fin n}

-- A search in this order finds the nearest element.
theorem find?_rotation : (rotation a).find? p = some x ↔
    p x ∧ ∀ e, p e → distance a x ≤ distance a e := by
  rw [rotation, List.find?_map, Option.map_eq_some_iff]
  simp only [List.find?_range_eq_some, Function.comp_apply]
  constructor
  · rintro ⟨i, ⟨hp, hi, hmin⟩, rfl⟩
    have hi : i < n := List.mem_range.mp hi
    refine ⟨hp, fun e he => ?_⟩
    rw [distance_add hi]
    by_contra hlt
    have := hmin (distance a e) (by omega)
    rw [add_distance, he] at this
    cases this
  · rintro ⟨hp, hmin⟩
    refine ⟨distance a x, ⟨by rwa [add_distance], List.mem_range.mpr distance_lt, fun i hi => ?_⟩,
      add_distance⟩
    by_contra hc
    have hn := (distance_lt (a := a) (e := x))
    have := hmin (a + Fin.ofNat n i) (by simpa using hc)
    rw [distance_add (by omega)] at this
    omega

theorem find?_rotation_eq_none : (rotation a).find? p = none ↔ ∀ e, p e = false := by
  rw [List.find?_eq_none]
  constructor
  · intro h e
    have := h e (List.mem_map.mpr ⟨distance a e, List.mem_range.mpr distance_lt, add_distance⟩)
    simpa using this
  · intro h e _
    simp [h e]

-- Two searches agree when they put the elements they look for in the same order.
theorem find?_rotation_congr
    (h : ∀ {e e'}, p e → p e' → (distance a e ≤ distance a e' ↔ distance b e ≤ distance b e')) :
    (rotation a).find? p = (rotation b).find? p := by
  cases ha : (rotation a).find? p
  case none => exact (find?_rotation_eq_none.mpr (find?_rotation_eq_none.mp ha)).symm
  case some x =>
    obtain ⟨hx, hmin⟩ := find?_rotation.mp ha
    exact (find?_rotation.mpr ⟨hx, fun e he => (h hx he).mp (hmin e he)⟩).symm

-- Every search that starts just after the last result and does not find `e` comes closer to `e`.
theorem distance_lt_of_find? (h : (rotation (a + 1)).find? p = some x) (he : p e) (hx : e ≠ x) :
    distance (x + 1) e < distance (a + 1) e := by
  obtain ⟨_, hmin⟩ := find?_rotation.mp h
  have hle := hmin e he
  have hne : distance (a + 1) x ≠ distance (a + 1) e := fun hc => hx (distance_inj hc).symm
  have hs := distance_succ hx
  suffices hd : distance (a + 1) e = distance (a + 1) x + distance x e by omega
  generalize a + 1 = b at *
  have := b.isLt
  have := e.isLt
  have := x.isLt
  have : e.val ≠ x.val := fun h' => hx (Fin.ext h')
  simp only [distance] at *
  split_ifs at * <;> omega

end Search

end Library

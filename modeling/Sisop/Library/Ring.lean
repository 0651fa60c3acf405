import Mathlib.Logic.Function.Basic
import Mathlib.Data.List.Range
import Mathlib.Tactic.Linarith

namespace Library

open Function

-- A circular buffer with `n` places, of which one always stays free.
structure Ring (α : Type*) (n : Nat) where
  buf : Nat → α
  rpos : Nat
  wpos : Nat
  rpos_lt : rpos < n
  wpos_lt : wpos < n

namespace Ring

variable {α : Type*} {n : Nat}

-- The place after `i`.
def next (n i : Nat) : Nat := if i + 1 = n then 0 else i + 1

theorem next_lt {i : Nat} (h : i < n) : next n i < n := by
  simp only [next]
  split <;> omega

def put (r : Ring α n) (c : α) : Ring α n where
  buf     := update r.buf r.wpos c
  rpos    := r.rpos
  wpos    := next n r.wpos
  rpos_lt := r.rpos_lt
  wpos_lt := next_lt r.wpos_lt

-- Moves on to the next place to read.
def drop (r : Ring α n) : Ring α n where
  buf     := r.buf
  rpos    := next n r.rpos
  wpos    := r.wpos
  rpos_lt := next_lt r.rpos_lt
  wpos_lt := r.wpos_lt

def get (r : Ring α n) : Option (α × Ring α n) :=
  if r.rpos ≠ r.wpos then some (r.buf r.rpos, r.drop) else none

def length (r : Ring α n) : Nat :=
  if r.rpos ≤ r.wpos then r.wpos - r.rpos else n - r.rpos + r.wpos

def place (n start i : Nat) : Nat := if start + i < n then start + i else start + i - n

-- What has been put in and not been taken out, in order.
def contents (r : Ring α n) : List α :=
  (List.range r.length).map fun i => r.buf (place n r.rpos i)

variable {r r' : Ring α n} {c : α}

@[simp] theorem contents_length : r.contents.length = r.length := by
  simp [contents]

theorem length_put (h : r.length + 1 < n) : (r.put c).length = r.length + 1 := by
  have hr := r.rpos_lt
  have hw := r.wpos_lt
  simp only [length, put, next] at *
  split_ifs at * <;> omega

-- Putting something in adds it at the end.
theorem contents_put (h : r.length + 1 < n) : (r.put c).contents = r.contents ++ [c] := by
  have hr := r.rpos_lt
  have hw := r.wpos_lt
  rw [contents, length_put h, List.range_succ, List.map_append, contents]
  congr 1
  · refine List.map_congr_left fun i hi => ?_
    have hi := List.mem_range.mp hi
    have hne : place n r.rpos i ≠ r.wpos := by
      simp only [length, place] at *
      split_ifs at * <;> omega
    exact update_of_ne hne _ _
  · have heq : place n r.rpos r.length = r.wpos := by
      simp only [length, place] at *
      split_ifs at * <;> omega
    simp [put, heq]

-- What is taken out was at the front.
theorem contents_get (h : r.get = some (c, r')) : r.contents = c :: r'.contents := by
  have hr := r.rpos_lt
  have hw := r.wpos_lt
  simp only [get] at h
  split at h
  case isFalse => cases h
  case isTrue hne =>
    cases h
    have hl : r.length = r.drop.length + 1 := by
      simp only [length, drop, next]
      split_ifs <;> omega
    have h0 : place n r.rpos 0 = r.rpos := by
      simp [place, hr]
    rw [contents, hl, List.range_succ_eq_map, List.map_cons, h0, List.map_map, contents]
    refine congrArg _ (List.map_congr_left fun i hi => ?_)
    have hi := List.mem_range.mp hi
    have hp : place n r.rpos (i + 1) = place n r.drop.rpos i := by
      simp only [length, drop, place, next] at *
      split_ifs at * <;> omega
    simp only [Function.comp_apply, hp]
    rfl

theorem get_eq_none : r.get = none ↔ r.contents = [] := by
  have hr := r.rpos_lt
  have hw := r.wpos_lt
  have hl : r.contents = [] ↔ r.length = 0 := by
    rw [← contents_length, List.length_eq_zero_iff]
  rw [hl]
  simp only [get, length]
  split_ifs <;> simp <;> omega

end Ring

end Library

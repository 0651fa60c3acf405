import Mathlib.Data.Nat.Prime.Basic

namespace Library

variable {m n k : Nat}

-- Each number that is left sieves out its multiples.
def sieve : List Nat → List Nat
  | []     => []
  | p :: l => p :: sieve (l.filter fun n => ¬p ∣ n)
termination_by l => l.length
decreasing_by
  rw [List.length_unattach]
  exact Nat.lt_succ_of_le ((List.length_filter_le ..).trans_eq List.length_attach)

-- The sieve invariant: what is left in front of `m` are the numbers with no prime factor below `m`.
def rough (m k : Nat) : List Nat := (List.range' m k).filter fun n => m ≤ n.minFac

theorem lt_minFac_iff (hm : 2 ≤ m) : m + 1 ≤ n.minFac ↔ m ≤ n.minFac ∧ ¬m ∣ n := by
  constructor
  case mp =>
    intro h
    refine ⟨Nat.le_of_succ_le h, fun hd => ?_⟩
    have := Nat.minFac_le_of_dvd hm hd
    omega
  case mpr =>
    rintro ⟨h, hd⟩
    refine Nat.lt_of_le_of_ne h ?_
    rintro rfl
    exact hd n.minFac_dvd

theorem lt_minFac_iff_of_not_prime (hm : ¬m.Prime) (hn : n ≠ 1) : m + 1 ≤ n.minFac ↔ m ≤ n.minFac := by
  refine ⟨Nat.le_of_succ_le, fun h => Nat.lt_of_le_of_ne h ?_⟩
  rintro rfl
  exact hm (Nat.minFac_prime hn)

-- A prime is the first number that is left, and sieves out the numbers of which it is the least factor.
theorem rough_prime (hm : m.Prime) :
    rough m (k + 1) = m :: (List.range' (m + 1) k).filter fun n => m ≤ n.minFac := by
  rw [rough, List.range'_succ, List.filter_cons_of_pos]
  simp [hm.minFac_eq]

theorem filter_rough (hm : 2 ≤ m) :
    ((List.range' (m + 1) k).filter fun n => m ≤ n.minFac).filter (fun n => ¬m ∣ n) =
      rough (m + 1) k := by
  rw [rough, List.filter_filter]
  refine List.filter_congr fun n _ => ?_
  simp [lt_minFac_iff hm, and_comm]

-- Any other number is not there any more.
theorem rough_not_prime (h₂ : 2 ≤ m) (hm : ¬m.Prime) : rough m (k + 1) = rough (m + 1) k := by
  rw [rough, List.range'_succ, List.filter_cons_of_neg]
  · refine List.filter_congr fun n hn => ?_
    have hle := (List.mem_range'_1.mp hn).left
    simp [lt_minFac_iff_of_not_prime hm (show n ≠ 1 by omega)]
  · have hlt := (Nat.not_prime_iff_minFac_lt h₂).mp hm
    simpa using hlt

theorem sieve_rough (hm : 2 ≤ m) : sieve (rough m k) = (List.range' m k).filter Nat.Prime := by
  induction k generalizing m
  case zero => simp [rough, sieve]
  case succ k hi =>
    have hi := @hi (m + 1) (by omega)
    rw [List.range'_succ]
    by_cases hp : m.Prime
    case pos =>
      rw [rough_prime hp, sieve, filter_rough hm, hi, List.filter_cons_of_pos (by simpa using hp)]
    case neg => rw [rough_not_prime hm hp, hi, List.filter_cons_of_neg (by simpa using hp)]

-- The sieve of all numbers from 2 on leaves the primes.
theorem sieve_range' : sieve (List.range' 2 k) = (List.range' 2 k).filter Nat.Prime := by
  have h : rough 2 k = List.range' 2 k := by
    rw [rough, List.filter_eq_self]
    intro n hn
    have hle := (List.mem_range'_1.mp hn).left
    simpa using (Nat.minFac_prime (show n ≠ 1 by omega)).two_le
  rw [← sieve_rough (Nat.le_refl 2), h]

end Library

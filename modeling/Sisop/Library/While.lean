namespace Library

variable {σ : Type} {c : σ → Prop} [DecidablePred c] {f : σ → σ} {inv : σ → Prop} {μ : σ → Nat}
  {s : σ} {n k : Nat}

-- At most `n` turns of a loop: after them the loop has ended where `c` is false.
def whileLoop (c : σ → Prop) [DecidablePred c] (f : σ → σ) : Nat → σ → σ
  | 0,     s => s
  | n + 1, s => if c s then whileLoop c f n (f s) else s

@[simp] theorem whileLoop_zero : whileLoop c f 0 s = s := rfl

theorem whileLoop_turn (h : c s) : whileLoop c f (n + 1) s = whileLoop c f n (f s) :=
  if_pos h

theorem whileLoop_end (h : ¬c s) : whileLoop c f n s = s := by
  cases n
  case zero => rfl
  case succ => exact if_neg h

theorem whileLoop_invariant (h₀ : inv s) (h : ∀ s, inv s → c s → inv (f s)) :
    inv (whileLoop c f n s) := by
  induction n generalizing s
  case zero => exact h₀
  case succ n hi =>
    by_cases hc : c s
    case pos =>
      rw [whileLoop_turn hc]
      exact hi (h s h₀ hc)
    case neg =>
      rw [whileLoop_end hc]
      exact h₀

-- A loop each turn of which makes `μ` smaller ends after at most as many turns as `μ` is at first.
theorem whileLoop_ends (h₀ : inv s) (h : ∀ s, inv s → c s → inv (f s) ∧ μ (f s) < μ s) (hn : μ s ≤ n) :
    ¬c (whileLoop c f n s) := by
  induction n generalizing s
  case zero =>
    intro hc
    have := (h s h₀ hc).right
    omega
  case succ n hi =>
    by_cases hc : c s
    case pos =>
      have ⟨h₁, hm⟩ := h s h₀ hc
      rw [whileLoop_turn hc]
      exact hi h₁ (by omega)
    case neg =>
      rw [whileLoop_end hc]
      exact hc

-- More turns than the loop needs change nothing.
theorem whileLoop_more (h : ¬c (whileLoop c f n s)) (hn : n ≤ k) :
    whileLoop c f k s = whileLoop c f n s := by
  induction n generalizing s k
  case zero => exact whileLoop_end h
  case succ n hi =>
    by_cases hc : c s
    case pos =>
      obtain ⟨k, rfl⟩ := Nat.exists_eq_add_of_le' (Nat.le_trans (Nat.succ_pos n) hn)
      rw [whileLoop_turn hc] at h ⊢
      rw [whileLoop_turn hc]
      exact hi h (by omega)
    case neg => rw [whileLoop_end hc, whileLoop_end hc]

-- A loop whose states are known.
theorem whileLoop_states {P : Nat → σ} (h : ∀ k < n, c (P k) ∧ f (P k) = P (k + 1)) :
    whileLoop c f n (P 0) = P n := by
  induction n generalizing P
  case zero => rfl
  case succ n hi =>
    obtain ⟨hc, hf⟩ := h 0 (Nat.succ_pos n)
    rw [whileLoop_turn hc, hf]
    exact hi fun k hk => h (k + 1) (Nat.succ_lt_succ hk)

-- A loop whose turns are those of another one, under a map of the states.
theorem whileLoop_map {τ : Type} {c' : τ → Prop} [DecidablePred c'] {g : τ → τ} {φ : σ → τ}
    (h₀ : inv s) (hc : ∀ s, inv s → (c' (φ s) ↔ c s))
    (h : ∀ s, inv s → c s → inv (f s) ∧ g (φ s) = φ (f s)) :
    whileLoop c' g n (φ s) = φ (whileLoop c f n s) := by
  induction n generalizing s
  case zero => rfl
  case succ n hi =>
    by_cases hs : c s
    case pos =>
      obtain ⟨h₁, hg⟩ := h s h₀ hs
      rw [whileLoop_turn hs, whileLoop_turn ((hc s h₀).mpr hs), hg]
      exact hi h₁
    case neg => rw [whileLoop_end hs, whileLoop_end (mt (hc s h₀).mp hs)]

-- What a counting loop that gets to its end has done before.
theorem foldlM_range_succ {f : σ → Nat → Option σ} {s' : σ}
    (h : (List.range (n + 1)).foldlM f s = some s') :
    ∃ s₁, (List.range n).foldlM f s = some s₁ ∧ f s₁ n = some s' := by
  rw [List.range_succ, List.foldlM_append, Option.bind_eq_bind, Option.bind_eq_some_iff] at h
  obtain ⟨s₁, h₁, h₂⟩ := h
  exact ⟨s₁, h₁, by simpa using h₂⟩

theorem foldlM_range_prefix {f : σ → Nat → Option σ} {s' : σ}
    (h : (List.range n).foldlM f s = some s') (hk : k ≤ n) :
    ∃ s₁, (List.range k).foldlM f s = some s₁ := by
  induction n generalizing s'
  case zero => exact ⟨s', (Nat.le_zero.mp hk).symm ▸ h⟩
  case succ n hi =>
    obtain ⟨s₁, h₁, _⟩ := foldlM_range_succ h
    obtain rfl | hk := Nat.eq_or_lt_of_le hk
    · exact ⟨s', h⟩
    · exact hi h₁ (by omega)

end Library

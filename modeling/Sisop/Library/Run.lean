import Mathlib.Logic.Relation

namespace Library

variable {σ ε : Type*}

section Loop

variable {α : Type*} {f : σ → α → Option σ} {P : σ → Prop} {s s' : σ}

-- The rule for a loop over the elements of a list that stops at the first failure.
theorem foldlM_list {l : List α} (h : l.foldlM f s = some s') (h₀ : P s)
    (i : ∀ {s s' a}, a ∈ l → P s → f s a = some s' → P s') : P s' := by
  induction l generalizing s
  case nil =>
    cases h
    exact h₀
  case cons a l hi =>
    rw [List.foldlM_cons, Option.bind_eq_bind, Option.bind_eq_some_iff] at h
    obtain ⟨s₁, h₁, h₂⟩ := h
    exact hi h₂ (i List.mem_cons_self h₀ h₁) fun ha => i (List.mem_cons_of_mem _ ha)

-- The rule for a counting loop, whose invariant may mention the counter.
theorem foldlM_range {f : σ → Nat → Option σ} {P : Nat → σ → Prop} {n : Nat}
    (h : (List.range n).foldlM f s = some s') (h₀ : P 0 s)
    (i : ∀ {s s' k}, k < n → P k s → f s k = some s' → P (k + 1) s') : P n s' := by
  induction n generalizing s'
  case zero =>
    cases h
    exact h₀
  case succ n hi =>
    rw [List.range_succ, List.foldlM_append, Option.bind_eq_bind, Option.bind_eq_some_iff] at h
    obtain ⟨s₁, h₁, h₂⟩ := h
    have h₂ : f s₁ n = some s' := by simpa using h₂
    exact i (Nat.lt_succ_self n) (hi h₁ fun hk => i (Nat.lt_succ_of_lt hk)) h₂

-- A counting loop that gets to its end.
theorem foldlM_range_total {f : σ → Nat → Option σ} {P : Nat → σ → Prop} {n : Nat} (h₀ : P 0 s)
    (i : ∀ {s k}, k < n → P k s → ∃ s', f s k = some s' ∧ P (k + 1) s') :
    ∃ s', (List.range n).foldlM f s = some s' ∧ P n s' := by
  induction n
  case zero => exact ⟨s, rfl, h₀⟩
  case succ n hi =>
    obtain ⟨s₁, h₁, hp⟩ := hi fun hk => i (Nat.lt_succ_of_lt hk)
    obtain ⟨s₂, h₂, hp⟩ := i (Nat.lt_succ_self n) hp
    refine ⟨s₂, ?_, hp⟩
    rw [List.range_succ, List.foldlM_append, h₁]
    simpa using h₂

-- A counting loop whose states are known.
theorem foldlM_range_eq {f : σ → Nat → Option σ} {S : Nat → σ} {n : Nat}
    (h : ∀ k < n, f (S k) k = some (S (k + 1))) : (List.range n).foldlM f (S 0) = some (S n) := by
  induction n
  case zero => rfl
  case succ n hi =>
    rw [List.range_succ, List.foldlM_append, hi fun k hk => h k (Nat.lt_succ_of_lt hk)]
    simpa using h n (Nat.lt_succ_self n)

-- A loop that looks for the first element for which `p` holds.
theorem foldlM_find {α β : Type*} {f : Option β → α → Option (Option β)} {p : α → Bool} {g : α → β}
    {l : List α} (h₁ : ∀ y x, f (some y) x = some (some y))
    (h₂ : ∀ x, f none x = some (if p x then some (g x) else none)) :
    l.foldlM f none = some ((l.find? p).map g) := by
  have hs (y : β) (l : List α) : l.foldlM f (some y) = some (some y) := by
    induction l
    case nil => rfl
    case cons x l hi =>
      rw [List.foldlM_cons, h₁]
      exact hi
  induction l
  case nil => rfl
  case cons x l hi =>
    rw [List.foldlM_cons, h₂, Option.bind_eq_bind, Option.bind_some, List.find?_cons]
    cases p x
    case true => exact hs (g x) l
    case false => exact hi

theorem foldl_range {f : σ → Nat → σ} {P : Nat → σ → Prop} {n : Nat} (h₀ : P 0 s)
    (i : ∀ {s k}, k < n → P k s → P (k + 1) (f s k)) : P n ((List.range n).foldl f s) := by
  induction n
  case zero => exact h₀
  case succ n hi =>
    rw [List.range_succ, List.foldl_append]
    exact i (Nat.lt_succ_self n) (hi fun hk => i (Nat.lt_succ_of_lt hk))

end Loop

-- The runs of a labelled transition system that only take steps allowed by `guard`, which looks at
-- the state before the step and at its label.
inductive Run (step : σ → ε → σ → Prop) (guard : σ → ε → Prop) (s : σ) : σ → Prop
  | refl : Run step guard s s
  | tail {s₁ s₂ ev} : Run step guard s s₁ → guard s₁ ev → step s₁ ev s₂ → Run step guard s s₂

namespace Run

variable {step : σ → ε → σ → Prop} {guard guard' : σ → ε → Prop} {inv : σ → Prop} {s s₁ s₂ : σ}

theorem invariant (r : Run step guard s s₁) (h : inv s)
    (i : ∀ {s s' ev}, inv s → guard s ev → step s ev s' → inv s') : inv s₁ := by
  induction r
  case refl          => exact h
  case tail hg hs hi => exact i hi hg hs

theorem single {ev} (hg : guard s ev) (hs : step s ev s₁) : Run step guard s s₁ :=
  tail refl hg hs

theorem trans (r₁ : Run step guard s s₁) (r₂ : Run step guard s₁ s₂) : Run step guard s s₂ := by
  induction r₂
  case refl          => exact r₁
  case tail hg hs hi => exact hi.tail hg hs

theorem weaken (r : Run step guard s s₁) (h : ∀ {s ev}, guard s ev → guard' s ev) :
    Run step guard' s s₁ := by
  induction r
  case refl          => exact refl
  case tail hg hs hi => exact hi.tail (h hg) hs

-- The rule for a refinement: `abs` takes each step to a step or to nothing.
theorem project {τ δ : Type*} {abs : σ → τ} {step' : τ → δ → τ → Prop} {guard' : τ → δ → Prop}
    (r : Run step guard s s₁) (h : inv s) (i : ∀ {s s' ev}, inv s → guard s ev → step s ev s' → inv s')
    (hs : ∀ {s s' ev}, inv s → guard s ev → step s ev s' →
      abs s' = abs s ∨ ∃ ev', guard' (abs s) ev' ∧ step' (abs s) ev' (abs s')) :
    Run step' guard' (abs s) (abs s₁) := by
  induction r
  case refl => exact refl
  case tail r hg hst hi =>
    cases hs (r.invariant h i) hg hst
    case inl he => exact he ▸ hi
    case inr he =>
      obtain ⟨_, hg', hst'⟩ := he
      exact hi.tail hg' hst'

-- The state after the given events, if each of them is allowed and possible.
def follow (next : σ → ε → Option σ) (guard : σ → ε → Prop) [∀ s ev, Decidable (guard s ev)] (s : σ) :
    List ε → Option σ
  | []        => some s
  | ev :: evs => if guard s ev then next s ev >>= (follow next guard · evs) else none

theorem of_follow {next : σ → ε → Option σ} [∀ s ev, Decidable (guard s ev)] {evs : List ε}
    (hn : ∀ {s ev s'}, next s ev = some s' → step s ev s') (h : follow next guard s evs = some s₁) :
    Run step guard s s₁ := by
  induction evs generalizing s
  case nil =>
    cases h
    exact refl
  case cons ev evs i =>
    simp only [follow] at h
    split at h
    case isTrue hg =>
      obtain ⟨s', hs, h⟩ := Option.bind_eq_some_iff.mp h
      exact (single hg (hn hs)).trans (i h)
    case isFalse => cases h

end Run

end Library

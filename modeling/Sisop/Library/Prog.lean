namespace Library

-- How a computation ends: it stops for good, or with an error code, or with a result; the last two
-- leave a state.
inductive Outcome (σ ε α : Type)
  | panic
  | error (e : ε) (s : σ)
  | ok (a : α) (s : σ)

-- Whether a run ends with a result for which `p` holds.
def Outcome.okAnd {σ ε α : Type} (p : α → σ → Bool) : Outcome σ ε α → Bool
  | .panic     => false
  | .error _ _ => false
  | .ok a s    => p a s

theorem Outcome.exists_of_okAnd {σ ε α : Type} {p : α → σ → Bool} {x : Outcome σ ε α}
    (h : x.okAnd p) : ∃ a s, x = .ok a s ∧ p a s := by
  cases x
  case panic => cases h
  case error => cases h
  case ok a s => exact ⟨a, s, rfl, h⟩

def Prog (σ ε α : Type) := σ → Outcome σ ε α

namespace Prog

variable {σ ε α β : Type}

instance : Monad (Prog σ ε) where
  pure a := fun s => .ok a s
  bind x f := fun s =>
    match x s with
    | .panic     => .panic
    | .error e s => .error e s
    | .ok a s    => f a s

def get : Prog σ ε σ := fun s => .ok s s

def modify (f : σ → σ) : Prog σ ε Unit := fun s => .ok () (f s)

def throw (e : ε) : Prog σ ε α := fun s => .error e s

def panic : Prog σ ε α := fun _ => .panic

-- Runs `x` and hands its error code to the program.
def attempt (x : Prog σ ε α) : Prog σ ε (Except ε α) := fun s =>
  match x s with
  | .panic     => .panic
  | .error e s => .ok (.error e) s
  | .ok a s    => .ok (.ok a) s

-- What has to hold of `s` for a run of `x` from `s` to end as `P`, `E` and `Q` say: `P` is whether it
-- may panic, so that `True` is partial and `False` is total correctness.
def wp (x : Prog σ ε α) (P : Prop) (E : ε → σ → Prop) (Q : α → σ → Prop) (s : σ) : Prop :=
  match x s with
  | .panic     => P
  | .error e s => E e s
  | .ok a s    => Q a s

variable {x : Prog σ ε α} {f : α → Prog σ ε β} {P P' : Prop} {E E' : ε → σ → Prop}
  {Q Q' : α → σ → Prop} {R : β → σ → Prop} {s s' : σ} {a : α} {e : ε}

@[simp] theorem wp_pure : (pure a : Prog σ ε α).wp P E Q s ↔ Q a s := Iff.rfl

@[simp] theorem wp_bind : (x >>= f).wp P E R s ↔ x.wp P E (fun a => (f a).wp P E R) s := by
  simp only [wp, bind]
  cases x s <;> rfl

@[simp] theorem wp_get {Q : σ → σ → Prop} : (get : Prog σ ε σ).wp P E Q s ↔ Q s s := Iff.rfl

@[simp] theorem wp_modify {g : σ → σ} {Q : Unit → σ → Prop} :
    (modify g : Prog σ ε Unit).wp P E Q s ↔ Q () (g s) := Iff.rfl

@[simp] theorem wp_throw : (throw e : Prog σ ε α).wp P E Q s ↔ E e s := Iff.rfl

@[simp] theorem wp_panic : (panic : Prog σ ε α).wp P E Q s ↔ P := Iff.rfl

@[simp] theorem wp_attempt {Q : Except ε α → σ → Prop} :
    x.attempt.wp P E Q s ↔ x.wp P (fun e => Q (.error e)) (fun a => Q (.ok a)) s := by
  simp only [wp, attempt]
  cases x s <;> rfl

theorem wp_ite {c : Prop} [Decidable c] {y : Prog σ ε α} :
    (if c then x else y).wp P E Q s ↔ (c → x.wp P E Q s) ∧ (¬c → y.wp P E Q s) := by
  by_cases h : c <;> simp [h]

-- The rule of consequence.
theorem wp.mono (h : x.wp P E Q s) (hp : P → P') (he : ∀ e s, E e s → E' e s)
    (hq : ∀ a s, Q a s → Q' a s) : x.wp P' E' Q' s := by
  revert h
  simp only [wp]
  cases x s
  case panic => exact hp
  case error => exact he _ _
  case ok => exact hq _ _

theorem wp.and (h : x.wp P E Q s) (h' : x.wp P' E' Q' s) :
    x.wp (P ∧ P') (fun e s => E e s ∧ E' e s) (fun a s => Q a s ∧ Q' a s) s := by
  revert h h'
  simp only [wp]
  cases x s <;> exact And.intro

theorem wp.ok (h : x.wp P E Q s) (hx : x s = .ok a s') : Q a s' := by
  simpa only [wp, hx] using h

theorem wp.error (h : x.wp P E Q s) (hx : x s = .error e s') : E e s' := by
  simpa only [wp, hx] using h

theorem wp_of_forall (he : ∀ e s, E e s) (hq : ∀ a s, Q a s) : x.wp True E Q s := by
  rw [wp]
  cases x s
  case panic => trivial
  case error => exact he _ _
  case ok => exact hq _ _

-- A run ends as it does.
theorem wp_eq : x.wp True (fun e s' => x s = .error e s') (fun a s' => x s = .ok a s') s := by
  rw [wp]
  split
  case h_1 => trivial
  case h_2 h => exact h
  case h_3 h => exact h

theorem bind_eq_ok {b : β} : (x >>= f) s = .ok b s' ↔ ∃ a s₁, x s = .ok a s₁ ∧ f a s₁ = .ok b s' := by
  simp only [bind]
  cases x s
  case panic => simp
  case error => simp
  case ok a s₁ =>
    simp only [Outcome.ok.injEq]
    constructor
    case mp => exact fun h => ⟨a, s₁, ⟨rfl, rfl⟩, h⟩
    case mpr =>
      rintro ⟨_, _, ⟨rfl, rfl⟩, h⟩
      exact h

-- Total correctness gives the result itself.
theorem wp.exists_ok (h : x.wp False (fun _ _ => False) Q s) : ∃ a s', x s = .ok a s' ∧ Q a s' := by
  revert h
  simp only [wp]
  cases x s
  case panic => exact False.elim
  case error => exact False.elim
  case ok a s' => exact fun h => ⟨a, s', rfl, h⟩

end Prog

end Library

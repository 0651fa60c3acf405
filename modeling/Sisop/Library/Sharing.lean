import Mathlib.Logic.Function.Basic

-- Frames that are mapped under several keys, and the store of values they stand for

namespace Library.Sharing

open Function

-- What a key may do with the frame it maps: `own` may write to it and is the only one to see it, `copy`
-- has to take a copy first, and a write of `share` is for all keys of the frame.
inductive Right
  | own
  | copy
  | share
  deriving DecidableEq

abbrev Table (κ φ : Type*) := κ → Option (φ × Right)

variable {κ φ β : Type*}

-- `E k k'` says that `k'` may map the frame that `k` owns.
structure Exclusive (m : Table κ φ) (E : κ → κ → Prop) : Prop where
  share : ∀ {k k' f r}, m k = some (f, .share) → m k' = some (f, r) → r = .share
  own   : ∀ {k k' f r}, m k = some (f, .own) → m k' = some (f, r) → k' ≠ k → r = .copy ∧ E k k'

inductive Cell (φ β : Type*)
  | own (v : β)
  | shared (f : φ)

-- The values: those of one key each, and those on a heap that several keys see.
structure Store (κ φ β : Type*) where
  cell : κ → Option (Cell φ β)
  heap : φ → β

namespace Store

variable (t : Store κ φ β)

def read (k : κ) : Option β :=
  match t.cell k with
  | none             => none
  | some (.own v)    => some v
  | some (.shared f) => some (t.heap f)

def clear (K : κ → Prop) [DecidablePred K] : Store κ φ β :=
  { t with cell := fun k => if K k then none else t.cell k }

variable [DecidableEq κ] [DecidableEq φ]

def write (k : κ) (g : β → β) : Store κ φ β :=
  match t.cell k with
  | none             => t
  | some (.own v)    => { t with cell := update t.cell k (some (.own (g v))) }
  | some (.shared f) => { t with heap := update t.heap f (g (t.heap f)) }

def copy (k k' : κ) : Store κ φ β := { t with cell := update t.cell k' (t.cell k) }

-- A new value under `k`, for `k` alone or on the heap at `f`.
def put (k : κ) (f : φ) (r : Right) (v : β) : Store κ φ β :=
  match r with
  | .share => ⟨update t.cell k (some (.shared f)), update t.heap f v⟩
  | _      => { t with cell := update t.cell k (some (.own v)) }

end Store

def cellOf (mem : φ → β) : Option (φ × Right) → Option (Cell φ β)
  | none             => none
  | some (f, .share) => some (.shared f)
  | some (f, _)      => some (.own (mem f))

-- The frames of `mem` hold the values of `t`.
structure Represents (m : Table κ φ) (mem : φ → β) (t : Store κ φ β) : Prop where
  cell : ∀ k, t.cell k = cellOf mem (m k)
  heap : ∀ {k f}, m k = some (f, .share) → t.heap f = mem f

variable {m m' : Table κ φ} {E E' : κ → κ → Prop} {mem : φ → β} {t : Store κ φ β} {k k' : κ} {f f' : φ}
  {r r' : Right} {v : β}

theorem cellOf_private (h : r ≠ .share) : cellOf mem (some (f, r)) = some (.own (mem f)) := by
  cases r
  case share => exact absurd rfl h
  all_goals rfl

-- A change of a frame is only seen by those who have it for themselves.
theorem cellOf_update [DecidableEq φ] {x : Option (φ × Right)} (h : ∀ r, x = some (f, r) → r = .share) :
    cellOf (update mem f v) x = cellOf mem x := by
  rcases x with _ | ⟨f₁, r₁⟩
  case none => rfl
  case some =>
    by_cases hr : r₁ = .share
    · subst hr
      rfl
    · have hne : f₁ ≠ f := by
        rintro rfl
        exact hr (h r₁ rfl)
      rw [cellOf_private hr, cellOf_private hr, update_of_ne hne]

namespace Exclusive

variable (h : Exclusive m E)

include h

theorem sub (hm : ∀ k, m' k = none ∨ m' k = m k) : Exclusive m' E := by
  have hs {k : κ} {x : φ × Right} (hk : m' k = some x) : m k = some x := by
    rcases hm k with hn | hn
    · rw [hn] at hk
      cases hk
    · rw [← hn, hk]
  exact ⟨fun h₁ h₂ => h.share (hs h₁) (hs h₂), fun h₁ h₂ => h.own (hs h₁) (hs h₂)⟩

theorem weaken (hE : ∀ {k k' f}, m k = some (f, .own) → m k' = some (f, .copy) → E k k' → E' k k') :
    Exclusive m E' := by
  refine ⟨h.share, fun h₁ h₂ hne => ?_⟩
  obtain ⟨rfl, he⟩ := h.own h₁ h₂ hne
  exact ⟨rfl, hE h₁ h₂ he⟩

variable [DecidableEq κ]

-- `k` gets a frame that no other key maps.
theorem fresh (hf : ∀ {k' r}, k' ≠ k → m k' ≠ some (f, r)) :
    Exclusive (update m k (some (f, r))) E := by
  refine ⟨fun {k₁ k₂ f₁ r₁} h₁ h₂ => ?share, fun {k₁ k₂ f₁ r₁} h₁ h₂ hne => ?own⟩
  case share =>
    by_cases hk₁ : k₁ = k
    · subst hk₁
      rw [update_self] at h₁
      cases h₁
      by_cases hk₂ : k₂ = k₁
      · subst hk₂
        rw [update_self] at h₂
        cases h₂
        rfl
      · rw [update_of_ne hk₂] at h₂
        exact absurd h₂ (hf hk₂)
    · rw [update_of_ne hk₁] at h₁
      by_cases hk₂ : k₂ = k
      · subst hk₂
        rw [update_self] at h₂
        cases h₂
        exact absurd h₁ (hf hk₁)
      · rw [update_of_ne hk₂] at h₂
        exact h.share h₁ h₂
  case own =>
    by_cases hk₁ : k₁ = k
    · subst hk₁
      rw [update_self] at h₁
      cases h₁
      rw [update_of_ne hne] at h₂
      exact absurd h₂ (hf hne)
    · rw [update_of_ne hk₁] at h₁
      by_cases hk₂ : k₂ = k
      · subst hk₂
        rw [update_self] at h₂
        cases h₂
        exact absurd h₁ (hf hk₁)
      · rw [update_of_ne hk₂] at h₂
        exact h.own h₁ h₂ hne

-- `k'` maps a frame that is for all to see.
theorem dup_share (hk : m k = some (f, .share)) : Exclusive (update m k' (some (f, .share))) E := by
  have hs {k₁ : κ} {x : φ × Right} (h₁ : update m k' (some (f, .share)) k₁ = some x) :
      x = (f, .share) ∨ m k₁ = some x := by
    by_cases hk₁ : k₁ = k'
    · subst hk₁
      rw [update_self] at h₁
      cases h₁
      exact .inl rfl
    · rw [update_of_ne hk₁] at h₁
      exact .inr h₁
  refine ⟨fun h₁ h₂ => ?share, fun {k₁ k₂ f₁ r₁} h₁ h₂ hne => ?own⟩
  case share =>
    rcases hs h₂ with h₂ | h₂
    · cases h₂
      rfl
    · rcases hs h₁ with h₁ | h₁
      · cases h₁
        exact h.share hk h₂
      · exact h.share h₁ h₂
  case own =>
    rcases hs h₁ with h₁ | h₁
    · cases h₁
    · rcases hs h₂ with h₂ | h₂
      · cases h₂
        cases h.share hk h₁
      · exact h.own h₁ h₂ hne

-- `k'` maps a frame of others, and takes a copy before it writes.
theorem dup_copy (hk : m k = some (f, r)) (hr : r ≠ .share)
    (ho : ∀ {k₁}, k₁ ≠ k' → m k₁ = some (f, .own) → E k₁ k') :
    Exclusive (update m k' (some (f, .copy))) E := by
  refine ⟨fun {k₁ k₂ f₁ r₁} h₁ h₂ => ?share, fun {k₁ k₂ f₁ r₁} h₁ h₂ hne => ?own⟩
  case share =>
    by_cases hk₁ : k₁ = k'
    · subst hk₁
      rw [update_self] at h₁
      cases h₁
    · rw [update_of_ne hk₁] at h₁
      by_cases hk₂ : k₂ = k'
      · subst hk₂
        rw [update_self] at h₂
        cases h₂
        exact absurd (h.share h₁ hk) hr
      · rw [update_of_ne hk₂] at h₂
        exact h.share h₁ h₂
  case own =>
    by_cases hk₁ : k₁ = k'
    · subst hk₁
      rw [update_self] at h₁
      cases h₁
    · rw [update_of_ne hk₁] at h₁
      by_cases hk₂ : k₂ = k'
      · subst hk₂
        rw [update_self] at h₂
        cases h₂
        exact ⟨rfl, ho hk₁ h₁⟩
      · rw [update_of_ne hk₂] at h₂
        exact h.own h₁ h₂ hne

-- An owner may give up its right.
theorem demote (hk : m k = some (f, r)) (hr : r ≠ .share) :
    Exclusive (update m k (some (f, .copy))) E :=
  h.dup_copy hk hr fun hne h₁ => (h.own h₁ hk hne.symm).2

end Exclusive

namespace Represents

variable (h : Represents m mem t)

include h

theorem read_eq : t.read k = (m k).map fun x => mem x.1 := by
  rw [Store.read, h.cell k]
  rcases hk : m k with _ | ⟨f, r⟩
  case none => rfl
  case some =>
    cases r
    case share => exact congrArg some (h.heap hk)
    all_goals rfl

theorem clear (K : κ → Prop) [DecidablePred K] :
    Represents (fun k => if K k then none else m k) mem (t.clear K) where
  cell k := by
    simp only [Store.clear]
    split
    · rfl
    · exact h.cell k
  heap := by
    intro k f hk
    split at hk
    · cases hk
    · exact h.heap hk

-- Frames that are not mapped may change.
theorem unmapped [DecidableEq φ] (hf : ∀ k r, m k ≠ some (f, r)) : Represents m (update mem f v) t where
  cell k := by rw [h.cell k, cellOf_update fun r hr => absurd hr (hf k r)]
  heap := by
    intro k f₁ hk
    have hne : f₁ ≠ f := by
      rintro rfl
      exact hf k _ hk
    rw [update_of_ne hne]
    exact h.heap hk

variable [DecidableEq κ]

-- `k'` maps the frame of `k`, in the same way if that is shared.
theorem copy (hk : m k = some (f, r)) (hr : r' = .share ↔ r = .share) :
    Represents (update m k' (some (f, r'))) mem (t.copy k k') where
  cell k₁ := by
    by_cases hk₁ : k₁ = k'
    · subst hk₁
      simp only [Store.copy, update_self, h.cell k, hk]
      by_cases hs : r = .share
      · rw [hr.mpr hs, hs]
      · rw [cellOf_private hs, cellOf_private (mt hr.mp hs)]
    · simp only [Store.copy, update_of_ne hk₁, h.cell k₁]
  heap := by
    intro k₁ f₁ h₁
    by_cases hk₁ : k₁ = k'
    · subst hk₁
      rw [update_self] at h₁
      cases h₁
      exact h.heap (hr.mp rfl ▸ hk)
    · rw [update_of_ne hk₁] at h₁
      exact h.heap h₁

-- `k` gets another frame with the same contents.
theorem replace (hk : m k = some (f, r)) (hr : r ≠ .share) (hr' : r' ≠ .share) (hf : mem f' = mem f) :
    Represents (update m k (some (f', r'))) mem t where
  cell k₁ := by
    by_cases hk₁ : k₁ = k
    · subst hk₁
      rw [update_self, h.cell k₁, hk, cellOf_private hr, cellOf_private hr', hf]
    · rw [update_of_ne hk₁, h.cell k₁]
  heap := by
    intro k₁ f₁ h₁
    by_cases hk₁ : k₁ = k
    · subst hk₁
      rw [update_self] at h₁
      cases h₁
      exact absurd rfl hr'
    · rw [update_of_ne hk₁] at h₁
      exact h.heap h₁

variable [DecidableEq φ]

-- A frame that only `k` maps.
theorem put (hf : ∀ {k' r}, k' ≠ k → m k' ≠ some (f, r)) :
    Represents (update m k (some (f, r))) (update mem f v) (t.put k f r v) where
  cell k₁ := by
    by_cases hk : k₁ = k
    · subst hk
      rw [update_self]
      cases r <;> simp [Store.put, cellOf]
    · rw [update_of_ne hk, cellOf_update fun r hr => absurd hr (hf hk), ← h.cell k₁]
      cases r <;> simp [Store.put, update_of_ne hk]
  heap := by
    intro k₁ f₁ h₁
    by_cases hk : k₁ = k
    · subst hk
      rw [update_self] at h₁
      cases h₁
      simp [Store.put]
    · rw [update_of_ne hk] at h₁
      have hne : f₁ ≠ f := by
        rintro rfl
        exact hf hk h₁
      rw [update_of_ne hne, ← h.heap h₁]
      cases r <;> simp [Store.put, update_of_ne hne]

variable (he : Exclusive m E) (g : β → β)

include he

theorem write (hk : m k = some (f, r)) (hr : r ≠ .copy)
    (hE : ∀ {k'}, E k k' → m k' ≠ some (f, .copy)) :
    Represents m (update mem f (g (mem f))) (t.write k g) := by
  have hc := h.cell k
  rw [hk] at hc
  cases r
  case copy => exact absurd rfl hr
  case own =>
    have hn {k₁ : κ} {r₁ : Right} (hne : k₁ ≠ k) : m k₁ ≠ some (f, r₁) := by
      intro h₁
      obtain ⟨rfl, he⟩ := he.own hk h₁ hne
      exact hE he h₁
    have hw : t.write k g = t.put k f .own (g (mem f)) := by
      simp only [Store.write, hc, cellOf, Store.put]
    rw [hw]
    have hu := h.put (v := g (mem f)) (r := .own) hn
    rwa [← hk, update_eq_self] at hu
  case share =>
    have hw : t.write k g = { t with heap := update t.heap f (g (t.heap f)) } := by
      simp only [Store.write, hc, cellOf]
    rw [hw]
    refine ⟨fun k₁ => ?cell, fun {k₁ f₁} h₁ => ?heap⟩
    case cell => exact (h.cell k₁).trans (cellOf_update fun r₁ h₁ => he.share hk h₁).symm
    case heap =>
      dsimp only
      by_cases hf : f₁ = f
      · subst hf
        simp [h.heap hk]
      · rw [update_of_ne hf, update_of_ne hf]
        exact h.heap h₁

-- A write of an owner that `k'` sees as well.
theorem write_copy (hk : m k = some (f, .own)) (hk' : m k' = some (f, .copy))
    (hE : ∀ {k₁}, E k k₁ → k₁ = k') :
    Represents m (update mem f (g (mem f))) ((t.write k g).copy k k') := by
  have hne : k ≠ k' := by
    rintro rfl
    rw [hk] at hk'
    cases hk'
  -- Without `k'` it is a write of the only owner, and then `k'` maps the frame again.
  have hm : (fun k₁ => if k₁ = k' then none else m k₁) = update m k' none := by
    funext k₁
    by_cases hk₁ : k₁ = k' <;> simp [hk₁]
  have hs : Exclusive (update m k' none) E := he.sub fun k₁ => by
    by_cases hk₁ : k₁ = k'
    · exact .inl (by rw [hk₁, update_self])
    · exact .inr (update_of_ne hk₁ ..)
  have hr := h.clear (· = k')
  rw [hm] at hr
  have hk₀ : update m k' none k = some (f, .own) := by rw [update_of_ne hne, hk]
  have hw := hr.write hs g hk₀ (by decide) fun {k₁} h₁ h₂ => by
    rw [hE h₁, update_self] at h₂
    cases h₂
  have hr' : Right.copy = .share ↔ Right.own = .share := by decide
  have hc : Represents (update (update m k' none) k' (some (f, .copy))) (update mem f (g (mem f)))
      (((t.clear (· = k')).write k g).copy k k') := hw.copy hk₀ hr'
  rw [update_idem, ← hk', update_eq_self] at hc
  have hcell : t.cell k = some (.own (mem f)) := by rw [h.cell k, hk, cellOf_private (by decide)]
  have ht : ((t.clear (· = k')).write k g).copy k k' = (t.write k g).copy k k' := by
    simp only [Store.write, Store.clear, if_neg hne, hcell, Store.copy, update_self]
    congr 1
    funext k₁
    by_cases hk₁ : k₁ = k'
    · rw [hk₁, update_self, update_self]
    · rw [update_of_ne hk₁, update_of_ne hk₁]
      by_cases hk₂ : k₁ = k
      · rw [hk₂, update_self, update_self]
      · rw [update_of_ne hk₂, update_of_ne hk₂, if_neg hk₁]
  rwa [ht] at hc

end Represents

end Library.Sharing

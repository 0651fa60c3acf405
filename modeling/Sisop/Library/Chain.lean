import Mathlib.Data.List.Nodup
import Mathlib.Logic.Function.Basic

namespace Library

variable {α : Type*}

-- The nodes visited by following the links `next` from a head pointer until a null pointer.
inductive Chain (next : α → Option α) : Option α → List α → Prop
  | nil : Chain next none []
  | cons {a l} : Chain next (next a) l → Chain next (some a) (a :: l)

namespace Chain

variable {next next' : α → Option α} {head : Option α} {a : α} {l l₁ l₂ : List α}

theorem head_eq : Chain next head l → head = l.head?
  | nil    => rfl
  | cons _ => rfl

theorem deterministic (h₁ : Chain next head l₁) (h₂ : Chain next head l₂) : l₁ = l₂ := by
  induction h₁ generalizing l₂
  case nil          => cases h₂; rfl
  case cons a l _ i => cases h₂ with | cons h => rw [i h]

theorem suffix_of_mem (h : Chain next head l) (ha : a ∈ l) :
    ∃ l', Chain next (next a) l' ∧ l'.length < l.length := by
  induction h
  case nil => cases ha
  case cons b l hc i =>
    cases ha
    case head => exact ⟨l, hc, by simp⟩
    case tail ha =>
      obtain ⟨l', hl', hn⟩ := i ha
      exact ⟨l', hl', by simp only [List.length_cons]; omega⟩

-- A chain that ends visits no node twice, because its links are deterministic.
theorem nodup (h : Chain next head l) : l.Nodup := by
  induction h
  case nil => exact List.nodup_nil
  case cons a l hc i =>
    refine List.nodup_cons.mpr ⟨fun ha => ?_, i⟩
    obtain ⟨l', hl', hn⟩ := hc.suffix_of_mem ha
    have := hl'.deterministic hc
    simp [this] at hn

theorem congr (h : Chain next head l) (e : ∀ a ∈ l, next' a = next a) : Chain next' head l := by
  induction h
  case nil => exact nil
  case cons a l hc i =>
    refine cons ?_
    rw [e a List.mem_cons_self]
    exact i fun b hb => e b (List.mem_cons_of_mem _ hb)

-- Only the last node of a chain has no link.
theorem next_eq_none (h : Chain next head l) (ha : a ∈ l) : next a = none ↔ l.getLast? = some a := by
  induction h
  case nil => cases ha
  case cons b l hc i =>
    cases hl : l
    case nil =>
      subst hl
      have hab : a = b := List.mem_singleton.mp ha
      cases hn : next b
      case none   => simp [hab, hn]
      case some c => rw [hn] at hc; cases hc
    case cons c l' =>
      rw [List.getLast?_cons_cons, ← hl]
      rcases List.mem_cons.mp ha with rfl | ha
      · have hn := (List.nodup_cons.mp (cons hc).nodup).left
        have hb : next a = some c := by rw [hc.head_eq, hl]; rfl
        exact iff_of_false (by simp [hb]) fun hg => hn (List.mem_of_getLast? hg)
      · exact i ha

variable [DecidableEq α]

theorem update_notMem {o : Option α} (h : Chain next head l) (ha : a ∉ l) :
    Chain (Function.update next a o) head l :=
  h.congr fun _ hb => Function.update_of_ne (ne_of_mem_of_not_mem hb ha) ..

theorem push (h : Chain next head l) (ha : a ∉ l) :
    Chain (Function.update next a head) (some a) (a :: l) := by
  refine cons ?_
  rw [Function.update_self]
  exact h.congr fun b hb => Function.update_of_ne (ne_of_mem_of_not_mem hb ha) ..

theorem pop {o : Option α} (h : Chain next (some a) l) :
    ∃ l', l = a :: l' ∧ a ∉ l' ∧ Chain (Function.update next a o) (next a) l' := by
  cases h with
  | cons hc =>
    have hn := (List.nodup_cons.mp (cons hc).nodup).left
    exact ⟨_, rfl, hn, hc.update_notMem hn⟩

-- Where the link of one node of a chain is changed, the chain still leads to this node.
theorem mem_of_update {o : Option α} (h₁ : Chain next head l₁) (ha : a ∈ l₁)
    (h₂ : Chain (Function.update next a o) head l₂) : a ∈ l₂ := by
  induction h₁ generalizing l₂
  case nil => cases ha
  case cons b l h₁ i =>
    cases h₂ with
    | cons h₂ =>
      rcases List.mem_cons.mp ha with rfl | ha
      · exact List.mem_cons_self
      by_cases hb : b = a
      · exact hb ▸ List.mem_cons_self
      · rw [Function.update_of_ne hb] at h₂
        exact List.mem_cons_of_mem _ (i ha h₂)

end Chain

end Library

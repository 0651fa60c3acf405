import Mathlib.Data.Fintype.Card
import Mathlib.Data.List.Count
import Mathlib.Data.List.Nodup

namespace Library

open Function

variable {ρ π : Type*} [Fintype ρ] [DecidableEq π]

-- The references whose target is `p`. A reference `r` with `tgt r = none` is a null reference.
def refs (tgt : ρ → Option π) (p : π) : Finset ρ :=
  Finset.univ.filter (tgt · = some p)

def count (tgt : ρ → Option π) (p : π) : Nat :=
  (refs tgt p).card

section Count

variable {tgt : ρ → Option π} {p q : π} {r : ρ}

@[simp] theorem mem_refs : r ∈ refs tgt p ↔ tgt r = some p := by
  simp [refs]

theorem count_eq_zero : count tgt p = 0 ↔ ∀ r, tgt r ≠ some p := by
  simp [count, Finset.card_eq_zero, Finset.eq_empty_iff_forall_notMem]

theorem count_pos (h : tgt r = some p) : 0 < count tgt p :=
  Finset.card_pos.mpr ⟨r, mem_refs.mpr h⟩

theorem count_eq_one (h : tgt r = some p) (u : ∀ r', tgt r' = some p → r' = r) :
    count tgt p = 1 := by
  refine Finset.card_eq_one.mpr ⟨r, ?_⟩
  ext r'
  simp only [mem_refs, Finset.mem_singleton]
  exact ⟨u r', (· ▸ h)⟩

-- The references of one kind, when there are no others.
theorem count_comp {ι : Type*} [Fintype ι] {f : ι → ρ} (hf : Injective f)
    (h : ∀ r, tgt r = some p → ∃ i, f i = r) : count (tgt ∘ f) p = count tgt p := by
  refine Finset.card_bij (fun i _ => f i) ?_ (fun _ _ _ _ hi => hf hi) ?_
  · intro i hi
    exact mem_refs.mpr (show (tgt ∘ f) i = some p by simpa using hi)
  · intro r hr
    have hr : tgt r = some p := mem_refs.mp hr
    obtain ⟨i, hi⟩ := h r hr
    subst hi
    exact ⟨i, mem_refs.mpr hr, rfl⟩

-- If each reference to `p` or `q` comes with one to `d`, then `d` has at least as many references.
theorem count_add_le {f : ρ → ρ} {d : π} (hf : Injective f) (hne : p ≠ q)
    (h : ∀ r, tgt r = some p ∨ tgt r = some q → tgt (f r) = some d) :
    count tgt p + count tgt q ≤ count tgt d := by
  have hdisj : Disjoint (refs tgt p) (refs tgt q) := by
    rw [Finset.disjoint_left]
    intro r hp hq
    rw [mem_refs] at hp hq
    exact hne (Option.some.inj (hp.symm.trans hq))
  rw [count, count, ← Finset.card_disjUnion _ _ hdisj]
  refine Finset.card_le_card_of_injOn f (fun r hr => ?_) hf.injOn
  rw [Finset.mem_coe, Finset.mem_disjUnion, mem_refs, mem_refs] at hr
  exact mem_refs.mpr (h r hr)

variable [DecidableEq ρ]

theorem refs_update_some (h : tgt r = none) :
    refs (update tgt r (some p)) q = if q = p then insert r (refs tgt p) else refs tgt q := by
  split
  all_goals
    ext r'
    by_cases hr : r' = r <;> simp_all [eq_comm]

theorem count_update_some (h : tgt r = none) :
    count (update tgt r (some p)) q = count tgt q + if q = p then 1 else 0 := by
  rw [count, refs_update_some h]
  split
  case isTrue hq =>
    subst hq
    exact Finset.card_insert_of_notMem (by simp [h])
  case isFalse => rfl

theorem count_update_none (h : tgt r = some p) :
    count tgt q = count (update tgt r none) q + if q = p then 1 else 0 := by
  have : count (update (update tgt r none) r (some p)) q =
      count (update tgt r none) q + if q = p then 1 else 0 := count_update_some (update_self ..)
  rwa [update_idem, ← h, update_eq_self] at this

end Count

-- The bookkeeping of a reference counting allocator over the managed objects `M`. A counter may be
-- ahead of the stored references by the references in `own`, which are held in local variables,
-- and an unreferenced object may be off the free list because it is in `hand`.
structure Balanced (M : π → Prop) (tgt : ρ → Option π) (cnt : π → Nat) (free own hand : List π) :
    Prop where
  cntEq       : ∀ {p}, M p → cnt p = count tgt p + own.count p
  memFree     : ∀ {p}, p ∈ free ↔ M p ∧ count tgt p = 0 ∧ p ∉ own ∧ p ∉ hand
  tgtManaged  : ∀ {r p}, tgt r = some p → M p
  ownManaged  : ∀ {p}, p ∈ own → M p
  handUnref   : ∀ {p}, p ∈ hand → M p ∧ count tgt p = 0 ∧ p ∉ own
  handNodup   : hand.Nodup

namespace Balanced

variable {M : π → Prop} {tgt : ρ → Option π} {cnt : π → Nat} {free own hand : List π} {p : π} {r : ρ}

theorem cnt_hand (b : Balanced M tgt cnt free own hand) (h : p ∈ hand) : cnt p = 0 := by
  obtain ⟨hm, hc, ho⟩ := b.handUnref h
  rw [b.cntEq hm, hc, List.count_eq_zero_of_not_mem ho]

theorem cnt_pos (b : Balanced M tgt cnt free own hand) (h : tgt r = some p) : 0 < cnt p := by
  have := count_pos h
  have := b.cntEq (b.tgtManaged h)
  omega

theorem notMem_free (b : Balanced M tgt cnt free own hand) (h : tgt r = some p) : p ∉ free := by
  intro hf
  have := count_pos h
  obtain ⟨_, hc, _⟩ := b.memFree.mp hf
  omega

theorem notMem_hand (b : Balanced M tgt cnt free own hand) (h : tgt r = some p) : p ∉ hand := by
  intro hf
  have := count_pos h
  obtain ⟨_, hc, _⟩ := b.handUnref hf
  omega

-- The counters of unmanaged objects do not matter.
theorem congr {cnt' : π → Nat} (b : Balanced M tgt cnt free own hand)
    (h : ∀ {p}, M p → cnt' p = cnt p) : Balanced M tgt cnt' free own hand :=
  { b with cntEq := fun hm => (h hm).trans (b.cntEq hm) }

-- An object leaves the free list.
theorem take (b : Balanced M tgt cnt (p :: free) own hand) (h : p ∉ free) :
    Balanced M tgt cnt free own (p :: hand) where
  cntEq      := b.cntEq
  tgtManaged := b.tgtManaged
  ownManaged := b.ownManaged
  memFree {q} := by
    have hq := b.memFree (p := q)
    by_cases hp : q = p <;> simp_all
  handUnref {q} hq := by
    cases hq
    case head    =>
      obtain ⟨hm, hc, ho, _⟩ := b.memFree.mp List.mem_cons_self
      exact ⟨hm, hc, ho⟩
    case tail hq => exact b.handUnref hq
  handNodup := by
    obtain ⟨_, _, _, hh⟩ := b.memFree.mp List.mem_cons_self
    exact List.nodup_cons.mpr ⟨hh, b.handNodup⟩

-- An object that was never referenced goes back to the free list.
theorem give (b : Balanced M tgt cnt free own (p :: hand)) :
    Balanced M tgt cnt (p :: free) own hand where
  cntEq      := b.cntEq
  tgtManaged := b.tgtManaged
  ownManaged := b.ownManaged
  memFree {q} := by
    have hq := b.memFree (p := q)
    obtain ⟨hm, hc, ho⟩ := b.handUnref List.mem_cons_self
    have hh := (List.nodup_cons.mp b.handNodup).left
    by_cases hp : q = p <;> simp_all
  handUnref hq := b.handUnref (List.mem_cons_of_mem _ hq)
  handNodup    := (List.nodup_cons.mp b.handNodup).right

-- The first reference to a fresh object is counted.
theorem adopt (b : Balanced M tgt cnt free own (p :: hand)) :
    Balanced M tgt (update cnt p 1) free (p :: own) hand := by
  obtain ⟨hm, hc, ho⟩ := b.handUnref List.mem_cons_self
  have hh := (List.nodup_cons.mp b.handNodup).left
  refine { b with cntEq := ?_, memFree := ?_, ownManaged := ?_, handUnref := ?_, handNodup := ?_ }
  · intro q hq
    by_cases hp : q = p
    · subst hp
      simp [hc, List.count_eq_zero_of_not_mem ho]
    · rw [update_of_ne hp, b.cntEq hq, List.count_cons_of_ne (Ne.symm hp)]
  · intro q
    have hq := b.memFree (p := q)
    by_cases hp : q = p <;> simp_all
  · intro q hq
    cases hq
    case head    => exact hm
    case tail hq => exact b.ownManaged hq
  · intro q hq
    obtain ⟨hm, hc, ho⟩ := b.handUnref (List.mem_cons_of_mem _ hq)
    exact ⟨hm, hc, by simp [ho, ne_of_mem_of_not_mem hq hh]⟩
  · exact (List.nodup_cons.mp b.handNodup).right

-- A further reference to an object that is already referenced is counted.
theorem retain (b : Balanced M tgt cnt free own hand) (h : tgt r = some p) :
    Balanced M tgt (update cnt p (cnt p + 1)) free (p :: own) hand := by
  have hc := count_pos h
  have hm := b.tgtManaged h
  refine { b with cntEq := ?_, memFree := ?_, ownManaged := ?_, handUnref := ?_ }
  · intro q hq
    by_cases hp : q = p
    · subst hp
      rw [update_self, b.cntEq hq, List.count_cons_self]
      omega
    · rw [update_of_ne hp, b.cntEq hq, List.count_cons_of_ne (Ne.symm hp)]
  · intro q
    have hq := b.memFree (p := q)
    by_cases hp : q = p
    · subst hp
      simp [b.notMem_free h]
    · simp_all
  · intro q hq
    cases hq
    case head    => exact hm
    case tail hq => exact b.ownManaged hq
  · intro q hq
    obtain ⟨hm, hc, ho⟩ := b.handUnref hq
    exact ⟨hm, hc, by simp [ho, ne_of_mem_of_not_mem hq (b.notMem_hand h)]⟩

-- A counted reference is dropped, and the object freed if it was the last one.
theorem release (b : Balanced M tgt cnt free (p :: own) hand) :
    Balanced M tgt (update cnt p (cnt p - 1)) (if cnt p - 1 = 0 then p :: free else free) own hand
    := by
  have hm := b.ownManaged List.mem_cons_self
  have hcnt := b.cntEq hm
  rw [List.count_cons_self] at hcnt
  refine { b with cntEq := ?_, memFree := ?_, ownManaged := ?_, handUnref := ?_ }
  · intro q hq
    by_cases hp : q = p
    · subst hp
      rw [update_self]
      omega
    · rw [update_of_ne hp, b.cntEq hq, List.count_cons_of_ne (Ne.symm hp)]
  · intro q
    have hq := b.memFree (p := q)
    have hh : p ∉ hand := fun h => (b.handUnref h).right.right List.mem_cons_self
    by_cases hp : q = p
    case pos =>
      subst hp
      have hf : q ∉ free := fun h => (b.memFree.mp h).right.right.left List.mem_cons_self
      have ho : q ∉ own ↔ own.count q = 0 := List.count_eq_zero.symm
      split
      case isTrue h =>
        simp only [List.mem_cons_self, hm, hh, ho, not_false_eq_true, and_true, true_and, true_iff]
        omega
      case isFalse h =>
        simp only [hf, hm, hh, ho, not_false_eq_true, and_true, true_and, false_iff]
        omega
    case neg => split <;> simp_all
  · exact fun hq => b.ownManaged (List.mem_cons_of_mem _ hq)
  · intro q hq
    obtain ⟨hm, hc, ho⟩ := b.handUnref hq
    exact ⟨hm, hc, fun h => ho (List.mem_cons_of_mem _ h)⟩

variable [DecidableEq ρ]

-- A counted reference is written to a null reference.
theorem store (b : Balanced M tgt cnt free (p :: own) hand) (h : tgt r = none) :
    Balanced M (update tgt r (some p)) cnt free own hand := by
  have hm := b.ownManaged List.mem_cons_self
  have hh : p ∉ hand := fun h => (b.handUnref h).right.right List.mem_cons_self
  have hcount (q) : count (update tgt r (some p)) q = count tgt q + if q = p then 1 else 0 :=
    count_update_some h
  refine { cntEq := ?_, memFree := ?_, tgtManaged := ?_, ownManaged := ?_, handUnref := ?_,
           handNodup := b.handNodup }
  · intro q hq
    rw [b.cntEq hq, hcount, List.count_cons]
    by_cases hp : q = p
    · simp [hp]
      omega
    · simp [hp, Ne.symm hp]
  · intro q
    rw [b.memFree, hcount]
    by_cases hp : q = p <;> simp [hp]
  · intro r' q hq
    by_cases hr : r' = r
    · subst hr
      simp only [update_self, Option.some.injEq] at hq
      exact hq ▸ hm
    · rw [update_of_ne hr] at hq
      exact b.tgtManaged hq
  · exact fun hq => b.ownManaged (List.mem_cons_of_mem _ hq)
  · intro q hq
    obtain ⟨hm, hc, ho⟩ := b.handUnref hq
    have hp : q ≠ p := ne_of_mem_of_not_mem hq hh
    exact ⟨hm, by simp [hcount, hc, hp], fun h => ho (List.mem_cons_of_mem _ h)⟩

-- A stored reference is overwritten with null, but still counted.
theorem clear (b : Balanced M tgt cnt free own hand) (h : tgt r = some p) :
    Balanced M (update tgt r none) cnt free (p :: own) hand := by
  have hm := b.tgtManaged h
  have hf := b.notMem_free h
  have hh := b.notMem_hand h
  have hcount (q) : count tgt q = count (update tgt r none) q + if q = p then 1 else 0 :=
    count_update_none h
  refine { cntEq := ?_, memFree := ?_, tgtManaged := ?_, ownManaged := ?_, handUnref := ?_,
           handNodup := b.handNodup }
  · intro q hq
    rw [b.cntEq hq, hcount, List.count_cons]
    by_cases hp : q = p
    · simp [hp]
      omega
    · simp [hp, Ne.symm hp]
  · intro q
    by_cases hp : q = p
    · subst hp
      simp [hf]
    · simp [b.memFree, hcount q, hp]
  · intro r' q hq
    by_cases hr : r' = r
    · simp [hr] at hq
    · rw [update_of_ne hr] at hq
      exact b.tgtManaged hq
  · intro q hq
    cases hq
    case head    => exact hm
    case tail hq => exact b.ownManaged hq
  · intro q hq
    obtain ⟨hm, hc, ho⟩ := b.handUnref hq
    have hp : q ≠ p := ne_of_mem_of_not_mem hq hh
    rw [hcount] at hc
    exact ⟨hm, by omega, by simp [ho, hp]⟩

end Balanced

end Library

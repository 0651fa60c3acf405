import Sisop.Kern.Sample
import Sisop.Kern.Theorems.PageInv

-- What `page_free` does with pages that are free already.

namespace Kern

open Inc Function Library State

variable {s s' s₁ : State} {fl : List Nat} {p q : Nat} {f : Word}

-- A call of the page allocator that does not panic, with the page that `page_alloc` returns.
inductive PageEvent
  | alloc (p : Nat)
  | free (p : Nat)
  -- A `page_alloc` that returns null, and what else the kernel does.
  | other
  deriving DecidableEq

inductive PageStep : State → PageEvent → State → Prop
  | alloc {s s' : State} {p : Nat} {f : Word} (h : pageAlloc s f = (some p, s')) :
    PageStep s (.alloc p) s'
  | free {s s' : State} {p : Nat} (h : pageFree s p = some s') : PageStep s (.free p) s'
  | other {s s' : State} (hl : s'.ppLink = s.ppLink) (hf : s'.pageFreeList = s.pageFreeList) :
    PageStep s .other s'

def FreeList (s : State) (fl : List Nat) : Prop := Chain s.ppLink s.pageFreeList fl

-- The runs whose steps are allowed by `guard`, with their events.
inductive PageRun (guard : State → PageEvent → Prop) (s : State) : List PageEvent → State → Prop
  | refl : PageRun guard s [] s
  | tail {s₁ s₂ : State} {evs : List PageEvent} {ev : PageEvent} : PageRun guard s evs s₁ →
    guard s₁ ev → PageStep s₁ ev s₂ → PageRun guard s (evs ++ [ev]) s₂

-- Only the last page of the free list may not be freed.
def NotLast (s : State) (ev : PageEvent) : Prop :=
  ∀ p fl, ev = .free p → FreeList s fl → fl.getLast? ≠ some p

-- No page is returned twice, unless it is freed in between.
def AllocsOnce (evs : List PageEvent) : Prop :=
  ∀ l₁ l₂ l₃ p, evs = l₁ ++ .alloc p :: (l₂ ++ .alloc p :: l₃) → .free p ∈ l₂

-- The page has been returned and not been freed since.
def InUse (evs : List PageEvent) (p : Nat) : Prop :=
  ∃ l₁ l₂, evs = l₁ ++ .alloc p :: l₂ ∧ .free p ∉ l₂

structure ListKept (s : State) (evs : List PageEvent) : Prop where
  acyclic : ∃ fl, FreeList s fl
  once    : AllocsOnce evs

namespace FreeList

theorem nodup (h : FreeList s fl) : fl.Nodup := Chain.nodup h

-- `page_free` notices that a page is free, unless it is the last one on the list.
theorem pageFree_eq_none (h : FreeList s fl) (hp : p ∈ fl) :
    pageFree s p = none ↔ ¬(fl.getLast? = some p ∧ (s.pages p).ppRef = 0#16) := by
  have hl := h.next_eq_none hp
  simp only [State.ppLink] at hl
  simp only [pageFree, ne_eq, hl]
  by_cases hr : (s.pages p).ppRef = 0#16
  · simp [hr]
  · simp [hr]

theorem pageAlloc (h : FreeList s fl) (ha : pageAlloc s f = (some p, s')) :
    ∃ l, fl = p :: l ∧ p ∉ l ∧ FreeList s' l := by
  simp only [Kern.pageAlloc] at ha
  cases hp : s.pageFreeList
  case none   => simp [hp] at ha
  case some q =>
    rw [FreeList, hp] at h
    obtain ⟨l, hl, hn, hc⟩ := h.pop (o := none)
    simp only [hp, Prod.mk.injEq, Option.some.injEq] at ha
    obtain ⟨rfl, rfl⟩ := ha
    refine ⟨l, hl, hn, ?_⟩
    let s₁ := (s.setPageFreeList (s.pages q).ppLink).setPage q { s.pages q with ppLink := none }
    have hlink : s₁.ppLink = update s.ppLink q none := setPage_ppLink
    have hk : FreeList s₁ l := by
      rw [FreeList, hlink]
      exact hc
    split
    · exact hk
    · exact hk

theorem pageFree (h : FreeList s fl) (hp : p ∉ fl) (hf : pageFree s p = some s') :
    FreeList s' (p :: fl) := by
  rw [pageFree_eq_some hf, FreeList, link_ppLink]
  exact h.push hp

-- A page that is on the list and freed again is followed by itself sooner or later.
theorem not_freed_twice (h : FreeList s fl) (hp : p ∈ fl) (hf : Kern.pageFree s p = some s') :
    ¬∃ fl', FreeList s' fl' := by
  rintro ⟨fl', h'⟩
  have hs := pageFree_eq_some hf
  have hlink : s'.ppLink = update s.ppLink p s.pageFreeList := hs ▸ link_ppLink
  have hhead : s'.pageFreeList = some p := hs ▸ rfl
  rw [FreeList, hhead] at h'
  obtain ⟨l', hl, hn, hc⟩ := h'.pop (o := s.pageFreeList)
  -- Behind `p` there is the old list, up to `p` again.
  rw [hlink, update_self, update_idem] at hc
  exact hn (h.mem_of_update hp hc)

end FreeList

-- What the events of a run say about the pages on the list.
structure ListInv (s : State) (evs : List PageEvent) (fl : List Nat) : Prop where
  chain : FreeList s fl
  once  : AllocsOnce evs
  inUse : ∀ {p}, InUse evs p → p ∉ fl

section Events

variable {evs : List PageEvent} {ev : PageEvent}

theorem InUse.of_append (h : InUse (evs ++ [ev]) p) : ev = .alloc p ∨ InUse evs p ∧ ev ≠ .free p := by
  obtain ⟨l₁, l₂, he, hn⟩ := h
  rcases List.eq_nil_or_concat l₂ with rfl | ⟨l, x, rfl⟩
  · have hx := (List.append_inj' he rfl).right
    exact .inl (List.singleton_inj.mp hx)
  · rw [List.concat_eq_append] at he hn
    have ha : l₁ ++ .alloc p :: (l ++ [x]) = (l₁ ++ .alloc p :: l) ++ [x] := by simp
    obtain ⟨he, hx⟩ := List.append_inj' (he.trans ha) rfl
    rw [List.mem_append, not_or, ← hx] at hn
    exact .inr ⟨⟨l₁, l, he, hn.left⟩, fun hc => hn.right (hc ▸ List.mem_singleton_self _)⟩

theorem AllocsOnce.append (h : AllocsOnce evs) (hp : ∀ {p}, ev = .alloc p → ¬InUse evs p) :
    AllocsOnce (evs ++ [ev]) := by
  intro l₁ l₂ l₃ p he
  rcases List.eq_nil_or_concat l₃ with rfl | ⟨l, x, rfl⟩
  · have ha : l₁ ++ .alloc p :: (l₂ ++ [.alloc p]) = (l₁ ++ .alloc p :: l₂) ++ [.alloc p] := by simp
    obtain ⟨he, hx⟩ := List.append_inj' (he.trans ha) rfl
    by_contra hn
    exact hp (List.singleton_inj.mp hx) ⟨l₁, l₂, he, hn⟩
  · rw [List.concat_eq_append] at he
    have ha : l₁ ++ .alloc p :: (l₂ ++ .alloc p :: (l ++ [x])) =
      (l₁ ++ .alloc p :: (l₂ ++ .alloc p :: l)) ++ [x] := by simp
    exact h l₁ l₂ l p (List.append_inj' (he.trans ha) rfl).left

theorem ListInv.nil (h : FreeList s fl) : ListInv s [] fl where
  chain := h
  once  := by
    intro l₁ l₂ l₃ p he
    simp at he
  inUse := by
    rintro p ⟨l₁, l₂, he, _⟩
    simp at he

theorem ListInv.step (i : ListInv s evs fl) (hg : NotLast s ev) (h : PageStep s ev s') :
    ∃ fl', ListInv s' (evs ++ [ev]) fl' := by
  cases h
  case alloc q f h =>
    obtain ⟨l, rfl, hn, hc⟩ := i.chain.pageAlloc h
    refine ⟨l, hc, i.once.append fun hq hu => ?_, fun {p} hu hp => ?_⟩
    · cases hq
      exact i.inUse hu List.mem_cons_self
    · rcases hu.of_append with hq | ⟨hu, _⟩
      · cases hq
        exact hn hp
      · exact i.inUse hu (List.mem_cons_of_mem _ hp)
  case free q h =>
    -- A page on the list would be the last one.
    have hq : q ∉ fl := fun hq => by
      have hne : pageFree s q ≠ none := by simp [h]
      rw [ne_eq, i.chain.pageFree_eq_none hq, not_not] at hne
      exact hg q fl rfl i.chain hne.left
    refine ⟨q :: fl, i.chain.pageFree hq h, i.once.append fun hc => (by cases hc), fun {p} hu hp => ?_⟩
    obtain ⟨hu, hne⟩ := hu.of_append.resolve_left (by simp)
    rcases List.mem_cons.mp hp with rfl | hp
    · exact hne rfl
    · exact i.inUse hu hp
  case other hl hf =>
    refine ⟨fl, ?_, i.once.append fun hc => (by cases hc), fun {p} hu => ?_⟩
    · rw [FreeList, hl, hf]
      exact i.chain
    · exact i.inUse (hu.of_append.resolve_left (by simp)).left

theorem PageRun.listInv (h : FreeList s fl) (r : PageRun NotLast s evs s') :
    ∃ fl', ListInv s' evs fl' := by
  induction r
  case refl            => exact ⟨fl, .nil h⟩
  case tail r hg hs hi =>
    obtain ⟨fl', i⟩ := hi
    exact i.step hg hs

end Events

-- While the last page of the free list is not freed, the list stays a list and no page is returned
-- twice. There `page_free` notices exactly the pages on the list that are not its last one, and if it
-- frees that one the list is a list no more.
theorem page_free_exact {evs : List PageEvent} (h : FreeList s fl) (r : PageRun NotLast s evs s') :
    ListKept s' evs ∧ ∀ fl' p, FreeList s' fl' → p ∈ fl' →
      (pageFree s' p = none ↔ ¬(fl'.getLast? = some p ∧ (s'.pages p).ppRef = 0#16)) ∧
        ∀ s₁, pageFree s' p = some s₁ → ¬∃ fl₁, FreeList s₁ fl₁ := by
  obtain ⟨fl', i⟩ := r.listInv h
  refine ⟨⟨⟨fl', i.chain⟩, i.once⟩, fun fl' p hc hp => ⟨hc.pageFree_eq_none hp, fun s₁ hf => ?_⟩⟩
  exact hc.not_freed_twice hp hf

-- The free list holds the page `Sample.first` only.
def Sample.oneFree : State :=
  (bootState machine fun _ _ => 0#32).setPageFreeList (some first)

theorem Sample.freeList_oneFree : FreeList oneFree [first] := .cons .nil

theorem page_free_exact_alloc : ∃ s, PageRun NotLast Sample.oneFree [.alloc Sample.first] s ∧
    ListKept s [.alloc Sample.first] :=
  have r₀ : PageRun NotLast Sample.oneFree [] Sample.oneFree := .refl
  have r := r₀.tail (fun _ _ h => PageEvent.noConfusion h) (PageStep.alloc (f := 0#32) rfl)
  ⟨_, r, (page_free_exact Sample.freeList_oneFree r).left⟩

-- The last free page is freed again, and then returned twice.
theorem not_page_free_exact : ¬∀ {s fl}, FreeList s fl → (∀ p ∈ fl, pageFree s p = none) ∧
    ∀ evs s', PageRun (fun _ _ => True) s evs s' → ListKept s' evs := by
  intro h
  have r₀ : PageRun (fun _ _ => True) Sample.oneFree [] Sample.oneFree := .refl
  have r₁ := r₀.tail trivial (PageStep.free (p := Sample.first) rfl)
  have r₂ := r₁.tail trivial (PageStep.alloc (f := 0#32) rfl)
  have r  := r₂.tail trivial (PageStep.alloc (f := 0#32) rfl)
  have ho := ((h Sample.freeList_oneFree).right _ _ r).once [.free Sample.first] [] []
  exact absurd (ho Sample.first rfl) List.not_mem_nil

end Kern

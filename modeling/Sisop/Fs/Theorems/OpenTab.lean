import Sisop.Fs.Serv
import Sisop.Fs.Theorems.Confined
import Sisop.Library.Run

namespace Fs

open Inc Library Function

-- The table with what has been handed out: for the `k`th time, the entry `slot k` with the id `id k`,
-- whose page has `maps k` mappings outside the server that go back to it.
@[ext] structure Opens where
  tab : OpenTab
  count : Nat
  slot : Nat → Nat
  id : Nat → Word
  maps : Nat → Nat

namespace Opens

variable (s : Opens)

def init : Opens := ⟨.init, 0, fun _ => 0, fun _ => 0, fun _ => 0⟩

inductive Event
  | alloc (noMem : Bool)
  | map (k : Nat)
  | unmap (k : Nat)

-- Whether the entry of `k` has been handed out again.
def Reused (k : Nat) : Prop := ∃ k', k < k' ∧ k' < s.count ∧ s.slot k' = s.slot k

-- The pages of other mappings, and the page that has just been handed out, can be mapped.
inductive Step : Opens → Event → Opens → Prop
  | fail {s : Opens} {noMem r tab} : s.tab.openfileAlloc noMem = (r, none, tab) →
    Step s (.alloc noMem) { s with tab := tab }
  | alloc {s : Opens} {noMem r i tab} : s.tab.openfileAlloc noMem = (r, some i, tab) →
    Step s (.alloc noMem) ⟨tab, s.count + 1, update s.slot s.count i, update s.id s.count r,
      update s.maps s.count 0⟩
  | map {s : Opens} {k} : k < s.count → 0 < s.maps k ∨ ¬s.Reused k →
    Step s (.map k) { s with
      tab  := { s.tab with
        clients := update s.tab.clients (s.slot k) (s.tab.clients (s.slot k) + 1) }
      maps := update s.maps k (s.maps k + 1) }
  | unmap {s : Opens} {k} : k < s.count → 0 < s.maps k →
    Step s (.unmap k) { s with
      tab  := { s.tab with
        clients := update s.tab.clients (s.slot k) (s.tab.clients (s.slot k) - 1) }
      maps := update s.maps k (s.maps k - 1) }

-- `openfile_alloc` gets a page, and the next id of the entry is not negative.
def AllocOk (t : OpenTab) (noMem : Bool) : Prop :=
  ∀ i, t.avail = some i → (t.oFileid i).toNat + MAXOPEN < 2147483648 ∧ ¬(t.pageref i = 0 ∧ noMem)

-- No count wraps.
def Safe (s : Opens) : Event → Prop
  | .alloc noMem => AllocOk s.tab noMem
  | .map k       => s.tab.clients (s.slot k) < 65534
  | .unmap _     => True

structure Law (s : Opens) : Prop where
  nonneg : ∀ k < s.count, ¬negative (s.id k)
  live   : ∀ id, (s.tab.openfileLookup id).isSome ↔ ∃ k < s.count, s.id k = id ∧ 0 < s.maps k
  unique : ∀ k < s.count, ∀ k' < s.count, 0 < s.maps k → 0 < s.maps k' → s.id k = s.id k' → k = k'
  alloc  : ∀ noMem, AllocOk s.tab noMem → (∃ i < MAXOPEN, s.tab.clients i = 0) →
    ∃ r i tab, s.tab.openfileAlloc noMem = (r, some i, tab) ∧ ¬negative r

structure Inv (s : Opens) : Prop where
  fileid : ∀ i < MAXOPEN, (s.tab.oFileid i).toNat % MAXOPEN = i
  small  : ∀ i < MAXOPEN, (s.tab.oFileid i).toNat < 2147483648
  mapped : ∀ i, 0 < s.tab.clients i → s.tab.mapped i
  room   : ∀ i, s.tab.clients i < 65535
  slot   : ∀ k < s.count, s.slot k < MAXOPEN ∧ s.tab.mapped (s.slot k)
  old    : ∀ k < s.count, s.Reused k →
    s.id k < s.tab.oFileid (s.slot k) ∧ (s.id k).toNat % MAXOPEN = s.slot k ∧ s.maps k = 0
  last   : ∀ k < s.count, ¬s.Reused k →
    s.id k = s.tab.oFileid (s.slot k) ∧ s.maps k = s.tab.clients (s.slot k)
  owner  : ∀ i, 0 < s.tab.clients i → ∃ k < s.count, s.slot k = i ∧ ¬s.Reused k

variable {s s' : Opens} {k i : Nat} {ev : Event} {noMem : Bool}

theorem Inv.pageref_le (h : s.Inv) : s.tab.pageref i ≤ 1 ↔ s.tab.clients i = 0 := by
  have hr := h.room i
  rw [OpenTab.pageref]
  split
  case isTrue => omega
  case isFalse hm =>
    refine iff_of_true (Nat.zero_le _) ?_
    by_contra hc
    exact hm (h.mapped i (by omega))

theorem avail_eq_some {t : OpenTab} (h : t.avail = some i) : i < MAXOPEN ∧ t.pageref i ≤ 1 := by
  have h₁ := List.mem_of_find?_eq_some h
  have h₂ := List.find?_some h
  exact ⟨List.mem_range.mp h₁, by simpa using h₂⟩

theorem openfileAlloc_cases {t t' : OpenTab} {noMem : Bool} {r : Word} {o : Option Nat}
    (h : t.openfileAlloc noMem = (r, o, t')) : o = none ∧ t' = t ∨
      ∃ i, t.avail = some i ∧ r = (t.take i).oFileid i ∧ o = some i ∧ t' = t.take i := by
  unfold OpenTab.openfileAlloc at h
  generalize t.avail = a at h ⊢
  cases a
  case none =>
    simp only [Prod.mk.injEq] at h
    exact .inl ⟨h.2.1.symm, h.2.2.symm⟩
  case some i =>
    dsimp only at h
    split at h
    case isTrue =>
      simp only [Prod.mk.injEq] at h
      exact .inl ⟨h.2.1.symm, h.2.2.symm⟩
    case isFalse =>
      simp only [Prod.mk.injEq] at h
      exact .inr ⟨i, rfl, h.1.symm, h.2.1.symm, h.2.2.symm⟩

theorem openfileAlloc_eq {t : OpenTab} {noMem : Bool} (h : t.avail = some i)
    (hn : ¬(t.pageref i = 0 ∧ noMem)) :
    t.openfileAlloc noMem = ((t.take i).oFileid i, some i, t.take i) := by
  unfold OpenTab.openfileAlloc
  generalize t.avail = a at h
  subst h
  exact if_neg hn

theorem inv_init : init.Inv := by
  constructor
  case fileid =>
    intro i hi
    show (BitVec.ofNat 32 i).toNat % MAXOPEN = i
    rw [BitVec.toNat_ofNat]
    rw [MAXOPEN] at *
    omega
  case small =>
    intro i hi
    show (BitVec.ofNat 32 i).toNat < _
    rw [BitVec.toNat_ofNat]
    rw [MAXOPEN] at *
    omega
  case mapped => exact fun _ h => absurd h (Nat.lt_irrefl 0)
  case room => exact fun _ => (by decide : (0 : Nat) < 65535)
  case slot => exact fun _ h => absurd h (Nat.not_lt_zero _)
  case old => exact fun _ h => absurd h (Nat.not_lt_zero _)
  case last => exact fun _ h => absurd h (Nat.not_lt_zero _)
  case owner => exact fun _ h => absurd h (Nat.lt_irrefl 0)

section Take

variable (hi : s.tab.avail = some i) (hs : (s.tab.oFileid i).toNat + MAXOPEN < 2147483648)

theorem take_oFileid (i' : Nat) : ((s.tab.take i).oFileid i').toNat =
    if i' = i then ((s.tab.oFileid i).toNat + MAXOPEN) % 4294967296 else (s.tab.oFileid i').toNat := by
  simp only [OpenTab.take]
  by_cases h : i' = i
  · rw [h, if_pos rfl, update_self, BitVec.toNat_add]
    rfl
  · rw [if_neg h, update_of_ne h]

-- The state after the entry `i` has been handed out.
def handOut (s : Opens) (i : Nat) : Opens :=
  ⟨s.tab.take i, s.count + 1, update s.slot s.count i, update s.id s.count ((s.tab.take i).oFileid i),
    update s.maps s.count 0⟩

theorem reused_handOut (hk : k < s.count) : (s.handOut i).Reused k ↔ s.Reused k ∨ s.slot k = i := by
  have hsk : (s.handOut i).slot k = s.slot k := update_of_ne (Nat.ne_of_lt hk) _ _
  constructor
  case mp =>
    rintro ⟨k', h₁, h₂, h₃⟩
    have h₂ : k' < s.count + 1 := h₂
    rw [hsk] at h₃
    by_cases hc : k' = s.count
    · subst hc
      exact .inr (h₃.symm.trans (update_self _ _ _))
    · have h₃ : update s.slot s.count i k' = s.slot k := h₃
      rw [update_of_ne hc] at h₃
      exact .inl ⟨k', h₁, by omega, h₃⟩
  case mpr =>
    rintro (⟨k', h₁, h₂, h₃⟩ | h)
    · refine ⟨k', h₁, Nat.lt_succ_of_lt h₂, ?_⟩
      rw [hsk]
      exact (update_of_ne (Nat.ne_of_lt h₂) _ _).trans h₃
    · refine ⟨s.count, hk, Nat.lt_succ_self _, ?_⟩
      rw [hsk, h]
      exact update_self _ _ _

theorem not_reused_count : ¬(s.handOut i).Reused s.count := by
  rintro ⟨k', h₁, h₂, -⟩
  have h₂ : k' < s.count + 1 := h₂
  omega

include hi hs

-- The entry that is taken had no page outside, and gets a larger id.
theorem Inv.handOut (h : s.Inv) : (s.handOut i).Inv := by
  obtain ⟨hlt, hle⟩ := avail_eq_some hi
  have hz := h.pageref_le.mp hle
  have hid (i' : Nat) : ((s.handOut i).tab.oFileid i').toNat =
      if i' = i then (s.tab.oFileid i).toNat + MAXOPEN else (s.tab.oFileid i').toNat := by
    have := take_oFileid (s := s) (i := i) i'
    rw [Nat.mod_eq_of_lt (by omega)] at this
    exact this
  have hslot {k : Nat} (hk : k < s.count) : (s.handOut i).slot k = s.slot k :=
    update_of_ne (Nat.ne_of_lt hk) _ _
  have hkid {k : Nat} (hk : k < s.count) : (s.handOut i).id k = s.id k :=
    update_of_ne (Nat.ne_of_lt hk) _ _
  have hmaps {k : Nat} (hk : k < s.count) : (s.handOut i).maps k = s.maps k :=
    update_of_ne (Nat.ne_of_lt hk) _ _
  have hnew : (s.handOut i).slot s.count = i := update_self _ _ _
  have hcases {k : Nat} (hk : k < (s.handOut i).count) : k < s.count ∨ k = s.count := by
    have hk : k < s.count + 1 := hk
    omega
  constructor
  case fileid =>
    intro i' hi'
    have := h.fileid i' hi'
    rw [hid]
    split
    case isTrue he =>
      subst he
      rw [Nat.add_mod_right]
      exact this
    case isFalse => exact this
  case small =>
    intro i' hi'
    rw [hid]
    split
    case isTrue => exact hs
    case isFalse => exact h.small i' hi'
  case mapped =>
    intro i' hc
    show update s.tab.mapped i true i'
    by_cases he : i' = i
    · rw [he, update_self]
    · rw [update_of_ne he]
      exact h.mapped i' hc
  case room => exact h.room
  case slot =>
    intro k hk
    rcases hcases hk with hk | rfl
    · rw [hslot hk]
      refine ⟨(h.slot k hk).1, ?_⟩
      show update s.tab.mapped i true (s.slot k)
      by_cases he : s.slot k = i
      · rw [he, update_self]
      · rw [update_of_ne he]
        exact (h.slot k hk).2
    · rw [hnew]
      exact ⟨hlt, update_self _ _ _⟩
  case old =>
    intro k hk hr
    rcases hcases hk with hk | rfl
    · rw [hkid hk, hslot hk, hmaps hk, BitVec.lt_def, hid]
      by_cases hold : s.Reused k
      · obtain ⟨h₁, h₂, h₃⟩ := h.old k hk hold
        refine ⟨?_, h₂, h₃⟩
        rw [BitVec.lt_def] at h₁
        split
        case isTrue he =>
          rw [he] at h₁
          omega
        case isFalse => exact h₁
      · have he := ((reused_handOut hk).mp hr).resolve_left hold
        obtain ⟨h₁, h₂⟩ := h.last k hk hold
        rw [h₁, he, if_pos rfl, h₂, he, hz]
        exact ⟨Nat.lt_add_of_pos_right (by decide), h.fileid i hlt, rfl⟩
    · exact absurd hr not_reused_count
  case last =>
    intro k hk hr
    rcases hcases hk with hk | rfl
    · rw [reused_handOut hk, not_or] at hr
      obtain ⟨h₁, h₂⟩ := h.last k hk hr.1
      rw [hkid hk, hslot hk, hmaps hk]
      refine ⟨?_, h₂⟩
      rw [h₁]
      exact (update_of_ne hr.2 _ _).symm
    · rw [hnew]
      refine ⟨update_self _ _ _, ?_⟩
      exact (update_self _ _ _).trans hz.symm
  case owner =>
    intro i' hc
    have hc : 0 < s.tab.clients i' := hc
    obtain ⟨k, hk, h₁, h₂⟩ := h.owner i' hc
    refine ⟨k, Nat.lt_succ_of_lt hk, (hslot hk).trans h₁, ?_⟩
    rw [reused_handOut hk, not_or]
    refine ⟨h₂, fun he => ?_⟩
    rw [← h₁, he, hz] at hc
    exact absurd hc (Nat.lt_irrefl 0)

end Take

-- The page of an entry is mapped or unmapped by those to whom it has been handed out last.
theorem Inv.setMaps (h : s.Inv) (hk : k < s.count) (hr : ¬s.Reused k) {n : Nat} (hn : n < 65535) :
    Inv { s with
      tab  := { s.tab with clients := update s.tab.clients (s.slot k) n }
      maps := update s.maps k n } := by
  have hne {k' : Nat} (hk' : k' < s.count) (hr' : ¬s.Reused k') (he : k' ≠ k) :
      s.slot k' ≠ s.slot k := by
    intro hs
    rcases Nat.lt_or_gt_of_ne he with hlt | hlt
    · exact hr' ⟨k, hlt, hk, hs.symm⟩
    · exact hr ⟨k', hlt, hk', hs⟩
  constructor
  case fileid => exact h.fileid
  case small => exact h.small
  case mapped =>
    intro i' hc
    have hc : 0 < update s.tab.clients (s.slot k) n i' := hc
    by_cases he : i' = s.slot k
    · exact he ▸ (h.slot k hk).2
    · rw [update_of_ne he] at hc
      exact h.mapped i' hc
  case room =>
    intro i'
    show update s.tab.clients (s.slot k) n i' < 65535
    by_cases he : i' = s.slot k
    · rw [he, update_self]
      exact hn
    · rw [update_of_ne he]
      exact h.room i'
  case slot => exact h.slot
  case old =>
    intro k' hk' hr'
    obtain ⟨h₁, h₂, h₃⟩ := h.old k' hk' hr'
    refine ⟨h₁, h₂, ?_⟩
    have he : k' ≠ k := fun he => hr (he ▸ hr')
    exact (update_of_ne he _ _).trans h₃
  case last =>
    intro k' hk' hr'
    obtain ⟨h₁, h₂⟩ := h.last k' hk' hr'
    refine ⟨h₁, ?_⟩
    show update s.maps k n k' = update s.tab.clients (s.slot k) n (s.slot k')
    by_cases he : k' = k
    · rw [he, update_self, update_self]
    · rw [update_of_ne he, update_of_ne (hne hk' hr' he)]
      exact h₂
  case owner =>
    intro i' hc
    have hc : 0 < update s.tab.clients (s.slot k) n i' := hc
    by_cases he : i' = s.slot k
    · exact ⟨k, hk, he.symm, hr⟩
    · rw [update_of_ne he] at hc
      exact h.owner i' hc

theorem Inv.step (h : s.Inv) (hg : s.Safe ev) (hs : s.Step ev s') : s'.Inv := by
  cases hs
  case fail noMem r tab ha =>
    rcases openfileAlloc_cases ha with ⟨-, rfl⟩ | ⟨i, -, -, hc, -⟩
    · exact h
    · cases hc
  case alloc noMem r i tab ha =>
    rcases openfileAlloc_cases ha with ⟨hc, -⟩ | ⟨i', hi, rfl, hc, rfl⟩
    · cases hc
    · cases hc
      exact h.handOut hi (hg _ hi).1
  case map k hk hm =>
    have hr : ¬s.Reused k := fun hr => by
      rcases hm with hm | hm
      · exact absurd (h.old k hk hr).2.2 (Nat.ne_of_gt hm)
      · exact hm hr
    have hl := (h.last k hk hr).2
    have hg : s.tab.clients (s.slot k) < 65534 := hg
    rw [hl]
    exact h.setMaps hk hr (by omega)
  case unmap k hk hm =>
    have hr : ¬s.Reused k := fun hr => absurd (h.old k hk hr).2.2 (Nat.ne_of_gt hm)
    have hl := (h.last k hk hr).2
    have := h.room (s.slot k)
    rw [hl]
    exact h.setMaps hk hr (by omega)

-- The mappings of an entry go back to one time that it has been handed out.
theorem Inv.last_inj (h : s.Inv) {k' : Nat} (hk : k < s.count) (hk' : k' < s.count)
    (hm : 0 < s.maps k) (hm' : 0 < s.maps k') (hs : s.slot k = s.slot k') : k = k' := by
  by_contra hne
  rcases Nat.lt_or_gt_of_ne hne with hlt | hlt
  · exact absurd (h.old k hk ⟨k', hlt, hk', hs.symm⟩).2.2 (Nat.ne_of_gt hm)
  · exact absurd (h.old k' hk' ⟨k, hlt, hk, hs⟩).2.2 (Nat.ne_of_gt hm')

theorem Inv.current (h : s.Inv) (hk : k < s.count) (hm : 0 < s.maps k) :
    s.id k = s.tab.oFileid (s.slot k) ∧ 0 < s.tab.clients (s.slot k) ∧
      (s.id k).toNat % MAXOPEN = s.slot k := by
  have hr : ¬s.Reused k := fun hr => absurd (h.old k hk hr).2.2 (Nat.ne_of_gt hm)
  obtain ⟨h₁, h₂⟩ := h.last k hk hr
  refine ⟨h₁, h₂ ▸ hm, ?_⟩
  rw [h₁]
  exact h.fileid _ (h.slot k hk).1

theorem Inv.nonneg (h : s.Inv) (hk : k < s.count) : ¬negative (s.id k) := by
  have hlt := h.small _ (h.slot k hk).1
  rw [negative_iff]
  by_cases hr : s.Reused k
  · have := (h.old k hk hr).1
    rw [BitVec.lt_def] at this
    omega
  · rw [(h.last k hk hr).1]
    omega

theorem Inv.live (h : s.Inv) (id : Word) :
    (s.tab.openfileLookup id).isSome ↔ ∃ k < s.count, s.id k = id ∧ 0 < s.maps k := by
  have hl : (s.tab.openfileLookup id).isSome ↔
      0 < s.tab.clients (id.toNat % MAXOPEN) ∧ s.tab.oFileid (id.toNat % MAXOPEN) = id := by
    rw [OpenTab.openfileLookup]
    split
    case isTrue hc =>
      rw [h.pageref_le] at hc
      refine iff_of_false (by simp) fun hc' => ?_
      rcases hc with hc | hc
      · exact absurd hc (Nat.ne_of_gt hc'.1)
      · exact hc hc'.2
    case isFalse hc =>
      rw [not_or, not_not, h.pageref_le] at hc
      exact iff_of_true rfl ⟨Nat.pos_of_ne_zero hc.1, hc.2⟩
  rw [hl]
  constructor
  case mp =>
    rintro ⟨hc, hid⟩
    obtain ⟨k, hk, hs, hr⟩ := h.owner _ hc
    obtain ⟨h₁, h₂⟩ := h.last k hk hr
    refine ⟨k, hk, ?_, ?_⟩
    · rw [h₁, hs, hid]
    · rw [h₂, hs]
      exact hc
  case mpr =>
    rintro ⟨k, hk, rfl, hm⟩
    obtain ⟨h₁, h₂, h₃⟩ := h.current hk hm
    rw [h₃]
    exact ⟨h₂, h₁.symm⟩

theorem Inv.alloc (h : s.Inv) {noMem : Bool} (ha : AllocOk s.tab noMem)
    (hex : ∃ i < MAXOPEN, s.tab.clients i = 0) :
    ∃ r i tab, s.tab.openfileAlloc noMem = (r, some i, tab) ∧ ¬negative r := by
  obtain ⟨i, hi, hc⟩ := hex
  cases hav : s.tab.avail
  case none =>
    have := List.find?_eq_none.mp hav i (List.mem_range.mpr hi)
    exact absurd (h.pageref_le.mpr hc) (by simpa using this)
  case some j =>
    obtain ⟨hlt, hno⟩ := ha j hav
    refine ⟨(s.tab.take j).oFileid j, j, s.tab.take j, ?_, ?_⟩
    · exact openfileAlloc_eq hav hno
    · rw [negative_iff, take_oFileid, if_pos rfl]
      omega

theorem Inv.law (h : s.Inv) : s.Law where
  nonneg := fun _ hk => h.nonneg hk
  live   := h.live
  unique := by
    intro k hk k' hk' hm hm' he
    refine h.last_inj hk hk' hm hm' ?_
    rw [← (h.current hk hm).2.2, ← (h.current hk' hm').2.2, he]
  alloc  := fun _ => h.alloc

-- The law of the ids of open files holds in every state of a run in which no id of an entry becomes
-- negative, no count of references wraps, and `openfile_alloc` gets its pages.
theorem openfile_law (r : Run Step Safe init s) : s.Law :=
  (r.invariant inv_init fun h hg hs => h.step hg hs).law

theorem avail_zero {t : OpenTab} (h : t.pageref 0 ≤ 1) : t.avail = some 0 := by
  rw [OpenTab.avail, List.find?_range_eq_some]
  exact ⟨by simpa using h, List.mem_range.mpr (by decide), fun j hj => absurd hj (Nat.not_lt_zero j)⟩

theorem Step.handOut (hi : s.tab.avail = some i) (hm : s.tab.pageref i ≠ 0 ∨ noMem = false) :
    Step s (.alloc noMem) (s.handOut i) :=
  .alloc (openfileAlloc_eq hi fun hc => hm.elim (fun h => h hc.1) fun h => by simp [h] at hc)

-- A client has the page of the first entry.
theorem openfile_law_client : ∃ s : Opens, s.maps 0 = 1 ∧ s.Law := by
  have hav : init.tab.avail = some 0 := avail_zero (by decide)
  have h₁ : Run Step Safe init (init.handOut 0) := by
    have hs : Step init (.alloc false) (init.handOut 0) := .handOut hav (.inr rfl)
    refine .single ?_ hs
    intro i hi
    rw [hav] at hi
    cases hi
    decide
  have hs : Safe (init.handOut 0) (.map 0) := (by decide : 0 < 65534)
  have h₂ := h₁.tail hs (.map (k := 0) (by decide) (.inr not_reused_count))
  exact ⟨_, by decide, openfile_law h₂⟩

-- The state after the first entry has been handed out `n` times, as for files that cannot be opened.
def many (n : Nat) : Opens where
  tab   := {
    oFileid := fun i => if i = 0 then BitVec.ofNat 32 (n * MAXOPEN) else BitVec.ofNat 32 i
    mapped  := fun i => decide (i = 0 ∧ 0 < n)
    clients := fun _ => 0 }
  count := n
  slot  := fun _ => 0
  id    := fun k => if k < n then BitVec.ofNat 32 ((k + 1) * MAXOPEN) else 0#32
  maps  := fun _ => 0

theorem handOut_many (n : Nat) : (many n).handOut 0 = many (n + 1) := by
  have hid : ((many n).tab.take 0).oFileid = (many (n + 1)).tab.oFileid := by
    funext i
    by_cases hi : i = 0
    · simp [OpenTab.take, many, hi, Nat.add_mul, BitVec.ofNat_add]
    · simp [OpenTab.take, many, hi]
  have hmapped : ((many n).tab.take 0).mapped = (many (n + 1)).tab.mapped := by
    funext i
    by_cases hi : i = 0 <;> simp [OpenTab.take, many, hi]
  refine Opens.ext (OpenTab.ext hid hmapped rfl) rfl ?_ ?_ ?_
  · exact update_eq_self n _
  · funext k
    show update (many n).id n (((many n).tab.take 0).oFileid 0) k = (many (n + 1)).id k
    rw [hid]
    by_cases hk : k = n
    · simp [many, hk]
    · have hlt : k < n + 1 ↔ k < n := by omega
      rw [update_of_ne hk]
      simp only [many, hlt]
  · exact update_eq_self n _

theorem run_many (n : Nat) : Run Step (fun _ _ => True) init (many n) := by
  induction n
  case zero =>
    have h₀ : many 0 = init := by
      have ho : (many 0).tab.oFileid = OpenTab.init.oFileid := by
        funext i
        by_cases hi : i = 0 <;> simp [many, OpenTab.init, hi]
      have hm : (many 0).tab.mapped = OpenTab.init.mapped := by
        funext i
        simp [many, OpenTab.init]
      exact Opens.ext (OpenTab.ext ho hm rfl) rfl rfl (by funext k; simp [many, init]) rfl
    rw [h₀]
    exact .refl
  case succ n hi =>
    rw [← handOut_many]
    have hs (ha : (many n).tab.pageref 0 ≤ 1) : Step (many n) (.alloc false) ((many n).handOut 0) :=
      .handOut (avail_zero ha) (.inr rfl)
    refine hi.tail trivial (hs ?_)
    rw [OpenTab.pageref]
    split
    case isTrue => exact (by decide : (1 + 0) % 65536 ≤ 1)
    case isFalse => exact Nat.zero_le _

-- After the first entry has been handed out 2 ^ 21 times, its id is negative.
theorem not_openfile_law : ¬∀ {s}, Run Step (fun _ _ => True) init s → s.Law := by
  intro h
  have hn := (h (run_many 2097152)).nonneg 2097151 (Nat.lt_succ_self _)
  rw [negative_iff] at hn
  exact hn (by decide)

end Opens

end Fs

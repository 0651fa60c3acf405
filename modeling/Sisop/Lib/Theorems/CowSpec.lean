import Sisop.Lib.Theorems.CowInv

namespace Lib.Cow

open Inc Function Library Library.Sharing Kern

-- What `fork` is for: every environment has its own pages, but for those that it shares, and gives the
-- child a copy of each.
structure Spec where
  store : Store (Nat × Nat) Nat (Nat → BitVec 8)
  runs : Nat → Bool
  forks : Nat → Option Forking

inductive Act
  | write (p pn : Nat) (g : (Nat → BitVec 8) → Nat → BitVec 8)
  | put (p pn f : Nat) (r : Right) (b : Nat → BitVec 8)
  | unmap (p pn : Nat)
  | exit (p : Nat)
  | stop (p : Nat)
  | fork (p c : Nat)
  | stack (p f : Nat)
  | copy (p : Nat)
  | again (p : Nat)
  | next (p : Nat)
  | start (p : Nat)

namespace Spec

-- No fork makes `c`.
def Apart (t : Spec) (c : Nat) : Prop := ∀ {q x}, t.forks q = some x → x.child ≠ c

inductive Step : Spec → Act → Spec → Prop
  | write {t : Spec} {p pn g} : t.runs p →
    Step t (.write p pn g) { t with store := t.store.write (p, pn) g }
  | put {t : Spec} {p pn f r b} : t.runs p →
    (∀ {k}, k ≠ (p, pn) → t.store.cell k ≠ some (.shared f)) →
    Step t (.put p pn f r b) { t with store := t.store.put (p, pn) f r b }
  | unmap {t : Spec} {p pn} : t.runs p →
    Step t (.unmap p pn) { t with store := t.store.clear (· = (p, pn)) }
  | exit {t : Spec} {p} : t.Apart p → Step t (.exit p)
    ⟨t.store.clear (·.1 = p), update t.runs p false, update t.forks p none⟩
  | stop {t : Spec} {p} : Step t (.stop p) { t with runs := update t.runs p false }
  | fork {t : Spec} {p c} : t.runs p → t.forks p = none → ¬t.runs c → t.Apart c →
    (∀ pn, t.store.cell (c, pn) = none) →
    Step t (.fork p c) { t with forks := update t.forks p (some ⟨c, none, pages⟩) }
  | stack {t : Spec} {p c f} : t.runs p → t.forks p = some ⟨c, none, pages⟩ →
    Step t (.stack p f) { t with store := t.store.put (c, UXSTACK) f .own fun _ => 0#8 }
  | copy {t : Spec} {p c pn l} : t.runs p → t.forks p = some ⟨c, none, pn :: l⟩ →
    Step t (.copy p) { t with
      store := t.store.copy (p, pn) (c, pn)
      forks := update t.forks p (some ⟨c, some pn, l⟩) }
  | again {t : Spec} {p c pn l} : t.runs p → t.forks p = some ⟨c, some pn, l⟩ →
    Step t (.again p) { t with store := t.store.copy (p, pn) (c, pn) }
  | next {t : Spec} {p c pn l} : t.runs p → t.forks p = some ⟨c, some pn, l⟩ →
    Step t (.next p) { t with forks := update t.forks p (some ⟨c, none, l⟩) }
  | start {t : Spec} {p c} : t.runs p → t.forks p = some ⟨c, none, []⟩ →
    Step t (.start p) { t with runs := update t.runs c true, forks := update t.forks p none }

def read (t : Spec) (p pn off : Nat) : Option (BitVec 8) := (t.store.read (p, pn)).map (· off)

end Spec

def Sys.runsTab (s : Sys) (p : Nat) : Bool := (s.proc p).status == .runnable

def Sys.forksTab (s : Sys) (p : Nat) : Option Forking := (s.proc p).fork.forking

structure Refines (s : Sys) (t : Spec) : Prop where
  store : Represents s.table s.mem t.store
  runs  : t.runs = s.runsTab
  forks : t.forks = s.forksTab

variable {s s' : Sys} {t t' : Spec} {p q c pn new : Nat} {pte : Pte} {perm : Word} {w : Write} {ev : Event}
  {G : Act → Prop}

def Event.Writes (s : Sys) (p pn : Nat) : Event → Prop
  | .write q w _  => q = p ∧ (w.pn = pn ∨ pn = UXSTACK)
  | .step q _ _   => q = p ∧ ∃ w, (s.proc p).fault = .again w ∧ w.pn = pn
  | _             => False

-- The steps of the specification that an event from `s` to `s'` may stand for.
def Act.Of (s : Sys) (ev : Event) (s' : Sys) : Act → Prop
  | .write p pn _     => ev.Writes s p pn
  | .put p pn _ _ _   => pn = UXSTACK ∨ ∃ new perm, ev = .sysPageAlloc p pn new perm
  | .unmap p pn       => ev = .sysPageUnmap p pn
  | .exit p           => (s'.proc p).fork = .idle
  | .stop p           => (s'.proc p).status = .panicked
  | _                 => True

theorem Spec.Step.run {a : Act} (h : t.Step a t') (hG : G a) : Run Spec.Step (fun _ a => G a) t t' :=
  .single hG h

-- `copy` and `next`
theorem copy_next {l : List Nat} (hp : t.runs p) (hf : t.forks p = some ⟨c, none, pn :: l⟩)
    (hG : G (.copy p)) (hG' : G (.next p)) : Run Spec.Step (fun _ a => G a) t
      ⟨t.store.copy (p, pn) (c, pn), t.runs, update t.forks p (some ⟨c, none, l⟩)⟩ := by
  have hn := Spec.Step.next (t := ⟨t.store.copy (p, pn) (c, pn), t.runs,
    update t.forks p (some ⟨c, some pn, l⟩)⟩) hp (update_self ..)
  dsimp only at hn
  rw [update_idem] at hn
  exact ((Spec.Step.copy hp hf).run hG).trans (hn.run hG')

theorem forksTab_setFork {pc : ForkPc} : (s.setFork p pc).forksTab = update s.forksTab p pc.forking := by
  funext q
  by_cases hq : q = p
  · subst hq
    rw [Sys.forksTab, Sys.setFork_self, update_self]
  · rw [Sys.forksTab, Sys.setFork_of_ne hq, update_of_ne hq, Sys.forksTab]

namespace Refines

open Sys

variable (h : Refines s t)

include h

-- Only the pages have changed.
theorem moved {x : Store (Nat × Nat) Nat (Nat → BitVec 8)} (hx : Represents s'.table s'.mem x)
    (hst : ∀ p, (s'.proc p).status = (s.proc p).status) (hf : ∀ p, (s'.proc p).fork = (s.proc p).fork) :
    Refines s' { t with store := x } where
  store := hx
  runs  := h.runs.trans (funext fun p => by rw [runsTab, runsTab, hst])
  forks := h.forks.trans (funext fun p => by rw [forksTab, forksTab, hf])

theorem congr (hs : ∀ p, (s'.proc p).space = (s.proc p).space) (hm : s'.mem = s.mem)
    (hst : ∀ p, (s'.proc p).status = (s.proc p).status) (hf : ∀ p, (s'.proc p).fork = (s.proc p).fork) :
    Refines s' t := by
  have hx : Represents s'.table s'.mem t.store := by
    rw [table_congr hs, hm]
    exact h.store
  exact h.moved hx hst hf

theorem runs_of (hst : (s.proc p).status = .runnable) : t.runs p := by
  rw [h.runs, runsTab, hst]
  rfl

-- A write of the owner of a page, or of one of those who share it.
theorem write (hi : Inv s) (hst : (s.proc p).status = .runnable) (hne : pn ≠ PFTEMP)
    (hs : (s.proc p).space pn = some pte) (hw : pte.perm &&& PTE_W ≠ 0#32)
    (g : (Nat → BitVec 8) → Nat → BitVec 8) (hG : G (.write p pn g)) (hG' : G (.again p)) :
    ∃ t', Run Spec.Step (fun _ a => G a) t t' ∧ Refines (s.setMem pte.page (g (s.mem pte.page))) t' := by
  have hp := h.runs_of hst
  have hk := table_eq hs hne
  by_cases hx : ∃ k', s.Between (p, pn) k' ∧ s.table k' = some (pte.page, .copy)
  case neg =>
    refine ⟨{ t with store := t.store.write (p, pn) g }, .single hG (.write hp), ?_, h.runs, h.forks⟩
    exact h.store.write hi.excl g hk (right_ne_copy hw) fun {k'} hb hc => hx ⟨k', hb, hc⟩
  case pos =>
    -- The child has the page, and sees the write.
    obtain ⟨_, ⟨c, l, hpc, rfl⟩, hk'⟩ := hx
    have hr : right pte.perm = .own := by
      cases hr : right pte.perm
      case own => rfl
      case copy => exact absurd hr (right_ne_copy hw)
      case share =>
        rw [hr] at hk
        cases hi.excl.share hk hk'
    rw [hr] at hk
    have hf : t.forks p = some ⟨c, some pn, l⟩ := by
      rw [h.forks, forksTab, hpc]
      rfl
    have ha := Spec.Step.again (t := { t with store := t.store.write (p, pn) g }) hp hf
    refine ⟨_, (Run.single hG (.write hp)).trans (.single hG' ha), ?_, h.runs, h.forks⟩
    refine h.store.write_copy hi.excl g hk hk' fun {k₁} ⟨c', l', hb, he⟩ => ?_
    rw [hpc] at hb
    cases hb
    exact he

theorem exit (hi : Inv s) (hst : (s.proc p).status ≠ .notRunnable) (hG : G (.exit p)) :
    ∃ t', Run Spec.Step (fun _ a => G a) t t' ∧ Refines (s.exit p) t' := by
  refine ⟨_, .single hG (.exit fun {q x} hq he => ?apart), ?store, ?runs, ?forks⟩
  case apart =>
    rw [h.forks] at hq
    exact hst (he ▸ hi.child_status hq)
  case store =>
    have ht : (s.exit p).table = fun k => if k.1 = p then none else s.table k := by
      funext ⟨q, pn⟩
      by_cases hq : q = p
      · subst hq
        simp [Sys.exit, Sys.table]
      · simp [Sys.exit, Sys.table, hq, setProc_of_ne hq]
    rw [ht]
    exact h.store.clear (·.1 = p)
  case runs =>
    funext q
    by_cases hq : q = p
    · subst hq
      simp [runsTab, Sys.exit]
    · simp [runsTab, Sys.exit, setProc_of_ne hq, hq, h.runs]
  case forks =>
    funext q
    by_cases hq : q = p
    · subst hq
      simp [forksTab, Sys.exit, ForkPc.forking]
    · simp [forksTab, Sys.exit, setProc_of_ne hq, hq, h.forks]

theorem panicked (hG : G (.stop p)) :
    ∃ t', Run Spec.Step (fun _ a => G a) t t' ∧ Refines (s.setStatus p .panicked) t' := by
  refine ⟨_, .single hG .stop, ?_, ?_, ?_⟩
  · rw [table_congr fun _ => setStatus_space]
    exact h.store
  · funext q
    by_cases hq : q = p
    · subst hq
      simp [runsTab]
    · simp [runsTab, hq, setStatus_of_ne hq, h.runs]
  · rw [h.forks]
    funext q
    simp [forksTab]

theorem setFork {pc : ForkPc} (hpc : pc.forking = (s.proc p).fork.forking) : Refines (s.setFork p pc) t := by
  refine ⟨?_, ?_, ?_⟩
  · rw [table_congr fun _ => setFork_space]
    exact h.store
  · rw [h.runs]
    funext q
    simp [runsTab]
  · rw [h.forks, forksTab_setFork, hpc]
    exact (update_eq_self p s.forksTab).symm

-- The pages of the specification that a new frame is not.
theorem fresh (hfree : s.Free new) (k : Nat × Nat) : t.store.cell k ≠ some (.shared new) := by
  rw [h.store.cell k]
  rcases hk : s.table k with _ | ⟨f, r⟩
  case none => simp [cellOf]
  case some =>
    have hf : f ≠ new := by
      rintro rfl
      exact hfree.table k r hk
    cases r <;> simp [cellOf, hf]

theorem put (hne : pn ≠ PFTEMP) (hfree : s.Free new) : Represents
    ((s.setSpace q pn (some ⟨new, perm⟩)).setMem new fun _ => 0#8).table
    ((s.setSpace q pn (some ⟨new, perm⟩)).setMem new fun _ => 0#8).mem
    (t.store.put (q, pn) new (right perm) fun _ => 0#8) := by
  have ht := table_update (s := s) (u := (s.setSpace q pn (some ⟨new, perm⟩)).setMem new fun _ => 0#8)
    (p := q) setSpace_self fun hk => by rw [setMem_proc, setSpace_of_ne hk]
  rw [ht, if_neg hne]
  exact h.store.put fun _ => hfree.table _ _

end Refines

-- The event keeps the invariant, and stands for some steps of the specification.
def Simulates (s : Sys) (ev : Event) (s' : Sys) : Prop :=
  Inv s' ∧ ∀ {t}, Refines s t → ∃ t', Run Spec.Step (fun _ a => a.Of s ev s') t t' ∧ Refines s' t'

theorem pageMap_eq {srcpn dstpn : Nat} (h : s.pageMap p srcpn q dstpn perm = some s') :
    ∃ pte, (s.proc p).space srcpn = some pte ∧ s' = s.setSpace q dstpn (some ⟨pte.page, perm⟩) := by
  unfold Sys.pageMap at h
  split at h
  case isTrue => cases h
  case isFalse =>
    split at h
    case h_1 => cases h
    case h_2 pte hs =>
      split at h
      case isTrue => cases h
      case isFalse =>
        cases h
        exact ⟨pte, hs, rfl⟩

theorem pageAlloc_eq (h : s.pageAlloc q pn new perm = some s') :
    s' = (s.setSpace q pn (some ⟨new, perm⟩)).setMem new fun _ => 0#8 := by
  unfold Sys.pageAlloc at h
  split at h
  case isTrue => cases h
  case isFalse =>
    cases h
    rfl

section Events

open Sys

variable (hi : Inv s)

include hi

theorem simulates_panic (hst : (s.proc p).status = .runnable) :
    Simulates s ev (s.setStatus p .panicked) :=
  ⟨hi.setStatus hst rfl, fun h => h.panicked setStatus_self⟩

theorem simulates_exit (hst : (s.proc p).status ≠ .notRunnable) : Simulates s ev (s.exit p) :=
  ⟨hi.exit hst, fun h => h.exit hi hst (by simp [Act.Of, Sys.exit])⟩

theorem simulates_pageFault {stack : Nat → BitVec 8} (hr : s.runs p)
    (hw : ∀ {pte}, (s.proc p).space w.pn = some pte → pte.perm &&& PTE_W = 0#32) :
    Simulates s (.write p w stack) (s.pageFault p w stack) := by
  obtain ⟨hst, hfl⟩ := runs_iff.mp hr
  have he : Simulates s (.write p w stack) (s.exit p) := simulates_exit hi (by rw [hst]; decide)
  unfold pageFault
  split
  case isFalse => exact he
  case isTrue =>
    split
    case h_1 => exact he
    case h_2 ux hux =>
      split
      case isTrue => exact he
      case isFalse hxw =>
        -- The kernel writes to the exception stack.
        have hi₁ := hi.setMem (b := stack) hr hux hxw
        have hs₁ {t : Spec} (h : Refines s t) : ∃ t', Run Spec.Step (fun _ a =>
            (∃ g, a = .write p UXSTACK g) ∨ a = .again p) t t' ∧ Refines (s.setMem ux.page stack) t' :=
          h.write hi hst (hi.ne_PFTEMP hfl hux) hux hxw (fun _ => stack) (.inl ⟨_, rfl⟩) (.inr rfl)
        have hG {s' : Sys} {a : Act} (ha : (∃ g, a = .write p UXSTACK g) ∨ a = .again p) :
            a.Of s (.write p w stack) s' := by
          rcases ha with ⟨g, rfl⟩ | rfl
          · exact ⟨rfl, .inr rfl⟩
          · trivial
        have hr₁ : (s.setMem ux.page stack).runs p := hr
        split
        case h_1 =>
          refine ⟨hi₁.setStatus hst rfl, fun h => ?_⟩
          obtain ⟨t₁, hrun, h₁⟩ := hs₁ h
          obtain ⟨t₂, hrun₂, h₂⟩ := h₁.panicked (p := p) (G := fun a => a.Of s (.write p w stack)
            ((s.setMem ux.page stack).setStatus p .panicked)) setStatus_self
          exact ⟨t₂, (hrun.weaken hG).trans hrun₂, h₂⟩
        case h_2 pc hpc =>
          unfold pgfault at hpc
          split at hpc
          case h_1 => cases hpc
          case h_2 pte hs =>
            split at hpc
            case isTrue => cases hpc
            case isFalse hcow =>
              cases hpc
              have hsh : pte.perm &&& PTE_SHARE = 0#32 := by
                by_contra hc
                exact hcow (hi.cow hs (right_share.mpr hc))
              have hca : (s.setMem ux.page stack).CowAt p w :=
                ⟨hi.ne_PFTEMP hfl hs, pte, hs, right_copy hsh (hw hs), hcow⟩
              refine ⟨hi₁.fault hr₁ hca, fun h => ?_⟩
              obtain ⟨t₁, hrun, h₁⟩ := hs₁ h
              exact ⟨t₁, hrun.weaken hG, h₁.congr (fun _ => setFault_space) rfl
                (fun _ => setFault_status) fun _ => setFault_fork⟩

theorem simulates_write {stack : Nat → BitVec 8} (hr : s.runs p) :
    Simulates s (.write p w stack) ((s.store p w).getD (s.pageFault p w stack)) := by
  obtain ⟨hst, hfl⟩ := runs_iff.mp hr
  unfold Sys.store
  split
  case h_1 hs => exact simulates_pageFault hi hr fun hs' => by rw [hs] at hs'; cases hs'
  case h_2 pte hs =>
    split
    case isTrue hw =>
      refine simulates_pageFault hi hr fun hs' => ?_
      rw [hs] at hs'
      cases hs'
      exact hw
    case isFalse hw =>
      exact ⟨hi.setMem hr hs hw, fun h => h.write hi hst (hi.ne_PFTEMP hfl hs) hs hw
        (fun b => update b w.off w.byte) ⟨rfl, .inl rfl⟩ trivial⟩

theorem simulates_sysPageAlloc (hr : s.runs p) (hk : (s.proc p).fork = .idle)
    (ha : Allowed s (.sysPageAlloc p pn new perm)) (hn : s.pageAlloc p pn new perm = some s') :
    Simulates s (.sysPageAlloc p pn new perm) s' := by
  obtain ⟨hst, hfl⟩ := runs_iff.mp hr
  obtain ⟨hfree, hne, hcow⟩ := ha
  unfold Sys.pageAlloc at hn
  split at hn
  case isTrue => cases hn
  case isFalse =>
    cases hn
    refine ⟨hi.alloc hst hne hfree (fun _ => hcow) hfl (.inl ⟨rfl, by rw [hk]; rfl⟩), fun h => ?_⟩
    have hG : (Act.put p pn new (right perm) fun _ => 0#8).Of s (.sysPageAlloc p pn new perm)
        ((s.setSpace p pn (some ⟨new, perm⟩)).setMem new fun _ => 0#8) := .inr ⟨new, perm, rfl⟩
    exact ⟨_, .single hG (.put (h.runs_of hst) fun _ => h.fresh hfree _),
      h.moved (h.put hne hfree) (by simp) (by simp)⟩

theorem simulates_sysPageUnmap (hr : s.runs p) (hk : (s.proc p).fork = .idle) :
    Simulates s (.sysPageUnmap p pn) (s.setSpace p pn none) := by
  obtain ⟨hst, hfl⟩ := runs_iff.mp hr
  have hG : (Act.unmap p pn).Of s (.sysPageUnmap p pn) (s.setSpace p pn none) := rfl
  refine ⟨hi.unmap hr hk, fun h => ⟨_, .single hG (.unmap (h.runs_of hst)), h.moved ?_ (by simp) (by simp)⟩⟩
  have ht : (s.setSpace p pn none).table = fun k => if k = (p, pn) then none else s.table k := by
    rw [table_update setSpace_self fun hq => by rw [setSpace_of_ne hq]]
    funext k
    by_cases hkn : k = (p, pn)
    · subst hkn
      by_cases hn : pn = PFTEMP
      · simp [hn, Sys.table]
      · simp [hn]
    · by_cases hn : pn = PFTEMP <;> simp [hn, hkn]
      rw [hn] at hkn
      simp [hkn]
  rw [ht]
  exact h.store.clear (· = (p, pn))

-- The steps of `fork` that only move on.
theorem simulates_setFork {e : Event} {pc : ForkPc} (hst : (s.proc p).status = .runnable)
    (hold : ∀ c pn l, (s.proc p).fork ≠ .markCow c pn l) (hf : ForkInv s p pc)
    (hpc : pc.forking = (s.proc p).fork.forking) : Simulates s e (s.setFork p pc) := by
  refine ⟨hi.setFork hst hold hf fun {x} hx => ?_, fun {t} h => ⟨t, .refl, h.setFork hpc⟩⟩
  rw [hpc] at hx
  exact ⟨⟨x, hx, rfl⟩, ((hi.each p).child hx).2⟩

theorem simulates_duppage {child l} (hr : s.runs p) (hk : (s.proc p).fork = .loop c (pn :: l)) :
    Simulates s (.step p new child) (s.setFork p (duppage ((s.proc p).space pn) c pn l)) := by
  obtain ⟨hst, hfl⟩ := runs_iff.mp hr
  have hx : (s.proc p).fork.forking = some ⟨c, none, pn :: l⟩ := by rw [hk]; rfl
  have hold (c' pn' : Nat) (l' : List Nat) : (s.proc p).fork ≠ .markCow c' pn' l' := by
    rw [hk]
    simp
  cases hs : (s.proc p).space pn
  case none =>
    -- There is no page, and the child has none either.
    obtain ⟨hcs, hnd, hux, hl⟩ := (hi.each p).child hx
    refine ⟨hi.setFork hst hold trivial fun {x} hx' => ?inv, fun {t} h => ?refines⟩
    case inv =>
      cases hx'
      exact ⟨⟨_, hx, rfl⟩, (List.nodup_cons.mp hnd).2, fun hm => hux (List.mem_cons_of_mem _ hm),
        fun pn' hm => hl pn' (List.mem_cons_of_mem _ hm)⟩
    case refines =>
      have hf : t.forks p = some ⟨c, none, pn :: l⟩ := by rw [h.forks, forksTab, hx]
      refine ⟨_, copy_next (h.runs_of hst) hf trivial trivial, ⟨?_, ?_⟩, ?_, ?_⟩
      · intro k
        rw [table_congr fun _ => setFork_space, setFork_mem, ← h.store.cell k]
        by_cases hkc : k = (c, pn)
        · subst hkc
          exact (update_self ..).trans (by rw [h.store.cell, h.store.cell, table_none hs,
            table_none (hl pn List.mem_cons_self)])
        · exact update_of_ne hkc _ _
      · rw [table_congr fun _ => setFork_space]
        exact h.store.heap
      · rw [h.runs]
        funext q
        simp [runsTab]
      · rw [forksTab_setFork, h.forks]
        rfl
  case some pte =>
    have hne := hi.ne_PFTEMP hfl hs
    simp only [duppage]
    split_ifs with hsh hcw
    · refine simulates_setFork hi hst hold ⟨hne, pte, hs, hi.cow hs (right_share.mpr hsh), ?_, ?_, ?_⟩ hx.symm
      · rw [right_share.mpr hsh]
        decide
      · rw [right_share.mpr hsh, right_share, and_SYSCALL_SHARE]
        exact hsh
      · intro _
        rw [and_SYSCALL_COW]
        exact hi.cow hs (right_share.mpr hsh)
    · refine simulates_setFork hi hst hold ⟨hne, pte, hs, fun hc => ?_⟩ hx.symm
      exact hsh (right_share.mp hc)
    · rw [not_or, not_not, not_not] at hcw
      rw [not_not] at hsh
      refine simulates_setFork hi hst hold ⟨hne, pte, hs, hcw.2, ?_, ?_, ?_⟩ hx.symm
      · rw [right_copy hsh hcw.1]
        decide
      · rw [right_copy hsh hcw.1, right_UP]
      · rw [right_UP]
        simp

-- `duppage` maps the page of the parent in the child.
theorem simulates_mapChild {child l} {pc : ForkPc} (hr : s.runs p)
    (hx : (s.proc p).fork.forking = some ⟨c, none, pn :: l⟩) (hne : pn ≠ PFTEMP)
    (hs : (s.proc p).space pn = some pte) (hrt : right perm = .share ↔ right pte.perm = .share)
    (hown : right perm ≠ .own) (hcow : right perm = .share → perm &&& PTE_COW = 0#32)
    (hpc : pc = .markCow c pn l ∧ right pte.perm ≠ .share ∨ pc = .loop c l ∧ right pte.perm ≠ .own) :
    Simulates s (.step p new child) ((s.setSpace c pn (some ⟨pte.page, perm⟩)).setFork p pc) := by
  obtain ⟨hst, hfl⟩ := runs_iff.mp hr
  refine ⟨hi.mapChild hr hx hne hs hrt hown hcow hpc, fun {t} h => ?_⟩
  have hf : t.forks p = some ⟨c, none, pn :: l⟩ := by rw [h.forks, forksTab, hx]
  have hp := h.runs_of hst
  have hstore : Represents ((s.setSpace c pn (some ⟨pte.page, perm⟩)).setFork p pc).table s.mem
      (t.store.copy (p, pn) (c, pn)) := by
    have ht : ((s.setSpace c pn (some ⟨pte.page, perm⟩)).setFork p pc).table =
        update s.table (c, pn) (some (pte.page, right perm)) := by
      rw [table_congr fun _ => setFork_space, table_update setSpace_self fun hq => by rw [setSpace_of_ne hq],
        if_neg hne]
      rfl
    rw [ht]
    exact h.store.copy (table_eq hs hne) hrt
  have hruns : t.runs = ((s.setSpace c pn (some ⟨pte.page, perm⟩)).setFork p pc).runsTab := by
    rw [h.runs]
    funext q
    simp [runsTab]
  have hforks : update t.forks p pc.forking =
      ((s.setSpace c pn (some ⟨pte.page, perm⟩)).setFork p pc).forksTab := by
    rw [forksTab_setFork, h.forks]
    congr 1
    funext q
    simp [forksTab]
  rcases hpc with ⟨rfl, -⟩ | ⟨rfl, -⟩
  · exact ⟨_, (Spec.Step.copy hp hf).run trivial, hstore, hruns, hforks⟩
  · exact ⟨_, copy_next hp hf trivial trivial, hstore, hruns, hforks⟩

theorem simulates_markCow {child l} (hr : s.runs p) (hk : (s.proc p).fork = .markCow c pn l)
    (hs : (s.proc p).space pn = some pte) : Simulates s (.step p new child)
    ((s.setSpace p pn (some ⟨pte.page, PTE_COW ||| PTE_U ||| PTE_P⟩)).setFork p (.loop c l)) := by
  obtain ⟨hst, hfl⟩ := runs_iff.mp hr
  have hne := hi.ne_PFTEMP hfl hs
  have hsh : right pte.perm ≠ .share := by
    have hki := (hi.each p).fork
    rw [hk] at hki
    obtain ⟨-, pte', hs', hsh⟩ := hki
    rw [hs] at hs'
    cases hs'
    exact hsh
  refine ⟨hi.markCow hr hk hs, fun {t} h => ?_⟩
  have hf : t.forks p = some ⟨c, some pn, l⟩ := by
    rw [h.forks, forksTab, hk]
    rfl
  refine ⟨_, (Spec.Step.next (h.runs_of hst) hf).run trivial, ?_, ?_, ?_⟩
  · rw [table_congr fun _ => setFork_space, table_update setSpace_self fun hq => by rw [setSpace_of_ne hq],
      if_neg hne]
    exact h.store.replace (table_eq hs hne) hsh (by rw [right_COW]; decide) rfl
  · rw [h.runs]
    funext q
    simp [runsTab]
  · have he : (s.setSpace p pn (some ⟨pte.page, PTE_COW ||| PTE_U ||| PTE_P⟩)).forksTab = s.forksTab := by
      funext q
      simp [forksTab]
    rw [forksTab_setFork, h.forks, he]
    rfl

theorem simulates_exofork (hst : (s.proc p).status = .runnable) (hk : (s.proc p).fork = .exofork)
    (hc : (s.proc c).status = .free) : Simulates s (.step p new c)
    ((s.setProc c ⟨fun _ => none, false, .notRunnable, .idle, .idle⟩).setFork p (.stackAlloc c)) := by
  have hcs := (hi.each c).free hc
  have hq := (hi.each c).quiet (.inl hc)
  refine ⟨hi.exofork hst hk hc, fun {t} h => ?_⟩
  have hf : t.forks p = none := by
    rw [h.forks, forksTab, hk]
    rfl
  have hapart : t.Apart c := by
    intro q x hx he
    rw [h.forks] at hx
    have hn := hi.child_status hx
    rw [he, hc] at hn
    cases hn
  have hrc : ¬t.runs c := by
    rw [h.runs, runsTab, hc]
    decide
  have hcell (pn : Nat) : t.store.cell (c, pn) = none := by
    rw [h.store.cell, table_none (hcs pn)]
    rfl
  refine ⟨_, (Spec.Step.fork (h.runs_of hst) hf hrc hapart hcell).run trivial, ?_, ?_, ?_⟩
  · have ht : ((s.setProc c ⟨fun _ => none, false, .notRunnable, .idle, .idle⟩).setFork p
        (.stackAlloc c)).table = s.table := by
      refine table_congr fun q => ?_
      by_cases hqc : q = c
      · subst hqc
        rw [setFork_space, setProc_self]
        exact (funext hcs).symm
      · rw [setFork_space, setProc_of_ne hqc]
    rw [ht]
    exact h.store
  · rw [h.runs]
    funext q
    by_cases hqc : q = c
    · subst hqc
      simp [runsTab, hc]
    · simp [runsTab, setProc_of_ne hqc]
  · have he : (s.setProc c ⟨fun _ => none, false, .notRunnable, .idle, .idle⟩).forksTab = s.forksTab := by
      funext q
      by_cases hqc : q = c
      · subst hqc
        rw [forksTab, setProc_self, forksTab, hq.1]
      · simp [forksTab, setProc_of_ne hqc]
    rw [forksTab_setFork, h.forks, he]
    rfl

theorem simulates_start {child} (hst : (s.proc p).status = .runnable) (hk : (s.proc p).fork = .loop c []) :
    Simulates s (.step p new child) ((s.setStatus c .runnable).setFork p .idle) := by
  refine ⟨hi.start hst hk, fun {t} h => ?_⟩
  have hf : t.forks p = some ⟨c, none, []⟩ := by
    rw [h.forks, forksTab, hk]
    rfl
  refine ⟨_, (Spec.Step.start (h.runs_of hst) hf).run trivial, ?_, ?_, ?_⟩
  · rw [table_congr fun _ => setFork_space, table_congr fun _ => setStatus_space]
    exact h.store
  · rw [h.runs]
    funext q
    by_cases hqc : q = c
    · subst hqc
      simp [runsTab]
    · simp [runsTab, hqc, setStatus_of_ne hqc]
  · have he : (s.setStatus c .runnable).forksTab = s.forksTab := by
      funext q
      simp [forksTab]
    rw [forksTab_setFork, h.forks, he]
    rfl

-- A page at the exception stack of `p` itself, or of its child.
theorem simulates_alloc {child} {pc : ForkPc} (hr : s.runs p) (hfree : s.Free new)
    (hq : q = p ∧ (s.proc p).fork.forking = none ∨ ∃ x, (s.proc p).fork.forking = some x ∧ x.child = q)
    (hold : ∀ c pn l, (s.proc p).fork ≠ .markCow c pn l) (hf : ∀ {s'}, ForkInv s' p pc)
    (hpc : pc.forking = (s.proc p).fork.forking) (hperm : right perm = .own)
    (hx : ∀ x, pc.forking = some x → x = ⟨x.child, none, pages⟩) :
    Simulates s (.step p new child)
      (((s.setSpace q UXSTACK (some ⟨new, perm⟩)).setMem new fun _ => 0#8).setFork p pc) := by
  obtain ⟨hst, hfl⟩ := runs_iff.mp hr
  have hne : UXSTACK ≠ PFTEMP := by decide
  have hcow : right perm = .share → perm &&& PTE_COW = 0#32 := by
    rw [hperm]
    intro hc
    cases hc
  have hi₁ := hi.alloc hst hne hfree hcow hfl (by
    rcases hq with hq | hq
    · exact .inl hq
    · exact .inr ⟨rfl, hq⟩)
  have hsf : (((s.setSpace q UXSTACK (some ⟨new, perm⟩)).setMem new fun _ => 0#8).proc p).fork =
      (s.proc p).fork := by rw [setMem_proc, setSpace_fork]
  have hi₂ := simulates_setFork (e := .step p new child) hi₁
    (by rw [setMem_proc, setSpace_status, hst]) (by rw [hsf]; exact hold) hf (by rw [hsf]; exact hpc)
  refine ⟨hi₂.1, fun {t} h => ?_⟩
  have hp := h.runs_of hst
  -- The page is one that the specification makes, for `p` or for the child.
  have hstep : ∃ a, t.Step a { t with store := t.store.put (q, UXSTACK) new (right perm) fun _ => 0#8 } ∧
      ∀ s', a.Of s (.step p new child) s' := by
    rcases hq with ⟨rfl, -⟩ | ⟨x, hx', rfl⟩
    · exact ⟨_, .put hp fun _ => h.fresh hfree _, fun _ => .inl rfl⟩
    · have hfk : t.forks p = some ⟨x.child, none, pages⟩ := by
        rw [h.forks, forksTab, hx', ← hx x (hpc.trans hx')]
      rw [hperm]
      exact ⟨_, .stack hp hfk, fun _ => trivial⟩
  obtain ⟨a, ha, hG⟩ := hstep
  refine ⟨_, ha.run (hG _), ?_, ?_, ?_⟩
  · rw [table_congr fun _ => setFork_space]
    exact h.put (q := q) hne hfree
  · rw [h.runs]
    funext q
    simp [runsTab]
  · have he : ((s.setSpace q UXSTACK (some ⟨new, perm⟩)).setMem new fun _ => 0#8).forksTab = s.forksTab := by
      funext q
      simp [forksTab]
    rw [forksTab_setFork, h.forks, he, hpc]
    exact (update_eq_self p s.forksTab).symm

theorem simulates_setUpcall {child} {pc : ForkPc} (hst : (s.proc p).status = .runnable)
    (hold : ∀ c pn l, (s.proc p).fork ≠ .markCow c pn l) (hf : ∀ {s'}, ForkInv s' p pc)
    (hpc : pc.forking = (s.proc p).fork.forking) :
    Simulates s (.step p new child) ((s.setUpcall q).setFork p pc) := by
  have hi₁ : Inv (s.setUpcall q) := hi.congr (fun _ => setUpcall_space) rfl (fun _ => setUpcall_status)
    (fun _ => setUpcall_fork) fun _ => setUpcall_fault
  have hi₂ := simulates_setFork (e := .step p new child) hi₁ (by rw [setUpcall_status, hst])
    (by rw [setUpcall_fork]; exact hold) hf (by rw [setUpcall_fork]; exact hpc)
  refine ⟨hi₂.1, fun {t} h => ⟨t, .refl, ?_⟩⟩
  exact (h.congr (fun _ => setUpcall_space) rfl (fun _ => setUpcall_status)
    fun _ => setUpcall_fork).setFork (by rw [setUpcall_fork]; exact hpc)

theorem simulates_forkStep {child} (hr : s.runs p) (hfree : s.Free new) (hc : (s.proc child).status = .free) :
    Simulates s (.step p new child) ((s.forkStep p new child).getD (s.setStatus p .panicked)) := by
  obtain ⟨hst, hfl⟩ := runs_iff.mp hr
  have hpanic : Simulates s (.step p new child) (s.setStatus p .panicked) := simulates_panic hi hst
  cases hk : (s.proc p).fork <;> simp only [forkStep, hk]
  case idle => exact hpanic
  case handlerAlloc =>
    cases hn : s.pageAlloc p UXSTACK new (PTE_W ||| PTE_U ||| PTE_P)
    case none => exact hpanic
    case some s₁ =>
      rw [pageAlloc_eq hn]
      exact simulates_alloc hi hr hfree (.inl ⟨rfl, by rw [hk]; rfl⟩) (by simp [hk]) trivial
        (by rw [hk]; rfl) right_WUP (by simp [ForkPc.forking])
  case handlerUpcall => exact simulates_setUpcall hi hst (by simp [hk]) trivial (by rw [hk]; rfl)
  case exofork => exact simulates_exofork hi hst hk hc
  case stackAlloc c =>
    cases hn : s.pageAlloc c UXSTACK new (PTE_P ||| PTE_W ||| PTE_U)
    case none => exact hpanic
    case some s₁ =>
      rw [pageAlloc_eq hn]
      exact simulates_alloc hi hr hfree (.inr ⟨⟨c, none, pages⟩, by rw [hk]; rfl, rfl⟩) (by simp [hk])
        trivial (by rw [hk]; rfl) right_PWU fun x hx => by cases hx; rfl
  case setUpcall c => exact simulates_setUpcall hi hst (by simp [hk]) trivial (by rw [hk]; rfl)
  case loop c l =>
    cases l
    case nil => exact simulates_start hi hst hk
    case cons pn l => exact simulates_duppage hi hr hk
  case mapPage c pn perm l =>
    cases hn : s.pageMap p pn c pn perm
    case none => exact hpanic
    case some s₁ =>
      obtain ⟨pte, hs, rfl⟩ := pageMap_eq hn
      have hki := (hi.each p).fork
      rw [hk] at hki
      obtain ⟨hne, pte', hs', -, hown, hrt, hcow⟩ := hki
      rw [hs] at hs'
      cases hs'
      exact simulates_mapChild hi hr (by rw [hk]; rfl) hne hs (by rw [hrt]) (by rwa [hrt]) hcow
        (.inr ⟨rfl, hown⟩)
  case mapCow c pn l =>
    cases hn : s.pageMap p pn c pn (PTE_COW ||| PTE_U ||| PTE_P)
    case none => exact hpanic
    case some s₁ =>
      obtain ⟨pte, hs, rfl⟩ := pageMap_eq hn
      have hki := (hi.each p).fork
      rw [hk] at hki
      obtain ⟨hne, pte', hs', hsh⟩ := hki
      rw [hs] at hs'
      cases hs'
      refine simulates_mapChild hi hr (by rw [hk]; rfl) hne hs ?_ (by rw [right_COW]; decide)
        (by rw [right_COW]; intro hc; cases hc) (.inl ⟨rfl, hsh⟩)
      rw [right_COW]
      exact ⟨fun hc => (by cases hc), fun hc => absurd hc hsh⟩
  case markCow c pn l =>
    cases hn : s.pageMap p pn p pn (PTE_COW ||| PTE_U ||| PTE_P)
    case none => exact hpanic
    case some s₁ =>
      obtain ⟨pte, hs, rfl⟩ := pageMap_eq hn
      exact simulates_markCow hi hr hk hs

theorem simulates_faultStep {child} (hst : (s.proc p).status = .runnable) (hfree : s.Free new) :
    Simulates s (.step p new child) ((s.faultStep p new).getD (s.setStatus p .panicked)) := by
  have hpanic : Simulates s (.step p new child) (s.setStatus p .panicked) := simulates_panic hi hst
  have hinv := (hi.each p).fault
  cases hpc : (s.proc p).fault <;> rw [hpc] at hinv <;> simp only [faultStep, hpc]
  case idle => exact hpanic
  case pageAlloc w =>
    cases hn : s.pageAlloc p PFTEMP new (PTE_W ||| PTE_U ||| PTE_P)
    case none => exact hpanic
    case some s₁ =>
      rw [pageAlloc_eq hn]
      simp only [Option.bind_eq_bind, Option.bind_some, Option.getD_some]
      refine ⟨hi.pageAlloc hst hpc hfree, fun {t} h => ⟨t, .refl, h.moved ?_ ?_ ?_⟩⟩
      · have ht := table_update (s := s)
          (u := (s.setSpace p PFTEMP (some ⟨new, PTE_W ||| PTE_U ||| PTE_P⟩)).setMem new fun _ => 0#8)
          (p := p) setSpace_self fun hq => by rw [setMem_proc, setSpace_of_ne hq]
        rw [table_congr fun _ => setFault_space, ht, if_pos rfl]
        exact h.store.unmapped hfree.table
      · simp
      · simp
  case memcpy w =>
    obtain ⟨hw, f, ht, ho⟩ := hinv
    obtain ⟨hne, pte, hs, -, -⟩ := hw
    have hm : s.memcpy p PFTEMP w.pn = some (s.setMem f (s.mem pte.page)) := by
      simp only [Sys.memcpy, ht, hs, if_neg WUP_W]
    rw [hm]
    simp only [Option.bind_eq_bind, Option.bind_some, Option.getD_some]
    refine ⟨hi.memcpy hst hpc ht hs, fun {t} h => ⟨t, .refl, h.moved ?_ ?_ ?_⟩⟩
    · rw [table_congr fun _ => setFault_space]
      refine h.store.unmapped fun k r hk => ?_
      obtain ⟨hn, pte', hm, he, -⟩ := of_table hk
      exact hn (ho hm he).2
    · simp
    · simp
  case pageMap w =>
    obtain ⟨⟨hne, pte, hs, hr, -⟩, f, ⟨ht, -⟩, hmem⟩ := hinv
    cases hn : s.pageMap p PFTEMP p w.pn (PTE_W ||| PTE_U ||| PTE_P)
    case none => exact hpanic
    case some s₁ =>
      obtain ⟨pte', hs', rfl⟩ := pageMap_eq hn
      rw [ht] at hs'
      cases hs'
      simp only [Option.bind_eq_bind, Option.bind_some, Option.getD_some]
      refine ⟨hi.pageMap hst hpc ht, fun {t} h => ⟨t, .refl, h.moved ?_ ?_ ?_⟩⟩
      · rw [table_congr fun _ => setFault_space, table_update setSpace_self fun hq => by
          rw [setSpace_of_ne hq], if_neg hne]
        have hk := table_eq hs hne
        rw [hr] at hk
        exact h.store.replace hk (by decide) (by simp) (hmem hs)
      · simp
      · simp
  case pageUnmap w =>
    refine ⟨hi.pageUnmap hst hpc, fun {t} h => ⟨t, .refl, h.moved ?_ ?_ ?_⟩⟩
    · rw [Option.getD_some, table_congr fun _ => setFault_space, table_update setSpace_self fun hq => by
        rw [setSpace_of_ne hq], if_pos rfl]
      exact h.store
    · simp
    · simp
  case again w =>
    obtain ⟨-, hne, f, hs⟩ := hinv
    have hm : s.store p w = some (s.setMem f (update (s.mem f) w.off w.byte)) := by
      simp only [Sys.store, hs, if_neg WUP_W]
    rw [hm]
    refine ⟨hi.again hst hpc hs, fun {t} h => ?_⟩
    obtain ⟨t₁, hrun, h₁⟩ := h.write (G := fun a => a.Of s (.step p new child)
      ((s.setMem f (update (s.mem f) w.off w.byte)).setFault p .idle)) hi hst hne hs WUP_W
      (fun b => update b w.off w.byte) ⟨rfl, w, hpc, rfl⟩ trivial
    exact ⟨t₁, hrun, h₁.congr (fun _ => setFault_space) rfl (fun _ => setFault_status)
      fun _ => setFault_fork⟩

-- What one event does.
theorem simulates (ha : Allowed s ev) (hn : s.next ev = some s') : Simulates s ev s' := by
  cases ev <;> simp only [Sys.next, Option.ite_none_right_eq_some, Option.some.injEq] at hn
  case write p w stack =>
    obtain ⟨hr, rfl⟩ := hn
    exact simulates_write hi hr
  case sysPageAlloc p pn new perm =>
    obtain ⟨⟨hr, hk⟩, hn⟩ := hn
    exact simulates_sysPageAlloc hi hr hk ha hn
  case sysPageUnmap p pn =>
    obtain ⟨⟨hr, hk⟩, rfl⟩ := hn
    exact simulates_sysPageUnmap hi hr hk
  case fork p =>
    obtain ⟨⟨hr, hk⟩, rfl⟩ := hn
    refine simulates_setFork hi (runs_iff.mp hr).1 (by simp [hk]) ?_ ?_ <;> split
    · trivial
    · trivial
    · rw [hk]
      rfl
    · rw [hk]
      rfl
  case step p new child =>
    obtain ⟨hfree, hc⟩ := ha
    split at hn
    case isTrue hr =>
      split at hn
      case isTrue => cases hn
      case isFalse =>
        cases hn
        exact simulates_forkStep hi hr hfree hc
    case isFalse =>
      split at hn
      case isTrue hst =>
        cases hn
        exact simulates_faultStep hi hst hfree
      case isFalse => cases hn
  case panic p =>
    obtain ⟨hst, rfl⟩ := hn
    exact simulates_panic hi hst
  case exit p =>
    split at hn
    case isTrue => cases hn
    case isFalse hst =>
      cases hn
      exact simulates_exit hi hst

end Events

end Lib.Cow

import Sisop.Lib.Theorems.CowSpec

namespace Lib.Cow

open Inc Function Library Library.Sharing Kern

variable {s s' : Sys} {t t' : Spec} {p q c pn new : Nat} {pte : Pte} {perm : Word} {w : Write} {ev : Event}

-- The first state: nobody is in `fork` or `pgfault`, and the pages of the environments are their own, are
-- only read or copied, or are shared.
structure Sys.Start (s : Sys) : Prop where
  excl  : Exclusive s.table fun _ _ => False
  cow   : ∀ {p pn pte}, (s.proc p).space pn = some pte → right pte.perm = .share →
    pte.perm &&& PTE_COW = 0#32
  temp  : ∀ p, (s.proc p).space PFTEMP = none
  free  : ∀ {p}, (s.proc p).status = .free → ∀ pn, (s.proc p).space pn = none
  fork  : ∀ p, (s.proc p).fork = .idle
  fault : ∀ p, (s.proc p).fault = .idle

def Sys.spec (s : Sys) : Spec where
  store := ⟨fun k => cellOf s.mem (s.table k), s.mem⟩
  runs  := s.runsTab
  forks := s.forksTab

theorem Sys.Start.inv (h : s.Start) : Inv s where
  excl  := h.excl.weaken fun _ _ hc => hc.elim
  cow   := h.cow
  each p := by
    refine ⟨h.free, fun _ => ⟨h.fork p, h.fault p⟩, ?_, ?_, ?_⟩
    · rw [h.fault p]
      exact h.temp p
    · rw [h.fork p]
      trivial
    · intro x hx
      rw [h.fork p] at hx
      cases hx
  uniq := by
    intro p q x y hx
    rw [h.fork p] at hx
    cases hx

theorem spec_refines : Refines s s.spec := ⟨⟨fun _ => rfl, fun _ => rfl⟩, rfl, rfl⟩

theorem Refines.read_eq (h : Refines s t) (hne : pn ≠ PFTEMP) (off : Nat) :
    read s p pn off = t.read p pn off := by
  rw [Spec.read, h.store.read_eq]
  simp [read, Lib.read, Sys.table, hne, Option.map_map, Function.comp_def]

theorem runs_simulates (hi : Inv s) (hr : s.Runs s') (h : Refines s t) :
    Inv s' ∧ ∃ t', Run Spec.Step (fun _ _ => True) t t' ∧ Refines s' t' := by
  induction hr
  case refl => exact ⟨hi, t, .refl, h⟩
  case tail hg hs ih =>
    obtain ⟨hi₁, t₁, hrun, h₁⟩ := ih
    obtain ⟨hi₂, hsim⟩ := simulates hi₁ hg hs
    obtain ⟨t₂, hrun₂, h₂⟩ := hsim h₁
    exact ⟨hi₂, t₂, hrun.trans (hrun₂.weaken fun _ => trivial), h₂⟩

-- What the forks of the specification rely on.
structure Spec.Inv (t : Spec) : Prop where
  child : ∀ {q x}, t.forks q = some x → ¬t.runs x.child
  uniq  : ∀ {q r x y}, t.forks q = some x → t.forks r = some y → x.child = y.child → q = r

-- `p` runs, its page is `a`, and so is that of the child once the loop has been there.
structure Spec.Copied (t : Spec) (p pn : Nat) (a : Option (Cell Nat (Nat → BitVec 8))) : Prop where
  runs  : t.runs p
  cell  : t.store.cell (p, pn) = a
  child : ∀ {x}, t.forks p = some x → pn ∈ x.left ∨ t.store.cell (x.child, pn) = a

-- What does not concern the page of `p`.
def Act.Spares (p pn : Nat) : Act → Prop
  | .write q pn' _ | .put q pn' _ _ _ | .unmap q pn' => (q, pn') ≠ (p, pn)
  | .exit q | .stop q                                => q ≠ p
  | _                                                => True

theorem Spec.Inv.step {a : Act} (h : t.Inv) (ha : t.Step a t') : t'.Inv := by
  cases ha
  case write | put | unmap | stack | again => exact ⟨h.child, h.uniq⟩
  case exit p _ =>
    have ho {q x} (hq : update t.forks p none q = some x) : t.forks q = some x := by
      by_cases hqp : q = p
      · rw [hqp, update_self] at hq
        cases hq
      · rwa [update_of_ne hqp] at hq
    refine ⟨fun {q x} hq hx => ?_, fun hq hr => h.uniq (ho hq) (ho hr)⟩
    by_cases hxp : x.child = p
    · simp [hxp] at hx
    · exact h.child (ho hq) (by simpa [hxp] using hx)
  case stop p =>
    refine ⟨fun {q x} hq hx => ?_, h.uniq⟩
    by_cases hxp : x.child = p
    · simp [hxp] at hx
    · exact h.child hq (by simpa [hxp] using hx)
  case fork p c hp hf hc hapart _ =>
    have ho {q x} (hq : update t.forks p (some ⟨c, none, pages⟩) q = some x) :
        q = p ∧ x.child = c ∨ q ≠ p ∧ t.forks q = some x := by
      by_cases hqp : q = p
      · rw [hqp, update_self] at hq
        cases hq
        exact .inl ⟨hqp, rfl⟩
      · rw [update_of_ne hqp] at hq
        exact .inr ⟨hqp, hq⟩
    refine ⟨fun {q x} hq hx => ?_, fun {q r x y} hq hr he => ?_⟩
    · rcases ho hq with ⟨-, hxc⟩ | ⟨-, hq⟩
      · rw [hxc] at hx
        exact hc hx
      · exact h.child hq hx
    · rcases ho hq with ⟨hqp, hxc⟩ | ⟨-, hq⟩ <;> rcases ho hr with ⟨hrp, hyc⟩ | ⟨-, hr⟩
      · rw [hqp, hrp]
      · exact absurd (he.symm.trans hxc) (hapart hr)
      · exact absurd (he.trans hyc) (hapart hq)
      · exact h.uniq hq hr he
  case copy p c pn l _ hf | next p c pn l _ hf =>
    have ho {q x z} (hz : z.child = c) (hq : update t.forks p (some z) q = some x) :
        ∃ y, t.forks q = some y ∧ y.child = x.child := by
      by_cases hqp : q = p
      · rw [hqp, update_self] at hq
        cases hq
        exact ⟨_, hqp ▸ hf, hz.symm⟩
      · rw [update_of_ne hqp] at hq
        exact ⟨x, hq, rfl⟩
    refine ⟨fun {q x} hq hx => ?_, fun {q r x y} hq hr he => ?_⟩
    · obtain ⟨y, hy, hyx⟩ := ho rfl hq
      exact h.child hy (hyx ▸ hx)
    · obtain ⟨x', hx, hxc⟩ := ho rfl hq
      obtain ⟨y', hy, hyc⟩ := ho rfl hr
      exact h.uniq hx hy (hxc.trans (he.trans hyc.symm))
  case start p c _ hf =>
    have ho {q x} (hq : update t.forks p none q = some x) : q ≠ p ∧ t.forks q = some x := by
      by_cases hqp : q = p
      · rw [hqp, update_self] at hq
        cases hq
      · rw [update_of_ne hqp] at hq
        exact ⟨hqp, hq⟩
    refine ⟨fun {q x} hq hx => ?_, fun hq hr => h.uniq (ho hq).2 (ho hr).2⟩
    obtain ⟨hne, hq⟩ := ho hq
    by_cases hxc : x.child = c
    · exact hne (h.uniq hq hf hxc)
    · exact h.child hq (by simpa [hxc] using hx)

theorem Spec.Copied.step {b : Option (Cell Nat (Nat → BitVec 8))} {a : Act} (h : t.Copied p pn b)
    (hi : t.Inv) (ha : t.Step a t') (hs : a.Spares p pn) (hpn : pn ∈ pages) : t'.Copied p pn b := by
  have hux : pn ≠ UXSTACK := (mem_pages.mp hpn).2
  -- A step that keeps the page of `p` and of its child.
  have hkeep {st : Store (Nat × Nat) Nat (Nat → BitVec 8)} (hp : st.cell (p, pn) = t.store.cell (p, pn))
      (hc : ∀ {x}, t.forks p = some x → st.cell (x.child, pn) = t.store.cell (x.child, pn)) :
      Spec.Copied { t with store := st } p pn b :=
    ⟨h.runs, hp.trans h.cell, fun {x} hx => (h.child hx).imp id (hc hx).trans⟩
  have hw {q pn' : Nat} (hq : t.runs q) (hs : (q, pn') ≠ (p, pn)) (k : Nat × Nat)
      (hk : k = (p, pn) ∨ ∃ x, t.forks p = some x ∧ k = (x.child, pn)) : k ≠ (q, pn') := by
    rcases hk with rfl | ⟨x, hx, rfl⟩
    · exact hs.symm
    · intro he
      obtain ⟨rfl, -⟩ := Prod.mk.inj he
      exact hi.child hx hq
  cases ha
  case write q pn' g hq =>
    have hcell {k} (hk : k ≠ (q, pn')) : (t.store.write (q, pn') g).cell k = t.store.cell k := by
      unfold Store.write
      split
      · rfl
      · exact update_of_ne hk _ _
      · rfl
    exact hkeep (hcell (hw hq hs _ (.inl rfl))) fun hx => hcell (hw hq hs _ (.inr ⟨_, hx, rfl⟩))
  case put q pn' f r v hq _ =>
    have hcell {k} (hk : k ≠ (q, pn')) : (t.store.put (q, pn') f r v).cell k = t.store.cell k := by
      cases r <;> exact update_of_ne hk _ _
    exact hkeep (hcell (hw hq hs _ (.inl rfl))) fun hx => hcell (hw hq hs _ (.inr ⟨_, hx, rfl⟩))
  case unmap q pn' hq =>
    exact hkeep (if_neg (hw hq hs _ (.inl rfl))) fun hx => if_neg (hw hq hs _ (.inr ⟨_, hx, rfl⟩))
  case stack q c f hq hf =>
    have hcell {k : Nat × Nat} (hk : k.2 = pn) :
        (t.store.put (c, UXSTACK) f .own fun _ => 0#8).cell k = t.store.cell k :=
      update_of_ne (fun he => hux (hk.symm.trans (congrArg Prod.snd he))) _ _
    exact hkeep (hcell rfl) fun _ => hcell rfl
  case exit q hapart =>
    have hp : (t.store.clear (·.1 = q)).cell (p, pn) = b := (if_neg (Ne.symm hs)).trans h.cell
    refine ⟨by simpa [Ne.symm hs] using h.runs, hp, fun {x} hx => ?_⟩
    dsimp only at hx
    rw [update_of_ne (Ne.symm hs)] at hx
    exact (h.child hx).imp id (if_neg (hapart hx)).trans
  case stop q => exact ⟨by simpa [Ne.symm hs] using h.runs, h.cell, h.child⟩
  case fork q c hq hf hc hapart _ =>
    refine ⟨h.runs, h.cell, fun {x} hx => ?_⟩
    dsimp only at hx
    by_cases hqp : p = q
    · rw [hqp, update_self] at hx
      cases hx
      exact .inl hpn
    · rw [update_of_ne hqp] at hx
      exact h.child hx
  case copy q c pn' l hq hf =>
    have hcp : c ≠ p := by
      rintro rfl
      exact hi.child hf h.runs
    have hp : (t.store.copy (q, pn') (c, pn')).cell (p, pn) = b :=
      (update_of_ne (fun he => hcp (Prod.ext_iff.mp he).1.symm) _ _).trans h.cell
    refine ⟨h.runs, hp, fun {x} hx => ?_⟩
    dsimp only at hx
    by_cases hqp : p = q
    · subst hqp
      rw [update_self] at hx
      cases hx
      by_cases hn : pn = pn'
      · subst hn
        exact .inr ((update_self ..).trans h.cell)
      · refine (h.child hf).imp (fun hm => (List.mem_cons.mp hm).resolve_left hn) fun he => ?_
        exact (update_of_ne (fun hc => hn (Prod.ext_iff.mp hc).2) _ _).trans he
    · rw [update_of_ne hqp] at hx
      have hxc : x.child ≠ c := fun he => hqp (hi.uniq hx hf he)
      exact (h.child hx).imp id (update_of_ne (fun hc => hxc (Prod.ext_iff.mp hc).1) _ _).trans
  case again q c pn' l hq hf =>
    have hcp : c ≠ p := by
      rintro rfl
      exact hi.child hf h.runs
    have hp : (t.store.copy (q, pn') (c, pn')).cell (p, pn) = b :=
      (update_of_ne (fun he => hcp (Prod.ext_iff.mp he).1.symm) _ _).trans h.cell
    refine ⟨h.runs, hp, fun {x} hx => ?_⟩
    dsimp only at hx
    by_cases hqp : p = q
    · subst hqp
      rw [hf] at hx
      cases hx
      by_cases hn : pn = pn'
      · subst hn
        exact .inr ((update_self ..).trans h.cell)
      · exact (h.child hf).imp id
          (update_of_ne (fun hc => hn (Prod.ext_iff.mp hc).2) _ _).trans
    · have hxc : x.child ≠ c := fun he => hqp (hi.uniq hx hf he)
      exact (h.child hx).imp id (update_of_ne (fun hc => hxc (Prod.ext_iff.mp hc).1) _ _).trans
  case next q c pn' l hq hf =>
    refine ⟨h.runs, h.cell, fun {x} hx => ?_⟩
    dsimp only at hx
    by_cases hqp : p = q
    · subst hqp
      rw [update_self] at hx
      cases hx
      have hc := h.child hf
      exact hc
    · rw [update_of_ne hqp] at hx
      exact h.child hx
  case start q c hq hf =>
    refine ⟨?_, h.cell, fun {x} hx => ?_⟩
    · by_cases hpc : p = c
      · simp [hpc]
      · simpa [hpc] using h.runs
    · dsimp only at hx
      by_cases hqp : p = q
      · rw [hqp, update_self] at hx
        cases hx
      · rw [update_of_ne hqp] at hx
        exact h.child hx

-- `p` is in `fork`.
def Sys.InFork (s : Sys) (p : Nat) : Prop := (s.proc p).status = .runnable ∧ (s.proc p).fork ≠ .idle

-- An event of the fork of `p`, other than a write to the page, spares the page.
theorem Act.Of.spares {a : Act} (ha : a.Of s ev s') (hn : s.next ev = some s') (hk : s.InFork p)
    (hw : ¬ev.Writes s p pn) (hux : pn ≠ UXSTACK) : a.Spares p pn ∨ ¬s'.InFork p := by
  cases a
  case write q pn' g =>
    refine .inl fun he => hw ?_
    obtain ⟨rfl, rfl⟩ := Prod.mk.inj he
    exact ha
  case put q pn' f r b =>
    refine .inl fun he => ?_
    obtain ⟨rfl, rfl⟩ := Prod.mk.inj he
    rcases ha with he | ⟨new, perm, rfl⟩
    · exact hux he
    · simp only [Sys.next, hk.2, and_false, if_false] at hn
      cases hn
  case unmap q pn' =>
    refine .inl fun he => ?_
    obtain ⟨rfl, rfl⟩ := Prod.mk.inj he
    obtain rfl : ev = .sysPageUnmap q pn' := ha
    simp only [Sys.next, hk.2, and_false, if_false] at hn
    cases hn
  case exit q =>
    by_cases hq : q = p
    · subst hq
      exact .inr fun hc => hc.2 ha
    · exact .inl hq
  case stop q =>
    by_cases hq : q = p
    · subst hq
      refine .inr fun hc => ?_
      have hst : (s'.proc q).status = .panicked := ha
      rw [hc.1] at hst
      cases hst
    · exact .inl hq
  all_goals exact .inl trivial

theorem copied_run {a : Option (Cell Nat (Nat → BitVec 8))} (hr : Run Spec.Step (fun _ a => a.Of s ev s') t t')
    (hn : s.next ev = some s') (hk : s.InFork p) (hw : ¬ev.Writes s p pn) (hpn : pn ∈ pages)
    (hi : t.Inv) (h : t.Copied p pn a) : t'.Inv ∧ (s'.InFork p → t'.Copied p pn a) := by
  induction hr
  case refl => exact ⟨hi, fun _ => h⟩
  case tail t₁ t₂ b _ hg hs ih =>
    refine ⟨ih.1.step hs, fun hf => ?_⟩
    rcases hg.spares hn hk hw (mem_pages.mp hpn).2 with hsp | hsp
    · exact (ih.2 hf).step ih.1 hs hsp hpn
    · exact absurd hf hsp

theorem Refines.inv (h : Refines s t) (hi : Inv s) : t.Inv where
  child := by
    intro q x hq
    rw [h.forks] at hq
    rw [h.runs, Sys.runsTab, hi.child_status hq]
    decide
  uniq := by
    intro q r x y hq hr
    rw [h.forks] at hq hr
    exact hi.uniq hq hr

-- The events of the fork of `p` that leave its page alone.
def Quiet (p pn : Nat) (s : Sys) (ev : Event) : Prop := Allowed s ev ∧ s.InFork p ∧ ¬ev.Writes s p pn

theorem quiet_run {a : Option (Cell Nat (Nat → BitVec 8))}
    (hr : Run (fun s ev s' => s.next ev = some s') (Quiet p pn) s s') (hpn : pn ∈ pages) (hi : Inv s)
    (hrf : Refines s t) (h : t.Copied p pn a) :
    Inv s' ∧ ∃ t', Refines s' t' ∧ (s'.InFork p → t'.Copied p pn a) := by
  induction hr
  case refl => exact ⟨hi, t, hrf, fun _ => h⟩
  case tail hg hn ih =>
    obtain ⟨ha, hk, hw⟩ := hg
    obtain ⟨hi₁, t₁, hrf₁, h₁⟩ := ih
    obtain ⟨hi₂, hsim⟩ := simulates hi₁ ha hn
    obtain ⟨t₂, hrun, hrf₂⟩ := hsim hrf₁
    exact ⟨hi₂, t₂, hrf₂, (copied_run hrun hn hk hw hpn (hrf₁.inv hi₁) (h₁ hk)).2⟩

namespace Sample

-- An environment with one page, and its exception stack.
def parent : Proc where
  space := update (update (fun _ => none) 0 (some ⟨7, PTE_W ||| PTE_U ||| PTE_P⟩)) UXSTACK
    (some ⟨8, PTE_W ||| PTE_U ||| PTE_P⟩)
  upcall := true
  status := .runnable
  fork := .idle
  fault := .idle

def start : Sys where
  proc p := if p = 1 then parent else ⟨fun _ => none, false, .free, .idle, .idle⟩
  mem _ off := BitVec.ofNat 8 off

theorem parent_zero : parent.space 0 = some ⟨7, PTE_W ||| PTE_U ||| PTE_P⟩ := by
  have h : 0 ≠ UXSTACK := by decide
  simp only [parent, update_of_ne h, update_self]

theorem parent_space {pn : Nat} {pte : Pte} (h : parent.space pn = some pte) :
    (pn = 0 ∧ pte = ⟨7, PTE_W ||| PTE_U ||| PTE_P⟩) ∨
      (pn = UXSTACK ∧ pte = ⟨8, PTE_W ||| PTE_U ||| PTE_P⟩) := by
  simp only [parent] at h
  by_cases hu : pn = UXSTACK
  · rw [hu, update_self] at h
    exact .inr ⟨hu, (Option.some.inj h).symm⟩
  · rw [update_of_ne hu] at h
    by_cases h0 : pn = 0
    · rw [h0, update_self] at h
      exact .inl ⟨h0, (Option.some.inj h).symm⟩
    · rw [update_of_ne h0] at h
      cases h

theorem start_space {p pn : Nat} {pte : Pte} (h : (start.proc p).space pn = some pte) :
    p = 1 ∧ ((pn = 0 ∧ pte = ⟨7, PTE_W ||| PTE_U ||| PTE_P⟩) ∨
      (pn = UXSTACK ∧ pte = ⟨8, PTE_W ||| PTE_U ||| PTE_P⟩)) := by
  by_cases hp : p = 1
  · subst hp
    exact ⟨rfl, parent_space h⟩
  · simp [start, hp] at h

theorem start_start : start.Start where
  excl := by
    have ht {k : Nat × Nat} {f : Nat} {r : Right} (h : start.table k = some (f, r)) :
        r = .own ∧ (k = (1, 0) ∧ f = 7 ∨ k = (1, UXSTACK) ∧ f = 8) := by
      obtain ⟨-, pte, hs, rfl, rfl⟩ := of_table h
      obtain ⟨hp, ⟨hn, rfl⟩ | ⟨hn, rfl⟩⟩ := start_space hs
      · exact ⟨right_WUP, .inl ⟨Prod.ext hp hn, rfl⟩⟩
      · exact ⟨right_WUP, .inr ⟨Prod.ext hp hn, rfl⟩⟩
    refine ⟨fun h₁ h₂ => ?_, fun h₁ h₂ hne => ?_⟩
    · cases (ht h₁).1
    · obtain ⟨-, ⟨rfl, rfl⟩ | ⟨rfl, rfl⟩⟩ := ht h₁ <;> obtain ⟨-, ⟨rfl, h⟩ | ⟨rfl, h⟩⟩ := ht h₂
      · exact absurd rfl hne
      · cases h
      · cases h
      · exact absurd rfl hne
  cow := by
    intro p pn pte hs hr
    obtain ⟨-, ⟨-, rfl⟩ | ⟨-, rfl⟩⟩ := start_space hs <;>
    · rw [right_WUP] at hr
      cases hr
  temp p := by
    by_cases hp : p = 1
    · subst hp
      decide
    · simp [start, hp]
  free := by
    intro p hf pn
    by_cases hp : p = 1
    · subst hp
      cases hf
    · simp [start, hp]
  fork p := by
    by_cases hp : p = 1 <;> simp [start, hp, parent]
  fault p := by
    by_cases hp : p = 1 <;> simp [start, hp, parent]

-- The states on the way: `1` is at `pc` of `fork`, `2` is its child from some point on, `3` is free, and
-- so are the pages from `n` on.
structure Way (n : Nat) (space : Space) (pc : ForkPc) (s : Sys) : Prop where
  status : (s.proc 1).status = .runnable
  fault  : (s.proc 1).fault = .idle
  fork   : (s.proc 1).fork = pc
  space  : (s.proc 1).space = space
  child  : (s.proc 2).status = if pc = .exofork then .free else .notRunnable
  free   : (s.proc 3).status = .free
  pages  : ∀ {p pn pte}, (s.proc p).space pn = some pte → pte.page < n

abbrev Goes (s s' : Sys) : Prop := Run (fun s ev s' => s.next ev = some s') (Quiet 1 0) s s'

variable {n : Nat} {space : Space} {pc : ForkPc} {l : List Nat}

namespace Way

open Sys

variable (h : Way n space pc s)

include h

theorem step {u : Sys} (hn : n ≤ new) (hc : (s.proc c).status = .free) (hk : pc ≠ .idle)
    (hs : s.forkStep 1 new c = some u) : Goes s u := by
  have hr : s.runs 1 := runs_iff.mpr ⟨h.status, h.fault⟩
  have hk : (s.proc 1).fork ≠ .idle := h.fork ▸ hk
  have hq : Quiet 1 0 s (.step 1 new c) := by
    refine ⟨⟨fun _ {_ _} hp he => ?_, hc⟩, ⟨h.status, hk⟩, ?_⟩
    · exact absurd (he ▸ h.pages hp) (Nat.not_lt.mpr hn)
    · rintro ⟨-, w, hw, -⟩
      rw [h.fault] at hw
      cases hw
  refine .single hq ?_
  simp only [Sys.next, hr, if_true, if_neg hk, hs, Option.getD_some]

theorem setFork {k : ForkPc} (hpc : pc ≠ .exofork) (hk : k ≠ .exofork) : Way n space k (s.setFork 1 k) where
  status := by simpa using h.status
  fault  := by simpa using h.fault
  fork   := setFork_self
  space  := by simpa using h.space
  child  := by rw [if_neg hk, setFork_status, h.child, if_neg hpc]
  free   := by simpa using h.free
  pages hp := h.pages (by simpa using hp)

theorem setSpace {i m : Nat} {x : Pte} (hm : x.page < m) (hn : n ≤ m) :
    Way m (if p = 1 then update space i (some x) else space) pc (s.setSpace p i (some x)) where
  status := by simpa using h.status
  fault  := by simpa using h.fault
  fork   := by simpa using h.fork
  space  := by
    split
    case isTrue hp => rw [hp, setSpace_self, h.space]
    case isFalse hp => rw [setSpace_of_ne (Ne.symm hp), h.space]
  child  := by simpa using h.child
  free   := by simpa using h.free
  pages {q pn' pte'} hp := by
    by_cases hq : q = p
    · subst hq
      rw [setSpace_self] at hp
      by_cases hpn : pn' = i
      · rw [hpn, update_self] at hp
        cases hp
        exact hm
      · rw [update_of_ne hpn] at hp
        exact lt_of_lt_of_le (h.pages hp) hn
    · rw [setSpace_of_ne hq] at hp
      exact lt_of_lt_of_le (h.pages hp) hn

theorem exofork (hpc : pc = .exofork) : ∃ s', Goes s s' ∧ Way n space (.stackAlloc 2) s' := by
  subst hpc
  refine ⟨_, h.step (c := 2) le_rfl h.child (by simp) (by rw [forkStep, h.fork]), ?_, ?_, setFork_self, ?_, ?_,
    ?_, fun {q pn pte} hp => ?_⟩
  · rw [setFork_status, setProc_of_ne (by decide), h.status]
  · rw [setFork_fault, setProc_of_ne (by decide), h.fault]
  · rw [setFork_space, setProc_of_ne (by decide), h.space]
  · rw [setFork_status, setProc_self]
    rfl
  · rw [setFork_status, setProc_of_ne (by decide), h.free]
  · rw [setFork_space] at hp
    by_cases hq : q = 2
    · subst hq
      rw [setProc_self] at hp
      cases hp
    · rw [setProc_of_ne hq] at hp
      exact h.pages hp

theorem stackAlloc (hpc : pc = .stackAlloc 2) : ∃ s', Goes s s' ∧ Way (n + 1) space (.setUpcall 2) s' := by
  subst hpc
  have ha : s.pageAlloc 2 UXSTACK n (PTE_P ||| PTE_W ||| PTE_U) =
      some ((s.setSpace 2 UXSTACK (some ⟨n, PTE_P ||| PTE_W ||| PTE_U⟩)).setMem n fun _ => 0#8) := by
    rw [Sys.pageAlloc, if_neg]
    rw [h.child]
    decide
  have hs := h.step le_rfl h.free (by simp) (u := ((s.setSpace 2 UXSTACK (some ⟨n, PTE_P ||| PTE_W |||
    PTE_U⟩)).setMem n fun _ => 0#8).setFork 1 (.setUpcall 2)) (by rw [forkStep, h.fork]; simp [ha])
  have hw := h.setSpace (p := 2) (i := UXSTACK) (x := ⟨n, PTE_P ||| PTE_W ||| PTE_U⟩) (Nat.lt_succ_self n)
    (Nat.le_succ n)
  have hw' : Way (n + 1) space (.stackAlloc 2)
      ((s.setSpace 2 UXSTACK (some ⟨n, PTE_P ||| PTE_W ||| PTE_U⟩)).setMem n fun _ => 0#8) :=
    ⟨hw.status, hw.fault, hw.fork, hw.space, hw.child, hw.free, hw.pages⟩
  exact ⟨_, hs, hw'.setFork (by simp) (by simp)⟩

theorem setUpcall (hpc : pc = .setUpcall 2) : ∃ s', Goes s s' ∧ Way n space (.loop 2 Cow.pages) s' := by
  subst hpc
  have hw : Way n space (.setUpcall 2) (s.setUpcall 2) :=
    ⟨by simpa using h.status, by simpa using h.fault, by simpa using h.fork, by simpa using h.space,
      by simpa using h.child, by simpa using h.free, fun hp => h.pages (by simpa using hp)⟩
  exact ⟨_, h.step le_rfl h.free (by simp) (by rw [forkStep, h.fork]), hw.setFork (by simp) (by simp)⟩

theorem pageMap {f : Nat} (hs : space pn = some ⟨f, PTE_W ||| PTE_U ||| PTE_P⟩)
    (hq : (s.proc q).status ≠ .free) : s.pageMap 1 pn q pn (PTE_COW ||| PTE_U ||| PTE_P) =
      some (s.setSpace q pn (some ⟨f, PTE_COW ||| PTE_U ||| PTE_P⟩)) := by
  have hb : badWrite (PTE_W ||| PTE_U ||| PTE_P) (PTE_COW ||| PTE_U ||| PTE_P) ≠ true := by decide
  rw [Sys.pageMap, if_neg (not_or.mpr ⟨hq, by decide⟩), h.space, hs]
  exact if_neg hb

-- The turn for a page that is the parent's own.
theorem turn {f : Nat} (hpc : pc = .loop 2 (0 :: l))
    (hs : space 0 = some ⟨f, PTE_W ||| PTE_U ||| PTE_P⟩) : ∃ s', Goes s s' ∧
      Way n (update space 0 (some ⟨f, PTE_COW ||| PTE_U ||| PTE_P⟩)) (.loop 2 l) s' := by
  subst hpc
  have hst : (s.proc 1).space 0 = some ⟨f, PTE_W ||| PTE_U ||| PTE_P⟩ := by rw [h.space, hs]
  have hf : f < n := h.pages hst
  have hd : duppage (some ⟨f, PTE_W ||| PTE_U ||| PTE_P⟩) 2 0 l = .mapCow 2 0 l := by
    have h₁ : ¬(PTE_W ||| PTE_U ||| PTE_P) &&& PTE_SHARE ≠ 0#32 := by decide
    rw [duppage, if_neg h₁, if_pos (.inl WUP_W)]
  have hr₁ := h.step le_rfl h.free (by simp) (u := s.setFork 1 (.mapCow 2 0 l))
    (by rw [forkStep, h.fork]; simp only [hst, hd])
  have h₁ := h.setFork (k := .mapCow 2 0 l) (by simp) (by simp)
  have hm₁ := h₁.pageMap (q := 2) hs (by rw [h₁.child]; simp)
  have hr₂ := h₁.step le_rfl h₁.free (by simp) (u := ((s.setFork 1 (.mapCow 2 0 l)).setSpace 2 0
    (some ⟨f, PTE_COW ||| PTE_U ||| PTE_P⟩)).setFork 1 (.markCow 2 0 l)) (by rw [forkStep, h₁.fork]; simp [hm₁])
  have h₂ := (h₁.setSpace (p := 2) (i := 0) (x := ⟨f, PTE_COW ||| PTE_U ||| PTE_P⟩) hf le_rfl).setFork
    (k := .markCow 2 0 l) (by simp) (by simp)
  generalize ((s.setFork 1 (.mapCow 2 0 l)).setSpace 2 0
    (some ⟨f, PTE_COW ||| PTE_U ||| PTE_P⟩)).setFork 1 (.markCow 2 0 l) = s₂ at hr₂ h₂
  rw [if_neg (by decide)] at h₂
  have hm₂ := h₂.pageMap (q := 1) hs (by rw [h₂.status]; simp)
  have hr₃ := h₂.step le_rfl h₂.free (by simp) (u := (s₂.setSpace 1 0
    (some ⟨f, PTE_COW ||| PTE_U ||| PTE_P⟩)).setFork 1 (.loop 2 l)) (by rw [forkStep, h₂.fork]; simp [hm₂])
  have h₃ := (h₂.setSpace (p := 1) (i := 0) (x := ⟨f, PTE_COW ||| PTE_U ||| PTE_P⟩) hf le_rfl).setFork
    (k := .loop 2 l) (by simp) (by simp)
  exact ⟨_, hr₁.trans (hr₂.trans hr₃), h₃⟩

-- The turns at which the parent has no page.
theorem skip (hpc : pc = .loop 2 l) (hl : ∀ pn ∈ l, space pn = none) :
    ∃ s', Goes s s' ∧ Way n space (.loop 2 []) s' := by
  induction l generalizing s pc
  case nil => exact ⟨s, .refl, hpc ▸ h⟩
  case cons pn l ih =>
    subst hpc
    have hs : s.forkStep 1 n 3 = some (s.setFork 1 (.loop 2 l)) := by
      rw [forkStep, h.fork, h.space]
      simp only [hl pn List.mem_cons_self, duppage]
    have hw := h.setFork (k := .loop 2 l) (by simp) (by simp)
    obtain ⟨s', hr, h'⟩ := ih hw rfl fun pn' hm => hl pn' (List.mem_cons_of_mem _ hm)
    exact ⟨s', (h.step le_rfl h.free (by simp) hs).trans hr, h'⟩

end Way

theorem pages_eq : ∃ l, pages = 0 :: l ∧ ∀ pn ∈ l, pn ≠ 0 ∧ pn ≠ UXSTACK := by
  have hn : ∃ n, PGNUM UTOP = n + 1 := ⟨PGNUM UTOP - 1, by decide⟩
  have hu : UXSTACK ≠ 0 := by decide
  unfold pages
  obtain ⟨n, hn⟩ := hn
  rw [hn]
  generalize UXSTACK = u at hu ⊢
  rw [List.range_succ_eq_map, List.filter_cons_of_pos (by simpa using hu.symm)]
  exact ⟨_, rfl, by simp⟩

-- The call, all of its turns, and the start of the child.
theorem start_run : ∃ s₁ s₂ s₃, start.next (.fork 1) = some s₁ ∧ Goes s₁ s₂ ∧
    (s₂.proc 1).fork = .loop 2 [] ∧ s₂.runs 1 ∧ Allowed s₂ (.step 1 10 3) ∧
    s₂.next (.step 1 10 3) = some s₃ := by
  obtain ⟨l, hl, hne⟩ := pages_eq
  have h₁ : Way 9 parent.space .exofork (start.setFork 1 .exofork) := by
    refine ⟨rfl, rfl, rfl, rfl, rfl, rfl, fun hp => ?_⟩
    rw [Sys.setFork_space] at hp
    obtain ⟨-, ⟨-, rfl⟩ | ⟨-, rfl⟩⟩ := start_space hp <;> decide
  obtain ⟨_, hr₁, h₂⟩ := h₁.exofork rfl
  obtain ⟨_, hr₂, h₃⟩ := h₂.stackAlloc rfl
  obtain ⟨_, hr₃, h₄⟩ := h₃.setUpcall rfl
  rw [hl] at h₄
  obtain ⟨_, hr₄, h₅⟩ := h₄.turn rfl parent_zero
  obtain ⟨s₂, hr₅, h₆⟩ := h₅.skip rfl fun pn hm => by
    rw [update_of_ne (hne pn hm).1]
    cases hp : parent.space pn
    case none => rfl
    case some =>
      rcases parent_space hp with ⟨hc, -⟩ | ⟨hc, -⟩
      · exact absurd hc (hne pn hm).1
      · exact absurd hc (hne pn hm).2
  have hr : s₂.runs 1 := Sys.runs_iff.mpr ⟨h₆.status, h₆.fault⟩
  have hn : s₂.next (.step 1 10 3) = some ((s₂.setStatus 2 .runnable).setFork 1 .idle) := by
    simp only [Sys.next, hr, if_true, h₆.fork, Sys.forkStep]
    rfl
  have ha : Allowed s₂ (.step 1 10 3) :=
    ⟨fun p {pn pte} hp he => absurd (he ▸ h₆.pages hp) (by decide), h₆.free⟩
  exact ⟨_, s₂, _, rfl, hr₁.trans (hr₂.trans (hr₃.trans (hr₄.trans hr₅))), h₆.fork, hr, ha, hn⟩

end Sample

-- The whole fork of the sample.
theorem Sample.start_runs : ∃ s₃, Sample.start.Runs s₃ ∧ (s₃.proc 2).status = .runnable := by
  obtain ⟨s₁, s₂, s₃, hf, hrf, hk, hr, ha, hn⟩ := Sample.start_run
  have ha₁ : Allowed Sample.start (.fork 1) := trivial
  have hf' : Sample.start.Runs s₁ := .single ha₁ hf
  refine ⟨s₃, (hf'.trans (hrf.weaken fun h => h.1)).tail ha hn, ?_⟩
  simp only [Sys.next, hr, if_true, hk, Sys.forkStep] at hn
  rw [← Option.some.inj hn]
  simp

end Lib.Cow

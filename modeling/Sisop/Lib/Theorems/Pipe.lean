import Sisop.Lib.Pipe

namespace Lib.Fds

open Library Function Slot

theorem INDEX2DATA_ne (i : FdNum) {j : FdNum} : INDEX2DATA i ≠ INDEX2FD j := by simp

-- Where the `struct Fd` of a pipe is mapped, the data page of the pipe is mapped beside it.
def Beside (ends : Nat → Option (Omode × Nat)) (sp : Space) : Prop :=
  ∀ v p om d, sp v = some p → ends p = some (om, d) →
    ∃ i, v = INDEX2FD i ∧ sp (INDEX2DATA i) = some d

variable {ε : Type} [DecidableEq ε]

-- The page at `v` is mapped nowhere else, and not yet the end of a pipe.
def Private (s : Sys ε) (e : ε) (v : Slot) : Prop :=
  ∃ p, s.space e v = some p ∧ s.ends p = none ∧
    ∀ e' v', s.space e' v' = some p → e' = e ∧ v' = v

-- What is known of the slots of an environment before its next system call.
def Held (s : Sys ε) (e : ε) : Pc ε → Prop
  | .pipeFd1 fd0 fd1   => fd0 ≠ fd1 ∧ Private s e (INDEX2FD fd0)
  | .pipeData fd0 fd1  => fd0 ≠ fd1 ∧ Private s e (INDEX2FD fd0) ∧ Private s e (INDEX2FD fd1)
  | .pipeMap fd0 fd1   => fd0 ≠ fd1 ∧ Private s e (INDEX2FD fd0) ∧ Private s e (INDEX2FD fd1)
  | .pipeErr3 fd0 _    => Private s e (INDEX2FD fd0)
  | .closeData fd _    => s.space e (INDEX2FD fd) = none
  | .closeAgain fd _   => s.space e (INDEX2FD fd) = none
  | .dupData _ newfd   => s.space e (INDEX2FD newfd) = none
  | .dupFd oldfd newfd => s.space e (INDEX2DATA oldfd) = none ∨
    s.space e (INDEX2DATA newfd) = s.space e (INDEX2DATA oldfd)
  | .dupErrData newfd  => s.space e (INDEX2FD newfd) = none
  | _                  => True

namespace Pc

-- The environment that `fork` is filling, and the slots that it has not copied yet.
def child : Pc ε → Option ε
  | .forkStack c   => some c
  | .forkUpcall c  => some c
  | .forkPages c _ => some c
  | .forkPanic c _ => c
  | _              => none

def todo : Pc ε → List Slot
  | .forkPages _ t => t
  | .forkPanic _ t => t
  | _              => slots

-- The environment is neither made by a `fork` nor in one.
def apart : Pc ε → Bool
  | .embryo => false
  | q       => q.child.isNone

variable {q : Pc ε}

omit [DecidableEq ε] in
theorem ne_embryo_of_apart (h : q.apart) : q ≠ .embryo := by
  rintro rfl
  cases h

omit [DecidableEq ε] in
theorem child_of_apart (h : q.apart) : q.child = none := by
  cases q
  case embryo => cases h
  all_goals exact Option.isNone_iff_eq_none.mp h

end Pc

structure Inv (s : Sys ε) : Prop where
  fresh  : ∀ {e v p}, s.space e v = some p → p < s.nextPage
  ends   : ∀ {p}, s.ends p ≠ none → p < s.nextPage
  held   : ∀ e, Held s e (s.pc e)
  beside : ∀ e, s.pc e ≠ .embryo → Beside s.ends (s.space e)
  child  : ∀ {e c}, (s.pc e).child = some c → s.pc c = .embryo ∧ (s.pc e).todo.Nodup ∧
    ∀ v, s.space c v = if v ∈ (s.pc e).todo then none else s.space e v
  parent : ∀ {c}, s.pc c = .embryo → ∃ e, (s.pc e).child = some c
  single : ∀ {e e' c}, (s.pc e).child = some c → (s.pc e').child = some c → e = e'

section Beside

variable {ends : Nat → Option (Omode × Nat)} {sp : Space} {i : FdNum} {p : Option Nat} {x : Nat}

theorem Beside.data (h : Beside ends sp) (hx : sp (INDEX2DATA i) = some x) : ends x = none := by
  cases he : ends x
  case none => rfl
  case some od =>
    obtain ⟨j, hj, -⟩ := h _ x od.1 od.2 hx he
    cases hj

theorem Beside.setFd (h : Beside ends sp)
    (hp : ∀ x om d, p = some x → ends x = some (om, d) → sp (INDEX2DATA i) = some d) :
    Beside ends (update sp (INDEX2FD i) p) := by
  intro v x om d hv he
  by_cases hvi : v = INDEX2FD i
  · subst hvi
    rw [update_self] at hv
    refine ⟨i, rfl, ?_⟩
    rw [update_of_ne (INDEX2DATA_ne i)]
    exact hp x om d hv he
  · rw [update_of_ne hvi] at hv
    obtain ⟨j, hj, hd⟩ := h v x om d hv he
    refine ⟨j, hj, ?_⟩
    rw [update_of_ne (INDEX2DATA_ne j)]
    exact hd

theorem Beside.unmapFd (h : Beside ends sp) : Beside ends (update sp (INDEX2FD i) none) :=
  h.setFd fun _ _ _ hx => by cases hx

theorem Beside.setData (h : Beside ends sp) (hfd : ∀ x, sp (INDEX2FD i) = some x → ends x = none)
    (hp : ∀ x, p = some x → ends x = none) : Beside ends (update sp (INDEX2DATA i) p) := by
  intro v x om d hv he
  by_cases hvi : v = INDEX2DATA i
  · subst hvi
    rw [update_self] at hv
    rw [hp x hv] at he
    cases he
  · rw [update_of_ne hvi] at hv
    obtain ⟨j, rfl, hd⟩ := h v x om d hv he
    refine ⟨j, rfl, ?_⟩
    rw [update_of_ne]
    · exact hd
    · intro hj
      cases hj
      rw [hfd x hv] at he
      cases he

end Beside

section Own

variable {s : Sys ε} {e : ε} {sp : Space} {n : Nat} {q : Pc ε} {v : Slot}

-- A change of another environment, which maps no page that only `e` has.
theorem Private.mono {e' : ε} {pc : ε → Pc ε} (h : Private s e v) (hi : Inv s) (hne : e ≠ e')
    (hsp : ∀ v p, sp v = some p → (∃ b v', b ≠ e ∧ s.space b v' = some p) ∨ s.nextPage ≤ p) :
    Private ⟨update s.space e' sp, pc, s.ends, n⟩ e v := by
  obtain ⟨p, hp, he, hu⟩ := h
  refine ⟨p, ?_, he, fun a w hw => ?_⟩
  · show update s.space e' sp e v = some p
    rw [update_of_ne hne]
    exact hp
  · have hw : update s.space e' sp a w = some p := hw
    by_cases ha : a = e'
    · subst ha
      rw [update_self] at hw
      rcases hsp w p hw with ⟨b, w', hb, hw'⟩ | hle
      · exact absurd (hu b w' hw').1 hb
      · have := hi.fresh hp
        omega
    · rw [update_of_ne ha] at hw
      exact hu a w hw

theorem Held.mono {e' : ε} {pc : ε → Pc ε} {r : Pc ε} (h : Held s e r) (hi : Inv s) (hne : e ≠ e')
    (hsp : ∀ v p, sp v = some p → (∃ b v', b ≠ e ∧ s.space b v' = some p) ∨ s.nextPage ≤ p) :
    Held ⟨update s.space e' sp, pc, s.ends, n⟩ e r := by
  have hs : update s.space e' sp e = s.space e := update_of_ne hne _ _
  cases r
  case pipeFd1 => exact ⟨h.1, h.2.mono hi hne hsp⟩
  case pipeData => exact ⟨h.1, h.2.1.mono hi hne hsp, h.2.2.mono hi hne hsp⟩
  case pipeMap => exact ⟨h.1, h.2.1.mono hi hne hsp, h.2.2.mono hi hne hsp⟩
  case pipeErr3 => exact Private.mono h hi hne hsp
  all_goals
    simp only [Held, hs] at h ⊢
    try exact h

-- A system call by which an environment that is not forking changes its own slots.
theorem Inv.own (h : Inv s) (he : (s.pc e).apart) (hn : s.nextPage ≤ n)
    (hsp : ∀ v p, sp v = some p → (∃ v', s.space e v' = some p) ∨ s.nextPage ≤ p ∧ p < n)
    (hb : Beside s.ends sp) (hq : q.apart)
    (hheld : Held ⟨update s.space e sp, update s.pc e q, s.ends, n⟩ e q) :
    Inv ⟨update s.space e sp, update s.pc e q, s.ends, n⟩ := by
  have hsp' {a : ε} (ha : a ≠ e) (v : Slot) (p : Nat) (hv : sp v = some p) :
      (∃ b v', b ≠ a ∧ s.space b v' = some p) ∨ s.nextPage ≤ p := by
    rcases hsp v p hv with ⟨v', hv'⟩ | hp
    · exact .inl ⟨e, v', ha.symm, hv'⟩
    · exact .inr hp.1
  have hchild {a c : ε} (ha : (update s.pc e q a).child = some c) :
      a ≠ e ∧ (s.pc a).child = some c := by
    by_cases hae : a = e
    · subst hae
      rw [update_self, Pc.child_of_apart hq] at ha
      cases ha
    · rw [update_of_ne hae] at ha
      exact ⟨hae, ha⟩
  constructor
  case fresh =>
    intro a v p hv
    have hv : update s.space e sp a v = some p := hv
    by_cases ha : a = e
    · subst ha
      rw [update_self] at hv
      rcases hsp v p hv with ⟨v', hv'⟩ | hp
      · exact lt_of_lt_of_le (h.fresh hv') hn
      · exact hp.2
    · rw [update_of_ne ha] at hv
      exact lt_of_lt_of_le (h.fresh hv) hn
  case ends => exact fun hp => lt_of_lt_of_le (h.ends hp) hn
  case held =>
    intro a
    by_cases ha : a = e
    · subst ha
      show Held _ a (update s.pc a q a)
      rw [update_self]
      exact hheld
    · show Held _ a (update s.pc e q a)
      rw [update_of_ne ha]
      exact (h.held a).mono h ha (hsp' ha)
  case beside =>
    intro a ha'
    by_cases ha : a = e
    · subst ha
      show Beside s.ends (update s.space a sp a)
      rw [update_self]
      exact hb
    · have ha' : update s.pc e q a ≠ .embryo := ha'
      rw [update_of_ne ha] at ha'
      show Beside s.ends (update s.space e sp a)
      rw [update_of_ne ha]
      exact h.beside a ha'
  case child =>
    intro a c ha
    obtain ⟨hae, ha⟩ := hchild ha
    obtain ⟨hce, hnd, hv⟩ := h.child ha
    have hne : c ≠ e := fun hc' => (Pc.ne_embryo_of_apart he) (hc' ▸ hce)
    show update s.pc e q c = .embryo ∧ (update s.pc e q a).todo.Nodup ∧ ∀ v, update s.space e sp c v =
      if v ∈ (update s.pc e q a).todo then none else update s.space e sp a v
    rw [update_of_ne hne, update_of_ne hae, update_of_ne hne, update_of_ne hae]
    exact ⟨hce, hnd, hv⟩
  case parent =>
    intro c hce
    have hce : update s.pc e q c = .embryo := hce
    have hne : c ≠ e := by
      rintro rfl
      rw [update_self] at hce
      exact (Pc.ne_embryo_of_apart hq) hce
    rw [update_of_ne hne] at hce
    obtain ⟨a, ha⟩ := h.parent hce
    refine ⟨a, ?_⟩
    show (update s.pc e q a).child = some c
    rw [update_of_ne]
    · exact ha
    · rintro rfl
      rw [Pc.child_of_apart he] at ha
      cases ha
  case single => exact fun ha ha' => h.single (hchild ha).2 (hchild ha').2

theorem Inv.goto (h : Inv s) (he : (s.pc e).apart) (hq : q.apart) (hheld : Held (s.goto e q) e q) :
    Inv (s.goto e q) := by
  have hs : s.goto e q = ⟨update s.space e (s.space e), update s.pc e q, s.ends, s.nextPage⟩ := by
    rw [update_eq_self]
    rfl
  rw [hs] at hheld ⊢
  exact h.own he le_rfl (fun v p hv => .inl ⟨v, hv⟩) (h.beside e (Pc.ne_embryo_of_apart he)) hq hheld

theorem Inv.map {p : Option Nat} (h : Inv s) (he : (s.pc e).apart)
    (hp : ∀ x, p = some x → ∃ v', s.space e v' = some x)
    (hb : Beside s.ends (update (s.space e) v p)) (hq : q.apart)
    (hheld : Held ((s.map e v p).goto e q) e q) : Inv ((s.map e v p).goto e q) := by
  refine h.own he le_rfl (fun w x hw => .inl ?_) hb hq hheld
  by_cases hv : w = v
  · subst hv
    rw [update_self] at hw
    exact hp x hw
  · rw [update_of_ne hv] at hw
    exact ⟨w, hw⟩

theorem Inv.pageAlloc (h : Inv s) (he : (s.pc e).apart)
    (hb : Beside s.ends (update (s.space e) v (some s.nextPage))) (hq : q.apart)
    (hheld : Held ((s.pageAlloc e v).goto e q) e q) :
    Inv ((s.pageAlloc e v).goto e q) := by
  refine h.own he (Nat.le_succ _) (fun w x hw => ?_) hb hq hheld
  by_cases hv : w = v
  · subst hv
    rw [update_self] at hw
    cases hw
    exact .inr ⟨le_rfl, Nat.lt_succ_self _⟩
  · rw [update_of_ne hv] at hw
    exact .inl ⟨w, hw⟩

omit [DecidableEq ε] in
theorem Inv.ends_nextPage (h : Inv s) : s.ends s.nextPage = none := by
  by_contra hc
  exact lt_irrefl _ (h.ends hc)

-- A page that has just been allocated is mapped once.
theorem Inv.private_alloc (h : Inv s) : Private ((s.pageAlloc e v).goto e q) e v := by
  refine ⟨s.nextPage, ?_, h.ends_nextPage, fun a w hw => ?_⟩
  · show update s.space e (update (s.space e) v (some s.nextPage)) e v = _
    rw [update_self, update_self]
  · have hw : update s.space e (update (s.space e) v (some s.nextPage)) a w = some s.nextPage := hw
    by_cases ha : a = e
    · subst ha
      rw [update_self] at hw
      by_cases hv : w = v
      · exact ⟨rfl, hv⟩
      · rw [update_of_ne hv] at hw
        exact absurd (h.fresh hw) (lt_irrefl _)
    · rw [update_of_ne ha] at hw
      exact absurd (h.fresh hw) (lt_irrefl _)

-- A page stays private where another slot of its environment changes.
theorem Private.update {w : Slot} {p : Option Nat} (h : Private s e w) (hne : w ≠ v)
    (hp : ∀ x, p = some x → s.space e w ≠ some x) :
    Private ⟨Function.update s.space e (Function.update (s.space e) v p), Function.update s.pc e q,
      s.ends, n⟩ e w := by
  obtain ⟨x, hx, hends, hu⟩ := h
  refine ⟨x, ?_, hends, fun a u hw => ?_⟩
  · show Function.update s.space e (Function.update (s.space e) v p) e w = _
    rw [update_self, update_of_ne hne]
    exact hx
  · have hw : Function.update s.space e (Function.update (s.space e) v p) a u = some x := hw
    by_cases ha : a = e
    · subst ha
      rw [update_self] at hw
      by_cases hv : u = v
      · subst hv
        rw [update_self] at hw
        exact absurd hx (hp x hw)
      · rw [update_of_ne hv] at hw
        exact hu a u hw
    · rw [update_of_ne ha] at hw
      exact hu a u hw

end Own

section Fork

variable {s : Sys ε} {e c : ε} {sp : Space} {q : Pc ε} {v : Slot}

omit [DecidableEq ε] in
theorem Pc.ne_embryo (h : q.child = some c) : q ≠ .embryo := by
  rintro rfl
  cases h

theorem mem_slots (v : Slot) : v ∈ slots := by
  revert v
  decide

theorem slots_nodup : slots.Nodup := by decide

-- A system call of `fork` that fills the slots of the child.
theorem Inv.fork (h : Inv s) (hc : (s.pc e).child = some c) (hq : q.child = some c)
    (hnd : q.todo.Nodup) (hsp : ∀ v, sp v = if v ∈ q.todo then none else s.space e v)
    (hheld : ∀ s', Held s' e q) : Inv ⟨update s.space c sp, update s.pc e q, s.ends, s.nextPage⟩ := by
  have hce := (h.child hc).1
  have hne : c ≠ e := by
    rintro rfl
    exact Pc.ne_embryo hc hce
  have hpage {v : Slot} {p : Nat} (hv : sp v = some p) : s.space e v = some p := by
    rw [hsp] at hv
    split at hv
    · cases hv
    · exact hv
  have hother {a c' : ε} (ha : a ≠ e) (hac : (update s.pc e q a).child = some c') :
      (s.pc a).child = some c' ∧ c' ≠ c ∧ c' ≠ e ∧ a ≠ c := by
    rw [update_of_ne ha] at hac
    refine ⟨hac, ?_, ?_, ?_⟩
    · rintro rfl
      exact ha (h.single hac hc)
    · rintro rfl
      exact Pc.ne_embryo hc (h.child hac).1
    · rintro rfl
      exact Pc.ne_embryo hac hce
  constructor
  case fresh =>
    intro a v p hv
    have hv : update s.space c sp a v = some p := hv
    by_cases ha : a = c
    · subst ha
      rw [update_self] at hv
      exact h.fresh (hpage hv)
    · rw [update_of_ne ha] at hv
      exact h.fresh hv
  case ends => exact h.ends
  case held =>
    intro a
    by_cases ha : a = e
    · subst ha
      show Held _ a (update s.pc a q a)
      rw [update_self]
      exact hheld _
    · show Held _ a (update s.pc e q a)
      rw [update_of_ne ha]
      by_cases hac : a = c
      · rw [hac, hce]
        trivial
      · exact (h.held a).mono h hac fun v p hv => .inl ⟨e, v, Ne.symm ha, hpage hv⟩
  case beside =>
    intro a hemb
    have hpc : update s.pc e q a ≠ .embryo := hemb
    have hac : a ≠ c := by
      intro hac
      rw [hac, update_of_ne hne] at hpc
      exact hpc hce
    show Beside s.ends (update s.space c sp a)
    rw [update_of_ne hac]
    by_cases ha : a = e
    · exact ha ▸ h.beside e (Pc.ne_embryo hc)
    · rw [update_of_ne ha] at hpc
      exact h.beside a hpc
  case child =>
    intro a c' hac
    have hac : (update s.pc e q a).child = some c' := hac
    show update s.pc e q c' = .embryo ∧ (update s.pc e q a).todo.Nodup ∧ ∀ v, update s.space c sp c' v =
      if v ∈ (update s.pc e q a).todo then none else update s.space c sp a v
    by_cases ha : a = e
    · subst ha
      rw [update_self] at hac ⊢
      rw [hq, Option.some.injEq] at hac
      subst hac
      rw [update_of_ne hne, update_self, update_of_ne hne.symm]
      exact ⟨hce, hnd, hsp⟩
    · obtain ⟨hac, h₁, h₂, h₃⟩ := hother ha hac
      rw [update_of_ne h₂, update_of_ne ha, update_of_ne h₁, update_of_ne h₃]
      exact h.child hac
  case parent =>
    intro c' hc'
    have hc' : update s.pc e q c' = .embryo := hc'
    have hne' : c' ≠ e := by
      rintro rfl
      rw [update_self] at hc'
      exact Pc.ne_embryo hq hc'
    rw [update_of_ne hne'] at hc'
    obtain ⟨a, ha⟩ := h.parent hc'
    refine ⟨a, ?_⟩
    show (update s.pc e q a).child = some c'
    by_cases hae : a = e
    · subst hae
      rw [update_self, hq, ← hc, ha]
    · rw [update_of_ne hae]
      exact ha
  case single =>
    intro a a' c' ha ha'
    by_cases hae : a = e
    · by_cases hae' : a' = e
      · exact hae.trans hae'.symm
      · have h₁ := hother hae' ha'
        subst hae
        have ha : (update s.pc a q a).child = some c' := ha
        rw [update_self, hq, Option.some.injEq] at ha
        exact absurd ha.symm h₁.2.1
    · have h₁ := hother hae ha
      by_cases hae' : a' = e
      · subst hae'
        have ha' : (update s.pc a' q a').child = some c' := ha'
        rw [update_self, hq, Option.some.injEq] at ha'
        exact absurd ha'.symm h₁.2.1
      · exact h.single h₁.1 (hother hae' ha').1

-- A system call of `fork` that does not change the slots of the child.
theorem Inv.fork_goto (h : Inv s) (hc : (s.pc e).child = some c) (hq : q.child = some c)
    (hnd : q.todo.Nodup) (ht : ∀ v, v ∈ q.todo ↔ v ∈ (s.pc e).todo ∧ (s.space e v ≠ none ∨ v ∈ q.todo))
    (hheld : ∀ s', Held s' e q) : Inv (s.goto e q) := by
  have hs : s.goto e q = ⟨update s.space c (s.space c), update s.pc e q, s.ends, s.nextPage⟩ := by
    rw [update_eq_self]
    rfl
  rw [hs]
  refine h.fork hc hq hnd (fun v => ?_) hheld
  rw [(h.child hc).2.2]
  have hv := ht v
  split <;> split <;> tauto

-- The child starts to run.
theorem Inv.forkRun (h : Inv s) (he : s.pc e = .forkPages c []) :
    Inv ((s.goto c .user).goto e .user) := by
  have hc : (s.pc e).child = some c := by
    rw [he]
    rfl
  obtain ⟨hce, -, hv⟩ := h.child hc
  have hne : c ≠ e := by
    rintro rfl
    exact Pc.ne_embryo hc hce
  have hpc (a : ε) : ((s.goto c .user).goto e .user).pc a = if a = e ∨ a = c then .user else s.pc a := by
    show update (update s.pc c .user) e .user a = _
    by_cases hae : a = e
    · rw [hae, update_self, if_pos (.inl rfl)]
    · rw [update_of_ne hae]
      by_cases hac : a = c
      · rw [hac, update_self, if_pos (.inr rfl)]
      · rw [update_of_ne hac, if_neg (not_or.mpr ⟨hae, hac⟩)]
  have hchild {a c' : ε} (ha : (((s.goto c .user).goto e .user).pc a).child = some c') :
      (s.pc a).child = some c' ∧ a ≠ e ∧ a ≠ c := by
    rw [hpc] at ha
    split at ha
    · cases ha
    · rename_i hn
      exact ⟨ha, not_or.mp hn⟩
  constructor
  case fresh => exact h.fresh
  case ends => exact h.ends
  case held =>
    intro a
    rw [hpc]
    split
    · trivial
    · have ha := h.held a
      cases hr : s.pc a <;> rw [hr] at ha <;> exact ha
  case beside =>
    intro a ha
    show Beside s.ends (s.space a)
    by_cases hac : a = c
    · have hs : s.space c = s.space e := funext fun v => by
        rw [hv v, he]
        exact if_neg List.not_mem_nil
      rw [hac, hs]
      exact h.beside e (Pc.ne_embryo hc)
    · refine h.beside a fun hemb => ?_
      rw [hpc] at ha
      split at ha
      · rename_i hor
        rcases hor with rfl | rfl
        · exact Pc.ne_embryo hc hemb
        · exact hac rfl
      · exact ha hemb
  case child =>
    intro a c' ha
    obtain ⟨ha₁, hae, hac⟩ := hchild ha
    have hc' := h.child ha₁
    rw [hpc, hpc, if_neg (not_or.mpr ⟨hae, hac⟩), if_neg]
    · exact hc'
    · rintro (h₁ | h₁)
      · exact Pc.ne_embryo hc (h₁ ▸ hc'.1)
      · exact hae (h.single ha₁ (h₁ ▸ hc))
  case parent =>
    intro c' hc'
    rw [hpc] at hc'
    split at hc'
    · cases hc'
    · rename_i hn
      obtain ⟨a, ha⟩ := h.parent hc'
      refine ⟨a, ?_⟩
      rw [hpc, if_neg]
      · exact ha
      · rintro (rfl | rfl)
        · rw [hc, Option.some.injEq] at ha
          exact hn (.inr ha.symm)
        · exact Pc.ne_embryo ha hce
  case single => exact fun ha ha' => h.single (hchild ha).1 (hchild ha').1

end Fork

section Exofork

variable {s : Sys ε} {e c : ε}

theorem Inv.exofork (h : Inv s) (he : s.pc e = .exofork) (hc : s.pc c = .free) :
    Inv (({ s with space := update s.space c fun _ => none }.goto c .embryo).goto e
      (.forkStack c)) := by
  have hne : c ≠ e := by
    rintro rfl
    rw [he] at hc
    cases hc
  have hchild_e : (s.pc e).child = none := by
    rw [he]
    rfl
  have hpc (a : ε) : update (update s.pc c .embryo) e (.forkStack c) a =
      if a = e then .forkStack c else if a = c then .embryo else s.pc a := by
    by_cases hae : a = e
    · rw [hae, update_self, if_pos rfl]
    · rw [update_of_ne hae, if_neg hae]
      by_cases hac : a = c
      · rw [hac, update_self, if_pos rfl]
      · rw [update_of_ne hac, if_neg hac]
  have hchild {a c' : ε} (ha : (update (update s.pc c .embryo) e (.forkStack c) a).child = some c') :
      a = e ∧ c' = c ∨ a ≠ e ∧ a ≠ c ∧ c' ≠ c ∧ c' ≠ e ∧ (s.pc a).child = some c' := by
    rw [hpc] at ha
    split at ha
    case isTrue hae => exact .inl ⟨hae, (Option.some.inj ha).symm⟩
    case isFalse hae =>
      split at ha
      case isTrue => cases ha
      case isFalse hac =>
        have hemb := (h.child ha).1
        refine .inr ⟨hae, hac, fun hx => ?_, fun hx => ?_, ha⟩
        · rw [hx, hc] at hemb
          cases hemb
        · rw [hx, he] at hemb
          cases hemb
  constructor
  case fresh =>
    intro a v p hv
    have hv : update s.space c (fun _ => none) a v = some p := hv
    by_cases ha : a = c
    · rw [ha, update_self] at hv
      cases hv
    · rw [update_of_ne ha] at hv
      exact h.fresh hv
  case ends => exact h.ends
  case held =>
    intro a
    show Held _ a (update (update s.pc c .embryo) e (.forkStack c) a)
    rw [hpc]
    split
    case isTrue => trivial
    case isFalse =>
      split
      case isTrue => trivial
      case isFalse hac => exact (h.held a).mono h hac fun v p hv => by cases hv
  case beside =>
    intro a hemb
    have hemb : update (update s.pc c .embryo) e (.forkStack c) a ≠ .embryo := hemb
    rw [hpc] at hemb
    show Beside s.ends (update s.space c (fun _ => none) a)
    by_cases hac : a = c
    · rw [hac, if_neg hne, if_pos rfl] at hemb
      exact absurd rfl hemb
    · rw [update_of_ne hac]
      by_cases hae : a = e
      · rw [hae]
        refine h.beside e ?_
        rw [he]
        exact fun hx => (by cases hx)
      · rw [if_neg hae, if_neg hac] at hemb
        exact h.beside a hemb
  case child =>
    intro a c' ha
    have ha : (update (update s.pc c .embryo) e (.forkStack c) a).child = some c' := ha
    show update (update s.pc c .embryo) e (.forkStack c) c' = .embryo ∧
      (update (update s.pc c .embryo) e (.forkStack c) a).todo.Nodup ∧
      ∀ v, update s.space c (fun _ => none) c' v =
        if v ∈ (update (update s.pc c .embryo) e (.forkStack c) a).todo then none
        else update s.space c (fun _ => none) a v
    rw [hpc, hpc]
    rcases hchild ha with ⟨h₁, h₂⟩ | ⟨h₁, h₂, h₃, h₄, h₅⟩
    · rw [h₁, h₂, if_neg hne, if_pos rfl, if_pos rfl, update_self]
      refine ⟨rfl, slots_nodup, fun v => ?_⟩
      exact (if_pos (mem_slots v)).symm
    · rw [if_neg h₄, if_neg h₃, if_neg h₁, if_neg h₂, update_of_ne h₃, update_of_ne h₂]
      exact h.child h₅
  case parent =>
    intro c' hemb
    have hemb : update (update s.pc c .embryo) e (.forkStack c) c' = .embryo := hemb
    show ∃ a, (update (update s.pc c .embryo) e (.forkStack c) a).child = some c'
    rw [hpc] at hemb
    split at hemb
    case isTrue => cases hemb
    case isFalse hce =>
      split at hemb
      case isTrue hcc =>
        refine ⟨e, ?_⟩
        rw [hpc, if_pos rfl, hcc]
        rfl
      case isFalse hcc =>
        obtain ⟨a, ha⟩ := h.parent hemb
        refine ⟨a, ?_⟩
        rw [hpc, if_neg, if_neg]
        · exact ha
        · intro hx
          rw [hx, hc] at ha
          cases ha
        · intro hx
          rw [hx, hchild_e] at ha
          cases ha
  case single =>
    intro a a' c' ha ha'
    rcases hchild ha with ⟨h₁, h₂⟩ | ⟨-, -, h₃, -, h₅⟩
    · rcases hchild ha' with ⟨h₁', -⟩ | ⟨-, -, h₃', -⟩
      · exact h₁.trans h₁'.symm
      · exact absurd h₂ h₃'
    · rcases hchild ha' with ⟨-, h₂'⟩ | ⟨-, -, -, -, h₅'⟩
      · exact absurd h₂' h₃
      · exact h.single h₅ h₅'

end Exofork

section SetFds

variable {s : Sys ε} {e : ε} {fd0 fd1 : FdNum} {en : Nat → Option (Omode × Nat)}

omit [DecidableEq ε] in
theorem Held.setEnds {a : ε} {r : Pc ε} (h : Held s a r)
    (he : ∀ v, Private s a v → ∀ p, s.space a v = some p → en p = s.ends p) :
    Held { s with ends := en } a r := by
  have hpriv {v : Slot} (hp : Private s a v) : Private { s with ends := en } a v := by
    obtain ⟨p, hp₁, hp₂, hp₃⟩ := hp
    exact ⟨p, hp₁, (he v ⟨p, hp₁, hp₂, hp₃⟩ p hp₁).trans hp₂, hp₃⟩
  cases r
  case pipeFd1 => exact ⟨h.1, hpriv h.2⟩
  case pipeData => exact ⟨h.1, hpriv h.2.1, hpriv h.2.2⟩
  case pipeMap => exact ⟨h.1, hpriv h.2.1, hpriv h.2.2⟩
  case pipeErr3 => exact hpriv h
  all_goals exact h

-- The pages of the two ends of a new pipe are known to its environment only.
theorem Inv.setFds (h : Inv s) (he : s.pc e = .user) (h₀ : Private s e (INDEX2FD fd0))
    (h₁ : Private s e (INDEX2FD fd1))
    (hd : s.space e (INDEX2DATA fd1) = s.space e (INDEX2DATA fd0)) : Inv (s.setFds e fd0 fd1) := by
  obtain ⟨p₀, hp₀, he₀, hu₀⟩ := h₀
  obtain ⟨p₁, hp₁, he₁, hu₁⟩ := h₁
  unfold Sys.setFds
  rw [hp₀, hp₁]
  cases hdata : s.space e (INDEX2DATA fd0)
  case none => exact h
  case some d =>
    have hends (p : Nat) : update (update s.ends p₀ (some (.O_RDONLY, d))) p₁ (some (.O_WRONLY, d)) p =
        if p = p₁ then some (.O_WRONLY, d) else if p = p₀ then some (.O_RDONLY, d) else s.ends p := by
      by_cases h₁ : p = p₁
      · rw [h₁, update_self, if_pos rfl]
      · rw [update_of_ne h₁, if_neg h₁]
        by_cases h₀ : p = p₀
        · rw [h₀, update_self, if_pos rfl]
        · rw [update_of_ne h₀, if_neg h₀]
    show Inv { s with ends := update (update s.ends p₀ (some (.O_RDONLY, d))) p₁ (some (.O_WRONLY, d)) }
    refine ⟨h.fresh, fun {p} hp => ?_, fun a => ?_, fun a ha => ?_, h.child, h.parent, h.single⟩
    · have hp : update (update s.ends p₀ (some (.O_RDONLY, d))) p₁ (some (.O_WRONLY, d)) p ≠ none := hp
      rw [hends] at hp
      split at hp
      case isTrue hx =>
        rw [hx]
        exact h.fresh hp₁
      case isFalse =>
        split at hp
        case isTrue hx =>
          rw [hx]
          exact h.fresh hp₀
        case isFalse => exact h.ends hp
    · by_cases hae : a = e
      · show Held _ a (s.pc a)
        rw [hae, he]
        trivial
      · refine (h.held a).setEnds fun v _ p hp => ?_
        rw [hends, if_neg, if_neg]
        · rintro rfl
          exact hae (hu₀ a v hp).1
        · rintro rfl
          exact hae (hu₁ a v hp).1
    · intro v p om d' hv hp
      have hv : s.space a v = some p := hv
      have hp : update (update s.ends p₀ (some (.O_RDONLY, d))) p₁ (some (.O_WRONLY, d)) p =
        some (om, d') := hp
      rw [hends] at hp
      split at hp
      case isTrue hx =>
        rw [hx] at hv
        obtain ⟨rfl, rfl⟩ := hu₁ a v hv
        cases hp
        exact ⟨fd1, rfl, hd.trans hdata⟩
      case isFalse =>
        split at hp
        case isTrue hx =>
          rw [hx] at hv
          obtain ⟨rfl, rfl⟩ := hu₀ a v hv
          cases hp
          exact ⟨fd0, rfl, hdata⟩
        case isFalse => exact h.beside a ha v p om d' hv hp

end SetFds

end Lib.Fds

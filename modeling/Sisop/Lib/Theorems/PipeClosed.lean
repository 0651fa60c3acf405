import Sisop.Lib.Theorems.Pipe

namespace Lib.Fds

open Library Function Slot

variable {ε : Type} [DecidableEq ε]

section Next

variable {s s' : Sys ε} {e c : ε} {inp : Input ε} {fd fd0 fd1 oldfd newfd : FdNum} {k : After} {q : Pc ε}

omit [DecidableEq ε] in
theorem Pc.apart_resume : (s.resume e fd k).apart := by
  cases k
  case dup =>
    simp only [Sys.resume]
    split <;> rfl
  all_goals rfl

theorem Held.resume (h : s.space e (INDEX2FD fd) = none) (q : Pc ε) :
    Held (s.goto e q) e (s.resume e fd k) := by
  cases k
  case dup oldfd =>
    simp only [Sys.resume]
    split
    case isTrue => exact h
    case isFalse hd => exact .inl (Option.not_isSome_iff_eq_none.mp hd)
  all_goals trivial

theorem Inv.close (h : Inv s) (he : (s.pc e).apart) : Inv (s.close e fd k) := by
  unfold Sys.close
  split
  case isTrue => exact h.goto he rfl trivial
  case isFalse hl =>
    exact h.goto he Pc.apart_resume (.resume (Option.not_isSome_iff_eq_none.mp hl) _)

omit [DecidableEq ε] in
theorem fdAlloc_spec {i : FdNum} (h : s.fdAlloc e = some i) : s.space e (INDEX2FD i) = none := by
  have hf := List.find?_some h
  simpa [Sys.fdLookup] using hf

theorem Inv.user (h : Inv s) (he : s.pc e = .user) (hx : s.next e inp = some s') : Inv s' := by
  have ha : (s.pc e).apart := by rw [he]; rfl
  simp only [Sys.next, he] at hx
  split at hx
  case h_1 =>
    split at hx
    · cases hx
      exact h.goto ha rfl trivial
    · cases hx
      exact h
  case h_2 =>
    split at hx
    · cases hx
      exact h.close ha
    · cases hx
      exact h
  case h_3 =>
    cases hx
    exact h.close ha
  case h_4 =>
    cases hx
    exact h.goto ha rfl trivial
  case h_5 =>
    cases hx
    exact h.goto ha rfl trivial

theorem Inv.pipeFd0 (h : Inv s) (he : s.pc e = .pipeFd0 fd0) (hx : s.next e inp = some s') : Inv s' := by
  have ha : (s.pc e).apart := by rw [he]; rfl
  have hb : Beside s.ends (update (s.space e) (INDEX2FD fd0) (some s.nextPage)) :=
    (h.beside e (Pc.ne_embryo_of_apart ha)).setFd fun x om d hp hends => by
      cases hp
      rw [h.ends_nextPage] at hends
      cases hends
  simp only [Sys.next, he] at hx
  split at hx
  case isTrue =>
    cases hx
    exact h.goto ha rfl trivial
  case isFalse =>
    split at hx
    case h_1 fd1 hf =>
      cases hx
      refine h.pageAlloc ha hb rfl ⟨?_, h.private_alloc⟩
      rintro rfl
      have hn : update s.space e (update (s.space e) (INDEX2FD fd0) (some s.nextPage)) e (INDEX2FD fd0) =
        none := fdAlloc_spec hf
      rw [update_self, update_self] at hn
      cases hn
    case h_2 =>
      cases hx
      exact h.pageAlloc ha hb rfl trivial

omit [DecidableEq ε] in
-- The page of a slot is not the next one.
theorem Inv.ne_nextPage (h : Inv s) {v : Slot} {x : Nat} (hx : some s.nextPage = some x) :
    s.space e v ≠ some x := by
  cases hx
  exact fun hv => absurd (h.fresh hv) (lt_irrefl _)

theorem Inv.pipeFd1 (h : Inv s) (he : s.pc e = .pipeFd1 fd0 fd1) (hx : s.next e inp = some s') :
    Inv s' := by
  have ha : (s.pc e).apart := by rw [he]; rfl
  have hh := h.held e
  rw [he] at hh
  obtain ⟨hne, hp⟩ := hh
  simp only [Sys.next, he] at hx
  split at hx
  case isTrue =>
    cases hx
    exact h.goto ha rfl trivial
  case isFalse =>
    cases hx
    refine h.pageAlloc ha ?_ rfl ⟨hne, hp.update (fun hv => hne (INDEX2FD.inj hv)) fun x hx =>
      h.ne_nextPage hx, h.private_alloc⟩
    exact (h.beside e (Pc.ne_embryo_of_apart ha)).setFd fun x om d hp hends => by
      cases hp
      rw [h.ends_nextPage] at hends
      cases hends

omit [DecidableEq ε] in
theorem Private.ends {v : Slot} {x : Nat} (h : Private s e v) (hx : s.space e v = some x) :
    s.ends x = none := by
  obtain ⟨p, hp, he, -⟩ := h
  rw [hp] at hx
  cases hx
  exact he

theorem Inv.pipeData (h : Inv s) (he : s.pc e = .pipeData fd0 fd1) (hx : s.next e inp = some s') :
    Inv s' := by
  have ha : (s.pc e).apart := by rw [he]; rfl
  have hh := h.held e
  rw [he] at hh
  obtain ⟨hne, hp₀, hp₁⟩ := hh
  simp only [Sys.next, he] at hx
  split at hx
  case isTrue =>
    cases hx
    exact h.goto ha rfl trivial
  case isFalse =>
    cases hx
    refine h.pageAlloc ha ?_ rfl ⟨hne, hp₀.update (by simp) fun x hx => h.ne_nextPage hx,
      hp₁.update (by simp) fun x hx => h.ne_nextPage hx⟩
    refine (h.beside e (Pc.ne_embryo_of_apart ha)).setData (fun x hx => hp₀.ends hx) fun x hx => ?_
    cases hx
    exact h.ends_nextPage

theorem setFds_goto : (s.setFds e fd0 fd1).goto e q = (s.goto e q).setFds e fd0 fd1 := by
  unfold Sys.setFds Sys.goto
  dsimp only
  cases s.space e (INDEX2FD fd0)
  case none => rfl
  case some =>
    cases s.space e (INDEX2FD fd1)
    case none => rfl
    case some => cases s.space e (INDEX2DATA fd0) <;> rfl

theorem Inv.pipeMap (h : Inv s) (he : s.pc e = .pipeMap fd0 fd1) (hx : s.next e inp = some s') :
    Inv s' := by
  have ha : (s.pc e).apart := by rw [he]; rfl
  have hb := h.beside e (Pc.ne_embryo_of_apart ha)
  have hh := h.held e
  rw [he] at hh
  obtain ⟨hne, hp₀, hp₁⟩ := hh
  simp only [Sys.next, he] at hx
  split at hx
  case isTrue =>
    cases hx
    exact h.goto ha rfl hp₀
  case isFalse =>
    cases hx
    have hdata {i : FdNum} {x : Nat} (hp : Private s e (INDEX2FD i))
        (hx : s.space e (INDEX2DATA fd0) = some x) : s.space e (INDEX2FD i) ≠ some x := by
      obtain ⟨p, hp, -, hu⟩ := hp
      intro hi
      rw [hp] at hi
      cases hi
      exact INDEX2DATA_ne fd0 (hu e _ hx).2
    have hm : Inv ((s.map e (INDEX2DATA fd1) (s.space e (INDEX2DATA fd0))).goto e .user) :=
      h.map ha (fun x hx => ⟨_, hx⟩) (hb.setData (fun x hx => hp₁.ends hx) fun x hx => hb.data hx) rfl
        trivial
    rw [setFds_goto]
    refine hm.setFds (update_self _ _ _) (hp₀.update (by simp) fun x => hdata hp₀)
      (hp₁.update (by simp) fun x => hdata hp₁) ?_
    show update s.space e _ e _ = update s.space e _ e _
    rw [update_self, update_self, update_of_ne]
    exact fun hv => hne (INDEX2DATA.inj hv)

theorem Inv.pipeErr3 (h : Inv s) (he : s.pc e = .pipeErr3 fd0 fd1) (hx : s.next e inp = some s') :
    Inv s' := by
  have ha : (s.pc e).apart := by rw [he]; rfl
  have hh := h.held e
  rw [he] at hh
  simp only [Sys.next, he, Option.some.injEq] at hx
  subst hx
  refine h.map ha (fun x hx => by cases hx) ?_ rfl trivial
  exact (h.beside e (Pc.ne_embryo_of_apart ha)).setData (fun x hx => Private.ends hh hx) fun x hx => by
    cases hx

-- The `struct Fd` of a file descriptor goes.
theorem Inv.unmapFd (h : Inv s) (ha : (s.pc e).apart) (hq : q.apart)
    (hheld : Held ((s.map e (INDEX2FD fd) none).goto e q) e q) :
    Inv ((s.map e (INDEX2FD fd) none).goto e q) :=
  h.map ha (fun x hx => by cases hx) (h.beside e (Pc.ne_embryo_of_apart ha)).unmapFd hq hheld

-- The data page of a file descriptor goes, after the `struct Fd`.
theorem Inv.unmapData (h : Inv s) (ha : (s.pc e).apart) (hfd : s.space e (INDEX2FD fd) = none)
    (hq : q.apart) (hheld : Held ((s.map e (INDEX2DATA fd) none).goto e q) e q) :
    Inv ((s.map e (INDEX2DATA fd) none).goto e q) := by
  refine h.map ha (fun x hx => by cases hx) ?_ hq hheld
  refine (h.beside e (Pc.ne_embryo_of_apart ha)).setData (fun x hx => ?_) fun x hx => by cases hx
  rw [hfd] at hx
  cases hx

theorem map_self {v : Slot} {p : Option Nat} : (s.map e v p).space e v = p := by
  show update s.space e (update (s.space e) v p) e v = p
  rw [update_self, update_self]

theorem map_ne {v w : Slot} {p : Option Nat} (h : w ≠ v) : (s.map e v p).space e w = s.space e w := by
  show update s.space e (update (s.space e) v p) e w = s.space e w
  rw [update_self, update_of_ne h]

theorem Inv.closeStep (h : Inv s) (hx : s.next e inp = some s') :
    (s.pc e = .closeFd fd k → Inv s') ∧ (s.pc e = .closeData fd k → Inv s') ∧
      (s.pc e = .closeAgain fd k → Inv s') := by
  have hh := h.held e
  refine ⟨fun he => ?_, fun he => ?_, fun he => ?_⟩
  all_goals
    have ha : (s.pc e).apart := by rw [he]; rfl
    rw [he] at hh
    simp only [Sys.next, he, Option.some.injEq] at hx
    subst hx
  · exact h.unmapFd ha rfl map_self
  · exact h.unmapData ha hh rfl ((map_ne (by simp)).trans hh)
  · exact h.unmapFd ha Pc.apart_resume (.resume map_self _)

theorem Inv.dupData (h : Inv s) (he : s.pc e = .dupData oldfd newfd) (hx : s.next e inp = some s') :
    Inv s' := by
  have ha : (s.pc e).apart := by rw [he]; rfl
  have hb := h.beside e (Pc.ne_embryo_of_apart ha)
  have hh : Held s e (.dupData oldfd newfd) := he ▸ h.held e
  have hh : s.space e (INDEX2FD newfd) = none := hh
  simp only [Sys.next, he] at hx
  split at hx
  case isTrue =>
    cases hx
    exact h.goto ha rfl trivial
  case isFalse =>
    cases hx
    refine h.map ha (fun x hx => ⟨_, hx⟩) (hb.setData (fun x hx => ?_) fun x hx => hb.data hx) rfl
      (.inr ?_)
    · rw [hh] at hx
      cases hx
    · by_cases hv : oldfd = newfd
      · rw [hv]
      · exact map_self.trans (map_ne fun hc => hv (INDEX2DATA.inj hc)).symm

theorem Inv.dupFd (h : Inv s) (he : s.pc e = .dupFd oldfd newfd) (hx : s.next e inp = some s') :
    Inv s' := by
  have ha : (s.pc e).apart := by rw [he]; rfl
  have hb := h.beside e (Pc.ne_embryo_of_apart ha)
  have hh := h.held e
  rw [he] at hh
  simp only [Sys.next, he] at hx
  split at hx
  case isTrue =>
    cases hx
    exact h.goto ha rfl trivial
  case isFalse =>
    cases hx
    refine h.map ha (fun x hx => ⟨_, hx⟩) (hb.setFd fun x om d hx hends => ?_) rfl trivial
    obtain ⟨i, hi, hd⟩ := hb _ x om d hx hends
    cases hi
    rcases hh with hn | heq
    · rw [hn] at hd
      cases hd
    · exact heq.trans hd

-- The system calls of `fork` before its page loop.
theorem Inv.forkStart (h : Inv s) (he : s.pc e = .forkStack c ∨ s.pc e = .forkUpcall c)
    (hx : s.next e inp = some s') : Inv s' := by
  have hc : (s.pc e).child = some c := by rcases he with he | he <;> rw [he] <;> rfl
  have ht : (s.pc e).todo = slots := by rcases he with he | he <;> rw [he] <;> rfl
  have hgoto {q : Pc ε} (hq : q.child = some c) (hqt : q.todo = slots) (hh : ∀ s', Held s' e q) :
      Inv (s.goto e q) := by
    refine h.fork_goto hc hq (hqt ▸ slots_nodup) (fun v => ?_) hh
    simp [hqt, ht, mem_slots]
  rcases he with he | he <;> simp only [Sys.next, he] at hx <;> split at hx <;> cases hx
  · exact hgoto rfl rfl fun _ => trivial
  · exact hgoto rfl rfl fun _ => trivial
  · exact hgoto rfl rfl fun _ => trivial
  · exact hgoto rfl rfl fun _ => trivial

-- The turns of the page loop of `fork`, and its end.
theorem Inv.forkPages {todo : List Slot} (h : Inv s) (he : s.pc e = .forkPages c todo)
    (hx : s.next e inp = some s') : Inv s' := by
  have hc : (s.pc e).child = some c := by rw [he]; rfl
  obtain ⟨-, hnd, hv⟩ := h.child hc
  rw [he] at hnd hv
  cases todo
  case nil =>
    simp only [Sys.next, he] at hx
    split at hx
    · cases hx
      refine h.fork_goto hc rfl hnd (fun v => ?_) fun _ => trivial
      rw [he]
      simp [Pc.todo]
    · cases hx
      exact h.forkRun he
  case cons w todo =>
    have hnd : (w :: todo).Nodup := hnd
    have hw : w ∉ todo := (List.nodup_cons.mp hnd).1
    simp only [Sys.next, he] at hx
    split at hx
    case isTrue hn =>
      cases hx
      refine h.fork_goto hc rfl hnd.of_cons (fun v => ?_) fun _ => trivial
      rw [he]
      by_cases hvw : v = w
      · simp [Pc.todo, hvw, hn]
      · simpa [Pc.todo, hvw] using Or.inr
    case isFalse hn =>
      split at hx
      · cases hx
        refine h.fork_goto hc rfl hnd (fun v => ?_) fun _ => trivial
        rw [he]
        simpa [Pc.todo] using Or.inr
      · cases hx
        refine h.fork hc rfl hnd.of_cons (fun v => ?_) fun _ => trivial
        by_cases hvw : v = w
        · rw [hvw, update_self]
          exact (if_neg hw).symm
        · rw [update_of_ne hvw, hv v]
          by_cases hm : v ∈ todo <;> simp [Pc.todo, hvw, hm]

theorem Inv.next (h : Inv s) (hx : s.next e inp = some s') : Inv s' := by
  cases he : s.pc e
  case free => simp [Sys.next, he] at hx
  case embryo => simp [Sys.next, he] at hx
  case user => exact h.user he hx
  case pipeFd0 => exact h.pipeFd0 he hx
  case pipeFd1 => exact h.pipeFd1 he hx
  case pipeData => exact h.pipeData he hx
  case pipeMap => exact h.pipeMap he hx
  case pipeErr3 => exact h.pipeErr3 he hx
  case closeFd => exact (h.closeStep hx).1 he
  case closeData => exact (h.closeStep hx).2.1 he
  case closeAgain => exact (h.closeStep hx).2.2 he
  case dupData => exact h.dupData he hx
  case dupFd => exact h.dupFd he hx
  case forkStack => exact h.forkStart (.inl he) hx
  case forkUpcall => exact h.forkStart (.inr he) hx
  case forkPages => exact h.forkPages he hx
  case forkPanic => simp [Sys.next, he] at hx
  all_goals
    have ha : (s.pc e).apart := by rw [he]; rfl
    simp only [Sys.next, he] at hx
  case pipeErr2 =>
    cases hx
    exact h.unmapFd ha rfl trivial
  case pipeErr1 =>
    cases hx
    exact h.unmapFd ha rfl trivial
  case dupErrFd =>
    cases hx
    exact h.unmapFd ha rfl map_self
  case dupErrData =>
    cases hx
    have hh := h.held e
    rw [he] at hh
    exact h.unmapData ha hh rfl trivial
  case exofork =>
    split at hx
    case isTrue =>
      cases hx
      exact h.goto ha rfl trivial
    case isFalse =>
      split at hx
      case h_1 hc =>
        cases hx
        exact h.exofork he hc
      case h_2 => cases hx
  case closeAll =>
    split at hx
    case isTrue =>
      cases hx
      exact h.close ha
    case isFalse =>
      cases hx
      exact h.goto ha rfl trivial
  case envDestroy =>
    cases hx
    exact h.own ha le_rfl (fun v p hv => by cases hv) (fun v p _ _ hv => by cases hv) rfl trivial

end Next

section Run

variable {s s' : Sys ε} {e : ε} {d : Nat}

theorem inv_init : Inv (init e) where
  fresh  := fun hv => by cases hv
  ends   := fun hp => absurd rfl hp
  held a := by
    show Held _ a (if a = e then .user else .free)
    split <;> trivial
  beside := fun _ _ _ _ _ _ hv => by cases hv
  child {a c} hc := by
    have hc : (if a = e then .user else .free : Pc ε).child = some c := hc
    split at hc <;> cases hc
  parent {c} hc := by
    have hc : (if c = e then .user else .free : Pc ε) = .embryo := hc
    split at hc <;> cases hc
  single {a a' c} hc _ := by
    have hc : (if a = e then .user else .free : Pc ε).child = some c := hc
    split at hc <;> cases hc

def Sys.Step (s s' : Sys ε) : Prop := ∃ e inp, s.next e inp = some s'

abbrev Sys.Run : Sys ε → Sys ε → Prop := Relation.ReflTransGen Sys.Step

theorem Inv.run (h : Inv s) (hr : s.Run s') : Inv s' := by
  induction hr
  case refl => exact h
  case tail hs ih =>
    obtain ⟨e, inp, hx⟩ := hs
    exact ih.next hx

end Run

section Closed

def Omode.other : Omode → Omode
  | .O_RDONLY => .O_WRONLY
  | .O_WRONLY => .O_RDONLY

variable {s : Sys ε} {e : ε} {fd : FdNum} {om : Omode} {d p : Nat}

-- A `fork` is preempted between an end of the pipe `d` and its data page.
def Window (s : Sys ε) (d : Nat) : Prop :=
  ∃ c i p om, s.pc c = .embryo ∧ s.space c (INDEX2FD i) = some p ∧ s.ends p = some (om, d) ∧
    s.space c (INDEX2DATA i) = none

omit [DecidableEq ε] in
theorem Inv.besides (h : Inv s) (hw : ¬Window s d) {v : Slot} (hv : s.space e v = some p)
    (hp : s.ends p = some (om, d)) : ∃ i, v = INDEX2FD i ∧ s.space e (INDEX2DATA i) = some d := by
  by_cases hemb : s.pc e = .embryo
  case neg => exact h.beside e hemb v p om d hv hp
  case pos =>
    obtain ⟨a, ha⟩ := h.parent hemb
    obtain ⟨-, -, hcopy⟩ := h.child ha
    have hpage {w : Slot} {x : Nat} (hx : s.space e w = some x) : s.space a w = some x := by
      rw [hcopy] at hx
      split at hx
      · cases hx
      · exact hx
    obtain ⟨i, rfl, hd⟩ := h.beside a (Pc.ne_embryo ha) v p om d (hpage hv) hp
    refine ⟨i, rfl, ?_⟩
    cases hx : s.space e (INDEX2DATA i)
    case none => exact absurd ⟨e, i, p, om, hemb, hv, hp, hx⟩ hw
    case some x => rw [← hd, hpage hx]

variable [Fintype ε]

def Slot.swap : Slot → Slot
  | INDEX2FD i   => INDEX2DATA i
  | INDEX2DATA i => INDEX2FD i

theorem Slot.swap_injective : Injective Slot.swap := by
  rintro (i | i) (j | j) h <;> cases h <;> rfl

omit [DecidableEq ε] in
-- The pages of both ends of a pipe together are mapped no more often than its data page.
theorem Inv.refs_le (h : Inv s) (hw : ¬Window s d) {p' : Nat} {om' : Omode} (hne : p ≠ p')
    (hp : s.ends p = some (om, d)) (hp' : s.ends p' = some (om', d)) :
    s.refsOf p + s.refsOf p' ≤ s.refsOf d := by
  have hinj : Injective fun r : ε × Slot => (r.1, r.2.swap) :=
    injective_id.prodMap Slot.swap_injective
  refine count_add_le hinj hne ?_
  rintro ⟨e, v⟩ (hv | hv)
  · obtain ⟨i, rfl, hd⟩ := h.besides hw hv hp
    exact hd
  · obtain ⟨i, rfl, hd⟩ := h.besides hw hv hp'
    exact hd

omit [DecidableEq ε] in
theorem Inv.other_closed (h : Inv s) (hw : ¬Window s d) (hfd : s.space e (INDEX2FD fd) = some p)
    (hp : s.ends p = some (om, d)) (hc : s.pipeisclosed e fd) {e' : ε} {v : Slot} {p' : Nat}
    (hv : s.space e' v = some p') : s.ends p' ≠ some (om.other, d) := by
  intro hp'
  have hne : p ≠ p' := by
    rintro rfl
    rw [hp] at hp'
    cases om <;> cases hp'
  obtain ⟨i, hi, hd⟩ := h.besides hw hfd hp
  cases hi
  have heq : s.refsOf p = s.refsOf d := by
    simpa [Sys.pipeisclosed, Sys.fdLookup, Sys.pageref, hfd, hd] using hc
  have hle := h.refs_le hw hne hp hp'
  have hpos : 0 < s.refsOf p' := count_pos (r := (e', v)) hv
  omega

-- Outside the window, a pipe that is closed has no process with the opposite end.
theorem pipeisclosed_closed {e₀ : ε} (hr : (init e₀).Run s)
    (hfd : s.space e (INDEX2FD fd) = some p) (hp : s.ends p = some (om, d)) (hw : ¬Window s d)
    (hc : s.pipeisclosed e fd) : ∀ e' v p', s.space e' v = some p' → s.ends p' ≠ some (om.other, d) :=
  fun _ _ _ hv => (inv_init.run hr).other_closed hw hfd hp hc hv

end Closed

section Sample

def readFd : FdNum := ⟨0, by decide⟩
def writeFd : FdNum := ⟨1, by decide⟩

def Sys.runs (s : Sys ε) (l : List (ε × Input ε)) : Option (Sys ε) :=
  l.foldlM (fun s x => s.next x.1 x.2) s

theorem Sys.run_of_runs {s s' : Sys ε} {l : List (ε × Input ε)} (h : s.runs l = some s') : s.Run s' :=
  foldlM_list h .refl fun _ hr hx => hr.tail ⟨_, _, hx⟩

def Pc.isUser : Pc ε → Bool
  | .user => true
  | _     => false

def Pc.isFree : Pc ε → Bool
  | .free => true
  | _     => false

omit [DecidableEq ε] in
theorem Pc.eq_user {q : Pc ε} (h : q.isUser) : q = .user := by
  cases q <;> first | rfl | cases h

-- `n` system calls of `e`.
def calls (n : Nat) (e : Fin 3) (r : Request) (c : Fin 3) : List (Fin 3 × Input (Fin 3)) :=
  List.replicate n (e, ⟨r, false, c⟩)

-- What the runs below end with: pages, `pageref` and where the environments are.
def Sys.shows (s : Sys (Fin 3)) (e : Fin 3) (us : List (Fin 3)) : Bool :=
  us.all (fun c => (s.pc c).isUser) && s.space e (INDEX2FD readFd) = some 0 &&
    s.ends 0 = some (.O_RDONLY, 2) && s.pipeisclosed e readFd

theorem exists_run {l : List (Fin 3 × Input (Fin 3))} {f : Sys (Fin 3) → Bool}
    (h : ((init 0).runs l).any f) : ∃ s, (init 0).Run s ∧ f s := by
  cases hs : (init (0 : Fin 3)).runs l
  case none =>
    rw [hs] at h
    cases h
  case some s =>
    rw [hs] at h
    exact ⟨s, Sys.run_of_runs hs, h⟩

theorem Sys.shows_spec {s : Sys (Fin 3)} {e : Fin 3} {us : List (Fin 3)} (h : s.shows e us) :
    (∀ c ∈ us, s.pc c = .user) ∧ s.space e (INDEX2FD readFd) = some 0 ∧
      s.ends 0 = some (.O_RDONLY, 2) ∧ s.pipeisclosed e readFd := by
  simp only [Sys.shows, Bool.and_eq_true, List.all_eq_true, decide_eq_true_eq] at h
  exact ⟨fun c hc => Pc.eq_user (h.1.1.1 c hc), h.1.1.2, h.1.2, h.2⟩

-- A pipe whose write end has been closed.
def closed : List (Fin 3 × Input (Fin 3)) := calls 5 0 .pipe 0 ++ calls 4 0 (.close writeFd) 0

theorem pipeisclosed_closed_one : ∃ s, (init (0 : Fin 3)).Run s ∧ s.pipeisclosed 0 readFd ∧
    ∀ e' v p', s.space e' v = some p' → s.ends p' ≠ some (.O_WRONLY, 2) := by
  have hx : ((init 0).runs closed).any (fun s => s.shows 0 [0] && [1, 2].all fun c => (s.pc c).isFree) := by
    decide +kernel
  obtain ⟨s, hr, hs⟩ := exists_run hx
  rw [Bool.and_eq_true] at hs
  obtain ⟨hu, hfd, hp, hc⟩ := Sys.shows_spec hs.1
  refine ⟨s, hr, hc, pipeisclosed_closed hr hfd hp ?_ hc⟩
  rintro ⟨c, i, p, om, hemb, -⟩
  have hfree : (s.pc 1).isFree ∧ (s.pc 2).isFree := by simpa using hs.2
  match c with
  | 0 => rw [hu 0 List.mem_cons_self] at hemb; cases hemb
  | 1 => rw [hemb] at hfree; cases hfree.1
  | 2 => rw [hemb] at hfree; cases hfree.2

-- A second process has closed the write end; the first one is in another `fork`.
def window : List (Fin 3 × Input (Fin 3)) :=
  calls 5 0 .pipe 0 ++ calls 69 0 .fork 1 ++ calls 4 1 (.close writeFd) 1 ++ calls 5 0 .fork 2

theorem not_pipeisclosed_closed : ¬∀ (s : Sys (Fin 3)) (e e' : Fin 3) (fd : FdNum) (v : Slot)
    (p p' d : Nat) (om : Omode), (init 0).Run s → s.pc e = .user → s.space e (INDEX2FD fd) = some p →
      s.ends p = some (om, d) → s.pipeisclosed e fd → s.space e' v = some p' →
        s.ends p' ≠ some (om.other, d) := by
  intro hall
  have hx : ((init 0).runs window).any (fun s => s.shows 1 [1] && (s.space 0 (INDEX2FD writeFd) = some 1 &&
      s.ends 1 = some (.O_WRONLY, 2))) := by
    decide +kernel
  obtain ⟨s, hr, hs⟩ := exists_run hx
  simp only [Bool.and_eq_true, decide_eq_true_eq] at hs
  obtain ⟨hu, hfd, hp, hc⟩ := Sys.shows_spec hs.1
  exact hall s 1 0 readFd _ 0 1 2 _ hr (hu 1 List.mem_cons_self) hfd hp hc hs.2.1 hs.2.2

end Sample

end Lib.Fds

import Mathlib.Data.List.Chain
import Sisop.Library.Run
import Sisop.Shell.Pipeline

-- The steps of the processes of a pipeline, and their descriptors.

namespace Shell

open Function Library

-- The command at the end of a way.
def Cmd.sub (tree : Cmd) : Way → Option Cmd
  | []     => some tree
  | b :: w =>
    match tree.sub w with
    | some (.pipe l r) => some (if b then r else l)
    | _                => none

-- The descriptors with which a process calls `exec_cmd`.
def wired (t : Fds) : Way → Fds
  | []         => t
  | true :: w  => update (wired t w) 0 (some (.read w))
  | false :: w => update (wired t w) 1 (some (.write w))

-- The commands that are not pipelines, from left to right.
def leaves : Cmd → Way → List Way
  | .pipe l r, w => leaves l (false :: w) ++ leaves r (true :: w)
  | _, w         => [w]

-- Where a process makes a pipe or a child, which can fail.
def Point.forks : Point → Prop
  | .execCmd (.pipe _ _) => True
  | .forkIzq _ _ _ _     => True
  | .forkDer _ _ _       => True
  | _                    => False

-- The steps of a process.
inductive NextCase (canOpen : List Char → Bool) (env : Env) (s : Procs) (w : Way) (o : Outcome) : Procs → Prop
  | ends {t c} (h : s w = some ⟨t, .execCmd c⟩) (hc : ∀ l r, c ≠ .pipe l r) :
    NextCase canOpen env s w o (s.exit w)
  | fails {t pc} (h : s w = some ⟨t, pc⟩) (hf : pc.forks) (ho : o.ok = false) :
    NextCase canOpen env s w o (s.exit w)
  | runs {t c e q} (h : s w = some ⟨t, .execCmd c⟩) (hc : c = .exec e ∨ ∃ scmd, c = .back scmd e)
    (hq : Shell.execCmd canOpen e (t.process env) = some q) :
    NextCase canOpen env s w o (s.goto w (redirFds e t) (.program q))
  | pipe {t l r} (h : s w = some ⟨t, .execCmd (.pipe l r)⟩) (h0 : t o.fd0 = none) (h1 : t o.fd1 = none)
    (hne : o.fd0 ≠ o.fd1) :
    NextCase canOpen env s w o (s.goto w
      (update (update t o.fd0 (some (.read w))) o.fd1 (some (.write w))) (.forkIzq l r o.fd0 o.fd1))
  | forkIzq {t l r fd0 fd1} (h : s w = some ⟨t, .forkIzq l r fd0 fd1⟩) : NextCase canOpen env s w o
    ((s.goto w t (.forkDer r fd0 fd1)).goto (false :: w) t (.izqClose0 l fd0 fd1))
  | forkDer {t r fd0 fd1} (h : s w = some ⟨t, .forkDer r fd0 fd1⟩) : NextCase canOpen env s w o
    ((s.goto w t (.close0 fd0 fd1)).goto (true :: w) t (.derClose1 r fd0 fd1))
  | close0 {t fd0 fd1} (h : s w = some ⟨t, .close0 fd0 fd1⟩) :
    NextCase canOpen env s w o (s.goto w (t.close fd0) (.close1 fd1))
  | close1 {t fd1} (h : s w = some ⟨t, .close1 fd1⟩) :
    NextCase canOpen env s w o (s.goto w (t.close fd1) .waitIzq)
  | waitIzq {t} (h : s w = some ⟨t, .waitIzq⟩) (he : s.hasExited (false :: w)) :
    NextCase canOpen env s w o (s.goto w t .waitDer)
  | exits {t} (h : s w = some ⟨t, .waitDer⟩) (he : s.hasExited (true :: w)) :
    NextCase canOpen env s w o (s.exit w)
  | returns {t} (h : s w = some ⟨t, .waitDer⟩) (he : s.hasExited (true :: w)) (hw : w = []) :
    NextCase canOpen env s w o (s.goto w t .returned)
  | izqClose0 {t c fd0 fd1} (h : s w = some ⟨t, .izqClose0 c fd0 fd1⟩) :
    NextCase canOpen env s w o (s.goto w (t.close fd0) (.izqDup c fd1))
  | izqDup {t c fd1} (h : s w = some ⟨t, .izqDup c fd1⟩) :
    NextCase canOpen env s w o (s.goto w (t.dup2 fd1 1) (.izqClose1 c fd1))
  | izqClose1 {t c fd1} (h : s w = some ⟨t, .izqClose1 c fd1⟩) :
    NextCase canOpen env s w o (s.goto w (t.close fd1) (.execCmd c))
  | derClose1 {t c fd0 fd1} (h : s w = some ⟨t, .derClose1 c fd0 fd1⟩) :
    NextCase canOpen env s w o (s.goto w (t.close fd1) (.derDup c fd0))
  | derDup {t c fd0} (h : s w = some ⟨t, .derDup c fd0⟩) :
    NextCase canOpen env s w o (s.goto w (t.dup2 fd0 0) (.derClose0 c fd0))
  | derClose0 {t c fd0} (h : s w = some ⟨t, .derClose0 c fd0⟩) :
    NextCase canOpen env s w o (s.goto w (t.close fd0) (.execCmd c))
  | program {t q} (h : s w = some ⟨t, .program q⟩) : NextCase canOpen env s w o (s.exit w)

-- `fds` after `pipe` in process `w`.
structure Ends (t : Fds) (fd0 fd1 : Nat) : Prop where
  fst : t fd0 = none
  snd : t fd1 = none
  ne  : fd0 ≠ fd1

def piped (t : Fds) (w : Way) (fd0 fd1 : Nat) : Fds :=
  update (update t fd0 (some (.read w))) fd1 (some (.write w))

-- The descriptors of a process at each point of `exec_cmd`.
def Held (canOpen : List Char → Bool) (env : Env) (tree : Cmd) (t : Fds) (w : Way) (fds : Fds) : Point → Prop
  | .execCmd c           => tree.sub w = some c ∧ fds = wired t w
  | .forkIzq l r fd0 fd1 =>
    tree.sub w = some (.pipe l r) ∧ Ends (wired t w) fd0 fd1 ∧ fds = piped (wired t w) w fd0 fd1
  | .forkDer r fd0 fd1   =>
    ∃ l, tree.sub w = some (.pipe l r) ∧ Ends (wired t w) fd0 fd1 ∧ fds = piped (wired t w) w fd0 fd1
  | .close0 fd0 fd1      =>
    ∃ l r, tree.sub w = some (.pipe l r) ∧ Ends (wired t w) fd0 fd1 ∧ fds = piped (wired t w) w fd0 fd1
  | .close1 fd1          => ∃ l r, tree.sub w = some (.pipe l r) ∧ wired t w fd1 = none ∧
    fds = update (wired t w) fd1 (some (.write w))
  | .waitIzq | .waitDer  => ∃ l r, tree.sub w = some (.pipe l r) ∧ fds = wired t w
  | .izqClose0 c fd0 fd1 => ∃ u r, w = false :: u ∧ tree.sub u = some (.pipe c r) ∧
    Ends (wired t u) fd0 fd1 ∧ fds = piped (wired t u) u fd0 fd1
  | .izqDup c fd1        => ∃ u r, w = false :: u ∧ tree.sub u = some (.pipe c r) ∧
    wired t u fd1 = none ∧ fds = update (wired t u) fd1 (some (.write u))
  | .izqClose1 c fd1     => ∃ u r, w = false :: u ∧ tree.sub u = some (.pipe c r) ∧
    wired t w fd1 = none ∧ fds = update (wired t w) fd1 (some (.write u))
  | .derClose1 c fd0 fd1 => ∃ u l, w = true :: u ∧ tree.sub u = some (.pipe l c) ∧
    Ends (wired t u) fd0 fd1 ∧ fds = piped (wired t u) u fd0 fd1
  | .derDup c fd0        => ∃ u l, w = true :: u ∧ tree.sub u = some (.pipe l c) ∧
    wired t u fd0 = none ∧ fds = update (wired t u) fd0 (some (.read u))
  | .derClose0 c fd0     => ∃ u l, w = true :: u ∧ tree.sub u = some (.pipe l c) ∧
    wired t w fd0 = none ∧ fds = update (wired t w) fd0 (some (.read u))
  | .program q           => ∃ c e, tree.sub w = some c ∧ (c = .exec e ∨ ∃ scmd, c = .back scmd e) ∧
    execCmd canOpen e ((wired t w).process env) = some q ∧ fds = redirFds e (wired t w)
  | .exited              => fds = fun _ => none
  | .returned            => w = [] ∧ fds = t

variable {canOpen : List Char → Bool} {env : Env} {tree c l r : Cmd} {e : ExecCmd} {t t' : Fds}
  {s s' : Procs} {w u v : Way} {o : Outcome} {fd0 fd1 n : Nat} {d : Desc} {q : Program} {p : Proc} {pc : Point}

section Wiring

theorem wired_of_two_le (h : 2 ≤ n) : wired t w n = t n := by
  induction w
  case nil => rfl
  case cons b w hi =>
    cases b
    case false => exact (update_of_ne (by omega) _ _).trans hi
    case true  => exact (update_of_ne (by omega) _ _).trans hi

theorem wired_zero_ne (h : t 0 ≠ none) : wired t w 0 ≠ none := by
  induction w
  case nil => exact h
  case cons b w hi =>
    cases b
    case false => exact hi
    case true  => exact Option.some_ne_none _

theorem wired_one_ne (h : t 1 ≠ none) : wired t w 1 ≠ none := by
  induction w
  case nil => exact h
  case cons b w hi =>
    cases b
    case false => exact Option.some_ne_none _
    case true  => exact hi

theorem leaves_ne_nil : leaves c w ≠ [] := by
  induction c generalizing w
  case pipe l r hl _ => exact List.append_ne_nil_of_left_ne_nil hl _
  all_goals exact List.cons_ne_nil _ _

-- The first command of a tree reads from where the tree reads from, and the last one writes to where the
-- tree writes to.
theorem leaves_head (h : u ∈ (leaves c w).head?) : wired t u 0 = wired t w 0 := by
  induction c generalizing w
  case pipe l r hl _ =>
    rw [leaves, List.head?_append_of_ne_nil _ leaves_ne_nil] at h
    exact (hl h).trans (update_of_ne (by decide) _ _)
  all_goals
    cases h
    rfl

theorem leaves_last (h : u ∈ (leaves c w).getLast?) : wired t u 1 = wired t w 1 := by
  induction c generalizing w
  case pipe l r _ hr =>
    rw [leaves, List.getLast?_append_of_ne_nil _ leaves_ne_nil] at h
    exact (hr h).trans (update_of_ne (by decide) _ _)
  all_goals
    cases h
    rfl

-- Each command reads from the pipe that the command before it writes to.
theorem leaves_chain : (leaves c w).IsChain fun u v =>
    ∃ p, wired t u 1 = some (.write p) ∧ wired t v 0 = some (.read p) := by
  induction c generalizing w
  case pipe l r hl hr =>
    refine List.isChain_append.mpr ⟨hl, hr, fun u hu v hv => ⟨w, ?_, ?_⟩⟩
    · rw [leaves_last hu]
      exact update_self _ _ _
    · rw [leaves_head hv]
      exact update_self _ _ _
  all_goals exact List.isChain_singleton _

end Wiring

theorem runProgram_cases (h : s w = some ⟨t, .execCmd c⟩) (hc : c = .exec e ∨ ∃ scmd, c = .back scmd e) :
    NextCase canOpen env s w o (s.runProgram canOpen env w t e o.ok) := by
  have hn : ∀ l r, c ≠ .pipe l r := by
    rintro l r rfl
    cases hc
    case inl hc => cases hc
    case inr hc =>
      obtain ⟨_, hc⟩ := hc
      cases hc
  rw [Procs.runProgram]
  split
  case h_1 q hq =>
    split
    case isTrue  => exact .runs h hc hq
    case isFalse => exact .ends h hn
  case h_2 => exact .ends h hn

theorem next_cases (h : s.next canOpen env w o = some s') : NextCase canOpen env s w o s' := by
  rw [Procs.next] at h
  split at h
  case h_1 => cases h
  case h_2 t pc hw =>
    cases pc
    case execCmd c =>
      cases c <;> dsimp only at h
      case null =>
        cases h
        exact .ends hw fun _ _ => Cmd.noConfusion
      case exec e =>
        cases h
        exact runProgram_cases hw (.inl rfl)
      case back scmd e =>
        cases h
        exact runProgram_cases hw (.inr ⟨scmd, rfl⟩)
      case pipe =>
        split_ifs at h with ho ht
        · cases h
          exact .pipe hw ht.left ht.right.left ht.right.right
        · cases h
          exact .fails hw trivial (Bool.eq_false_iff.mpr ho)
    case forkIzq =>
      dsimp only at h
      split_ifs at h with ho <;> cases h
      · exact .forkIzq hw
      · exact .fails hw trivial (Bool.eq_false_iff.mpr ho)
    case forkDer =>
      dsimp only at h
      split_ifs at h with ho <;> cases h
      · exact .forkDer hw
      · exact .fails hw trivial (Bool.eq_false_iff.mpr ho)
    case waitIzq =>
      dsimp only at h
      split_ifs at h with he
      cases h
      exact .waitIzq hw he
    case waitDer =>
      dsimp only at h
      split_ifs at h with he hn <;> cases h
      · exact .returns hw he hn
      · exact .exits hw he
    case close0    => cases h; exact .close0 hw
    case close1    => cases h; exact .close1 hw
    case izqClose0 => cases h; exact .izqClose0 hw
    case izqDup    => cases h; exact .izqDup hw
    case izqClose1 => cases h; exact .izqClose1 hw
    case derClose1 => cases h; exact .derClose1 hw
    case derDup    => cases h; exact .derDup hw
    case derClose0 => cases h; exact .derClose0 hw
    case program   => cases h; exact .program hw
    case exited    => cases h
    case returned  => cases h

section Held

theorem close_update {t : Fds} (h : t n = none) : Fds.close (update t n (some d)) n = t := by
  refine (update_idem _ _ _).trans (update_eq_self_iff.mpr h.symm)

theorem Ends.close0 {t : Fds} (h : Ends t fd0 fd1) :
    (piped t w fd0 fd1).close fd0 = update t fd1 (some (.write w)) := by
  rw [piped, update_comm h.ne]
  apply close_update
  rw [update_of_ne h.ne, h.fst]

theorem Ends.close1 {t : Fds} (h : Ends t fd0 fd1) :
    (piped t w fd0 fd1).close fd1 = update t fd0 (some (.read w)) := by
  rw [piped]
  apply close_update
  rw [update_of_ne h.ne.symm, h.snd]

-- The new end goes to the standard descriptor.
theorem dup2_update {t : Fds} {m : Nat} (h : t n = none) (hm : t m ≠ none) :
    Fds.dup2 (update t n (some d)) n m = update (update t m (some d)) n (some d) ∧
      update t m (some d) n = none := by
  have hne : n ≠ m := fun he => hm (he ▸ h)
  rw [Fds.dup2, update_self, if_neg (Option.some_ne_none _), update_comm hne]
  exact ⟨rfl, by rw [update_of_ne hne, h]⟩

theorem goto_self {s : Procs} : (s.goto w t pc) w = some ⟨t, pc⟩ := update_self _ _ _

theorem goto_of_ne {s : Procs} (h : u ≠ w) : (s.goto w t pc) u = s u := update_of_ne h _ _

-- All processes have the descriptors that they should have.
def AllHeld (canOpen : List Char → Bool) (env : Env) (tree : Cmd) (t : Fds) (s : Procs) : Prop :=
  ∀ w p, s w = some p → Held canOpen env tree t w p.fds p.pc

theorem AllHeld.goto {t' : Fds} (v : AllHeld canOpen env tree t s) (h : Held canOpen env tree t w t' pc) :
    AllHeld canOpen env tree t (s.goto w t' pc) := by
  intro u p hu
  by_cases huw : u = w
  case pos =>
    rw [huw, goto_self] at hu
    cases hu
    rw [huw]
    exact h
  case neg =>
    rw [goto_of_ne huw] at hu
    exact v u p hu

theorem sub_false (h : tree.sub w = some (.pipe l r)) : tree.sub (false :: w) = some l := by
  simp [Cmd.sub, h]

theorem sub_true (h : tree.sub w = some (.pipe l r)) : tree.sub (true :: w) = some r := by
  simp [Cmd.sub, h]

theorem AllHeld.step (h0 : t 0 ≠ none) (h1 : t 1 ≠ none) (v : AllHeld canOpen env tree t s)
    (h : NextCase canOpen env s w o s') : AllHeld canOpen env tree t s' := by
  cases h
  case ends    => exact v.goto rfl
  case fails   => exact v.goto rfl
  case exits   => exact v.goto rfl
  case program => exact v.goto rfl
  case runs h hc hq =>
    obtain ⟨hs, rfl⟩ := v _ _ h
    exact v.goto ⟨_, _, hs, hc, hq, rfl⟩
  case pipe h hf0 hf1 hne =>
    obtain ⟨hs, rfl⟩ := v _ _ h
    exact v.goto ⟨hs, ⟨hf0, hf1, hne⟩, rfl⟩
  case forkIzq h =>
    obtain ⟨hs, he, rfl⟩ := v _ _ h
    refine AllHeld.goto (v.goto ?_) ?_
    · exact ⟨_, hs, he, rfl⟩
    · exact ⟨_, _, rfl, hs, he, rfl⟩
  case forkDer h =>
    obtain ⟨_, hs, he, rfl⟩ := v _ _ h
    refine AllHeld.goto (v.goto ?_) ?_
    · exact ⟨_, _, hs, he, rfl⟩
    · exact ⟨_, _, rfl, hs, he, rfl⟩
  case close0 h =>
    obtain ⟨_, _, hs, he, rfl⟩ := v _ _ h
    exact v.goto ⟨_, _, hs, he.snd, he.close0⟩
  case close1 h =>
    obtain ⟨_, _, hs, hn, rfl⟩ := v _ _ h
    exact v.goto ⟨_, _, hs, close_update hn⟩
  case waitIzq h _ => exact v.goto (v _ _ h)
  case returns h _ hw =>
    obtain ⟨_, _, -, rfl⟩ := v _ _ h
    exact v.goto ⟨hw, by rw [hw]; rfl⟩
  case izqClose0 h =>
    obtain ⟨_, _, rfl, hs, he, rfl⟩ := v _ _ h
    exact v.goto ⟨_, _, rfl, hs, he.snd, he.close0⟩
  case izqDup h =>
    obtain ⟨u, _, rfl, hs, hn, rfl⟩ := v _ _ h
    obtain ⟨hd, hn⟩ := dup2_update hn (wired_one_ne h1)
    exact v.goto ⟨_, _, rfl, hs, hn, hd⟩
  case izqClose1 h =>
    obtain ⟨u, _, rfl, hs, hn, rfl⟩ := v _ _ h
    exact v.goto ⟨sub_false hs, close_update hn⟩
  case derClose1 h =>
    obtain ⟨_, _, rfl, hs, he, rfl⟩ := v _ _ h
    exact v.goto ⟨_, _, rfl, hs, he.fst, he.close1⟩
  case derDup h =>
    obtain ⟨u, _, rfl, hs, hn, rfl⟩ := v _ _ h
    obtain ⟨hd, hn⟩ := dup2_update hn (wired_zero_ne h0)
    exact v.goto ⟨_, _, rfl, hs, hn, hd⟩
  case derClose0 h =>
    obtain ⟨u, _, rfl, hs, hn, rfl⟩ := v _ _ h
    exact v.goto ⟨sub_true hs, close_update hn⟩

end Held

end Shell

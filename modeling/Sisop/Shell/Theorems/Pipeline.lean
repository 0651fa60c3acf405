import Sisop.Shell.Theorems.PipelineFds
import Sisop.Shell.Theorems.Redirect
import Sisop.Shell.Writes

-- What the programs of a pipeline are connected to, and when they end.

namespace Shell

open Function Library

variable {canOpen : List Char → Bool} {env : Env} {tree c l r : Cmd} {e : ExecCmd} {t t' : Fds}
  {s s' : Procs} {w u v : Way} {o : Outcome} {fd0 fd1 n : Nat} {d : Desc} {q : Program} {p : Proc} {pc : Point}

-- The descriptors that are open in the shell.
def shellFds (isOpen : Nat → Bool) : Fds := fun fd => if isOpen fd then some (.inherited fd) else none

variable {isOpen : Nat → Bool}

theorem AllHeld.run (h0 : isOpen 0) (h1 : isOpen 1)
    (r : Run (ProcsStep canOpen env) (fun _ _ => True) (.start tree isOpen) s) :
    AllHeld canOpen env tree (shellFds isOpen) s := by
  refine r.invariant ?_ fun v _ h => v.step ?_ ?_ (next_cases h)
  · intro w p hw
    by_cases hn : w = []
    case pos =>
      rw [Procs.start, hn, update_self] at hw
      cases hw
      exact ⟨by rw [hn]; rfl, by rw [hn]; rfl⟩
    case neg =>
      rw [Procs.start, update_of_ne hn] at hw
      cases hw
  · simp [shellFds, h0]
  · simp [shellFds, h1]

section Stage

theorem leaves_sub (h : tree.sub w = some c) : leaves c w ⊆ leaves tree [] := by
  induction w generalizing c
  case nil =>
    cases h
    exact List.Subset.refl _
  case cons b w hi =>
    rw [Cmd.sub] at h
    split at h
    case h_1 l r hs =>
      cases h
      have hl := hi hs
      rw [leaves] at hl
      cases b
      case false => exact List.Subset.trans (List.subset_append_left _ _) hl
      case true  => exact List.Subset.trans (List.subset_append_right _ _) hl
    case h_2 => cases h

theorem mem_leaves (h : tree.sub w = some c) (hc : ∀ l r, c ≠ .pipe l r) : w ∈ leaves tree [] := by
  apply leaves_sub h
  cases c
  case pipe l r => exact absurd rfl (hc l r)
  all_goals exact List.mem_singleton_self _

-- A process that comes to a command has the streams that the tree says.
theorem reaches_wired (h : tree.sub w = some c) {p' : Process}
    (hr : Reaches c ((wired t w).process env) e p') : Reaches tree (t.process env) e p' := by
  induction w generalizing c
  case nil =>
    cases h
    exact hr
  case cons b w hi =>
    rw [Cmd.sub] at h
    split at h
    case h_1 l r hs =>
      cases h
      refine hi hs ?_
      cases b
      case false => exact .left hr
      case true  => exact .right hr
    case h_2 => cases h

-- The streams of a program are those of its descriptors.
theorem redirFds_streams (ho : t 1 ≠ none) (h : execCmd canOpen e (t.process env) = some q) :
    q.process.stdin = (redirFds e t).stream 0 ∧ q.process.stdout = (redirFds e t).stream 1 ∧
      q.process.stderr = (redirFds e t).stream 2 := by
  cases ht : e.type <;> simp only [execCmd, redirFds, ht] at h ⊢
  case exec =>
    obtain ⟨_, _, rfl⟩ := Option.map_eq_some_iff.mp h
    exact ⟨rfl, rfl, rfl⟩
  case redir =>
    rw [caseRedirMd_eq] at h
    split at h <;> cases h
    simp only [streamIn, streamOut, streamErr, List.length_pos_iff]
    obtain ⟨d, hd⟩ := Option.ne_none_iff_exists'.mp ho
    by_cases hi : e.inFile = [] <;> by_cases ho : e.outFile = [] <;> by_cases he : e.errFile = [] <;>
      by_cases h1 : e.errFile = ['&', '1'] <;> simp [hi, ho, he, h1, hd, Fds.stream, Fds.process, Desc.stream]

end Stage

-- `pipe` and `fork` succeed.
def Succeeds (s : Procs) (ev : Way × Outcome) : Prop := ∀ p, s ev.1 = some p → p.pc.forks → ev.2.ok

namespace Sample

def cmdA : ExecCmd := ⟨.exec, ['a'], [some ['a']], [], [], [], []⟩

def cmdB : ExecCmd := ⟨.exec, ['b'], [some ['b']], [], [], [], []⟩

-- "a|b"
theorem parse : parseLine (fun _ => none) END_STRING ['a', '|', 'b', END_STRING] =
    some (.pipe (.exec cmdA) (.exec cmdB)) := by
  have ha : parseCmd (fun _ => none) END_STRING ['a', END_STRING] = some (.exec cmdA, ['a', END_STRING]) := by
    simp +decide [parseCmd, cstr, blockContains, parseExec, parseTokens, getToken, SPACE, parseToken,
      parseRedirFlow, execCmdCreate, MAXARGS, expandEnvironVar, List.findIdx?_cons, END_STRING, cmdA]
  have hb : parseCmd (fun _ => none) END_STRING ['b', END_STRING] = some (.exec cmdB, ['b', END_STRING]) := by
    simp +decide [parseCmd, cstr, blockContains, parseExec, parseTokens, getToken, SPACE, parseToken,
      parseRedirFlow, execCmdCreate, MAXARGS, expandEnvironVar, List.findIdx?_cons, END_STRING, cmdB]
  exact (parseLine_eq rfl ha hb).trans (by decide)

def standard (fd : Nat) : Bool := fd < 3

-- The steps up to the start of both programs, and up to their end.
def starts : List (Way × Outcome) :=
  [[], [], [], [false], [false], [], [true], [false], [true], [false], [], [true], [true]].map (·, ⟨true, 3, 4⟩)

def ends : List (Way × Outcome) := starts ++ [[false], [], [true], []].map (·, ⟨true, 3, 4⟩)

def reaches (evs : List (Way × Outcome)) (P : Procs → Bool) : Bool :=
  (Run.follow (fun s ev => Procs.next (fun _ => true) (fun _ => none) s ev.1 ev.2) (fun _ ev => ev.2.ok)
    (.start (.pipe (.exec cmdA) (.exec cmdB)) standard) evs).any P

theorem of_reaches (evs : List (Way × Outcome)) (P : Procs → Bool) (h : reaches evs P) :
    ∃ s, Run (ProcsStep (fun _ => true) fun _ => none) Succeeds
      (.start (.pipe (.exec cmdA) (.exec cmdB)) standard) s ∧ P s := by
  obtain ⟨s, hs, hp⟩ := (Option.any_eq_true _ _).mp h
  exact ⟨s, (Run.of_follow id hs).weaken fun hk _ _ _ => hk, hp⟩

-- The program of a process, and what its descriptors are open on.
def runs (s : Procs) (w : Way) (d0 d1 : Desc) : Bool :=
  match s w with
  | some ⟨t, .program _⟩ => t 0 = some d0 ∧ t 1 = some d1 ∧ t 3 = none ∧ t 4 = none
  | _                    => false

def hasReturned (s : Procs) : Bool :=
  match s [] with
  | some ⟨_, .returned⟩ => true
  | _                   => false

theorem of_runs {d0 d1 : Desc} (h : runs s w d0 d1) :
    ∃ p q, s w = some p ∧ p.pc = .program q ∧ p.fds 0 = some d0 ∧ p.fds 1 = some d1 := by
  rw [runs] at h
  split at h
  case h_1 t q hw =>
    have h := of_decide_eq_true h
    exact ⟨⟨t, .program q⟩, q, hw, rfl, h.left, h.right.left⟩
  case h_2 => cases h

theorem started : ∃ s, Run (ProcsStep (fun _ => true) fun _ => none) Succeeds
    (.start (.pipe (.exec cmdA) (.exec cmdB)) standard) s ∧
      runs s [false] (.inherited 0) (.write []) ∧ runs s [true] (.read []) (.inherited 1) := by
  obtain ⟨s, r, h⟩ := of_reaches starts
    (fun s => runs s [false] (.inherited 0) (.write []) && runs s [true] (.read []) (.inherited 1))
    (by decide +kernel)
  exact ⟨s, r, Bool.and_eq_true_iff.mp h⟩

end Sample

-- The program of one command of the tree. Its process has the streams with which a command that is not in
-- the middle of others would start, but for those that the tree connects, and then those that its own
-- redirections ask for.
structure Stage (canOpen : List Char → Bool) (env : Env) (tree : Cmd) (t : Fds) (w : Way) (p : Proc)
  (q : Program) (e : ExecCmd) : Prop where
  command : tree.sub w = some (.exec e) ∨ ∃ scmd, tree.sub w = some (.back scmd e)
  leaf    : w ∈ leaves tree []
  fds     : p.fds = redirFds e (wired t w)
  reaches : Reaches tree (shell env) e ((wired t w).process env)
  program : execCmd canOpen e ((wired t w).process env) = some q
  stdin   : q.process.stdin = p.fds.stream 0
  stdout  : q.process.stdout = p.fds.stream 1
  stderr  : q.process.stderr = p.fds.stream 2

-- The pipes connect the commands of a tree from left to right, and nothing else is connected.
structure Wiring (tree : Cmd) (t : Fds) : Prop where
  first : ∀ {u}, u ∈ (leaves tree []).head? → wired t u 0 = t 0
  last  : ∀ {u}, u ∈ (leaves tree []).getLast? → wired t u 1 = t 1
  chain : (leaves tree []).IsChain fun u v =>
    ∃ p, wired t u 1 = some (.write p) ∧ wired t v 0 = some (.read p)
  rest  : ∀ {u n}, 2 ≤ n → wired t u n = t n

theorem pipeline_wired (h0 : isOpen 0) (h1 : isOpen 1)
    (r : Run (ProcsStep canOpen env) (fun _ _ => True) (.start tree isOpen) s) :
    Wiring tree (shellFds isOpen) ∧ ∀ {w p q}, s w = some p → p.pc = .program q →
      ∃ e, Stage canOpen env tree (shellFds isOpen) w p q e := by
  refine ⟨⟨leaves_head, leaves_last, leaves_chain, wired_of_two_le⟩, fun {w p q} hw hp => ?_⟩
  have hh := AllHeld.run h0 h1 r w p hw
  rw [hp] at hh
  obtain ⟨c, e, hs, hc, hq, hf⟩ := hh
  have hone : wired (shellFds isOpen) w 1 ≠ none := wired_one_ne (by simp [shellFds, h1])
  obtain ⟨hi, ho, he⟩ := redirFds_streams hone hq
  have hn : ∀ l r, c ≠ .pipe l r := by
    rintro l r rfl
    cases hc
    case inl hc => cases hc
    case inr hc =>
      obtain ⟨_, hc⟩ := hc
      cases hc
  have hsh : (shellFds isOpen).process env = shell env := by
    cases h2 : isOpen 2 <;> simp [Fds.process, Fds.stream, shellFds, shell, Desc.stream, h0, h1, h2]
  refine ⟨e, ?_, mem_leaves hs hn, hf, ?_, hq, hf ▸ hi, hf ▸ ho, hf ▸ he⟩
  · cases hc
    case inl hc => exact .inl (hc ▸ hs)
    case inr hc =>
      obtain ⟨scmd, hc⟩ := hc
      exact .inr ⟨scmd, hc ▸ hs⟩
  · rw [← hsh]
    refine reaches_wired hs ?_
    cases hc
    case inl hc => exact hc ▸ .exec
    case inr hc =>
      obtain ⟨_, rfl⟩ := hc
      exact .back

theorem pipeline_wired_ab : ∃ (s : Procs) (p p' : Proc) (q q' : Program), s [false] = some p ∧
    s [true] = some p' ∧ p.fds 1 = some (.write []) ∧ p'.fds 0 = some (.read []) ∧
    q.process.stdout = .pipe ∧ q'.process.stdin = .pipe := by
  obtain ⟨s, r, ha, hb⟩ := Sample.started
  obtain ⟨p, q, hp, hq, -, h1⟩ := Sample.of_runs ha
  obtain ⟨p', q', hp', hq', h0, -⟩ := Sample.of_runs hb
  have hw := pipeline_wired rfl rfl (r.weaken fun _ => trivial)
  obtain ⟨e, he⟩ := hw.right hp hq
  obtain ⟨e', he'⟩ := hw.right hp' hq'
  refine ⟨s, p, p', q, q', hp, hp', h1, h0, ?_, ?_⟩
  · rw [he.stdout, Fds.stream, h1]
    rfl
  · rw [he'.stdin, Fds.stream, h0]
    rfl

def Cmd.isSingle : Cmd → Prop
  | .pipe _ _ => False
  | _         => True

-- A tree as `parse_line` builds it, whose pipes have one command on the left.
def Cmd.RightNested : Cmd → Prop
  | .pipe l r => l.isSingle ∧ r.RightNested
  | _         => True

section Nested

theorem parseCmd_isSingle {getenv : List Char → Option (List Char)} {prev : Char} {buf buf' : List Char}
    (h : parseCmd getenv prev buf = some (c, buf')) : c.isSingle := by
  unfold parseCmd at h
  split_ifs at h
  · cases h
    trivial
  · obtain ⟨_, _, h⟩ := Option.bind_eq_some_iff.mp h
    cases h
    trivial
  · obtain ⟨_, _, h⟩ := Option.bind_eq_some_iff.mp h
    cases h
    trivial

theorem pipeCmdCreate_nested (hl : l.isSingle) (hr : r.RightNested) : (pipeCmdCreate l r).RightNested := by
  rw [pipeCmdCreate]
  split
  case isTrue =>
    cases l
    case pipe => cases hl
    all_goals trivial
  case isFalse => exact ⟨hl, hr⟩

theorem Cmd.RightNested.of_isSingle (h : c.isSingle) : c.RightNested := by
  cases c
  case pipe => cases h
  all_goals trivial

theorem parseLine_nested {getenv : List Char → Option (List Char)} {prev : Char} {buf : List Char}
    (h : parseLine getenv prev buf = some c) : c.RightNested := by
  induction hn : buf.length using Nat.strongRecOn generalizing prev buf c
  case ind n hi =>
    cases hs : splitLine buf '|'
    case mk left x =>
      cases x
      case mk prev' right =>
        obtain ⟨l, _, r, right', hl, hr, ht⟩ := parseLine_some hs h
        split at ht
        case isTrue hp =>
          obtain ⟨t', ht', rfl⟩ := ht
          have hne : right ≠ [] := by
            rintro rfl
            rw [List.eq_nil_of_length_eq_zero (parseCmd_length getenv hr)] at hp
            cases hp
          have hlt : right'.length < n := by
            rw [parseCmd_length getenv hr, ← hn]
            exact splitLine_lt hs hne
          exact pipeCmdCreate_nested (parseCmd_isSingle hl) (hi _ hlt ht' rfl)
        case isFalse =>
          rw [ht]
          exact pipeCmdCreate_nested (parseCmd_isSingle hl) (.of_isSingle (parseCmd_isSingle hr))

-- A command of the tree is not below a command that is not a pipeline.
theorem sub_cons {b : Bool} (h : tree.sub (b :: w) = some c) :
    ∃ l r, tree.sub w = some (.pipe l r) ∧ c = if b then r else l := by
  rw [Cmd.sub] at h
  split at h
  case h_1 l r hs =>
    cases h
    exact ⟨l, r, hs, rfl⟩
  case h_2 => cases h

theorem sub_nested (ht : tree.RightNested) (h : tree.sub w = some c) : c.RightNested := by
  induction w generalizing c
  case nil =>
    cases h
    exact ht
  case cons b w hi =>
    obtain ⟨l, r, hs, rfl⟩ := sub_cons h
    obtain ⟨hl, hr⟩ := hi hs
    cases b
    case false => exact .of_isSingle hl
    case true  => exact hr

-- There is nothing below the left side of a pipe.
theorem sub_left (ht : tree.RightNested) {b : Bool} : tree.sub (b :: false :: w) = none := by
  rw [Option.eq_none_iff_forall_not_mem]
  intro c h
  obtain ⟨l, r, hs, -⟩ := sub_cons h
  obtain ⟨l', r', hs', he⟩ := sub_cons hs
  have hl := (sub_nested ht hs').left
  rw [if_neg Bool.false_ne_true] at he
  rw [← he] at hl
  cases hl

end Nested

-- The points at which a process runs for as long as it wants to, or waits.
def Point.blocks : Point → Prop
  | .program _ | .waitIzq | .waitDer | .returned => True
  | _                                            => False

section Ends

theorem shellFds_ne (hd : ∀ fd, d ≠ .inherited fd) : shellFds isOpen n ≠ some d := by
  intro h
  rw [shellFds] at h
  split at h <;> cases h
  exact hd _ rfl

theorem wired_write (h : wired (shellFds isOpen) w n = some (.write v)) :
    n = 1 ∧ ∃ k, w = List.replicate k true ++ false :: v := by
  induction w
  case nil => exact absurd h (shellFds_ne fun _ => Desc.noConfusion)
  case cons b w hi =>
    cases b <;> rw [wired, update_apply] at h <;> split at h
    case false.isTrue hn =>
      cases h
      exact ⟨hn, 0, rfl⟩
    case false.isFalse hn => exact absurd (hi h).left hn
    case true.isTrue => cases h
    case true.isFalse =>
      obtain ⟨hn, k, rfl⟩ := hi h
      exact ⟨hn, k + 1, rfl⟩

theorem wired_read (h : wired (shellFds isOpen) w n = some (.read v)) :
    n = 0 ∧ ∃ k, w = List.replicate k false ++ true :: v := by
  induction w
  case nil => exact absurd h (shellFds_ne fun _ => Desc.noConfusion)
  case cons b w hi =>
    cases b <;> rw [wired, update_apply] at h <;> split at h
    case true.isTrue hn =>
      cases h
      exact ⟨hn, 0, rfl⟩
    case true.isFalse hn => exact absurd (hi h).left hn
    case false.isTrue => cases h
    case false.isFalse =>
      obtain ⟨hn, k, rfl⟩ := hi h
      exact ⟨hn, k + 1, rfl⟩

-- A redirection opens a file, or copies a descriptor.
theorem redirFds_eq (hd : ∀ fd name, d ≠ .file fd name) (h : redirFds e t n = some d) :
    ∃ m, t m = some d := by
  have hu {t : Fds} {fd m : Nat} {name : List Char} (h : update t fd (some (.file fd name)) m = some d) :
      t m = some d := by
    rw [update_apply] at h
    split at h
    case isTrue  => exact absurd (Option.some.inj h).symm (hd _ _)
    case isFalse => exact h
  have hu' {t : Fds} {fd m : Nat} {name : List Char} {b : Prop} [Decidable b]
      (h : (if b then update t fd (some (.file fd name)) else t) m = some d) : t m = some d := by
    split at h
    case isTrue  => exact hu h
    case isFalse => exact h
  cases ht : e.type <;> simp only [redirFds, ht] at h
  case exec => exact ⟨n, h⟩
  case redir =>
    split at h
    case isTrue =>
      split at h
      case isTrue =>
        rw [update_apply] at h
        split at h
        case isTrue  => exact ⟨1, hu' (hu' h)⟩
        case isFalse => exact ⟨n, hu' (hu' h)⟩
      case isFalse => exact ⟨n, hu' (hu' (hu h))⟩
    case isFalse => exact ⟨n, hu' (hu' h)⟩

-- What a process holds that runs a program or waits.
theorem Held.of_blocks (h : Held canOpen env tree t w p.fds p.pc) (hb : p.pc.blocks)
    (hd : ∀ fd name, d ≠ .file fd name) (hn : p.fds n = some d) :
    (∃ m, t m = some d) ∨ ∃ m, wired t w m = some d ∧ ∃ c, tree.sub w = some c := by
  cases hpc : p.pc <;> rw [hpc] at h hb
  case program q =>
    obtain ⟨c, e, hs, -, -, hf⟩ := h
    rw [hf] at hn
    obtain ⟨m, hm⟩ := redirFds_eq hd hn
    exact .inr ⟨m, hm, c, hs⟩
  case waitIzq =>
    obtain ⟨l, r, hs, hf⟩ := h
    exact .inr ⟨n, hf ▸ hn, _, hs⟩
  case waitDer =>
    obtain ⟨l, r, hs, hf⟩ := h
    exact .inr ⟨n, hf ▸ hn, _, hs⟩
  case returned => exact .inl ⟨n, h.right ▸ hn⟩
  all_goals cases hb

theorem sub_suffix (h : tree.sub (u ++ w) = some c) : ∃ c, tree.sub w = some c := by
  induction u generalizing c
  case nil => exact ⟨c, h⟩
  case cons b u hi =>
    obtain ⟨_, _, hs, -⟩ := sub_cons h
    exact hi hs

end Ends

theorem pipe_ends {getenv : List Char → Option (List Char)} {prev : Char} {buf : List Char}
    (h0 : isOpen 0) (h1 : isOpen 1) (ht : parseLine getenv prev buf = some tree)
    (r : Run (ProcsStep canOpen env) (fun _ _ => True) (.start tree isOpen) s) (hw : s w = some p)
    (hb : p.pc.blocks) :
    (∀ {n v}, p.fds n = some (.write v) → w = false :: v) ∧
      ∀ {n v}, p.fds n = some (.read v) → w = true :: v ∨ w = false :: true :: v := by
  have hh := AllHeld.run h0 h1 r w p hw
  have hn := parseLine_nested ht
  -- A way on which the left side of a pipe is passed does not lead to a command.
  have hl {k : Nat} {b : Bool} {v : Way} (h : ∃ c, tree.sub (List.replicate k b ++ b :: false :: v) = some c) :
      False := by
    obtain ⟨_, h⟩ := h
    obtain ⟨_, h⟩ := sub_suffix h
    rw [sub_left hn] at h
    cases h
  refine ⟨fun {n v} hf => ?_, fun {n v} hf => ?_⟩
  · have hf := (hh.of_blocks hb (fun _ _ => Desc.noConfusion) hf).resolve_left fun ⟨_, hm⟩ =>
      absurd hm (shellFds_ne fun _ => Desc.noConfusion)
    obtain ⟨_, hf, hc⟩ := hf
    obtain ⟨-, k, rfl⟩ := wired_write hf
    cases k
    case zero   => rfl
    case succ k =>
      rw [List.replicate_succ', List.append_assoc] at hc
      exact (hl hc).elim
  · have hf := (hh.of_blocks hb (fun _ _ => Desc.noConfusion) hf).resolve_left fun ⟨_, hm⟩ =>
      absurd hm (shellFds_ne fun _ => Desc.noConfusion)
    obtain ⟨_, hf, hc⟩ := hf
    obtain ⟨-, k, rfl⟩ := wired_read hf
    cases k
    case zero   => exact .inl rfl
    case succ k =>
      cases k
      case zero   => exact .inr rfl
      case succ k =>
        rw [List.replicate_succ', List.replicate_succ', List.append_assoc, List.append_assoc] at hc
        exact (hl hc).elim

theorem pipe_ends_ab : ∃ (s : Procs) (p : Proc), s [false] = some p ∧ p.fds 1 = some (.write []) ∧
    ∀ {n v}, p.fds n = some (.write v) → [false] = false :: v := by
  obtain ⟨s, r, ha, -⟩ := Sample.started
  obtain ⟨p, q, hp, hq, -, h1⟩ := Sample.of_runs ha
  have hb : p.pc.blocks := hq ▸ trivial
  exact ⟨s, p, hp, h1, (pipe_ends rfl rfl Sample.parse (r.weaken fun _ => trivial) hp hb).left⟩

-- Where a process has not forked its left child yet (`false`), or its right one.
def Point.before (b : Bool) : Point → Prop
  | .execCmd _ | .forkIzq _ _ _ _                             => True
  | .izqClose0 _ _ _ | .izqDup _ _ | .izqClose1 _ _           => True
  | .derClose1 _ _ _ | .derDup _ _ | .derClose0 _ _           => True
  | .forkDer _ _ _                                            => b = true
  | _                                                         => False

-- A process has no children before it forks them.
def Unborn (s : Procs) : Prop := ∀ w b, (∀ p, s w = some p → p.pc.before b) → s (b :: w) = none

-- A process that has waited for its children, and one that has ended.
def Waited (tree : Cmd) (s : Procs) (w : Way) : Point → Prop
  | .waitDer  => s.hasExited (false :: w)
  | .exited   => ∀ l r, tree.sub w = some (.pipe l r) → ∀ b, s.hasExited (b :: w)
  | .returned => ∀ b, s.hasExited (b :: w)
  | _         => True

section Waits

theorem Unborn.goto (v : Unborn s) (hw : s w = some p) (hb : ∀ {b}, pc.before b → p.pc.before b) {t' : Fds} :
    Unborn (s.goto w t' pc) := by
  intro u b hu
  by_cases hbw : b :: u = w
  case pos =>
    have hn : s (b :: u) = none := by
      apply v
      intro p hp
      refine hu p ?_
      rw [goto_of_ne (hbw ▸ List.cons_ne_self b u).symm]
      exact hp
    rw [hbw, hw] at hn
    cases hn
  case neg =>
    rw [goto_of_ne hbw]
    apply v
    intro p' hp
    by_cases huw : u = w
    case pos =>
      rw [huw, hw] at hp
      cases hp
      exact hb (hu ⟨t', pc⟩ (by rw [huw, goto_self]))
    case neg => exact hu p' (by rw [goto_of_ne huw, hp])

theorem Unborn.child {b : Bool} (v : Unborn s) (hw : s w = some p) (hb : ¬p.pc.before b)
    (hn : s (b :: w) = none) {t' : Fds} : Unborn (s.goto (b :: w) t' pc) := by
  intro u x hu
  by_cases hx : x :: u = b :: w
  case pos =>
    cases hx
    refine absurd (hu p ?_) hb
    rw [goto_of_ne (List.cons_ne_self b w).symm, hw]
  case neg =>
    rw [goto_of_ne hx]
    apply v
    intro p' hp
    by_cases huw : u = b :: w
    case pos =>
      rw [huw, hn] at hp
      cases hp
    case neg => exact hu p' (by rw [goto_of_ne huw, hp])

-- The left child has a name that no process has.
theorem Unborn.forkIzq {fd0 fd1 : Nat} (v : Unborn s) (h : s w = some ⟨t, .forkIzq l r fd0 fd1⟩) :
    s (false :: w) = none ∧
      Unborn ((s.goto w t (.forkDer r fd0 fd1)).goto (false :: w) t (.izqClose0 l fd0 fd1)) := by
  have hn : s (false :: w) = none := by
    apply v
    intro p hp
    rw [h] at hp
    cases hp
    trivial
  have hv : Unborn (s.goto w t (.forkDer r fd0 fd1)) := v.goto h fun _ => trivial
  refine ⟨hn, hv.child goto_self Bool.false_ne_true ?_⟩
  rw [goto_of_ne (List.cons_ne_self false w), hn]

theorem Unborn.forkDer {fd0 fd1 : Nat} (v : Unborn s) (h : s w = some ⟨t, .forkDer r fd0 fd1⟩) :
    s (true :: w) = none ∧
      Unborn ((s.goto w t (.close0 fd0 fd1)).goto (true :: w) t (.derClose1 r fd0 fd1)) := by
  have hn : s (true :: w) = none := by
    apply v
    intro p hp
    rw [h] at hp
    cases hp
    exact rfl
  have hv : Unborn (s.goto w t (.close0 fd0 fd1)) := v.goto h False.elim
  refine ⟨hn, hv.child goto_self id ?_⟩
  rw [goto_of_ne (List.cons_ne_self true w), hn]

theorem Unborn.step (v : Unborn s) (h : NextCase canOpen env s w o s') : Unborn s' := by
  cases h
  case forkIzq h   => exact (v.forkIzq h).right
  case forkDer h   => exact (v.forkDer h).right
  case ends h _    => exact v.goto h False.elim
  case fails h _ _ => exact v.goto h False.elim
  case exits h _   => exact v.goto h False.elim
  case program h   => exact v.goto h False.elim
  case runs h _ _  => exact v.goto h False.elim
  case pipe h _ _ _ => exact v.goto h fun _ => trivial
  case close0 h    => exact v.goto h False.elim
  case close1 h    => exact v.goto h False.elim
  case waitIzq h _ => exact v.goto h False.elim
  case returns h _ _ => exact v.goto h False.elim
  case izqClose0 h => exact v.goto h fun _ => trivial
  case izqDup h    => exact v.goto h fun _ => trivial
  case izqClose1 h => exact v.goto h fun _ => trivial
  case derClose1 h => exact v.goto h fun _ => trivial
  case derDup h    => exact v.goto h fun _ => trivial
  case derClose0 h => exact v.goto h fun _ => trivial

theorem hasExited_iff : s.hasExited w ↔ ∃ t, s w = some ⟨t, .exited⟩ := by
  rw [Procs.hasExited]
  split
  case h_1 t h => exact iff_of_true rfl ⟨t, h⟩
  case h_2 h =>
    refine iff_of_false Bool.false_ne_true ?_
    rintro ⟨t, ht⟩
    exact h t ht

theorem hasExited_goto (hw : s w = some p) (hp : p.pc ≠ .exited) {t' : Fds} (h : s.hasExited u) :
    (s.goto w t' pc).hasExited u := by
  obtain ⟨t, ht⟩ := hasExited_iff.mp h
  refine hasExited_iff.mpr ⟨t, ?_⟩
  rw [goto_of_ne ?_, ht]
  rintro rfl
  rw [ht] at hw
  cases hw
  exact hp rfl

theorem hasExited_child {b : Bool} (hn : s (b :: w) = none) {t' : Fds} (h : s.hasExited u) :
    (s.goto (b :: w) t' pc).hasExited u := by
  obtain ⟨t, ht⟩ := hasExited_iff.mp h
  refine hasExited_iff.mpr ⟨t, ?_⟩
  rw [goto_of_ne ?_, ht]
  rintro rfl
  rw [ht] at hn
  cases hn

theorem Waited.mono (h : Waited tree s w pc) (hm : ∀ {u}, s.hasExited u → s'.hasExited u) :
    Waited tree s' w pc := by
  cases pc
  case waitDer  => exact hm h
  case exited   => exact fun l r hs b => hm (h l r hs b)
  case returned => exact fun b => hm (h b)
  all_goals trivial

def AllWaited (tree : Cmd) (s : Procs) : Prop := ∀ w p, s w = some p → Waited tree s w p.pc

theorem AllWaited.goto (v : AllWaited tree s) {t' : Fds}
    (hm : ∀ {u}, s.hasExited u → (s.goto w t' pc).hasExited u) (hn : Waited tree (s.goto w t' pc) w pc) :
    AllWaited tree (s.goto w t' pc) := by
  intro u p hu
  by_cases huw : u = w
  case pos =>
    rw [huw, goto_self] at hu
    cases hu
    rw [huw]
    exact hn
  case neg =>
    rw [goto_of_ne huw] at hu
    exact (v u p hu).mono hm

-- A process ends that has no children.
theorem AllWaited.exit_leaf (v : AllWaited tree s) (hw : s w = some p) (hp : p.pc ≠ .exited)
    (hs : tree.sub w = some c) (hc : ∀ l r, c ≠ .pipe l r) : AllWaited tree (s.exit w) := by
  refine v.goto (hasExited_goto hw hp) fun l r h => ?_
  rw [hs] at h
  exact absurd (Option.some.inj h) (hc l r)

theorem AllWaited.step (vh : AllHeld canOpen env tree t s) (vu : Unborn s)
    (v : AllWaited tree s) (hg : Succeeds s (w, o)) (h : NextCase canOpen env s w o s') :
    AllWaited tree s' := by
  cases h
  case ends h hc =>
    obtain ⟨hs, -⟩ := vh _ _ h
    exact v.exit_leaf h Point.noConfusion hs hc
  case fails h hf ho =>
    have hk := hg _ h hf
    rw [ho] at hk
    cases hk
  case program h =>
    obtain ⟨c, e, hs, hc, -⟩ := vh _ _ h
    refine v.exit_leaf h Point.noConfusion hs ?_
    rintro l r rfl
    cases hc
    case inl hc => cases hc
    case inr hc =>
      obtain ⟨_, hc⟩ := hc
      cases hc
  case exits h he =>
    have hl := v _ _ h
    refine v.goto (hasExited_goto h Point.noConfusion) fun l r _ b => ?_
    cases b
    case false => exact hasExited_goto h Point.noConfusion hl
    case true  => exact hasExited_goto h Point.noConfusion he
  case returns h he _ =>
    have hl := v _ _ h
    refine v.goto (hasExited_goto h Point.noConfusion) fun b => ?_
    cases b
    case false => exact hasExited_goto h Point.noConfusion hl
    case true  => exact hasExited_goto h Point.noConfusion he
  case waitIzq h he =>
    exact v.goto (hasExited_goto h Point.noConfusion) (hasExited_goto h Point.noConfusion he)
  case forkIzq h =>
    have hn := (vu.forkIzq h).left
    refine AllWaited.goto (v.goto (hasExited_goto h Point.noConfusion) ?_) (hasExited_child ?_) ?_
    · trivial
    · rw [goto_of_ne (List.cons_ne_self false w), hn]
    · trivial
  case forkDer h =>
    have hn := (vu.forkDer h).left
    refine AllWaited.goto (v.goto (hasExited_goto h Point.noConfusion) ?_) (hasExited_child ?_) ?_
    · trivial
    · rw [goto_of_ne (List.cons_ne_self true w), hn]
    · trivial
  case runs h _ _   => exact v.goto (hasExited_goto h Point.noConfusion) trivial
  case pipe h _ _ _ => exact v.goto (hasExited_goto h Point.noConfusion) trivial
  case close0 h     => exact v.goto (hasExited_goto h Point.noConfusion) trivial
  case close1 h     => exact v.goto (hasExited_goto h Point.noConfusion) trivial
  case izqClose0 h  => exact v.goto (hasExited_goto h Point.noConfusion) trivial
  case izqDup h     => exact v.goto (hasExited_goto h Point.noConfusion) trivial
  case izqClose1 h  => exact v.goto (hasExited_goto h Point.noConfusion) trivial
  case derClose1 h  => exact v.goto (hasExited_goto h Point.noConfusion) trivial
  case derDup h     => exact v.goto (hasExited_goto h Point.noConfusion) trivial
  case derClose0 h  => exact v.goto (hasExited_goto h Point.noConfusion) trivial

end Waits

-- The process in which `exec_cmd` returns has waited for the whole tree.
theorem pipeline_waits (h0 : isOpen 0) (h1 : isOpen 1)
    (r : Run (ProcsStep canOpen env) Succeeds (.start tree isOpen) s) (hret : s [] = some p)
    (hp : p.pc = .returned) (hne : w ≠ []) (hs : tree.sub w = some c) : s.hasExited w := by
  let inv (s : Procs) : Prop := AllHeld canOpen env tree (shellFds isOpen) s ∧ Unborn s ∧ AllWaited tree s
  have hinv : inv s := by
    refine r.invariant ⟨AllHeld.run h0 h1 .refl, ?_, ?_⟩ fun hi hg h => ?_
    · intro u b _
      exact update_of_ne (List.cons_ne_nil b u) _ _
    · intro u p hu
      by_cases hn : u = []
      case pos =>
        rw [Procs.start, hn, update_self] at hu
        cases hu
        trivial
      case neg =>
        rw [Procs.start, update_of_ne hn] at hu
        cases hu
    · obtain ⟨vh, vu, v⟩ := hi
      have hc := next_cases h
      have hz : shellFds isOpen 0 ≠ none := by simp [shellFds, h0]
      have ho : shellFds isOpen 1 ≠ none := by simp [shellFds, h1]
      exact ⟨vh.step hz ho hc, vu.step hc, v.step vh vu hg hc⟩
  obtain ⟨-, -, hw⟩ := hinv
  induction w generalizing c
  case nil => exact absurd rfl hne
  case cons b w hi =>
    obtain ⟨l, r, hs', -⟩ := sub_cons hs
    by_cases hn : w = []
    case pos =>
      have h := hw [] p hret
      rw [hp] at h
      rw [hn]
      exact h b
    case neg =>
      obtain ⟨t, ht⟩ := hasExited_iff.mp (hi hn hs')
      exact hw w _ ht l r hs' b

theorem pipeline_waits_ab : ∃ s : Procs, (∃ t, s [] = some ⟨t, .returned⟩) ∧ s.hasExited [false] ∧
    s.hasExited [true] := by
  obtain ⟨s, r, h⟩ := Sample.of_reaches Sample.ends Sample.hasReturned (by decide +kernel)
  rw [Sample.hasReturned] at h
  split at h
  case h_1 t hw =>
    exact ⟨s, ⟨t, hw⟩, pipeline_waits rfl rfl r hw rfl (List.cons_ne_nil _ _) rfl,
      pipeline_waits rfl rfl r hw rfl (List.cons_ne_nil _ _) rfl⟩
  case h_2 => cases h

end Shell

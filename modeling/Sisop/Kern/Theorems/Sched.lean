import Sisop.Kern.Theorems.Smp
import Sisop.Kern.Theorems.Sample

-- The order in which `sched_yield` runs environments.

namespace Kern

open Inc Function Library

variable {m : Machine} {k k' : State} {c e : EnvPtr} {v : Env} {x : Exit} {i j : Nat} {s s' : Smp} {inp : Input}

section Ids

theorem ENVX_generateEnvId {w : Word} : ENVX (generateEnvId w e) = e := by
  have hlow {g : Word} (h : g &&& 0x3FF#32 = 0#32) : ENVX (g ||| BitVec.ofNat 32 e) = e := by
    have he := e.isLt
    have hlt : e.val < 1024 := he
    ext
    have hand : (g ||| BitVec.ofNat 32 e) &&& 0x3FF#32 = BitVec.ofNat 32 e &&& 0x3FF#32 := by
      rw [BitVec.and_comm, BitVec.and_or_distrib_left, BitVec.and_comm, h, BitVec.zero_or,
        BitVec.and_comm]
    simp only [ENVX, hand, BitVec.toNat_and, BitVec.toNat_ofNat]
    rw [show 1023 % 2 ^ 32 = 2 ^ 10 - 1 by rfl, Nat.and_two_pow_sub_one_eq_mod]
    omega
  simp only [generateEnvId]
  split
  · exact hlow (by decide)
  · refine hlow ?_
    rw [BitVec.and_assoc]
    simp

-- What a step does to environment ids: the low bits of an id are those of its slot, from the moment
-- the slot is allocated.
structure IdStep (k k' : State) : Prop where
  keep : ∀ {e}, ENVX (k.envs e).envId = e → ENVX (k'.envs e).envId = e
  new  : ∀ {e}, k'.pgdir e ≠ none → k.pgdir e ≠ none ∨ ENVX (k'.envs e).envId = e

namespace IdStep

theorem refl : IdStep k k :=
  ⟨id, .inl⟩

theorem trans {k₁ : State} (h₁ : IdStep k k₁) (h₂ : IdStep k₁ k') : IdStep k k' := by
  refine ⟨fun h => h₂.keep (h₁.keep h), fun h => ?_⟩
  rcases h₂.new h with h | h
  · rcases h₁.new h with h | h
    · exact .inl h
    · exact .inr (h₂.keep h)
  · exact .inr h

theorem sameEnvs (h : SameEnvs k k') : IdStep k k' :=
  ⟨by rw [h.envs]; exact id, by rw [h.pgdir]; exact .inl⟩

theorem update (h : k'.envs = update k.envs e v)
    (hv : v.envId = (k.envs e).envId ∧ (v.envPgdir ≠ none → k.pgdir e ≠ none) ∨ ENVX v.envId = e) :
    IdStep k k' := by
  refine ⟨fun {e'} he => ?_, fun {e'} he => ?_⟩
  all_goals by_cases hee : e' = e
  · subst hee
    rw [h, update_self]
    rcases hv with hv | hv
    · rw [hv.left, he]
    · exact hv
  · rwa [h, update_of_ne hee]
  · subst hee
    rw [State.pgdir_update h, update_self] at he
    rw [h, update_self]
    exact hv.imp (fun hv => hv.right he) id
  · rw [State.pgdir_update h, update_of_ne hee] at he
    exact .inl he

theorem setEnv (hi : v.envId = (k.envs e).envId) (hp : v.envPgdir = k.pgdir e) :
    IdStep k (k.setEnv e v) :=
  update rfl (.inl ⟨hi, fun h => hp ▸ h⟩)

theorem freed (h : Freed k e k') : IdStep k k' :=
  update h.envs (.inl ⟨rfl, fun hc => absurd rfl hc⟩)

theorem newEnv {parentId : Word} (n : NewEnv k parentId e v k') : IdStep k k' :=
  update n.envs (.inr (n.envId ▸ ENVX_generateEnvId))

theorem destroyed (h : Destroyed k c e x) : IdStep k x.state := by
  cases h
  case dying   => exact setEnv rfl rfl
  case freed h =>
    split
    · exact freed h
    · exact freed h

theorem syscall {no a1 a2 a3 a4 : Word} (h : SyscallEffect m k c no a1 a2 a3 a4 x) :
    IdStep k x.state := by
  cases h
  case quiet h     => exact sameEnvs h
  case yield       => exact refl
  case exit h      => exact destroyed h
  case destroy h   => exact destroyed h
  case exofork n _ => exact newEnv n
  case setStatus   => exact setEnv rfl rfl
  case setUpcall   => exact setEnv rfl rfl
  case recv        => exact setEnv rfl rfl
  case send h      =>
    refine (sameEnvs h).trans (setEnv ?_ ?_)
    · rw [h.envs]
      rfl
    · rw [h.pgdir]
      rfl

theorem dispatch {tf : Trapframe} (h : DispatchEffect m k c tf x) : IdStep k x.state := by
  cases h
  case exit h     => exact destroyed h
  case call y _ h =>
    have h := syscall h
    cases y
    case ret => exact h.trans (setEnv rfl rfl)
    all_goals exact h
  case upcall     => exact setEnv rfl rfl
  case resume     => exact refl
  case timer      => exact refl

theorem preempt {cur : Option EnvPtr} : IdStep k (preempt k cur) := by
  cases cur
  case none => exact refl
  case some =>
    simp only [Kern.preempt]
    split
    · exact setEnv rfl rfl
    · exact refl

theorem envRun {cur : Option EnvPtr} {n : Nat} (h : envRun k cur e n = some k') : IdStep k k' := by
  simp only [Kern.envRun] at h
  split at h
  case isTrue  => cases h
  case isFalse => cases h; exact preempt.trans (setEnv rfl rfl)

theorem envCreates {l : List (Elf × EnvType)} (h : envCreates m k l = some k') : IdStep k k' := by
  refine foldlM_list (P := IdStep k) h refl fun _ hi hc => ?_
  obtain ⟨_, _, n, _⟩ := envCreate_newEnv hc
  exact hi.trans (newEnv n)

theorem next (h : s.next m i inp = some s') : IdStep s.kern s'.kern := by
  have h := next_kern h
  generalize s'.kern = k', s'.curenv i = o at h ⊢
  cases h
  case same           => exact refl
  case halt           => exact refl
  case create h       => exact envCreates h
  case run h          => exact envRun h
  case zombie h       => exact freed h
  case saveTf         => exact setEnv rfl rfl
  case dispatch h     => exact dispatch h

end IdStep

end Ids

theorem preempt_pgdir {cur : Option EnvPtr} : (preempt k cur).pgdir e = k.pgdir e := by
  cases cur
  case none   => rfl
  case some c =>
    simp only [preempt]
    split
    · rw [State.pgdir_setEnv_self]
      rfl
    · rfl

theorem status_envRun {cur : Option EnvPtr} {n : Nat} (h : envRun k cur e n = some k') :
    k'.status e = .running := by
  simp only [envRun] at h
  split at h
  case isTrue  => cases h
  case isFalse => cases h; simp [State.status]

-- The machine, with the environment that each CPU was last running.
structure SchedState where
  smp : Smp
  last : Nat → Option EnvPtr

namespace SchedState

-- `env_run` is where a CPU starts to run an environment.
def lastAfter (t : SchedState) (i : Nat) : Nat → Option EnvPtr :=
  match t.smp.pc i with
  | .envRun e => update t.last i (some e)
  | _         => t.last

def Step (m : Machine) (t : SchedState) (ev : Nat × Input) (t' : SchedState) : Prop :=
  SmpStep m t.smp ev t'.smp ∧ t'.last = t.lastAfter ev.1

def Reachable (m : Machine) (guard : SchedState → Nat × Input → Prop) (t : SchedState) : Prop :=
  ∃ k b, Boot m k ∧ b < m.ncpu ∧ Run (Step m) guard ⟨.boot k b, fun _ => none⟩ t

-- CPU `i` is in `sched_yield` and about to run `e`.
def Dispatches (t : SchedState) (i : Nat) (e : EnvPtr) : Prop :=
  t.smp.pc i = .schedYield ∧ schedYield t.smp.kern (t.smp.curenv i) = some e

-- The environment that CPU `i` runs or was last running.
def position (t : SchedState) (i : Nat) : Option EnvPtr :=
  match t.smp.pc i with
  | .envRun e => some e
  | _         => t.last i

-- The conditions under which a search that does not start just after `last` has the same result: with
-- `curenv` it starts at `last` itself, and without at the first slot.
def InTurn (k : State) (curenv : Option EnvPtr) (last : EnvPtr) : Prop :=
  match curenv with
  | some _ => k.status last ≠ .runnable ∨ ∀ e, k.status e = .runnable → e = last
  | none   => (∀ e, e ≤ last → k.status e ≠ .runnable) ∨ ∀ e, last < e → k.status e ≠ .runnable

instance {cur : Option EnvPtr} : Decidable (InTurn k cur e) := by
  cases cur <;> exact inferInstanceAs (Decidable (_ ∨ _))

def InTurnStep (t : SchedState) (ev : Nat × Input) : Prop :=
  t.smp.pc ev.1 = .schedYield → ∀ last ∈ t.last ev.1, InTurn t.smp.kern (t.smp.curenv ev.1) last

instance {t : SchedState} {ev : Nat × Input} : Decidable (InTurnStep t ev) :=
  inferInstanceAs (Decidable (_ → _))

-- What holds in all runs: `curenv` is the environment that the CPU was last running.
structure Inv (t : SchedState) : Prop where
  ids : ∀ {e}, t.smp.kern.pgdir e ≠ none → ENVX (t.smp.kern.envs e).envId = e
  cur : ∀ {i c}, t.smp.curenv i = some c → t.last i = some c ∧ ENVX (t.smp.kern.envs c).envId = c

variable {t t₁ t₂ : SchedState} {ev : Nat × Input} {l y : EnvPtr}

theorem boot_inv {b : Nat} (h : Boot m k) : Inv ⟨.boot k b, fun _ => none⟩ :=
  ⟨fun he => absurd (h.bootInv.dirs _) he, nofun⟩

theorem last_of_ne (h : Step m t ev t₁) (hi : i ≠ ev.1) : t₁.last i = t.last i := by
  rw [h.right]
  cases hp : t.smp.pc ev.1 <;> simp [lastAfter, hp, hi]

theorem last_of_pc (h : Step m t ev t₁) (hi : ∀ e, t.smp.pc ev.1 ≠ .envRun e) : t₁.last = t.last := by
  rw [h.right, lastAfter]
  split
  case h_1 e he => exact absurd he (hi e)
  case h_2      => rfl

theorem last_of_envRun (h : Step m t ev t₁) (hi : t.smp.pc ev.1 = .envRun e) :
    t₁.last ev.1 = some e := by
  rw [h.right, lastAfter, hi]
  exact update_self ..

theorem Inv.step (v : Inv t) (h : Step m t ev t₁) : Inv t₁ := by
  have hid := IdStep.next h.left.right
  refine ⟨fun he => ?_, fun {i c} hc => ?_⟩
  · rcases hid.new he with he | he
    · exact hid.keep (v.ids he)
    · exact he
  · by_cases hi : i = ev.1
    case neg =>
      rw [next_curenv_of_ne h.left.right hi] at hc
      rw [last_of_ne h hi]
      exact ⟨(v.cur hc).left, hid.keep (v.cur hc).right⟩
    case pos =>
      subst hi
      rcases next_curenv h.left.right hc with ⟨hpc, hrun⟩ | ⟨hpc, hold⟩
      · refine ⟨last_of_envRun h hpc, hid.keep (v.ids ?_)⟩
        simp only [Kern.envRun] at hrun
        split at hrun
        case isTrue     => cases hrun
        case isFalse hp => exact preempt_pgdir ▸ hp
      · rw [last_of_pc h hpc]
        exact ⟨(v.cur hold).left, hid.keep (v.cur hold).right⟩

-- What a run preserves.
theorem Reachable.inv {guard : SchedState → Nat × Input → Prop} (r : Reachable m guard t) : Inv t := by
  obtain ⟨k, b, hb, _, r⟩ := r
  exact r.invariant (boot_inv hb) fun v _ h => v.step h

-- A search that is in turn has the result of a search from just after the last environment.
theorem Inv.search (v : Inv t) (hl : t.last i = some l)
    (g : InTurn t.smp.kern (t.smp.curenv i) l) :
    (Library.rotation (searchStart t.smp.kern (t.smp.curenv i))).find? (t.smp.kern.status · = .runnable) =
      (Library.rotation (l + 1)).find? (t.smp.kern.status · = .runnable) := by
  refine find?_rotation_congr fun {e e'} he he' => ?_
  have he : t.smp.kern.status e = .runnable := of_decide_eq_true he
  have he' : t.smp.kern.status e' = .runnable := of_decide_eq_true he'
  cases hc : t.smp.curenv i
  case some c =>
    obtain ⟨hcl, hid⟩ := v.cur hc
    cases hcl.symm.trans hl
    rw [hc] at g
    rw [searchStart, hid]
    rcases g with g | g
    · have hne : e ≠ l := fun h => g (by rwa [← h])
      have hne' : e' ≠ l := fun h => g (by rwa [← h])
      rw [distance_succ hne, distance_succ hne']
      omega
    · rw [g e he, g e' he']
      simp only [le_refl]
  case none =>
    rw [hc] at g
    have hlt := l.isLt
    have hlt := e.isLt
    have hlt := e'.isLt
    have h0 : (0 : EnvPtr).val = 0 := rfl
    simp only [searchStart, distance, val_succ, h0]
    rcases g with g | g
    · have : l.val < e.val := by
        by_contra hc
        exact g e (Fin.le_def.mpr (by omega)) he
      have : l.val < e'.val := by
        by_contra hc
        exact g e' (Fin.le_def.mpr (by omega)) he'
      split_ifs <;> omega
    · have : e.val ≤ l.val := by
        by_contra hc
        exact g e (Fin.lt_def.mpr (by omega)) he
      have : e'.val ≤ l.val := by
        by_contra hc
        exact g e' (Fin.lt_def.mpr (by omega)) he'
      split_ifs <;> omega

theorem schedYield_of_find? {cur : Option EnvPtr} {y : EnvPtr}
    (h : (Library.rotation (searchStart k cur)).find? (k.status · = .runnable) = some y) :
    schedYield k cur = some y := by
  unfold schedYield
  split
  case h_1 hy => exact hy.symm.trans h
  case h_2 hy =>
    rw [h] at hy
    cases hy

-- How many slots a search that starts just after `l` passes before it comes to `e`.
def ahead (l e : EnvPtr) : Nat := distance (l + 1) e

-- A dispatch in turn brings the CPU closer to every environment that it passes over.
theorem Inv.dispatch (v : Inv t) (hd : Dispatches t i y) (hl : t.last i = some l)
    (g : InTurn t.smp.kern (t.smp.curenv i) l) (he : t.smp.kern.status e = .runnable) (hy : e ≠ y) :
    ahead y e < ahead l e := by
  have hs := v.search hl g
  have hd := hd.right
  have hp : decide (t.smp.kern.status e = .runnable) = true := decide_eq_true he
  cases hf : (Library.rotation (l + 1)).find? (t.smp.kern.status · = .runnable)
  case none =>
    have hn := find?_rotation_eq_none.mp hf e
    rw [hp] at hn
    cases hn
  case some y' =>
    cases hd.symm.trans (schedYield_of_find? (hs.trans hf))
    exact distance_lt_of_find? hf hp hy

theorem position_eq (h : ∀ e, t.smp.pc i ≠ .envRun e) : t.position i = t.last i := by
  rw [position]
  split
  case h_1 e he => exact absurd he (h e)
  case h_2      => rfl

-- While `e` stays runnable, the CPU does not get further away from it.
theorem Inv.position_step (v : Inv t) (h : Step m t ev t₁) (g : InTurnStep t ev)
    (he : t.smp.kern.status e = .runnable) (hne : ∀ y, t₁.smp.pc i = .envRun y → e ≠ y)
    (hl : t.position i = some l) : ∃ l₁, t₁.position i = some l₁ ∧ ahead l₁ e ≤ ahead l e := by
  by_cases hi : i = ev.1
  case neg =>
    have hp : t₁.position i = t.position i := by
      rcases next_pc_of_ne h.left.right hi with hp | ⟨hp, hp'⟩
      · rw [position, position, hp, last_of_ne h hi]
      · rw [position_eq (by simp [hp']), position_eq (by simp [hp]), last_of_ne h hi]
    exact ⟨l, hp.trans hl, le_rfl⟩
  case pos =>
    subst hi
    by_cases hrun : ∃ y, t₁.smp.pc ev.1 = .envRun y
    case pos =>
      obtain ⟨y, hy⟩ := hrun
      have hpos : t₁.position ev.1 = some y := by rw [position, hy]
      refine ⟨y, hpos, ?_⟩
      cases next_envRun h.left.right hy
      case pick hpc hs =>
        rw [position_eq (by simp [hpc])] at hl
        exact (v.dispatch ⟨hpc, hs⟩ hl (g hpc _ hl) he (hne y hy)).le
      case resume hpc hpc' hc =>
        rw [position_eq hpc', (v.cur hc).left] at hl
        cases hl
        exact le_rfl
    case neg =>
      have hrun : ∀ y, t₁.smp.pc ev.1 ≠ .envRun y := fun y hy => hrun ⟨y, hy⟩
      rw [position_eq hrun]
      by_cases hpc : ∃ y, t.smp.pc ev.1 = .envRun y
      case pos =>
        obtain ⟨y, hy⟩ := hpc
        rw [position, hy] at hl
        cases hl
        exact ⟨l, last_of_envRun h hy, le_rfl⟩
      case neg =>
        have hpc : ∀ y, t.smp.pc ev.1 ≠ .envRun y := fun y hy => hpc ⟨y, hy⟩
        rw [position_eq hpc] at hl
        exact ⟨l, (last_of_pc h hpc).symm ▸ hl, le_rfl⟩

-- Either the CPU is about to run `e`, or it is at most `n` slots away from it.
def Near (t : SchedState) (i : Nat) (e : EnvPtr) (n : Nat) : Prop :=
  t.smp.pc i = .envRun e ∨ ∃ l, t.position i = some l ∧ ahead l e ≤ n

theorem Inv.near_step {n : Nat} (v : Inv t) (h : Step m t ev t₁) (g : InTurnStep t ev)
    (he : t.smp.kern.status e = .runnable) (he₁ : t₁.smp.kern.status e = .runnable)
    (hn : Near t i e n) : Near t₁ i e n := by
  rcases hn with hpc | ⟨l, hl, hn⟩
  case inl =>
    by_cases hi : i = ev.1
    case pos =>
      subst hi
      have hk := h.left.right
      simp only [Smp.next, hpc, Option.bind_eq_bind, Option.bind_eq_some_iff, Option.some.injEq] at hk
      obtain ⟨k, hk, hs⟩ := hk
      have hkern : t₁.smp.kern = k := hs ▸ rfl
      rw [hkern, status_envRun hk] at he₁
      cases he₁
    case neg =>
      rcases next_pc_of_ne h.left.right hi with hp | ⟨hp, _⟩
      · exact .inl (hp.trans hpc)
      · cases hp.symm.trans hpc
  case inr =>
    by_cases hpc : t₁.smp.pc i = .envRun e
    case pos => exact .inl hpc
    case neg =>
      obtain ⟨l₁, hl₁, hle⟩ := v.position_step h g he (fun y hy hey => hpc (hey ▸ hy)) hl
      exact .inr ⟨l₁, hl₁, hle.trans hn⟩

-- What a run preserves in which `e` stays runnable.
theorem Inv.near_run {n : Nat} (v : Inv t₁) (hn : Near t₁ i e n)
    (r : Run (Step m) (fun t ev => InTurnStep t ev ∧ t.smp.kern.status e = .runnable) t₁ t₂)
    (he : t₂.smp.kern.status e = .runnable) : Inv t₂ ∧ Near t₂ i e n := by
  let inv (t : SchedState) : Prop := Inv t ∧ (t.smp.kern.status e = .runnable → Near t i e n)
  have h : inv t₂ := by
    refine r.invariant ⟨v, fun _ => hn⟩ fun hi g h => ⟨hi.left.step h, fun he₁ => ?_⟩
    exact hi.left.near_step h g.left g.right he₁ (hi.right g.right)
  exact ⟨h.left, h.right he⟩

-- Round robin from `t` on: a search that starts from the environment that the CPU was last running, and
-- no second run of an environment before one that has been runnable since before the first.
structure RoundRobin (m : Machine) (guard : SchedState → Nat × Input → Prop) (t : SchedState) : Prop where
  search : ∀ {i inp l}, t.smp.pc i = .schedYield → t.last i = some l → guard t (i, inp) →
    (Library.rotation (searchStart t.smp.kern (t.smp.curenv i))).find? (t.smp.kern.status · = .runnable) =
      (Library.rotation (l + 1)).find? (t.smp.kern.status · = .runnable)
  once   : ∀ {i inp e x t₁ t₂} inp', Dispatches t i x → e ≠ x → guard t (i, inp) → Step m t (i, inp) t₁ →
    Run (Step m) (fun t ev => guard t ev ∧ t.smp.kern.status e = .runnable) t₁ t₂ →
    t₂.smp.kern.status e = .runnable → guard t₂ (i, inp') → ¬Dispatches t₂ i x

-- As long as all searches are in turn, scheduling is round robin.
theorem round_robin (r : Reachable m InTurnStep t) : RoundRobin m InTurnStep t := by
  have v := r.inv
  refine ⟨fun hpc hl g => v.search hl (g hpc _ hl), ?_⟩
  intro i inp e x t₁ t₂ inp' hd hx _ hs hr he g hd₂
  have hpos : t₁.position i = some x := by
    have h := hs.left.right
    simp only [Smp.next, hd.left, hd.right, Option.some.injEq] at h
    rw [position, ← h, Smp.goto_pc_self]
  obtain ⟨v₂, hn⟩ := (v.step hs).near_run (.inr ⟨x, hpos, le_rfl⟩) hr he
  rcases hn with hpc | ⟨l, hl, hle⟩
  · cases hpc.symm.trans hd₂.left
  · rw [position_eq (by simp [hd₂.left])] at hl
    have hlt := v₂.dispatch hd₂ hl (g hd₂.left _ hl) he hx
    omega

section Sample

variable (m)

-- One step, with its effect on `last`.
def next (t : SchedState) (ev : Nat × Input) : Option SchedState :=
  if ev.1 < m.ncpu then (t.smp.next m ev.1 ev.2).map (⟨·, t.lastAfter ev.1⟩) else none

variable {m}

theorem step_next (h : next m t ev = some t₁) : Step m t ev t₁ := by
  simp only [next] at h
  split at h
  case isTrue hc =>
    obtain ⟨s, hs, h⟩ := Option.map_eq_some_iff.mp h
    cases h
    exact ⟨⟨hc, hs⟩, rfl⟩
  case isFalse => cases h

-- The file server's time is up.
theorem round_robin_timer : ∃ t, Reachable Sample.uni InTurnStep t ∧ t.smp.pc 0 = .schedYield ∧
    t.last 0 = some Sample.fs ∧ RoundRobin Sample.uni InTurnStep t := by
  have h : (Run.follow (next Sample.uni) InTurnStep ⟨.boot Sample.uniBoot 0, fun _ => none⟩
      (Sample.bootUni ++ Sample.turn Sample.timer)).any fun t =>
        t.smp.pc 0 = .schedYield ∧ t.last 0 = some Sample.fs := by
    decide +kernel
  obtain ⟨t, ht, hp⟩ := (Option.any_eq_true _ _).mp h
  obtain ⟨hpc, hl⟩ := of_decide_eq_true hp
  have r : Reachable Sample.uni InTurnStep t :=
    ⟨_, 0, Sample.boot_uniBoot, by decide, Run.of_follow step_next ht⟩
  exact ⟨t, r, hpc, hl, round_robin r⟩

-- The file server's time is up, then the first user program exits, and the file server runs again
-- before the second user program.
theorem not_round_robin :
    ¬∀ {m t}, m.ncpu = 1 → Reachable m (fun _ _ => True) t → RoundRobin m (fun _ _ => True) t := by
  intro h
  let waits (t : SchedState) (_ : Nat × Input) : Prop := t.smp.kern.status 2 = .runnable
  let exits := Sample.trapped (Sample.call SYS_env_destroy 0 0 0 0 0)
  have hrun : (Run.follow (next Sample.uni) (fun _ _ => True) ⟨.boot Sample.uniBoot 0, fun _ => none⟩
      Sample.bootUni).any fun t => t.smp.pc 0 = .schedYield ∧
        schedYield t.smp.kern (t.smp.curenv 0) = some Sample.fs ∧
        (next Sample.uni t (0, Sample.idle)).any fun t₁ =>
          (Run.follow (next Sample.uni) waits t₁ ((Sample.turn Sample.timer).tail ++ Sample.turn exits)).any fun t₂ =>
            t₂.smp.kern.status 2 = .runnable ∧ t₂.smp.pc 0 = .schedYield ∧
              schedYield t₂.smp.kern (t₂.smp.curenv 0) = some Sample.fs := by
    decide +kernel
  obtain ⟨t, ht, hp⟩ := (Option.any_eq_true _ _).mp hrun
  obtain ⟨hpc, hs, hp⟩ := of_decide_eq_true hp
  obtain ⟨t₁, ht₁, hp⟩ := (Option.any_eq_true _ _).mp hp
  obtain ⟨t₂, ht₂, hp⟩ := (Option.any_eq_true _ _).mp hp
  obtain ⟨he, hpc₂, hs₂⟩ := of_decide_eq_true hp
  have r : Reachable Sample.uni (fun _ _ => True) t :=
    ⟨_, 0, Sample.boot_uniBoot, by decide, Run.of_follow step_next ht⟩
  have hr : Run (Step Sample.uni) (fun t _ => True ∧ t.smp.kern.status 2 = .runnable) t₁ t₂ :=
    (Run.of_follow step_next ht₂).weaken fun h => ⟨trivial, h⟩
  exact (h rfl r).once Sample.idle ⟨hpc, hs⟩ (by decide) trivial (step_next ht₁) hr he trivial ⟨hpc₂, hs₂⟩

end Sample

end SchedState

end Kern

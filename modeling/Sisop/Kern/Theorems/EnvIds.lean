import Sisop.Kern.Sample
import Sisop.Kern.Theorems.Envs

-- The ids that `env_alloc` hands out.

namespace Kern

open Inc Function Library

variable {m : Machine} {s s' s₁ s₂ : State} {e e' : EnvPtr} {n k : Nat} {w : Word}

-- The number of ids that a slot goes through before they repeat.
def idCycle : Nat := 2 ^ 19 - 1

-- The generation that is in the id of a slot after it has been allocated `n` times.
def generation : Nat → Nat
  | 0     => 0
  | n + 1 => n % idCycle + 1

-- The id of slot `e` after it has been allocated `n` times.
def slotId (e : EnvPtr) (n : Nat) : Word :=
  BitVec.ofNat 32 (generation n * 4096 + if n = 0 then 0 else e.val)

section SlotId

theorem generation_le : generation n ≤ idCycle := by
  cases n
  case zero   => exact Nat.zero_le _
  case succ n => exact Nat.mod_lt n (by decide)

theorem generation_pos (h : n ≠ 0) : 0 < generation n := by
  cases n
  case zero => exact absurd rfl h
  case succ => exact Nat.succ_pos _

-- The generation goes up by one until it starts again at one.
theorem generation_succ :
    generation (n + 1) = if generation n = idCycle then 1 else generation n + 1 := by
  have hc : idCycle = 524287 := by decide
  cases n
  case zero => rw [generation, generation, hc]; decide
  case succ n =>
    simp only [generation, hc]
    split <;> omega

-- The same generation comes back after a whole cycle.
theorem generation_add_ne (h : n ≠ 0) (hk : 0 < k) (hc : k < idCycle) :
    generation (n + k) ≠ generation n := by
  obtain ⟨n, rfl⟩ := Nat.exists_eq_succ_of_ne_zero h
  have hc' : idCycle = 524287 := by decide
  rw [show n.succ + k = (n + k) + 1 by omega]
  simp only [generation, hc'] at *
  omega

theorem slotId_toNat : (slotId e n).toNat = generation n * 4096 + if n = 0 then 0 else e.val := by
  have hg : generation n ≤ 524287 := generation_le
  have he : e.val < 1024 := e.isLt
  rw [slotId, BitVec.toNat_ofNat, Nat.mod_eq_of_lt]
  split <;> omega

theorem slotId_zero : slotId e 0 = 0#32 := by
  simp [slotId, generation]

theorem slotId_pos (h : n ≠ 0) : 0 < (slotId e n).toInt := by
  have hg : generation n ≤ 524287 := generation_le
  have hp := generation_pos h
  have he : e.val < 1024 := e.isLt
  have ht := slotId_toNat (e := e) (n := n)
  rw [if_neg h] at ht
  rw [BitVec.toInt_eq_toNat_of_lt] <;> omega

theorem ENVX_slotId (h : n ≠ 0) : ENVX (slotId e n) = e := by
  have he : e.val < 1024 := e.isLt
  rw [Fin.ext_iff, ENVX_toNat, slotId_toNat, if_neg h]
  omega

theorem slotId_ne (h : n ≠ 0) (hk : 0 < k) (hc : k < idCycle) : slotId e (n + k) ≠ slotId e n := by
  intro hs
  have hg := congrArg BitVec.toNat hs
  rw [slotId_toNat, slotId_toNat, if_neg h, if_neg (by omega)] at hg
  exact generation_add_ne h hk hc (by omega)

-- What `env_alloc` makes of the last id of the slot.
theorem generateEnvId_slotId : generateEnvId (slotId e n) e = slotId e (n + 1) := by
  have hg : generation n ≤ 524287 := generation_le
  have he : e.val < 1024 := e.isLt
  have ht := slotId_toNat (e := e) (n := n)
  have hr : (if n = 0 then 0 else e.val) < 1024 := by split <;> omega
  have hx : ((slotId e n + 0x1000#32) &&& ~~~0x3FF#32).toNat = (generation n + 1) * 4096 := by
    rw [clear_index, BitVec.toNat_add, ht, show (0x1000#32).toNat = 4096 by rfl]
    omega
  have hs : ((slotId e n + 0x1000#32) &&& ~~~0x3FF#32).sle 0#32 = true ↔ generation n = idCycle := by
    rw [BitVec.sle_iff_toInt_le, BitVec.toInt_eq_toNat_cond, hx, show idCycle = 524287 by decide]
    have hz : (0#32).toInt = 0 := rfl
    rw [hz]
    split <;> omega
  apply BitVec.eq_of_toNat_eq
  rw [slotId_toNat, if_neg n.succ_ne_zero, generation_succ, generateEnvId]
  by_cases hc : generation n = idCycle
  · rw [if_pos (hs.mpr hc), if_pos hc]
    exact or_index rfl
  · rw [if_neg (mt hs.mp hc), if_neg hc]
    rw [or_index (by omega), hx]

end SlotId

inductive EnvEvent
  | alloc (e : EnvPtr)
  | free (e : EnvPtr)
  -- What the kernel does apart from that.
  | other
  deriving DecidableEq

-- A step that allocates and frees no environment.
structure SameIds (s s' : State) : Prop where
  envId  : ∀ e, (s'.envs e).envId = (s.envs e).envId
  free   : ∀ e, s'.status e = .free ↔ s.status e = .free
  pgdir  : ∀ e, s'.pgdir e = none ↔ s.pgdir e = none

inductive EnvStep (m : Machine) : State → EnvEvent → State → Prop
  | alloc {s s' : State} {e : EnvPtr} {parentId : Word} (h : envAlloc m s parentId = (.ok e, s')) :
    EnvStep m s (.alloc e) s'
  | failed {s s' : State} {r parentId : Word} (h : envAlloc m s parentId = (.error r, s')) :
    EnvStep m s .other s'
  | free {s s' : State} {e : EnvPtr} (h : envFree m s e = some s') : EnvStep m s (.free e) s'
  | other {s s' : State} (h : SameIds s s') : EnvStep m s .other s'

-- The runs, with what happens in them.
inductive EnvRun (m : Machine) (s : State) : List EnvEvent → State → Prop
  | refl : EnvRun m s [] s
  | tail {s₁ s₂ : State} {evs : List EnvEvent} {ev : EnvEvent} : EnvRun m s evs s₁ →
    EnvStep m s₁ ev s₂ → EnvRun m s (evs ++ [ev]) s₂

-- How often slot `e` was allocated.
def allocs (evs : List EnvEvent) (e : EnvPtr) : Nat := evs.count (.alloc e)

theorem SameIds.refl : SameIds s s :=
  ⟨fun _ => rfl, fun _ => Iff.rfl, fun _ => Iff.rfl⟩

-- A slot that has been allocated `n e` times.
structure Counted (s : State) (n : EnvPtr → Nat) : Prop where
  envId : ∀ e, (s.envs e).envId = slotId e (n e)
  fresh : ∀ e, n e = 0 → s.status e = .free ∧ s.pgdir e = none

namespace Counted

variable {n : EnvPtr → Nat} {parentId : Word}

theorem sameIds (i : Counted s n) (h : SameIds s s') : Counted s' n where
  envId e    := (h.envId e).trans (i.envId e)
  fresh e hn := ⟨(h.free e).mpr (i.fresh e hn).left, (h.pgdir e).mpr (i.fresh e hn).right⟩

theorem newEnv {v : Env} (i : Counted s n) (h : NewEnv s parentId e v s') :
    Counted s' (update n e (n e + 1)) where
  envId e' := by
    rw [h.envs]
    by_cases he : e' = e
    · subst he
      rw [update_self, update_self, h.envId, i.envId, generateEnvId_slotId]
    · rw [update_of_ne he, update_of_ne he, i.envId]
  fresh e' hn := by
    have he : e' ≠ e := by
      rintro rfl
      rw [update_self] at hn
      cases hn
    rw [update_of_ne he] at hn
    rw [State.status_update h.envs, State.pgdir_update h.envs, update_of_ne he, update_of_ne he]
    exact i.fresh e' hn

theorem freed (i : Counted s n) (h : Freed s e s') : Counted s' n where
  envId e' := by
    rw [h.envs]
    by_cases he : e' = e
    · subst he
      rw [update_self]
      exact i.envId _
    · rw [update_of_ne he]
      exact i.envId _
  fresh e' hn := by
    rw [State.status_update h.envs, State.pgdir_update h.envs]
    by_cases he : e' = e
    · subst he
      rw [update_self, update_self]
      exact ⟨rfl, rfl⟩
    · rw [update_of_ne he, update_of_ne he]
      exact i.fresh e' hn

-- An environment that is in use, or has a page directory, has been allocated.
theorem ne_zero (i : Counted s n) (h : s.status e ≠ .free ∨ s.pgdir e ≠ none) : n e ≠ 0 := by
  intro hn
  obtain ⟨hf, hp⟩ := i.fresh e hn
  exact h.elim (· hf) (· hp)

end Counted

theorem EnvStep.counted {n : EnvPtr → Nat} {ev : EnvEvent} (i : Counted s n) (h : EnvStep m s ev s') :
    Counted s' fun e => n e + if ev = .alloc e then 1 else 0 := by
  cases h
  case alloc e parentId h =>
    have hn := i.newEnv (envAlloc_newEnv h).left
    refine ⟨fun e' => ?_, fun e' => ?_⟩
    all_goals
      have := hn.envId e'
      have := hn.fresh e'
      by_cases he : e' = e
      · subst he
        simp_all
      · simp_all [Ne.symm he]
  case failed h =>
    have hs := envAlloc_failed h
    subst hs
    simpa using i
  case free h  => simpa using i.freed (envFree_freed h)
  case other h => simpa using i.sameIds h

theorem EnvRun.counted {n : EnvPtr → Nat} {evs : List EnvEvent} (i : Counted s n)
    (r : EnvRun m s evs s') : Counted s' fun e => n e + allocs evs e := by
  induction r
  case refl           => exact i
  case tail r hs hi =>
    have hc := hs.counted hi
    refine ⟨fun e => ?_, fun e => ?_⟩
    all_goals
      have := hc.envId e
      have := hc.fresh e
      simp_all [allocs, List.count_append, List.count_singleton, Nat.add_assoc]

-- Without an allocation of the slot it stays free.
theorem EnvRun.free {evs : List EnvEvent} (r : EnvRun m s evs s') (h : s.status e = .free)
    (ha : allocs evs e = 0) : s'.status e = .free := by
  induction r
  case refl => exact h
  case tail evs ev r hs hi =>
    rw [allocs, List.count_append, Nat.add_eq_zero_iff] at ha
    have hf := hi ha.left
    cases hs
    case alloc e' _ hn =>
      have he : e ≠ e' := by
        rintro rfl
        simp at ha
      rw [State.status_update (envAlloc_newEnv hn).left.envs, update_of_ne he]
      exact hf
    case failed hn => rwa [envAlloc_failed hn]
    case free e' hn =>
      rw [State.status_update (envFree_freed hn).envs, update_apply]
      split
      · rfl
      · exact hf
    case other hn => exact (hn.free e).mpr hf

-- What the ids of environments are good for, in a state.
structure IdsUnique (m : Machine) (s : State) : Prop where
  -- The ids that are handed out next.
  handed : ∀ {parentId : Word} {e : EnvPtr} {s' : State}, envAlloc m s parentId = (.ok e, s') →
    0 < (s'.envs e).envId.toInt ∧ ENVX (s'.envs e).envId = e
  live   : ∀ {e e' : EnvPtr}, s.status e ≠ .free → s.status e' ≠ .free →
    (s.envs e).envId = (s.envs e').envId → e = e'
  -- The id of an environment that is freed now, when the slot has been allocated again.
  stale  : ∀ {e : EnvPtr} {s₁ s₂ : State} {evs : List EnvEvent}, envFree m s e = some s₁ →
    EnvRun m s₁ evs s₂ → allocs evs e < 2 ^ 19 - 1 →
    ∀ curenv checkperm, envid2env s₂ curenv (s.envs e).envId checkperm = .error (err E_BAD_ENV)

theorem Counted.idsUnique {n : EnvPtr → Nat} (i : Counted s n) : IdsUnique m s where
  handed h := by
    have hn := (envAlloc_newEnv h).left
    rw [hn.envId, i.envId, generateEnvId_slotId]
    exact ⟨slotId_pos (Nat.succ_ne_zero _), ENVX_slotId (Nat.succ_ne_zero _)⟩
  live {e e'} h h' he := by
    rw [i.envId, i.envId] at he
    calc
      e = ENVX (slotId e (n e))   := (ENVX_slotId (i.ne_zero (.inl h))).symm
      _ = ENVX (slotId e' (n e')) := congrArg ENVX he
      _ = e'                      := ENVX_slotId (i.ne_zero (.inl h'))
  stale {e s₁ s₂ evs} h r hk curenv checkperm := by
    have hf := envFree_freed h
    have hn := i.ne_zero (.inr hf.pgdir)
    have hx : (s.envs e).envId = slotId e (n e) := i.envId e
    have hz : slotId e (n e) ≠ 0#32 := fun hc => by
      have := slotId_pos (e := e) hn
      rw [hc] at this
      exact absurd this (by decide)
    have hr : s₂.status e = .free ∨ (s₂.envs e).envId ≠ slotId e (n e) := by
      by_cases ha : allocs evs e = 0
      · refine .inl (r.free ?_ ha)
        rw [State.status_update hf.envs, update_self]
      · rw [(r.counted (i.freed hf)).envId]
        exact .inr (slotId_ne hn (Nat.pos_of_ne_zero ha) hk)
    rw [envid2env, hx, if_neg hz]
    simp only [ENVX_slotId hn, if_pos hr]

-- Ids are positive and unique, and the id of a freed environment stays invalid until its slot has gone
-- through all the other ids.
theorem env_ids_unique {evs : List EnvEvent} (hz : s.envs = fun _ => .zero)
    (r : EnvRun m (envInit s) evs s') : IdsUnique m s' := by
  have i : Counted (envInit s) fun _ => 0 := by
    refine ⟨fun e => ?_, fun e _ => ⟨rfl, ?_⟩⟩
    · rw [slotId_zero]
      rfl
    · simp [State.pgdir, envInit, hz, Env.zero]
  exact (r.counted i).idsUnique

-- The first environment is allocated.
theorem env_ids_unique_first : ∃ s, EnvRun Sample.machine
    (envInit ((bootState Sample.machine fun _ _ => 0#32).setPageFreeList (some Sample.first)))
      [.alloc 0] s ∧ IdsUnique Sample.machine s := by
  let s := (bootState Sample.machine fun _ _ => 0#32).setPageFreeList (some Sample.first)
  have ha : envAlloc Sample.machine (envInit s) 0#32 =
    (.ok 0, (envAlloc Sample.machine (envInit s) 0#32).2) := rfl
  have r := EnvRun.refl.tail (.alloc ha)
  exact ⟨_, r, env_ids_unique rfl r⟩

end Kern

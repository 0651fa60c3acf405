import Sisop.Kern.Smp
import Sisop.Kern.Theorems.Sample

-- The big kernel lock.

namespace Kern

open Inc Function Library

variable {m : Machine} {s s' : Smp} {i j : Nat} {pc pc₀ : Pc} {inp : Input} {k : State}

namespace Pc

-- Between `lock_kernel` and `unlock_kernel`. Only a trap of a halted CPU takes the lock before the test
-- of `tf_cs`.
def locked : Pc → Bool
  | off | i386Init | mpMain | mpMainLock | halted | user | trap _ | trapHalted _ | trapUser _ => false
  | trapMode tf => !fromUser tf
  | _           => true

-- The next step is a call of `spin_lock`.
def locks : Pc → Bool
  | i386Init | mpMainLock | trapHalted _ | trapUser _ => true
  | _                                                 => false

-- The next step is a call of `spin_unlock`.
def unlocks : Pc → Bool
  | envRunUnlock | schedHaltUnlock => true
  | _                              => false

-- In `trap_dispatch`, `sched_yield`, or in `env_run` or `sched_halt` up to their `unlock_kernel`.
def critical : Pc → Bool
  | trapDispatch _ | schedYield | envRun _ | envRunUnlock | schedHalt | schedHaltUnlock => true
  | _                                                                                   => false

-- After `sched_halt` has set `cpu_status`, and before `trap` does.
def halting : Pc → Bool
  | schedHaltUnlock | halted => true
  | trap tf                  => !fromUser tf
  | _                        => false

theorem locked_of_critical (h : pc.critical) : pc.locked := by
  cases pc <;> first | rfl | cases h

theorem locked_of_unlocks (h : pc.unlocks) : pc.locked := by
  cases pc <;> first | rfl | cases h

theorem not_locked_of_locks (h : pc.locks) : pc.locked = false := by
  cases pc <;> first | rfl | cases h

end Pc

theorem Spinlock.holding_unique {lk : Spinlock} (hi : lk.holding i) (hj : lk.holding j) : i = j := by
  simp only [Spinlock.holding, Bool.and_eq_true, beq_iff_eq] at hi hj
  exact Option.some.inj (hi.right.symm.trans hj.right)

-- A CPU holds the lock exactly between `lock_kernel` and `unlock_kernel`, and a CPU that has not been
-- halted traps from user mode.
structure LockInv (s : Smp) : Prop where
  holding : ∀ i, s.lock.holding i = (s.pc i).locked
  status  : ∀ i, (s.cpus i).cpuStatus = .halted ↔ (s.pc i).halting
  mode    : ∀ {i tf}, s.pc i = .trapHalted tf → fromUser tf = false

namespace LockInv

theorem boot {b : Nat} : LockInv (.boot k b) := by
  refine ⟨fun i => ?_, fun i => ?_, fun {i _} h => ?_⟩
  all_goals by_cases hi : i = b <;> simp_all [Smp.boot, Spinlock.holding, Pc.locked, Pc.halting]

theorem congr (v : LockInv s) (hl : s'.lock = s.lock) (hp : s'.pc = s.pc)
    (hs : ∀ i, (s'.cpus i).cpuStatus = (s.cpus i).cpuStatus) : LockInv s' where
  holding i := by rw [hl, hp, v.holding]
  status i  := by rw [hs, hp, v.status]
  mode h    := v.mode (hp ▸ h)

theorem setKern (v : LockInv s) : LockInv (s.setKern k) :=
  v.congr rfl rfl fun _ => rfl

theorem setCurenv {e : Option EnvPtr} (v : LockInv s) : LockInv (s.setCurenv i e) := by
  refine v.congr rfl rfl fun j => ?_
  simp only [Smp.setCurenv, update_apply]
  split
  case isTrue h  => rw [h]
  case isFalse _ => rfl

-- A step of CPU `i` to `pc` that leaves the lock alone.
theorem setStatus {st : CpuStatus} (v : LockInv s) (hpc : s.pc i = pc₀)
    (hl : pc.locked = pc₀.locked) (hh : st = .halted ↔ pc.halting) (hm : ∀ {tf}, pc = .trapHalted tf → fromUser tf = false) :
    LockInv ((s.setStatus i st).goto i pc) := by
  refine ⟨fun j => ?_, fun j => ?_, fun {j tf} h => ?_⟩
  all_goals
    by_cases hj : j = i
    case pos =>
      subst hj
      simp_all [Smp.setStatus, Smp.goto, v.holding]
    case neg =>
      simp only [Smp.setStatus, Smp.goto, update_of_ne hj] at *
      first | exact v.holding j | exact v.status j | exact v.mode h

theorem goto (v : LockInv s) (hpc : s.pc i = pc₀) (hl : pc.locked = pc₀.locked)
    (hh : pc.halting = pc₀.halting) (hm : ∀ {tf}, pc = .trapHalted tf → fromUser tf = false) :
    LockInv (s.goto i pc) := by
  have hs : s.setStatus i (s.cpus i).cpuStatus = s := by
    simp [Smp.setStatus]
  have h := v.setStatus hpc hl (hh ▸ hpc ▸ v.status i) hm
  rwa [hs] at h

theorem lockKernel (v : LockInv s) (hpc : s.pc i = pc₀) (h : s.lockKernel i pc = some s')
    (hl : pc.locked) (hh : pc.halting = pc₀.halting)
    (hm : ∀ {tf}, pc = .trapHalted tf → fromUser tf = false) : LockInv s' := by
  simp only [Smp.lockKernel] at h
  split at h
  case isTrue  => cases h
  case isFalse hfree =>
    cases h
    refine ⟨fun j => ?_, fun j => ?_, fun {j tf} h => ?_⟩
    all_goals by_cases hj : j = i
    · simp [hj, Smp.goto, Spinlock.holding, hl]
    · have := v.holding j
      simp_all [Smp.goto, Spinlock.holding, Ne.symm hj]
    · simp [hj, Smp.goto, hh, ← hpc, v.status i]
    · simp [Smp.goto, hj, v.status j]
    · simp_all [Smp.goto]
    · simp only [Smp.goto, update_of_ne hj] at h
      exact v.mode h

theorem unlockKernel (v : LockInv s) (hpc : s.pc i = pc₀) (h : s.unlockKernel i pc = some s')
    (hl : pc.locked = false) (hh : pc.halting = pc₀.halting)
    (hm : ∀ {tf}, pc = .trapHalted tf → fromUser tf = false) : LockInv s' := by
  simp only [Smp.unlockKernel] at h
  split at h
  case isFalse => cases h
  case isTrue hhold =>
    cases h
    refine ⟨fun j => ?_, fun j => ?_, fun {j tf} h => ?_⟩
    all_goals by_cases hj : j = i
    · simp [hj, Smp.goto, Spinlock.holding, hl]
    · have hn : (s.pc j).locked = false := by
        rw [← v.holding, Bool.eq_false_iff]
        exact fun hc => hj (Spinlock.holding_unique hc hhold)
      simp [Smp.goto, hj, Spinlock.holding, hn]
    · simp [hj, Smp.goto, hh, ← hpc, v.status i]
    · simp [Smp.goto, hj, v.status j]
    · simp_all [Smp.goto]
    · simp only [Smp.goto, update_of_ne hj] at h
      exact v.mode h

-- What one step preserves.
theorem next (v : LockInv s) (h : s.next m i inp = some s') : LockInv s' := by
  cases next_cases h
  case i386Init hpc h        => exact v.lockKernel hpc h rfl rfl nofun
  case bootAps hpc           => exact v.goto hpc rfl rfl nofun
  case bootApsEnd hpc        => exact v.goto hpc rfl rfl nofun
  case startap hpc hc hoff =>
    have v' : LockInv (s.goto _ .mpMain) := v.goto hoff rfl rfl nofun
    exact v'.goto ((update_of_ne (Ne.symm hc) _ _).trans hpc) rfl rfl nofun
  case bootApsWait hpc       => exact v.goto hpc rfl rfl nofun
  case envCreates hpc _      => exact v.setKern.goto hpc rfl rfl nofun
  case mpMain hpc            => exact v.setStatus hpc rfl (by decide) nofun
  case mpMainLock hpc h      => exact v.lockKernel hpc h rfl rfl nofun
  case schedYield hpc _      => exact v.goto hpc rfl rfl nofun
  case schedNone hpc _       => exact v.goto hpc rfl rfl nofun
  case schedHalt hpc _       => exact v.setCurenv.setStatus hpc rfl (by decide) nofun
  case noEnvs hpc            => exact v.goto hpc rfl rfl nofun
  case schedHaltUnlock hpc h => exact v.unlockKernel hpc h rfl rfl nofun
  case halted hpc hcs =>
    have hu : fromUser inp.tf = false := by
      rw [fromUser, hcs]
      decide
    exact v.goto hpc rfl (by simp [Pc.halting, hu]) nofun
  case envRun hpc _          => exact v.setKern.setCurenv.goto hpc rfl rfl nofun
  case envRunUnlock hpc h    => exact v.unlockKernel hpc h rfl rfl nofun
  case user hpc hu           => exact v.goto hpc rfl (by simp [Pc.halting, hu]) nofun
  case trapHalted tf hpc hh =>
    have hu : fromUser tf = false := by
      have := (v.status i).mp hh
      simpa [hpc, Pc.halting] using this
    refine v.setStatus hpc rfl (by simp [Pc.halting]) fun ht => ?_
    cases ht
    exact hu
  case trapStarted tf hpc hh =>
    have hu : fromUser tf = true := by
      have := (v.status i).not.mp hh
      simpa [hpc, Pc.halting] using this
    exact v.setStatus hpc (by simp [Pc.locked, hu]) (by simp [Pc.halting]) nofun
  case haltedLock tf hpc h   =>
    exact v.lockKernel hpc h (by simp [Pc.locked, v.mode hpc]) rfl nofun
  case userMode hpc hu       => exact v.goto hpc (by simp [Pc.locked, hu]) rfl nofun
  case kernelMode hpc hu     => exact v.goto hpc (by simp [Pc.locked, hu]) rfl nofun
  case userLock hpc h        => exact v.lockKernel hpc h rfl rfl nofun
  case zombie hpc _ _ _      => exact v.setKern.setCurenv.goto hpc rfl rfl nofun
  case saveTf hpc _ _        => exact v.setKern.goto hpc rfl rfl nofun
  case breakpoint hpc        => exact v.goto hpc rfl rfl nofun
  case dispatch x hpc _ _ _  =>
    cases x
    case ret   => exact v.setKern.goto hpc rfl rfl nofun
    case sched => exact v.setKern.setCurenv.goto hpc rfl rfl nofun
    case run   => exact v.setKern.goto hpc rfl rfl nofun
  case spurious hpc _        => exact v.goto hpc rfl rfl nofun
  case timer hpc _           => exact v.goto hpc rfl rfl nofun
  case resume hpc _ _        => exact v.goto hpc rfl rfl nofun
  case yield hpc _           => exact v.goto hpc rfl rfl nofun

-- What a run preserves.
theorem reachable {guard : Smp → Nat × Input → Prop} (r : SmpReachable m guard s) : LockInv s := by
  obtain ⟨_, _, _, _, r⟩ := r
  exact r.invariant boot fun v _ h => v.next h.right

end LockInv

-- How the CPUs use the big kernel lock.
structure LockDiscipline (s : Smp) : Prop where
  exclusive : ∀ {i j}, (s.pc i).locked → (s.pc j).locked → i = j
  locks     : ∀ {i}, (s.pc i).locks → s.lock.holding i = false
  unlocks   : ∀ {i}, (s.pc i).unlocks → s.lock.holding i
  critical  : ∀ {i}, (s.pc i).critical → s.lock.holding i

-- At most one CPU executes kernel code under the lock, and every CPU takes and releases it in turn.
theorem lock_discipline (r : SmpReachable m (fun _ _ => True) s) : LockDiscipline s := by
  have v := LockInv.reachable r
  refine ⟨fun hi hj => ?_, fun h => ?_, fun h => ?_, fun h => ?_⟩
  · rw [← v.holding] at hi hj
    exact Spinlock.holding_unique hi hj
  · rw [v.holding, Pc.not_locked_of_locks h]
  · rw [v.holding, Pc.locked_of_unlocks h]
  · rw [v.holding, Pc.locked_of_critical h]

-- Both CPUs have been started, and the second one waits for the lock.
theorem lock_discipline_boot : ∃ s, SmpReachable Sample.machine (fun _ _ => True) s ∧
    (s.pc 0).locked ∧ (s.pc 1).locks ∧ LockDiscipline s := by
  obtain ⟨s, hr, hp⟩ := Sample.smpReachable_exec (P := fun s => (s.pc 0).locked ∧ (s.pc 1).locks)
    (Sample.bootCpus.map fun i => (i, Sample.idle)) (fun _ _ _ => trivial) (by decide +kernel)
  exact ⟨s, hr, hp.left, hp.right, lock_discipline hr⟩

end Kern

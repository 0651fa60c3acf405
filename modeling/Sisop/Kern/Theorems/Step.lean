import Sisop.Kern.Theorems.Syscall

namespace Kern

open Inc Function Library State

namespace KernInv

variable {m : Machine} {K : Nat → Nat → Word} {s s' : State} {c e : EnvPtr} {x : Exit}

theorem syscall {getc no a1 a2 a3 a4 a5 : Word} (i : KernInv m K s)
    (h : syscall m s c getc no a1 a2 a3 a4 a5 = some x) (g : Safe m s c no a1 a2 a3 a4 a5) :
    KernInv m K x.state := by
  cases syscall_cases h
  case cputs hx               => exact i.sysCputs hx
  case cgetc hx               => exact hx ▸ i
  case getenvid hx            => exact hx ▸ i
  case envDestroy hx          => exact i.sysEnvDestroy hx
  case yield hx               => exact hx ▸ i
  case exofork hx             => exact hx ▸ i.sysExofork
  case envSetStatus hx        => exact hx ▸ i.sysEnvSetStatus
  case pageAlloc hx           => exact i.sysPageAlloc hx
  case pageMap hn hx          => exact i.sysPageMap hx (g.pageMap hn)
  case pageUnmap hn hx        => exact i.sysPageUnmap hx (g.pageUnmap hn)
  case ipcRecv hx             => exact hx ▸ i.sysIpcRecv
  case ipcTrySend hn hx       => exact i.sysIpcTrySend hx (g.tryIpc hn)
  case envSetPgfaultUpcall hx => exact hx ▸ i.sysEnvSetPgfaultUpcall
  case invalid hx             => exact hx ▸ i

theorem pageFaultHandler {tf : Trapframe} (i : KernInv m K s)
    (h : pageFaultHandler m s c tf = some x) : KernInv m K x.state := by
  simp only [Kern.pageFaultHandler] at h
  split at h
  case isTrue  => exact i.envDestroy h
  case isFalse =>
    simp only [Option.bind_eq_bind, Option.bind_eq_some_iff] at h
    obtain ⟨_, _, h⟩ := h
    split at h
    case isTrue  => cases h
    case isFalse =>
      obtain ⟨r, hr, hx⟩ := Option.bind_eq_some_iff.mp h
      cases r
      case none   => cases hx; exact i.setEnv rfl rfl
      case some _ => cases hx; exact i.userMemAssert hr

theorem saveTf {tf : Trapframe} (i : KernInv m K s) : KernInv m K (s.saveTf c tf) :=
  i.setEnv rfl rfl

theorem setEax (i : KernInv m K x.state) : KernInv m K (x.setEax c).state := by
  cases x
  case ret => exact i.setEnv rfl rfl
  all_goals exact i

theorem trapUser {getc : Word} {tf : Trapframe} (i : KernInv m K s)
    (h : trapUser m s c getc tf = some x) (g : SafeStep m s (.trap c getc tf)) :
    KernInv m K x.state := by
  cases trapUser_cases h
  case dying h hx         => exact hx ▸ (envFree_spec i h).left
  case fault hx           => exact i.saveTf.pageFaultHandler hx
  case syscall hd hn hy h => exact h ▸ (i.saveTf.syscall hy (g hn hd)).setEax
  case spurious hx        => exact hx ▸ i.saveTf
  case timer hx           => exact hx ▸ i.saveTf
  case other hx           => exact i.saveTf.envDestroy hx

theorem preempt {cur : Option EnvPtr} (i : KernInv m K s) : KernInv m K (preempt s cur) := by
  cases cur
  case none   => exact i
  case some c =>
    simp only [Kern.preempt]
    split
    · exact i.setEnv rfl rfl
    · exact i

theorem envRun {cur : Option EnvPtr} {n : Nat} (i : KernInv m K s)
    (h : envRun s cur e n = some s') : KernInv m K s' := by
  simp only [Kern.envRun] at h
  split at h
  case isTrue  => cases h
  case isFalse => cases h; exact i.preempt.setEnv rfl rfl

-- What one step preserves.
theorem step {ev : Event} (i : KernInv m K s) (g : SafeStep m s ev) (h : Step m s ev s') :
    KernInv m K s' := by
  cases h
  case trap h => exact i.trapUser h g
  case run h  => exact i.envRun h

-- What a run preserves.
theorem run (i : KernInv m K s) (r : Run (Step m) (SafeStep m) s s') : KernInv m K s' :=
  r.invariant i step

end KernInv

end Kern

import Sisop.Kern.Step
import Sisop.Library.Rotation

-- kern/cpu.h, kern/spinlock.c, kern/sched.c, and the control flow of kern/init.c and kern/trap.c

namespace Kern

open Inc Function

inductive CpuStatus
  | unused
  | started
  | halted
  deriving DecidableEq

structure CpuInfo where
  cpuStatus : CpuStatus
  cpuEnv : Option EnvPtr
  deriving DecidableEq

-- `cpu` is the CPU that holds the lock.
structure Spinlock where
  locked : Bool
  cpu : Option Nat
  deriving DecidableEq

def Spinlock.holding (lk : Spinlock) (i : Nat) : Bool := lk.locked && lk.cpu == some i

-- `(tf->tf_cs & 3) == 3`
def fromUser (tf : Trapframe) : Bool := tf.tfCs &&& 3#16 == 3#16

-- The points of a CPU's control flow between which other CPUs may take steps.
inductive Pc
  | off
  -- `i386_init`: its call of `lock_kernel`, the loop in `boot_aps` with its index, the wait inside that
  -- loop, and the calls of `env_create`.
  | i386Init
  | bootAps (c : Nat)
  | bootApsWait (c : Nat)
  | envCreates
  -- `mp_main`, and its call of `lock_kernel`.
  | mpMain
  | mpMainLock
  | schedYield
  | schedHalt
  | schedHaltUnlock
  -- The loop with `hlt`.
  | halted
  -- The kernel monitor, which no command leaves.
  | monitor
  | envRun (e : EnvPtr)
  | envRunUnlock
  -- In user mode.
  | user
  -- `trap`: its entry, the call of `lock_kernel` of a halted CPU, the test of `tf_cs`, the call of
  -- `lock_kernel` of a trap from user mode and what follows it, `trap_dispatch`, and the end.
  | trap (tf : Trapframe)
  | trapHalted (tf : Trapframe)
  | trapMode (tf : Trapframe)
  | trapUser (tf : Trapframe)
  | trapZombie (tf : Trapframe)
  | trapDispatch (tf : Trapframe)
  | trapRet
  deriving DecidableEq

-- The kernel's data with what is private to each CPU.
structure Smp where
  kern : State
  lock : Spinlock
  cpus : Nat → CpuInfo
  pc : Nat → Pc

namespace Smp

variable (s : Smp) (i : Nat)

def curenv : Option EnvPtr := (s.cpus i).cpuEnv

def goto (pc : Pc) : Smp := { s with pc := update s.pc i pc }

def setKern (k : State) : Smp := { s with kern := k }

def setStatus (st : CpuStatus) : Smp :=
  { s with cpus := update s.cpus i { s.cpus i with cpuStatus := st } }

def setCurenv (e : Option EnvPtr) : Smp :=
  { s with cpus := update s.cpus i { s.cpus i with cpuEnv := e } }

-- `spin_lock`, which spins (or panics) as long as the lock is taken.
def lockKernel (pc : Pc) : Option Smp :=
  if s.lock.locked then none
  else some ({ s with lock := ⟨true, some i⟩ }.goto i pc)

-- `spin_unlock`, which panics if another CPU holds the lock.
def unlockKernel (pc : Pc) : Option Smp :=
  if s.lock.holding i then some ({ s with lock := ⟨false, none⟩ }.goto i pc)
  else none

end Smp

-- Where `sched_yield` starts its search.
def searchStart (s : State) : Option EnvPtr → EnvPtr
  | some c => ENVX (s.envs c).envId
  | none   => 0

-- The environment that `sched_yield` runs, if it does not halt the CPU.
def schedYield (s : State) (curenv : Option EnvPtr) : Option EnvPtr :=
  match (Library.rotation (searchStart s curenv)).find? (s.status · = .runnable) with
  | some idle => some idle
  | none      => curenv.filter (s.status · = .running)

-- Whether `sched_halt` halts the CPU and does not drop into the monitor.
def hasEnvs (s : State) : Prop :=
  ∃ e, s.status e = .runnable ∨ s.status e = .running ∨ s.status e = .dying

instance (s : State) : Decidable (hasEnvs s) := inferInstanceAs (Decidable (∃ _, _))

-- What a step takes from outside of the kernel: a trap frame, the input that `cons_getc` finds, and
-- the binaries that are linked into the kernel.
structure Input where
  tf : Trapframe
  getc : Word
  binaries : List (Elf × EnvType)

-- How `trap` goes on after a trap of `c` from user mode has been dispatched.
def Smp.resume (s : Smp) (i : Nat) (c : EnvPtr) : Exit → Smp
  | .ret _ k     => (s.setKern k).goto i .trapRet
  | .sched cur k => ((s.setKern k).setCurenv i cur).goto i .schedYield
  | .run k       => (s.setKern k).goto i (.envRun c)

-- One step of CPU `i`; `none` if it has to wait, or panics.
def Smp.next (m : Machine) (s : Smp) (i : Nat) (inp : Input) : Option Smp :=
  match s.pc i with
  | .off             => none
  | .i386Init        => s.lockKernel i (.bootAps 0)
  | .bootAps c       =>
    if m.ncpu ≤ c then some (s.goto i .envCreates)
    else if c = i then some (s.goto i (.bootAps (c + 1)))
    else
      match s.pc c with
      | .off => some ((s.goto c .mpMain).goto i (.bootApsWait c))
      | _    => none
  | .bootApsWait c   =>
    if (s.cpus c).cpuStatus = .started then some (s.goto i (.bootAps (c + 1))) else none
  | .envCreates      => do
    let k ← Kern.envCreates m s.kern inp.binaries
    some ((s.setKern k).goto i .schedYield)
  | .mpMain          => some ((s.setStatus i .started).goto i .mpMainLock)
  | .mpMainLock      => s.lockKernel i .schedYield
  | .schedYield      =>
    match Kern.schedYield s.kern (s.curenv i) with
    | some e => some (s.goto i (.envRun e))
    | none   => some (s.goto i .schedHalt)
  | .schedHalt       =>
    if hasEnvs s.kern then some (((s.setCurenv i none).setStatus i .halted).goto i .schedHaltUnlock)
    else some (s.goto i .monitor)
  | .schedHaltUnlock => s.unlockKernel i .halted
  | .halted          => if inp.tf.tfCs = GD_KT then some (s.goto i (.trap inp.tf)) else none
  | .monitor         => none
  | .envRun e        => do
    let k ← Kern.envRun s.kern (s.curenv i) e i
    some (((s.setKern k).setCurenv i (some e)).goto i .envRunUnlock)
  | .envRunUnlock    => s.unlockKernel i .user
  | .user            => if fromUser inp.tf then some (s.goto i (.trap inp.tf)) else none
  | .trap tf         =>
    let s' := s.setStatus i .started
    if (s.cpus i).cpuStatus = .halted then some (s'.goto i (.trapHalted tf))
    else some (s'.goto i (.trapMode tf))
  | .trapHalted tf   => s.lockKernel i (.trapMode tf)
  | .trapMode tf     =>
    if fromUser tf then some (s.goto i (.trapUser tf)) else some (s.goto i (.trapDispatch tf))
  | .trapUser tf     => s.lockKernel i (.trapZombie tf)
  | .trapZombie tf   => do
    let c ← s.curenv i
    if s.kern.status c = .dying then
      let k ← Kern.envFree m s.kern c
      some (((s.setKern k).setCurenv i none).goto i .schedYield)
    else some ((s.setKern (s.kern.saveTf c tf)).goto i (.trapDispatch tf))
  | .trapDispatch tf =>
    if fromUser tf then do
      let c ← s.curenv i
      if tf.tfTrapno = T_BRKPT then some (s.goto i .monitor)
      else
        let x ← Kern.trapDispatch m s.kern c inp.getc tf
        some (s.resume i c x)
    -- Other traps from the kernel panic.
    else if tf.tfTrapno = IRQ_OFFSET + IRQ_SPURIOUS then some (s.goto i .trapRet)
    else if tf.tfTrapno = IRQ_OFFSET + IRQ_TIMER then some (s.goto i .schedYield)
    else none
  | .trapRet         =>
    match (s.curenv i).filter (s.kern.status · = .running) with
    | some c => some (s.goto i (.envRun c))
    | none   => some (s.goto i .schedYield)

-- The steps of CPU `i`.
inductive NextCase (m : Machine) (s : Smp) (i : Nat) (inp : Input) : Smp → Prop
  | i386Init {s'} (hpc : s.pc i = .i386Init) (h : s.lockKernel i (.bootAps 0) = some s') :
    NextCase m s i inp s'
  | bootAps {c} (hpc : s.pc i = .bootAps c) : NextCase m s i inp (s.goto i (.bootAps (c + 1)))
  | bootApsEnd {c} (hpc : s.pc i = .bootAps c) : NextCase m s i inp (s.goto i .envCreates)
  | startap {c} (hpc : s.pc i = .bootAps c) (hc : c ≠ i) (hoff : s.pc c = .off) :
    NextCase m s i inp ((s.goto c .mpMain).goto i (.bootApsWait c))
  | bootApsWait {c} (hpc : s.pc i = .bootApsWait c) : NextCase m s i inp (s.goto i (.bootAps (c + 1)))
  | envCreates {k} (hpc : s.pc i = .envCreates) (h : Kern.envCreates m s.kern inp.binaries = some k) :
    NextCase m s i inp ((s.setKern k).goto i .schedYield)
  | mpMain (hpc : s.pc i = .mpMain) : NextCase m s i inp ((s.setStatus i .started).goto i .mpMainLock)
  | mpMainLock {s'} (hpc : s.pc i = .mpMainLock) (h : s.lockKernel i .schedYield = some s') :
    NextCase m s i inp s'
  | schedYield {e} (hpc : s.pc i = .schedYield) (h : Kern.schedYield s.kern (s.curenv i) = some e) :
    NextCase m s i inp (s.goto i (.envRun e))
  | schedNone (hpc : s.pc i = .schedYield) (h : Kern.schedYield s.kern (s.curenv i) = none) :
    NextCase m s i inp (s.goto i .schedHalt)
  | schedHalt (hpc : s.pc i = .schedHalt) (h : hasEnvs s.kern) :
    NextCase m s i inp (((s.setCurenv i none).setStatus i .halted).goto i .schedHaltUnlock)
  | noEnvs (hpc : s.pc i = .schedHalt) : NextCase m s i inp (s.goto i .monitor)
  | schedHaltUnlock {s'} (hpc : s.pc i = .schedHaltUnlock) (h : s.unlockKernel i .halted = some s') :
    NextCase m s i inp s'
  | halted (hpc : s.pc i = .halted) (h : inp.tf.tfCs = GD_KT) :
    NextCase m s i inp (s.goto i (.trap inp.tf))
  | envRun {e k} (hpc : s.pc i = .envRun e) (h : Kern.envRun s.kern (s.curenv i) e i = some k) :
    NextCase m s i inp (((s.setKern k).setCurenv i (some e)).goto i .envRunUnlock)
  | envRunUnlock {s'} (hpc : s.pc i = .envRunUnlock) (h : s.unlockKernel i .user = some s') :
    NextCase m s i inp s'
  | user (hpc : s.pc i = .user) (h : fromUser inp.tf) : NextCase m s i inp (s.goto i (.trap inp.tf))
  | trapHalted {tf} (hpc : s.pc i = .trap tf) (h : (s.cpus i).cpuStatus = .halted) :
    NextCase m s i inp ((s.setStatus i .started).goto i (.trapHalted tf))
  | trapStarted {tf} (hpc : s.pc i = .trap tf) (h : (s.cpus i).cpuStatus ≠ .halted) :
    NextCase m s i inp ((s.setStatus i .started).goto i (.trapMode tf))
  | haltedLock {s' tf} (hpc : s.pc i = .trapHalted tf)
    (h : s.lockKernel i (.trapMode tf) = some s') : NextCase m s i inp s'
  | userMode {tf} (hpc : s.pc i = .trapMode tf) (h : fromUser tf) :
    NextCase m s i inp (s.goto i (.trapUser tf))
  | kernelMode {tf} (hpc : s.pc i = .trapMode tf) (h : fromUser tf = false) :
    NextCase m s i inp (s.goto i (.trapDispatch tf))
  | userLock {s' tf} (hpc : s.pc i = .trapUser tf) (h : s.lockKernel i (.trapZombie tf) = some s') :
    NextCase m s i inp s'
  | zombie {tf c k} (hpc : s.pc i = .trapZombie tf) (hc : s.curenv i = some c)
    (hd : s.kern.status c = .dying) (h : Kern.envFree m s.kern c = some k) :
    NextCase m s i inp (((s.setKern k).setCurenv i none).goto i .schedYield)
  | saveTf {tf c} (hpc : s.pc i = .trapZombie tf) (hc : s.curenv i = some c)
    (hd : s.kern.status c ≠ .dying) :
    NextCase m s i inp ((s.setKern (s.kern.saveTf c tf)).goto i (.trapDispatch tf))
  | breakpoint {tf} (hpc : s.pc i = .trapDispatch tf) : NextCase m s i inp (s.goto i .monitor)
  | dispatch {tf c x} (hpc : s.pc i = .trapDispatch tf) (hu : fromUser tf) (hc : s.curenv i = some c)
    (h : Kern.trapDispatch m s.kern c inp.getc tf = some x) : NextCase m s i inp (s.resume i c x)
  | spurious {tf} (hpc : s.pc i = .trapDispatch tf) (hu : fromUser tf = false) :
    NextCase m s i inp (s.goto i .trapRet)
  | timer {tf} (hpc : s.pc i = .trapDispatch tf) (hu : fromUser tf = false) :
    NextCase m s i inp (s.goto i .schedYield)
  | resume {c} (hpc : s.pc i = .trapRet) (hc : s.curenv i = some c) (hr : s.kern.status c = .running) :
    NextCase m s i inp (s.goto i (.envRun c))
  | yield (hpc : s.pc i = .trapRet) (h : (s.curenv i).filter (s.kern.status · = .running) = none) :
    NextCase m s i inp (s.goto i .schedYield)

theorem next_cases {m : Machine} {s s' : Smp} {i : Nat} {inp : Input} (h : s.next m i inp = some s') :
    NextCase m s i inp s' := by
  cases hpc : s.pc i <;> simp only [Smp.next, hpc] at h
  case off | monitor => cases h
  case i386Init        => exact .i386Init hpc h
  case bootAps c =>
    split_ifs at h with _ hc
    · cases h; exact .bootApsEnd hpc
    · cases h; exact .bootAps hpc
    · split at h
      case h_1 hoff => cases h; exact .startap hpc hc hoff
      case h_2      => cases h
  case bootApsWait =>
    split at h
    case isTrue  => cases h; exact .bootApsWait hpc
    case isFalse => cases h
  case envCreates =>
    obtain ⟨k, hk, h⟩ := Option.bind_eq_some_iff.mp h
    cases h
    exact .envCreates hpc hk
  case mpMain          => cases h; exact .mpMain hpc
  case mpMainLock      => exact .mpMainLock hpc h
  case schedYield =>
    split at h
    case h_1 hs => cases h; exact .schedYield hpc hs
    case h_2 hs => cases h; exact .schedNone hpc hs
  case schedHalt =>
    split at h
    case isTrue hs => cases h; exact .schedHalt hpc hs
    case isFalse   => cases h; exact .noEnvs hpc
  case schedHaltUnlock => exact .schedHaltUnlock hpc h
  case halted =>
    split at h
    case isTrue hs => cases h; exact .halted hpc hs
    case isFalse   => cases h
  case envRun =>
    obtain ⟨k, hk, h⟩ := Option.bind_eq_some_iff.mp h
    cases h
    exact .envRun hpc hk
  case envRunUnlock    => exact .envRunUnlock hpc h
  case user =>
    split at h
    case isTrue hs => cases h; exact .user hpc hs
    case isFalse   => cases h
  case trap =>
    split at h
    case isTrue hs  => cases h; exact .trapHalted hpc hs
    case isFalse hs => cases h; exact .trapStarted hpc hs
  case trapHalted      => exact .haltedLock hpc h
  case trapMode =>
    split at h
    case isTrue hs  => cases h; exact .userMode hpc hs
    case isFalse hs => cases h; exact .kernelMode hpc (by simpa using hs)
  case trapUser        => exact .userLock hpc h
  case trapZombie =>
    obtain ⟨c, hc, h⟩ := Option.bind_eq_some_iff.mp h
    split at h
    case isTrue hd =>
      obtain ⟨k, hk, h⟩ := Option.bind_eq_some_iff.mp h
      cases h
      exact .zombie hpc hc hd hk
    case isFalse hd => cases h; exact .saveTf hpc hc hd
  case trapDispatch tf =>
    split at h
    case isTrue hu =>
      obtain ⟨c, hc, h⟩ := Option.bind_eq_some_iff.mp h
      split at h
      case isTrue => cases h; exact .breakpoint hpc
      case isFalse =>
        obtain ⟨x, hx, h⟩ := Option.bind_eq_some_iff.mp h
        cases h
        exact .dispatch hpc hu hc hx
    case isFalse hu =>
      have hu : fromUser tf = false := by simpa using hu
      split_ifs at h
      · cases h; exact .spurious hpc hu
      · cases h; exact .timer hpc hu
  case trapRet =>
    split at h
    case h_1 c hc =>
      obtain ⟨hc, hr⟩ := Option.filter_eq_some_iff.mp hc
      cases h
      exact .resume hpc hc (of_decide_eq_true hr)
    case h_2 hc => cases h; exact .yield hpc hc

-- The state in which CPU `b` enters `i386_init`, after `mem_init` and the functions that follow it.
def Smp.boot (k : State) (b : Nat) : Smp where
  kern   := k
  lock   := ⟨false, none⟩
  cpus i := ⟨if i = b then .started else .unused, none⟩
  pc i   := if i = b then .i386Init else .off

-- A step of some CPU, with what it takes from outside.
def SmpStep (m : Machine) (s : Smp) (ev : Nat × Input) (s' : Smp) : Prop :=
  ev.1 < m.ncpu ∧ s.next m ev.1 ev.2 = some s'

-- The states that the machine reaches by steps that all meet `guard`.
def SmpReachable (m : Machine) (guard : Smp → Nat × Input → Prop) (s : Smp) : Prop :=
  ∃ k b, Boot m k ∧ b < m.ncpu ∧ Library.Run (SmpStep m) guard (.boot k b) s

end Kern

import Sisop.Kern.Init
import Sisop.Kern.Smp

-- kern/mpentry.S, and the parts of kern/init.c and kern/lapic.c that start the other CPUs.

namespace Kern

open Inc Function

-- The interrupts with which `lapic_startap` starts a CPU.
inductive Ipi
  | init
  | startup
  deriving DecidableEq

-- The boot CPU in `boot_aps`: at the head of the loop, after that with the interrupts that
-- `lapic_startap` has not sent yet, and after the loop. Without interrupts it waits for `CPU_STARTED`.
inductive BspPc
  | bootAps (c : Nat)
  | startap (c : Nat) (l : List Ipi)
  | done
  deriving DecidableEq

-- Another CPU. After `INIT` it waits for `STARTUP`.
inductive ApPc
  | off
  | waitSipi
  -- mpentry.S before it loads `mpentry_kstack`, and `mp_main` up to the call of `mmio_map_region`.
  | mpentry
  | mpMain
  -- `mmio_map_region` behind the test of `base`, and before and after `base_i` is set.
  | mmioMap
  | mmioBase
  | mmioNext (base : Word)
  -- `lapic_init` with the address for `lapic`, and `mp_main` up to its end.
  | lapicInit (base : Word)
  | percpu
  | lockKernel
  deriving DecidableEq

-- `base` is the static variable of `mmio_map_region`. An interrupt that was sent to a CPU waits in `ipis`
-- until the CPU takes it.
structure Mp where
  kern : State
  base : Word
  lapic : Word
  mpentryKstack : Word
  cpus : Nat → CpuInfo
  bsp : BspPc
  ap : Nat → ApPc
  esp : Nat → Word
  ipis : Nat → List Ipi

-- Which CPU takes a step, or takes an interrupt.
inductive MpEvent
  | bsp
  | ap (c : Nat)
  | deliver (c : Nat)

-- `percpu_kstacks[c] + KSTKSIZE`
def Machine.kstacktop (m : Machine) (c : Nat) : Word :=
  KERNBASE + m.percpuKstacks c + BitVec.ofNat 32 KSTKSIZE

namespace Mp

variable (m : Machine) (s : Mp) (c : Nat)

def goto (pc : ApPc) : Mp := { s with ap := update s.ap c pc }

-- One iteration of the loop in `boot_aps`, with `cpunum() = b`.
def bootAps (b : Nat) : Option Mp :=
  match s.bsp with
  | .bootAps c =>
    if m.ncpu ≤ c then some { s with bsp := .done }
    else if c = b then some { s with bsp := .bootAps (c + 1) }
    else some { s with mpentryKstack := m.kstacktop c, bsp := .startap c [.init, .startup, .startup] }
  | .startap c (x :: l) =>
    some { s with ipis := update s.ipis c (s.ipis c ++ [x]), bsp := .startap c l }
  | .startap c [] =>
    if (s.cpus c).cpuStatus = .started then some { s with bsp := .bootAps (c + 1) } else none
  | .done => none

-- A CPU takes `STARTUP` only after `INIT`, which resets it.
def deliver : Option Mp :=
  match s.ipis c with
  | []            => none
  | .init :: l    => some ({ s with ipis := update s.ipis c l }.goto c .waitSipi)
  | .startup :: l =>
    if s.ap c = .waitSipi then some ({ s with ipis := update s.ipis c l }.goto c .mpentry)
    else some { s with ipis := update s.ipis c l }

-- A step of a CPU that has been started; it gets no further than `lock_kernel`, whose lock the boot CPU
-- holds.
def apNext : Option Mp :=
  match s.ap c with
  | .off | .waitSipi => none
  | .mpentry     => some ({ s with esp := update s.esp c s.mpentryKstack }.goto c .mpMain)
  | .mpMain      =>
    if m.lapicaddr = 0#32 then some (s.goto c .percpu)
    else if MMIOLIM ≤ s.base + ROUNDUP 4096#32 4096#32 then none
    else some (s.goto c .mmioMap)
  | .mmioMap     => do
    let k ← bootMapRegion m s.kern m.kernPgdir s.base (ROUNDUP 4096#32 4096#32) m.lapicaddr
      (PTE_PCD ||| PTE_PWT ||| PTE_W)
    some ({ s with kern := k }.goto c .mmioBase)
  | .mmioBase    => some (s.goto c (.mmioNext s.base))
  | .mmioNext v  => some ({ s with base := s.base + ROUNDUP 4096#32 4096#32 }.goto c (.lapicInit v))
  | .lapicInit v => some ({ s with lapic := v }.goto c .percpu)
  | .percpu      =>
    some ({ s with cpus := update s.cpus c { s.cpus c with cpuStatus := .started } }.goto c .lockKernel)
  | .lockKernel  => none

def next (b : Nat) : MpEvent → Option Mp
  | .bsp       => s.bootAps m b
  | .ap c      => s.apNext m c
  | .deliver c => s.deliver c

-- `lapic_init` by itself, with the new values of `base` and of `lapic`.
def lapicInit (k : State) (base lapic : Word) : Option (State × Word × Word) :=
  if m.lapicaddr = 0#32 then some (k, base, lapic)
  else do
    let (base', k) ← mmioMapRegion m k base m.lapicaddr 4096#32
    some (k, base', base)

-- The state in which CPU `b` calls `boot_aps`, after its own `lapic_init`.
def start (k : State) (base lapic : Word) (b : Nat) : Mp where
  kern          := k
  base          := base
  lapic         := lapic
  mpentryKstack := 0#32
  cpus i        := ⟨if i = b then .started else .unused, none⟩
  bsp           := .bootAps 0
  ap _          := .off
  esp _         := 0#32
  ipis _        := []

end Mp

def MpStep (m : Machine) (b : Nat) (s : Mp) (ev : MpEvent) (s' : Mp) : Prop := s.next m b ev = some s'

end Kern

import Sisop.Kern.Syscall

-- kern/trap.c

namespace Kern

open Inc

variable (m : Machine)

def sizeofUTrapframe : Nat := 52

-- Whether a store by the kernel to the user address `va` succeeds: the page must be present and,
-- because of `CR0_WP`, writable.
def kernelCanWrite (s : State) (pgdir : Nat) (va : Word) : Bool :=
  let pde := s.mem pgdir (PDX va)
  let pte := s.mem (PGNUM pde) (PTX va)
  present pde && pde &&& PTE_W != 0#32 && present pte && pte &&& PTE_W != 0#32

-- The address at which `page_fault_handler` puts the `UTrapframe`, and whether this is a
-- recursive fault.
def utrapframeAddr (esp : Word) : Word × Bool :=
  if UXSTACKTOP - 4096#32 ≤ esp ∧ esp < UXSTACKTOP then
    (esp - 4#32 - BitVec.ofNat 32 sizeofUTrapframe, true)
  else (UXSTACKTOP - BitVec.ofNat 32 sizeofUTrapframe, false)

-- Faults in user mode. In the recursive case the scratch word is written before the check, and the
-- kernel panics if that store faults. What is stored on the user exception stack is not kept.
def pageFaultHandler (s : State) (curenv : EnvPtr) (tf : Trapframe) : Option Exit :=
  let upcall := (s.envs curenv).envPgfaultUpcall
  if upcall = 0#32 then envDestroy m s curenv curenv
  else do
    let pgdir ← s.pgdir curenv
    let (u, recursive) := utrapframeAddr tf.tfEsp
    let scratch := kernelCanWrite s pgdir (tf.tfEsp - 4#32) && kernelCanWrite s pgdir (tf.tfEsp - 1#32)
    if recursive && !scratch then none
    else
      match ← userMemAssert m s curenv u (BitVec.ofNat 32 sizeofUTrapframe) (PTE_W ||| PTE_U) with
      | some x => some x
      | none   =>
        let env := s.envs curenv
        some <| .run <| s.setEnv curenv
          { env with envTf := { env.envTf with tfEip := upcall, tfEsp := u } }

-- `curenv->env_tf = *tf`
def State.saveTf (s : State) (c : EnvPtr) (tf : Trapframe) : State :=
  s.setEnv c { s.envs c with envTf := tf }

-- The result of a system call goes into `curenv->env_tf`.
def Exit.setEax (c : EnvPtr) : Exit → Exit
  | ret v s => ret v (s.setEnv c { s.envs c with envTf := (s.envs c).envTf.setEax v })
  | x       => x

-- A trap from user mode; traps of a halted CPU are in `Smp`.
def trapDispatch (s : State) (curenv : EnvPtr) (getc : Word) (tf : Trapframe) : Option Exit :=
  if tf.tfTrapno = T_PGFLT then pageFaultHandler m s curenv tf
  else if tf.tfTrapno = T_BRKPT then none
  else if tf.tfTrapno = T_SYSCALL then do
    let r := tf.tfRegs
    let x ← syscall m s curenv getc r.regEax r.regEdx r.regEcx r.regEbx r.regEdi r.regEsi
    some (x.setEax curenv)
  else if tf.tfTrapno = IRQ_OFFSET + IRQ_SPURIOUS then some (.ret 0#32 s)
  else if tf.tfTrapno = IRQ_OFFSET + IRQ_TIMER then some (.sched (some curenv) s)
  else envDestroy m s curenv curenv

-- `trap`, entered from user mode by the environment `curenv`, up to its final choice between
-- `env_run` and `sched_yield`.
def trapUser (s : State) (curenv : EnvPtr) (getc : Word) (tf : Trapframe) : Option Exit :=
  if s.status curenv = .dying then do
    let s ← envFree m s curenv
    some (.sched none s)
  else
    trapDispatch m (s.saveTf curenv tf) curenv getc tf

end Kern

import Sisop.Kern.Pmap

-- kern/env.c

namespace Kern

open Inc

-- How a kernel function that may not return to its caller is left.
inductive Exit
  -- It returned `r`.
  | ret (r : Word) (s : State)
  -- It entered `sched_yield`, with the given value of `curenv`.
  | sched (curenv : Option EnvPtr) (s : State)
  -- It resumed `curenv` by `env_run`.
  | run (s : State)

def Exit.state : Exit → State
  | ret _ s | sched _ s | run s => s

variable (m : Machine)

-- `kern_pgdir` is the first page that `boot_alloc` hands out.
def Machine.kernPgdir : Nat := m.kernelEnd

def envid2env (s : State) (curenv : EnvPtr) (envid : Word) (checkperm : Bool) :
    Except Word EnvPtr :=
  if envid = 0#32 then .ok curenv
  else
    let e := ENVX envid
    if s.status e = .free ∨ (s.envs e).envId ≠ envid then .error (err E_BAD_ENV)
    else if checkperm ∧ e ≠ curenv ∧ (s.envs e).envParentId ≠ (s.envs curenv).envId then
      .error (err E_BAD_ENV)
    else .ok e

-- The page directory that `env_setup_vm` builds in page `p` from the template `kern_pgdir`.
def envPgdirOf (template : Nat → Word) (p : Nat) : Nat → Word :=
  Function.update template (PDX UVPT) (page2pa p ||| PTE_P ||| PTE_U)

def envSetupVm (s : State) (e : EnvPtr) : Word × State :=
  match pageAlloc s 1#32 with
  | (none, s)   => (err E_NO_MEM, s)
  | (some p, s) =>
    let s := incRef s p
    let s := s.setEnv e { s.envs e with envPgdir := some p }
    (0#32, s.fill p (envPgdirOf (s.mem m.kernPgdir) p))

-- The environment id for slot `e` when its last id was `envId`.
def generateEnvId (envId : Word) (e : EnvPtr) : Word :=
  let generation := (envId + 0x1000#32) &&& ~~~0x3FF#32
  let generation := if generation.sle 0#32 then 0x1000#32 else generation
  generation ||| BitVec.ofNat 32 e

def initialTrapframe : Trapframe :=
  { Trapframe.zero with
    tfDs := GD_UD ||| 3#16
    tfEs := GD_UD ||| 3#16
    tfSs := GD_UD ||| 3#16
    tfEsp := USTACKTOP
    tfCs := GD_UT ||| 3#16
    tfEflags := FL_IF }

def envAlloc (s : State) (parentId : Word) : Except Word EnvPtr × State :=
  match s.envFreeList with
  | none   => (.error (err E_NO_FREE_ENV), s)
  | some e =>
    let (r, s) := envSetupVm m s e
    if negative r then (.error r, s)
    else
      let env := s.envs e
      let s := s.setEnv e { env with
        envId := generateEnvId env.envId e
        envParentId := parentId
        envType := .user
        envStatus := .runnable
        envRuns := 0#32
        envTf := initialTrapframe
        envPgfaultUpcall := 0#32
        envIpcRecving := false }
      (.ok e, s.setEnvFreeList env.envLink)

-- One iteration of the loop in `region_alloc`.
def regionAllocPage (s : State) (pgdir : Nat) (va : Word) : Option State :=
  match pageAlloc s 0#32 with
  | (none, _)   => none
  | (some p, s) => do
    let (r, s) ← pageInsert m s pgdir p va (PTE_W ||| PTE_U)
    if r ≠ 0#32 then none else some s

def regionAlloc (s : State) (pgdir : Nat) (va len : Word) : Option State :=
  let inicio := ROUNDDOWN va 4096#32
  let fin := ROUNDUP (va + len) 4096#32
  if UTOP < fin then none
  else (List.range ((fin.toNat - inicio.toNat) / PGSIZE)).foldlM
    (fun s i => regionAllocPage m s pgdir (inicio + BitVec.ofNat 32 (i * PGSIZE))) s

structure Proghdr where
  pType : Word
  pVa : Word
  pFilesz : Word
  pMemsz : Word

structure Elf where
  eMagic : Word
  eEntry : Word
  proghdrs : List Proghdr

def ELF_MAGIC : Word := 0x464C457F#32
def ELF_PROG_LOAD : Word := 1#32

-- Only the mappings of the segments are kept, not the bytes copied into them.
def loadIcode (s : State) (e : EnvPtr) (binary : Elf) : Option State := do
  if binary.eMagic ≠ ELF_MAGIC then none
  else
    let pgdir ← s.pgdir e
    let s ← binary.proghdrs.foldlM (fun s ph =>
      if ph.pType ≠ ELF_PROG_LOAD then some s
      else if ph.pMemsz < ph.pFilesz then none
      else regionAlloc m s pgdir ph.pVa ph.pMemsz) s
    let env := s.envs e
    let s := s.setEnv e { env with envTf := { env.envTf with tfEip := binary.eEntry } }
    regionAlloc m s pgdir (USTACKTOP - 4096#32) 4096#32

def envCreate (s : State) (binary : Elf) (type : EnvType) : Option State := do
  let (r, s) := envAlloc m s 0#32
  match r with
  | .error _ => none
  | .ok e    =>
    let s ← loadIcode m s e binary
    let env := s.envs e
    let tf := if type = .fs then { env.envTf with tfEflags := env.envTf.tfEflags ||| FL_IOPL_MASK }
      else env.envTf
    some (s.setEnv e { env with envType := type, envTf := tf })

-- Unmaps the entries of the page table `pt`.
def envFreeTable (s : State) (pgdir pt pdeno : Nat) : Option State :=
  (List.range NPDENTRIES).foldlM (fun s pteno =>
    if present (s.mem pt pteno) then pageRemove m s pgdir (PGADDR pdeno pteno 0#32)
    else some s) s

def envFreePde (s : State) (pgdir pdeno : Nat) : Option State :=
  let pde := s.mem pgdir pdeno
  if !present pde then some s
  else do
    let pt ← kaddr m (PGNUM pde) 0
    let s ← envFreeTable m s pgdir pt.1 pdeno
    let s := s.store pgdir pdeno 0#32
    let p ← pa2page m (PTE_ADDR pde)
    pageDecref s p

-- A null `env_pgdir` makes the kernel fault, which is a panic.
def envFree (s : State) (e : EnvPtr) : Option State := do
  let pgdir ← s.pgdir e
  let s ← (List.range (PDX UTOP)).foldlM (fun s pdeno => envFreePde m s pgdir pdeno) s
  let s := s.setEnv e { s.envs e with envPgdir := none }
  let s ← pageDecref s pgdir
  let s := s.setEnv e { s.envs e with envStatus := .free, envLink := s.envFreeList }
  some (s.setEnvFreeList (some e))

-- Returns 0 to the caller unless it destroys `curenv`.
def envDestroy (s : State) (curenv e : EnvPtr) : Option Exit :=
  if s.status e = .running ∧ curenv ≠ e then
    some (.ret 0#32 (s.setEnv e { s.envs e with envStatus := .dying }))
  else do
    let s ← envFree m s e
    some (if curenv = e then .sched none s else .ret 0#32 s)

-- The first step of `env_run`: the environment that ran so far becomes runnable.
def preempt (s : State) (curenv : Option EnvPtr) : State :=
  match curenv with
  | some c => if s.status c = .running then s.setEnv c { s.envs c with envStatus := .runnable } else s
  | none   => s

-- The part of `env_run` that changes environments; `none` if `PADDR(env_pgdir)` panics. It is
-- followed by `env_pop_tf` on CPU number `cpunum`.
def envRun (s : State) (curenv : Option EnvPtr) (e : EnvPtr) (cpunum : Nat) : Option State :=
  let s := preempt s curenv
  let env := s.envs e
  if env.envPgdir = none then none
  else some <| s.setEnv e { env with
    envStatus := .running, envRuns := env.envRuns + 1#32, envCpunum := cpunum }

end Kern

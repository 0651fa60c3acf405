import Sisop.Kern.Env

-- kern/syscall.c

namespace Kern

open Inc

variable (m : Machine)

-- `(uint32_t) va >= UTOP || PGOFF(va) != 0`
def badVa (va : Word) : Bool := !(va < UTOP) || PGOFF va != 0#32

-- `(perm & (PTE_U | PTE_P)) != (PTE_U | PTE_P) || (perm & ~(PTE_SYSCALL)) != 0`
def badPerm (perm : Word) : Bool :=
  perm &&& (PTE_U ||| PTE_P) != PTE_U ||| PTE_P || perm &&& ~~~PTE_SYSCALL != 0#32

-- `(*pte & PTE_W) == 0 && (perm & PTE_W) == PTE_W`
def badWrite (pte perm : Word) : Bool :=
  pte &&& PTE_W == 0#32 && perm &&& PTE_W == PTE_W

-- `user_mem_assert`: `none` in the result means that the check passed, otherwise the current
-- environment is destroyed.
def userMemAssert (s : State) (curenv : EnvPtr) (va len perm : Word) : Option (Option Exit) := do
  let pgdir ← s.pgdir curenv
  match ← userMemCheck m s pgdir va len (perm ||| PTE_U) with
  | none   => some none
  | some _ => do
    let x ← envDestroy m s curenv curenv
    some (some x)

def sysCgetc (s : State) (getc : Word) : Exit := .ret getc s

-- `sys_cputs` itself has no result; the case of `SYS_cputs` has no `return` or `break` and goes on
-- with the case of `SYS_cgetc`.
def sysCputs (s : State) (curenv : EnvPtr) (va len getc : Word) : Option Exit := do
  match ← userMemAssert m s curenv va len PTE_U with
  | some x => some x
  | none   => some (sysCgetc s getc)

def sysGetenvid (s : State) (curenv : EnvPtr) : Exit := .ret (s.envs curenv).envId s

def sysEnvDestroy (s : State) (curenv : EnvPtr) (envid : Word) : Option Exit :=
  match envid2env s curenv envid true with
  | .error r => some (.ret r s)
  | .ok e    => envDestroy m s curenv e

def sysYield (s : State) (curenv : EnvPtr) : Exit := .sched (some curenv) s

def sysExofork (s : State) (curenv : EnvPtr) : Exit :=
  match envAlloc m s (s.envs curenv).envId with
  | (.error r, s) => .ret r s
  | (.ok e, s)    =>
    let tf := (s.envs curenv).envTf
    let s := s.setEnv e { s.envs e with envStatus := .notRunnable, envTf := tf.setEax 0#32 }
    .ret (s.envs e).envId s

-- The states that `sys_env_set_status` accepts.
def settableStatus (status : Word) : Option EnvStatus :=
  if status = ENV_RUNNABLE then some .runnable
  else if status = ENV_NOT_RUNNABLE then some .notRunnable
  else none

def sysEnvSetStatus (s : State) (curenv : EnvPtr) (envid status : Word) : Exit :=
  match settableStatus status with
  | none    => .ret (err E_INVAL) s
  | some st =>
    match envid2env s curenv envid true with
    | .error r => .ret r s
    | .ok e    => .ret 0#32 (s.setEnv e { s.envs e with envStatus := st })

def sysEnvSetPgfaultUpcall (s : State) (curenv : EnvPtr) (envid func : Word) : Exit :=
  match envid2env s curenv envid true with
  | .error _ => .ret (err E_BAD_ENV) s
  | .ok e    => .ret 0#32 (s.setEnv e { s.envs e with envPgfaultUpcall := func })

def sysPageAlloc (s : State) (curenv : EnvPtr) (envid va perm : Word) : Option Exit :=
  if badVa va then some (.ret (err E_INVAL) s)
  else if badPerm perm then some (.ret (err E_INVAL) s)
  else
    match envid2env s curenv envid true with
    | .error r => some (.ret r s)
    | .ok e    =>
      match pageAlloc s perm with
      | (none, s)   => some (.ret (err E_NO_MEM) s)
      | (some p, s) => do
        let pgdir ← s.pgdir e
        let (r, s) ← pageInsert m s pgdir p va perm
        if r ≠ 0#32 then
          let s ← pageFree s p
          some (.ret (err E_NO_MEM) s)
        else some (.ret 0#32 s)

-- The checks of `sys_page_map` that lead to its `page_insert`: the destination environment and the
-- page found at the source, with its slot.
def sysPageMapChecks (s : State) (curenv : EnvPtr) (srcenvid srcva dstenvid dstva perm : Word) :
    Option (Except Word (EnvPtr × Nat × Slot)) :=
  if badVa srcva then some (.error (err E_INVAL))
  else if badVa dstva then some (.error (err E_INVAL))
  else if badPerm perm then some (.error (err E_INVAL))
  else
    match envid2env s curenv srcenvid true with
    | .error r => some (.error r)
    | .ok src  =>
      match envid2env s curenv dstenvid true with
      | .error r => some (.error r)
      | .ok dst  => do
        let pgdir ← s.pgdir src
        match ← pageLookup m s pgdir srcva with
        | none           => some (.error (err E_INVAL))
        | some (p, slot) =>
          if badWrite (s.pte slot) perm then some (.error (err E_INVAL))
          else some (.ok (dst, p, slot))

def sysPageMap (s : State) (curenv : EnvPtr) (srcenvid srcva dstenvid dstva perm : Word) :
    Option Exit := do
  match ← sysPageMapChecks m s curenv srcenvid srcva dstenvid dstva perm with
  | .error r       => some (.ret r s)
  | .ok (dst, p, _) =>
    let pgdir ← s.pgdir dst
    let (r, s) ← pageInsert m s pgdir p dstva perm
    some (.ret r s)

def sysPageUnmap (s : State) (curenv : EnvPtr) (envid va : Word) : Option Exit :=
  if badVa va then some (.ret (err E_INVAL) s)
  else
    match envid2env s curenv envid true with
    | .error r => some (.ret r s)
    | .ok e    => do
      let pgdir ← s.pgdir e
      let s ← pageRemove m s pgdir va
      some (.ret 0#32 s)

-- The checks of `sys_ipc_try_send` on the page it sends, if `srcva < UTOP`: that page, and its slot.
def sysIpcTrySendChecks (s : State) (curenv : EnvPtr) (srcva perm : Word) :
    Option (Except Word (Nat × Slot)) :=
  if PGOFF srcva != 0#32 then some (.error (err E_INVAL))
  else if badPerm perm then some (.error (err E_INVAL))
  else do
    let pgdir ← s.pgdir curenv
    match ← pageLookup m s pgdir srcva with
    | none           => some (.error (err E_INVAL))
    | some (p, slot) =>
      if badWrite (s.pte slot) perm then some (.error (err E_INVAL))
      else some (.ok (p, slot))

-- The fields that a successful `sys_ipc_try_send` leaves in the receiver.
def deliver (receiver sender : Env) (value perm : Word) : Env :=
  { receiver with
    envIpcPerm := perm
    envIpcRecving := false
    envIpcFrom := sender.envId
    envIpcValue := value
    envStatus := .runnable }

def sysIpcTrySend (s : State) (curenv : EnvPtr) (envid value srcva perm : Word) : Option Exit :=
  match envid2env s curenv envid false with
  | .error r => some (.ret r s)
  | .ok e    =>
    if !(s.envs e).envIpcRecving then some (.ret (err E_IPC_NOT_RECV) s)
    else if srcva < UTOP then do
      match ← sysIpcTrySendChecks m s curenv srcva perm with
      | .error r   => some (.ret r s)
      | .ok (p, _) =>
        let pgdir ← s.pgdir e
        let (r, s) ← pageInsert m s pgdir p (s.envs e).envIpcDstva perm
        if r ≠ 0#32 then some (.ret r s)
        else some (.ret 0#32 (s.setEnv e (deliver (s.envs e) (s.envs curenv) value perm)))
    else some (.ret 0#32 (s.setEnv e (deliver (s.envs e) (s.envs curenv) value 0#32)))

def sysIpcRecv (s : State) (curenv : EnvPtr) (dstva : Word) : Exit :=
  if dstva < UTOP ∧ PGOFF dstva ≠ 0#32 then .ret (err E_INVAL) s
  else
    let env := s.envs curenv
    let s := s.setEnv curenv { env with
      envIpcRecving := true
      envIpcDstva := dstva
      envStatus := .notRunnable
      envTf := env.envTf.setEax 0#32 }
    sysYield s curenv

-- `syscall`, with the five arguments in `a`. `getc` is what `cons_getc` returns if it is called.
def syscall (s : State) (curenv : EnvPtr) (getc no a1 a2 a3 a4 a5 : Word) : Option Exit :=
  if no = SYS_cputs then sysCputs m s curenv a1 a2 getc
  else if no = SYS_cgetc then some (sysCgetc s getc)
  else if no = SYS_getenvid then some (sysGetenvid s curenv)
  else if no = SYS_env_destroy then sysEnvDestroy m s curenv a1
  else if no = SYS_yield then some (sysYield s curenv)
  else if no = SYS_exofork then some (sysExofork m s curenv)
  else if no = SYS_env_set_status then some (sysEnvSetStatus s curenv a1 a2)
  else if no = SYS_page_alloc then sysPageAlloc m s curenv a1 a2 a3
  else if no = SYS_page_map then sysPageMap m s curenv a1 a2 a3 a4 a5
  else if no = SYS_page_unmap then sysPageUnmap m s curenv a1 a2
  else if no = SYS_ipc_recv then some (sysIpcRecv s curenv a1)
  else if no = SYS_ipc_try_send then sysIpcTrySend m s curenv a1 a2 a3 a4
  else if no = SYS_env_set_pgfault_upcall then some (sysEnvSetPgfaultUpcall s curenv a1 a2)
  else some (.ret (err E_INVAL) s)

end Kern

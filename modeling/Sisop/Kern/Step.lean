import Sisop.Kern.Init
import Sisop.Library.Run

namespace Kern

open Inc

-- The page table entry that the hardware finds for `va` in the address space of `e`; `none` where
-- there is no page table.
def State.lookup (s : State) (e : EnvPtr) (va : Word) : Option Word :=
  (s.pgdir e).bind fun pd => (entryPage (s.mem pd (PDX va))).map fun pt => s.mem pt (PTX va)

-- The calls that `syscall` can end up in.
inductive SyscallCase (m : Machine) (s : State) (c : EnvPtr) (getc no a1 a2 a3 a4 a5 : Word)
    (x : Exit) : Prop
  | cputs (h : no = SYS_cputs) (hx : sysCputs m s c a1 a2 getc = some x)
  | cgetc (h : no = SYS_cgetc) (hx : sysCgetc s getc = x)
  | getenvid (h : no = SYS_getenvid) (hx : sysGetenvid s c = x)
  | envDestroy (h : no = SYS_env_destroy) (hx : sysEnvDestroy m s c a1 = some x)
  | yield (h : no = SYS_yield) (hx : sysYield s c = x)
  | exofork (h : no = SYS_exofork) (hx : sysExofork m s c = x)
  | envSetStatus (h : no = SYS_env_set_status) (hx : sysEnvSetStatus s c a1 a2 = x)
  | pageAlloc (h : no = SYS_page_alloc) (hx : sysPageAlloc m s c a1 a2 a3 = some x)
  | pageMap (h : no = SYS_page_map) (hx : sysPageMap m s c a1 a2 a3 a4 a5 = some x)
  | pageUnmap (h : no = SYS_page_unmap) (hx : sysPageUnmap m s c a1 a2 = some x)
  | ipcRecv (h : no = SYS_ipc_recv) (hx : sysIpcRecv s c a1 = x)
  | ipcTrySend (h : no = SYS_ipc_try_send) (hx : sysIpcTrySend m s c a1 a2 a3 a4 = some x)
  | envSetPgfaultUpcall (h : no = SYS_env_set_pgfault_upcall)
    (hx : sysEnvSetPgfaultUpcall s c a1 a2 = x)
  | invalid (hx : .ret (err E_INVAL) s = x)

theorem syscall_cases {m : Machine} {s : State} {c : EnvPtr} {getc no a1 a2 a3 a4 a5 : Word} {x : Exit}
    (h : syscall m s c getc no a1 a2 a3 a4 a5 = some x) :
    SyscallCase m s c getc no a1 a2 a3 a4 a5 x := by
  rw [syscall] at h
  rcases ite_eq_iff.mp h with ⟨n, hx⟩ | ⟨_, h⟩
  · exact .cputs n hx
  rcases ite_eq_iff.mp h with ⟨n, hx⟩ | ⟨_, h⟩
  · exact .cgetc n (Option.some.inj hx)
  rcases ite_eq_iff.mp h with ⟨n, hx⟩ | ⟨_, h⟩
  · exact .getenvid n (Option.some.inj hx)
  rcases ite_eq_iff.mp h with ⟨n, hx⟩ | ⟨_, h⟩
  · exact .envDestroy n hx
  rcases ite_eq_iff.mp h with ⟨n, hx⟩ | ⟨_, h⟩
  · exact .yield n (Option.some.inj hx)
  rcases ite_eq_iff.mp h with ⟨n, hx⟩ | ⟨_, h⟩
  · exact .exofork n (Option.some.inj hx)
  rcases ite_eq_iff.mp h with ⟨n, hx⟩ | ⟨_, h⟩
  · exact .envSetStatus n (Option.some.inj hx)
  rcases ite_eq_iff.mp h with ⟨n, hx⟩ | ⟨_, h⟩
  · exact .pageAlloc n hx
  rcases ite_eq_iff.mp h with ⟨n, hx⟩ | ⟨_, h⟩
  · exact .pageMap n hx
  rcases ite_eq_iff.mp h with ⟨n, hx⟩ | ⟨_, h⟩
  · exact .pageUnmap n hx
  rcases ite_eq_iff.mp h with ⟨n, hx⟩ | ⟨_, h⟩
  · exact .ipcRecv n (Option.some.inj hx)
  rcases ite_eq_iff.mp h with ⟨n, hx⟩ | ⟨_, h⟩
  · exact .ipcTrySend n hx
  rcases ite_eq_iff.mp h with ⟨n, hx⟩ | ⟨_, h⟩
  · exact .envSetPgfaultUpcall n (Option.some.inj hx)
  exact .invalid (Option.some.inj h)

-- The ways in which `trap` can handle a trap from user mode.
inductive TrapCase (m : Machine) (s : State) (c : EnvPtr) (getc : Word) (tf : Trapframe) (x : Exit) :
    Prop
  | dying {s₁} (hd : s.status c = .dying) (h : envFree m s c = some s₁) (hx : .sched none s₁ = x)
  | fault (hd : s.status c ≠ .dying) (hx : pageFaultHandler m (s.saveTf c tf) c tf = some x)
  | syscall {y} (hd : s.status c ≠ .dying) (hn : tf.tfTrapno = T_SYSCALL)
    (hy : Kern.syscall m (s.saveTf c tf) c getc tf.tfRegs.regEax tf.tfRegs.regEdx tf.tfRegs.regEcx
      tf.tfRegs.regEbx tf.tfRegs.regEdi tf.tfRegs.regEsi = some y) (hx : y.setEax c = x)
  | spurious (hd : s.status c ≠ .dying) (hx : .ret 0#32 (s.saveTf c tf) = x)
  | timer (hd : s.status c ≠ .dying) (hx : .sched (some c) (s.saveTf c tf) = x)
  | other (hd : s.status c ≠ .dying) (hx : envDestroy m (s.saveTf c tf) c c = some x)

theorem trapUser_cases {m : Machine} {s : State} {c : EnvPtr} {getc : Word} {tf : Trapframe} {x : Exit}
    (h : trapUser m s c getc tf = some x) : TrapCase m s c getc tf x := by
  simp only [trapUser] at h
  split at h
  case isTrue hd =>
    simp only [Option.bind_eq_bind, Option.bind_eq_some_iff, Option.some.injEq] at h
    obtain ⟨s₁, h₁, hx⟩ := h
    exact .dying hd h₁ hx
  case isFalse hd =>
    simp only [trapDispatch] at h
    split_ifs at h with _ _ hs
    case pos => exact .fault hd h
    case pos =>
      simp only [Option.bind_eq_bind, Option.bind_eq_some_iff, Option.some.injEq] at h
      obtain ⟨y, hy, hx⟩ := h
      exact .syscall hd hs hy hx
    case pos => exact .spurious hd (Option.some.inj h)
    case pos => exact .timer hd (Option.some.inj h)
    case neg => exact .other hd h

-- What happens to the kernel's data, in any order: a trap of `c` from user mode, with the input that
-- `cons_getc` finds, or the choice of `e` by a CPU, followed by `env_run`.
inductive Event
  | trap (c : EnvPtr) (getc : Word) (tf : Trapframe)
  | run (curenv : Option EnvPtr) (e : EnvPtr) (cpunum : Nat)

inductive Step (m : Machine) : State → Event → State → Prop
  | trap {s c getc tf x} : trapUser m s c getc tf = some x → Step m s (.trap c getc tf) x.state
  | run {s s' cur e n} : envRun s cur e n = some s' → Step m s (.run cur e n) s'

-- `i386_init` creates the first environments.
def envCreates (m : Machine) (s : State) (l : List (Elf × EnvType)) : Option State :=
  l.foldlM (fun s (binary, type) => envCreate m s binary type) s

-- The states that the kernel reaches, from the state `s₀` in which the first environment is created,
-- by steps that all meet `guard`.
def Reachable (m : Machine) (guard : State → Event → Prop) (s₀ s : State) : Prop :=
  Boot m s₀ ∧ ∃ l s₁, envCreates m s₀ l = some s₁ ∧ Library.Run (Step m) guard s₁ s

-- Whether `page_insert` of `p` for `e` at `va` keeps `pp_ref` exact: the counter has room for one more
-- reference, or `p` is already mapped there, or there is no memory for the page table.
def CountFits (s : State) (e : EnvPtr) (p : Nat) (va : Word) : Prop :=
  (s.pages p).ppRef ≠ 0xFFFF#16 ∨ (s.lookup e va).bind entryPage = some p ∨
    (s.lookup e va = none ∧ s.pageFreeList = none)

instance : Decidable (CountFits s e p va) := inferInstanceAs (Decidable (_ ∨ _))

-- The conditions under which the system calls keep the page tables and counters in order.
structure Safe (m : Machine) (s : State) (c : EnvPtr) (no a1 a2 a3 a4 a5 : Word) : Prop where
  -- `page_lookup` finds page 0 where nothing is mapped.
  pageMap   : no = SYS_page_map → ∀ {dst p slot},
    sysPageMapChecks m s c a1 a2 a3 a4 a5 = some (.ok (dst, p, slot)) →
      present (s.pte slot) ∧ CountFits s dst p a4
  -- `page_remove` counts page 0 down where nothing is mapped.
  pageUnmap : no = SYS_page_unmap → ∀ {e}, badVa a2 = false → envid2env s c a1 true = .ok e →
    s.lookup e a2 = some 0#32 → (s.pages 0).ppRef ≠ 1#16
  -- The page of a message is mapped at `env_ipc_dstva`, wherever that is.
  tryIpc    : no = SYS_ipc_try_send → ∀ {e p slot}, envid2env s c a1 false = .ok e →
    (s.envs e).envIpcRecving → a3 < UTOP → sysIpcTrySendChecks m s c a3 a4 = some (.ok (p, slot)) →
      (s.envs e).envIpcDstva < UTOP ∧ present (s.pte slot) ∧ CountFits s e p (s.envs e).envIpcDstva

-- The guard for steps: the arguments of a system call are safe.
def SafeStep (m : Machine) (s : State) : Event → Prop
  | .run ..        => True
  | .trap c _ tf   =>
    tf.tfTrapno = T_SYSCALL → s.status c ≠ .dying →
      let r := tf.tfRegs
      Safe m (s.saveTf c tf) c r.regEax r.regEdx r.regEcx r.regEbx r.regEdi r.regEsi

end Kern

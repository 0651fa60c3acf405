import Sisop.Inc.Mmu

namespace Inc

-- inc/error.h: the code `e` is returned as the `int` `-e`.

def E_BAD_ENV : Nat := 2
def E_INVAL : Nat := 3
def E_NO_MEM : Nat := 4
def E_NO_FREE_ENV : Nat := 5
def E_FAULT : Nat := 6
def E_IPC_NOT_RECV : Nat := 7

def err (e : Nat) : Word := -BitVec.ofNat 32 e

-- The sign of an `int`.
def negative (r : Word) : Bool := r.msb

-- inc/syscall.h

def SYS_cputs : Word := 0#32
def SYS_cgetc : Word := 1#32
def SYS_getenvid : Word := 2#32
def SYS_env_destroy : Word := 3#32
def SYS_page_alloc : Word := 4#32
def SYS_page_map : Word := 5#32
def SYS_page_unmap : Word := 6#32
def SYS_exofork : Word := 7#32
def SYS_env_set_status : Word := 8#32
def SYS_env_set_trapframe : Word := 9#32
def SYS_env_set_pgfault_upcall : Word := 10#32
def SYS_yield : Word := 11#32
def SYS_ipc_try_send : Word := 12#32
def SYS_ipc_recv : Word := 13#32

-- inc/trap.h

def T_BRKPT : Word := 3#32
def T_PGFLT : Word := 14#32
def T_SYSCALL : Word := 48#32
def IRQ_OFFSET : Word := 32#32
def IRQ_TIMER : Word := 0#32
def IRQ_SPURIOUS : Word := 7#32

def GD_KT : BitVec 16 := 0x08#16
def GD_UT : BitVec 16 := 0x18#16
def GD_UD : BitVec 16 := 0x20#16
def FL_IF : Word := 0x200#32
def FL_IOPL_MASK : Word := 0x3000#32

structure PushRegs where
  regEdi : Word
  regEsi : Word
  regEbp : Word
  regOesp : Word
  regEbx : Word
  regEdx : Word
  regEcx : Word
  regEax : Word
  deriving DecidableEq

structure Trapframe where
  tfRegs : PushRegs
  tfEs : BitVec 16
  tfDs : BitVec 16
  tfTrapno : Word
  tfErr : Word
  tfEip : Word
  tfCs : BitVec 16
  tfEflags : Word
  tfEsp : Word
  tfSs : BitVec 16
  deriving DecidableEq

namespace Trapframe

def zero : Trapframe where
  tfRegs := ⟨0, 0, 0, 0, 0, 0, 0, 0⟩
  tfEs := 0
  tfDs := 0
  tfTrapno := 0
  tfErr := 0
  tfEip := 0
  tfCs := 0
  tfEflags := 0
  tfEsp := 0
  tfSs := 0

def setEax (tf : Trapframe) (r : Word) : Trapframe :=
  { tf with tfRegs := { tf.tfRegs with regEax := r } }

end Trapframe

-- inc/env.h

def NENV : Nat := 1024

instance : NeZero NENV := ⟨by decide⟩

-- A pointer into the `envs` array, as its index.
abbrev EnvPtr := Fin NENV

def ENVX (envid : Word) : EnvPtr :=
  ⟨(envid &&& 0x3FF#32).toNat, by
    rw [BitVec.toNat_and, show (0x3FF#32).toNat = 2 ^ 10 - 1 by rfl,
      Nat.and_two_pow_sub_one_eq_mod]
    exact Nat.mod_lt _ (by decide)⟩

theorem ENVX_toNat {w : Word} : (ENVX w).val = w.toNat % 1024 := by
  change (w &&& 0x3FF#32).toNat = _
  rw [BitVec.toNat_and, show (0x3FF#32).toNat = 2 ^ 10 - 1 by rfl, Nat.and_two_pow_sub_one_eq_mod]

-- `x & ~(NENV - 1)`
theorem clear_index {w : Word} : (w &&& ~~~0x3FF#32).toNat = w.toNat / 1024 * 1024 := by
  have hm : ∀ j : Fin 32, (0x3FF#32)[j.val] = decide (j.val < 10) := by decide
  have he : w &&& ~~~0x3FF#32 = (w >>> 10) <<< 10 := by
    ext i hi
    simp only [BitVec.getElem_and, BitVec.getElem_not, BitVec.getElem_shiftLeft, hm ⟨i, hi⟩]
    by_cases h : i < 10
    · simp [h]
    · simp [h, show 10 + (i - 10) = i by omega, BitVec.getLsbD_eq_getElem hi]
  have h := w.isLt
  rw [he]
  simp only [BitVec.toNat_shiftLeft, BitVec.toNat_ushiftRight, Nat.shiftLeft_eq,
    Nat.shiftRight_eq_div_pow]
  omega

-- The index of a slot fills the bits that are clear.
theorem or_index {w : Word} {e : EnvPtr} (h : w.toNat % 1024 = 0) :
    (w ||| BitVec.ofNat 32 e).toNat = w.toNat + e := by
  have he : e.val < 2 ^ 10 := e.isLt
  have hw : w.toNat = 2 ^ 10 * (w.toNat / 1024) := by omega
  have ho := Nat.two_pow_add_eq_or_of_lt he (w.toNat / 1024)
  rw [BitVec.toNat_or, BitVec.toNat_ofNat, Nat.mod_eq_of_lt (by omega), hw, ← ho]

inductive EnvStatus
  | free
  | dying
  | runnable
  | running
  | notRunnable
  deriving DecidableEq

-- The numbers that `sys_env_set_status` receives for `ENV_RUNNABLE` and `ENV_NOT_RUNNABLE`.
def ENV_RUNNABLE : Word := 2#32
def ENV_NOT_RUNNABLE : Word := 4#32

inductive EnvType
  | user
  | fs
  deriving DecidableEq

structure Env where
  envTf : Trapframe
  envLink : Option EnvPtr
  envId : Word
  envParentId : Word
  envType : EnvType
  envStatus : EnvStatus
  envRuns : Word
  envCpunum : Nat
  -- The physical page that holds the page directory; `none` is the null pointer.
  envPgdir : Option Nat
  envPgfaultUpcall : Word
  envIpcRecving : Bool
  envIpcDstva : Word
  envIpcValue : Word
  envIpcFrom : Word
  envIpcPerm : Word
  deriving DecidableEq

-- A slot of `envs` as `memset` leaves it.
def Env.zero : Env where
  envTf := .zero
  envLink := none
  envId := 0
  envParentId := 0
  envType := .user
  envStatus := .free
  envRuns := 0
  envCpunum := 0
  envPgdir := none
  envPgfaultUpcall := 0
  envIpcRecving := false
  envIpcDstva := 0
  envIpcValue := 0
  envIpcFrom := 0
  envIpcPerm := 0

end Inc

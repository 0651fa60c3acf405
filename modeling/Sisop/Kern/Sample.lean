import Sisop.Kern.Init
import Sisop.Kern.Smp

-- A machine with 128MB of memory and two CPUs, on which runs can be followed step by step.

namespace Kern.Sample

open Inc Function

def machine : Machine where
  npages           := 32768
  kernelEnd        := 1024
  bootstack        := 0x00110000#32
  percpuKstacks i  := BitVec.ofNat 32 (0x00200000 + i * 32768)
  lapicaddr        := 0xFEE00000#32
  ncpu             := 2
  extphysmem_le    := by decide
  npages_le        := by decide

-- The last page up to `n` that `page_init` puts on the free list.
def lastFree (n : Nat) : Option Nat :=
  if n = 0 then none
  else if n = 7 then some 6
  else if 160 ≤ n ∧ n < 1120 then some 159
  else some n

-- The state of a page after `page_init`.
def page (p : Nat) : PageInfo :=
  if p = 0 ∨ 32768 ≤ p then ⟨none, 0#16⟩
  else if (160 ≤ p ∧ p < 1120) ∨ p = 7 then ⟨none, 1#16⟩
  else ⟨lastFree (p - 1), 0#16⟩

-- The page tables of `kern_pgdir` take the highest pages, in the order in which the boot code meets
-- the page directory entries `d`.
def order (d : Nat) : Nat :=
  if d = 958 then 0
  else if d = 956 then 1
  else if d = 955 then 2
  else if d = 959 then 3
  else d - 956

def pde (p : Nat) : Word := page2pa p ||| PTE_P ||| PTE_W ||| PTE_U

-- The contents of `kern_pgdir` when there are `n` page tables.
def kernDir (n d : Nat) : Word :=
  if d = 957 then page2pa 1024 ||| PTE_U ||| PTE_P
  else if 955 ≤ d ∧ d < 1024 ∧ order d < n then pde (32767 - order d)
  else 0#32

-- The state of the boot code when there are `n` page tables, with the contents `c`.
def stage (v : EnvPtr → Env) (l : Option EnvPtr) (n : Nat) (c : Nat → Nat → Word) : State where
  pages p      := if 32768 ≤ p + n ∧ p < 32768 then ⟨none, 1#16⟩ else page p
  pageFreeList := some (32767 - n)
  mem p        := if p = 1024 then kernDir n
    else if 32768 ≤ p + n ∧ p < 32768 then c (32767 - p) else fun _ => 0#32
  envs         := v
  envFreeList  := l

-- The entries from `lo` on that map `n` pages at `pa`.
def region (lo n : Nat) (pa perm : Word) (old : Nat → Word) (i : Nat) : Word :=
  if lo ≤ i ∧ i < lo + n then pa + BitVec.ofNat 32 ((i - lo) * PGSIZE) ||| perm ||| PTE_P else old i

-- The page tables of `kern_pgdir` after `mem_init`.
def tables (k : Nat) : Nat → Word :=
  if k = 1 then region 0 64 machine.pagesPa (PTE_U ||| PTE_P) fun _ => 0#32
  else if k = 2 then region 0 1024 machine.envsPa (PTE_U ||| PTE_P) fun _ => 0#32
  else if k = 3 then
    (List.range NCPU).foldl (fun old i => region (1016 - i * 16) 8 (machine.percpuKstacks i) PTE_W old)
      (region 1016 8 machine.bootstack PTE_W fun _ => 0#32)
  else if 4 ≤ k ∧ k < 68 then
    region 0 1024 (BitVec.ofNat 32 ((k - 4) * PTSIZE)) PTE_W fun _ => 0#32
  else fun _ => 0#32

-- `lapic_init` maps the local APIC after the three pages that `check_page` used up.
def lapicTable : Nat → Word :=
  let perm := PTE_PCD ||| PTE_PWT ||| PTE_W
  region 4 1 machine.lapicaddr perm <| region 3 1 machine.lapicaddr perm fun _ => 0#32

-- The state in which the first environment is created.
def boot : State :=
  envInit (stage (fun _ => .zero) none 68 (update tables 0 lapicTable))

-- A binary without segments.
def elf : Elf := ⟨ELF_MAGIC, 0x00800020#32, []⟩

-- The file server and a user program have been created.
def start : Option State := do
  let s ← envCreate machine boot elf .fs
  envCreate machine s elf .user

def fs : EnvPtr := 0
def user : EnvPtr := 1

-- A trap frame with a system call.
def call (no a1 a2 a3 a4 a5 : Word) : Trapframe :=
  { Trapframe.zero with tfTrapno := T_SYSCALL, tfRegs := ⟨a4, a5, 0, 0, a3, a1, a2, no⟩ }

-- What happens when the kernel takes the given steps.
def exec (s : State) : List Event → Option State
  | []                     => some s
  | .trap c getc tf :: evs => do
    let x ← trapUser machine s c getc tf
    exec x.state evs
  | .run cur e n :: evs    => do
    let s ← envRun s cur e n
    exec s evs

-- The file server allocates a page.
def alloc : List Event := [
  .run none fs 0,
  .trap fs 0#32 (call SYS_page_alloc 0 0 (PTE_U ||| PTE_P) 0 0)]

-- The page that the file server gets.
def first : Nat := 32693

-- The user program waits for a page where the kernel maps the first page that the file server then
-- allocates, and gets the second one.
def sendAboveUtop : List Event :=
  let perm := PTE_U ||| PTE_W ||| PTE_P
  [ .run none user 0,
    .trap user 0#32 (call SYS_ipc_recv (KERNBASE + page2pa first) 0 0 0 0),
    .run (some user) fs 0,
    .trap fs 0#32 (call SYS_page_alloc 0 0 perm 0 0),
    .trap fs 0#32 (call SYS_page_alloc 0 0x1000 perm 0 0),
    .trap fs 0#32 (call SYS_ipc_try_send 0x1001 0 0x1000 perm 0)]

-- The same with pages that may not be written.
def sendReadOnly : List Event :=
  let perm := PTE_U ||| PTE_P
  [ .run none user 0,
    .trap user 0#32 (call SYS_ipc_recv (KERNBASE + page2pa first) 0 0 0 0),
    .run (some user) fs 0,
    .trap fs 0#32 (call SYS_page_alloc 0 0 perm 0 0),
    .trap fs 0#32 (call SYS_page_alloc 0 0x1000 perm 0 0),
    .trap fs 0#32 (call SYS_ipc_try_send 0x1001 0 0x1000 perm 0)]

-- The file server maps the page that it finds below its stack, where there is none.
def mapEmpty : List Event :=
  let va := USTACKTOP - 8192#32
  [ .run none fs 0,
    .trap fs 0#32 (call SYS_page_map 0 va 0 va (PTE_U ||| PTE_P))]

-- What happens when the CPUs of `m` take steps in the given order.
def smpExec (m : Machine) (s : Smp) : List (Nat × Input) → Option Smp
  | []        => some s
  | ev :: evs => do
    if ev.1 < m.ncpu then
      let s ← s.next m ev.1 ev.2
      smpExec m s evs
    else none

-- An input for steps that take none.
def idle : Input := ⟨.zero, 0#32, []⟩

-- CPU 0 enters `i386_init` and starts CPU 1.
def bootCpus : List Nat := [0, 0, 0, 1, 0, 0]

-- The same machine with one CPU, which maps its local APIC once.
def uni : Machine := { machine with ncpu := 1 }

def uniLapicTable : Nat → Word :=
  region 3 1 machine.lapicaddr (PTE_PCD ||| PTE_PWT ||| PTE_W) fun _ => 0#32

def uniBoot : State :=
  envInit (stage (fun _ => .zero) none 68 (update tables 0 uniLapicTable))

-- What a trap from user mode brings.
def trapped (tf : Trapframe) : Input := { idle with tf := { tf with tfCs := 0x1B#16 } }

def timer : Input := trapped { Trapframe.zero with tfTrapno := IRQ_OFFSET + IRQ_TIMER }

-- The CPU of `uni` creates the file server and two user programs.
def bootUni : List (Nat × Input) :=
  [(0, idle), (0, idle), (0, idle), (0, { idle with binaries := [(elf, .fs), (elf, .user), (elf, .user)] })]

-- It runs an environment from `sched_yield` until the end of its next trap.
def turn (inp : Input) : List (Nat × Input) :=
  [(0, idle), (0, idle), (0, idle), (0, inp), (0, idle), (0, idle), (0, idle), (0, idle), (0, idle)]

end Kern.Sample

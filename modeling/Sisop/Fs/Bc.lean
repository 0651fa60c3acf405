import Sisop.Fs.Fs
import Mathlib.Logic.Function.Basic

-- fs/bc.c, and alloc_block, the allocation of an indirect block and fs_sync of fs/fs.c, with the block cache

namespace Fs.Bc

open Inc Library Function

def DISKSIZE : Nat := 0xC0000000

def PTE_D : Word := 0x040#32

-- The disk, and the disk map of the file server: the contents of its pages, at the places of `disk`,
-- and for each block the flags of its entry in `uvpt`, which are 0 where nothing is mapped.
structure Cache where
  disk : Memory
  mem  : Memory
  uvpt : Nat → Word

abbrev BcProg (α : Type) := Prog Cache Nat α

namespace Cache

variable (s : Cache)

def vaIsMapped (a : Nat) : Bool := s.uvpt (a / BLKSIZE) &&& PTE_P != 0#32

def vaIsDirty (a : Nat) : Bool := s.uvpt (a / BLKSIZE) &&& PTE_D != 0#32

-- `sys_page_alloc(0, addr, PTE_W | PTE_U | PTE_P)`: the kernel clears the page, since `ALLOC_ZERO` is
-- the bit of `PTE_P`.
def pageAlloc (b : Nat) : Cache :=
  { s with
    mem  := s.mem.memset (b * BLKSIZE) BLKSIZE 0
    uvpt := update s.uvpt b (PTE_W ||| PTE_U ||| PTE_P) }

-- `sys_page_map(0, addr, 0, addr, perm)`
def pageMap (b : Nat) (perm : Word) : Cache := { s with uvpt := update s.uvpt b (perm ||| PTE_P) }

-- The server stores the `n` bytes of `src` in block `b`, and the MMU sets `PTE_D`.
def stored (b a n : Nat) (src : Nat → BitVec 8) : Cache :=
  { s with
    mem  := s.mem.write a n src
    uvpt := update s.uvpt b (s.uvpt b ||| PTE_D) }

-- `ide_read` stores the block as the server does, with `insl`.
def ideRead (b : Nat) : Cache :=
  s.stored b (b * BLKSIZE) BLKSIZE fun i => s.disk (b * BLKSIZE + i)

def ideWrite (b : Nat) : Cache :=
  { s with disk := s.disk.write (b * BLKSIZE) BLKSIZE fun i => s.mem (b * BLKSIZE + i) }

end Cache

section Access

-- `touch` is what the handler's own accesses to the disk map do.
variable (touch : Nat → BcProg Unit)

def load (a : Nat) : BcProg (BitVec 8) := do
  touch a
  let s ← Prog.get
  pure (s.mem a)

def load32 (a : Nat) : BcProg Word := do
  touch a
  let s ← Prog.get
  pure (s.mem.load32 a)

def store (a : Nat) (v : BitVec 8) : BcProg Unit := do
  touch a
  Prog.modify fun s => s.stored (a / BLKSIZE) a 1 fun _ => v

def store32 (a : Nat) (v : Word) : BcProg Unit := do
  touch a
  Prog.modify fun s => s.stored (a / BLKSIZE) a 4 fun i => (v >>> (8 * i)).setWidth 8

def blockIsFree (blockno : Nat) : BcProg Bool := do
  let nblocks ← load32 touch (super + 4)
  if nblocks.toNat ≤ blockno then pure false
  else do
    let w ← load32 touch (bitmapWord blockno)
    pure (w &&& bitmapMask blockno != 0#32)

-- The pages that are missing are those of a disk that is in use: `super` and `bitmap` are set.
def bcPgfault (addr : Nat) : BcProg Unit := do
  let blockno := addr / BLKSIZE
  if DISKSIZE ≤ addr then Prog.panic
  else do
    let nblocks ← load32 touch (super + 4)
    if nblocks.toNat ≤ blockno then Prog.panic
    else do
      Prog.modify (·.pageAlloc blockno)
      Prog.modify (·.ideRead blockno)
      Prog.modify fun s => s.pageMap blockno (s.uvpt blockno &&& PTE_SYSCALL)
      if ← blockIsFree touch blockno then Prog.panic

def diskaddr (blockno : Nat) : BcProg Nat := do
  let nblocks ← load32 touch (super + 4)
  if blockno = 0 ∨ nblocks.toNat ≤ blockno then Prog.panic
  else pure (blockno * BLKSIZE)

end Access

-- An access to the disk map, with room for `n` more page faults on the exception stack.
def touch : Nat → Nat → BcProg Unit
  | 0, a     => do
    let s ← Prog.get
    if s.vaIsMapped a then pure () else Prog.panic
  | n + 1, a => do
    let s ← Prog.get
    if s.vaIsMapped a then pure () else bcPgfault (touch n) a

def flushBlock (addr : Nat) : BcProg Unit := do
  let blockno := addr / BLKSIZE
  if DISKSIZE ≤ addr then Prog.panic
  else do
    let s ← Prog.get
    if !s.vaIsMapped (blockno * BLKSIZE) || !s.vaIsDirty (blockno * BLKSIZE) then pure ()
    else do
      Prog.modify (·.ideWrite blockno)
      Prog.modify fun s => s.pageMap blockno (s.uvpt blockno &&& PTE_SYSCALL)

-- The loop of `alloc_block`, with `k` turns left.
def allocFrom (n : Nat) : Nat → Nat → BcProg Word
  | 0, _     => pure (err E_NO_DISK)
  | k + 1, i => do
    if ← blockIsFree (touch n) i then
      let w ← load32 (touch n) (bitmapWord i)
      store32 (touch n) (bitmapWord i) (w &&& ~~~bitmapMask i)
      flushBlock bitmap
      pure (BitVec.ofNat 32 i)
    else allocFrom n k (i + 1)

def allocBlock (n : Nat) : BcProg Word := do
  let nblocks ← load32 (touch n) (super + 4)
  allocFrom n nblocks.toNat 0

-- What `file_block_walk` does with the block that becomes the indirect block of a file: the page that
-- `sys_page_alloc` maps there is filled by `memset`.
def clearIndirect (n : Nat) (indirectBlock : Nat) : BcProg Unit := do
  let va ← diskaddr (touch n) indirectBlock
  Prog.modify (·.pageAlloc (va / BLKSIZE))
  let va ← diskaddr (touch n) indirectBlock
  Prog.modify fun s => s.stored (va / BLKSIZE) va BLKSIZE fun _ => 0#8
  let va ← diskaddr (touch n) indirectBlock
  flushBlock va

-- The loop of `fs_sync`, with `k` turns left.
def syncFrom (n : Nat) : Nat → Nat → BcProg Unit
  | 0, _     => pure ()
  | k + 1, i => do
    let va ← diskaddr (touch n) i
    flushBlock va
    syncFrom n k (i + 1)

def fsSync (n : Nat) : BcProg Unit := do
  let nblocks ← load32 (touch n) (super + 4)
  syncFrom n (nblocks.toNat - 1) 1

end Fs.Bc

import Sisop.Kern.Env
import Sisop.Library.Prog

-- `load_icode` of kern/env.c with the bytes that it copies.

namespace Kern.Icode

open Inc Function Library

abbrev Byte := BitVec 8

-- The state of the kernel, and the bytes of the physical pages that hold no page tables.
@[ext] structure Image where
  kern : State
  data : Nat → Nat → Byte

namespace Image

variable (i : Image)

def setKern (s : State) : Image := { i with kern := s }

-- Writes one byte of a physical page.
def store (p o : Nat) (b : Byte) : Image :=
  { i with data := update i.data p (update (i.data p) o b) }

variable (p o : Nat) (b : Byte) (s : State)

@[simp] theorem store_kern : (i.store p o b).kern = i.kern := rfl
@[simp] theorem setKern_kern : (i.setKern s).kern = s := rfl
@[simp] theorem setKern_data : (i.setKern s).data = i.data := rfl

end Image

-- A panic of the kernel is the outcome `panic`. A run that writes at or above `UTOP` overwrites the
-- kernel; it is followed no further and ends with the address that it has written to.
abbrev Load := Prog Image Word

variable (m : Machine)

-- What a read needs of a page table entry, and what a write of the kernel (`CR0_WP` is set) or of the
-- user needs.
def kernWrite : Word := PTE_P ||| PTE_W
def userWrite : Word := PTE_P ||| PTE_W ||| PTE_U

-- The physical page at `va` if both entries on the way to it allow the access `perm`.
def mmu (s : State) (pgdir : Nat) (va perm : Word) : Option Nat :=
  let pde := s.mem pgdir (PDX va)
  let pte := s.mem (PGNUM pde) (PTX va)
  if pde &&& perm = perm ∧ pte &&& perm = perm then some (PGNUM pte) else none

-- The byte that the user finds at `va` where it may write.
def Image.read (i : Image) (pgdir : Nat) (va : Word) : Option Byte :=
  (mmu i.kern pgdir va userWrite).map fun p => i.data p (PGOFF va).toNat

-- A page fault in the kernel is a panic.
def storeByte (pgdir : Nat) (va : Word) (b : Byte) : Load Unit := do
  let i ← Prog.get
  match mmu i.kern pgdir va kernWrite with
  | none   => Prog.panic
  | some p => if va < UTOP then Prog.modify (·.store p (PGOFF va).toNat b) else Prog.throw va

-- Writes `n` bytes from `va` upwards, as `rep movsb` and `rep stosb` do.
def storeBytes (pgdir : Nat) (va : Word) (b : Nat → Byte) : Nat → Load Unit
  | 0     => pure ()
  | n + 1 => do
    storeBytes pgdir va b n
    storeByte pgdir (va + BitVec.ofNat 32 n) (b n)

structure Proghdr extends Kern.Proghdr where
  pOffset : Word

-- `byte i` is the byte at `binary + i`.
structure Binary where
  eMagic : Word
  eEntry : Word
  proghdrs : List Proghdr
  byte : Word → Byte

-- The binary lies in the kernel's image above `UTOP`, so that `memcpy` copies upwards.
def memcpy (pgdir : Nat) (binary : Binary) (dst offset n : Word) : Load Unit :=
  storeBytes pgdir dst (fun k => binary.byte (offset + BitVec.ofNat 32 k)) n.toNat

def memset (pgdir : Nat) (v : Word) (c : Byte) (n : Word) : Load Unit :=
  storeBytes pgdir v (fun _ => c) n.toNat

def regionAlloc (pgdir : Nat) (va len : Word) : Load Unit := do
  let i ← Prog.get
  match Kern.regionAlloc m i.kern pgdir va len with
  | none   => Prog.panic
  | some s => Prog.modify (·.setKern s)

-- One iteration of the loop in `load_icode`.
def loadSegment (pgdir : Nat) (binary : Binary) (ph : Proghdr) : Load Unit :=
  if ph.pType ≠ ELF_PROG_LOAD then pure ()
  else if ph.pMemsz < ph.pFilesz then Prog.panic
  else do
    regionAlloc m pgdir ph.pVa ph.pMemsz
    memcpy pgdir binary ph.pVa ph.pOffset ph.pFilesz
    memset pgdir (ph.pVa + ph.pFilesz) 0#8 (ph.pMemsz - ph.pFilesz)

def loadSegments (pgdir : Nat) (binary : Binary) : List Proghdr → Load Unit
  | []        => pure ()
  | ph :: phs => do
    loadSegment m pgdir binary ph
    loadSegments pgdir binary phs

def setEip (e : EnvPtr) (eip : Word) (s : State) : State :=
  let env := s.envs e
  s.setEnv e { env with envTf := { env.envTf with tfEip := eip } }

def loadIcode (e : EnvPtr) (binary : Binary) : Load Unit :=
  if binary.eMagic ≠ ELF_MAGIC then Prog.panic
  else do
    let i ← Prog.get
    match i.kern.pgdir e with
    | none       => Prog.panic
    | some pgdir => do
      loadSegments m pgdir binary binary.proghdrs
      Prog.modify fun i => i.setKern (setEip e binary.eEntry i.kern)
      regionAlloc m pgdir (USTACKTOP - 4096#32) 4096#32

end Kern.Icode

import Sisop.Fs.Fs

-- fs/fsformat.c

namespace Fs.Format

open Inc Library

def FS_MAGIC : Word := 0x4A0530AE#32
def MAX_DIR_ENTS : Nat := 128

-- A file to be put on the disk: the last part of its name, and its bytes.
structure Input where
  last : List (BitVec 8)
  data : List (BitVec 8)

-- Where the array from `malloc` lies: behind the largest disk, which is mapped from 0 on.
def ents : Nat := 1024 * BLKSIZE

-- `n` is the number of entries of the root directory.
structure State where
  mem : Memory
  diskpos : Nat
  n : Nat

-- `ROUNDUP(n, BLKSIZE)` of a `uint32_t` and of an `int`.
def ROUNDUP (n : Word) : Word := n - 1#32 + 4096#32 - (n - 1#32) % 4096#32

def ROUNDUPInt (n : Word) : Word := n - 1#32 + 4096#32 - (n - 1#32).srem 4096#32

section Disk

variable (nblocks : Nat)

-- The result is where the blocks start; `none` is a panic.
def alloc (bytes : Word) (s : State) : Option (Nat × State) :=
  let diskpos := s.diskpos + (ROUNDUP bytes).toNat
  if nblocks ≤ diskpos / BLKSIZE then none else some (s.diskpos, { s with diskpos := diskpos })

def finishfile (f : Nat) (start len : Word) (s : State) : Option State :=
  let m := s.mem.store32 (fSize f) len
  let n := (ROUNDUP len).toNat / BLKSIZE
  let m := (List.range (min n NDIRECT)).foldl
    (fun m i => m.store32 (fDirect f i) (start + BitVec.ofNat 32 i)) m
  if NDIRECT ≤ n then do
    let (ind, s) ← alloc nblocks 4096#32 { s with mem := m }
    let m := s.mem.store32 (fIndirect f) (BitVec.ofNat 32 (ind / BLKSIZE))
    let m := (List.range (n - NDIRECT)).foldl
      (fun m i => m.store32 (ind + 4 * i) (start + BitVec.ofNat 32 (NDIRECT + i))) m
    some { s with mem := m }
  else some { s with mem := m }

-- The result is the entry.
def diradd (type : Word) (name : List (BitVec 8)) (s : State) : Option (Nat × State) :=
  let out := ents + sizeofFile * s.n
  if MAX_DIR_ENTS < s.n + 1 then none
  else some (out, { s with
    mem := (s.mem.strcpy out name).store32 (fType out) type
    n   := s.n + 1 })

def writefile (s : State) (file : Input) : Option State :=
  let size := BitVec.ofNat 32 file.data.length
  if MAXFILESIZE ≤ file.data.length then none
  else do
    let (f, s) ← diradd FTYPE_REG file.last s
    let (start, s) ← alloc nblocks size s
    let s := { s with mem := s.mem.write start file.data.length (file.data.getD · 0) }
    finishfile nblocks f (BitVec.ofNat 32 (start / BLKSIZE)) size s

def finishdir (s : State) : Option State := do
  let size := BitVec.ofNat 32 (s.n * sizeofFile)
  let (start, s) ← alloc nblocks size s
  let s := { s with mem := s.mem.write start size.toNat fun i => s.mem (ents + i) }
  finishfile nblocks sRoot (BitVec.ofNat 32 (start / BLKSIZE)) (ROUNDUPInt size) s

def finishdisk (s : State) : Memory :=
  (List.range (s.diskpos / BLKSIZE)).foldl
    (fun m i => m.store32 (bitmapWord i) (m.load32 (bitmapWord i) &&& ~~~bitmapMask i)) s.mem

-- The file of the disk is zero at first, and `malloc` is what the array holds.
def opendisk (malloc : Memory) : Option State := do
  let s : State := ⟨fun x => if x < ents then 0 else malloc (x - ents), 0, 0⟩
  let (_, s) ← alloc nblocks 4096#32 s
  let (super, s) ← alloc nblocks 4096#32 s
  let m := s.mem.store32 super FS_MAGIC
  let m := m.store32 (super + 4) (BitVec.ofNat 32 nblocks)
  let m := m.store32 (fType (super + 8)) FTYPE_DIR
  let s := { s with mem := m.strcpy (super + 8) [0x2F#8] }
  let nbitblocks := (nblocks + BLKBITSIZE - 1) / BLKBITSIZE
  let (bitmap, s) ← alloc nblocks (BitVec.ofNat 32 (nbitblocks * BLKSIZE)) s
  some { s with mem := s.mem.memset bitmap (nbitblocks * BLKSIZE) 0xFF#8 }

-- `main`, for `NBLOCKS` and the files; `none` is the usage or a panic.
def fsformat (files : List Input) (malloc : Memory) : Option Memory :=
  if nblocks < 2 ∨ 1024 < nblocks then none
  else do
    let s ← opendisk nblocks malloc
    let s ← files.foldlM (writefile nblocks) s
    let s ← finishdir nblocks s
    some (finishdisk s)

end Disk

end Fs.Format

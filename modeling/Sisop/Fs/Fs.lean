import Sisop.Inc.Fs
import Sisop.Library.Prog

-- fs/fs.c, and `diskaddr` of fs/bc.c

namespace Fs

open Inc Library

-- The state of the file server is what it sees of the disk: the bytes of block `b` are at
-- `b * BLKSIZE`, whether or not they are in the block cache. `flush_block` does not change this view.
abbrev FsProg (α : Type) := Prog Memory Nat α

section Disk

variable (m : Memory)

def super : Nat := 1 * BLKSIZE

def sNblocks : Nat := (m.load32 (super + 4)).toNat

def sRoot : Nat := super + 8

def bitmap : Nat := 2 * BLKSIZE

-- The place of `bitmap[blockno / 32]`.
def bitmapWord (blockno : Nat) : Nat := bitmap + 4 * (blockno / 32)

-- `1 << (blockno % 32)`
def bitmapMask (blockno : Nat) : Word := 1#32 <<< (blockno % 32)

def blockIsFree (blockno : Nat) : Bool :=
  blockno < sNblocks m && m.load32 (bitmapWord blockno) &&& bitmapMask blockno != 0#32

end Disk

def diskaddr (blockno : Word) : FsProg Nat := do
  let m ← Prog.get
  if blockno = 0#32 ∨ sNblocks m ≤ blockno.toNat then Prog.panic
  else pure (blockno.toNat * BLKSIZE)

-- The access to `bitmap` panics in `bc_pgfault` where the disk has no such block.
def freeBlock (blockno : Word) : FsProg Unit := do
  let m ← Prog.get
  let a := bitmapWord blockno.toNat
  if blockno = 0#32 ∨ sNblocks m ≤ a / BLKSIZE then Prog.panic
  else Prog.modify fun m => m.store32 a (m.load32 a ||| bitmapMask blockno.toNat)

def allocBlock : FsProg Word := do
  let m ← Prog.get
  match (List.range (sNblocks m)).find? (blockIsFree m) with
  | none   => pure (err E_NO_DISK)
  | some i => do
    Prog.modify fun m =>
      m.store32 (bitmapWord i) (m.load32 (bitmapWord i) &&& ~~~bitmapMask i)
    pure (BitVec.ofNat 32 i)

-- The part of `file_block_walk` that gives the file an indirect block.
def allocIndirect (f : Nat) : FsProg Unit := do
  let indirectBlock ← allocBlock
  if negative indirectBlock then Prog.throw E_NO_DISK
  else do
    Prog.modify fun m => m.store32 (fIndirect f) indirectBlock
    let va ← diskaddr indirectBlock
    Prog.modify fun m => m.memset va BLKSIZE 0

def fileBlockWalk (f : Nat) (filebno : Nat) (alloc : Bool) : FsProg Nat := do
  if NDIRECT + NINDIRECT ≤ filebno then Prog.throw E_INVAL
  else if filebno < NDIRECT then pure (fDirect f filebno)
  else do
    let m ← Prog.get
    if m.load32 (fIndirect f) = 0#32 then
      if alloc then allocIndirect f else Prog.throw E_NOT_FOUND
    let m ← Prog.get
    let va ← diskaddr (m.load32 (fIndirect f))
    pure (va + 4 * (filebno - NDIRECT))

-- The code of `alloc_block` is stored even where it is an error: as a `uint32_t`, it is not less than
-- zero, and `diskaddr` panics.
def fileGetBlock (f : Nat) (filebno : Nat) : FsProg Nat := do
  let ref ← fileBlockWalk f filebno true
  let m ← Prog.get
  if m.load32 ref = 0#32 then do
    let blockno ← allocBlock
    Prog.modify fun m => m.store32 ref blockno
  let m ← Prog.get
  diskaddr (m.load32 ref)

-- The search of `dir_lookup` and `dir_alloc_file` through the given blocks of a directory.
def dirScan (p : Memory → Nat → Bool) (dir : Nat) : List Nat → FsProg (Option Nat)
  | []      => pure none
  | i :: is => do
    let blk ← fileGetBlock dir i
    let m ← Prog.get
    match (List.range BLKFILES).find? fun j => p m (blk + sizeofFile * j) with
    | some j => pure (some (blk + sizeofFile * j))
    | none   => dirScan p dir is

-- `dir->f_size / BLKSIZE`, after the assertion that the size is a multiple of `BLKSIZE`.
def dirBlocks (dir : Nat) : FsProg Nat := do
  let m ← Prog.get
  if (m.load32 (fSize dir)).srem 4096#32 ≠ 0#32 then Prog.panic
  else pure ((m.load32 (fSize dir)).sdiv 4096#32).toNat

def dirLookup (dir : Nat) (name : List (BitVec 8)) : FsProg Nat := do
  let nblock ← dirBlocks dir
  match ← dirScan (fun m f => m.strEq f name) dir (List.range nblock) with
  | some f => pure f
  | none   => Prog.throw E_NOT_FOUND

def dirAllocFile (dir : Nat) : FsProg Nat := do
  let nblock ← dirBlocks dir
  match ← dirScan (fun m f => m f = 0#8) dir (List.range nblock) with
  | some f => pure f
  | none   => do
    Prog.modify fun m => m.store32 (fSize dir) (m.load32 (fSize dir) + 4096#32)
    fileGetBlock dir nblock

-- The elements of a path: what its slashes separate, up to the null byte.
def pathElems (path : List (BitVec 8)) : List (List (BitVec 8)) :=
  ((path.takeWhile (· ≠ 0#8)).splitOnP (· = 0x2F#8)).filter (· ≠ [])

-- What `walk_path` finds: a file, or the directory that should hold the last element.
inductive Walk
  | found (f : Nat)
  | missing (dir : Nat) (lastelem : List (BitVec 8))

def walkPath (f : Nat) : List (List (BitVec 8)) → FsProg Walk
  | []           => pure (.found f)
  | name :: path => do
    if MAXNAMELEN ≤ name.length then Prog.throw E_BAD_PATH
    else
      let m ← Prog.get
      if m.load32 (fType f) ≠ FTYPE_DIR then Prog.throw E_NOT_FOUND
      else
        match ← (dirLookup f name).attempt with
        | .ok f    => walkPath f path
        | .error r =>
          if r = E_NOT_FOUND ∧ path = [] then pure (.missing f name) else Prog.throw r

-- `file_flush` checks the numbers of the blocks that it flushes.
def flushBlocks (f : Nat) : List Nat → FsProg Unit
  | []      => pure ()
  | i :: is => do
    match ← (fileBlockWalk f i false).attempt with
    | .error _ => flushBlocks f is
    | .ok ref  => do
      let m ← Prog.get
      if m.load32 ref ≠ 0#32 then do
        let _ ← diskaddr (m.load32 ref)
      flushBlocks f is

-- `(size + BLKSIZE - 1) / BLKSIZE`
def blocksFor (size : Word) : Word := (size + 4096#32 - 1#32).sdiv 4096#32

def fileFlush (f : Nat) : FsProg Unit := do
  let m ← Prog.get
  flushBlocks f (List.range (blocksFor (m.load32 (fSize f))).toInt.toNat)
  let m ← Prog.get
  if m.load32 (fIndirect f) ≠ 0#32 then do
    let _ ← diskaddr (m.load32 (fIndirect f))

def fileCreate (path : List (BitVec 8)) : FsProg Nat := do
  match ← walkPath sRoot (pathElems path) with
  | .found _          => Prog.throw E_FILE_EXISTS
  | .missing dir name => do
    let f ← dirAllocFile dir
    Prog.modify fun m => m.strcpy f name
    fileFlush dir
    pure f

def fileOpen (path : List (BitVec 8)) : FsProg Nat := do
  match ← walkPath sRoot (pathElems path) with
  | .found f     => pure f
  | .missing _ _ => Prog.throw E_NOT_FOUND

-- One `memmove` between the block cache and the buffer of a request: the memory in which it starts,
-- its place in the block cache and its length.
structure Chunk where
  mem : Memory
  addr : Nat
  len : Nat

def Chunk.bytes (c : Chunk) : List (BitVec 8) := (List.range c.len).map fun i => c.mem (c.addr + i)

-- `MIN` of two `uint32_t`.
def umin (a b : Word) : Word := if a ≤ b then a else b

-- The length of the `memmove` at `pos` in a transfer that stops before `stop`, and its place in the
-- block; `pos` is signed, `stop` is not.
def chunkLen (stop pos : Word) : Word := umin (4096#32 - pos.srem 4096#32) (stop - pos)

def chunkAddr (blk : Nat) (pos : Word) : Nat := (blk + (pos.srem 4096#32).toInt).toNat

-- Each turn of the loops takes at least one byte, so that `stop - pos + 1` bounds their turns.
def fuel (stop pos : Word) : Nat := (stop - pos).toNat + 1

def readLoop (f : Nat) (stop : Word) : Nat → Word → FsProg (List Chunk)
  | 0, _       => Prog.panic
  | n + 1, pos =>
    if pos < stop then do
      let blk ← fileGetBlock f (pos.sdiv 4096#32).toNat
      let m ← Prog.get
      let cs ← readLoop f stop n (pos + chunkLen stop pos)
      pure (⟨m, chunkAddr blk pos, (chunkLen stop pos).toNat⟩ :: cs)
    else pure []

-- The reply is made of the bytes of the chunks.
def fileRead (f : Nat) (count offset : Word) : FsProg (Word × List Chunk) := do
  let m ← Prog.get
  if (m.load32 (fSize f)).sle offset then pure (0#32, [])
  else do
    let count := umin count (m.load32 (fSize f) - offset)
    let cs ← readLoop f (offset + count) (fuel (offset + count) offset) offset
    pure (count, cs)

def fileFreeBlock (f : Nat) (filebno : Nat) : FsProg Unit := do
  let ptr ← fileBlockWalk f filebno false
  let m ← Prog.get
  if m.load32 ptr ≠ 0#32 then do
    freeBlock (m.load32 ptr)
    Prog.modify fun m => m.store32 ptr 0#32

-- `file_truncate_blocks` only warns of an error.
def freeBlocks (f : Nat) : List Nat → FsProg Unit
  | []         => pure ()
  | bno :: bnos => do
    let _ ← (fileFreeBlock f bno).attempt
    freeBlocks f bnos

def fileTruncateBlocks (f : Nat) (newsize : Word) : FsProg Unit := do
  let m ← Prog.get
  let oldNblocks := (blocksFor (m.load32 (fSize f))).toNat
  let newNblocks := (blocksFor newsize).toNat
  freeBlocks f (List.range' newNblocks (oldNblocks - newNblocks))
  let m ← Prog.get
  if newNblocks ≤ NDIRECT ∧ m.load32 (fIndirect f) ≠ 0#32 then do
    freeBlock (m.load32 (fIndirect f))
    Prog.modify fun m => m.store32 (fIndirect f) 0#32

def fileSetSize (f : Nat) (newsize : Word) : FsProg Unit := do
  let m ← Prog.get
  if newsize.slt (m.load32 (fSize f)) then fileTruncateBlocks f newsize
  Prog.modify fun m => m.store32 (fSize f) newsize

def writeLoop (f : Nat) (stop : Word) : Nat → (Nat → BitVec 8) → Word → FsProg (List Chunk)
  | 0, _, _         => Prog.panic
  | n + 1, buf, pos =>
    if pos < stop then do
      let blk ← fileGetBlock f (pos.sdiv 4096#32).toNat
      let m ← Prog.get
      let bn := (chunkLen stop pos).toNat
      Prog.modify fun m => m.write (chunkAddr blk pos) bn buf
      let cs ← writeLoop f stop n (fun i => buf (i + bn)) (pos + chunkLen stop pos)
      pure (⟨m, chunkAddr blk pos, bn⟩ :: cs)
    else pure []

def fileWrite (f : Nat) (buf : Nat → BitVec 8) (count offset : Word) :
    FsProg (Word × List Chunk) := do
  let m ← Prog.get
  if m.load32 (fSize f) < offset + count then fileSetSize f (offset + count)
  let cs ← writeLoop f (offset + count) (fuel (offset + count) offset) buf offset
  pure (count, cs)

end Fs

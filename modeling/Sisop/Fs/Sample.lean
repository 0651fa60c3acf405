import Sisop.Fs.Fs

-- A disk of eight blocks for the examples of runs that go wrong.

namespace Fs.Sample

open Inc Library

-- A memory from the bytes that are not zero.
def ofBytes (bytes : List (Nat × BitVec 8)) : Memory := fun x => (bytes.lookup x).getD 0

-- The disk holds the file `/a`: block 3 is the block of the root directory, block 4 the block of the
-- file, and the blocks 5, 6 and 7 are free.
def diskBytes : List (Nat × BitVec 8) :=
  [(4100, 8), (4104, 0x2F), (4233, 0x10), (4236, 1), (4240, 3), (8192, 0xE0),
    (12288, 0x61), (12416, 10), (12424, 4)]

def disk : Memory := ofBytes diskBytes

def fileA : Nat := 12288

-- A disk with an empty root directory; the blocks from 3 on are free.
def blankBytes : List (Nat × BitVec 8) :=
  [(4100, 8), (4104, 0x2F), (4236, 1), (8192, 0xF8)]

def blank : Memory := ofBytes blankBytes

-- The same with old data in block 3: the second slot has the name `z` and points at the super block.
def stale : Memory := ofBytes (blankBytes ++ [(12544, 0x7A), (12680, 1)])

-- `/x`
def pathX : List (BitVec 8) := [0x2F, 0x78]

end Fs.Sample

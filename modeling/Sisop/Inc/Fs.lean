import Sisop.Inc.Env
import Sisop.Library.Memory

-- inc/fs.h

namespace Inc

def E_NO_DISK : Nat := 9
def E_NOT_FOUND : Nat := 11
def E_BAD_PATH : Nat := 12
def E_FILE_EXISTS : Nat := 13

def BLKSIZE : Nat := 4096
def BLKBITSIZE : Nat := BLKSIZE * 8
def MAXNAMELEN : Nat := 128
def NDIRECT : Nat := 10
def NINDIRECT : Nat := BLKSIZE / 4
def MAXFILESIZE : Nat := (NDIRECT + NINDIRECT) * BLKSIZE

-- `sizeof(struct File)`
def sizeofFile : Nat := 256

def BLKFILES : Nat := BLKSIZE / sizeofFile

def FTYPE_REG : Word := 0#32
def FTYPE_DIR : Word := 1#32

-- The fields of the `struct File` at `f`. Pointers to a `struct File` are its place in the block cache,
-- counted from `DISKMAP`.

section File

variable (f : Nat)

def fSize : Nat := f + 128
def fType : Nat := f + 132
def fDirect (i : Nat) : Nat := f + 136 + 4 * i
def fIndirect : Nat := f + 176

end File

end Inc

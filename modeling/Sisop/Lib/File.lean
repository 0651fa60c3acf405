import Sisop.Fs.Serv

-- lib/file.c, lib/fd.c and user/cat.c, as far as they read and write files

namespace Fs.Client

open Inc Library

def O_WRONLY : Word := 0x0001#32
def O_RDONLY : Word := 0x0000#32

-- A descriptor is the entry of the table whose page `o_fd` the client has mapped. The page `fsipcbuf` of the
-- client is the one that the server has at `fsreq`.
def setField (off : Nat) (v : Word) : ServProg Unit :=
  .modify fun s => { s with fsreq := s.fsreq.store32 off v }

-- The value that the server replies with.
def fsipc (type : Fsreq) : ServProg Word := do
  match ← (handler false type).attempt with
  | .error e   => pure (err e)
  | .ok (r, _) => pure r

-- The result and the bytes that are stored in the buffer.
def devfileRead (fd : Nat) (n : Word) : ServProg (Word × List (BitVec 8)) := do
  setField 0 ((← .get).oFd fd).fdFileId
  setField 4 n
  let r ← fsipc .read
  if negative r then pure (r, [])
  else if r ≤ n ∧ r ≤ 4096#32 then do
    let s ← .get
    pure (r, (List.range r.toNat).map fun i => s.fsreq i)
  else .panic

def devfileWrite (fd : Nat) (buf : Nat → BitVec 8) (n : Word) : ServProg Word := do
  setField 0 ((← .get).oFd fd).fdFileId
  setField 4 n
  if n ≤ 4088#32 then do
    .modify fun s => { s with fsreq := s.fsreq.write 8 n.toNat buf }
    let r ← fsipc .write
    if negative r then pure r
    else if r ≤ n then pure r
    else .panic
  else .panic

def read (fd : Nat) (n : Word) : ServProg (Word × List (BitVec 8)) := do
  let s ← .get
  if (s.oFd fd).fdOmode &&& O_ACCMODE = O_WRONLY then pure (err E_INVAL, [])
  else devfileRead fd n

-- At most the given number of turns of the loop of `readn`, which has read `tot` bytes into the buffer; `none` if
-- the loop has not ended.
def readnLoop (fd : Nat) (n : Word) : Nat → Word → List (BitVec 8) →
    ServProg (Option (Word × List (BitVec 8)))
  | 0, _, _         => pure none
  | k + 1, tot, buf =>
    if tot < n then do
      let (m, bytes) ← read fd (n - tot)
      if negative m then pure (some (m, buf ++ bytes))
      else if m = 0#32 then pure (some (tot, buf ++ bytes))
      else readnLoop fd n k (tot + m) (buf ++ bytes)
    else pure (some (tot, buf))

-- A turn that is not the last one reads at least one byte.
def readn (fd : Nat) (n : Word) : ServProg (Option (Word × List (BitVec 8))) :=
  readnLoop fd n (n.toNat + 1) 0#32 []

def write (fd : Nat) (buf : Nat → BitVec 8) (n : Word) : ServProg Word := do
  let s ← .get
  if (s.oFd fd).fdOmode &&& O_ACCMODE = O_RDONLY then pure (err E_INVAL)
  else devfileWrite fd buf n

-- At most the given number of turns of the loop of `cat`, with a buffer of the given size; whether the loop has
-- ended.
def cat (src dst : Nat) (size : Word) : Nat → ServProg Bool
  | 0     => pure false
  | k + 1 => do
    let (n, buf) ← read src size
    if (0#32).slt n then do
      let r ← write dst (buf.getD · 0) n
      if r ≠ n then .panic
      else cat src dst size k
    else if negative n then .panic
    else pure true

end Fs.Client

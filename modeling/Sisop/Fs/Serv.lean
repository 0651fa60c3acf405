import Sisop.Fs.Fs

-- fs/serv.c

namespace Fs

open Inc Library Function

def E_MAX_OPEN : Nat := 10

def MAXOPEN : Nat := 1024
def MAXPATHLEN : Nat := 1024

def O_ACCMODE : Word := 0x0003#32
def O_CREAT : Word := 0x0100#32
def O_TRUNC : Word := 0x0200#32
def O_EXCL : Word := 0x0400#32

-- What `openfile_alloc` and `openfile_lookup` look at: the ids in `opentab`, whether the server maps the
-- page `o_fd`, and how often this page is mapped elsewhere.
@[ext] structure OpenTab where
  oFileid : Nat → Word
  mapped : Nat → Bool
  clients : Nat → Nat

namespace OpenTab

variable (t : OpenTab)

-- `serve_init`
def init : OpenTab := ⟨fun i => BitVec.ofNat 32 i, fun _ => false, fun _ => 0⟩

-- `pageref(opentab[i].o_fd)`; `pp_ref` has 16 bits.
def pageref (i : Nat) : Nat := if t.mapped i then (1 + t.clients i) % 65536 else 0

-- The entry that is available, for `openfile_alloc`.
def avail : Option Nat := (List.range MAXOPEN).find? fun i => t.pageref i ≤ 1

-- The table after the entry `i` has got a page and the next id.
def take (i : Nat) : OpenTab :=
  { t with
    oFileid := update t.oFileid i (t.oFileid i + BitVec.ofNat 32 MAXOPEN)
    mapped  := update t.mapped i true }

-- The value that is returned, and the entry that is stored in `o`; `noMem` is whether `sys_page_alloc`
-- fails.
def openfileAlloc (noMem : Bool) : Word × Option Nat × OpenTab :=
  match t.avail with
  | none   => (err E_MAX_OPEN, none, t)
  | some i =>
    if t.pageref i = 0 ∧ noMem then (err E_NO_MEM, none, t)
    else ((t.take i).oFileid i, some i, t.take i)

-- The entry for `fileid`; without it the result is `-E_INVAL`.
def openfileLookup (fileid : Word) : Option Nat :=
  let i := fileid.toNat % MAXOPEN
  if t.pageref i ≤ 1 ∨ t.oFileid i ≠ fileid then none else some i

end OpenTab

structure Fd where
  fdDevId : Word
  fdOffset : Word
  fdOmode : Word
  fdFileId : Word

-- The state of the server, with the pages `o_fd` that it shares with its clients and the page at `fsreq`
-- with the request. `touched` are the parts of this page that the handlers use: where they start, and
-- their lengths. `moved` is what they copy from and to the map of the disk.
structure Serv where
  mem : Memory
  tab : OpenTab
  oFile : Nat → Nat
  oMode : Nat → Word
  oFd : Nat → Fd
  fsreq : Memory
  touched : List (Nat × Nat)
  moved : List Chunk

abbrev ServProg (α : Type) := Prog Serv Nat α

-- A function of fs.c.
def onDisk {α : Type} (x : FsProg α) : ServProg α := fun s =>
  match x s.mem with
  | .panic     => .panic
  | .error e m => .error e { s with mem := m }
  | .ok a m    => .ok a { s with mem := m }

def touch (off len : Nat) : ServProg Unit :=
  Prog.modify fun s => { s with touched := (off, len) :: s.touched }

-- A field of the request.
def reqField (off : Nat) : ServProg Word := do
  touch off 4
  let s ← Prog.get
  pure (s.fsreq.load32 off)

-- Behind the page at `fsreq` is the map of the disk.
def reqByte (s : Serv) (off : Nat) : BitVec 8 :=
  if off < PGSIZE then s.fsreq off else s.mem (off - PGSIZE)

-- The call of `openfile_alloc`: a result that is negative is handed on.
def allocOpen (noMem : Bool) : ServProg Nat := fun s =>
  match s.tab.openfileAlloc noMem with
  | (r, none, tab)   => .error (-r).toNat { s with tab := tab }
  | (r, some i, tab) =>
    let s := { s with tab := tab, oFd := update s.oFd i ⟨0, 0, 0, 0⟩ }
    if negative r then .error (-r).toNat s else .ok i s

def lookupOpen (fileid : Word) : ServProg Nat := do
  let s ← Prog.get
  match s.tab.openfileLookup fileid with
  | some i => pure i
  | none   => Prog.throw E_INVAL

-- `req_path`, of which the last byte is taken to be zero.
def reqPath (page : Memory) : List (BitVec 8) := (List.range (MAXPATHLEN - 1)).map page ++ [0#8]

-- The part of `serve_open` that opens the file.
def openPath (path : List (BitVec 8)) (omode : Word) : FsProg Nat :=
  if omode &&& O_CREAT ≠ 0#32 then do
    match ← (fileCreate path).attempt with
    | .ok f    => pure f
    | .error r =>
      if omode &&& O_EXCL = 0#32 ∧ r = E_FILE_EXISTS then fileOpen path else Prog.throw r
  else fileOpen path

-- The entry and its page get what belongs to the file.
def Serv.fill (s : Serv) (o f : Nat) (omode : Word) : Serv := { s with
  oFile := update s.oFile o f
  oMode := update s.oMode o omode
  oFd   := update s.oFd o { s.oFd o with
    fdFileId := s.tab.oFileid o, fdOmode := omode &&& O_ACCMODE, fdDevId := 0x66#32 } }

-- The result is the entry whose page goes to the client.
def serveOpen (noMem : Bool) : ServProg Nat := do
  touch 0 MAXPATHLEN
  let s ← Prog.get
  let path := reqPath s.fsreq
  let o ← allocOpen noMem
  let omode ← reqField MAXPATHLEN
  let f ← onDisk (openPath path omode)
  if omode &&& O_TRUNC ≠ 0#32 then onDisk (fileSetSize f 0#32)
  let f ← onDisk (fileOpen path)
  Prog.modify (Serv.fill · o f omode)
  pure o

def serveSetSize : ServProg Word := do
  let o ← lookupOpen (← reqField 0)
  let s ← Prog.get
  onDisk (fileSetSize (s.oFile o) (← reqField 4))
  pure 0#32

-- `fd_offset += r`
def advance (o : Nat) (r : Word) : ServProg Unit :=
  Prog.modify fun s =>
    { s with oFd := update s.oFd o { s.oFd o with fdOffset := (s.oFd o).fdOffset + r } }

-- Where `file_read` stops with an error, the part of `ret_buf` that it has filled is left out.
def serveRead : ServProg Word := do
  let o ← lookupOpen (← reqField 0)
  let n := umin (← reqField 4) 4096#32
  let s ← Prog.get
  touch 0 n.toNat
  let (r, cs) ← onDisk (fileRead (s.oFile o) n (s.oFd o).fdOffset)
  let reply := cs.flatMap Chunk.bytes
  Prog.modify fun s => { s with
    fsreq := s.fsreq.write 0 reply.length (reply.getD · 0)
    moved := cs ++ s.moved }
  if negative r then pure r
  else do
    advance o r
    pure r

-- The buffer `req_buf` has the offset 8.
def serveWrite : ServProg Word := do
  let o ← lookupOpen (← reqField 0)
  let n ← reqField 4
  let s ← Prog.get
  touch 8 n.toNat
  let (r, cs) ← onDisk (fileWrite (s.oFile o) (fun i => reqByte s (8 + i)) n (s.oFd o).fdOffset)
  Prog.modify fun s => { s with moved := cs ++ s.moved }
  if negative r then pure r
  else do
    advance o r
    pure r

-- How many bytes `strcpy` copies from `a`; it stops in the first block at the latest, if there is a null
-- byte.
def strsize (m : Memory) (a : Nat) : Nat :=
  (((List.range BLKSIZE).find? fun i => m (a + i) = 0#8).getD BLKSIZE) + 1

def serveStat : ServProg Word := do
  let o ← lookupOpen (← reqField 0)
  let s ← Prog.get
  let f := s.oFile o
  let n := strsize s.mem f
  touch 0 n
  touch MAXNAMELEN 4
  touch (MAXNAMELEN + 4) 4
  Prog.modify fun s => { s with
    fsreq := ((s.fsreq.write 0 n fun i => s.mem (f + i)).store32 MAXNAMELEN
      (s.mem.load32 (fSize f))).store32 (MAXNAMELEN + 4)
      (if s.mem.load32 (fType f) = FTYPE_DIR then 1#32 else 0#32)
    moved := ⟨s.mem, f, n⟩ :: s.moved }
  pure 0#32

def serveFlush : ServProg Word := do
  let o ← lookupOpen (← reqField 0)
  let s ← Prog.get
  onDisk (fileFlush (s.oFile o))
  pure 0#32

-- `fs_sync` writes the blocks of the cache back, which does not change what the server sees.
def serveSync : ServProg Word := pure 0#32

-- The request codes; `other` is a code without handler, as FSREQ_REMOVE.
inductive Fsreq
  | other
  | open
  | setSize
  | read
  | write
  | stat
  | flush
  | sync

-- One turn of `serve`, for a request that has an argument page; the entry is that whose page goes with
-- the reply.
def handler (noMem : Bool) : Fsreq → ServProg (Word × Option Nat)
  | .other   => Prog.throw E_INVAL
  | .open    => do
    let o ← serveOpen noMem
    pure (0#32, some o)
  | .setSize => do pure (← serveSetSize, none)
  | .read    => do pure (← serveRead, none)
  | .write   => do pure (← serveWrite, none)
  | .stat    => do pure (← serveStat, none)
  | .flush   => do pure (← serveFlush, none)
  | .sync    => do pure (← serveSync, none)

end Fs

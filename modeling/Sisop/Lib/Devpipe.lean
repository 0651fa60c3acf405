import Sisop.Inc.Mmu

-- devpipe_read and devpipe_write of lib/pipe.c, load by load and store by store

namespace Lib

open Inc Function

def PIPEBUFSIZ : Nat := 32

-- `p_buf` by the index: `off_t` is signed, and so is the remainder of a position.
structure Pipe where
  pRpos : Word
  pWpos : Word
  pBuf : Int → BitVec 8

-- A call of `devpipe_read`, with what it has stored in its buffer.
structure Read where
  n : Nat
  i : Nat
  buf : List (BitVec 8)

structure Write where
  buf : List (BitVec 8)
  i : Nat

-- What a process does next. The values that it has loaded are arguments.
inductive Reader
  | idle
  -- `p->p_rpos == p->p_wpos`
  | loadRpos (c : Read)
  | loadWpos (c : Read) (rpos : Word)
  | empty (c : Read)
  -- `buf[i] = p->p_buf[p->p_rpos % PIPEBUFSIZ]`
  | index (c : Read)
  | take (c : Read) (rpos : Word)
  -- `p->p_rpos++`
  | inc (c : Read)
  | storeRpos (c : Read) (rpos : Word)

inductive Writer
  | idle
  -- `p->p_wpos >= p->p_rpos + sizeof(p->p_buf)`
  | loadWpos (c : Write)
  | loadRpos (c : Write) (wpos : Word)
  | full (c : Write)
  -- `p->p_buf[p->p_wpos % PIPEBUFSIZ] = buf[i]`
  | index (c : Write)
  | put (c : Write) (wpos : Word)
  -- `p->p_wpos++`
  | inc (c : Write)
  | storeWpos (c : Write) (wpos : Word)

-- The page of a pipe, the process that reads, the process that writes, and the bytes of the calls that
-- have returned: those that `devpipe_read` has returned, and those that `devpipe_write` has taken from
-- its buffer; `codes` is what `devpipe_write` has returned.
structure Channel where
  pipe : Pipe
  reader : Reader
  writer : Writer
  returned : List (BitVec 8)
  written : List (BitVec 8)
  codes : List Nat

-- `pos % PIPEBUFSIZ`
def pipeIndex (pos : Word) : Int := (pos.srem 32#32).toInt

namespace Channel

variable (s : Channel)

def endRead (c : Read) : Channel :=
  { s with reader := .idle, returned := s.returned ++ c.buf.take c.i }

-- `r` is the result of the call.
def endWrite (c : Write) (r : Nat) : Channel :=
  { s with writer := .idle, written := s.written ++ c.buf.take c.i, codes := s.codes ++ [r] }

-- The head of the loop over `i`.
def forRead (c : Read) : Channel :=
  if c.i < c.n then { s with reader := .loadRpos c } else s.endRead c

def forWrite (c : Write) : Channel :=
  if c.i < c.buf.length then { s with writer := .loadWpos c } else s.endWrite c c.i

-- The next access of the reader to the page. A new call is for `n` bytes; `closed` is what
-- `_pipeisclosed` finds.
def stepRead (n : Nat) (closed : Bool) : Channel :=
  match s.reader with
  | .idle             => s.forRead ⟨n, 0, []⟩
  | .loadRpos c       => { s with reader := .loadWpos c s.pipe.pRpos }
  | .loadWpos c rpos  =>
    if rpos = s.pipe.pWpos then { s with reader := .empty c } else { s with reader := .index c }
  | .empty c          =>
    if 0 < c.i then s.endRead c
    else if closed then s.endRead c
    else { s with reader := .loadRpos c }
  | .index c          => { s with reader := .take c s.pipe.pRpos }
  | .take c rpos      =>
    { s with reader := .inc { c with buf := c.buf ++ [s.pipe.pBuf (pipeIndex rpos)] } }
  | .inc c            => { s with reader := .storeRpos c s.pipe.pRpos }
  | .storeRpos c rpos =>
    { s with pipe := { s.pipe with pRpos := rpos + 1 } }.forRead { c with i := c.i + 1 }

def stepWrite (buf : List (BitVec 8)) (closed : Bool) : Channel :=
  match s.writer with
  | .idle             => s.forWrite ⟨buf, 0⟩
  | .loadWpos c       => { s with writer := .loadRpos c s.pipe.pWpos }
  | .loadRpos c wpos  =>
    if s.pipe.pRpos + 32#32 ≤ wpos then { s with writer := .full c } else { s with writer := .index c }
  | .full c           => if closed then s.endWrite c 0 else { s with writer := .loadWpos c }
  | .index c          => { s with writer := .put c s.pipe.pWpos }
  | .put c wpos       =>
    { s with
      pipe   := { s.pipe with pBuf := update s.pipe.pBuf (pipeIndex wpos) (c.buf.getD c.i 0) }
      writer := .inc c }
  | .inc c            => { s with writer := .storeWpos c s.pipe.pWpos }
  | .storeWpos c wpos =>
    { s with pipe := { s.pipe with pWpos := wpos + 1 } }.forWrite { c with i := c.i + 1 }

inductive Event
  | reader (n : Nat) (closed : Bool)
  | writer (buf : List (BitVec 8)) (closed : Bool)

def next : Event → Channel
  | .reader n closed   => s.stepRead n closed
  | .writer buf closed => s.stepWrite buf closed

-- `pipe` has allocated the page, which is zero.
def init : Channel := ⟨⟨0, 0, fun _ => 0⟩, .idle, .idle, [], [], []⟩

end Channel

end Lib

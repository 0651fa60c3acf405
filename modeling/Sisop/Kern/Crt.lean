import Sisop.Kern.State
import Sisop.Library.Terminal

-- kern/console.c: the output to the serial port, the parallel port and the text display

namespace Kern

open Inc Function

abbrev Port := BitVec 16

def COM1 : Port := 0x3F8#16
def COM_TX : Port := 0#16
def LPT : Port := 0x378#16
def MONO_BASE : Port := 0x3B4#16
def CGA_BASE : Port := 0x3D4#16

def CRT_ROWS : Nat := 25
def CRT_COLS : Nat := 80
def CRT_SIZE : Nat := CRT_ROWS * CRT_COLS

-- The display that `cga_init` finds.
inductive Display
  | cga
  | mono
deriving DecidableEq

-- The memory of the display, and what has been sent to the ports.
structure Crt where
  display : Display
  crtBuf : Nat → BitVec 16
  crtPos : BitVec 16
  outs : List (Port × BitVec 8)

namespace Crt

def addr6845 (s : Crt) : Port :=
  match s.display with
  | .cga  => CGA_BASE
  | .mono => MONO_BASE

def outb (port : Port) (data : BitVec 8) (s : Crt) : Crt := { s with outs := s.outs ++ [(port, data)] }

-- `high` and `low` are the registers of the cursor.
def cgaInit (display : Display) (high low : BitVec 8) (crtBuf : Nat → BitVec 16)
    (outs : List (Port × BitVec 8)) : Crt :=
  let s : Crt := ⟨display, crtBuf, high ++ low, outs⟩
  (s.outb s.addr6845 14#8).outb s.addr6845 15#8

-- The port is waited for, but not longer than for a while.
def serialPutc (c : Word) (s : Crt) : Crt := s.outb (COM1 + COM_TX) (c.setWidth 8)

def lptPutc (c : Word) (s : Crt) : Crt :=
  ((s.outb LPT (c.setWidth 8)).outb (LPT + 2#16) (0x08#8 ||| 0x04#8 ||| 0x01#8)).outb (LPT + 2#16) 0x08#8

-- If no attribute is given, then black on white.
def attr (c : Word) : Word := if c &&& ~~~0xFF#32 = 0#32 then c ||| 0x0700#32 else c

theorem low_attr (c : Word) : attr c &&& 0xFF#32 = c &&& 0xFF#32 := by
  rw [attr]
  split
  · rw [BitVec.and_or_distrib_right]
    exact BitVec.or_zero
  · rfl

def move (crtPos : BitVec 16) (s : Crt) : Crt := { s with crtPos := crtPos }

def store (i : BitVec 16) (c : Word) (s : Crt) : Crt :=
  { s with crtBuf := update s.crtBuf i.toNat (c.setWidth 16) }

-- All lines move up by one.
def scroll (s : Crt) : Crt :=
  if s.crtPos.toNat ≥ CRT_SIZE then
    { s with
      crtBuf := fun i =>
        if i < CRT_SIZE - CRT_COLS then s.crtBuf (i + CRT_COLS)
        else if i < CRT_SIZE then 0x0720#16
        else s.crtBuf i
      crtPos := s.crtPos - BitVec.ofNat 16 CRT_COLS }
  else s

-- The cursor of the display.
def blink (s : Crt) : Crt :=
  (((s.outb s.addr6845 14#8).outb (s.addr6845 + 1#16) ((s.crtPos >>> 8).setWidth 8)).outb s.addr6845 15#8).outb
    (s.addr6845 + 1#16) (s.crtPos.setWidth 8)

mutual

def cgaPutc (c : Word) (s : Crt) : Crt :=
  let ch := attr c
  let cols := BitVec.ofNat 16 CRT_COLS
  let s :=
    if ch &&& 0xFF#32 = 0x08#32 then
      if s.crtPos > 0#16 then
        (s.move (s.crtPos - 1#16)).store (s.crtPos - 1#16) (ch &&& ~~~0xFF#32 ||| 0x20#32)
      else s
    else if ch &&& 0xFF#32 = 0x0A#32 then s.move (s.crtPos + cols - (s.crtPos + cols) % cols)
    else if ch &&& 0xFF#32 = 0x0D#32 then s.move (s.crtPos - s.crtPos % cols)
    else if ch &&& 0xFF#32 = 0x09#32 then
      consPutc 0x20#32 (consPutc 0x20#32 (consPutc 0x20#32 (consPutc 0x20#32 (consPutc 0x20#32 s))))
    else (s.store s.crtPos ch).move (s.crtPos + 1#16)
  s.scroll.blink
termination_by (if c &&& 0xFF#32 = 0x09#32 then 1 else 0, 0)
decreasing_by
  all_goals
    rename_i h
    rw [low_attr] at h
    simp [h, Prod.lex_def]

def consPutc (c : Word) (s : Crt) : Crt := cgaPutc c (lptPutc c (serialPutc c s))
termination_by (if c &&& 0xFF#32 = 0x09#32 then 1 else 0, 1)
decreasing_by simp [Prod.lex_def]

end

-- The characters `cs`, one after the other.
def puts (cs : List Word) (s : Crt) : Crt := cs.foldl (fun s c => consPutc c s) s

end Crt

-- What the devices do with what they are sent: the bytes on the serial line, those that the printer takes
-- from its data register at a strobe, and the registers of the display.
structure Devices where
  serial : List (BitVec 8)
  data : BitVec 8
  printed : List (BitVec 8)
  index : BitVec 8
  high : BitVec 8
  low : BitVec 8

namespace Devices

def outb (addr : Port) (d : Devices) (o : Port × BitVec 8) : Devices :=
  if o.fst = COM1 + COM_TX then { d with serial := d.serial ++ [o.snd] }
  else if o.fst = LPT then { d with data := o.snd }
  else if o.fst = LPT + 2#16 then
    if o.snd &&& 1#8 = 1#8 then { d with printed := d.printed ++ [d.data] } else d
  else if o.fst = addr then { d with index := o.snd }
  else if o.fst = addr + 1#16 then
    if d.index = 14#8 then { d with high := o.snd }
    else if d.index = 15#8 then { d with low := o.snd }
    else d
  else d

def cursor (d : Devices) : BitVec 16 := d.high ++ d.low

end Devices

namespace Crt

-- The devices, which have been in the state `d` before anything was sent.
def devices (s : Crt) (d : Devices) : Devices := s.outs.foldl (.outb s.addr6845) d

def screen (s : Crt) : Library.Terminal.Screen (BitVec 16) := ⟨s.crtBuf, s.crtPos.toNat⟩

end Crt

-- What a character is for: what it does on the display, where a tab is five blanks, and below what it sends
-- over the lines.
def crtOps (c : Word) : List (Library.Terminal.Op (BitVec 16)) :=
  let ch := Crt.attr c
  if c &&& 0xFF#32 = 0x08#32 then [.back ((ch &&& ~~~0xFF#32 ||| 0x20#32).setWidth 16)]
  else if c &&& 0xFF#32 = 0x0A#32 then [.newline]
  else if c &&& 0xFF#32 = 0x0D#32 then [.ret]
  else if c &&& 0xFF#32 = 0x09#32 then List.replicate 5 (.glyph 0x0720#16)
  else [.glyph (ch.setWidth 16)]

-- A character that is written as it is.
def isGlyph (c : Word) : Prop := c &&& 0xFF#32 ∉ [0x08#32, 0x09#32, 0x0A#32, 0x0D#32]

-- It stands on the display with its attribute.
def glyph (c : Word) : BitVec 16 := (Crt.attr c).setWidth 16

def lineBytes (c : Word) : List (BitVec 8) :=
  c.setWidth 8 :: if c &&& 0xFF#32 = 0x09#32 then List.replicate 5 0x20#8 else []

end Kern

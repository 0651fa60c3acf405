import Sisop.Kern.Console

-- kern/console.c: the keyboard

namespace Kern.Kbd

open Inc

def SHIFT : Word := 0x01#32
def CTL : Word := 0x02#32
def ALT : Word := 0x04#32
def CAPSLOCK : Word := 0x08#32
def NUMLOCK : Word := 0x10#32
def SCROLLLOCK : Word := 0x20#32
def E0ESC : Word := 0x40#32

def KEY_HOME : BitVec 8 := 0xE0#8
def KEY_END : BitVec 8 := 0xE1#8
def KEY_UP : BitVec 8 := 0xE2#8
def KEY_DN : BitVec 8 := 0xE3#8
def KEY_LF : BitVec 8 := 0xE4#8
def KEY_RT : BitVec 8 := 0xE5#8
def KEY_PGUP : BitVec 8 := 0xE6#8
def KEY_PGDN : BitVec 8 := 0xE7#8
def KEY_INS : BitVec 8 := 0xE8#8
def KEY_DEL : BitVec 8 := 0xE9#8

def shiftcode (data : BitVec 8) : Word :=
  if data = 0x1D#8 ∨ data = 0x9D#8 then CTL
  else if data = 0x2A#8 ∨ data = 0x36#8 then SHIFT
  else if data = 0x38#8 ∨ data = 0xB8#8 then ALT
  else 0#32

def togglecode (data : BitVec 8) : Word :=
  if data = 0x3A#8 then CAPSLOCK
  else if data = 0x45#8 then NUMLOCK
  else if data = 0x46#8 then SCROLLLOCK
  else 0#32

def normalmap (k : BitVec 8) : BitVec 8 :=
  match k.toNat with
  | 0x9C => 0x0A#8
  | 0xB5 => 0x2F#8
  | 0xC7 => KEY_HOME
  | 0xC8 => KEY_UP
  | 0xC9 => KEY_PGUP
  | 0xCB => KEY_LF
  | 0xCD => KEY_RT
  | 0xCF => KEY_END
  | 0xD0 => KEY_DN
  | 0xD1 => KEY_PGDN
  | 0xD2 => KEY_INS
  | 0xD3 => KEY_DEL
  | k    => [
      0x00#8, 0x1B#8, 0x31#8, 0x32#8, 0x33#8, 0x34#8, 0x35#8, 0x36#8,
      0x37#8, 0x38#8, 0x39#8, 0x30#8, 0x2D#8, 0x3D#8, 0x08#8, 0x09#8,
      0x71#8, 0x77#8, 0x65#8, 0x72#8, 0x74#8, 0x79#8, 0x75#8, 0x69#8,
      0x6F#8, 0x70#8, 0x5B#8, 0x5D#8, 0x0A#8, 0x00#8, 0x61#8, 0x73#8,
      0x64#8, 0x66#8, 0x67#8, 0x68#8, 0x6A#8, 0x6B#8, 0x6C#8, 0x3B#8,
      0x27#8, 0x60#8, 0x00#8, 0x5C#8, 0x7A#8, 0x78#8, 0x63#8, 0x76#8,
      0x62#8, 0x6E#8, 0x6D#8, 0x2C#8, 0x2E#8, 0x2F#8, 0x00#8, 0x2A#8,
      0x00#8, 0x20#8, 0x00#8, 0x00#8, 0x00#8, 0x00#8, 0x00#8, 0x00#8,
      0x00#8, 0x00#8, 0x00#8, 0x00#8, 0x00#8, 0x00#8, 0x00#8, 0x37#8,
      0x38#8, 0x39#8, 0x2D#8, 0x34#8, 0x35#8, 0x36#8, 0x2B#8, 0x31#8,
      0x32#8, 0x33#8, 0x30#8, 0x2E#8, 0x00#8, 0x00#8, 0x00#8, 0x00#8].getD k 0#8

def shiftmap (k : BitVec 8) : BitVec 8 :=
  match k.toNat with
  | 0x9C => 0x0A#8
  | 0xB5 => 0x2F#8
  | 0xC7 => KEY_HOME
  | 0xC8 => KEY_UP
  | 0xC9 => KEY_PGUP
  | 0xCB => KEY_LF
  | 0xCD => KEY_RT
  | 0xCF => KEY_END
  | 0xD0 => KEY_DN
  | 0xD1 => KEY_PGDN
  | 0xD2 => KEY_INS
  | 0xD3 => KEY_DEL
  | k    => [
      0x00#8, 0x1B#8, 0x21#8, 0x40#8, 0x23#8, 0x24#8, 0x25#8, 0x5E#8,
      0x26#8, 0x2A#8, 0x28#8, 0x29#8, 0x5F#8, 0x2B#8, 0x08#8, 0x09#8,
      0x51#8, 0x57#8, 0x45#8, 0x52#8, 0x54#8, 0x59#8, 0x55#8, 0x49#8,
      0x4F#8, 0x50#8, 0x7B#8, 0x7D#8, 0x0A#8, 0x00#8, 0x41#8, 0x53#8,
      0x44#8, 0x46#8, 0x47#8, 0x48#8, 0x4A#8, 0x4B#8, 0x4C#8, 0x3A#8,
      0x22#8, 0x7E#8, 0x00#8, 0x7C#8, 0x5A#8, 0x58#8, 0x43#8, 0x56#8,
      0x42#8, 0x4E#8, 0x4D#8, 0x3C#8, 0x3E#8, 0x3F#8, 0x00#8, 0x2A#8,
      0x00#8, 0x20#8, 0x00#8, 0x00#8, 0x00#8, 0x00#8, 0x00#8, 0x00#8,
      0x00#8, 0x00#8, 0x00#8, 0x00#8, 0x00#8, 0x00#8, 0x00#8, 0x37#8,
      0x38#8, 0x39#8, 0x2D#8, 0x34#8, 0x35#8, 0x36#8, 0x2B#8, 0x31#8,
      0x32#8, 0x33#8, 0x30#8, 0x2E#8, 0x00#8, 0x00#8, 0x00#8, 0x00#8].getD k 0#8

def ctlmap (k : BitVec 8) : BitVec 8 :=
  match k.toNat with
  | 0x97 => KEY_HOME
  | 0xB5 => 0xEF#8
  | 0xC8 => KEY_UP
  | 0xC9 => KEY_PGUP
  | 0xCB => KEY_LF
  | 0xCD => KEY_RT
  | 0xCF => KEY_END
  | 0xD0 => KEY_DN
  | 0xD1 => KEY_PGDN
  | 0xD2 => KEY_INS
  | 0xD3 => KEY_DEL
  | k    => [
      0x00#8, 0x00#8, 0x00#8, 0x00#8, 0x00#8, 0x00#8, 0x00#8, 0x00#8,
      0x00#8, 0x00#8, 0x00#8, 0x00#8, 0x00#8, 0x00#8, 0x00#8, 0x00#8,
      0x11#8, 0x17#8, 0x05#8, 0x12#8, 0x14#8, 0x19#8, 0x15#8, 0x09#8,
      0x0F#8, 0x10#8, 0x00#8, 0x00#8, 0x0D#8, 0x00#8, 0x01#8, 0x13#8,
      0x04#8, 0x06#8, 0x07#8, 0x08#8, 0x0A#8, 0x0B#8, 0x0C#8, 0x00#8,
      0x00#8, 0x00#8, 0x00#8, 0x1C#8, 0x1A#8, 0x18#8, 0x03#8, 0x16#8,
      0x02#8, 0x0E#8, 0x0D#8, 0x00#8, 0x00#8, 0xEF#8, 0x00#8, 0x00#8].getD k 0#8

def charcode (i : Word) : BitVec 8 → BitVec 8 :=
  if i = 0#32 then normalmap else if i = 1#32 then shiftmap else ctlmap

def swapCase (c : BitVec 8) : BitVec 8 :=
  if 0x61#8 ≤ c ∧ c ≤ 0x7A#8 then c - 0x20#8
  else if 0x41#8 ≤ c ∧ c ≤ 0x5A#8 then c + 0x20#8
  else c

-- The static variable `shift` after a byte of the keyboard, and what is returned.
def kbdProcData (shift : Word) (data : BitVec 8) : Word × BitVec 8 :=
  if data = 0xE0#8 then (shift ||| E0ESC, 0#8)
  else if data &&& 0x80#8 ≠ 0#8 then
    let data := if shift &&& E0ESC ≠ 0#32 then data else data &&& 0x7F#8
    (shift &&& ~~~(shiftcode data ||| E0ESC), 0#8)
  else
    let (data, shift) :=
      if shift &&& E0ESC ≠ 0#32 then (data ||| 0x80#8, shift &&& ~~~E0ESC) else (data, shift)
    let shift := (shift ||| shiftcode data) ^^^ togglecode data
    let c := charcode (shift &&& (CTL ||| SHIFT)) data
    (shift, if shift &&& CAPSLOCK ≠ 0#32 then swapCase c else c)

-- What `kbd_proc_data` returns for the bytes that are in the keyboard, before it returns -1.
def kbdChars : Word → List (BitVec 8) → Word × List (BitVec 8)
  | shift, []            => (shift, [])
  | shift, data :: datas =>
    let (shift, c) := kbdProcData shift data
    let (shift, cs) := kbdChars shift datas
    (shift, c :: cs)

def kbdIntr (cons : Cons) (shift : Word) (datas : List (BitVec 8)) : Word × Cons :=
  let (shift, cs) := kbdChars shift datas
  (shift, consIntr cons cs)

-- One interrupt after the other.
def kbdIntrs (cons : Cons) (shift : Word) : List (List (BitVec 8)) → Word × Cons
  | []              => (shift, cons)
  | datas :: chunks =>
    let (shift, cons) := kbdIntr cons shift datas
    kbdIntrs cons shift chunks

-- A key. Some are told from others by a prefix. No key has the code that would make its release a prefix.
structure Key where
  ext : Bool
  code : BitVec 7
  ne : code ≠ 0x60#7

-- The number of a key in the tables.
def Key.index (k : Key) : BitVec 8 := if k.ext then k.code.setWidth 8 ||| 0x80#8 else k.code.setWidth 8

inductive KeyEvent
  | press (k : Key)
  | release (k : Key)

namespace KeyEvent

def key : KeyEvent → Key
  | press k | release k => k

def isPress : KeyEvent → Bool
  | press _   => true
  | release _ => false

def toggles (m : Word) (e : KeyEvent) : Bool := e.isPress && togglecode e.key.index = m

-- What the keyboard sends.
def scancodes (e : KeyEvent) : List (BitVec 8) :=
  (if e.key.ext then [0xE0#8] else []) ++
    [if e.isPress then e.key.code.setWidth 8 else e.key.code.setWidth 8 ||| 0x80#8]

end KeyEvent

-- What the keys mean, from what has happened to them, the last event first. A modifier is held when the
-- last event of a key with it was a press. A toggle is on after an odd number of presses.
def held (m : Word) (h : List KeyEvent) : Bool :=
  (h.find? fun e => shiftcode e.key.index = m).any KeyEvent.isPress

def toggled (m : Word) (h : List KeyEvent) : Bool :=
  h.countP (·.toggles m) % 2 = 1

def layout (h : List KeyEvent) (k : Key) : BitVec 8 :=
  let c := if held CTL h then ctlmap k.index else if held SHIFT h then shiftmap k.index else normalmap k.index
  if toggled CAPSLOCK h then swapCase c else c

-- What is typed by the events after `h`.
def typed (h : List KeyEvent) : List KeyEvent → List (BitVec 8)
  | []      => []
  | e :: es => stored (if e.isPress then [layout (e :: h) e.key] else []) ++ typed (e :: h) es

end Kern.Kbd

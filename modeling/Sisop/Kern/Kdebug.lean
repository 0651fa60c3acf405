import Sisop.Library.Prog
import Sisop.Library.While
import Sisop.Kern.Pmap

namespace Kern.Kdebug

open Inc Library

def N_FUN   : Nat := 0x24
def N_SLINE : Nat := 0x44
def N_SO    : Nat := 0x64
def N_SOL   : Nat := 0x84
def N_PSYM  : Nat := 0xa0

structure Stab where
  n_strx  : Word
  n_type  : BitVec 8
  n_desc  : BitVec 16
  n_value : Word
deriving DecidableEq

-- The fields of an entry that the kernel reads.
inductive StabField
  | strx
  | type
  | desc
  | value
deriving DecidableEq

-- The sum of two ints.
def intAdd (x y : Int) : Int := (x + y).bmod (2 ^ 32)

section Search

-- The entry at each index of the table, and outside of it whatever lies there.
variable (stabs : Int → Stab) (type : Int)

def isType (i : Int) : Prop := (stabs i).n_type.toNat = type

instance : DecidablePred (isType stabs type) := fun _ => inferInstanceAs (Decidable (_ = _))

-- Goes back from `l + k - 1` to an entry of the type, but not below `l`, which is `l - 1` if there is
-- none; and what it reads.
def scanBack (l : Int) : Nat → Int × List (Int × StabField)
  | 0     => (l - 1, [])
  | k + 1 =>
    if isType stabs type (l + k) then (l + k, [(l + k, .type)])
    else
      let (m, reads) := scanBack l k
      (m, (l + k, .type) :: reads)

-- The variables of `stab_binsearch` in its first loop, and the reads of the table until then.
structure Search where
  l           : Int
  r           : Int
  left        : Int
  right       : Int
  any_matches : Bool
  addr        : Word
  reads       : List (Int × StabField)

def searchStart (left right : Int) (addr : Word) : Search where
  l           := left
  r           := right
  left        := left
  right       := right
  any_matches := false
  addr        := addr
  reads       := []

-- One turn of the first loop of `stab_binsearch`.
def searchStep (s : Search) : Search :=
  let true_m := (intAdd s.l s.r).tdiv 2
  let (m, scanned) := scanBack stabs type s.l (true_m + 1 - s.l).toNat
  let reads := s.reads ++ scanned
  if m < s.l then { s with l := true_m + 1, reads := reads }
  else if (stabs m).n_value < s.addr then
    { s with any_matches := true, left := m, l := true_m + 1, reads := reads ++ [(m, .value)] }
  else if s.addr < (stabs m).n_value then
    { s with any_matches := true, right := m - 1, r := m - 1,
             reads := reads ++ [(m, .value), (m, .value)] }
  else
    { s with any_matches := true, left := m, l := m, addr := s.addr + 1,
             reads := reads ++ [(m, .value), (m, .value)] }

-- At most `fuel` turns of that loop.
def searchLoop (fuel : Nat) (s : Search) : Search :=
  whileLoop (fun s : Search => s.l ≤ s.r) (searchStep stabs type) fuel s

-- The rest of `stab_binsearch`: what it leaves in `*region_left` and `*region_right`, and what it reads.
def searchFinish (s : Search) : (Int × Int) × List (Int × StabField) :=
  if !s.any_matches then ((s.left, s.left - 1), [])
  else if s.left < s.right then
    let (l, reads) := scanBack stabs type (s.left + 1) (s.right - s.left).toNat
    ((l, s.right), reads)
  else ((s.right, s.right), [])

-- `none` is a search that has not ended after `fuel` turns.
def stabBinsearch (fuel : Nat) (left right : Int) (addr : Word) : Option (Int × Int) :=
  let s := searchLoop stabs type fuel (searchStart left right addr)
  if s.l ≤ s.r then none else some (searchFinish stabs type s).1

end Search

section Eip

structure UserStabData where
  stabs       : Word
  stab_end    : Word
  stabstr     : Word
  stabstr_end : Word

-- The string "<unknown>" of the kernel, or one in the memory of the user.
inductive Name
  | unknown
  | user (a : Word)

structure Eipdebuginfo where
  eip_file       : Name
  eip_line       : Nat
  eip_fn_name    : Name
  eip_fn_namelen : Int
  eip_fn_addr    : Word
  eip_fn_narg    : Nat

-- The byte ranges that `user_mem_check` has let pass, and what is known of the address.
structure Eip where
  verified : List (Word × Word)
  info     : Eipdebuginfo

-- Why a run ends before its end: the code returns -1, or the turns allowed to a loop are used up, or
-- the next read is of a byte that has not been verified. The code itself does not stop at such a read.
inductive Stop
  | negative
  | fuel
  | unverified
deriving DecidableEq

abbrev EipProg := Prog Eip Stop

def USTABDATA : Word := BitVec.ofNat 32 (PTSIZE / 2)

def StabField.offset : StabField → Word
  | strx  => 0#32
  | type  => 4#32
  | desc  => 6#32
  | value => 8#32

def StabField.size : StabField → Nat
  | strx  => 4
  | type  => 1
  | desc  => 2
  | value => 4

def stabAddr (stabs : Word) (i : Int) : Word := stabs + BitVec.ofInt 32 (12 * i)

-- The difference of two pointers to entries of 12 bytes: a shift by 2, and the inverse of 3.
def stabDiff (x y : Word) : Word := (x - y).sshiftRight 2 * 0xAAAAAAAB#32

-- The number of entries, as the `int` that it is used as.
def count (usd : UserStabData) : Int := (stabDiff usd.stab_end usd.stabs).toInt

def Covers (verified : List (Word × Word)) (a : Word) : Prop := ∃ r ∈ verified, a - r.1 < r.2

instance {verified : List (Word × Word)} : DecidablePred (Covers verified) :=
  fun _ => inferInstanceAs (Decidable (∃ _ ∈ _, _))

-- Whether all bytes of a field of an entry have been verified.
def CoversField (verified : List (Word × Word)) (stabs : Word) (x : Int × StabField) : Prop :=
  ∀ k < x.2.size, Covers verified (stabAddr stabs x.1 + x.2.offset + BitVec.ofNat 32 k)

instance {verified : List (Word × Word)} {stabs : Word} : DecidablePred (CoversField verified stabs) :=
  fun _ => inferInstanceAs (Decidable (∀ _ < _, _))

-- A read of `size` bytes.
def access (a : Word) (size : Nat) : EipProg Unit := do
  let e ← Prog.get
  if ∀ k < size, Covers e.verified (a + BitVec.ofNat 32 k) then pure () else Prog.throw .unverified

def accessFields (stabs : Word) (reads : List (Int × StabField)) : EipProg Unit := do
  let e ← Prog.get
  if ∀ x ∈ reads, CoversField e.verified stabs x then pure () else Prog.throw .unverified

def setInfo (f : Eipdebuginfo → Eipdebuginfo) : EipProg Unit :=
  Prog.modify fun e => { e with info := f e.info }

-- The memory as the user sees it.
variable (mem : Word → BitVec 8)

def read32 (a : Word) : Word := mem (a + 3) ++ mem (a + 2) ++ mem (a + 1) ++ mem a

def userStabData : UserStabData where
  stabs       := read32 mem USTABDATA
  stab_end    := read32 mem (USTABDATA + 4)
  stabstr     := read32 mem (USTABDATA + 8)
  stabstr_end := read32 mem (USTABDATA + 12)

def stabAt (stabs : Word) (i : Int) : Stab where
  n_strx  := read32 mem (stabAddr stabs i)
  n_type  := mem (stabAddr stabs i + 4)
  n_desc  := mem (stabAddr stabs i + 7) ++ mem (stabAddr stabs i + 6)
  n_value := read32 mem (stabAddr stabs i + 8)

-- `stab_binsearch` on the table of the user.
def search (fuel : Nat) (stabs : Word) (left right : Int) (type : Nat) (addr : Word) :
    EipProg (Int × Int) := do
  let s := searchLoop (stabAt mem stabs) type fuel (searchStart left right addr)
  accessFields stabs s.reads
  if s.l ≤ s.r then Prog.throw .fuel else
    let finish := searchFinish (stabAt mem stabs) type s
    accessFields stabs finish.2
    pure finish.1

-- The name at offset `n_strx` of the string table, if that is an offset of it.
def nameOf (usd : UserStabData) (i : Int) : EipProg Name := do
  accessFields usd.stabs [(i, .strx)]
  if (stabAt mem usd.stabs i).n_strx < usd.stabstr_end - usd.stabstr then
    accessFields usd.stabs [(i, .strx)]
    pure (.user (usd.stabstr + (stabAt mem usd.stabs i).n_strx))
  else pure .unknown

def strfind (c : BitVec 8) : Nat → Word → EipProg Word
  | 0,        _ => Prog.throw .fuel
  | fuel + 1, s => do
    access s 1
    if mem s = 0 ∨ mem s = c then pure s else strfind c fuel (s + 1)

def namelen (fuel : Nat) : Name → EipProg Int
  | .unknown => pure 9
  | .user a  => do
    let s ← strfind mem 0x3A#8 fuel a
    pure (s - a).toInt

-- Goes back from `lfile + k - 1` to a stab that names a file.
def fileScan (stabs : Word) (lfile : Int) : Nat → EipProg Int
  | 0     => pure (lfile - 1)
  | k + 1 => do
    let lline := lfile + k
    accessFields stabs [(lline, .type)]
    if isType (stabAt mem stabs) N_SOL lline then pure lline
    else
      accessFields stabs [(lline, .type)]
      if isType (stabAt mem stabs) N_SO lline then
        accessFields stabs [(lline, .value)]
        if (stabAt mem stabs lline).n_value ≠ 0 then pure lline else fileScan stabs lfile k
      else fileScan stabs lfile k

-- Counts the parameters from `rfun - k` on.
def argScan (stabs : Word) (rfun : Int) : Nat → EipProg Nat
  | 0     => pure 0
  | k + 1 => do
    accessFields stabs [(rfun - (k + 1), .type)]
    if isType (stabAt mem stabs) N_PSYM (rfun - (k + 1)) then
      let narg ← argScan stabs rfun k
      pure (narg + 1)
    else pure 0

-- The name and the address to go on with, and the range in which to search for the line.
structure FunctionInfo where
  eip_fn_name : Name
  addr        : Word
  range       : Int × Int

def functionOf (usd : UserStabData) (file fn : Int × Int) (addr : Word) : EipProg FunctionInfo :=
  if fn.1 ≤ fn.2 then do
    let name ← nameOf mem usd fn.1
    accessFields usd.stabs [(fn.1, .value)]
    let value := (stabAt mem usd.stabs fn.1).n_value
    setInfo fun info => { info with eip_fn_name := name, eip_fn_addr := value }
    pure ⟨name, addr - value, fn⟩
  else do
    setInfo fun info => { info with eip_fn_addr := addr }
    pure ⟨.unknown, addr, file⟩

def setLine (usd : UserStabData) (line : Int × Int) : EipProg Unit :=
  if line.1 ≤ line.2 then do
    accessFields usd.stabs [(line.1, .desc)]
    setInfo fun info => { info with eip_line := (stabAt mem usd.stabs line.1).n_desc.toNat }
  else pure ()

def setFile (usd : UserStabData) (lfile lline : Int) : EipProg Unit := do
  let lline ← fileScan mem usd.stabs lfile (lline + 1 - lfile).toNat
  if lline < lfile then pure () else
    let name ← nameOf mem usd lline
    setInfo fun info => { info with eip_file := name }

def setArgs (usd : UserStabData) (fn : Int × Int) : EipProg Unit :=
  if fn.1 < fn.2 then do
    let narg ← argScan mem usd.stabs fn.2 (fn.2 - (fn.1 + 1)).toNat
    setInfo fun info => { info with eip_fn_narg := narg }
  else pure ()

-- `debuginfo_eip` from the search for the file on.
def lookup (fuel : Nat) (usd : UserStabData) (addr : Word) : EipProg Unit := do
  let file ← search mem fuel usd.stabs 0 (count usd - 1) N_SO addr
  if file.1 = 0 then Prog.throw .negative else
    let fn ← search mem fuel usd.stabs file.1 file.2 N_FUN addr
    let function ← functionOf mem usd file fn addr
    let len ← namelen mem fuel function.eip_fn_name
    setInfo fun info => { info with eip_fn_namelen := len }
    let line ← search mem fuel usd.stabs function.range.1 function.range.2 N_SLINE function.addr
    setLine mem usd line
    setFile mem usd file.1 line.1
    setArgs mem usd fn

-- The page tables that `user_mem_check` looks at.
variable (m : Machine) (s : State) (pgdir : Nat)

def checkMem (va len : Word) : EipProg Unit :=
  match userMemCheck m s pgdir va len 0#32 with
  | none          => Prog.panic
  | some (some _) => Prog.throw .negative
  | some none     => Prog.modify fun e => { e with verified := (va, len) :: e.verified }

-- `debuginfo_eip` up to the checks of the string table.
def validate : EipProg UserStabData := do
  checkMem m s pgdir USTABDATA 16#32
  access USTABDATA 16
  let usd := userStabData mem
  checkMem m s pgdir usd.stabs (stabDiff usd.stab_end usd.stabs)
  checkMem m s pgdir usd.stabstr (usd.stabstr_end - usd.stabstr)
  if usd.stabstr_end ≤ usd.stabstr then Prog.throw .negative else
    access (usd.stabstr_end - 1) 1
    if mem (usd.stabstr_end - 1) ≠ 0 then Prog.throw .negative else pure usd

-- `debuginfo_eip` for an address below `ULIM`.
def debuginfoEip (fuel : Nat) (addr : Word) : EipProg Unit := do
  let usd ← validate mem m s pgdir
  lookup mem fuel usd addr

def eipStart (addr : Word) : Eip where
  verified := []
  info     :=
    { eip_file       := .unknown
      eip_line       := 0
      eip_fn_name    := .unknown
      eip_fn_namelen := 9
      eip_fn_addr    := addr
      eip_fn_narg    := 0 }

end Eip

end Kern.Kdebug

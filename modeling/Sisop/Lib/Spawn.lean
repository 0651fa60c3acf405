import Sisop.Inc.Mmu
import Sisop.Library.Memory
import Sisop.Library.Prog

-- lib/spawn.c

namespace Lib.Spawn

open Library

abbrev Byte := BitVec 8

def PGSIZE : Nat := 4096
def UTEMP : Nat := 0x400000
def UTOP : Nat := 0xEEC00000
def USTACKTOP : Nat := UTOP - 2 * PGSIZE

def E_INVAL : Int := 3
def E_NO_MEM : Int := 4
def E_NOT_EXEC : Int := 16

def PTE_P : Nat := 0x1
def PTE_W : Nat := 0x2
def PTE_U : Nat := 0x4

def ELF_MAGIC : BitVec 32 := 0x464C457F
def ELF_PROG_LOAD : BitVec 32 := 1
def ELF_PROG_FLAG_WRITE : BitVec 32 := 2

-- The 32-bit sum and difference of unsigned numbers.
def add (a b : Nat) : Nat := (a + b) % 2 ^ 32
def sub (a b : Nat) : Nat := (a + 2 ^ 32 - b) % 2 ^ 32

def PGOFF (a : Nat) : Nat := a % PGSIZE
def ROUNDDOWN (a n : Nat) : Nat := a - a % n

-- The `off_t` with the given bits.
def off (a : Nat) : Int := if a % 2 ^ 32 < 2 ^ 31 then (a % 2 ^ 32 : Nat) else (a % 2 ^ 32 : Nat) - 2 ^ 32

-- The bytes of a mapped page from its start on, and its permissions.
structure Mapping where
  page : Memory
  perm : Nat

-- The pages of an environment by their number. Those from `UTOP` on are not its own.
structure Space where
  pages : Nat → Option Mapping
  user  : ∀ p, UTOP / PGSIZE ≤ p → pages p = none

def Space.empty : Space := ⟨fun _ => none, fun _ _ => rfl⟩

def Space.set (x : Space) (p : Nat) (y : Option Mapping) : Space where
  pages q := if q = p ∧ p < UTOP / PGSIZE then y else x.pages q
  user q h := by
    rw [if_neg (by omega)]
    exact x.user q h

-- The two environments. `stray` are the addresses outside of the page at `UTEMP` that `init_stack` has
-- written, and `headerReads` the offsets in `elf_buf` of the words of program headers that have been read.
structure State where
  parent : Space
  child : Space
  childExists : Bool
  fdOpen : Bool
  stray : List Nat
  headerReads : List Nat

namespace State

def setParent (s : State) (p : Nat) (y : Option Mapping) : State := { s with parent := s.parent.set p y }

def setChild (s : State) (p : Nat) (y : Option Mapping) : State := { s with child := s.child.set p y }

-- What is mapped at `UTEMP` in the parent.
def utemp (s : State) : Option Mapping := s.parent.pages (UTEMP / PGSIZE)

end State

-- A system call on an address of the child. Whether there is memory for it is up to the kernel: a negative
-- answer is a failure.
def check (answer : Int) (va : Nat) : Prog State Int Unit :=
  if UTOP ≤ va then .throw (-E_INVAL) else if answer < 0 then .throw answer else pure ()

def blank (perm : Nat) : Mapping := ⟨fun _ => 0, perm⟩

-- `sys_page_alloc(0, UTEMP, PTE_P | PTE_U | PTE_W)`
def allocTemp (answer : Int) : Prog State Int Unit := do
  check answer UTEMP
  .modify fun s => s.setParent (UTEMP / PGSIZE) (some (blank (PTE_P + PTE_U + PTE_W)))

-- `sys_page_alloc(child, va, perm)`
def allocChild (answer : Int) (va perm : Nat) : Prog State Int Unit := do
  check answer va
  .modify fun s => s.setChild (va / PGSIZE) (some (blank perm))

-- `sys_page_map(0, UTEMP, child, va, perm)`
def mapChild (answer : Int) (va perm : Nat) : Prog State Int Unit := do
  match (← .get).utemp with
  | none   => .throw (-E_INVAL)
  | some y =>
    check answer va
    .modify fun s => s.setChild (va / PGSIZE) (some ⟨y.page, perm⟩)

-- `sys_page_unmap(0, UTEMP)`
def unmapTemp : Prog State Int Unit := .modify fun s => s.setParent (UTEMP / PGSIZE) none

-- Stores the bytes from address `a` on, as far as they go into the page at `UTEMP`.
def storePage (a : Nat) (bs : List Byte) (m : Memory) : Memory := fun x =>
  if x < PGSIZE ∧ sub (UTEMP + x) a < bs.length then bs.getD (sub (UTEMP + x) a) 0 else m x

def storeBytes (a : Nat) (bs : List Byte) (s : State) : State :=
  { s.setParent (UTEMP / PGSIZE) (s.utemp.map fun y => { y with page := storePage a bs y.page }) with
    stray := ((List.range bs.length).map (add a)).filter (fun x => x < UTEMP ∨ UTEMP + PGSIZE ≤ x) ++ s.stray }

def storeWord (a v : Nat) : State → State :=
  storeBytes a ((List.range 4).map fun i => (BitVec.ofNat 32 v >>> (8 * i)).setWidth 8)

def UTEMP2USTACK (a : Nat) : Nat := sub (add a (USTACKTOP - PGSIZE)) UTEMP

-- The sum of the lengths of the strings with their terminators, as it is and in 32 bits.
def total (argv : List (List Byte)) : Nat := (argv.map fun arg => arg.length + 1).sum

-- The two answers are those of `sys_page_alloc` and `sys_page_map`; the result is `*init_esp`.
def init_stack (alloc map : Int) (argv : List (List Byte)) : Prog State Int Nat := do
  let string_store := sub (UTEMP + PGSIZE) (total argv % 2 ^ 32)
  let argv_store := sub (ROUNDDOWN string_store 4) (4 * (argv.length + 1) % 2 ^ 32)
  if sub argv_store 8 < UTEMP then .throw (-E_NO_MEM)
  else
    allocTemp alloc
    .modify fun s => (argv.zipIdx.foldl (fun (x : State × Nat) arg =>
      let s := storeWord (add argv_store (4 * arg.2)) (UTEMP2USTACK x.2) x.1
      (storeBytes x.2 (arg.1 ++ [0]) s, add x.2 (arg.1.length + 1))) (s, string_store)).1
    .modify (storeWord (add argv_store (4 * argv.length)) 0)
    .modify (storeWord (sub argv_store 4) (UTEMP2USTACK argv_store))
    .modify (storeWord (sub argv_store 8) argv.length)
    match ← .attempt (mapChild map (USTACKTOP - PGSIZE) (PTE_P + PTE_U + PTE_W)) with
    | .error r =>
      unmapTemp
      .throw r
    | .ok _ =>
      unmapTemp
      pure (UTEMP2USTACK (sub argv_store 8))

-- The answers for one page of a segment: of `sys_page_alloc`, `readn` and `sys_page_map`, and what a `readn`
-- that fails leaves in its buffer.
structure PageAnswer where
  alloc : Int
  read : Int
  map : Int
  torn : Memory

-- `seek(fd, offset)` and `readn(fd, UTEMP, n)`: what there is of the file from a nonnegative offset on.
def readTemp (ans : PageAnswer) (file : List Byte) (offset : Int) (n : Nat) : Prog State Int Unit := do
  let setPage (f : Memory → Memory) : Prog State Int Unit := .modify fun s =>
    s.setParent (UTEMP / PGSIZE) (s.utemp.map fun y => { y with page := f y.page })
  if offset < 0 then .throw (-E_INVAL)
  else if ans.read < 0 then
    setPage fun m x => if x < n then ans.torn x else m x
    .throw ans.read
  else
    setPage fun m x => if x < n ∧ offset.toNat + x < file.length then file.getD (offset.toNat + x) 0 else m x

section Segment

variable (ans : Nat → PageAnswer) (file : List Byte) (va memsz filesz fileoffset perm : Nat)

-- The body of the loop.
def segmentPage (i : Nat) : Prog State Int Unit :=
  let ans := ans (i / PGSIZE)
  if filesz ≤ i then allocChild ans.alloc (add va i) perm
  else do
    allocTemp ans.alloc
    readTemp ans file (off (add fileoffset i)) (min PGSIZE (filesz - i))
    match ← .attempt (mapChild ans.map (add va i) perm) with
    | .error _ => .panic
    | .ok _    => unmapTemp

-- At most the given number of turns; whether the loop has ended.
def segmentLoop : Nat → Nat → Prog State Int Bool
  | 0,     _ => pure false
  | n + 1, i =>
    if i < memsz then do
      segmentPage ans file va filesz fileoffset perm i
      segmentLoop n (add i PGSIZE)
    else pure true

-- With a bound for the turns that is more than there are pages.
def map_segment : Prog State Int Bool :=
  let i := PGOFF va
  segmentLoop ans file (sub va i) (add memsz i) (add filesz i) (sub fileoffset i) perm (2 ^ 20 + 1) 0

end Segment

-- The answers of the file server and the kernel, for `map_segment` by the number of the program header.
structure Answers where
  open_ : Int
  header : Int
  exofork : Int
  stackAlloc : Int
  stackMap : Int
  page : Nat → Nat → PageAnswer

section Spawn

variable (ans : Answers) (file : List Byte) (argv : List (List Byte))

-- `elf_buf` and what lies around it on the stack, by the offset from it.
variable (stack : Memory)

def elfBuf : Memory := fun x => if x % 2 ^ 32 < min 512 file.length then file.getD (x % 2 ^ 32) 0 else stack (x % 2 ^ 32)

def e_magic : BitVec 32 := (elfBuf file stack).load32 0
def e_phoff : Nat := ((elfBuf file stack).load32 28).toNat
def e_phnum : Nat := (elfBuf file stack 45 ++ elfBuf file stack 44).toNat

-- The offset of a field of the program header with the given number.
def headerField (k o : Nat) : Nat := add (e_phoff file stack) (32 * k + o)

def headerWord (k o : Nat) : BitVec 32 := (elfBuf file stack).load32 (headerField file stack k o)

def isLoad (k : Nat) : Prop := headerWord file stack k 0 = ELF_PROG_LOAD

instance : DecidablePred (isLoad file stack) := fun _ => inferInstanceAs (Decidable (_ = _))

def readHeader (k : Nat) (os : List Nat) : Prog State Int Unit :=
  .modify fun s => { s with headerReads := s.headerReads ++ os.map (headerField file stack k) }

-- The call of `map_segment` for a program header.
def headerSegment (k : Nat) : Prog State Int Bool :=
  let word (o : Nat) : Nat := (headerWord file stack k o).toNat
  let perm := PTE_P + PTE_U + if headerWord file stack k 24 &&& ELF_PROG_FLAG_WRITE ≠ 0 then PTE_W else 0
  map_segment (ans.page k) file (word 8) (word 20) (word 16) (word 4) perm

-- The program headers from `k` on, of which there are `n`.
def segments : Nat → Nat → Prog State Int Unit
  | 0,     _ => pure ()
  | n + 1, k => do
    readHeader file stack k [0]
    if isLoad file stack k then
      readHeader file stack k [24, 8, 20, 16, 4]
      match ← .attempt (headerSegment ans file stack k) with
      | .error r =>
        .modify fun s => { s with childExists := false, fdOpen := false }
        .throw r
      | .ok _    => segments n (k + 1)
    else segments n (k + 1)

def spawn : Prog State Int Int := do
  if ans.open_ < 0 then .throw ans.open_
  else
    .modify fun s => { s with fdOpen := true }
    if ans.header < 0 ∨ file.length < 512 ∨ e_magic file stack ≠ ELF_MAGIC then
      .modify fun s => { s with fdOpen := false }
      .throw (-E_NOT_EXEC)
    else if ans.exofork < 0 then .throw ans.exofork
    else
      .modify fun s => { s with childExists := true, child := .empty }
      let _ ← init_stack ans.stackAlloc ans.stackMap argv
      segments ans file stack (e_phnum file stack) 0
      .modify fun s => { s with fdOpen := false }
      pure ans.exofork

end Spawn

end Lib.Spawn

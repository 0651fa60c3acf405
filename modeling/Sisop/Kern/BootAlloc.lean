import Sisop.Inc.Mmu

-- The memory that the boot code finds and hands out before there is a free list: `i386_detect_memory`
-- and `boot_alloc` in kern/pmap.c, and the address conversions in kern/pmap.h.

namespace Kern

open Inc

-- `none` is a panic.
def PADDR (kva : Word) : Option Word :=
  if kva < KERNBASE then none else some (kva - KERNBASE)

def KADDR (npages pa : Word) : Option Word :=
  if npages.toNat ≤ PGNUM pa then none else some (pa + KERNBASE)

-- `nextfree` in `boot_alloc`, which is null before the first call. `kernEnd` is the symbol `end`.
def firstFree (kernEnd nextfree : Word) : Word :=
  if nextfree = 0#32 then ROUNDUP kernEnd 4096#32 else nextfree

-- The result and the new value of `nextfree`.
def bootAlloc (kernEnd npages nextfree n : Word) : Option (Word × Word) := do
  let nextfree := firstFree kernEnd nextfree
  let result := nextfree
  let nextFreePhysical ← PADDR nextfree
  if npages * 4096#32 ≤ nextFreePhysical then none
  else some (result, if 0#32 < n then ROUNDUP (nextfree + n) 4096#32 else nextfree)

-- The regions that a sequence of requests gets, up to the first panic.
def bootAllocs (kernEnd npages : Word) : Word → List Word → List (Word × Word)
  | _,        []      => []
  | nextfree, n :: ns =>
    match bootAlloc kernEnd npages nextfree n with
    | none                    => []
    | some (result, nextfree) => (result, n) :: bootAllocs kernEnd npages nextfree ns

-- The values that `nvram_read` returns, in kilobytes and in units of 64KB.
structure Cmos where
  base : BitVec 16
  ext : BitVec 16
  ext16 : BitVec 16

namespace MemInit

-- `npages` as `i386_detect_memory` sets it.
def i386DetectMemory (cmos : Cmos) : Word :=
  let basemem := cmos.base.setWidth 32
  let extmem := cmos.ext.setWidth 32
  let ext16mem := cmos.ext16.setWidth 32 * 64#32
  let totalmem :=
    if ext16mem ≠ 0#32 then 16#32 * 1024#32 + ext16mem
    else if extmem ≠ 0#32 then 1#32 * 1024#32 + extmem
    else basemem
  totalmem / 4#32

def pa2page (npages pa : Word) : Option Nat :=
  if npages.toNat ≤ PGNUM pa then none else some (PGNUM pa)

def page2kva (npages : Word) (p : Nat) : Option Word := KADDR npages (page2pa p)

-- The pages of `page_free_list` from its head on, after the loop in `page_init`.
def pageInit (npages : Word) (endPageKernel : Nat) : List Nat :=
  (List.range (npages.toNat - 1)).foldl (fun free i =>
    if IOPHYSMEM / PGSIZE ≤ i + 1 ∧ i + 1 < endPageKernel then free
    else if i + 1 = MPENTRY_PADDR / PGSIZE then free
    else (i + 1) :: free) []

-- The assertions that `check_page_free_list` makes about a page on the list.
def checkFreePage (npages firstFreePage : Word) (p : Nat) : Bool :=
  let pa := page2pa p
  p < npages.toNat && pa != 0#32 && pa != BitVec.ofNat 32 IOPHYSMEM &&
    pa != BitVec.ofNat 32 (EXTPHYSMEM - PGSIZE) && pa != BitVec.ofNat 32 EXTPHYSMEM &&
    (pa < BitVec.ofNat 32 EXTPHYSMEM || (page2kva npages p).elim false (firstFreePage ≤ ·)) &&
    pa != BitVec.ofNat 32 MPENTRY_PADDR

-- `check_page_free_list` first moves the pages below 4MB to the front.
def checkPageFreeList (npages firstFreePage : Word) (free : List Nat) : Option (List Nat) :=
  let low (p : Nat) : Bool := PDX (page2pa p) < 1
  let free := free.filter low ++ free.filter (!low ·)
  let base (p : Nat) : Bool := page2pa p < BitVec.ofNat 32 EXTPHYSMEM
  if free.all (checkFreePage npages firstFreePage) && free.any base && free.any (!base ·) then some free
  else none

-- `mem_init` up to the first `check_page_free_list`, before any call of `page_alloc`: the number of
-- pages and the free list.
def memInit (kernEnd : Word) (cmos : Cmos) : Option (Word × List Nat) := do
  let npages := i386DetectMemory cmos
  let (_, nextfree) ← bootAlloc kernEnd npages 0#32 4096#32
  let (_, nextfree) ← bootAlloc kernEnd npages nextfree (8#32 * npages)
  let (_, nextfree) ← bootAlloc kernEnd npages nextfree (124#32 * 1024#32)
  let (end', nextfree) ← bootAlloc kernEnd npages nextfree 0#32
  let endKernel ← PADDR end'
  let (firstFreePage, _) ← bootAlloc kernEnd npages nextfree 0#32
  let free ← checkPageFreeList npages firstFreePage (pageInit npages (endKernel.toNat / PGSIZE))
  some (npages, free)

-- The free lists after any calls of `page_alloc` and of `page_free` for elements of `pages`.
inductive Lists (npages : Word) (free : List Nat) : List Nat → Prop
  | init : Lists npages free free
  | alloc {p l} : Lists npages free (p :: l) → Lists npages free l
  | free {p l} : Lists npages free l → p < npages.toNat → Lists npages free (p :: l)

-- The pages that `page_alloc` can return.
def Returns (npages : Word) (free : List Nat) (p : Nat) : Prop := ∃ l, Lists npages free (p :: l)

end MemInit

end Kern

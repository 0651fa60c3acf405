import Sisop.Kern.State

-- kern/pmap.c

namespace Kern

open Inc

variable (m : Machine)

-- A kernel function that can panic returns `none` when it does: the machine then makes no further
-- step. `none` also stands for the monitor, which a trap to the kernel never returns from.

-- The address of a page table entry: the page that holds it and its index there.
abbrev Slot := Nat × Nat

def State.pte (s : State) (slot : Slot) : Word := s.mem slot.1 slot.2

-- The result of `pgdir_walk` is `KADDR` of an address inside physical page `p`.
def kaddr (p i : Nat) : Option Slot :=
  if p < m.npages then some (p, i) else none

def pa2page (pa : Word) : Option Nat :=
  if PGNUM pa < m.npages then some (PGNUM pa) else none

-- `alloc_flags & ALLOC_ZERO`
def allocZero (flags : Word) : Bool := flags &&& 1#32 != 0#32

def pageAlloc (s : State) (flags : Word) : Option Nat × State :=
  match s.pageFreeList with
  | none   => (none, s)
  | some p =>
    let s := s.setPageFreeList (s.pages p).ppLink
    let s := s.setPage p { s.pages p with ppLink := none }
    (some p, if allocZero flags then s.fill p (fun _ => 0#32) else s)

def pageFree (s : State) (p : Nat) : Option State :=
  if (s.pages p).ppRef ≠ 0#16 then none
  else if (s.pages p).ppLink ≠ none then none
  else some <| (s.setPage p { s.pages p with ppLink := s.pageFreeList }).setPageFreeList (some p)

-- `pp->pp_ref++`, in the 16 bits of the field
def incRef (s : State) (p : Nat) : State :=
  s.setPage p { s.pages p with ppRef := (s.pages p).ppRef + 1#16 }

def decRef (s : State) (p : Nat) : State :=
  s.setPage p { s.pages p with ppRef := (s.pages p).ppRef - 1#16 }

def pageDecref (s : State) (p : Nat) : Option State :=
  let s := decRef s p
  if (s.pages p).ppRef = 0#16 then pageFree s p else some s

-- The outer option is a panic, the inner one the null pointer.
def pgdirWalk (s : State) (pgdir : Nat) (va : Word) (create : Bool) :
    Option (Option Slot × State) :=
  let pde := s.mem pgdir (PDX va)
  if PTE_ADDR pde = 0#32 then
    if !create then some (none, s)
    else
      match pageAlloc s 1#32 with
      | (none, s)   => some (none, s)
      | (some p, s) => do
        let s := s.store pgdir (PDX va) (page2pa p ||| PTE_P ||| PTE_W ||| PTE_U)
        let s := incRef s p
        let slot ← kaddr m p (PTX va)
        some (some slot, s)
  else do
    let slot ← kaddr m (PGNUM pde) (PTX va)
    some (some slot, s)

-- The page found at `va`, and the slot that `pte_store` receives.
def pageLookup (s : State) (pgdir : Nat) (va : Word) : Option (Option (Nat × Slot)) := do
  let (slot, s) ← pgdirWalk m s pgdir va false
  match slot with
  | none      => some none
  | some slot => do
    let p ← pa2page m (PTE_ADDR (s.pte slot))
    some (some (p, slot))

def pageRemove (s : State) (pgdir : Nat) (va : Word) : Option State := do
  match ← pageLookup m s pgdir va with
  | none        => some s
  | some (p, _) =>
    let (slot, s) ← pgdirWalk m s pgdir va false
    let s := match slot with
      | some slot => s.store slot.1 slot.2 0#32
      | none      => s
    pageDecref s p

def pageInsert (s : State) (pgdir p : Nat) (va perm : Word) : Option (Word × State) := do
  let (slot, s) ← pgdirWalk m s pgdir va true
  match slot with
  | none      => some (err E_NO_MEM, s)
  | some slot =>
    let s := incRef s p
    let s ← if present (s.pte slot) then pageRemove m s pgdir va else some s
    some (0#32, s.store slot.1 slot.2 (page2pa p ||| perm ||| PTE_P))

-- The pages that `user_mem_check` visits: `inicio` runs up to `fin` in steps of `PGSIZE`.
def userMemCheckPages (va len : Word) : List Word :=
  let inicio := ROUNDDOWN va 4096#32
  let fin := ROUNDUP (va + len) 4096#32
  (List.range ((fin.toNat - inicio.toNat) / PGSIZE)).map fun i => inicio + BitVec.ofNat 32 (i * PGSIZE)

-- Whether one page passes `user_mem_check`.
def userMemCheckPage (s : State) (pgdir : Nat) (perm va : Word) : Option Bool := do
  let (slot, s) ← pgdirWalk m s pgdir va false
  match slot with
  | none      => some false
  | some slot =>
    let pte := s.pte slot
    some (va < ULIM && pte &&& perm == perm && present pte)

-- `none` in the result is success, and `some va` the address stored in `user_mem_check_addr`.
def userMemCheck (s : State) (pgdir : Nat) (va len perm : Word) : Option (Option Word) :=
  (userMemCheckPages va len).foldlM (fun failed inicio =>
    match failed with
    | some _ => some failed
    | none   => do
      if ← userMemCheckPage m s pgdir perm inicio then some none
      else some (some (if inicio < va then va else inicio))) none

end Kern

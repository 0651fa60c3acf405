import Sisop.Kern.Init

-- kern/pmap.c, with TP1_PSE

namespace Kern.Pse

open Inc

def PTE_PS : Word := 0x080#32

variable (m : Machine)

-- `none` is a loop that has not ended after `fuel` turns, and `some none` a panic.
def bootMapRegion (pgdir : Nat) (perm : Word) : Nat → State → Word → Word → Word → Option (Option State)
  | 0,        _, _,  _,  _          => none
  | fuel + 1, s, va, pa, size_count =>
    if size_count = 0#32 then some (some s)
    else if va.toNat % PTSIZE = 0 ∧ pa.toNat % PTSIZE = 0 then
      let s := s.store pgdir (PDX va) (pa ||| PTE_P ||| PTE_PS ||| perm)
      let memory := BitVec.ofNat 32 PTSIZE
      bootMapRegion pgdir perm fuel s (va + memory) (pa + memory) (size_count - memory)
    else
      match bootMapPage m s pgdir va pa perm with
      | none   => some none
      | some s =>
        let memory := BitVec.ofNat 32 PGSIZE
        bootMapRegion pgdir perm fuel s (va + memory) (pa + memory) (size_count - memory)

-- `none` is a panic of `KADDR`.
def checkVa2pa (s : State) (pgdir : Nat) (va : Word) : Option Word :=
  let pde := s.mem pgdir (PDX va)
  if !present pde then some (~~~0#32)
  else if pde &&& PTE_PS ≠ 0#32 then some (PGADDR (PDX pde) (PTX va) (PGOFF va))
  else do
    let slot ← kaddr m (PGNUM pde) (PTX va)
    if !present (s.pte slot) then some (~~~0#32) else some (PTE_ADDR (s.pte slot))

end Kern.Pse

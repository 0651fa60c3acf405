import Mathlib.Data.Nat.Bitwise
import Mathlib.Logic.Function.Basic
import Mathlib.Tactic.Linarith

namespace Inc

-- `uint32_t`, and with it `uintptr_t`, `physaddr_t`, `pte_t`, `pde_t` and `envid_t`.
abbrev Word := BitVec 32

-- inc/mmu.h

def PGSIZE : Nat := 4096
def NPDENTRIES : Nat := 1024
def PTSIZE : Nat := PGSIZE * NPDENTRIES

def PGNUM (la : Word) : Nat := (la >>> 12).toNat
def PDX (la : Word) : Nat := ((la >>> 22) &&& 0x3FF#32).toNat
def PTX (la : Word) : Nat := ((la >>> 12) &&& 0x3FF#32).toNat
def PGOFF (la : Word) : Word := la &&& 0xFFF#32

def PGADDR (d t : Nat) (o : Word) : Word :=
  BitVec.ofNat 32 d <<< 22 ||| BitVec.ofNat 32 t <<< 12 ||| o

def PTE_P : Word := 0x001#32
def PTE_W : Word := 0x002#32
def PTE_U : Word := 0x004#32
def PTE_PWT : Word := 0x008#32
def PTE_PCD : Word := 0x010#32
def PTE_AVAIL : Word := 0xE00#32
def PTE_SYSCALL : Word := PTE_AVAIL ||| PTE_P ||| PTE_W ||| PTE_U

def PTE_ADDR (pte : Word) : Word := pte &&& ~~~0xFFF#32

-- inc/types.h

def ROUNDDOWN (a n : Word) : Word := a - a % n
def ROUNDUP (a n : Word) : Word := ROUNDDOWN (a + n - 1) n

-- inc/memlayout.h

def KERNBASE : Word := 0xF0000000#32
def IOPHYSMEM : Nat := 0x0A0000
def EXTPHYSMEM : Nat := 0x100000
def KSTACKTOP : Word := KERNBASE
def KSTKSIZE : Nat := 8 * PGSIZE
def KSTKGAP : Nat := 8 * PGSIZE
def MMIOLIM : Word := KSTACKTOP - BitVec.ofNat 32 PTSIZE
def MMIOBASE : Word := MMIOLIM - BitVec.ofNat 32 PTSIZE
def ULIM : Word := MMIOBASE
def UVPT : Word := ULIM - BitVec.ofNat 32 PTSIZE
def UPAGES : Word := UVPT - BitVec.ofNat 32 PTSIZE
def UENVS : Word := UPAGES - BitVec.ofNat 32 PTSIZE
def UTOP : Word := UENVS
def UXSTACKTOP : Word := UTOP
def USTACKTOP : Word := UTOP - BitVec.ofNat 32 (2 * PGSIZE)
def MPENTRY_PADDR : Nat := 0x7000

-- The number of page directory entries that serve addresses below `UTOP`.
def UTOPX : Nat := 955

-- The page directory entry that serves `UVPT`.
def UVPTX : Nat := 957

theorem UTOPX_eq : PDX UTOP = UTOPX := by decide

theorem UVPTX_eq : PDX UVPT = UVPTX := by decide

-- page2pa of the page with the given number.
def page2pa (p : Nat) : Word := BitVec.ofNat 32 p <<< 12

-- Whether a page table or page directory entry is present.
def present (pte : Word) : Bool := pte &&& PTE_P != 0#32

-- The page that a present entry points to.
def entryPage (pte : Word) : Option Nat :=
  if present pte then some (PGNUM pte) else none

section Bits

variable {la w perm : Word} {p : Nat}

theorem PGNUM_eq_div : PGNUM la = la.toNat / 4096 := by
  simp [PGNUM, BitVec.toNat_ushiftRight, Nat.shiftRight_eq_div_pow]

theorem PDX_eq_div : PDX la = la.toNat / 4194304 := by
  have h := la.isLt
  simp only [PDX, BitVec.toNat_and, BitVec.toNat_ushiftRight, Nat.shiftRight_eq_div_pow]
  rw [show (0x3FF#32).toNat = 2 ^ 10 - 1 by rfl, Nat.and_two_pow_sub_one_eq_mod]
  omega

theorem PTX_eq_mod : PTX la = la.toNat / 4096 % 1024 := by
  simp only [PTX, BitVec.toNat_and, BitVec.toNat_ushiftRight, Nat.shiftRight_eq_div_pow]
  rw [show (0x3FF#32).toNat = 2 ^ 10 - 1 by rfl, Nat.and_two_pow_sub_one_eq_mod]

theorem PTX_lt : PTX la < 1024 := by
  rw [PTX_eq_mod]
  exact Nat.mod_lt _ (by decide)

theorem PDX_lt : PDX la < 1024 := by
  have h := la.isLt
  rw [PDX_eq_div]
  omega

theorem PDX_lt_UTOPX (h : la < UTOP) : PDX la < UTOPX := by
  rw [BitVec.lt_def, show UTOP.toNat = 4005560320 by rfl] at h
  rw [PDX_eq_div, UTOPX]
  omega

theorem UTOPX_le_PDX (h : ¬la < UTOP) : UTOPX ≤ PDX la := by
  rw [BitVec.lt_def, show UTOP.toNat = 4005560320 by rfl] at h
  rw [PDX_eq_div, UTOPX]
  omega

theorem ROUNDDOWN_toNat : (ROUNDDOWN la 4096#32).toNat = la.toNat / 4096 * 4096 := by
  have h := la.isLt
  have hle : la.toNat % 4096 ≤ la.toNat := Nat.mod_le ..
  rw [ROUNDDOWN, BitVec.toNat_sub, BitVec.toNat_umod, show (4096#32).toNat = 4096 by rfl]
  omega

theorem ROUNDUP_toNat (h : la.toNat + 4095 < 4294967296) :
    (ROUNDUP la 4096#32).toNat = (la.toNat + 4095) / 4096 * 4096 := by
  have he : la + 4096#32 - 1 = la + 4095#32 := by
    rw [BitVec.sub_eq_add_neg, BitVec.add_assoc]
    rfl
  rw [ROUNDUP, ROUNDDOWN_toNat, he, BitVec.toNat_add, show (4095#32).toNat = 4095 by rfl,
    Nat.mod_eq_of_lt h]

theorem PGADDR_toNat {d t : Nat} (hd : d < 1024) (ht : t < 1024) :
    (PGADDR d t 0#32).toNat = d * 4194304 + t * 4096 := by
  have h₁ : d * 4194304 < 4294967296 := by omega
  have h₂ : t * 4096 < 4294967296 := by linarith
  have h₃ := Nat.two_pow_add_eq_or_of_lt (i := 22) (show t * 4096 < 2 ^ 22 by linarith) d
  simp only [PGADDR, BitVec.or_zero, BitVec.toNat_or, BitVec.toNat_shiftLeft, BitVec.toNat_ofNat,
    Nat.shiftLeft_eq]
  norm_num at h₃ ⊢
  rw [Nat.mod_eq_of_lt h₁, Nat.mod_eq_of_lt h₂, Nat.mul_comm d, ← h₃]

theorem PDX_PGADDR {d t : Nat} (hd : d < 1024) (ht : t < 1024) : PDX (PGADDR d t 0#32) = d := by
  rw [PDX_eq_div, PGADDR_toNat hd ht]
  omega

theorem PTX_PGADDR {d t : Nat} (hd : d < 1024) (ht : t < 1024) : PTX (PGADDR d t 0#32) = t := by
  rw [PTX_eq_mod, PGADDR_toNat hd ht]
  omega

theorem PGADDR_lt_UTOP {d t : Nat} (hd : d < UTOPX) (ht : t < 1024) : PGADDR d t 0#32 < UTOP := by
  rw [UTOPX] at hd
  rw [BitVec.lt_def, PGADDR_toNat (by omega) ht, show UTOP.toNat = 4005560320 by rfl]
  omega

theorem PTE_ADDR_eq : PTE_ADDR w = (w >>> 12) <<< 12 := by
  have hm : ∀ j : Fin 32, (0xFFF#32)[j.val] = decide (j.val < 12) := by decide
  ext i hi
  simp only [PTE_ADDR, BitVec.getElem_and, BitVec.getElem_not, BitVec.getElem_shiftLeft,
    hm ⟨i, hi⟩]
  by_cases h : i < 12
  · simp [h]
  · simp [h, show 12 + (i - 12) = i by omega, BitVec.getLsbD_eq_getElem hi]

theorem PTE_ADDR_eq_zero : PTE_ADDR w = 0#32 ↔ PGNUM w = 0 := by
  have h := w.isLt
  rw [← BitVec.toNat_inj, PTE_ADDR_eq]
  simp only [BitVec.toNat_shiftLeft, BitVec.toNat_ushiftRight, PGNUM, Nat.shiftLeft_eq,
    Nat.shiftRight_eq_div_pow, BitVec.toNat_ofNat]
  omega

theorem PGNUM_PTE_ADDR : PGNUM (PTE_ADDR w) = PGNUM w := by
  have h := w.isLt
  rw [PTE_ADDR_eq]
  simp only [BitVec.toNat_shiftLeft, BitVec.toNat_ushiftRight, PGNUM, Nat.shiftLeft_eq,
    Nat.shiftRight_eq_div_pow]
  omega

theorem PTE_ADDR_toNat : (PTE_ADDR w).toNat = w.toNat / 4096 * 4096 := by
  have h := w.isLt
  rw [PTE_ADDR_eq]
  simp only [BitVec.toNat_shiftLeft, BitVec.toNat_ushiftRight, Nat.shiftLeft_eq,
    Nat.shiftRight_eq_div_pow]
  omega

theorem PTE_ADDR_aligned (h : w.toNat % 4096 = 0) : PTE_ADDR w = w :=
  BitVec.eq_of_toNat_eq (by rw [PTE_ADDR_toNat]; omega)

theorem PGOFF_toNat : (PGOFF la).toNat = la.toNat % 4096 := by
  rw [PGOFF, BitVec.toNat_and, show (0xFFF#32).toNat = 2 ^ 12 - 1 by rfl,
    Nat.and_two_pow_sub_one_eq_mod]

-- The address of a page has none of the low 12 bits.
theorem and_aligned {v : Word} (h : w.toNat % 4096 = 0) (hv : 0xFFF#32 &&& v = v) : w &&& v = 0#32 := by
  have hm : w &&& 0xFFF#32 = 0#32 := BitVec.eq_of_toNat_eq (PGOFF_toNat.trans h)
  rw [← hv, ← BitVec.and_assoc, hm, BitVec.zero_and]

theorem PGNUM_or {v : Word} : PGNUM (v ||| w) = PGNUM v ||| PGNUM w := by
  simp [PGNUM, BitVec.ushiftRight_or_distrib]

theorem PGNUM_page2pa (h : p < 2 ^ 20) : PGNUM (page2pa p) = p := by
  rw [PGNUM_eq_div, page2pa]
  simp only [BitVec.toNat_shiftLeft, BitVec.toNat_ofNat, Nat.shiftLeft_eq]
  omega

@[simp] theorem present_or_PTE_P : present (w ||| PTE_P) = true := by
  have h : (w ||| PTE_P) &&& PTE_P ≠ 0#32 := by
    intro hc
    have := congrArg (·[0]) hc
    simp [PTE_P] at this
  simpa [present] using h

@[simp] theorem present_zero : present 0#32 = false := by decide

theorem entryPage_zero : entryPage 0#32 = none := by decide

-- Permissions accepted by the system calls stay inside the low 12 bits of an entry.
theorem PGNUM_perm (h : perm &&& ~~~PTE_SYSCALL = 0#32) : PGNUM perm = 0 := by
  have hs : perm &&& ~~~0xFFF#32 = 0#32 := by
    have hm : ~~~(0xFFF#32 : Word) = ~~~PTE_SYSCALL &&& ~~~0xFFF#32 := by decide
    rw [hm, ← BitVec.and_assoc, h, BitVec.zero_and]
  exact PTE_ADDR_eq_zero.mp hs

-- The entry that maps page `p` with permissions `perm`.
theorem entryPage_mk (hp : p < 2 ^ 20) (h : PGNUM perm = 0) :
    entryPage (page2pa p ||| perm ||| PTE_P) = some p := by
  have hP : PGNUM PTE_P = 0 := by decide
  simp [entryPage, PGNUM_or, PGNUM_page2pa hp, h, hP]

theorem and_PTE_W : w &&& PTE_W = if w[1] then PTE_W else 0#32 := by
  have hm : ∀ j : Fin 32, PTE_W[j.val] = decide (j.val = 1) := by decide
  ext i hi
  rw [BitVec.getElem_and, hm ⟨i, hi⟩]
  by_cases h : i = 1
  · subst h
    cases w[1] <;> simp [PTE_W]
  · cases w[1] <;> simp [h, hm ⟨i, hi⟩]

-- The entry that maps a page with permissions `perm` is writable if these say so.
theorem mk_and_PTE_W : (page2pa p ||| perm ||| PTE_P) &&& PTE_W = perm &&& PTE_W := by
  have hp : (page2pa p)[1] = false := by simp [page2pa]
  have hP : PTE_P[1] = false := by decide
  rw [and_PTE_W, and_PTE_W, BitVec.getElem_or, BitVec.getElem_or, hp, hP, Bool.false_or, Bool.or_false]

theorem entryPage_eq_some : entryPage w = some p ↔ present w = true ∧ PGNUM w = p := by
  simp [entryPage]

theorem entryPage_eq_none : entryPage w = none ↔ present w = false := by
  simp [entryPage]

end Bits

end Inc

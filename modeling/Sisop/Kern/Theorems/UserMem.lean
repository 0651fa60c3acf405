import Sisop.Kern.Theorems.Sample
import Mathlib.Order.Bounds.Basic

namespace Kern

open Inc Library

-- The page table entry for the byte at `a`, where there is a page table for it.
def pteAt (s : State) (pgdir a : Nat) : Option Word :=
  (entryPage (s.mem pgdir (a / 4194304))).map fun pt => s.mem pt (a / 4096 % 1024)

-- Whether the user may access the byte at `a`.
def Accessible (s : State) (pgdir : Nat) (perm : Word) (a : Nat) : Prop :=
  a < ULIM.toNat ∧ ∃ pte, pteAt s pgdir a = some pte ∧ present pte ∧ pte &&& perm = perm

-- A page directory: an entry is empty or points to a page table, which is a page that exists.
structure Directory (m : Machine) (s : State) (pgdir : Nat) : Prop where
  present : ∀ d < NPDENTRIES, present (s.mem pgdir d) ↔ PTE_ADDR (s.mem pgdir d) ≠ 0#32
  lt      : ∀ d < NPDENTRIES, PTE_ADDR (s.mem pgdir d) ≠ 0#32 → PGNUM (s.mem pgdir d) < m.npages

-- What `user_mem_check` should find out about the bytes from `va` on: that all are accessible, or which
-- is the first that is not.
def MemChecked (s : State) (pgdir : Nat) (va len perm : Word) (r : Option (Option Word)) : Prop :=
  (r = some none ∧
    ∀ a, va.toNat ≤ a → a < va.toNat + len.toNat → Accessible s pgdir perm a) ∨
  ∃ w, r = some (some w) ∧
    IsLeast {a | va.toNat ≤ a ∧ a < va.toNat + len.toNat ∧ ¬Accessible s pgdir perm a} w.toNat

variable {m : Machine} {s : State} {pgdir a b : Nat} {va len perm : Word}

theorem pteAt_congr (h : a / 4096 = b / 4096) : pteAt s pgdir a = pteAt s pgdir b := by
  rw [pteAt, pteAt, h, show a / 4194304 = b / 4194304 by omega]

theorem ULIM_toNat : ULIM.toNat = 4018143232 := by decide

-- All bytes of a page are alike.
theorem accessible_congr (h : a / 4096 = b / 4096) :
    Accessible s pgdir perm a ↔ Accessible s pgdir perm b := by
  rw [Accessible, Accessible, pteAt_congr h, ULIM_toNat]
  refine and_congr_left fun _ => ?_
  omega

theorem not_accessible (h : ULIM.toNat ≤ a) : ¬Accessible s pgdir perm a :=
  fun hc => absurd hc.1 (Nat.not_lt.mpr h)

theorem Directory.walk (h : Directory m s pgdir) :
    ∃ slot, pgdirWalk m s pgdir va false = some (slot, s) ∧
      slot.map s.pte = pteAt s pgdir va.toNat := by
  rw [pteAt, ← PDX_eq_div, ← PTX_eq_mod, pgdirWalk]
  by_cases h₀ : PTE_ADDR (s.mem pgdir (PDX va)) = 0#32
  · have hp : entryPage (s.mem pgdir (PDX va)) = none := by
      rw [entryPage_eq_none, ← Bool.not_eq_true, h.present _ PDX_lt, not_not]
      exact h₀
    refine ⟨none, ?_, ?_⟩
    · simp [h₀]
    · rw [hp]
      rfl
  · have hp : entryPage (s.mem pgdir (PDX va)) = some (PGNUM (s.mem pgdir (PDX va))) :=
      entryPage_eq_some.mpr ⟨(h.present _ PDX_lt).mpr h₀, rfl⟩
    refine ⟨some (PGNUM (s.mem pgdir (PDX va)), PTX va), ?_, ?_⟩
    · simp [h₀, kaddr, h.lt _ PDX_lt h₀]
    · rw [hp]
      rfl

open Classical in
theorem userMemCheckPage_eq (h : Directory m s pgdir) :
    userMemCheckPage m s pgdir perm va = some (decide (Accessible s pgdir perm va.toNat)) := by
  obtain ⟨slot, hw, hp⟩ : ∃ slot, pgdirWalk m s pgdir va false = some (slot, s) ∧
      slot.map s.pte = pteAt s pgdir va.toNat := h.walk
  rw [userMemCheckPage, hw, Accessible, ← hp]
  cases slot
  case none => simp
  case some slot =>
    simp only [Option.bind_eq_bind, Option.bind_some, Option.map_some, Option.some.injEq,
      exists_eq_left', BitVec.lt_def, Bool.decide_and, beq_eq_decide]
    cases decide (va.toNat < ULIM.toNat) <;> cases present (s.pte slot) <;> simp [Bool.and_comm]

-- The number of pages that `user_mem_check` visits, and the address of the `i`th of them.
def visits (va len : Word) : Nat :=
  ((ROUNDUP (va + len) 4096#32).toNat - (ROUNDDOWN va 4096#32).toNat) / PGSIZE

def visited (va : Word) (i : Nat) : Word := ROUNDDOWN va 4096#32 + BitVec.ofNat 32 (i * PGSIZE)

open Classical in
theorem userMemCheck_eq (h : Directory m s pgdir) :
    userMemCheck m s pgdir va len perm =
      some ((((List.range (visits va len)).map (visited va)).find? fun w =>
        !decide (Accessible s pgdir perm w.toNat)).map fun w => if w < va then va else w) := by
  refine foldlM_find (fun _ _ => rfl) fun w => ?_
  simp only [userMemCheckPage_eq h, Option.bind_eq_bind, Option.bind_some]
  cases decide (Accessible s pgdir perm w.toNat) <;> rfl

theorem visited_toNat {i : Nat} (h : va.toNat / 4096 * 4096 + i * 4096 < 4294967296) :
    (visited va i).toNat = va.toNat / 4096 * 4096 + i * 4096 := by
  rw [visited, BitVec.toNat_add, ROUNDDOWN_toNat, BitVec.toNat_ofNat, PGSIZE]
  omega

-- The sum in `ROUNDUP` wraps for the addresses of the last page.
theorem ROUNDUP_last (h : 4294963200 < va.toNat) : (ROUNDUP va 4096#32).toNat = 0 := by
  have hlt := va.isLt
  have he : va + 4096#32 - 1 = va + 4095#32 := by
    rw [BitVec.sub_eq_add_neg, BitVec.add_assoc]
    rfl
  rw [ROUNDUP, ROUNDDOWN_toNat, he, BitVec.toNat_add, show (4095#32).toNat = 4095 by rfl]
  omega

section Result

variable (h : Directory m s pgdir)

include h

open Classical in
-- No page that is visited fails.
theorem userMemCheck_ok (hv : ∀ i < visits va len, Accessible s pgdir perm (visited va i).toNat) :
    userMemCheck m s pgdir va len perm = some none := by
  rw [userMemCheck_eq h]
  have hf : ((List.range (visits va len)).map (visited va)).find? (fun w =>
      !decide (Accessible s pgdir perm w.toNat)) = none := by
    rw [List.find?_eq_none]
    intro w hw
    obtain ⟨i, hi, rfl⟩ := List.mem_map.mp hw
    simpa using hv i (List.mem_range.mp hi)
  rw [hf]
  rfl

open Classical in
-- The first page that fails is the `i`th.
theorem userMemCheck_fault {i : Nat} (hi : i < visits va len)
    (hf : ¬Accessible s pgdir perm (visited va i).toNat)
    (hv : ∀ j < i, Accessible s pgdir perm (visited va j).toNat) :
    userMemCheck m s pgdir va len perm =
      some (some (if visited va i < va then va else visited va i)) := by
  rw [userMemCheck_eq h, List.find?_map]
  have hr : (List.range (visits va len)).find? ((fun w =>
      !decide (Accessible s pgdir perm w.toNat)) ∘ visited va) = some i := by
    rw [List.find?_range_eq_some]
    refine ⟨by simpa using hf, List.mem_range.mpr hi, fun j hj => by simpa using hv j hj⟩
  rw [hr]
  rfl

end Result

-- The end of the range is at most the start of the last page.
def InReach (va len : Word) : Prop := va.toNat + len.toNat ≤ 4294963200

instance : Decidable (InReach va len) := Nat.decLe _ _

-- The sum `va + len` wraps and ends in the page of `va`, where the check fails.
def WrapsToFault (s : State) (pgdir : Nat) (va len perm : Word) : Prop :=
  va.toNat / 4096 * 4096 < (va + len).toNat ∧ (va + len).toNat ≤ 4294963200 ∧
    ¬Accessible s pgdir perm va.toNat

theorem memChecked_inReach (h : Directory m s pgdir) (hr : InReach va len) (hl : len ≠ 0#32) :
    MemChecked s pgdir va len perm (userMemCheck m s pgdir va len perm) := by
  have hva := va.isLt
  have hl : 0 < len.toNat := by
    rcases Nat.eq_zero_or_pos len.toNat with hz | hz
    · exact absurd (BitVec.eq_of_toNat_eq hz) hl
    · exact hz
  have hsum : (va + len).toNat = va.toNat + len.toNat := by
    rw [BitVec.toNat_add, Nat.mod_eq_of_lt (by rw [InReach] at hr; omega)]
  rw [InReach] at hr
  have hn : visits va len = (va.toNat + len.toNat + 4095) / 4096 - va.toNat / 4096 := by
    rw [visits, ROUNDDOWN_toNat, ROUNDUP_toNat (by omega), hsum, PGSIZE]
    omega
  have hw {i : Nat} (hi : i < visits va len) :
      (visited va i).toNat = va.toNat / 4096 * 4096 + i * 4096 := visited_toNat (by omega)
  by_cases hall : ∀ i < visits va len, Accessible s pgdir perm (visited va i).toNat
  · refine .inl ⟨userMemCheck_ok h hall, fun a h₁ h₂ => ?_⟩
    have hi : a / 4096 - va.toNat / 4096 < visits va len := by omega
    refine (accessible_congr ?_).mp (hall _ hi)
    rw [hw hi]
    omega
  · have hex : ∃ i, i < visits va len ∧ ¬Accessible s pgdir perm (visited va i).toNat := by
      by_contra hc
      exact hall fun i hi => by_contra fun hf => hc ⟨i, hi, hf⟩
    classical
    obtain ⟨hi, hf⟩ := Nat.find_spec hex
    generalize hk : Nat.find hex = i at hi hf
    have hv (j : Nat) (hj : j < i) : Accessible s pgdir perm (visited va j).toNat := by
      by_contra hc
      exact Nat.find_min hex (hk ▸ hj) ⟨by omega, hc⟩
    have hwi := hw hi
    refine .inr ⟨_, userMemCheck_fault h hi hf hv, ?_⟩
    have hmax : (if visited va i < va then va else visited va i).toNat =
        max va.toNat (visited va i).toNat := by
      split <;> rename_i hlt <;> rw [BitVec.lt_def] at hlt <;> omega
    rw [hmax, hwi]
    constructor
    case left =>
      refine ⟨le_max_left _ _, by omega, ?_⟩
      rw [accessible_congr (b := (visited va i).toNat) (by rw [hwi]; omega)]
      exact hf
    case right =>
      rintro a ⟨h₁, h₂, hfa⟩
      by_cases hj : a / 4096 - va.toNat / 4096 < i
      · refine absurd ((accessible_congr ?_).mp (hv _ hj)) hfa
        rw [hw (hj.trans hi)]
        omega
      · omega

-- Beyond the start of the last page, no more than the page of `va` is visited.
theorem visits_not_inReach (hr : ¬InReach va len) :
    visits va len = if va.toNat / 4096 * 4096 < (va + len).toNat ∧
      (va + len).toNat ≤ 4294963200 then 1 else 0 := by
  have hva := va.isLt
  have hlt := len.isLt
  rw [InReach] at hr
  have hsum : (va + len).toNat = (va.toNat + len.toNat) % 4294967296 := BitVec.toNat_add ..
  rw [visits, ROUNDDOWN_toNat, PGSIZE]
  split
  case isTrue hc =>
    rw [ROUNDUP_toNat (by omega)]
    omega
  case isFalse hc =>
    by_cases hle : (va + len).toNat ≤ 4294963200
    · rw [ROUNDUP_toNat (by omega)]
      omega
    · rw [ROUNDUP_last (by omega)]
      omega

theorem visited_zero_congr : (visited va 0).toNat / 4096 = va.toNat / 4096 := by
  rw [visited_toNat (by have := va.isLt; omega)]
  omega

theorem userMemCheck_wraps (h : Directory m s pgdir) (hr : ¬InReach va len)
    (hw : WrapsToFault s pgdir va len perm) :
    userMemCheck m s pgdir va len perm = some (some va) := by
  have hn : visits va len = 1 := by rw [visits_not_inReach hr, if_pos ⟨hw.1, hw.2.1⟩]
  have hv₀ : (visited va 0).toNat = va.toNat / 4096 * 4096 + 0 * 4096 :=
    visited_toNat (by have := va.isLt; omega)
  have hva : (if visited va 0 < va then va else visited va 0) = va := by
    split
    case isTrue => rfl
    case isFalse hle =>
      rw [BitVec.lt_def] at hle
      exact BitVec.eq_of_toNat_eq (by omega)
  rw [userMemCheck_fault h (i := 0) (by omega) ?_ fun j hj => absurd hj (Nat.not_lt_zero j), hva]
  rw [accessible_congr visited_zero_congr]
  exact hw.2.2

theorem userMemCheck_misses (h : Directory m s pgdir) (hr : ¬InReach va len)
    (hw : ¬WrapsToFault s pgdir va len perm) : userMemCheck m s pgdir va len perm = some none := by
  refine userMemCheck_ok h fun i hi => ?_
  rw [visits_not_inReach hr] at hi
  split at hi
  case isTrue hc =>
    have hi₀ : i = 0 := by omega
    subst hi₀
    rw [accessible_congr visited_zero_congr]
    exact by_contra fun hf => hw ⟨hc.1, hc.2, hf⟩
  case isFalse => omega

theorem user_mem_check_exact (h : Directory m s pgdir) (hl : len ≠ 0#32) :
    MemChecked s pgdir va len perm (userMemCheck m s pgdir va len perm) ↔
      InReach va len ∨ WrapsToFault s pgdir va len perm := by
  by_cases hr : InReach va len
  · exact ⟨fun _ => .inl hr, fun _ => memChecked_inReach h hr hl⟩
  have hva := va.isLt
  have hlt := len.isLt
  have hpos : 0 < len.toNat := by
    rcases Nat.eq_zero_or_pos len.toNat with hz | hz
    · exact absurd (BitVec.eq_of_toNat_eq hz) hl
    · exact hz
  have hlast : ¬Accessible s pgdir perm (max va.toNat 4294963200) :=
    not_accessible (by rw [ULIM_toNat]; omega)
  by_cases hw : WrapsToFault s pgdir va len perm
  · refine ⟨fun _ => .inr hw, fun _ => .inr ⟨va, userMemCheck_wraps h hr hw, ?_⟩⟩
    exact ⟨⟨le_rfl, by omega, hw.2.2⟩, fun a ha => ha.1⟩
  · refine ⟨?_, fun hc => (hc.elim hr hw).elim⟩
    rw [userMemCheck_misses h hr hw]
    rintro (⟨-, hall⟩ | ⟨w, hc, -⟩)
    · exact absurd (hall _ (le_max_left _ _) (by rw [InReach] at hr; omega)) hlast
    · cases hc

namespace Sample

-- Every environment starts with the entries of `kern_pgdir`.
theorem directory_boot : Directory machine boot 1024 := by
  have hd (d : Nat) : boot.mem 1024 d = 0#32 ∨
      present (boot.mem 1024 d) ∧ PTE_ADDR (boot.mem 1024 d) ≠ 0#32 ∧
        PGNUM (boot.mem 1024 d) < machine.npages := by
    have hm : boot.mem 1024 d = kernDir 68 d := rfl
    rw [hm, kernDir]
    split
    case isTrue => decide
    case isFalse =>
      split
      case isTrue h =>
        obtain ⟨hp, hz⟩ := PGNUM_pde h.2.2
        refine .inr ⟨?_, hz, ?_⟩
        · have he : pde (32767 - order d) =
              (page2pa (32767 - order d) ||| (PTE_W ||| PTE_U)) ||| PTE_P := by
            rw [pde]
            ac_rfl
          rw [he]
          exact present_or_PTE_P
        · rw [hp]
          exact lt_of_le_of_lt (Nat.sub_le _ _) (by decide)
      case isFalse => exact .inl rfl
  constructor
  case present =>
    intro d _
    rcases hd d with h | h
    · rw [h]
      decide
    · exact iff_of_true h.1 h.2.1
  case lt =>
    intro d _ h₀
    rcases hd d with h | h
    · rw [h] at h₀
      exact absurd (by decide) h₀
    · exact h.2.2

end Sample

-- A pointer to the kernel, as in user/evilhello.c, is found out.
theorem user_mem_check_exact_evilhello : MemChecked Sample.boot 1024 0xF010000C#32 100#32 PTE_U
    (userMemCheck Sample.machine Sample.boot 1024 0xF010000C#32 100#32 PTE_U) :=
  (user_mem_check_exact Sample.directory_boot (by decide)).mpr (.inl (by decide))

-- It passes the check with a length that reaches the end of the address space.
theorem not_user_mem_check_exact : ¬MemChecked Sample.boot 1024 0xF010000C#32 0x0FEFFFF4#32 PTE_U
    (userMemCheck Sample.machine Sample.boot 1024 0xF010000C#32 0x0FEFFFF4#32 PTE_U) := by
  rw [userMemCheck_misses Sample.directory_boot (by decide) fun h => absurd h.1 (by decide)]
  rintro (⟨-, hall⟩ | ⟨w, hc, -⟩)
  · exact not_accessible (by decide) (hall _ le_rfl (by decide))
  · cases hc

end Kern

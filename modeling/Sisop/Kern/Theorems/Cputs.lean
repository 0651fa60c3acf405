import Sisop.Kern.Cputs
import Sisop.Kern.Theorems.UserMem

namespace Kern

open Inc

variable {m : Machine} {s : State} {c : EnvPtr} {pgdir : Nat} {va len : Word} {crt : Crt}
  {read : Word → Option (BitVec 8)} {ram : Word → BitVec 8}

-- The loop gets to the `k`th byte, and that cannot be read.
def FaultsAt (read : Word → Option (BitVec 8)) (p : Word) : Nat → Prop
  | 0     => read p = none
  | k + 1 => (∃ ch, read p = some ch ∧ ch ≠ 0#8) ∧ FaultsAt read (p + 1#32) k

theorem faultsAt_iff {p : Word} {k : Nat} : FaultsAt read p k ↔
    (∀ i < k, ∃ ch, read (p + BitVec.ofNat 32 i) = some ch ∧ ch ≠ 0#8) ∧
      read (p + BitVec.ofNat 32 k) = none := by
  have hz {p : Word} : p + BitVec.ofNat 32 0 = p := BitVec.add_zero p
  induction k generalizing p
  case zero => simp [FaultsAt]
  case succ k hi =>
    have hs {i : Nat} : p + 1#32 + BitVec.ofNat 32 i = p + BitVec.ofNat 32 (i + 1) := by
      rw [Nat.add_comm, BitVec.ofNat_add, BitVec.add_assoc]
    refine (and_congr_right fun _ => hi).trans ?_
    rw [hs, ← and_assoc]
    refine and_congr_left fun _ => ?_
    constructor
    case mp =>
      rintro ⟨h₀, hc⟩ i hi
      cases i
      case zero   => rwa [hz]
      case succ i => exact hs ▸ hc i (Nat.lt_of_succ_lt_succ hi)
    case mpr =>
      intro hc
      refine ⟨?_, fun i hi => ?_⟩
      · have h₀ := hc 0 (Nat.succ_pos k)
        rwa [hz] at h₀
      · rw [hs]
        exact hc (i + 1) (Nat.succ_lt_succ hi)

-- The loop faults at the first byte that cannot be read, if no zero byte ends it before.
theorem stringLoop_faults {n : Nat} {p : Word} :
    stringLoop read n p = none ↔ ∃ k ≤ n, FaultsAt read p k := by
  induction n generalizing p
  case zero => simp [stringLoop, FaultsAt]
  case succ n hi =>
    have hk : (∃ k ≤ n + 1, FaultsAt read p k) ↔
        read p = none ∨ (∃ ch, read p = some ch ∧ ch ≠ 0#8) ∧ ∃ k ≤ n, FaultsAt read (p + 1#32) k := by
      constructor
      case mp =>
        rintro ⟨k, hk, hf⟩
        cases k
        case zero   => exact .inl hf
        case succ k => exact .inr ⟨hf.left, k, Nat.le_of_succ_le_succ hk, hf.right⟩
      case mpr =>
        intro h
        cases h
        case inl h => exact ⟨0, Nat.zero_le _, h⟩
        case inr h =>
          obtain ⟨h₀, k, hk, hf⟩ := h
          exact ⟨k + 1, Nat.succ_le_succ hk, h₀, hf⟩
    rw [hk, ← hi, stringLoop]
    cases read p
    case none => simp
    case some ch =>
      by_cases hz : ch = 0#8
      case pos => simp [hz]
      case neg => simp [hz]

-- What the user may access can be read.
theorem kernelRead_of_accessible {perm : Word} (h : Accessible s pgdir perm va.toNat) :
    ∃ ch, kernelRead s pgdir ram va = some ch := by
  obtain ⟨-, pte, hp, hpte, -⟩ := h
  rw [pteAt, ← PDX_eq_div, ← PTX_eq_mod] at hp
  obtain ⟨pt, he, hp⟩ := Option.map_eq_some_iff.mp hp
  obtain ⟨hpde, hpt⟩ := entryPage_eq_some.mp he
  rw [← hp, ← hpt] at hpte
  exact ⟨_, if_pos (by rw [hpde, hpte]; rfl)⟩

-- The check of `sys_cputs` covers all bytes but the one behind the string.
theorem userMemAssert_reads (ram : Word → BitVec 8) (h : Directory m s pgdir)
    (hp : s.pgdir c = some pgdir) (hr : InReach va len)
    (hc : userMemAssert m s c va len PTE_U = some none) {i : Nat} (hi : i < len.toNat) :
    ∃ ch, kernelRead s pgdir ram (va + BitVec.ofNat 32 i) = some ch := by
  have hm : userMemCheck m s pgdir va len PTE_U = some none := by
    rw [userMemAssert, hp] at hc
    simp only [Option.bind_eq_bind, Option.bind_some, BitVec.or_self] at hc
    obtain ⟨r, hr, hc⟩ := Option.bind_eq_some_iff.mp hc
    cases r
    case none => exact hr
    case some =>
      obtain ⟨x, -, hc⟩ := Option.bind_eq_some_iff.mp hc
      cases hc
  have hl : len ≠ 0#32 := by
    rintro rfl
    exact absurd hi (Nat.not_lt_zero i)
  have hi' : (va + BitVec.ofNat 32 i).toNat = va.toNat + i := by
    rw [InReach] at hr
    rw [BitVec.toNat_add, BitVec.toNat_ofNat]
    omega
  have ha : MemChecked s pgdir va len PTE_U _ := memChecked_inReach h hr hl
  rw [hm] at ha
  cases ha
  case inl ha =>
    apply kernelRead_of_accessible
    rw [hi']
    exact ha.right _ (Nat.le_add_right _ _) (Nat.add_lt_add_left hi _)
  case inr ha =>
    obtain ⟨w, hw, -⟩ := ha
    cases hw

-- When the check of `sys_cputs` has passed, the kernel panics exactly for a string without a zero byte that
-- ends where nothing can be read. For an empty string that is any such address.
theorem cputs_faults (h : Directory m s pgdir) (hp : s.pgdir c = some pgdir) (hr : InReach va len)
    (hn : 0 ≤ len.toInt) (hc : userMemAssert m s c va len PTE_U = some none) :
    printString (kernelRead s pgdir ram) va len crt = none ↔
      va ≠ 0#32 ∧ (∀ i < len.toNat, kernelRead s pgdir ram (va + BitVec.ofNat 32 i) ≠ some 0#8) ∧
        kernelRead s pgdir ram (va + len) = none := by
  have hlen : va + BitVec.ofNat 32 len.toNat = va + len := by rw [BitVec.ofNat_toNat, BitVec.setWidth_eq]
  have hread {i : Nat} (hi : i < len.toNat) := userMemAssert_reads ram h hp hr hc hi
  rw [printString]
  split
  case isTrue h₀  => exact iff_of_false (fun hf => nomatch hf) fun hf => hf.left h₀
  case isFalse h₀ =>
    rw [if_neg (Int.not_lt.mpr hn), Option.map_eq_none_iff, stringLoop_faults]
    constructor
    case mp =>
      rintro ⟨k, hk, hf⟩
      obtain ⟨hb, hf⟩ := faultsAt_iff.mp hf
      have he : k = len.toNat := by
        refine Nat.le_antisymm hk (Nat.le_of_not_lt fun hlt => ?_)
        obtain ⟨ch, hch⟩ := hread hlt
        rw [hf] at hch
        cases hch
      rw [he] at hb hf
      refine ⟨h₀, fun i hi hz => ?_, hlen ▸ hf⟩
      obtain ⟨ch, hch, hne⟩ := hb i hi
      rw [hz] at hch
      cases hch
      exact hne rfl
    case mpr =>
      rintro ⟨-, hb, hf⟩
      refine ⟨len.toNat, Nat.le_refl _, faultsAt_iff.mpr ⟨fun i hi => ?_, hlen.symm ▸ hf⟩⟩
      obtain ⟨ch, hch⟩ := hread hi
      refine ⟨ch, hch, ?_⟩
      rintro rfl
      exact hb i hi hch

-- An environment without any page of its own makes the kernel panic with an empty string.
theorem cputs_faults_empty : ∃ s, s = Sample.boot.setEnv 0 { Env.zero with envPgdir := some 1024 } ∧
    printString (kernelRead s 1024 fun _ => 0#8) 0x1000#32 0#32
      (.cgaInit .cga 0#8 0#8 (fun _ => 0x0720#16) []) = none := by
  have h : Directory Sample.machine (Sample.boot.setEnv 0 { Env.zero with envPgdir := some 1024 }) 1024 :=
    ⟨Sample.directory_boot.present, Sample.directory_boot.lt⟩
  exact ⟨_, rfl, (cputs_faults (c := 0) h rfl (by decide) (by decide) rfl).mpr
    ⟨by decide, fun _ hi => absurd hi (Nat.not_lt_zero _), by decide⟩⟩

end Kern

import Sisop.Kern.Theorems.Reachable
import Sisop.Kern.Theorems.UserMem

namespace Kern

open Inc Function Library State

variable {m : Machine} {K : Nat → Nat → Word} {s s' : State} {own hand : List Nat} {e : EnvPtr}
  {pgdir pd p : Nat} {va : Word}

theorem Directory.congr (h : Directory m s pgdir) (hm : s'.mem pd = s.mem pgdir) :
    Directory m s' pd := by
  constructor
  case present =>
    rw [hm]
    exact h.present
  case lt =>
    rw [hm]
    exact h.lt

-- The page directories of the environments are, where that of the kernel is one.
theorem PageInv.directory (i : PageInv m K s own hand) (hk : Directory m s m.kernPgdir)
    (h : s.pgdir e = some pd) : Directory m s pd := by
  have hd (d : Nat) (hd : d < NPDENTRIES) : s.mem pd d = 0#32 ∨ s.mem pd d = s.mem m.kernPgdir d ∨
      ∃ p, Managed m p ∧ entryPage (s.mem pd d) = some p := by
    by_cases hlt : d < UTOPX
    case pos =>
      cases ht : s.tableOf e ⟨d, hlt⟩
      case none    => exact .inl (i.zeroPde (d := ⟨d, hlt⟩) h ht)
      case some pt =>
        refine .inr (.inr ⟨pt, i.tableOf_managed ht, ?_⟩)
        rwa [tableOf_eq h] at ht
    case neg =>
      have hx := i.kern.dirs h (Nat.not_lt.mp hlt) hd
      rw [← i.kern.pgdir] at hx
      split at hx
      case isTrue =>
        have hm : Managed m pd := i.pgdir_managed h
        have hv : PGNUM PTE_U = 0 := by decide
        refine .inr (.inr ⟨pd, hm, ?_⟩)
        rw [hx, BitVec.or_assoc, BitVec.or_comm PTE_P, ← BitVec.or_assoc]
        exact entryPage_mk hm.lt hv
      case isFalse => exact .inr (.inl hx)
  constructor
  case present =>
    intro d hl
    rcases hd d hl with h₀ | hk' | ⟨p, hm, hp⟩
    · rw [h₀]
      decide
    · rw [hk']
      exact hk.present d hl
    · obtain ⟨hpr, hn⟩ := entryPage_eq_some.mp hp
      refine iff_of_true hpr fun hc => hm.ne_zero ?_
      rw [← hn]
      exact PTE_ADDR_eq_zero.mp hc
  case lt =>
    intro d hl hne
    rcases hd d hl with h₀ | hk' | ⟨p, hm, hp⟩
    · rw [h₀] at hne
      exact absurd rfl hne
    · rw [hk'] at hne ⊢
      exact hk.lt d hl hne
    · rw [(entryPage_eq_some.mp hp).right]
      exact hm.lt_npages

section Refused

-- What the operations should make of an address where nothing is mapped. A destination is an
-- environment that the caller may change.
structure Refused (m : Machine) (s : State) (pgdir : Nat) (va : Word) : Prop where
  lookup : pageLookup m s pgdir va = some none
  remove : pageRemove m s pgdir va = some s
  unmap  : ∀ {c envid e}, envid2env s c envid true = .ok e → s.pgdir e = some pgdir →
    sysPageUnmap m s c envid va = some (.ret 0#32 s)
  map    : ∀ {c srcenvid src}, envid2env s c srcenvid true = .ok src → s.pgdir src = some pgdir →
    ∀ dstenvid dstva perm, ∃ r, sysPageMap m s c srcenvid va dstenvid dstva perm = some (.ret r s) ∧
      (r = err E_INVAL ∨ envid2env s c dstenvid true = .error r)

variable (hn : pageLookup m s pgdir va = some none)
include hn

theorem pageRemove_unmapped : pageRemove m s pgdir va = some s := by
  rw [pageRemove, hn]
  rfl

theorem sysPageMapChecks_unmapped {c src : EnvPtr} {srcenvid : Word}
    (he : envid2env s c srcenvid true = .ok src) (hp : s.pgdir src = some pgdir)
    (dstenvid dstva perm : Word) :
    ∃ r, sysPageMapChecks m s c srcenvid va dstenvid dstva perm = some (.error r) ∧
      (r = err E_INVAL ∨ envid2env s c dstenvid true = .error r) := by
  simp only [sysPageMapChecks, he]
  split
  case isTrue => exact ⟨_, rfl, .inl rfl⟩
  split
  case isTrue => exact ⟨_, rfl, .inl rfl⟩
  split
  case isTrue => exact ⟨_, rfl, .inl rfl⟩
  cases hd : envid2env s c dstenvid true
  case error r => exact ⟨r, rfl, .inr rfl⟩
  case ok dst  =>
    refine ⟨_, ?_, .inl rfl⟩
    simp only [hp, Option.bind_eq_bind, Option.bind_some, hn]

theorem refused_of_lookup (hva : va < UTOP) (ha : PGOFF va = 0#32) : Refused m s pgdir va where
  lookup := hn
  remove := pageRemove_unmapped hn
  unmap  := by
    intro c envid e he hp
    have hb : badVa va = false := by simp [badVa, hva, ha]
    simp [sysPageUnmap, hb, he, hp, pageRemove_unmapped hn]
  map    := by
    intro c srcenvid src he hp dstenvid dstva perm
    obtain ⟨r, hc, hr⟩ := sysPageMapChecks_unmapped hn he hp dstenvid dstva perm
    refine ⟨r, ?_, hr⟩
    rw [sysPageMap, hc]
    rfl

end Refused

-- Where there is a page table, `page_lookup` takes any entry for that of a page, an empty one for that
-- of page 0.
theorem Directory.pageLookup_eq_none (h : Directory m s pgdir) :
    pageLookup m s pgdir va = some none ↔ pteAt s pgdir va.toNat = none := by
  obtain ⟨slot, hw, hp⟩ : ∃ slot, pgdirWalk m s pgdir va false = some (slot, s) ∧
      slot.map s.pte = pteAt s pgdir va.toNat := h.walk
  rw [← hp, pageLookup, hw]
  cases slot
  case none      => simp
  case some slot => simp [Option.bind_eq_some_iff]

-- An address is refused exactly where it has no page table. Of one that has a page table and no page,
-- the operations take page 0 to be there.
theorem unmapped_refused (h : Directory m s pgdir) (hva : va < UTOP) (ha : PGOFF va = 0#32) :
    Refused m s pgdir va ↔ pteAt s pgdir va.toNat = none := by
  rw [← h.pageLookup_eq_none]
  exact ⟨(·.lookup), fun hl => refused_of_lookup hl hva ha⟩

theorem unmapped_refused_boot : Refused Sample.machine Sample.boot 1024 0x1000#32 ↔
    pteAt Sample.boot 1024 0x1000 = none :=
  unmapped_refused Sample.directory_boot (by decide) (by decide)

-- The file server looks below the page of its stack.
theorem not_unmapped_refused : ¬∀ {m s pgdir va}, Directory m s pgdir → va < UTOP → PGOFF va = 0#32 →
    (∀ pte, pteAt s pgdir va.toNat = some pte → present pte = false) → Refused m s pgdir va := by
  intro h
  let va := USTACKTOP - 8192#32
  have hx : ∃ s, Reachable Sample.machine (SafeStep Sample.machine) Sample.boot s ∧
      ∃ pd ∈ s.pgdir Sample.fs, pteAt s pd va.toNat = some 0#32 :=
    Sample.reachable_exec (P := fun s => ∃ pd ∈ s.pgdir Sample.fs, pteAt s pd va.toNat = some 0#32)
      [.run none Sample.fs 0] (by simp [SafeStep]) (by decide +kernel)
  obtain ⟨s, hr, pd, hpd, hpte⟩ := hx
  have i : KernInv Sample.machine Sample.boot.mem s := hr.kernInv
  have hk : Directory Sample.machine s Sample.machine.kernPgdir :=
    Sample.directory_boot.congr i.page.kern.pgdir
  have hd : Directory Sample.machine s pd := i.page.directory hk hpd
  have hn (pte : Word) (hp : pteAt s pd va.toNat = some pte) : present pte = false := by
    rw [hpte] at hp
    cases hp
    rfl
  have hl := (h hd (by decide) (by decide) hn).lookup
  rw [hd.pageLookup_eq_none, hpte] at hl
  cases hl

end Kern

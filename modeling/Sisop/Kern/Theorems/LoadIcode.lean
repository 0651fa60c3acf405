import Sisop.Kern.LoadIcode
import Sisop.Kern.Theorems.Sample

-- What `load_icode` leaves in the address space of an environment.

namespace Kern.Icode

open Inc Function Library State PageInv

section Pde

variable {m : Machine} {K : Nat → Nat → Word} {s s' : State} {own hand : List Nat} {e : EnvPtr}
  {p pd : Nat} {va perm v w : Word}

theorem or_and_self_right : (v ||| w) &&& w = w := by
  ext k hk
  simp only [BitVec.getElem_and, BitVec.getElem_or]
  cases v[k] <;> cases w[k] <;> rfl

theorem user_pde : (page2pa p ||| PTE_P ||| PTE_W ||| PTE_U) &&& userWrite = userWrite := by
  rw [BitVec.or_assoc, BitVec.or_assoc, ← BitVec.or_assoc PTE_P]
  exact or_and_self_right

theorem user_pte : (page2pa p ||| (PTE_W ||| PTE_U) ||| PTE_P) &&& userWrite = userWrite := by
  have hc : (PTE_W ||| PTE_U) ||| PTE_P = userWrite := by decide
  rw [BitVec.or_assoc, hc]
  exact or_and_self_right

-- The walk that creates a page table lets the user write through it, and leaves the other entries of
-- the page directory alone.
theorem pgdirWalk_pde (i : PageInv m K s own hand) (h : s.pgdir e = some pd) (hva : va < UTOP)
    {r : Option Slot} (hw : pgdirWalk m s pd va true = some (r, s')) (d : Nat) :
    s'.mem pd d = s.mem pd d ∨ s'.mem pd d &&& userWrite = userWrite := by
  cases ht : s.tableOf e (pdx va hva)
  case some pt =>
    rw [i.tables.pgdirWalk_some h hva ht] at hw
    cases hw
    exact .inl rfl
  case none =>
    have hz : PTE_ADDR (s.mem pd (PDX va)) = 0#32 :=
      (i.tables.pde_eq_zero_iff h (d := pdx va hva)).mpr ht
    simp only [pgdirWalk, hz, if_true, Bool.not_true, Bool.false_eq_true, if_false] at hw
    cases ha : Kern.pageAlloc s 1#32 with | mk o s₁ =>
    cases o
    case none =>
      simp only [ha, Option.some.injEq, Prod.mk.injEq] at hw
      rw [← hw.right, (pageAlloc_eq_none ha).left]
      exact .inl rfl
    case some q =>
      have a := i.pageAlloc ha
      have hm : q ∈ q :: hand := List.mem_cons_self
      have hk : kaddr m q (PTX va) = some (q, PTX va) := if_pos (a.inv.hand_managed hm).lt_npages
      have hne : pd ≠ q := fun hc =>
        a.inv.hand_unref hm (.dir e) ((congrFun a.target (.dir e)).trans (hc ▸ h))
      simp only [ha, hk, bind, Option.bind_some, Option.some.injEq, Prod.mk.injEq] at hw
      obtain ⟨_, hs⟩ := hw
      have hmem : s'.mem pd =
          update (s₁.mem pd) (PDX va) (page2pa q ||| PTE_P ||| PTE_W ||| PTE_U) := by
        rw [← hs, incRef, setPage_mem, store_mem_self]
      rw [hmem, update_apply, a.mem hne]
      split
      case isTrue  => exact .inr user_pde
      case isFalse => exact .inl rfl

theorem pageInsert_pde (i : PageInv m K s own hand) (h : s.pgdir e = some pd) (hva : va < UTOP)
    {r : Word} (hr : pageInsert m s pd p va perm = some (r, s')) (d : Nat) :
    s'.mem pd d = s.mem pd d ∨ s'.mem pd d &&& userWrite = userWrite := by
  simp only [pageInsert, Option.bind_eq_bind, Option.bind_eq_some_iff, Prod.exists] at hr
  obtain ⟨slot, s₁, hw, hx⟩ := hr
  have hpde := pgdirWalk_pde i h hva hw d
  suffices hmem : s'.mem pd = s₁.mem pd by rwa [hmem]
  cases i.pgdirWalk_create h hva hw
  case inl hn =>
    simp only [hn.left, Option.some.injEq, Prod.mk.injEq] at hx
    rw [hx.right]
  case inr hn =>
    obtain ⟨pt, hs, w⟩ := hn
    have hp : (incRef s₁ p).pgdir e = some pd := by
      simpa [State.pgdir, incRef, w.envs] using h
    have ht : (incRef s₁ p).tableOf e (pdx va hva) = some pt := w.tableOf
    have hne : pd ≠ pt := fun hc => pgdir_ne_tableOf w.inv.unique w.tableOf (hc ▸ hp)
    simp only [hs] at hx
    split at hx
    all_goals
      obtain ⟨s₂, hs₂, h₂⟩ := Option.bind_eq_some_iff.mp hx
      simp only [Option.some.injEq, Prod.mk.injEq] at h₂
      rw [← h₂.right, store_mem_of_ne hne]
    case isTrue =>
      have i₁ := w.inv.tables.congr (SameSpace.incRef (p := p))
      rw [i₁.pageRemove_some hp hva ht, Option.bind_eq_some_iff] at hs₂
      obtain ⟨_, _, hd⟩ := hs₂
      rw [(SameSpace.pageDecref hd).mem, store_mem_of_ne hne]
      rfl
    case isFalse =>
      cases hs₂
      rfl

end Pde

-- The pages with the numbers `V` are mapped for the user to write, each to a physical page of its own.
structure Held (m : Machine) (K : Nat → Nat → Word) (e : EnvPtr) (pd : Nat) (V : Nat → Prop)
    (s : State) : Prop where
  inv    : PageInv m K s [] []
  dir    : s.pgdir e = some pd
  pde    : ∀ {d : Fin UTOPX}, s.tableOf e d ≠ none → s.mem pd d &&& userWrite = userWrite
  mapped : ∀ {va} (h : va < UTOP), V (PGNUM va) → present (s.entry e (pdx va h) (ptx va)) ∧
    s.entry e (pdx va h) (ptx va) &&& userWrite = userWrite
  alone  : ∀ {va va' p} (h : va < UTOP) (h' : va' < UTOP), V (PGNUM va) →
    entryPage (s.entry e (pdx va h) (ptx va)) = some p →
    entryPage (s.entry e (pdx va' h') (ptx va')) = some p → PGNUM va' = PGNUM va

section Held

variable {m : Machine} {K : Nat → Nat → Word} {s s' : State} {e : EnvPtr} {p pd : Nat}
  {V V' : Nat → Prop} {va va' len w : Word} {d : Fin UTOPX} {t : Fin NPDENTRIES}

theorem slot_eq_iff (h : va < UTOP) (h' : va' < UTOP) :
    (pdx va h = pdx va' h' ∧ ptx va = ptx va') ↔ PGNUM va = PGNUM va' := by
  simp only [pdx, ptx, Fin.mk.injEq, PDX_eq_div, PTX_eq_mod, PGNUM_eq_div]
  omega

theorem setEntry_at (h : va < UTOP) (h' : va' < UTOP)
    {f : EnvPtr → Fin UTOPX → Fin NPDENTRIES → Word} : setEntry f e (pdx va' h') (ptx va') w e
      (pdx va h) (ptx va) = if PGNUM va = PGNUM va' then w else f e (pdx va h) (ptx va) := by
  simp only [setEntry, true_and, slot_eq_iff h h']

theorem Held.mono (hh : Held m K e pd V s) (hV : ∀ {n}, V' n → V n) : Held m K e pd V' s where
  inv              := hh.inv
  dir              := hh.dir
  pde              := hh.pde
  mapped h hn      := hh.mapped h (hV hn)
  alone h h' hn hp := hh.alone h h' (hV hn) hp

-- One iteration of `region_alloc` maps one page more, which nothing refers to before.
theorem Held.regionAllocPage (hh : Held m K e pd V s) (hva : va < UTOP)
    (hr : regionAllocPage m s pd va = some s') : Held m K e pd (fun n => V n ∨ n = PGNUM va) s' ∧
      ∀ {va'} (h' : va' < UTOP), PGNUM va' ≠ PGNUM va →
        s'.entry e (pdx va' h') (ptx va') = s.entry e (pdx va' h') (ptx va') := by
  obtain ⟨i', f⟩ := regionAllocPage_spec hh.inv hh.dir hva hr
  simp only [Kern.regionAllocPage] at hr
  cases ha : pageAlloc s 0#32 with | mk o s₁ =>
  cases o
  case none => simp [ha] at hr
  case some p =>
    have a := hh.inv.pageAlloc ha
    have hm : p ∈ [p] := List.mem_cons_self
    have hp : s₁.pgdir e = some pd := by simpa [State.pgdir, a.envs] using hh.dir
    simp only [ha, Option.bind_eq_bind, Option.bind_eq_some_iff, Prod.exists] at hr
    obtain ⟨r, s₂, hi, h₂⟩ := hr
    split at h₂
    case isTrue => cases h₂
    case isFalse h0 =>
    cases h₂
    have h0 : r = 0#32 := by simpa using h0
    have hfresh (d t) : entryPage (s.entry e d t) ≠ some p := fun hc =>
      a.inv.hand_unref hm (.pte e d t) ((congrFun a.target (.pte e d t)).trans hc)
    have hne : pd ≠ p := fun hc =>
      a.inv.hand_unref hm (.dir e) ((congrFun a.target (.dir e)).trans (hc ▸ hh.dir))
    have hent {va'} (h' : va' < UTOP) : s'.entry e (pdx va' h') (ptx va') =
        if PGNUM va' = PGNUM va then page2pa p ||| (PTE_W ||| PTE_U) ||| PTE_P
        else s.entry e (pdx va' h') (ptx va') := by
      rw [a.inv.pageInsert_entry hp hva hi, if_pos h0, setEntry_at h' hva, a.entry]
    have hnew : entryPage (page2pa p ||| (PTE_W ||| PTE_U) ||| PTE_P) = some p :=
      entryPage_mk (a.inv.hand_managed hm).lt (by decide)
    have hdir : s'.pgdir e = some pd := f.pgdir ▸ hh.dir
    refine ⟨⟨i', hdir, ?_, ?_, ?_⟩, fun h' hn => by rw [hent h', if_neg hn]⟩
    · intro d ht
      rcases pageInsert_pde a.inv hp hva hi d with hd | hd
      · rw [a.mem hne] at hd
        rw [tableOf_eq hdir, hd, ← tableOf_eq hh.dir] at ht
        rw [hd]
        exact hh.pde ht
      · exact hd
    · intro va' h' hn
      rw [hent h']
      split
      case isTrue  => exact ⟨(entryPage_eq_some.mp hnew).left, user_pte⟩
      case isFalse hc => exact hh.mapped h' (hn.resolve_right hc)
    · intro va₁ va₂ q h₁ h₂ hn he₁ he₂
      rw [hent h₁] at he₁
      rw [hent h₂] at he₂
      by_cases hc₁ : PGNUM va₁ = PGNUM va <;> by_cases hc₂ : PGNUM va₂ = PGNUM va
      · rw [hc₁, hc₂]
      · rw [if_pos hc₁, hnew] at he₁
        rw [if_neg hc₂, ← he₁] at he₂
        exact absurd he₂ (hfresh _ _)
      · rw [if_pos hc₂, hnew] at he₂
        rw [if_neg hc₁, ← he₂] at he₁
        exact absurd he₁ (hfresh _ _)
      · rw [if_neg hc₁] at he₁
        rw [if_neg hc₂] at he₂
        exact hh.alone h₁ h₂ (hn.resolve_right hc₁) he₁ he₂

-- The pages that `region_alloc` maps.
def Region (va len : Word) (n : Nat) : Prop :=
  PGNUM va ≤ n ∧ n < PGNUM (ROUNDUP (va + len) 4096#32)

theorem Held.regionAlloc (hh : Held m K e pd V s)
    (hr : Kern.regionAlloc m s pd va len = some s') :
    (ROUNDUP (va + len) 4096#32).toNat ≤ UTOP.toNat ∧
      Held m K e pd (fun n => V n ∨ Region va len n) s' ∧
      ∀ {va'} (h' : va' < UTOP), ¬Region va len (PGNUM va') →
        s'.entry e (pdx va' h') (ptx va') = s.entry e (pdx va' h') (ptx va') := by
  simp only [Kern.regionAlloc] at hr
  split at hr
  case isTrue => cases hr
  case isFalse hu =>
    have hu : (ROUNDUP (va + len) 4096#32).toNat ≤ UTOP.toNat := by
      rw [BitVec.lt_def] at hu
      exact Nat.le_of_not_lt hu
    have hfin : (ROUNDUP (va + len) 4096#32).toNat % 4096 = 0 := by
      rw [ROUNDUP, ROUNDDOWN_toNat]
      exact Nat.mul_mod_left ..
    have hini : (ROUNDDOWN va 4096#32).toNat = va.toNat / 4096 * 4096 := ROUNDDOWN_toNat
    have htop : UTOP.toNat = 4005560320 := rfl
    let inv (k : Nat) (s' : State) : Prop :=
      Held m K e pd (fun n => V n ∨ PGNUM va ≤ n ∧ n < PGNUM va + k) s' ∧
        ∀ {va'} (h' : va' < UTOP), ¬(PGNUM va ≤ PGNUM va' ∧ PGNUM va' < PGNUM va + k) →
          s'.entry e (pdx va' h') (ptx va') = s.entry e (pdx va' h') (ptx va')
    have h₀ : inv 0 s := ⟨hh.mono fun hn => hn.resolve_right (by omega), fun _ _ => rfl⟩
    have hloop := foldlM_range (P := inv) hr h₀ ?_
    · obtain ⟨h₁, h₂⟩ := hloop
      have hR (n : Nat) : (PGNUM va ≤ n ∧ n < PGNUM va +
          ((ROUNDUP (va + len) 4096#32).toNat - (ROUNDDOWN va 4096#32).toNat) / PGSIZE) ↔
          Region va len n := by
        simp only [Region, PGNUM_eq_div, hini, PGSIZE]
        omega
      refine ⟨hu, h₁.mono fun hn => hn.imp_right (hR _).mpr, fun h' hn => ?_⟩
      exact h₂ h' fun hc => hn ((hR _).mp hc)
    · rintro s₁ s₂ k hk ⟨h₁, h₂⟩ hs
      have hv : (ROUNDDOWN va 4096#32 + BitVec.ofNat 32 (k * PGSIZE)).toNat =
          va.toNat / 4096 * 4096 + k * 4096 := by
        simp only [BitVec.toNat_add, BitVec.toNat_ofNat, hini, PGSIZE] at *
        omega
      have hlt : ROUNDDOWN va 4096#32 + BitVec.ofNat 32 (k * PGSIZE) < UTOP := by
        rw [BitVec.lt_def, hv]
        simp only [hini, PGSIZE] at hk
        omega
      have hn : PGNUM (ROUNDDOWN va 4096#32 + BitVec.ofNat 32 (k * PGSIZE)) = PGNUM va + k := by
        rw [PGNUM_eq_div, PGNUM_eq_div, hv]
        omega
      obtain ⟨h₃, h₄⟩ := h₁.regionAllocPage hlt hs
      rw [hn] at h₃ h₄
      refine ⟨h₃.mono fun {n} hn => ?_, fun h' hc => ?_⟩
      · rcases hn with hn | hn
        · exact .inl (.inl hn)
        · by_cases hc : n = PGNUM va + k
          · exact .inr hc
          · exact .inl (.inr (by omega))
      · rw [h₄ h' (by omega), h₂ h' (by omega)]

end Held

section Store

variable {m : Machine} {K : Nat → Nat → Word} {i : Image} {e : EnvPtr} {p pd n : Nat}
  {V : Nat → Prop} {va : Word} {b : Byte} {f : Nat → Byte}

theorem present_of_and {w c : Word} (h : w &&& c = c) (hc : c &&& PTE_P = PTE_P) : present w := by
  have hp : w &&& PTE_P = PTE_P := by rw [← hc, ← BitVec.and_assoc, h]
  rw [present, hp]
  rfl

-- What the MMU finds below `UTOP` is the entry of the address space.
theorem mmu_entry {s : State} {perm : Word} (hd : s.pgdir e = some pd) (h : va < UTOP)
    (hc : perm &&& PTE_P = PTE_P) (hm : mmu s pd va perm = some p) :
    entryPage (s.entry e (pdx va h) (ptx va)) = some p := by
  simp only [mmu, Option.ite_none_right_eq_some, Option.some.injEq] at hm
  obtain ⟨⟨h₁, h₂⟩, hp⟩ := hm
  have ht : s.tableOf e (pdx va h) = some (PGNUM (s.mem pd (PDX va))) := by
    rw [tableOf_eq hd]
    exact entryPage_eq_some.mpr ⟨present_of_and h₁ hc, rfl⟩
  rw [entry_eq ht]
  exact entryPage_eq_some.mpr ⟨present_of_and h₂ hc, hp⟩

theorem Held.mmu {s : State} (hh : Held m K e pd V s) (h : va < UTOP) (hV : V (PGNUM va)) :
    ∃ p, mmu s pd va userWrite = some p ∧ entryPage (s.entry e (pdx va h) (ptx va)) = some p := by
  obtain ⟨hp, hu⟩ := hh.mapped h hV
  have ht : s.tableOf e (pdx va h) ≠ none := fun hc => by
    rw [entry_eq_zero hc] at hp
    exact absurd hp (by decide)
  have hpde := hh.pde ht
  obtain ⟨pt, ht⟩ := Option.ne_none_iff_exists'.mp ht
  have hpt : PGNUM (s.mem pd (PDX va)) = pt := by
    rw [tableOf_eq hh.dir] at ht
    exact (entryPage_eq_some.mp ht).right
  rw [entry_eq ht] at hp hu ⊢
  refine ⟨PGNUM (s.mem pt (PTX va)), ?_, entryPage_eq_some.mpr ⟨hp, rfl⟩⟩
  rw [Icode.mmu, hpt]
  exact if_pos ⟨hpde, hu⟩

-- A store that is not a panic stays below `UTOP` where the kernel cannot write there.
theorem storeByte_below (hs : va < UTOP ∨ mmu i.kern pd va kernWrite = none) :
    (storeByte pd va b).wp True (fun _ _ => False) (fun _ i' => i'.kern = i.kern ∧ va < UTOP) i := by
  simp only [storeByte, Prog.wp_bind, Prog.wp_get]
  cases hm : mmu i.kern pd va kernWrite
  case none   => trivial
  case some p =>
    have h := hs.resolve_right (by simp [hm])
    simp only [h, if_true, Prog.wp_modify, Image.store_kern, and_self]

-- A store to a page that is held changes the byte there and no other byte of these pages.
theorem storeByte_wp (hh : Held m K e pd V i.kern) (h : va < UTOP) (hV : V (PGNUM va)) :
    (storeByte pd va b).wp True (fun _ _ => False) (fun _ i' => i'.kern = i.kern ∧
      i'.read pd va = some b ∧ ∀ {va'}, va' < UTOP → V (PGNUM va') → va' ≠ va →
        i'.read pd va' = i.read pd va') i := by
  simp only [storeByte, Prog.wp_bind, Prog.wp_get]
  cases hm : mmu i.kern pd va kernWrite
  case none   => trivial
  case some p =>
    simp only [h, if_true, Prog.wp_modify]
    have he := mmu_entry hh.dir h (by decide) hm
    obtain ⟨q, hq, he'⟩ := hh.mmu h hV
    obtain rfl : p = q := Option.some.inj (he.symm.trans he')
    refine ⟨rfl, by simp [Image.read, Image.store, hq], fun {va'} h' hV' hne => ?_⟩
    obtain ⟨q', hq', he''⟩ := hh.mmu h' hV'
    simp only [Image.read, hq', Option.map_some, Option.some.injEq, Image.store]
    by_cases hp : q' = p
    · subst hp
      have hn := hh.alone h h' hV he he''
      have ho : (PGOFF va').toNat ≠ (PGOFF va).toNat := fun hc => hne <| BitVec.eq_of_toNat_eq <| by
        rw [PGOFF_toNat, PGOFF_toNat] at hc
        rw [PGNUM_eq_div, PGNUM_eq_div] at hn
        omega
      rw [update_self, update_of_ne ho]
    · rw [update_of_ne hp]

theorem add_ofNat_toNat {k : Nat} (h : va.toNat + k < 2 ^ 32) :
    (va + BitVec.ofNat 32 k).toNat = va.toNat + k := by
  rw [BitVec.toNat_add, BitVec.toNat_ofNat]
  omega

-- The first address that a write from `va` upwards reaches outside the user's part.
def firstAbove (va : Word) : Word := if va < UTOP then UTOP else va

theorem firstAbove_not_lt : ¬firstAbove va < UTOP := by
  rw [firstAbove]
  split
  case isTrue      => exact BitVec.lt_irrefl _
  case isFalse hlt => exact hlt

-- Writing over the end of the user's part is a panic where the kernel cannot write there.
theorem storeBytes_below (hs : mmu i.kern pd (firstAbove va) kernWrite = none) :
    (storeBytes pd va f n).wp True (fun _ _ => False)
      (fun _ i' => i'.kern = i.kern ∧ (n = 0 ∨ va.toNat + n ≤ UTOP.toNat)) i := by
  have htop : UTOP.toNat = 4005560320 := rfl
  induction n
  case zero => exact ⟨rfl, .inl rfl⟩
  case succ n hi =>
    simp only [storeBytes, Prog.wp_bind]
    refine hi.mono id (fun _ _ => id) ?_
    rintro _ i₁ ⟨hk, hn⟩
    have hv : (va + BitVec.ofNat 32 n).toNat = va.toNat + n := by
      rcases hn with rfl | hn
      · exact add_ofNat_toNat va.isLt
      · exact add_ofNat_toNat (by omega)
    have hx : va + BitVec.ofNat 32 n < UTOP ∨ va + BitVec.ofNat 32 n = firstAbove va := by
      rw [firstAbove]
      split
      case isTrue hlt =>
        rw [BitVec.lt_def] at hlt ⊢
        rw [hv]
        by_cases hc : va.toNat + n = UTOP.toNat
        · exact .inr (BitVec.eq_of_toNat_eq (hv.trans hc))
        · exact .inl (by omega)
      case isFalse hlt =>
        rw [BitVec.lt_def] at hlt
        obtain rfl : n = 0 := by omega
        exact .inr (BitVec.add_zero va)
    have hsafe : va + BitVec.ofNat 32 n < UTOP ∨
        mmu i₁.kern pd (va + BitVec.ofNat 32 n) kernWrite = none :=
      hx.imp_right fun hc => by rw [hc, hk, hs]
    refine (storeByte_below hsafe).mono id (fun _ _ => id) ?_
    rintro _ i₂ ⟨hk₂, hlt⟩
    rw [BitVec.lt_def, hv] at hlt
    exact ⟨hk₂.trans hk, .inr (by omega)⟩

-- What a write of `n` bytes to pages that are held leaves.
theorem storeBytes_wp (hh : Held m K e pd V i.kern) (hn : va.toNat + n ≤ UTOP.toNat)
    (hV : ∀ k < n, V ((va.toNat + k) / 4096)) :
    (storeBytes pd va f n).wp True (fun _ _ => False) (fun _ i' => i'.kern = i.kern ∧
      (∀ k < n, i'.read pd (va + BitVec.ofNat 32 k) = some (f k)) ∧
      ∀ {va'}, va' < UTOP → V (PGNUM va') → ¬(va.toNat ≤ va'.toNat ∧ va'.toNat < va.toNat + n) →
        i'.read pd va' = i.read pd va') i := by
  have htop : UTOP.toNat = 4005560320 := rfl
  induction n
  case zero => exact ⟨rfl, fun _ hk => absurd hk (Nat.not_lt_zero _), fun _ _ _ => rfl⟩
  case succ n hi =>
    simp only [storeBytes, Prog.wp_bind]
    refine (hi (by omega) fun k hk => hV k (by omega)).mono id (fun _ _ => id) ?_
    rintro _ i₁ ⟨hk₁, hr, hf⟩
    have hv {k : Nat} (hk : k ≤ n) : (va + BitVec.ofNat 32 k).toNat = va.toNat + k :=
      add_ofNat_toNat (by omega)
    have hlt {k : Nat} (hk : k ≤ n) : va + BitVec.ofNat 32 k < UTOP := by
      rw [BitVec.lt_def, hv hk]
      omega
    have hVk {k : Nat} (hk : k ≤ n) : V (PGNUM (va + BitVec.ofNat 32 k)) := by
      rw [PGNUM_eq_div, hv hk]
      exact hV k (by omega)
    refine (storeByte_wp (hk₁ ▸ hh) (hlt le_rfl) (hVk le_rfl)).mono id (fun _ _ => id) ?_
    rintro _ i₂ ⟨hk₂, hb, hf₂⟩
    refine ⟨hk₂.trans hk₁, fun k hk => ?_, fun {va'} h' hV' ho => ?_⟩
    · by_cases hkn : k = n
      · subst hkn
        exact hb
      · have hne : va + BitVec.ofNat 32 k ≠ va + BitVec.ofNat 32 n := fun hc => by
          have := congrArg BitVec.toNat hc
          rw [hv (by omega), hv le_rfl] at this
          omega
        rw [hf₂ (hlt (by omega)) (hVk (by omega)) hne]
        exact hr k (by omega)
    · have hne : va' ≠ va + BitVec.ofNat 32 n := fun hc => by
        rw [hc, hv le_rfl] at ho
        omega
      rw [hf₂ h' hV' hne, hf h' hV' (by omega)]

end Store

section Kernel

variable {m : Machine} {K : Nat → Nat → Word} {s s' : State} {own hand own' hand' : List Nat}
  {e : EnvPtr} {p pd : Nat} {va : Word}

-- The kernel cannot write through the entry for `UVPT`.
theorem uvpt_readOnly : (page2pa p ||| PTE_P ||| PTE_U) &&& kernWrite ≠ kernWrite := fun hc => by
  have := congrArg (·[1]) hc
  simp [page2pa, PTE_P, PTE_U, PTE_W, kernWrite] at this

-- Where the kernel can write from `UTOP` on is the same in all states.
theorem mmu_kernel (i : PageInv m K s own hand) (i' : PageInv m K s' own' hand')
    (h : s.pgdir e = some pd) (h' : s'.pgdir e = some pd) (hva : ¬va < UTOP) :
    mmu s' pd va kernWrite = mmu s pd va kernWrite := by
  have hx := UTOPX_le_PDX hva
  have hd := i.kern.dirs h hx PDX_lt
  have hd' := i'.kern.dirs h' hx PDX_lt
  simp only [mmu, hd, hd']
  by_cases hu : PDX va = UVPTX
  case pos => simp only [hu, if_true, uvpt_readOnly, false_and, if_false]
  case neg =>
    simp only [hu, if_false]
    by_cases hp : K m.kernPgdir (PDX va) &&& kernWrite = kernWrite
    case neg => simp only [hp, false_and, if_false]
    case pos =>
      have ht {s : State} (hs : s.mem m.kernPgdir = K m.kernPgdir) :
          s.target m (.ktable ⟨PDX va, PDX_lt⟩) = some (PGNUM (K m.kernPgdir (PDX va))) := by
        simp only [State.target, if_pos (And.intro hx hu), hs]
        exact entryPage_eq_some.mpr ⟨present_of_and hp (by decide), rfl⟩
      rw [i.kern.tables (ht i.kern.pgdir), i'.kern.tables (ht i'.kern.pgdir)]

end Kernel

-- The segments that `load_icode` loads.
def Binary.loadable (binary : Binary) : List Proghdr :=
  binary.proghdrs.filter (·.pType = ELF_PROG_LOAD)

-- What the byte number `k` of a segment has to be.
def Binary.content (binary : Binary) (ph : Proghdr) (k : Nat) : Byte :=
  if k < ph.pFilesz.toNat then binary.byte (ph.pOffset + BitVec.ofNat 32 k) else 0#8

-- Whether the page with number `n` has a byte of the segment.
def Proghdr.Touches (ph : Proghdr) (n : Nat) : Prop :=
  ∃ k < ph.pMemsz.toNat, (ph.pVa.toNat + k) / PGSIZE = n

def Binary.NoSharedPage (binary : Binary) : Prop :=
  binary.loadable.Pairwise fun a b => ∀ n, a.Touches n → ¬b.Touches n

-- The image is in the address space, and the kernel's part of it is as it was in `s`.
structure Loaded (m : Machine) (pd : Nat) (s : State) (binary : Binary) (i : Image) : Prop where
  segment : ∀ ph ∈ binary.loadable, ∀ k < ph.pMemsz.toNat, ph.pVa.toNat + k < UTOP.toNat ∧
    i.read pd (ph.pVa + BitVec.ofNat 32 k) = some (binary.content ph k)
  pgdir   : ∀ {d}, UTOPX ≤ d → d < NPDENTRIES → i.kern.mem pd d = s.mem pd d
  tables  : ∀ {d pt}, s.target m (.ktable d) = some pt → i.kern.mem pt = s.mem pt

-- The rounded end of the segment does not wrap around, unless `region_alloc` or the first write above
-- the user's part panics all the same.
def Proghdr.Ends (ph : Proghdr) (pd : Nat) (s : State) : Prop :=
  ph.pMemsz = 0#32 ∨ ph.pVa.toNat + ph.pMemsz.toNat + 4095 < 2 ^ 32 ∨
    UTOP < ROUNDUP (ph.pVa + ph.pMemsz) 4096#32 ∨ mmu s pd (firstAbove ph.pVa) kernWrite = none

-- An empty segment `b` gets the page of its address, which `a` must not need.
def Proghdr.Spares (a b : Proghdr) : Prop :=
  b.pMemsz = 0#32 → PGOFF b.pVa ≠ 0#32 → ¬a.Touches (PGNUM b.pVa)

structure Fits (pd : Nat) (s : State) (binary : Binary) : Prop where
  ends  : ∀ ph ∈ binary.loadable, ph.Ends pd s
  stack : ∀ ph ∈ binary.loadable, ¬ph.Touches (PGNUM (USTACKTOP - 4096#32))
  empty : binary.loadable.Pairwise Proghdr.Spares

section Loading

-- What `region_alloc` computes is known by its specification here.
attribute [local irreducible] Kern.regionAlloc

section Overwrites

variable {m : Machine} {i : Image} {p pd n : Nat} {va : Word} {f : Nat → Byte} {binary : Binary}
  {ph : Proghdr}

-- A write from an address on that the kernel may write, but not the user, ends there.
theorem storeBytes_above (hm : mmu i.kern pd va kernWrite = some p) (hva : ¬va < UTOP) (hn : 0 < n) :
    (storeBytes pd va f n).wp False (fun a _ => a = va) (fun _ _ => False) i := by
  induction n
  case zero => exact absurd hn (Nat.lt_irrefl 0)
  case succ n hi =>
    simp only [storeBytes, Prog.wp_bind]
    rcases Nat.eq_zero_or_pos n with rfl | hpos
    · have hz : va + BitVec.ofNat 32 0 = va := BitVec.add_zero va
      simp only [storeBytes, Prog.wp_pure, hz, storeByte, Prog.wp_bind, Prog.wp_get, hm, hva, if_false,
        Prog.wp_throw]
    · exact (hi hpos).mono id (fun _ _ => id) fun _ _ => False.elim

theorem regionAlloc_above (hva : ¬va < UTOP) {len : Word}
    (hu : ¬UTOP < ROUNDUP (va + len) 4096#32) :
    (regionAlloc m pd va len).wp False (fun _ _ => False) (fun _ i' => i' = i) i := by
  have htop : UTOP.toNat = 4005560320 := rfl
  have hini : (ROUNDDOWN va 4096#32).toNat = va.toNat / 4096 * 4096 := ROUNDDOWN_toNat
  have hz : ((ROUNDUP (va + len) 4096#32).toNat - (ROUNDDOWN va 4096#32).toNat) / PGSIZE = 0 := by
    rw [BitVec.lt_def] at hu hva
    rw [hini, PGSIZE]
    omega
  have hr : Kern.regionAlloc m i.kern pd va len = some i.kern := by
    simp only [Kern.regionAlloc, hu, if_false, hz]
    rfl
  simp only [regionAlloc, Prog.wp_bind, Prog.wp_get, hr, Prog.wp_modify]
  rfl

-- Where the end of a segment above the user's part wraps around, its first byte is written there.
theorem loadSegment_above (hp : ph.pType = ELF_PROG_LOAD) (hsz : ¬ph.pMemsz < ph.pFilesz)
    (hva : ¬ph.pVa < UTOP) (he : ¬ph.Ends pd i.kern) :
    (loadSegment m pd binary ph).wp False (fun a _ => a = ph.pVa) (fun _ _ => False) i := by
  simp only [Proghdr.Ends, not_or, firstAbove, hva, if_false] at he
  obtain ⟨h0, _, hu, hm⟩ := he
  obtain ⟨p, hm⟩ := Option.ne_none_iff_exists'.mp hm
  have hpos : 0 < ph.pMemsz.toNat := Nat.pos_of_ne_zero fun hc => h0 (BitVec.eq_of_toNat_eq hc)
  simp only [loadSegment, hp, ne_eq, not_true_eq_false, if_false, hsz, Prog.wp_bind, memcpy, memset]
  refine (regionAlloc_above hva hu).mono id (fun _ _ => False.elim) ?_
  rintro _ _ rfl
  rcases Nat.eq_zero_or_pos ph.pFilesz.toNat with hf | hf
  · have hz : ph.pFilesz = 0#32 := BitVec.eq_of_toNat_eq hf
    have h₁ : ph.pVa + 0#32 = ph.pVa := BitVec.add_zero _
    have h₂ : ph.pMemsz - 0#32 = ph.pMemsz := BitVec.sub_zero _
    simp only [hz, h₁, h₂]
    exact storeBytes_above hm hva hpos
  · rw [Prog.wp_bind]
    exact (storeBytes_above hm hva hf).mono id (fun _ _ => id) fun _ _ => False.elim

end Overwrites

section Segment

variable {m : Machine} {K : Nat → Nat → Word} {s : State} {i : Image} {e : EnvPtr} {pd n : Nat}
  {V : Nat → Prop} {va len : Word} {binary : Binary} {ph : Proghdr}

-- `region_alloc` leaves the bytes of the pages that it does not map.
theorem regionAlloc_wp (va len : Word) (hh : Held m K e pd V i.kern) :
    (regionAlloc m pd va len).wp True (fun _ _ => False) (fun _ i' =>
      (ROUNDUP (va + len) 4096#32).toNat ≤ UTOP.toNat ∧
      Held m K e pd (fun n => V n ∨ Region va len n) i'.kern ∧
      ∀ {va'}, va' < UTOP → V (PGNUM va') → ¬Region va len (PGNUM va') →
        i'.read pd va' = i.read pd va') i := by
  simp only [regionAlloc, Prog.wp_bind, Prog.wp_get]
  cases hr : Kern.regionAlloc m i.kern pd va len
  case none   => trivial
  case some s =>
    obtain ⟨hu, hh', he⟩ := hh.regionAlloc hr
    refine ⟨hu, hh', fun {va'} h' hV hn => ?_⟩
    obtain ⟨p, hp, hep⟩ := hh.mmu h' hV
    obtain ⟨p', hp', hep'⟩ := hh'.mmu h' (.inl hV)
    rw [he h' hn, hep] at hep'
    obtain rfl : p = p' := Option.some.inj hep'
    simp only [Image.read, hp, Image.setKern_kern, hp', Image.setKern_data]

theorem region_empty (h : Region va 0#32 n) : PGOFF va ≠ 0#32 ∧ n = PGNUM va := by
  have hlt := va.isLt
  have hz : va + 0#32 = va := BitVec.add_zero va
  simp only [Region, hz, PGNUM_eq_div] at h
  by_cases hc : va.toNat + 4095 < 4294967296
  case pos =>
    rw [ROUNDUP_toNat hc] at h
    refine ⟨fun h0 => ?_, by rw [PGNUM_eq_div]; omega⟩
    have := congrArg BitVec.toNat h0
    rw [PGOFF_toNat] at this
    simp only [BitVec.toNat_ofNat] at this
    omega
  case neg =>
    have he : va + 4096#32 - 1 = va + 4095#32 := by
      rw [BitVec.sub_eq_add_neg, BitVec.add_assoc]
      rfl
    rw [ROUNDUP, ROUNDDOWN_toNat, he, BitVec.toNat_add, show (4095#32).toNat = 4095 by rfl] at h
    omega

theorem region_iff (h : ph.pVa.toNat + ph.pMemsz.toNat + 4095 < 2 ^ 32) (h0 : 0 < ph.pMemsz.toNat) :
    Region ph.pVa ph.pMemsz n ↔ ph.Touches n := by
  have hs : (ph.pVa + ph.pMemsz).toNat = ph.pVa.toNat + ph.pMemsz.toNat := by
    rw [BitVec.toNat_add]
    omega
  have hr : (ROUNDUP (ph.pVa + ph.pMemsz) 4096#32).toNat =
      ((ph.pVa + ph.pMemsz).toNat + 4095) / 4096 * 4096 := ROUNDUP_toNat (by omega)
  simp only [Region, PGNUM_eq_div, hr, hs, Proghdr.Touches, PGSIZE]
  constructor
  case mp  =>
    rintro ⟨h₁, h₂⟩
    by_cases hn : n = ph.pVa.toNat / 4096
    · exact ⟨0, h0, hn.symm⟩
    · exact ⟨n * 4096 - ph.pVa.toNat, by omega, by omega⟩
  case mpr =>
    rintro ⟨k, hk, rfl⟩
    omega

theorem rest_toNat (h : ph.pFilesz.toNat ≤ ph.pMemsz.toNat) :
    (ph.pMemsz - ph.pFilesz).toNat = ph.pMemsz.toNat - ph.pFilesz.toNat := by
  rw [BitVec.toNat_sub]
  omega

-- Copying the file's part of a segment and clearing the rest.
def copySegment (pd : Nat) (binary : Binary) (ph : Proghdr) : Load Unit := do
  memcpy pd binary ph.pVa ph.pOffset ph.pFilesz
  memset pd (ph.pVa + ph.pFilesz) 0#8 (ph.pMemsz - ph.pFilesz)

theorem copySegment_wp (hh : Held m K e pd V i.kern) (hsz : ph.pFilesz.toNat ≤ ph.pMemsz.toNat)
    (hn : ph.pVa.toNat + ph.pMemsz.toNat ≤ UTOP.toNat) (hV : ∀ n, ph.Touches n → V n) :
    (copySegment pd binary ph).wp True (fun _ _ => False) (fun _ i' => i'.kern = i.kern ∧
      (∀ k < ph.pMemsz.toNat, i'.read pd (ph.pVa + BitVec.ofNat 32 k) = some (binary.content ph k)) ∧
      ∀ {va'}, va' < UTOP → V (PGNUM va') → ¬ph.Touches (PGNUM va') →
        i'.read pd va' = i.read pd va') i := by
  have htop : UTOP.toNat = 4005560320 := rfl
  have hlen := rest_toNat hsz
  have hmid : (ph.pVa + ph.pFilesz).toNat = ph.pVa.toNat + ph.pFilesz.toNat := by
    rw [BitVec.toNat_add]
    omega
  have hVk {k : Nat} (hk : k < ph.pMemsz.toNat) : V ((ph.pVa.toNat + k) / 4096) := hV _ ⟨k, hk, rfl⟩
  have hv {k : Nat} (hk : k < ph.pMemsz.toNat) :
      (ph.pVa + BitVec.ofNat 32 k).toNat = ph.pVa.toNat + k := add_ofNat_toNat (by omega)
  have hout {va' : Word} (h : ¬ph.Touches (PGNUM va')) {k : Nat} (hk : k < ph.pMemsz.toNat) :
      va'.toNat ≠ ph.pVa.toNat + k := fun hc => h ⟨k, hk, by rw [PGNUM_eq_div, hc, PGSIZE]⟩
  simp only [copySegment, Prog.wp_bind, memcpy, memset]
  refine (storeBytes_wp hh (by omega) fun k hk => hVk (by omega)).mono id (fun _ _ => id) ?_
  rintro _ i₁ ⟨hk₁, hr₁, hf₁⟩
  refine (storeBytes_wp (hk₁ ▸ hh) (by omega) fun k hk => ?_).mono id (fun _ _ => id) ?_
  · rw [hmid, Nat.add_assoc]
    exact hVk (by omega)
  rintro _ i₂ ⟨hk₂, hr₂, hf₂⟩
  refine ⟨hk₂.trans hk₁, fun k hk => ?_, fun {va'} h' hV' hn' => ?_⟩
  · rw [Binary.content]
    split
    case isTrue hc =>
      have hlt : ph.pVa + BitVec.ofNat 32 k < UTOP := by
        rw [BitVec.lt_def, hv hk]
        omega
      rw [hf₂ hlt (by rw [PGNUM_eq_div, hv hk]; exact hVk hk) (by rw [hv hk]; omega)]
      exact hr₁ k hc
    case isFalse hc =>
      have hx : ph.pVa + BitVec.ofNat 32 k =
          ph.pVa + ph.pFilesz + BitVec.ofNat 32 (k - ph.pFilesz.toNat) := BitVec.eq_of_toNat_eq <| by
        rw [hv hk, add_ofNat_toNat (by omega), hmid]
        omega
      rw [hx]
      exact hr₂ _ (by omega)
  · have hne : ¬(ph.pVa.toNat ≤ va'.toNat ∧ va'.toNat < ph.pVa.toNat + ph.pMemsz.toNat) := fun hc =>
      hout hn' (k := va'.toNat - ph.pVa.toNat) (by omega) (by omega)
    rw [hf₂ h' hV' (by omega), hf₁ h' hV' (by omega)]

-- A segment that goes on over the end of the user's part is not copied to its end.
theorem copySegment_below (hsz : ph.pFilesz.toNat ≤ ph.pMemsz.toNat)
    (hs : mmu i.kern pd (firstAbove ph.pVa) kernWrite = none) :
    (copySegment pd binary ph).wp True (fun _ _ => False)
      (fun _ _ => ph.pMemsz.toNat = 0 ∨ ph.pVa.toNat + ph.pMemsz.toNat ≤ UTOP.toNat) i := by
  have htop : UTOP.toNat = 4005560320 := rfl
  have hlen := rest_toNat hsz
  simp only [copySegment, Prog.wp_bind, memcpy, memset]
  refine (storeBytes_below hs).mono id (fun _ _ => id) ?_
  rintro _ i₁ ⟨hk₁, hn₁⟩
  have hmid : (ph.pVa + ph.pFilesz).toNat = ph.pVa.toNat + ph.pFilesz.toNat := by
    have := ph.pVa.isLt
    rw [BitVec.toNat_add]
    omega
  have hfirst : firstAbove (ph.pVa + ph.pFilesz) = firstAbove ph.pVa := by
    by_cases h0 : ph.pFilesz.toNat = 0
    · rw [BitVec.eq_of_toNat_eq (x := ph.pFilesz) (y := 0#32) h0, BitVec.add_zero]
    · have hva : ph.pVa < UTOP := by
        rw [BitVec.lt_def]
        omega
      rw [firstAbove, firstAbove, if_pos hva]
      split
      case isTrue  => rfl
      case isFalse hc =>
        rw [BitVec.lt_def] at hc
        exact BitVec.eq_of_toNat_eq (by omega)
  refine (storeBytes_below (by rw [hfirst, hk₁, hs])).mono id (fun _ _ => id) ?_
  rintro _ i₂ ⟨_, hn₂⟩
  omega

theorem copySegment_empty (h : ph.pMemsz.toNat = 0) (hsz : ph.pFilesz.toNat ≤ ph.pMemsz.toNat) :
    (copySegment pd binary ph).wp True (fun _ _ => False) (fun _ i' => i' = i) i := by
  have hf : ph.pFilesz = 0#32 := BitVec.eq_of_toNat_eq (Nat.le_zero.mp (h ▸ hsz))
  have hm : ph.pMemsz = 0#32 := BitVec.eq_of_toNat_eq h
  simp only [copySegment, memcpy, memset, hf, hm]
  rfl

-- One segment is loaded, and the pages that are held keep their bytes.
theorem loadSegment_wp (hh : Held m K e pd V i.kern) (hp : ph.pType = ELF_PROG_LOAD)
    (hs : ph.Ends pd i.kern) (ha : ∀ n, V n → ¬ph.Touches n)
    (he : ph.pMemsz = 0#32 → PGOFF ph.pVa ≠ 0#32 → ¬V (PGNUM ph.pVa)) :
    (loadSegment m pd binary ph).wp True (fun _ _ => False) (fun _ i' =>
      Held m K e pd (fun n => V n ∨ ph.Touches n) i'.kern ∧
      (∀ {va'}, va' < UTOP → V (PGNUM va') → i'.read pd va' = i.read pd va') ∧
      ∀ k < ph.pMemsz.toNat, ph.pVa.toNat + k < UTOP.toNat ∧
        i'.read pd (ph.pVa + BitVec.ofNat 32 k) = some (binary.content ph k)) i := by
  have htop : UTOP.toNat = 4005560320 := rfl
  have hbody : loadSegment m pd binary ph = if ph.pMemsz < ph.pFilesz then Prog.panic
      else regionAlloc m pd ph.pVa ph.pMemsz >>= fun _ => copySegment pd binary ph := by
    simp only [loadSegment, hp, ne_eq, not_true_eq_false, if_false, copySegment]
  rw [hbody, Prog.wp_ite]
  refine ⟨fun _ => trivial, fun hsz => ?_⟩
  have hsz : ph.pFilesz.toNat ≤ ph.pMemsz.toNat := by
    rw [BitVec.lt_def] at hsz
    omega
  rw [Prog.wp_bind]
  refine (regionAlloc_wp ph.pVa ph.pMemsz hh).mono id (fun _ _ => id) ?_
  rintro _ i₁ ⟨hu, hh₁, hf₁⟩
  by_cases h0 : ph.pMemsz = 0#32
  case pos =>
    -- An empty segment has no bytes, and its page is not held.
    have hz : ph.pMemsz.toNat = 0 := congrArg BitVec.toNat h0
    have hno (n) : ¬ph.Touches n := by
      rintro ⟨k, hk, _⟩
      omega
    have hmap {n} (hn : Region ph.pVa ph.pMemsz n) (hV : V n) : False := by
      rw [h0] at hn
      obtain ⟨ho, rfl⟩ := region_empty hn
      exact he h0 ho hV
    have hV₁ : Held m K e pd (fun n => V n ∨ ph.Touches n) i₁.kern :=
      hh₁.mono fun hn => .inl (hn.resolve_right (hno _))
    refine (copySegment_empty hz hsz).mono id (fun _ _ => id) ?_
    rintro _ _ rfl
    exact ⟨hV₁, fun h' hV' => hf₁ h' hV' fun hn => hmap hn hV', fun k hk => by omega⟩
  case neg =>
    have hpos : 0 < ph.pMemsz.toNat := Nat.pos_of_ne_zero fun hc => h0 (BitVec.eq_of_toNat_eq hc)
    by_cases hw : ph.pVa.toNat + ph.pMemsz.toNat + 4095 < 2 ^ 32
    case pos =>
      have hreg {n} : Region ph.pVa ph.pMemsz n ↔ ph.Touches n := region_iff hw hpos
      have hadd : (ph.pVa + ph.pMemsz).toNat = ph.pVa.toNat + ph.pMemsz.toNat := by
        rw [BitVec.toNat_add]
        omega
      rw [ROUNDUP_toNat (by omega), hadd] at hu
      simp only [hreg] at hh₁ hf₁
      refine (copySegment_wp hh₁ hsz (by omega) fun _ => .inr).mono id (fun _ _ => id) ?_
      rintro _ i₂ ⟨hk₂, hr₂, hf₂⟩
      refine ⟨hk₂ ▸ hh₁, fun h' hV' => ?_, fun k hk => ⟨by omega, hr₂ k hk⟩⟩
      rw [hf₂ h' (.inl hV') (ha _ hV'), hf₁ h' hV' (ha _ hV')]
    case neg =>
      have hend := (hs.resolve_left h0).resolve_left hw
      rcases hend with hc | hc
      · rw [BitVec.lt_def] at hc
        omega
      · rw [← mmu_kernel hh.inv hh₁.inv hh.dir hh₁.dir firstAbove_not_lt] at hc
        refine (copySegment_below hsz hc).mono id (fun _ _ => id) fun _ _ h => ?_
        omega

end Segment

section Segments

variable {m : Machine} {K : Nat → Nat → Word} {s : State} {i : Image} {e : EnvPtr} {pd : Nat}
  {binary : Binary} {phs l : List Proghdr}

-- The pages of the segments `phs`.
def Pages (phs : List Proghdr) (n : Nat) : Prop := ∃ ph ∈ phs, ph.Touches n

-- The segments `phs` have been loaded.
structure Progress (m : Machine) (K : Nat → Nat → Word) (e : EnvPtr) (pd : Nat) (binary : Binary)
    (phs : List Proghdr) (i : Image) : Prop where
  held  : Held m K e pd (Pages phs) i.kern
  bytes : ∀ ph ∈ phs, ∀ k < ph.pMemsz.toNat, ph.pVa.toNat + k < UTOP.toNat ∧
    i.read pd (ph.pVa + BitVec.ofNat 32 k) = some (binary.content ph k)

-- The byte number `k` of a segment is in a page of the segment.
theorem Proghdr.touches {ph : Proghdr} {k : Nat} (hk : k < ph.pMemsz.toNat)
    (h : ph.pVa.toNat + k < UTOP.toNat) : ph.pVa + BitVec.ofNat 32 k < UTOP ∧
      ph.Touches (PGNUM (ph.pVa + BitVec.ofNat 32 k)) := by
  have htop : UTOP.toNat = 4005560320 := rfl
  have hv : (ph.pVa + BitVec.ofNat 32 k).toNat = ph.pVa.toNat + k := add_ofNat_toNat (by omega)
  refine ⟨by rw [BitVec.lt_def, hv]; exact h, k, hk, ?_⟩
  rw [PGNUM_eq_div, hv, PGSIZE]

-- The bytes that are loaded stay while the pages that hold them keep theirs.
theorem Progress.keep {i' : Image} (hp : Progress m K e pd binary phs i)
    (hf : ∀ {va'}, va' < UTOP → Pages phs (PGNUM va') → i'.read pd va' = i.read pd va') :
    ∀ ph ∈ phs, ∀ k < ph.pMemsz.toNat, ph.pVa.toNat + k < UTOP.toNat ∧
      i'.read pd (ph.pVa + BitVec.ofNat 32 k) = some (binary.content ph k) := by
  intro ph hm k hk
  obtain ⟨hlt, hr⟩ := hp.bytes ph hm k hk
  obtain ⟨h₁, h₂⟩ := Proghdr.touches hk hlt
  exact ⟨hlt, (hf h₁ ⟨ph, hm, h₂⟩).trans hr⟩

-- Nothing has been loaded into a new address space.
theorem Progress.start (hi : PageInv m K i.kern [] []) (hd : i.kern.pgdir e = some pd)
    (hn : ∀ d, i.kern.tableOf e d = none) : Progress m K e pd binary [] i := by
  have hno {n : Nat} (h : Pages [] n) : False := by
    obtain ⟨_, hm, _⟩ := h
    exact List.not_mem_nil hm
  exact ⟨⟨hi, hd, fun ht => absurd (hn _) ht, fun _ h => (hno h).elim, fun _ _ h => (hno h).elim⟩,
    fun _ hm => absurd hm List.not_mem_nil⟩

theorem Progress.loadSegment {ph : Proghdr} (hp : Progress m K e pd binary phs i)
    (hl : ph.pType = ELF_PROG_LOAD) (hs : ph.Ends pd i.kern)
    (ha : ∀ a ∈ phs, (∀ n, a.Touches n → ¬ph.Touches n) ∧ a.Spares ph) :
    (loadSegment m pd binary ph).wp True (fun _ _ => False)
      (fun _ i' => Progress m K e pd binary (phs ++ [ph]) i') i := by
  refine (loadSegment_wp hp.held hl hs ?_ ?_).mono id (fun _ _ => id) ?_
  · rintro n ⟨a, hm, hn⟩
    exact (ha a hm).left n hn
  · rintro h0 ho ⟨a, hm, hn⟩
    exact (ha a hm).right h0 ho hn
  · rintro _ i' ⟨hh, hf, hb⟩
    have hkeep := hp.keep hf
    refine ⟨hh.mono ?_, fun a hm => ?_⟩
    · rintro n ⟨a, hm, hn⟩
      rcases List.mem_append.mp hm with hm | hm
      · exact .inl ⟨a, hm, hn⟩
      · exact .inr (List.mem_singleton.mp hm ▸ hn)
    · rcases List.mem_append.mp hm with hm | hm
      · exact hkeep a hm
      · exact List.mem_singleton.mp hm ▸ hb

-- The condition on the end of a segment does not depend on what is loaded before it.
theorem Proghdr.Ends.congr {ph : Proghdr} {V V' : Nat → Prop} {s' : State} (h : ph.Ends pd s)
    (hh : Held m K e pd V s) (hh' : Held m K e pd V' s') : ph.Ends pd s' := by
  refine h.imp_right (Or.imp_right (Or.imp_right fun hm => ?_))
  rw [mmu_kernel hh.inv hh'.inv hh.dir hh'.dir firstAbove_not_lt, hm]

theorem Progress.loadSegments (hp : Progress m K e pd binary phs i)
    (hs : ∀ ph ∈ l.filter (·.pType = ELF_PROG_LOAD), ph.Ends pd i.kern)
    (ha : (phs ++ l.filter (·.pType = ELF_PROG_LOAD)).Pairwise
      fun a b => (∀ n, a.Touches n → ¬b.Touches n) ∧ a.Spares b) :
    (loadSegments m pd binary l).wp True (fun _ _ => False) (fun _ i' =>
      Progress m K e pd binary (phs ++ l.filter (·.pType = ELF_PROG_LOAD)) i') i := by
  induction l generalizing phs i
  case nil =>
    simp only [Icode.loadSegments, List.filter_nil, List.append_nil, Prog.wp_pure]
    exact hp
  case cons ph l hi =>
    simp only [Icode.loadSegments, Prog.wp_bind]
    by_cases hl : ph.pType = ELF_PROG_LOAD
    case neg =>
      rw [List.filter_cons_of_neg (by simpa using hl)] at hs ha ⊢
      simp only [Icode.loadSegment, ne_eq, hl, not_false_eq_true, if_true, Prog.wp_pure]
      exact hi hp hs ha
    case pos =>
      rw [List.filter_cons_of_pos (by simpa using hl)] at hs ha ⊢
      have hbefore := (List.pairwise_append.mp ha).right.right
      refine (hp.loadSegment hl (hs ph List.mem_cons_self)
        fun a hm => hbefore a hm ph List.mem_cons_self).mono id (fun _ _ => id) ?_
      intro _ i₁ hp₁
      have happ : phs ++ ph :: l.filter (·.pType = ELF_PROG_LOAD) =
          phs ++ [ph] ++ l.filter (·.pType = ELF_PROG_LOAD) := by simp
      rw [happ] at ha ⊢
      exact hi hp₁ (fun b hm => (hs b (List.mem_cons_of_mem _ hm)).congr hp.held hp₁.held) ha

-- A change to an environment that keeps its page directory leaves its address space alone.
theorem Held.setEnv {V : Nat → Prop} {v : Env} (hh : Held m K e pd V s) (hv : v.envPgdir = s.pgdir e) :
    Held m K e pd V (s.setEnv e v) where
  inv    := hh.inv.setEnv hv
  dir    := by
    rw [pgdir_setEnv_self hv]
    exact hh.dir
  pde    := by
    have ht : (s.setEnv e v).tableOf = s.tableOf := tableOf_congr rfl (pgdir_setEnv_self hv)
    rw [ht]
    exact fun {_} hd => hh.pde hd
  mapped := by
    rw [entry_setEnv hv]
    exact hh.mapped
  alone  := by
    rw [entry_setEnv hv]
    exact hh.alone

theorem region_stack {n : Nat} (h : Region (USTACKTOP - 4096#32) 4096#32 n) :
    n = PGNUM (USTACKTOP - 4096#32) := by
  have h₁ : PGNUM (USTACKTOP - 4096#32) = 977917 := by decide
  have h₂ : PGNUM (ROUNDUP (USTACKTOP - 4096#32 + 4096#32) 4096#32) = 977918 := by decide
  rw [Region, h₁, h₂] at h
  omega

-- `load_icode` loads the segments of a binary whose headers fit, and never leaves the user's part of
-- the address space.
theorem loadIcode_wp (hi : PageInv m K i.kern [] []) (hd : i.kern.pgdir e = some pd)
    (hn : ∀ d, i.kern.tableOf e d = none) (hs : binary.NoSharedPage) (hf : Fits pd i.kern binary) :
    (loadIcode m e binary).wp True (fun _ _ => False)
      (fun _ i' => Loaded m pd i.kern binary i') i := by
  have h₀ : Progress m K e pd binary [] i := .start hi hd hn
  have hpair : ([] ++ binary.loadable).Pairwise
      fun (a b : Proghdr) => (∀ n, a.Touches n → ¬b.Touches n) ∧ a.Spares b :=
    List.Pairwise.and hs hf.empty
  simp only [loadIcode, Prog.wp_ite, Prog.wp_bind, Prog.wp_get, Prog.wp_panic, hd]
  refine ⟨fun _ => trivial, fun _ => ?_⟩
  refine (h₀.loadSegments hf.ends hpair).mono id (fun _ _ => id) ?_
  intro _ i₁ h₁
  rw [Prog.wp_bind, Prog.wp_modify]
  have hh : Held m K e pd (Pages binary.loadable) (setEip e binary.eEntry i₁.kern) :=
    h₁.held.setEnv rfl
  refine (regionAlloc_wp (i := i₁.setKern (setEip e binary.eEntry i₁.kern)) _ _ hh).mono id
    (fun _ _ => id) ?_
  rintro _ i₂ ⟨_, hh₂, hr⟩
  refine ⟨?_, fun hx hl => ?_, fun {d pt} ht => ?_⟩
  · refine h₁.keep fun {va'} h' hp => hr h' hp fun hc => ?_
    obtain ⟨ph, hm, ht⟩ := hp
    exact hf.stack ph hm (region_stack hc ▸ ht)
  · rw [hi.kern.dirs hd hx hl, hh₂.inv.kern.dirs hh₂.dir hx hl]
  · have ht₂ : i₂.kern.target m (.ktable d) = some pt := by
      simpa only [State.target, hi.kern.pgdir, hh₂.inv.kern.pgdir] using ht
    rw [hi.kern.tables ht, hh₂.inv.kern.tables ht₂]

-- The other program headers are passed over.
theorem loadSegments_filter : loadSegments m pd binary l =
    loadSegments m pd binary (l.filter (·.pType = ELF_PROG_LOAD)) := by
  induction l
  case nil => rfl
  case cons ph l hi =>
    by_cases hl : ph.pType = ELF_PROG_LOAD
    case pos =>
      rw [List.filter_cons_of_pos (by simpa using hl), Icode.loadSegments, Icode.loadSegments, hi]
    case neg =>
      rw [List.filter_cons_of_neg (by simpa using hl), ← hi, Icode.loadSegments, Icode.loadSegment,
        if_pos hl]
      rfl

-- When the first segment is not in the user's part, the run is a panic or overwrites the kernel.
theorem loadIcode_above {ph : Proghdr} (hi : PageInv m K i.kern [] []) (hd : i.kern.pgdir e = some pd)
    (hn : ∀ d, i.kern.tableOf e d = none) (hl : binary.loadable = ph :: l) (hva : ¬ph.pVa < UTOP)
    (h0 : ph.pMemsz ≠ 0#32) : (loadIcode m e binary).wp True (fun _ _ => False)
      (fun _ i' => Loaded m pd i.kern binary i') i ↔
    binary.eMagic ≠ ELF_MAGIC ∨ ph.pMemsz < ph.pFilesz ∨ ph.Ends pd i.kern := by
  have hp : ph.pType = ELF_PROG_LOAD := by
    have hm : ph ∈ binary.loadable := hl ▸ List.mem_cons_self
    simpa using (List.mem_filter.mp hm).right
  have hrun : loadSegments m pd binary binary.proghdrs =
      loadSegment m pd binary ph >>= fun _ => loadSegments m pd binary l := by
    rw [loadSegments_filter, ← Binary.loadable, hl, Icode.loadSegments]
  simp only [loadIcode, Prog.wp_ite, Prog.wp_bind, Prog.wp_get, Prog.wp_panic, hd, hrun]
  constructor
  case mp =>
    rintro ⟨_, h⟩
    by_contra hc
    simp only [not_or, not_not] at hc
    obtain ⟨hm, hsz, he⟩ := hc
    have h' : (Icode.loadSegment m pd binary ph).wp False (fun a _ => a = ph.pVa) (fun _ _ => False) i :=
      loadSegment_above hp hsz hva he
    have hand := (h (not_not.mpr hm)).and h'
    revert hand
    simp only [Prog.wp]
    cases Icode.loadSegment m pd binary ph i <;> simp
  case mpr =>
    intro h
    refine ⟨fun _ => trivial, fun hm => ?_⟩
    rcases h with h | h | h
    · exact absurd h hm
    · have hs : Icode.loadSegment m pd binary ph = Prog.panic := by
        rw [Icode.loadSegment, if_neg (not_not.mpr hp), if_pos h]
      simp only [hs, Prog.wp_panic]
    · have h₀ : Progress m K e pd binary [] i := .start hi hd hn
      refine (h₀.loadSegment hp h fun _ hm => absurd hm List.not_mem_nil).mono id (fun _ _ => id) ?_
      intro _ i₁ h₁
      have hpos : 0 < ph.pMemsz.toNat := Nat.pos_of_ne_zero fun hc => h0 (BitVec.eq_of_toNat_eq hc)
      have hlt := (h₁.bytes ph List.mem_cons_self 0 hpos).left
      exact absurd (BitVec.lt_def.mpr hlt) hva

end Segments

end Loading

section Refines

variable {m : Machine} {i : Image} {e : EnvPtr} {pd n : Nat} {va len : Word} {b : Byte}
  {f : Nat → Byte} {binary : Binary} {l : List Proghdr}

def Binary.elf (binary : Binary) : Elf where
  eMagic   := binary.eMagic
  eEntry   := binary.eEntry
  proghdrs := binary.proghdrs.map (·.toProghdr)

theorem storeByte_kern : (storeByte pd va b).wp True (fun _ _ => True)
    (fun _ i' => i'.kern = i.kern) i := by
  simp only [storeByte, Prog.wp_bind, Prog.wp_get]
  cases mmu i.kern pd va kernWrite
  case none   => trivial
  case some p =>
    rw [Prog.wp_ite]
    exact ⟨fun _ => rfl, fun _ => trivial⟩

theorem storeBytes_kern : (storeBytes pd va f n).wp True (fun _ _ => True)
    (fun _ i' => i'.kern = i.kern) i := by
  induction n
  case zero => exact rfl
  case succ n hi =>
    simp only [storeBytes, Prog.wp_bind]
    refine hi.mono id (fun _ _ => id) fun _ i₁ h₁ => ?_
    exact storeByte_kern.mono id (fun _ _ => id) fun _ i₂ h₂ => h₂.trans h₁

theorem loadSegments_kern : (loadSegments m pd binary l).wp True (fun _ _ => True) (fun _ i' =>
    (l.map (·.toProghdr)).foldlM (fun s ph =>
      if ph.pType ≠ ELF_PROG_LOAD then some s
      else if ph.pMemsz < ph.pFilesz then none
      else Kern.regionAlloc m s pd ph.pVa ph.pMemsz) i.kern = some i'.kern) i := by
  induction l generalizing i
  case nil => exact rfl
  case cons ph l hi =>
    simp only [loadSegments, Prog.wp_bind, List.map_cons, List.foldlM_cons]
    by_cases hl : ph.pType ≠ ELF_PROG_LOAD
    case pos =>
      simp only [loadSegment, hl, not_false_eq_true, if_true, Prog.wp_pure, ne_eq, Option.bind_eq_bind,
        Option.bind_some]
      exact hi
    case neg =>
      simp only [loadSegment, hl, if_false]
      by_cases hsz : ph.pMemsz < ph.pFilesz
      case pos => simp only [hsz, if_true, Prog.wp_panic]
      case neg =>
        simp only [hsz, if_false, Prog.wp_bind, regionAlloc, Prog.wp_get]
        cases hr : Kern.regionAlloc m i.kern pd ph.pVa ph.pMemsz
        case none   => trivial
        case some s =>
          rw [Prog.wp_modify, Prog.wp_bind]
          refine storeBytes_kern.mono id (fun _ _ => id) fun _ i₁ h₁ => ?_
          refine storeBytes_kern.mono id (fun _ _ => id) fun _ i₂ h₂ => ?_
          have hk : i₂.kern = s := h₂.trans h₁
          exact hi.mono id (fun _ _ => id) fun _ i₃ h₃ => by
            rw [Option.bind_eq_bind, Option.bind_some, ← hk, h₃]

-- Apart from the bytes, `load_icode` does what the kernel's model says.
theorem loadIcode_kern : (loadIcode m e binary).wp True (fun _ _ => True)
    (fun _ i' => Kern.loadIcode m i.kern e binary.elf = some i'.kern) i := by
  simp only [loadIcode, Prog.wp_ite, Prog.wp_bind, Prog.wp_get, Prog.wp_panic]
  refine ⟨fun _ => trivial, fun hm => ?_⟩
  cases hd : i.kern.pgdir e
  case none    => trivial
  case some pd =>
    simp only [Prog.wp_bind]
    refine loadSegments_kern.mono id (fun _ _ => id) fun _ i₁ h₁ => ?_
    simp only [Prog.wp_modify, regionAlloc, Prog.wp_bind, Prog.wp_get, Image.setKern_kern]
    cases hr : Kern.regionAlloc m (setEip e binary.eEntry i₁.kern) pd (USTACKTOP - 4096#32) 4096#32
    case none   => trivial
    case some s =>
      have hm : binary.elf.eMagic = ELF_MAGIC := not_not.mp hm
      simp only [Kern.loadIcode, hm, ne_eq, not_true_eq_false, if_false, hd, Option.bind_eq_bind,
        Option.bind_some]
      exact Option.bind_eq_some_iff.mpr ⟨i₁.kern, h₁, hr⟩

end Refines

section Sample

-- The first environment has been allocated, and `env_create` is about to load its image.
def fresh : State := (envAlloc Sample.machine Sample.boot 0#32).2

def freshPgdir : Nat := 32699

-- A binary with one segment, whose file is not empty.
def oneSegment (va filesz memsz : Word) : Binary where
  eMagic   := ELF_MAGIC
  eEntry   := va
  proghdrs := [⟨⟨ELF_PROG_LOAD, va, filesz, memsz⟩, 0x1000#32⟩]
  byte i   := BitVec.ofNat 8 (i.toNat + 1)

def freshImage : Image := ⟨fresh, fun _ _ => 0#8⟩

theorem fresh_inv : PageInv Sample.machine Sample.boot.mem fresh [] [] :=
  (Sample.boot_boot.kernInv.envAlloc rfl).left.page

theorem fresh_pgdir : fresh.pgdir 0 = some freshPgdir := by decide

theorem fresh_tables (d : Fin UTOPX) : fresh.tableOf 0 d = none := by
  have hd : (d : Nat) < 955 := d.isLt
  have hk : Sample.kernDir 68 d = 0#32 := by
    rw [Sample.kernDir, if_neg (by omega), if_neg (by omega)]
  have hm : fresh.mem freshPgdir = envPgdirOf (Sample.kernDir 68) freshPgdir := rfl
  have hne : (d : Nat) ≠ PDX UVPT := by
    rw [UVPTX_eq, UVPTX]
    omega
  rw [tableOf_eq fresh_pgdir, hm, envPgdirOf, update_of_ne hne, hk]
  rfl

theorem loadable_oneSegment {va filesz memsz : Word} : (oneSegment va filesz memsz).loadable =
    [⟨⟨ELF_PROG_LOAD, va, filesz, memsz⟩, 0x1000#32⟩] := rfl

-- A segment at the kernel's own code whose end wraps around to 0 is written there.
theorem overwrites_kernel :
    loadIcode Sample.machine 0 (oneSegment 0xF0100000#32 1#32 0x0FF00000#32) freshImage =
      .error 0xF0100000#32 freshImage := rfl

end Sample

end Kern.Icode

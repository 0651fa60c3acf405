import Sisop.Kern.Theorems.Step
import Sisop.Kern.Theorems.Sample
import Mathlib.Data.Fintype.Prod

namespace Kern

open Inc Function Library

variable {m : Machine} {s₀ s : State}

theorem KernInv.envCreates {K : Nat → Nat → Word} {s' : State} {l : List (Elf × EnvType)}
    (i : KernInv m K s) (h : envCreates m s l = some s') : KernInv m K s' :=
  foldlM_list h i fun _ => envCreate_spec

theorem Reachable.kernInv (r : Reachable m (SafeStep m) s₀ s) : KernInv m s₀.mem s := by
  obtain ⟨hb, _, _, hc, hr⟩ := r
  exact (hb.kernInv.envCreates hc).run hr

section KernelHalf

-- The page directory entry and the page table entry that serve `va` in the page directory `pd`.
def State.walk (s : State) (pd : Nat) (va : Word) : Word × Option Word :=
  let pde := s.mem pd (PDX va)
  (pde, (entryPage pde).map fun pt => s.mem pt (PTX va))

-- Above `UTOP` and apart from `UVPT` every address space is what `kern_pgdir` was in `s₀`, down to the
-- entries of `kern_pgdir` and of its page tables.
structure KernelHalfKept (m : Machine) (s₀ s : State) : Prop where
  walk   : ∀ {e pd va}, s.pgdir e = some pd → UTOP ≤ va → PDX va ≠ PDX UVPT →
    s.walk pd va = s₀.walk m.kernPgdir va
  pdes   : ∀ {d}, PDX UTOP ≤ d → d < NPDENTRIES → s.mem m.kernPgdir d = s₀.mem m.kernPgdir d
  ptes   : ∀ {d pt}, PDX UTOP ≤ d → d < NPDENTRIES → d ≠ PDX UVPT →
    entryPage (s₀.mem m.kernPgdir d) = some pt → s.mem pt = s₀.mem pt

theorem KernInv.kernelHalfKept (i : KernInv m s₀.mem s) : KernelHalfKept m s₀ s := by
  have hdir := i.page.kern.pgdir
  have htables {d : Nat} {pt : Nat} (h₁ : PDX UTOP ≤ d) (h₂ : d < NPDENTRIES) (h₃ : d ≠ PDX UVPT)
      (hp : entryPage (s₀.mem m.kernPgdir d) = some pt) : s.mem pt = s₀.mem pt := by
    refine i.page.kern.tables (d := ⟨d, h₂⟩) ?_
    rw [State.target, if_pos ⟨UTOPX_eq ▸ h₁, UVPTX_eq ▸ h₃⟩, hdir]
    exact hp
  refine ⟨fun {e pd va} hpd hva hx => ?_, fun _ _ => by rw [hdir], htables⟩
  have h₁ : PDX UTOP ≤ PDX va := UTOPX_eq ▸ UTOPX_le_PDX (BitVec.not_lt.mpr hva)
  have hpde : s.mem pd (PDX va) = s₀.mem m.kernPgdir (PDX va) := by
    rw [i.page.kern.dirs hpd (UTOPX_eq ▸ h₁) PDX_lt, if_neg (UVPTX_eq ▸ hx)]
  simp only [State.walk, hpde, Prod.mk.injEq, true_and]
  cases hpt : entryPage (s₀.mem m.kernPgdir (PDX va))
  case none    => rfl
  case some pt => simp [htables h₁ PDX_lt hx hpt]

-- The kernel half of the address spaces never changes.
theorem kernel_half_kept (r : Reachable m (SafeStep m) s₀ s) : KernelHalfKept m s₀ s :=
  r.kernInv.kernelHalfKept

theorem kernel_half_kept_alloc : ∃ s, Reachable Sample.machine (SafeStep Sample.machine) Sample.boot s ∧
    s.pageFreeList ≠ some Sample.first ∧ KernelHalfKept Sample.machine Sample.boot s := by
  obtain ⟨s, hr, hp⟩ := Sample.reachable_exec (P := fun s => s.pageFreeList ≠ some Sample.first)
    Sample.alloc Sample.alloc_safe (by decide +kernel)
  exact ⟨s, hr, hp, kernel_half_kept hr⟩

-- A message with a page reaches the kernel's mapping of physical memory.
theorem not_kernel_half_kept : ¬∀ {m s₀ s}, Reachable m (fun _ _ => True) s₀ s → KernelHalfKept m s₀ s := by
  intro h
  let va := KERNBASE + page2pa Sample.first
  obtain ⟨s, hr, pd, hpd, hw⟩ := Sample.reachable_exec
    (P := fun s => ∃ pd ∈ s.pgdir Sample.fs,
      s.walk pd va ≠ Sample.boot.walk Sample.machine.kernPgdir va)
    Sample.sendAboveUtop (fun _ _ _ => trivial) (by decide +kernel)
  exact hw ((h hr).walk hpd (by decide) (by decide))

end KernelHalf

section PageCounts

instance : DecidablePred Ref.IsTable
  | .pte .. => inferInstanceAs (Decidable False)
  | .dir _ | .table .. | .ktable _ => inferInstanceAs (Decidable True)

-- The number of present page table entries below `UTOP`, in all page directories, for page `p`.
def State.mappings (s : State) (p : Nat) : Nat :=
  count (fun x : EnvPtr × Fin UTOPX × Fin NPDENTRIES => entryPage (s.entry x.1 x.2.1 x.2.2)) p

-- Whether `p` is a page directory or a page table.
def State.ServesAsTable (m : Machine) (s : State) (p : Nat) : Prop :=
  ∃ r : Ref, r.IsTable ∧ s.target m r = some p

instance : Decidable (State.ServesAsTable m s p) := inferInstanceAs (Decidable (∃ _, _))

structure PageCountsExact (m : Machine) (s : State) : Prop where
  ppRef : ∀ {p}, Managed m p → s.ppRef p = s.mappings p + if s.ServesAsTable m p then 1 else 0
  free  : ∃ fl, Chain s.ppLink s.pageFreeList fl ∧ fl.Nodup ∧
    ∀ {p}, Managed m p → (p ∈ fl ↔ s.mappings p = 0 ∧ ¬s.ServesAsTable m p)

-- Since tables are referred to once, a page has no other references than its mappings or a single one.
theorem count_target (h : TablesUnique m s) {p : Nat} :
    count (s.target m) p = s.mappings p + if s.ServesAsTable m p then 1 else 0 := by
  split
  case isTrue ht =>
    obtain ⟨r, hr, hp⟩ := ht
    have hm : s.mappings p = 0 := by
      rw [State.mappings, count_eq_zero]
      intro x hx
      have : Ref.pte x.1 x.2.1 x.2.2 = r := h hr hp hx
      exact absurd hr (this ▸ id)
    rw [count_eq_one hp fun r' => h hr hp, hm]
  case isFalse ht =>
    rw [Nat.add_zero, State.mappings]
    let f (x : EnvPtr × Fin UTOPX × Fin NPDENTRIES) := Ref.pte x.1 x.2.1 x.2.2
    refine (count_comp (f := f) ?_ fun r hr => ?_).symm
    · intro x y hxy
      injection hxy with h₁ h₂ h₃
      exact Prod.ext h₁ (Prod.ext h₂ h₃)
    · cases r
      case pte e d t => exact ⟨(e, d, t), rfl⟩
      all_goals exact absurd ⟨_, by trivial, hr⟩ ht

theorem KernInv.pageCountsExact {K : Nat → Nat → Word} (i : KernInv m K s) : PageCountsExact m s := by
  obtain ⟨fl, hc, b⟩ := i.page.refs
  refine ⟨fun hm => ?_, fl, hc, hc.nodup, fun {p} hm => ?_⟩
  · rw [b.cntEq hm, count_target i.page.unique, List.count_nil, Nat.add_zero]
  · have hp := b.memFree (p := p)
    rw [count_target i.page.unique] at hp
    simp [hp, hm]

-- `pp_ref` is exact, and the free list holds the pages without references.
theorem page_counts_exact (r : Reachable m (SafeStep m) s₀ s) : PageCountsExact m s :=
  r.kernInv.pageCountsExact

theorem page_counts_exact_alloc :
    ∃ s, Reachable Sample.machine (SafeStep Sample.machine) Sample.boot s ∧
      s.pageFreeList ≠ some Sample.first ∧ PageCountsExact Sample.machine s := by
  obtain ⟨s, hr, hp⟩ := Sample.reachable_exec (P := fun s => s.pageFreeList ≠ some Sample.first)
    Sample.alloc Sample.alloc_safe (by decide +kernel)
  exact ⟨s, hr, hp, page_counts_exact hr⟩

-- A message with a page frees the page whose kernel mapping it replaces, while this page is in use.
theorem not_page_counts_exact : ¬∀ {m s₀ s}, Reachable m (fun _ _ => True) s₀ s → PageCountsExact m s := by
  intro h
  obtain ⟨s, hr, hf, he⟩ := Sample.reachable_exec
    (P := fun s => s.pageFreeList = some Sample.first ∧
      entryPage (s.entry Sample.fs ⟨0, by decide⟩ ⟨0, by decide⟩) = some Sample.first)
    Sample.sendAboveUtop (fun _ _ _ => trivial) (by decide +kernel)
  obtain ⟨fl, hc, _, hp⟩ := (h hr).free
  obtain ⟨_, hl, _⟩ := (hf ▸ hc).pop (o := none)
  have hm : s.mappings Sample.first = 0 := ((hp (by decide)).mp (hl ▸ List.mem_cons_self)).left
  rw [State.mappings, count_eq_zero] at hm
  exact hm (Sample.fs, ⟨0, by decide⟩, ⟨0, by decide⟩) he

end PageCounts

section Reserved

-- The pages that `page_init` keeps off the free list.
def Reserved (m : Machine) (p : Nat) : Prop := p < m.npages ∧ ¬Managed m p

instance : DecidablePred (Reserved m) := fun _ => inferInstanceAs (Decidable (_ ∧ _))

structure ReservedKept (m : Machine) (s : State) (p : Nat) : Prop where
  offList     : ∃ fl, Chain s.ppLink s.pageFreeList fl ∧ p ∉ fl
  notReturned : ∀ flags, (pageAlloc s flags).fst ≠ some p
  unmapped    : ∀ e d t, entryPage (s.entry e d t) ≠ some p

theorem KernInv.reservedKept {K : Nat → Nat → Word} {p : Nat} (i : KernInv m K s) (h : Reserved m p) :
    ReservedKept m s p := by
  obtain ⟨fl, hc, b⟩ := i.page.refs
  have hp : p ∉ fl := fun hp => h.right (b.memFree.mp hp).left
  refine ⟨⟨fl, hc, hp⟩, fun flags ha => ?_, fun e d t he => ?_⟩
  · have ha' : s.pageFreeList = some p := by
      cases hl : s.pageFreeList <;> simp_all [pageAlloc]
    obtain ⟨_, hf, _⟩ := (ha' ▸ hc).pop (o := none)
    exact hp (hf ▸ List.mem_cons_self)
  · exact h.right (i.page.target_managed (r := .pte e d t) he)

-- Reserved pages are neither allocated nor mapped.
theorem reserved_kept (r : Reachable m (SafeStep m) s₀ s) {p : Nat} (h : Reserved m p) :
    ReservedKept m s p :=
  r.kernInv.reservedKept h

theorem reserved_kept_alloc : ∃ s, Reachable Sample.machine (SafeStep Sample.machine) Sample.boot s ∧
    s.pageFreeList ≠ some Sample.first ∧ ReservedKept Sample.machine s 0 := by
  obtain ⟨s, hr, hp⟩ := Sample.reachable_exec (P := fun s => s.pageFreeList ≠ some Sample.first)
    Sample.alloc Sample.alloc_safe (by decide +kernel)
  exact ⟨s, hr, hp, reserved_kept hr (by decide)⟩

-- Mapping the page at an address where there is none maps page 0.
theorem not_reserved_kept :
    ¬∀ {m s₀ s p}, Reachable m (fun _ _ => True) s₀ s → Reserved m p → ReservedKept m s p := by
  intro h
  let va := USTACKTOP - 8192#32
  obtain ⟨s, hr, he⟩ := Sample.reachable_exec
    (P := fun s => entryPage (s.entry Sample.fs (pdx va (by decide)) (ptx va)) = some 0)
    Sample.mapEmpty (fun _ _ _ => trivial) (by decide +kernel)
  exact (h hr (by decide)).unmapped _ _ _ he

end Reserved

end Kern

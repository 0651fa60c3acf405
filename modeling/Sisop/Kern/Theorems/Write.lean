import Sisop.Kern.Theorems.Entry
import Sisop.Kern.Theorems.Reachable

-- Where the right to write a page comes from.

namespace Kern

open Inc Function Library State

variable {m : Machine} {K : Nat → Nat → Word} {s₀ s s' : State} {c e : EnvPtr} {x : Exit} {p : Nat}
  {getc no a1 a2 a3 a4 a5 w perm : Word} {d : Fin UTOPX} {t : Fin NPDENTRIES}

instance : NeZero UTOPX := ⟨by decide⟩
instance : NeZero NPDENTRIES := ⟨by decide⟩

-- The environment `e` has a writable mapping of the page `p`, in the entry `t` of page table `d`.
def State.Writes (s : State) (e : EnvPtr) (d : Fin UTOPX) (t : Fin NPDENTRIES) (p : Nat) : Prop :=
  entryPage (s.entry e d t) = some p ∧ s.entry e d t &&& PTE_W ≠ 0#32

instance : Decidable (State.Writes s e d t p) := inferInstanceAs (Decidable (_ ∧ _))

-- The environment `e` can write the page `p` at `va`.
def State.WritesAt (s : State) (e : EnvPtr) (va : Word) (p : Nat) : Prop :=
  ∃ h : va < UTOP, s.Writes e (pdx va h) (ptx va) p

-- The ways in which a system call can make `p` writable.
inductive WriteOrigin (s : State) (c : EnvPtr) (no a1 a2 a3 : Word) (p : Nat) : Prop
  | alloc (hn : no = SYS_page_alloc) (hp : s.pageFreeList = some p)
  | map {src} (hn : no = SYS_page_map) (he : envid2env s c a1 true = .ok src) (h : s.WritesAt src a2 p)
  | send (hn : no = SYS_ipc_try_send) (h : s.WritesAt c a3 p)

theorem PTE_W_of_badWrite {pte : Word} (h : badWrite pte perm = false) (hw : perm &&& PTE_W ≠ 0#32) :
    pte &&& PTE_W ≠ 0#32 := by
  have hp : perm &&& PTE_W = PTE_W := by
    rw [and_PTE_W] at hw ⊢
    split <;> simp_all
  simpa [badWrite, hp] using h

-- The page that `page_lookup` finds can be written at its address if the slot allows it.
theorem KernInv.writesAt {pd : Nat} {slot : Slot} {va : Word} (i : KernInv m K s) (hva : va < UTOP)
    (hpd : s.pgdir e = some pd) (hl : pageLookup m s pd va = some (some (p, slot)))
    (hw : s.pte slot &&& PTE_W ≠ 0#32) : s.WritesAt e va p := by
  cases ht : s.tableOf e (pdx va hva)
  case none =>
    rw [i.page.tables.pageLookup_none hpd hva ht] at hl
    cases hl
  case some pt =>
    rw [i.page.tables.pageLookup_some hpd hva ht] at hl
    obtain ⟨p', hp, hl⟩ := Option.map_eq_some_iff.mp hl
    cases hl
    have hent : s.pte (pt, PTX va) = s.entry e (pdx va hva) (ptx va) :=
      (entry_eq (t := ptx va) ht).symm
    rw [hent] at hw
    have hpr : present (s.entry e (pdx va hva) (ptx va)) = true := by
      by_contra hc
      rw [i.page.zeroPte (by simpa using hc)] at hw
      exact hw (by decide)
    refine ⟨hva, entryPage_eq_some.mpr ⟨hpr, ?_⟩, hw⟩
    simp only [pa2page, PGNUM_PTE_ADDR] at hp
    split at hp
    · exact Option.some.inj hp
    · cases hp

theorem KernInv.writesAt_lt {va : Word} (i : KernInv m K s) (h : s.WritesAt e va p) : p < 2 ^ 20 :=
  have ⟨hva, h, _⟩ := h
  (i.page.target_managed (r := .pte e (pdx va hva) (ptx va)) h).lt

-- Every mapping that a system call makes writable has an origin.
theorem KernInv.writeOrigin (i : KernInv m K s) (h : EntryEffect m s c no a1 a2 a3 a4 a5 s')
    (hw : s'.Writes e d t p) (hn : ¬s.Writes e d t p) : WriteOrigin s c no a1 a2 a3 p := by
  -- An entry that is replaced is the only one that can differ.
  have hset {e' d' t' v} (h : s'.entry = setEntry s.entry e' d' t' v) :
      entryPage v = some p ∧ v &&& PTE_W ≠ 0#32 := by
    simp only [State.Writes, h, setEntry] at hw
    split at hw
    · exact hw
    · exact absurd hw hn
  -- The source of a copied mapping is writable.
  have hcopy {src q pd slot va perm} (hva : va < UTOP) (hpd : s.pgdir src = some pd)
      (hl : pageLookup m s pd va = some (some (q, slot))) (hbad : badWrite (s.pte slot) perm = false)
      (hperm : PGNUM perm = 0) (hv : entryPage (page2pa q ||| perm ||| PTE_P) = some p ∧
        (page2pa q ||| perm ||| PTE_P) &&& PTE_W ≠ 0#32) : s.WritesAt src va p := by
    rw [mk_and_PTE_W] at hv
    have hq := i.writesAt hva hpd hl (PTE_W_of_badWrite hbad hv.right)
    rw [entryPage_mk (i.writesAt_lt hq) hperm] at hv
    exact Option.some.inj hv.left ▸ hq
  cases h
  case same h => exact absurd (by rwa [State.Writes, ← h]) hn
  case alloc q _ hno _ hp hperm h =>
    have hm : Managed m q := by
      obtain ⟨fl, hc, b⟩ := i.page.refs
      obtain ⟨_, hf, _⟩ := (hp ▸ hc).pop (o := none)
      exact (b.memFree.mp (hf ▸ List.mem_cons_self)).left
    have hv := (hset h).left
    rw [entryPage_mk hm.lt hperm] at hv
    exact .alloc hno (Option.some.inj hv ▸ hp)
  case map hsrc _ hno he _ hpd hl hbad hperm h =>
    exact .map hno he (hcopy hsrc hpd hl hbad hperm (hset h))
  case unmap h =>
    have hv := (hset h).left
    rw [entryPage_zero] at hv
    cases hv
  case destroy e' _ h h0 =>
    by_cases he : e = e'
    case pos =>
      subst he
      rcases h0 (d := d) (t := t) with h0 | h0
      · exact absurd (by rwa [State.Writes, ← h0]) hn
      · rw [State.Writes, h0, entryPage_zero] at hw
        cases hw.left
    case neg => exact absurd (by rwa [State.Writes, ← h he]) hn
  case send hsrc _ hno _ hpd hl hbad hperm h =>
    exact .send hno (hcopy hsrc hpd hl hbad hperm (hset h))

-- Some environment has the page `p` mapped, and none can write it.
def State.ReadOnly (s : State) (p : Nat) : Prop :=
  (∃ e d t, entryPage (s.entry e d t) = some p) ∧ ∀ e d t, ¬s.Writes e d t p

theorem KernInv.not_free (i : KernInv m K s) (h : entryPage (s.entry e d t) = some p) :
    s.pageFreeList ≠ some p := by
  intro hp
  obtain ⟨fl, hc, b⟩ := i.page.refs
  obtain ⟨_, hf, _⟩ := (hp ▸ hc).pop (o := none)
  have h : s.target m (.pte e d t) = some p := h
  exact b.notMem_free h (hf ▸ List.mem_cons_self)

theorem KernInv.readOnly (i : KernInv m K s) (h : EntryEffect m s c no a1 a2 a3 a4 a5 s')
    (hr : s.ReadOnly p) : ¬s'.Writes e d t p := by
  obtain ⟨⟨e', d', t', hm⟩, hn⟩ := hr
  intro hw
  cases i.writeOrigin h hw (hn e d t)
  case alloc hp      => exact i.not_free hm hp
  case map h         => exact hn _ _ _ h.choose_spec
  case send h        => exact hn _ _ _ h.choose_spec

-- What a system call does with the right to write pages.
structure WriteKept (s : State) (c : EnvPtr) (no a1 a2 a3 : Word) (s' : State) : Prop where
  origin   : ∀ {e d t p}, s'.Writes e d t p → ¬s.Writes e d t p → WriteOrigin s c no a1 a2 a3 p
  readOnly : ∀ {e d t p}, s.ReadOnly p → ¬s'.Writes e d t p

-- Write access is not forged.
theorem write_kept {tf : Trapframe} (r : Reachable m (SafeStep m) s₀ s)
    (g : Safe m (s.saveTf c tf) c no a1 a2 a3 a4 a5)
    (h : syscall m (s.saveTf c tf) c getc no a1 a2 a3 a4 a5 = some x) :
    WriteKept (s.saveTf c tf) c no a1 a2 a3 x.state := by
  have i : KernInv m s₀.mem (s.saveTf c tf) := r.kernInv.saveTf
  have hent := i.syscall_entry h fun hn _ _ _ he hr ha hc => (g.tryIpc hn he hr ha hc).left
  exact ⟨i.writeOrigin hent, i.readOnly hent⟩

theorem write_kept_alloc : ∃ s x,
    Reachable Sample.machine (SafeStep Sample.machine) Sample.boot s ∧
      syscall Sample.machine (s.saveTf Sample.fs .zero) Sample.fs 0 SYS_page_alloc 0 0x1000 7 0 0 =
        some x ∧ x.state.Writes Sample.fs 0 1 (Sample.first - 2) ∧
          WriteKept (s.saveTf Sample.fs .zero) Sample.fs SYS_page_alloc 0 0x1000 7 x.state := by
  obtain ⟨s, hr, hx⟩ := Sample.reachable_exec
    (P := fun s => (syscall Sample.machine (s.saveTf Sample.fs .zero) Sample.fs 0 SYS_page_alloc 0
      0x1000 7 0 0).any fun x => x.state.Writes Sample.fs 0 1 (Sample.first - 2))
    Sample.alloc Sample.alloc_safe (by decide +kernel)
  obtain ⟨x, hx, hw⟩ := (Option.any_eq_true _ _).mp hx
  have hp : SYS_page_alloc ≠ SYS_page_map ∧ SYS_page_alloc ≠ SYS_page_unmap ∧
    SYS_page_alloc ≠ SYS_ipc_try_send := by decide
  have g : Safe Sample.machine (s.saveTf Sample.fs .zero) Sample.fs SYS_page_alloc 0 0x1000 7 0 0 :=
    ⟨fun h => absurd h hp.left, fun h => absurd h hp.right.left, fun h => absurd h hp.right.right⟩
  exact ⟨s, x, hr, hx, of_decide_eq_true hw, write_kept hr g hx⟩

-- No page table of an address space maps `p` writable.
def State.ReadOnlyTables (s : State) (p : Nat) : Prop :=
  ∀ e, ∀ pd ∈ s.pgdir e, ∀ d : Fin UTOPX, ∀ pt ∈ entryPage (s.mem pd d), ∀ t : Fin NPDENTRIES,
    entryPage (s.mem pt t) = some p → s.mem pt t &&& PTE_W = 0#32

instance : Decidable (State.ReadOnlyTables s p) := by
  unfold State.ReadOnlyTables
  infer_instance

theorem State.ReadOnlyTables.not_writes (h : s.ReadOnlyTables p) : ¬s.Writes e d t p := by
  rintro ⟨hp, hw⟩
  cases ht : s.tableOf e d
  case none =>
    rw [entry_eq_zero ht, entryPage_zero] at hp
    cases hp
  case some pt =>
    rw [entry_eq ht] at hp hw
    obtain ⟨pd, hpd, hpt⟩ := Option.bind_eq_some_iff.mp ht
    exact hw (h e pd hpd d pt hpt t hp)

-- A message frees a page that is mapped read-only, so that it can be allocated with write access.
theorem not_write_kept : ¬∀ {m s₀ s c getc no a1 a2 a3 a4 a5 x tf},
    Reachable m (fun _ _ => True) s₀ s →
      syscall m (s.saveTf c tf) c getc no a1 a2 a3 a4 a5 = some x →
        WriteKept (s.saveTf c tf) c no a1 a2 a3 x.state := by
  intro h
  obtain ⟨s, hr, hm, ht, hx⟩ := Sample.reachable_exec
    (P := fun s => entryPage ((s.saveTf Sample.fs .zero).entry Sample.fs 0 0) = some Sample.first ∧
      (s.saveTf Sample.fs .zero).ReadOnlyTables Sample.first ∧
      (syscall Sample.machine (s.saveTf Sample.fs .zero) Sample.fs 0 SYS_page_alloc 0 0x2000 7 0 0).any
        fun x => x.state.Writes Sample.fs 0 2 Sample.first)
    Sample.sendReadOnly (fun _ _ _ => trivial) (by decide +kernel)
  obtain ⟨x, hx, hw⟩ := (Option.any_eq_true _ _).mp hx
  have hro : (s.saveTf Sample.fs .zero).ReadOnly Sample.first :=
    ⟨⟨_, _, _, hm⟩, fun _ _ _ => ht.not_writes⟩
  exact (h hr hx).readOnly hro (of_decide_eq_true hw)

end Kern

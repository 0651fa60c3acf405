import Sisop.Kern.Trap
import Sisop.Library.Chain
import Mathlib.Data.Fintype.Sigma
import Mathlib.Data.Fintype.Sum
import Mathlib.Tactic.DeriveFintype
import Mathlib.Tactic.NormNum

namespace Kern

open Inc Function

-- The places that hold a reference to a physical page: the `env_pgdir` of an environment, the
-- entries of its page directory and page tables below `UTOP`, and the entries of `kern_pgdir`
-- above, which all page directories share. The slot for `UVPT` repeats `env_pgdir`.
inductive Ref
  | dir (e : EnvPtr)
  | table (e : EnvPtr) (d : Fin UTOPX)
  | pte (e : EnvPtr) (d : Fin UTOPX) (t : Fin NPDENTRIES)
  | ktable (d : Fin NPDENTRIES)
  deriving DecidableEq, Fintype

namespace Ref

-- Whether the page referred to is used as a page directory or page table.
def IsTable : Ref → Prop
  | pte .. => False
  | _      => True

def owner : Ref → Option EnvPtr
  | dir e | table e _ | pte e .. => some e
  | ktable _                     => none

end Ref

-- `end_page_kernel`: the first page after `kern_pgdir`, `pages` and `envs`, whose elements have
-- 8 and 124 bytes.
def Machine.endPageKernel (m : Machine) : Nat :=
  m.kernelEnd + 1 + (8 * m.npages + 4095) / 4096 + (124 * NENV + 4095) / 4096

-- The pages that `page_init` puts on the free list.
def Managed (m : Machine) (p : Nat) : Prop :=
  1 ≤ p ∧ p < m.npages ∧ ¬(IOPHYSMEM / PGSIZE ≤ p ∧ p < m.endPageKernel) ∧ p ≠ MPENTRY_PADDR / PGSIZE

instance : DecidablePred (Managed m) := fun _ => inferInstanceAs (Decidable (_ ∧ _))

namespace State

variable (m : Machine) (s : State)

-- The page table of `e` that serves page directory index `d`.
def tableOf (e : EnvPtr) (d : Fin UTOPX) : Option Nat :=
  (s.pgdir e).bind fun pd => entryPage (s.mem pd d)

-- The address space of `e` below `UTOP`: the page table entry for indices `d` and `t`, which is zero
-- where there is no page table.
def entry (e : EnvPtr) (d : Fin UTOPX) (t : Fin NPDENTRIES) : Word :=
  (s.tableOf e d).elim 0#32 fun pt => s.mem pt t

def target : Ref → Option Nat
  | .dir e     => s.pgdir e
  | .table e d => s.tableOf e d
  | .pte e d t => entryPage (s.entry e d t)
  | .ktable d  => if UTOPX ≤ d ∧ d ≠ UVPTX then entryPage (s.mem m.kernPgdir d) else none

end State

section Managed

variable {m : Machine} {p : Nat}

theorem Managed.lt_npages (h : Managed m p) : p < m.npages :=
  h.right.left

theorem Managed.lt (h : Managed m p) : p < 2 ^ 20 :=
  h.lt_npages.trans_le <| m.npages_le.trans (by norm_num)

theorem Managed.ne_zero (h : Managed m p) : p ≠ 0 := by
  have := h.left
  omega

theorem Machine.kernPgdir_lt : m.kernPgdir < m.endPageKernel :=
  Nat.lt_of_lt_of_le (Nat.lt_succ_self _) <| (Nat.le_add_right ..).trans (Nat.le_add_right ..)

theorem not_managed_kernPgdir : ¬Managed m m.kernPgdir := by
  rintro ⟨_, _, h, _⟩
  have hx : 256 ≤ m.kernPgdir := m.extphysmem_le
  exact h ⟨le_trans (by decide) hx, Machine.kernPgdir_lt⟩

theorem Managed.ne_kernPgdir (h : Managed m p) : p ≠ m.kernPgdir :=
  fun hc => not_managed_kernPgdir (hc ▸ h)

end Managed

-- Every page that is used as a page directory or page table is referred to once.
def TablesUnique (m : Machine) (s : State) : Prop :=
  ∀ {r r' : Ref} {p}, r.IsTable → s.target m r = some p → s.target m r' = some p → r' = r

namespace State

variable {m : Machine} {s s' : State} {e e' : EnvPtr} {d d' : Fin UTOPX} {t t' : Fin NPDENTRIES}
  {p pd pt : Nat} {w : Word} {c : Nat → Word}

theorem tableOf_eq (h : s.pgdir e = some pd) : s.tableOf e d = entryPage (s.mem pd d) := by
  simp [tableOf, h]

theorem tableOf_eq_none (h : s.pgdir e = none) : s.tableOf e d = none := by
  simp [tableOf, h]

theorem entry_eq (h : s.tableOf e d = some pt) : s.entry e d t = s.mem pt t := by
  simp [entry, h]

theorem entry_eq_zero (h : s.tableOf e d = none) : s.entry e d t = 0#32 := by
  simp [entry, h]

theorem tableOf_congr (hm : s'.mem = s.mem) (hp : s'.pgdir = s.pgdir) : s'.tableOf = s.tableOf := by
  funext e d
  simp [tableOf, hm, hp]

theorem entry_congr (hm : s'.mem = s.mem) (hp : s'.pgdir = s.pgdir) : s'.entry = s.entry := by
  funext e d t
  simp [entry, tableOf, hm, hp]

theorem target_congr (hm : s'.mem = s.mem) (hp : s'.pgdir = s.pgdir) :
    s'.target m = s.target m := by
  funext r
  cases r <;> simp [target, tableOf, entry_congr hm hp, hm, hp]

-- A store to a page that is not the page directory of `e'` leaves its page directory alone.
theorem tableOf_store {i : Nat} (h : s.pgdir e' ≠ some p) :
    (s.store p i w).tableOf e' d' = s.tableOf e' d' := by
  cases hpd : s.pgdir e'
  case none    => rw [tableOf_eq_none hpd, tableOf_eq_none (s := s.store p i w) hpd]
  case some pd =>
    have hne : pd ≠ p := fun hc => h (hc ▸ hpd)
    rw [tableOf_eq hpd, tableOf_eq (s := s.store p i w) hpd, store_mem_of_ne hne]

theorem pgdir_setEnv {v : Env} : (s.setEnv e v).pgdir = update s.pgdir e v.envPgdir :=
  pgdir_update rfl

theorem pgdir_setEnv_self {v : Env} (h : v.envPgdir = s.pgdir e) : (s.setEnv e v).pgdir = s.pgdir := by
  rw [pgdir_setEnv, h, update_eq_self]

theorem entry_setEnv {v : Env} (h : v.envPgdir = s.pgdir e) : (s.setEnv e v).entry = s.entry :=
  entry_congr rfl (pgdir_setEnv_self h)

section SetDir

-- An environment without page tables gets or loses its page directory.
variable {v : Env} (ho : ∀ d, s.tableOf e d = none) (hn : ∀ d, (s.setEnv e v).tableOf e d = none)
include ho hn

theorem tableOf_setDir : (s.setEnv e v).tableOf = s.tableOf := by
  funext e' d'
  by_cases he : e' = e
  · rw [he, ho, hn]
  · simp only [tableOf, pgdir_setEnv, update_of_ne he, setEnv_mem]

theorem entry_setDir : (s.setEnv e v).entry = s.entry := by
  funext e' d' t'
  simp only [entry, tableOf_setDir ho hn, setEnv_mem]

theorem target_setDir : (s.setEnv e v).target m = update (s.target m) (.dir e) v.envPgdir := by
  funext r
  cases r
  case ktable => rfl
  case table  => exact congrFun (congrFun (tableOf_setDir ho hn) _) _
  case pte    => simp [target, entry_setDir ho hn]
  case dir e' => simp only [target, pgdir_setEnv, update_apply, Ref.dir.injEq]

end SetDir

section Fill

-- A page without references can be overwritten.
variable (h : ∀ r, s.target m r ≠ some p)
include h

theorem tableOf_fill : (s.fill p c).tableOf e d = s.tableOf e d := by
  cases hpd : s.pgdir e
  case none    => rw [tableOf_eq_none hpd, tableOf_eq_none (s := s.fill p c) hpd]
  case some pd =>
    have hne : pd ≠ p := fun hc => h (.dir e) (hc ▸ hpd)
    rw [tableOf_eq hpd, tableOf_eq (s := s.fill p c) hpd, fill_mem_of_ne hne]

theorem entry_fill : (s.fill p c).entry e d t = s.entry e d t := by
  cases hpt : s.tableOf e d
  case none    => rw [entry_eq_zero hpt, entry_eq_zero ((tableOf_fill h).trans hpt)]
  case some pt =>
    have hne : pt ≠ p := fun hc => h (.table e d) (hc ▸ hpt)
    rw [entry_eq hpt, entry_eq ((tableOf_fill h).trans hpt), fill_mem_of_ne hne]

theorem target_fill (hk : p ≠ m.kernPgdir) : (s.fill p c).target m = s.target m := by
  funext r
  cases r
  case dir    => rfl
  case table  => exact tableOf_fill h
  case pte    => simp only [target, entry_fill h]
  case ktable => simp [target, fill_mem_of_ne hk.symm]

end Fill

section StorePte

-- A store to the page table that serves index `d` of `e`.
variable (u : TablesUnique m s) (h : s.tableOf e d = some pt)
include u h

theorem pgdir_ne_tableOf : s.pgdir e' ≠ some pt := fun hc => by
  have : Ref.dir e' = .table e d := u trivial h hc
  cases this

theorem tableOf_store_pte : (s.store pt t w).tableOf e' d' = s.tableOf e' d' :=
  tableOf_store <| pgdir_ne_tableOf u h

theorem entry_store_pte :
    (s.store pt t w).entry e' d' t' = if e' = e ∧ d' = d ∧ t' = t then w else s.entry e' d' t' := by
  cases hpt : s.tableOf e' d'
  case none =>
    have hne : ¬(e' = e ∧ d' = d ∧ t' = t) := by
      rintro ⟨rfl, rfl, _⟩
      simp [h] at hpt
    rw [if_neg hne, entry_eq_zero hpt, entry_eq_zero ((tableOf_store_pte u h).trans hpt)]
  case some pt' =>
    rw [entry_eq hpt, entry_eq ((tableOf_store_pte u h).trans hpt)]
    by_cases hp : pt' = pt
    case neg =>
      have hne : ¬(e' = e ∧ d' = d ∧ t' = t) := by
        rintro ⟨rfl, rfl, _⟩
        exact hp (Option.some.inj (hpt.symm.trans h))
      rw [if_neg hne, store_mem_of_ne hp]
    case pos =>
      subst hp
      have hr : Ref.table e' d' = .table e d := u trivial h hpt
      cases hr
      simp [store_mem_self, update_apply, Fin.ext_iff]

theorem target_store_pte (hk : pt ≠ m.kernPgdir) :
    (s.store pt t w).target m = update (s.target m) (.pte e d t) (entryPage w) := by
  funext r
  cases r
  case dir    => rfl
  case table  => exact tableOf_store_pte u h
  case ktable => simp [target, store_mem_of_ne hk.symm]
  case pte e' d' t' =>
    simp only [target, entry_store_pte u h, update_apply, Ref.pte.injEq]
    split <;> rfl

end StorePte

section StorePde

-- A page directory entry is replaced while the page tables involved are empty.
variable (u : TablesUnique m s) (h : s.pgdir e = some pd)
  (ho : ∀ t : Fin NPDENTRIES, s.entry e d t = 0#32)
  (hn : ∀ p, entryPage w = some p → p ≠ pd ∧ ∀ t : Fin NPDENTRIES, s.mem p t = 0#32)
include u h

theorem tableOf_store_pde :
    (s.store pd d w).tableOf e' d' = if e' = e ∧ d' = d then entryPage w else s.tableOf e' d' := by
  by_cases hp : s.pgdir e' = some pd
  case neg =>
    have hne : ¬(e' = e ∧ d' = d) := by
      rintro ⟨rfl, _⟩
      exact hp h
    rw [if_neg hne]
    exact tableOf_store hp
  case pos =>
    have hr : Ref.dir e' = .dir e := u trivial h hp
    cases hr
    rw [tableOf_eq (s := s.store pd d w) h, tableOf_eq h]
    simp only [store_mem_self, update_apply, Fin.ext_iff, true_and]
    split <;> rfl

include ho hn

theorem entry_store_pde : (s.store pd d w).entry e' d' t = s.entry e' d' t := by
  have htab : (s.store pd d w).tableOf e' d' =
      if e' = e ∧ d' = d then entryPage w else s.tableOf e' d' := tableOf_store_pde u h
  by_cases he : e' = e ∧ d' = d
  case pos =>
    obtain ⟨he, hd⟩ := he
    subst he hd
    rw [ho]
    simp only [and_self, if_true] at htab
    cases hw : entryPage w
    case none   => exact entry_eq_zero (htab.trans hw)
    case some p =>
      obtain ⟨hp, hz⟩ := hn p hw
      rw [entry_eq (htab.trans hw), store_mem_of_ne hp, hz]
  case neg =>
    rw [if_neg he] at htab
    cases hpt : s.tableOf e' d'
    case none    => rw [entry_eq_zero hpt, entry_eq_zero (htab.trans hpt)]
    case some pt =>
      have hp : pt ≠ pd := fun hc => by
        have hr : Ref.table e' d' = .dir e := u trivial h (hc ▸ hpt)
        cases hr
      rw [entry_eq hpt, entry_eq (htab.trans hpt), store_mem_of_ne hp]

theorem target_store_pde (hk : pd ≠ m.kernPgdir) :
    (s.store pd d w).target m = update (s.target m) (.table e d) (entryPage w) := by
  funext r
  cases r
  case dir    => rfl
  case ktable => simp [target, store_mem_of_ne hk.symm]
  case pte    => simp only [target, entry_store_pde u h ho hn, update_of_ne, ne_eq, reduceCtorEq,
                   not_false_eq_true]
  case table e' d' =>
    simp only [target, tableOf_store_pde u h, update_apply, Ref.table.injEq]

end StorePde

end State

end Kern

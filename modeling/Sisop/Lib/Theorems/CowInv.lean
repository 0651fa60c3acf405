import Sisop.Lib.Cow
import Sisop.Library.Run
import Sisop.Library.Sharing

namespace Lib.Cow

open Inc Function Library Library.Sharing Kern

def right (perm : Word) : Right :=
  if perm &&& PTE_SHARE ≠ 0#32 then .share else if perm &&& PTE_W ≠ 0#32 then .own else .copy

-- The pages of all environments, but for those at `PFTEMP`.
def Sys.table (s : Sys) : Table (Nat × Nat) Nat := fun k =>
  if k.2 = PFTEMP then none
  else ((s.proc k.1).space k.2).map fun pte => (pte.page, right pte.perm)

-- `duppage` has given the page of `k` to the child, and not marked it in the parent.
def Sys.Between (s : Sys) (k k' : Nat × Nat) : Prop :=
  ∃ c l, (s.proc k.1).fork = .markCow c k.2 l ∧ k' = (c, k.2)

def Sys.Free (s : Sys) (f : Nat) : Prop := ∀ p {pn pte}, (s.proc p).space pn = some pte → pte.page ≠ f

-- The kernel takes a page and an environment that are free, and the program does not ask for `PTE_COW`,
-- nor for the page that `pgfault` uses.
def Allowed (s : Sys) : Event → Prop
  | .sysPageAlloc _ pn new perm => s.Free new ∧ pn ≠ PFTEMP ∧ perm &&& PTE_COW = 0#32
  | .step _ new child           => s.Free new ∧ (s.proc child).status = .free
  | _                           => True

abbrev Sys.Runs (s s' : Sys) : Prop := Run (fun s ev s' => s.next ev = some s') Allowed s s'

-- The environment that `fork` makes, the page that it is at, and those it has yet to come to.
structure Forking where
  child : Nat
  page : Option Nat
  left : List Nat

def ForkPc.forking : ForkPc → Option Forking
  | .idle | .handlerAlloc | .handlerUpcall | .exofork => none
  | .stackAlloc c | .setUpcall c                       => some ⟨c, none, pages⟩
  | .loop c l                                          => some ⟨c, none, l⟩
  | .mapPage c pn _ l | .mapCow c pn l                 => some ⟨c, none, pn :: l⟩
  | .markCow c pn l                                    => some ⟨c, some pn, l⟩

section Rights

variable {perm : Word} {pte : Pte}

theorem right_share : right perm = .share ↔ perm &&& PTE_SHARE ≠ 0#32 := by
  unfold right
  split_ifs <;> simp_all

theorem right_ne_copy (h : perm &&& PTE_W ≠ 0#32) : right perm ≠ .copy := by
  unfold right
  split_ifs <;> simp_all

theorem right_copy (h : perm &&& PTE_SHARE = 0#32) (hw : perm &&& PTE_W = 0#32) : right perm = .copy := by
  simp [right, h, hw]

@[simp] theorem right_WUP : right (PTE_W ||| PTE_U ||| PTE_P) = .own := by decide

theorem WUP_W : (PTE_W ||| PTE_U ||| PTE_P) &&& PTE_W ≠ 0#32 := by decide

@[simp] theorem right_PWU : right (PTE_P ||| PTE_W ||| PTE_U) = .own := by decide

@[simp] theorem right_COW : right (PTE_COW ||| PTE_U ||| PTE_P) = .copy := by decide

@[simp] theorem right_UP : right (PTE_U ||| PTE_P) = .copy := by decide

theorem and_SYSCALL_SHARE : perm &&& PTE_SYSCALL &&& PTE_SHARE = perm &&& PTE_SHARE := by
  have h : PTE_SYSCALL &&& PTE_SHARE = PTE_SHARE := by decide
  rw [BitVec.and_assoc, h]

theorem and_SYSCALL_COW : perm &&& PTE_SYSCALL &&& PTE_COW = perm &&& PTE_COW := by
  have h : PTE_SYSCALL &&& PTE_COW = PTE_COW := by decide
  rw [BitVec.and_assoc, h]

end Rights

theorem pages_nodup : pages.Nodup := by
  unfold pages
  generalize PGNUM UTOP = n
  exact List.nodup_range.filter _

theorem mem_pages {pn : Nat} : pn ∈ pages ↔ pn < PGNUM UTOP ∧ pn ≠ UXSTACK := by
  unfold pages
  generalize PGNUM UTOP = n
  generalize UXSTACK = u
  simp

theorem not_mem_pages : UXSTACK ∉ pages := fun h => (mem_pages.mp h).2 rfl

variable {s s' : Sys} {p q c pn new : Nat} {pte pte' : Pte} {perm : Word} {w : Write}

namespace Sys

@[simp] theorem setProc_self {x : Proc} : (s.setProc p x).proc p = x := update_self ..

theorem setProc_of_ne {x : Proc} (h : q ≠ p) : (s.setProc p x).proc q = s.proc q := update_of_ne h ..

theorem runs_iff : s.runs p ↔ (s.proc p).status = .runnable ∧ (s.proc p).fault = .idle := by
  unfold runs
  cases (s.proc p).fault <;> simp [FaultPc.isIdle]

@[simp] theorem setMem_proc {b : Nat → BitVec 8} : (s.setMem new b).proc = s.proc := rfl

section Fields

@[simp] theorem setSpace_status {x : Option Pte} : ((s.setSpace p pn x).proc q).status = (s.proc q).status := by
  by_cases h : q = p <;> simp [setSpace, setProc, h]

@[simp] theorem setSpace_fork {x : Option Pte} : ((s.setSpace p pn x).proc q).fork = (s.proc q).fork := by
  by_cases h : q = p <;> simp [setSpace, setProc, h]

@[simp] theorem setSpace_fault {x : Option Pte} : ((s.setSpace p pn x).proc q).fault = (s.proc q).fault := by
  by_cases h : q = p <;> simp [setSpace, setProc, h]

@[simp] theorem setSpace_mem {x : Option Pte} : (s.setSpace p pn x).mem = s.mem := rfl

theorem setSpace_of_ne {x : Option Pte} (h : q ≠ p) : (s.setSpace p pn x).proc q = s.proc q := setProc_of_ne h

@[simp] theorem setStatus_space {x : Status} : ((s.setStatus p x).proc q).space = (s.proc q).space := by
  by_cases h : q = p <;> simp [setStatus, setProc, h]

@[simp] theorem setStatus_fork {x : Status} : ((s.setStatus p x).proc q).fork = (s.proc q).fork := by
  by_cases h : q = p <;> simp [setStatus, setProc, h]

@[simp] theorem setStatus_fault {x : Status} : ((s.setStatus p x).proc q).fault = (s.proc q).fault := by
  by_cases h : q = p <;> simp [setStatus, setProc, h]

@[simp] theorem setStatus_mem {x : Status} : (s.setStatus p x).mem = s.mem := rfl

theorem setStatus_of_ne {x : Status} (h : q ≠ p) : (s.setStatus p x).proc q = s.proc q := setProc_of_ne h

@[simp] theorem setUpcall_space : ((s.setUpcall p).proc q).space = (s.proc q).space := by
  by_cases h : q = p <;> simp [setUpcall, setProc, h]

@[simp] theorem setUpcall_status : ((s.setUpcall p).proc q).status = (s.proc q).status := by
  by_cases h : q = p <;> simp [setUpcall, setProc, h]

@[simp] theorem setUpcall_fork : ((s.setUpcall p).proc q).fork = (s.proc q).fork := by
  by_cases h : q = p <;> simp [setUpcall, setProc, h]

@[simp] theorem setUpcall_fault : ((s.setUpcall p).proc q).fault = (s.proc q).fault := by
  by_cases h : q = p <;> simp [setUpcall, setProc, h]

@[simp] theorem setUpcall_mem : (s.setUpcall p).mem = s.mem := rfl

@[simp] theorem setFork_space {x : ForkPc} : ((s.setFork p x).proc q).space = (s.proc q).space := by
  by_cases h : q = p <;> simp [setFork, setProc, h]

@[simp] theorem setFork_status {x : ForkPc} : ((s.setFork p x).proc q).status = (s.proc q).status := by
  by_cases h : q = p <;> simp [setFork, setProc, h]

@[simp] theorem setFork_fault {x : ForkPc} : ((s.setFork p x).proc q).fault = (s.proc q).fault := by
  by_cases h : q = p <;> simp [setFork, setProc, h]

@[simp] theorem setFork_mem {x : ForkPc} : (s.setFork p x).mem = s.mem := rfl

theorem setFork_of_ne {x : ForkPc} (h : q ≠ p) : (s.setFork p x).proc q = s.proc q := setProc_of_ne h

@[simp] theorem setFault_space {x : FaultPc} : ((s.setFault p x).proc q).space = (s.proc q).space := by
  by_cases h : q = p <;> simp [setFault, setProc, h]

@[simp] theorem setFault_status {x : FaultPc} : ((s.setFault p x).proc q).status = (s.proc q).status := by
  by_cases h : q = p <;> simp [setFault, setProc, h]

@[simp] theorem setFault_fork {x : FaultPc} : ((s.setFault p x).proc q).fork = (s.proc q).fork := by
  by_cases h : q = p <;> simp [setFault, setProc, h]

@[simp] theorem setFault_mem {x : FaultPc} : (s.setFault p x).mem = s.mem := rfl

theorem setFault_of_ne {x : FaultPc} (h : q ≠ p) : (s.setFault p x).proc q = s.proc q := setProc_of_ne h

theorem setSpace_self {x : Option Pte} :
    ((s.setSpace p pn x).proc p).space = update (s.proc p).space pn x := by simp [setSpace]

@[simp] theorem setStatus_self {x : Status} : ((s.setStatus p x).proc p).status = x := by simp [setStatus]

@[simp] theorem setFork_self {x : ForkPc} : ((s.setFork p x).proc p).fork = x := by simp [setFork]

@[simp] theorem setFault_self {x : FaultPc} : ((s.setFault p x).proc p).fault = x := by simp [setFault]

end Fields

end Sys

-- The page that `pgfault` copies.
def Sys.CowAt (s : Sys) (p : Nat) (w : Write) : Prop :=
  w.pn ≠ PFTEMP ∧ ∃ pte, (s.proc p).space w.pn = some pte ∧ right pte.perm = .copy ∧
    pte.perm &&& PTE_COW ≠ 0#32

-- `p` has the page `f` at `PFTEMP`, and nobody else has it but `p`, where `K` says.
def Sys.TempAt (s : Sys) (p f : Nat) (K : Nat → Prop) : Prop :=
  (s.proc p).space PFTEMP = some ⟨f, PTE_W ||| PTE_U ||| PTE_P⟩ ∧
  ∀ {q pn pte}, (s.proc q).space pn = some pte → pte.page = f → q = p ∧ K pn

def FaultInv (s : Sys) (p : Nat) : FaultPc → Prop
  | .idle        => (s.proc p).space PFTEMP = none
  | .pageAlloc w => (s.proc p).space PFTEMP = none ∧ s.CowAt p w
  | .memcpy w    => s.CowAt p w ∧ ∃ f, s.TempAt p f (· = PFTEMP)
  | .pageMap w   => s.CowAt p w ∧ ∃ f, s.TempAt p f (· = PFTEMP) ∧
    ∀ {pte}, (s.proc p).space w.pn = some pte → s.mem f = s.mem pte.page
  | .pageUnmap w => w.pn ≠ PFTEMP ∧ ∃ f, s.TempAt p f (fun pn => pn = PFTEMP ∨ pn = w.pn) ∧
    (s.proc p).space w.pn = some ⟨f, PTE_W ||| PTE_U ||| PTE_P⟩
  | .again w     => (s.proc p).space PFTEMP = none ∧ w.pn ≠ PFTEMP ∧
    ∃ f, (s.proc p).space w.pn = some ⟨f, PTE_W ||| PTE_U ||| PTE_P⟩

-- What `duppage` has read is still so.
def ForkInv (s : Sys) (p : Nat) : ForkPc → Prop
  | .mapPage _ pn perm _ => pn ≠ PFTEMP ∧ ∃ pte, (s.proc p).space pn = some pte ∧
    pte.perm &&& PTE_COW = 0#32 ∧ right pte.perm ≠ .own ∧ right perm = right pte.perm ∧
    (right perm = .share → perm &&& PTE_COW = 0#32)
  | .mapCow _ pn _       => pn ≠ PFTEMP ∧ ∃ pte, (s.proc p).space pn = some pte ∧ right pte.perm ≠ .share
  | .markCow _ pn _      => pn ≠ PFTEMP ∧ ∃ pte, (s.proc p).space pn = some pte ∧ right pte.perm ≠ .share
  | _                    => True

-- What holds of each environment.
structure Local (s : Sys) (p : Nat) : Prop where
  free  : (s.proc p).status = .free → ∀ pn, (s.proc p).space pn = none
  quiet : (s.proc p).status = .free ∨ (s.proc p).status = .notRunnable →
    (s.proc p).fork = .idle ∧ (s.proc p).fault = .idle
  fault : FaultInv s p (s.proc p).fault
  fork  : ForkInv s p (s.proc p).fork
  child : ∀ {x}, (s.proc p).fork.forking = some x → (s.proc x.child).status = .notRunnable ∧
    x.left.Nodup ∧ UXSTACK ∉ x.left ∧ ∀ pn ∈ x.left, (s.proc x.child).space pn = none

structure Inv (s : Sys) : Prop where
  excl  : Exclusive s.table s.Between
  cow   : ∀ {p pn pte}, (s.proc p).space pn = some pte → right pte.perm = .share →
    pte.perm &&& PTE_COW = 0#32
  each  : ∀ p, Local s p
  uniq  : ∀ {p q x y}, (s.proc p).fork.forking = some x → (s.proc q).fork.forking = some y →
    x.child = y.child → p = q

theorem FaultInv.congr {u : Sys} {pc : FaultPc} (h : FaultInv s p pc)
    (hs : ∀ q, (u.proc q).space = (s.proc q).space) (hm : u.mem = s.mem) : FaultInv u p pc := by
  cases pc <;> simpa only [FaultInv, Sys.CowAt, Sys.TempAt, hs, hm] using h

theorem ForkInv.congr {pc : ForkPc} (h : ForkInv s p pc) (hs : (s'.proc p).space = (s.proc p).space) :
    ForkInv s' p pc := by
  cases pc
  case mapPage | mapCow | markCow => simpa only [ForkInv, hs] using h
  all_goals trivial

section Table

theorem table_eq (h : (s.proc p).space pn = some pte) (hne : pn ≠ PFTEMP) :
    s.table (p, pn) = some (pte.page, right pte.perm) := by
  simp [Sys.table, hne, h]

theorem table_none (h : (s.proc p).space pn = none) : s.table (p, pn) = none := by
  simp [Sys.table, h]

theorem of_table {f : Nat} {r : Right} (h : s.table (p, pn) = some (f, r)) :
    pn ≠ PFTEMP ∧ ∃ pte, (s.proc p).space pn = some pte ∧ pte.page = f ∧ right pte.perm = r := by
  unfold Sys.table at h
  dsimp only at h
  split at h
  case isTrue => cases h
  case isFalse hne =>
    cases hp : (s.proc p).space pn
    case none =>
      rw [hp] at h
      cases h
    case some pte =>
      rw [hp] at h
      cases h
      exact ⟨hne, pte, rfl, rfl, rfl⟩

theorem Sys.Free.table {f : Nat} (h : s.Free f) (k : Nat × Nat) (r : Right) : s.table k ≠ some (f, r) := by
  intro hk
  obtain ⟨-, pte, hp, hf, -⟩ := of_table hk
  exact h _ hp hf

theorem table_congr (h : ∀ p, (s'.proc p).space = (s.proc p).space) : s'.table = s.table := by
  funext k
  simp only [Sys.table, h]

theorem table_update {u : Sys} {x : Option Pte} (hp : (u.proc p).space = update (s.proc p).space pn x)
    (hs : ∀ {q}, q ≠ p → (u.proc q).space = (s.proc q).space) : u.table =
      if pn = PFTEMP then s.table
      else update s.table (p, pn) (x.map fun pte => (pte.page, right pte.perm)) := by
  funext ⟨q, pn'⟩
  by_cases hq : q = p
  · subst hq
    by_cases hn : pn' = pn
    · subst hn
      by_cases ht : pn' = PFTEMP <;> simp [Sys.table, hp, ht]
    · by_cases ht : pn = PFTEMP
      · simp only [Sys.table, hp, update_of_ne hn, if_pos ht]
      · simp [Sys.table, hp, hn, ht]
  · by_cases ht : pn = PFTEMP <;> simp [Sys.table, hs hq, hq, ht]

theorem between_congr (h : ∀ p, (s'.proc p).fork = (s.proc p).fork) : s'.Between = s.Between := by
  funext k k'
  simp only [Sys.Between, h]

end Table

-- A step of `p`, which may also change `c`: the others keep their address spaces and the pages that they
-- do not own, and get no new company.
structure Moved (s s' : Sys) (p c : Nat) : Prop where
  proc : ∀ {q}, q ≠ p → q ≠ c → s'.proc q = s.proc q
  mem  : ∀ {q pn pte}, q ≠ p → (s.proc q).status ≠ .notRunnable → (s.proc q).space pn = some pte →
    right pte.perm = .copy ∨ pn = PFTEMP → s'.mem pte.page = s.mem pte.page
  maps : ∀ {q pn pte}, q = p ∨ q = c → (s'.proc q).space pn = some pte →
    s.Free pte.page ∨ ∃ q₀ pn₀ pte₀, (q₀ = p ∨ q₀ = c) ∧ (s.proc q₀).space pn₀ = some pte₀ ∧
      pte₀.page = pte.page

namespace Moved

variable (h : Moved s s' p c) (hp : q ≠ p) (hc : q ≠ c)

include h hp hc

theorem tempAt {f : Nat} {K : Nat → Prop} (ht : s.TempAt q f K) : s'.TempAt q f K := by
  obtain ⟨hs, ho⟩ := ht
  have hq := h.proc hp hc
  refine ⟨by rw [hq, hs], fun {q' pn pte} hm hf => ?_⟩
  by_cases hx : q' = p ∨ q' = c
  · rcases h.maps hx hm with hfree | ⟨q₀, pn₀, pte₀, hq₀, hm₀, hf₀⟩
    · exact absurd hf.symm (hfree q hs)
    · obtain ⟨rfl, -⟩ := ho hm₀ (hf₀.trans hf)
      rcases hq₀ with rfl | rfl
      · exact absurd rfl hp
      · exact absurd rfl hc
  · rw [not_or] at hx
    rw [h.proc hx.1 hx.2] at hm
    exact ho hm hf

theorem cowAt (hw : s.CowAt q w) : s'.CowAt q w := by
  rw [Sys.CowAt, h.proc hp hc]
  exact hw

theorem faultInv (hq : (s.proc q).status ≠ .notRunnable) {pc : FaultPc} (hf : FaultInv s q pc) :
    FaultInv s' q pc := by
  have he := h.proc hp hc
  cases pc
  case idle => rwa [FaultInv, he]
  case pageAlloc w => exact ⟨by rw [he, hf.1], h.cowAt hp hc hf.2⟩
  case memcpy w =>
    obtain ⟨hw, f, ht⟩ := hf
    exact ⟨h.cowAt hp hc hw, f, h.tempAt hp hc ht⟩
  case pageMap w =>
    obtain ⟨hw, f, ht, hm⟩ := hf
    refine ⟨h.cowAt hp hc hw, f, h.tempAt hp hc ht, fun {pte} hs => ?_⟩
    rw [he] at hs
    obtain ⟨-, pte', hs', hr, -⟩ := hw
    rw [hs] at hs'
    cases hs'
    rw [h.mem hp hq ht.1 (.inr rfl), h.mem hp hq hs (.inl hr)]
    exact hm hs
  case pageUnmap w =>
    obtain ⟨hne, f, ht, hs⟩ := hf
    exact ⟨hne, f, h.tempAt hp hc ht, by rw [he, hs]⟩
  case again w =>
    obtain ⟨ht, hne, f, hs⟩ := hf
    exact ⟨by rw [he, ht], hne, f, by rw [he, hs]⟩

theorem forkInv {pc : ForkPc} (hf : ForkInv s q pc) : ForkInv s' q pc := by
  have he := h.proc hp hc
  cases pc <;> simp only [ForkInv] at hf ⊢ <;> first | trivial | rwa [he]

end Moved

namespace Inv

open Sys

variable (h : Inv s)

include h

-- A page at `PFTEMP` is nobody else's.
theorem temp_only (hq : (s.proc q).space PFTEMP = some pte) (hp : (s.proc p).space pn = some pte')
    (he : pte'.page = pte.page) : p = q := by
  have hf := (h.each q).fault
  cases hpc : (s.proc q).fault <;> rw [hpc] at hf
  case idle =>
    rw [hf] at hq
    cases hq
  case pageAlloc =>
    rw [hf.1] at hq
    cases hq
  case again =>
    rw [hf.1] at hq
    cases hq
  case memcpy =>
    obtain ⟨-, f, ht, ho⟩ := hf
    rw [ht] at hq
    cases hq
    exact (ho hp he).1
  case pageMap =>
    obtain ⟨-, f, ⟨ht, ho⟩, -⟩ := hf
    rw [ht] at hq
    cases hq
    exact (ho hp he).1
  case pageUnmap =>
    obtain ⟨-, f, ⟨ht, ho⟩, -⟩ := hf
    rw [ht] at hq
    cases hq
    exact (ho hp he).1

-- The child of a fork that goes on does not run, and does nothing.
theorem child_status {x : Forking} (hx : (s.proc p).fork.forking = some x) :
    (s.proc x.child).status = .notRunnable := ((h.each p).child hx).1

theorem child_ne {x : Forking} (hx : (s.proc p).fork.forking = some x) : x.child ≠ p := by
  intro he
  have hq := (h.each p).quiet (.inr (he ▸ h.child_status hx))
  rw [hq.1] at hx
  cases hx

-- The others keep what holds of them.
theorem others (hm : Moved s s' p c) (hp : (s.proc p).status ≠ .notRunnable)
    (hc : c = p ∨ (∃ x, (s.proc p).fork.forking = some x ∧ x.child = c) ∨ (s.proc c).status = .free)
    (hqp : q ≠ p) (hqc : q ≠ c) : Local s' q := by
  have hq := hm.proc hqp hqc
  have hl := h.each q
  refine ⟨fun hs => ?free, fun hs => ?quiet, ?fault, ?fork, fun {x} hx => ?child⟩
  case free =>
    rw [hq] at hs ⊢
    exact hl.free hs
  case quiet =>
    rw [hq] at hs ⊢
    exact hl.quiet hs
  case fault =>
    rw [hq]
    by_cases hr : (s.proc q).status = .notRunnable
    · have hf := hl.fault
      rw [(hl.quiet (.inr hr)).2] at hf ⊢
      rw [FaultInv, hq]
      exact hf
    · exact hm.faultInv hqp hqc hr hl.fault
  case fork =>
    rw [hq]
    exact hm.forkInv hqp hqc hl.fork
  case child =>
    rw [hq] at hx
    have hx' := hl.child hx
    have hne : x.child ≠ p := by
      rintro rfl
      exact hp hx'.1
    have hne' : x.child ≠ c := by
      intro he
      rcases hc with rfl | ⟨y, hy, he'⟩ | hf
      · exact hne he
      · exact hqp (h.uniq hx hy (he.trans he'.symm))
      · rw [← he, hx'.1] at hf
        cases hf
    rw [hm.proc hne hne']
    exact hx'

-- The invariant after a step, from what the step does to `p` and `c`.
theorem step (hm : Moved s s' p c) (hp : (s.proc p).status ≠ .notRunnable)
    (hc : c = p ∨ (∃ x, (s.proc p).fork.forking = some x ∧ x.child = c) ∨ (s.proc c).status = .free)
    (hx : Exclusive s'.table s'.Between)
    (hw : ∀ {q pn pte}, q = p ∨ q = c → (s'.proc q).space pn = some pte → right pte.perm = .share →
      pte.perm &&& PTE_COW = 0#32)
    (hlp : Local s' p) (hlc : c ≠ p → Local s' c ∧ (s'.proc c).fork = .idle)
    (hu : ∀ {x}, (s'.proc p).fork.forking = some x → (∃ y, (s.proc p).fork.forking = some y ∧
      y.child = x.child) ∨ (s.proc x.child).status = .free) : Inv s' where
  excl := hx
  cow := by
    intro q pn pte hs hr
    by_cases hq : q = p ∨ q = c
    · exact hw hq hs hr
    · rw [not_or] at hq
      rw [hm.proc hq.1 hq.2] at hs
      exact h.cow hs hr
  each q := by
    by_cases hqp : q = p
    · exact hqp ▸ hlp
    · by_cases hqc : q = c
      · exact hqc ▸ (hlc (hqc ▸ hqp)).1
      · exact h.others hm hp hc hqp hqc
  uniq := by
    -- Whoever is in a fork is `p`, or another one that was in it before.
    have ho {q : Nat} {x : Forking} (hq : (s'.proc q).fork.forking = some x) :
        q = p ∨ (s.proc q).fork.forking = some x := by
      by_cases hqp : q = p
      · exact .inl hqp
      · by_cases hqc : q = c
        · subst hqc
          rw [(hlc hqp).2] at hq
          cases hq
        · rw [hm.proc hqp hqc] at hq
          exact .inr hq
    have hpo {q : Nat} {x y : Forking} (hx : (s'.proc p).fork.forking = some x)
        (hy : (s.proc q).fork.forking = some y) (he : x.child = y.child) : p = q := by
      rcases hu hx with ⟨z, hz, hzx⟩ | hf
      · exact h.uniq hz hy (hzx.trans he)
      · rw [he, h.child_status hy] at hf
        cases hf
    intro q q' x y hqx hqy he
    rcases ho hqx with rfl | hx'
    · rcases ho hqy with rfl | hy'
      · rfl
      · exact hpo hqx hy' he
    · rcases ho hqy with rfl | hy'
      · exact (hpo hqy hx' he.symm).symm
      · exact h.uniq hx' hy' he

-- A write of the owner of a page, or of one of those who share it.
theorem moved_setMem {b : Nat → BitVec 8} (hne : pn ≠ PFTEMP) (hs : (s.proc p).space pn = some pte)
    (hw : pte.perm &&& PTE_W ≠ 0#32) : Moved s (s.setMem pte.page b) p p := by
  refine ⟨fun _ _ => rfl, fun {q pn' pte'} hq hst' hs' hc => update_of_ne (fun he => ?_) _ _,
    fun hq hm => .inr ⟨_, _, _, hq, hm, rfl⟩⟩
  by_cases ht : pn' = PFTEMP
  · subst ht
    exact hq (h.temp_only hs' hs he.symm).symm
  · have h₁ := table_eq hs hne
    have h₂ := table_eq hs' ht
    rw [he, hc.resolve_right ht] at h₂
    cases hrt : right pte.perm
    case copy => exact right_ne_copy hw hrt
    case share =>
      rw [hrt] at h₁
      cases h.excl.share h₁ h₂
    case own =>
      rw [hrt] at h₁
      obtain ⟨-, c, l, hpc, hk⟩ := h.excl.own h₁ h₂ fun he => hq (Prod.ext_iff.mp he).1
      cases hk
      exact hst' (h.child_status (by rw [hpc]; rfl))

theorem ne_PFTEMP (hfl : (s.proc p).fault = .idle) (hs : (s.proc p).space pn = some pte) : pn ≠ PFTEMP := by
  rintro rfl
  have hf := (h.each p).fault
  rw [hfl, FaultInv, hs] at hf
  cases hf

theorem setMem {b : Nat → BitVec 8} (hr : s.runs p) (hs : (s.proc p).space pn = some pte)
    (hw : pte.perm &&& PTE_W ≠ 0#32) : Inv (s.setMem pte.page b) := by
  obtain ⟨hst, hfl⟩ := runs_iff.mp hr
  refine h.step (h.moved_setMem (h.ne_PFTEMP hfl hs) hs hw) (by rw [hst]; decide) (.inl rfl) h.excl
    (fun _ hs hr => h.cow hs hr) ?_ (fun hc => absurd rfl hc) fun hx => .inl ⟨_, hx, rfl⟩
  have hl := h.each p
  refine ⟨hl.free, hl.quiet, ?_, hl.fork, hl.child⟩
  have hf := hl.fault
  rw [hfl] at hf
  rwa [setMem_proc, hfl]

theorem fault {w : Write} (hr : s.runs p) (hw : s.CowAt p w) : Inv (s.setFault p (.pageAlloc w)) := by
  obtain ⟨hst, hfl⟩ := runs_iff.mp hr
  have hl := h.each p
  have hf := hl.fault
  rw [hfl] at hf
  have hmv : Moved s (s.setFault p (.pageAlloc w)) p p :=
    ⟨fun hq _ => setFault_of_ne hq, fun _ _ _ _ => rfl,
      fun hq hm => .inr ⟨_, _, _, hq, by rwa [setFault_space] at hm, rfl⟩⟩
  refine h.step hmv (by rw [hst]; decide) (.inl rfl) ?excl (fun _ hs hr => ?cow) ?each
    (fun hc => absurd rfl hc) fun hx => ?child
  case excl =>
    rw [table_congr fun _ => setFault_space, between_congr fun _ => setFault_fork]
    exact h.excl
  case cow =>
    rw [setFault_space] at hs
    exact h.cow hs hr
  case child =>
    rw [setFault_fork] at hx
    exact .inl ⟨_, hx, rfl⟩
  case each =>
    refine ⟨?_, ?_, ?_, ?_, ?_⟩
    · simpa using hl.free
    · simp [hst]
    · rw [setFault_self]
      exact ⟨by rw [setFault_space, hf], by simpa [CowAt] using hw⟩
    · rw [setFault_fork]
      exact hl.fork.congr setFault_space
    · intro x hx
      rw [setFault_fork] at hx
      simpa using hl.child hx

-- A change of the status of `p` itself that leaves it active.
theorem setStatus {x : Status} (hst : (s.proc p).status = .runnable) (hx : x = .panicked) :
    Inv (s.setStatus p x) := by
  subst hx
  have hl := h.each p
  have hmv : Moved s (s.setStatus p .panicked) p p :=
    ⟨fun hq _ => setStatus_of_ne hq, fun _ _ _ _ => rfl,
      fun hq hm => .inr ⟨_, _, _, hq, by rwa [setStatus_space] at hm, rfl⟩⟩
  refine h.step hmv (by rw [hst]; decide) (.inl rfl) ?excl (fun _ hs hr => ?cow) ?each
    (fun hc => absurd rfl hc) fun hx => ?child
  case excl =>
    rw [table_congr fun _ => setStatus_space, between_congr fun _ => setStatus_fork]
    exact h.excl
  case cow =>
    rw [setStatus_space] at hs
    exact h.cow hs hr
  case child =>
    rw [setStatus_fork] at hx
    exact .inl ⟨_, hx, rfl⟩
  case each =>
    refine ⟨by simp, by simp, ?_, ?_, ?_⟩
    · rw [setStatus_fault]
      exact hl.fault.congr (fun _ => setStatus_space) rfl
    · rw [setStatus_fork]
      exact hl.fork.congr setStatus_space
    · intro x hx
      rw [setStatus_fork] at hx
      have hc := hl.child hx
      rw [setStatus_of_ne (h.child_ne hx)]
      simpa using hc

theorem exit (hst : (s.proc p).status ≠ .notRunnable) : Inv (s.exit p) := by
  have hmv : Moved s (s.exit p) p p :=
    ⟨fun hq _ => setProc_of_ne hq, fun _ _ _ _ => rfl, fun hq hm => by
      rw [or_self_iff.mp hq] at hm
      simp [Sys.exit] at hm⟩
  refine h.step hmv hst (.inl rfl) ?excl (fun hq hs hr => ?cow) ?each (fun hc => absurd rfl hc) fun hx => ?child
  case excl =>
    have hp : ∀ pn, (s.exit p).table (p, pn) = none := fun pn => table_none (by simp [Sys.exit])
    have hq {q : Nat} (hne : q ≠ p) (pn : Nat) : (s.exit p).table (q, pn) = s.table (q, pn) := by
      simp [Sys.table, Sys.exit, setProc_of_ne hne]
    have hx : Exclusive (s.exit p).table s.Between := h.excl.sub fun ⟨q, pn⟩ => by
      by_cases hne : q = p
      · exact .inl (hne ▸ hp pn)
      · exact .inr (hq hne pn)
    refine hx.weaken fun {k k' f} hk hk' ⟨c, l, hpc, he⟩ => ⟨c, l, ?_, he⟩
    have hne : k.1 ≠ p := by
      intro hc
      rw [show k = (p, k.2) from Prod.ext hc rfl, hp] at hk
      cases hk
    rwa [Sys.exit, setProc_of_ne hne]
  case cow =>
    rw [or_self_iff.mp hq] at hs
    simp [Sys.exit] at hs
  case child => simp [Sys.exit, ForkPc.forking] at hx
  case each => constructor <;> simp [Sys.exit, FaultInv, ForkInv, ForkPc.forking]

theorem setFork {pc : ForkPc} (hst : (s.proc p).status = .runnable)
    (hold : ∀ c pn l, (s.proc p).fork ≠ .markCow c pn l) (hf : ForkInv s p pc)
    (hc : ∀ {x}, pc.forking = some x → (∃ y, (s.proc p).fork.forking = some y ∧ y.child = x.child) ∧
      x.left.Nodup ∧ UXSTACK ∉ x.left ∧ ∀ pn ∈ x.left, (s.proc x.child).space pn = none) :
    Inv (s.setFork p pc) := by
  have hl := h.each p
  have hmv : Moved s (s.setFork p pc) p p :=
    ⟨fun hq _ => setFork_of_ne hq, fun _ _ _ _ => rfl,
      fun hq hm => .inr ⟨_, _, _, hq, by rwa [setFork_space] at hm, rfl⟩⟩
  refine h.step hmv (by rw [hst]; decide) (.inl rfl) ?excl (fun _ hs hr => ?cow) ?each
    (fun hc => absurd rfl hc) fun hx => ?child
  case excl =>
    rw [table_congr fun _ => setFork_space]
    refine h.excl.weaken fun {k k' f} _ _ ⟨c, l, hpc, he⟩ => ⟨c, l, ?_, he⟩
    have hne : k.1 ≠ p := by
      intro hk
      exact hold c k.2 l (hk ▸ hpc)
    rwa [setFork_of_ne hne]
  case cow =>
    rw [setFork_space] at hs
    exact h.cow hs hr
  case child =>
    rw [setFork_self] at hx
    exact .inl (hc hx).1
  case each =>
    refine ⟨by simp [hst], by simp [hst], ?_, ?_, ?_⟩
    · rw [setFork_fault]
      exact hl.fault.congr (fun _ => setFork_space) rfl
    · rw [setFork_self]
      exact hf.congr setFork_space
    · intro x hx
      rw [setFork_self] at hx
      obtain ⟨⟨y, hy, he⟩, hn, hux, hs⟩ := hc hx
      simp only [setFork_space, setFork_status]
      exact ⟨he ▸ h.child_status hy, hn, hux, hs⟩

-- A new page for `p` itself, outside of `fork` and `pgfault`, or at the exception stack of its child.
theorem alloc (hst : (s.proc p).status = .runnable) (hne : pn ≠ PFTEMP) (hfree : s.Free new)
    (hcow : right perm = .share → perm &&& PTE_COW = 0#32) (hfl : (s.proc p).fault = .idle)
    (hq : q = p ∧ (s.proc p).fork.forking = none ∨
      pn = UXSTACK ∧ ∃ x, (s.proc p).fork.forking = some x ∧ x.child = q) :
    Inv ((s.setSpace q pn (some ⟨new, perm⟩)).setMem new fun _ => 0#8) := by
  have hfq : (s.proc q).fault = .idle ∧ (s.proc q).status ≠ .free := by
    rcases hq with ⟨rfl, -⟩ | ⟨-, x, hx, rfl⟩
    · exact ⟨hfl, by rw [hst]; decide⟩
    · have hc := h.child_status hx
      exact ⟨((h.each _).quiet (.inr hc)).2, by rw [hc]; decide⟩
  have hq' : q = p ∨ (∃ x, (s.proc p).fork.forking = some x ∧ x.child = q) ∨ (s.proc q).status = .free := by
    rcases hq with ⟨rfl, -⟩ | ⟨-, hx⟩
    · exact .inl rfl
    · exact .inr (.inl hx)
  have hnew {k : Nat} {pte : Pte} {pn' : Nat}
      (hm : ((s.setSpace q pn (some ⟨new, perm⟩)).proc k).space pn' = some pte) :
      pte = ⟨new, perm⟩ ∨ (s.proc k).space pn' = some pte := by
    by_cases hk : k = q
    · subst hk
      rw [setSpace_self] at hm
      by_cases hn : pn' = pn
      · rw [hn, update_self] at hm
        exact .inl (Option.some.inj hm).symm
      · rw [update_of_ne hn] at hm
        exact .inr hm
    · rw [setSpace_of_ne hk] at hm
      exact .inr hm
  -- The faults are served, and no page of the child is missed.
  have hfault : FaultInv ((s.setSpace q pn (some ⟨new, perm⟩)).setMem new fun _ => 0#8) q .idle := by
    have hf := (h.each q).fault
    rw [hfq.1] at hf
    rw [FaultInv, setMem_proc, setSpace_self, update_of_ne (Ne.symm hne)]
    exact hf
  refine h.step (c := q) ?moved (by rw [hst]; decide) hq' ?excl (fun _ hs hr => ?cow) ?each
    (fun hqp => ⟨?child, ?idle⟩) fun hx => ?uniq
  case moved =>
    refine ⟨fun _ hk => setSpace_of_ne hk, fun _ _ hs _ => update_of_ne (hfree _ hs) _ _,
      fun {k pn' pte'} hk hm => ?_⟩
    rcases hnew hm with rfl | hs
    · exact .inl hfree
    · exact .inr ⟨k, pn', _, hk, hs, rfl⟩
  case excl =>
    have ht := table_update (s := s) (u := (s.setSpace q pn (some ⟨new, perm⟩)).setMem new fun _ => 0#8)
      (p := q) setSpace_self fun hk => by rw [setMem_proc, setSpace_of_ne hk]
    have hb : ((s.setSpace q pn (some ⟨new, perm⟩)).setMem new fun _ => 0#8).Between = s.Between :=
      between_congr fun _ => by rw [setMem_proc, setSpace_fork]
    rw [ht, if_neg hne, hb]
    exact h.excl.fresh fun _ => hfree.table _ _
  case cow =>
    rcases hnew hs with rfl | hs
    · exact hcow hr
    · exact h.cow hs hr
  case uniq =>
    rw [setMem_proc, setSpace_fork] at hx
    exact .inl ⟨_, hx, rfl⟩
  case idle =>
    rcases hq with ⟨hqp', -⟩ | ⟨-, x, hx, rfl⟩
    · exact absurd hqp' hqp
    · rw [setMem_proc, setSpace_fork]
      exact ((h.each _).quiet (.inr (h.child_status hx))).1
  case child =>
    rcases hq with ⟨hqp', -⟩ | ⟨-, x, hx, rfl⟩
    · exact absurd hqp' hqp
    · have hqt := (h.each x.child).quiet (.inr (h.child_status hx))
      refine ⟨?_, ?_, ?_, ?_, ?_⟩
      · simp [h.child_status hx]
      · simpa using fun _ => hqt
      · simpa [hqt.2] using hfault
      · simp [hqt.1, ForkInv]
      · simp [hqt.1, ForkPc.forking]
  case each =>
    refine ⟨?_, ?_, ?_, ?_, ?_⟩
    · simp [hst]
    · simp [hst]
    · rw [setMem_proc, setSpace_fault, hfl]
      rcases hq with ⟨rfl, -⟩ | ⟨-, x, hx, rfl⟩
      · exact hfault
      · have hf := (h.each p).fault
        rw [hfl] at hf
        rwa [FaultInv, setMem_proc, setSpace_of_ne (h.child_ne hx).symm]
    · rw [setMem_proc, setSpace_fork]
      rcases hq with ⟨rfl, hn⟩ | ⟨-, x, hx, rfl⟩
      · cases hpc : (s.proc q).fork <;> rw [hpc] at hn <;> trivial
      · refine (h.each p).fork.congr ?_
        rw [setMem_proc, setSpace_of_ne (h.child_ne hx).symm]
    · intro x hx
      rw [setMem_proc, setSpace_fork] at hx
      have hc := (h.each p).child hx
      rcases hq with ⟨rfl, hn⟩ | ⟨rfl, y, hy, rfl⟩
      · rw [hx] at hn
        cases hn
      · rw [hx] at hy
        cases hy
        refine ⟨by simpa using hc.1, hc.2.1, hc.2.2.1, fun pn' hm => ?_⟩
        have hux : pn' ≠ UXSTACK := fun he => hc.2.2.1 (he ▸ hm)
        rw [setMem_proc, setSpace_self, update_of_ne hux]
        exact hc.2.2.2 pn' hm

-- The program gives up a page.
theorem unmap (hr : s.runs p) (hk : (s.proc p).fork = .idle) : Inv (s.setSpace p pn none) := by
  obtain ⟨hst, hfl⟩ := runs_iff.mp hr
  have hold {k : Nat} {pte : Pte} {pn' : Nat} (hm : ((s.setSpace p pn none).proc k).space pn' = some pte) :
      (s.proc k).space pn' = some pte := by
    by_cases hk : k = p
    · subst hk
      rw [setSpace_self] at hm
      by_cases hn : pn' = pn
      · rw [hn, update_self] at hm
        cases hm
      · rwa [update_of_ne hn] at hm
    · rwa [setSpace_of_ne hk] at hm
  refine h.step (c := p) ?moved (by rw [hst]; decide) (.inl rfl) ?excl (fun _ hs hr => h.cow (hold hs) hr)
    ?each (fun hc => absurd rfl hc) fun hx => ?uniq
  case moved =>
    exact ⟨fun hq _ => setSpace_of_ne hq, fun _ _ _ _ => rfl, fun hq hm => .inr ⟨_, _, _, hq, hold hm, rfl⟩⟩
  case excl =>
    rw [between_congr fun _ => setSpace_fork]
    refine h.excl.sub fun k => ?_
    rw [table_update setSpace_self fun hq => by rw [setSpace_of_ne hq]]
    split
    · exact .inr rfl
    · by_cases he : k = (p, pn)
      · exact .inl (by rw [he, update_self]; rfl)
      · exact .inr (update_of_ne he _ _)
  case uniq =>
    rw [setSpace_fork] at hx
    exact .inl ⟨_, hx, rfl⟩
  case each =>
    refine ⟨by simp [hst], by simp [hst], ?_, ?_, ?_⟩
    · have hf := (h.each p).fault
      rw [hfl] at hf
      rw [setSpace_fault, hfl, FaultInv, setSpace_self]
      by_cases ht : PFTEMP = pn
      · rw [ht, update_self]
      · rw [update_of_ne ht]
        exact hf
    · rw [setSpace_fork, hk]
      trivial
    · intro x hx
      rw [setSpace_fork, hk] at hx
      cases hx

theorem exofork (hst : (s.proc p).status = .runnable) (hk : (s.proc p).fork = .exofork)
    (hc : (s.proc c).status = .free) : Inv
    ((s.setProc c ⟨fun _ => none, false, .notRunnable, .idle, .idle⟩).setFork p (.stackAlloc c)) := by
  have hpc : p ≠ c := by
    rintro rfl
    rw [hst] at hc
    cases hc
  have hcs := (h.each c).free hc
  have hsp (q : Nat) :
      (((s.setProc c ⟨fun _ => none, false, .notRunnable, .idle, .idle⟩).setFork p (.stackAlloc c)).proc
        q).space = (s.proc q).space := by
    rw [setFork_space]
    by_cases hq : q = c
    · subst hq
      rw [setProc_self]
      exact (funext hcs).symm
    · rw [setProc_of_ne hq]
  refine h.step (c := c) ?moved (by rw [hst]; decide) (.inr (.inr hc)) ?excl (fun _ hs hr => ?cow) ?each
    (fun _ => ⟨?child, ?idle⟩) fun hx => ?uniq
  case moved =>
    exact ⟨fun hq hq' => by rw [setFork_of_ne hq, setProc_of_ne hq'], fun _ _ _ _ => rfl,
      fun hq hm => .inr ⟨_, _, _, hq, by rwa [hsp] at hm, rfl⟩⟩
  case excl =>
    rw [table_congr hsp]
    refine h.excl.weaken fun {k k' f} _ _ ⟨c', l, hb, he⟩ => ⟨c', l, ?_, he⟩
    have h₁ : k.1 ≠ p := by
      rintro hkp
      rw [hkp, hk] at hb
      cases hb
    have h₂ : k.1 ≠ c := by
      rintro hkc
      rw [hkc, ((h.each c).quiet (.inl hc)).1] at hb
      cases hb
    rwa [setFork_of_ne h₁, setProc_of_ne h₂]
  case cow =>
    rw [hsp] at hs
    exact h.cow hs hr
  case uniq =>
    rw [setFork_self] at hx
    cases hx
    exact .inr hc
  case idle => rw [setFork_of_ne hpc.symm, setProc_self]
  case child =>
    constructor <;> simp [setFork_of_ne hpc.symm, FaultInv, ForkInv, ForkPc.forking]
  case each =>
    refine ⟨?_, ?_, ?_, ?_, ?_⟩
    · simp [setProc_of_ne hpc, hst]
    · simp [setProc_of_ne hpc, hst]
    · have hf := (h.each p).fault.congr (u := (s.setProc c ⟨fun _ => none, false, .notRunnable, .idle,
        .idle⟩).setFork p (.stackAlloc c)) hsp rfl
      rwa [setFork_fault, setProc_of_ne hpc]
    · rw [setFork_self]
      trivial
    · intro x hx
      rw [setFork_self] at hx
      obtain rfl : (⟨c, none, pages⟩ : Forking) = x := Option.some.inj hx
      refine ⟨by simp, pages_nodup, not_mem_pages, fun pn _ => ?_⟩
      rw [hsp]
      exact hcs pn

theorem start (hst : (s.proc p).status = .runnable) (hk : (s.proc p).fork = .loop c []) :
    Inv ((s.setStatus c .runnable).setFork p .idle) := by
  have hx : (s.proc p).fork.forking = some ⟨c, none, []⟩ := by rw [hk]; rfl
  have hpc := h.child_ne hx
  have hcs := h.child_status hx
  have hqt := (h.each c).quiet (.inr hcs)
  have hsp (q : Nat) : (((s.setStatus c .runnable).setFork p .idle).proc q).space = (s.proc q).space := by
    rw [setFork_space, setStatus_space]
  refine h.step (c := c) ?moved (by rw [hst]; decide) (.inr (.inl ⟨_, hx, rfl⟩)) ?excl
    (fun _ hs hr => ?cow) ?each (fun _ => ⟨?child, ?idle⟩) fun hx => ?uniq
  case moved =>
    exact ⟨fun hq hq' => by rw [setFork_of_ne hq, setStatus_of_ne hq'], fun _ _ _ _ => rfl,
      fun hq hm => .inr ⟨_, _, _, hq, by rwa [hsp] at hm, rfl⟩⟩
  case excl =>
    rw [table_congr hsp]
    refine h.excl.weaken fun {k k' f} _ _ ⟨c', l, hb, he⟩ => ⟨c', l, ?_, he⟩
    have hkp : k.1 ≠ p := by
      rintro hkp
      rw [hkp, hk] at hb
      cases hb
    rwa [setFork_of_ne hkp, setStatus_fork]
  case cow =>
    rw [hsp] at hs
    exact h.cow hs hr
  case uniq =>
    rw [setFork_self] at hx
    cases hx
  case idle => rw [setFork_of_ne hpc, setStatus_fork, hqt.1]
  case child =>
    have hf := (h.each c).fault
    rw [hqt.2] at hf
    refine ⟨?_, ?_, ?_, ?_, ?_⟩
    · simp
    · simp
    · rw [setFork_fault, setStatus_fault, hqt.2]
      exact hf.congr hsp rfl
    · rw [setFork_of_ne hpc, setStatus_fork, hqt.1]
      trivial
    · intro x hx
      rw [setFork_of_ne hpc, setStatus_fork, hqt.1] at hx
      cases hx
  case each =>
    refine ⟨?_, ?_, ?_, ?_, ?_⟩
    · simp [setStatus_of_ne hpc.symm, hst]
    · simp [setStatus_of_ne hpc.symm, hst]
    · rw [setFork_fault, setStatus_fault]
      exact (h.each p).fault.congr hsp rfl
    · rw [setFork_self]
      trivial
    · intro x hx
      rw [setFork_self] at hx
      cases hx

-- `duppage` maps the page of the parent in the child, and is done with it or goes on to mark it.
theorem mapChild {l : List Nat} {pc : ForkPc} (hrun : s.runs p)
    (hk : (s.proc p).fork.forking = some ⟨c, none, pn :: l⟩) (hne : pn ≠ PFTEMP)
    (hs : (s.proc p).space pn = some pte) (hr : right perm = .share ↔ right pte.perm = .share)
    (hown : right perm ≠ .own) (hcow : right perm = .share → perm &&& PTE_COW = 0#32)
    (hpc : pc = .markCow c pn l ∧ right pte.perm ≠ .share ∨ pc = .loop c l ∧ right pte.perm ≠ .own) :
    Inv ((s.setSpace c pn (some ⟨pte.page, perm⟩)).setFork p pc) := by
  obtain ⟨hst, hfl⟩ := runs_iff.mp hrun
  have hcp := h.child_ne hk
  have hcs := h.child_status hk
  have hqt := (h.each c).quiet (.inr hcs)
  obtain ⟨-, hnd, hux, hleft⟩ := (h.each p).child hk
  rw [List.nodup_cons] at hnd
  have hfk : ∀ x, pc.forking = some x → x.child = c ∧ x.left = l := by
    intro x hx
    rcases hpc with ⟨rfl, -⟩ | ⟨rfl, -⟩ <;>
    · cases hx
      exact ⟨rfl, rfl⟩
  have hp : ((s.setSpace c pn (some ⟨pte.page, perm⟩)).setFork p pc).proc p =
      { s.proc p with fork := pc } := by
    rw [Sys.setFork, setProc_self, setSpace_of_ne hcp.symm]
  have hc : (((s.setSpace c pn (some ⟨pte.page, perm⟩)).setFork p pc).proc c).space =
      update (s.proc c).space pn (some ⟨pte.page, perm⟩) := by
    rw [setFork_space, setSpace_self]
  have hold {q pn' : Nat} {pte' : Pte}
      (hm : (((s.setSpace c pn (some ⟨pte.page, perm⟩)).setFork p pc).proc q).space pn' = some pte') :
      pte' = ⟨pte.page, perm⟩ ∨ (s.proc q).space pn' = some pte' := by
    by_cases hq : q = c
    · subst hq
      rw [hc] at hm
      by_cases hn : pn' = pn
      · rw [hn, update_self] at hm
        exact .inl (Option.some.inj hm).symm
      · rw [update_of_ne hn] at hm
        exact .inr hm
    · rw [setFork_space, setSpace_of_ne hq] at hm
      exact .inr hm
  refine h.step (c := c) ?moved (by rw [hst]; decide) (.inr (.inl ⟨_, hk, rfl⟩)) ?excl
    (fun _ hs hr => ?cow) ?each (fun _ => ⟨?child, ?idle⟩) fun hx => ?uniq
  case moved =>
    refine ⟨fun hq hq' => by rw [setFork_of_ne hq, setSpace_of_ne hq'], fun _ _ _ _ => rfl,
      fun {q pn' pte'} hq hm => .inr ?_⟩
    rcases hold hm with rfl | hm
    · exact ⟨p, pn, pte, .inl rfl, hs, rfl⟩
    · exact ⟨q, pn', pte', hq, hm, rfl⟩
  case excl =>
    have hw : Exclusive s.table ((s.setSpace c pn (some ⟨pte.page, perm⟩)).setFork p pc).Between := by
      refine h.excl.weaken fun {k k' f} _ _ ⟨c', l', hb, he⟩ => ⟨c', l', ?_, he⟩
      have hkp : k.1 ≠ p := by
        intro hkp
        rw [hkp] at hb
        rw [hb] at hk
        cases hk
      rwa [setFork_of_ne hkp, setSpace_fork]
    have ht := table_eq hs hne
    rw [table_update (x := some ⟨pte.page, perm⟩) hc fun hq => by rw [setFork_space, setSpace_of_ne hq],
      if_neg hne, Option.map_some]
    by_cases hsh : right pte.perm = .share
    · rw [hsh] at ht
      rw [hr.mpr hsh]
      exact hw.dup_share ht
    · have hcp : right perm = .copy := by
        cases hx : right perm
        case own => exact absurd hx hown
        case copy => rfl
        case share => exact absurd (hr.mp hx) hsh
      rw [hcp]
      refine hw.dup_copy ht hsh fun {k} hkn ho => ?_
      by_cases hkp : k = (p, pn)
      · subst hkp
        rw [ho] at ht
        rcases hpc with ⟨rfl, -⟩ | ⟨-, hno⟩
        · exact ⟨c, l, by rw [setFork_self], rfl⟩
        · exact absurd (congrArg Prod.snd (Option.some.inj ht)).symm hno
      · obtain ⟨-, c', l', hb, he⟩ := h.excl.own ho ht (Ne.symm hkp)
        obtain ⟨rfl, -⟩ := Prod.ext_iff.mp he
        have hn := h.child_status (p := k.1) (x := ⟨p, some k.2, l'⟩) (by rw [hb]; rfl)
        rw [hst] at hn
        cases hn
  case cow =>
    rcases hold hs with rfl | hs
    · exact hcow hr
    · exact h.cow hs hr
  case uniq =>
    rw [setFork_self] at hx
    exact .inl ⟨_, hk, (hfk _ hx).1.symm⟩
  case idle => rw [setFork_of_ne hcp, setSpace_fork, hqt.1]
  case child =>
    have hf := (h.each c).fault
    rw [hqt.2] at hf
    refine ⟨?_, ?_, ?_, ?_, ?_⟩
    · simp [hcs]
    · intro _
      rw [setFork_of_ne hcp, setSpace_fork, setSpace_fault]
      exact hqt
    · rw [setFork_fault, setSpace_fault, hqt.2, FaultInv, hc, update_of_ne (Ne.symm hne)]
      exact hf
    · rw [setFork_of_ne hcp, setSpace_fork, hqt.1]
      trivial
    · intro x hx
      rw [setFork_of_ne hcp, setSpace_fork, hqt.1] at hx
      cases hx
  case each =>
    refine ⟨?_, ?_, ?_, ?_, ?_⟩
    · rw [hp]
      exact (h.each p).free
    · rw [hp, hst]
      simp
    · have hf := (h.each p).fault
      rw [hfl] at hf
      rw [setFork_fault, setSpace_fault, hfl, FaultInv, setFork_space, setSpace_of_ne hcp.symm]
      exact hf
    · rw [setFork_self]
      rcases hpc with ⟨rfl, hnk⟩ | ⟨rfl, -⟩
      · exact ⟨hne, pte, by rw [hp]; exact hs, hnk⟩
      · trivial
    · intro x hx
      rw [setFork_self] at hx
      obtain ⟨rfl, hxl⟩ := hfk _ hx
      rw [hxl, hc, setFork_of_ne hcp, setSpace_status]
      refine ⟨hcs, hnd.2, fun hm => hux (List.mem_cons_of_mem _ hm), fun pn' hm => ?_⟩
      have hn : pn' ≠ pn := by
        rintro rfl
        exact hnd.1 hm
      rw [update_of_ne hn]
      exact hleft pn' (List.mem_cons_of_mem _ hm)

-- `duppage` marks the page of the parent.
theorem markCow {l : List Nat} (hrun : s.runs p) (hk : (s.proc p).fork = .markCow c pn l)
    (hs : (s.proc p).space pn = some pte) :
    Inv ((s.setSpace p pn (some ⟨pte.page, PTE_COW ||| PTE_U ||| PTE_P⟩)).setFork p (.loop c l)) := by
  obtain ⟨hst, hfl⟩ := runs_iff.mp hrun
  have hx : (s.proc p).fork.forking = some ⟨c, some pn, l⟩ := by rw [hk]; rfl
  have hcp := h.child_ne hx
  have hch := (h.each p).child hx
  have hki := (h.each p).fork
  rw [hk] at hki
  obtain ⟨hne, pte', hs', hsh⟩ := hki
  rw [hs] at hs'
  cases hs'
  have hsp : (((s.setSpace p pn (some ⟨pte.page, PTE_COW ||| PTE_U ||| PTE_P⟩)).setFork p
      (.loop c l)).proc p).space = update (s.proc p).space pn
        (some ⟨pte.page, PTE_COW ||| PTE_U ||| PTE_P⟩) := by
    rw [setFork_space, setSpace_self]
  have hold {pn' : Nat} {pte' : Pte} (hm : (((s.setSpace p pn (some ⟨pte.page, PTE_COW ||| PTE_U |||
      PTE_P⟩)).setFork p (.loop c l)).proc p).space pn' = some pte') :
      pte' = ⟨pte.page, PTE_COW ||| PTE_U ||| PTE_P⟩ ∨ (s.proc p).space pn' = some pte' := by
    rw [hsp] at hm
    by_cases hn : pn' = pn
    · rw [hn, update_self] at hm
      exact .inl (Option.some.inj hm).symm
    · rw [update_of_ne hn] at hm
      exact .inr hm
  refine h.step (c := p) ?moved (by rw [hst]; decide) (.inl rfl) ?excl (fun hq hs hr => ?cow) ?each
    (fun hc => absurd rfl hc) fun hx' => ?uniq
  case moved =>
    refine ⟨fun hq _ => by rw [setFork_of_ne hq, setSpace_of_ne hq], fun _ _ _ _ => rfl,
      fun {q pn' pte'} hq hm => .inr ?_⟩
    obtain rfl := or_self_iff.mp hq
    rcases hold hm with rfl | hm
    · exact ⟨q, pn, pte, .inl rfl, hs, rfl⟩
    · exact ⟨q, pn', pte', .inl rfl, hm, rfl⟩
  case excl =>
    rw [table_update (x := some ⟨pte.page, PTE_COW ||| PTE_U ||| PTE_P⟩) hsp fun hq => by
      rw [setFork_space, setSpace_of_ne hq], if_neg hne, Option.map_some, right_COW]
    refine (h.excl.demote (table_eq hs hne) hsh).weaken fun {k k' f} ho _ ⟨c', l', hb, he⟩ =>
      ⟨c', l', ?_, he⟩
    have hkp : k.1 ≠ p := by
      intro hkp
      rw [hkp, hk] at hb
      cases hb
      rw [show k = (p, k.2) from Prod.ext hkp rfl, update_self] at ho
      cases ho
    rwa [setFork_of_ne hkp, setSpace_fork]
  case cow =>
    obtain rfl := or_self_iff.mp hq
    rcases hold hs with rfl | hs
    · rw [right_COW] at hr
      cases hr
    · exact h.cow hs hr
  case uniq =>
    rw [setFork_self] at hx'
    cases hx'
    exact .inl ⟨_, hx, rfl⟩
  case each =>
    refine ⟨?_, ?_, ?_, ?_, ?_⟩
    · simp [hst]
    · simp [hst]
    · have hf := (h.each p).fault
      rw [hfl] at hf
      rw [setFork_fault, setSpace_fault, hfl, FaultInv, hsp, update_of_ne (Ne.symm hne)]
      exact hf
    · rw [setFork_self]
      trivial
    · intro x hx'
      rw [setFork_self] at hx'
      cases hx'
      rw [setFork_of_ne hcp, setSpace_of_ne hcp]
      exact hch

-- `p` is in `pgfault`: its fork, if it is in one, stands still.
theorem faulting {pc : FaultPc} (hst : (s.proc p).status = .runnable) (hm : Moved s s' p p)
    (hf : (s'.proc p).fork = (s.proc p).fork) (hs : (s'.proc p).status = (s.proc p).status)
    (hpc : (s'.proc p).fault = pc) (hx : Exclusive s'.table s'.Between)
    (hcow : ∀ {pn pte}, (s'.proc p).space pn = some pte → right pte.perm = .share →
      pte.perm &&& PTE_COW = 0#32)
    (hfault : FaultInv s' p pc) (hfork : ForkInv s' p (s.proc p).fork) : Inv s' := by
  have hcow' {q pn : Nat} {pte : Pte} (hq : q = p ∨ q = p) : (s'.proc q).space pn = some pte →
      right pte.perm = .share → pte.perm &&& PTE_COW = 0#32 := by
    obtain rfl := or_self_iff.mp hq
    exact hcow
  refine h.step hm (by rw [hst]; decide) (.inl rfl) hx hcow' ⟨?_, ?_, ?_, ?_, ?_⟩ (fun hc => absurd rfl hc)
    fun hx => .inl ⟨_, hf ▸ hx, rfl⟩
  · simp [hs, hst]
  · simp [hs, hst]
  · rw [hpc]
    exact hfault
  · rw [hf]
    exact hfork
  · intro x hx
    rw [hf] at hx
    have hne := h.child_ne hx
    rw [hm.proc hne hne]
    exact (h.each p).child hx

section Pgfault

variable (hst : (s.proc p).status = .runnable)

include hst

theorem pageAlloc (hpc : (s.proc p).fault = .pageAlloc w) (hfree : s.Free new) :
    Inv (((s.setSpace p PFTEMP (some ⟨new, PTE_W ||| PTE_U ||| PTE_P⟩)).setMem new fun _ => 0#8).setFault p
      (.memcpy w)) := by
  have hf := (h.each p).fault
  rw [hpc] at hf
  obtain ⟨-, hne, hw⟩ := hf
  have hsp : ((((s.setSpace p PFTEMP (some ⟨new, PTE_W ||| PTE_U ||| PTE_P⟩)).setMem new
      fun _ => 0#8).setFault p (.memcpy w)).proc p).space =
        update (s.proc p).space PFTEMP (some ⟨new, PTE_W ||| PTE_U ||| PTE_P⟩) := by
    rw [setFault_space, setMem_proc, setSpace_self]
  have hmv : Moved s (((s.setSpace p PFTEMP (some ⟨new, PTE_W ||| PTE_U ||| PTE_P⟩)).setMem new
      fun _ => 0#8).setFault p (.memcpy w)) p p := by
    refine ⟨fun hq _ => by rw [setFault_of_ne hq, setMem_proc, setSpace_of_ne hq],
      fun _ _ hs _ => update_of_ne (hfree _ hs) _ _, fun {q pn pte} hq hm => ?_⟩
    obtain rfl := or_self_iff.mp hq
    rw [hsp] at hm
    by_cases hn : pn = PFTEMP
    · rw [hn, update_self] at hm
      cases hm
      exact .inl hfree
    · rw [update_of_ne hn] at hm
      exact .inr ⟨q, pn, pte, .inl rfl, hm, rfl⟩
  refine h.faulting hst hmv ?fork ?status setFault_self ?excl (fun {pn pte} hs hr => ?cow) ?fault ?forkInv
  case fork => rw [setFault_fork, setMem_proc, setSpace_fork]
  case status => rw [setFault_status, setMem_proc, setSpace_status]
  case excl =>
    rw [table_update hsp fun hq => by rw [setFault_space, setMem_proc, setSpace_of_ne hq], if_pos rfl,
      between_congr (s := s) fun _ => by rw [setFault_fork, setMem_proc, setSpace_fork]]
    exact h.excl
  case cow =>
    rw [hsp] at hs
    by_cases hn : pn = PFTEMP
    · rw [hn, update_self] at hs
      cases hs
      rw [right_WUP] at hr
      cases hr
    · rw [update_of_ne hn] at hs
      exact h.cow hs hr
  case fault =>
    refine ⟨⟨hne, by rwa [hsp, update_of_ne hne]⟩, new, by rw [hsp, update_self], fun {q pn pte} hm hn => ?_⟩
    by_cases hq : q = p
    · subst hq
      rw [hsp] at hm
      by_cases ht : pn = PFTEMP
      · exact ⟨rfl, ht⟩
      · rw [update_of_ne ht] at hm
        exact absurd hn (hfree _ hm)
    · rw [setFault_of_ne hq, setMem_proc, setSpace_of_ne hq] at hm
      exact absurd hn (hfree _ hm)
  case forkInv =>
    have hk := (h.each p).fork
    cases hpc : (s.proc p).fork <;> rw [hpc] at hk
    case mapPage | mapCow | markCow =>
      obtain ⟨hn, hk⟩ := hk
      exact ⟨hn, by rwa [hsp, update_of_ne hn]⟩
    all_goals trivial

theorem memcpy {f : Nat} (hpc : (s.proc p).fault = .memcpy w)
    (ht : (s.proc p).space PFTEMP = some ⟨f, PTE_W ||| PTE_U ||| PTE_P⟩)
    (hs : (s.proc p).space w.pn = some pte) :
    Inv ((s.setMem f (s.mem pte.page)).setFault p (.pageMap w)) := by
  have hf := (h.each p).fault
  rw [hpc] at hf
  obtain ⟨hw, f', ht', ho⟩ := hf
  rw [ht] at ht'
  cases ht'
  have hsp (q : Nat) : (((s.setMem f (s.mem pte.page)).setFault p (.pageMap w)).proc q).space =
      (s.proc q).space := by rw [setFault_space, setMem_proc]
  have hmv : Moved s ((s.setMem f (s.mem pte.page)).setFault p (.pageMap w)) p p := by
    refine ⟨fun hq _ => by rw [setFault_of_ne hq, setMem_proc],
      fun hq _ hm _ => update_of_ne (fun he => ?_) _ _,
      fun hq hm => .inr ⟨_, _, _, hq, by rwa [hsp] at hm, rfl⟩⟩
    exact hq (ho hm he).1
  refine h.faulting hst hmv ?fork ?status setFault_self ?excl (fun hs hr => ?cow) ?fault
    ((h.each p).fork.congr (hsp p))
  case fork => rw [setFault_fork, setMem_proc]
  case status => rw [setFault_status, setMem_proc]
  case excl =>
    rw [table_congr hsp, between_congr (s := s) fun _ => by rw [setFault_fork, setMem_proc]]
    exact h.excl
  case cow =>
    rw [hsp] at hs
    exact h.cow hs hr
  case fault =>
    refine ⟨?_, f, ⟨by rw [hsp, ht], fun hm hn => ?_⟩, fun {pte'} hs' => ?_⟩
    · rw [CowAt, hsp]
      exact hw
    · rw [hsp] at hm
      exact ho hm hn
    · rw [hsp, hs] at hs'
      cases hs'
      have hn : pte.page ≠ f := fun he => hw.1 (ho hs he).2
      simp [Sys.setMem, update_of_ne hn]

theorem pageMap {f : Nat} (hpc : (s.proc p).fault = .pageMap w)
    (ht : (s.proc p).space PFTEMP = some ⟨f, PTE_W ||| PTE_U ||| PTE_P⟩) :
    Inv ((s.setSpace p w.pn (some ⟨f, PTE_W ||| PTE_U ||| PTE_P⟩)).setFault p (.pageUnmap w)) := by
  have hf := (h.each p).fault
  rw [hpc] at hf
  obtain ⟨⟨hne, pte, hs, hr, hcow⟩, f', ⟨ht', ho⟩, -⟩ := hf
  rw [ht] at ht'
  cases ht'
  have hsp : (((s.setSpace p w.pn (some ⟨f, PTE_W ||| PTE_U ||| PTE_P⟩)).setFault p
      (.pageUnmap w)).proc p).space =
        update (s.proc p).space w.pn (some ⟨f, PTE_W ||| PTE_U ||| PTE_P⟩) := by
    rw [setFault_space, setSpace_self]
  have hmv : Moved s ((s.setSpace p w.pn (some ⟨f, PTE_W ||| PTE_U ||| PTE_P⟩)).setFault p
      (.pageUnmap w)) p p := by
    refine ⟨fun hq _ => by rw [setFault_of_ne hq, setSpace_of_ne hq], fun _ _ _ _ => rfl,
      fun {q pn pte} hq hm => .inr ?_⟩
    obtain rfl := or_self_iff.mp hq
    rw [hsp] at hm
    by_cases hn : pn = w.pn
    · rw [hn, update_self] at hm
      cases hm
      exact ⟨q, PFTEMP, _, .inl rfl, ht, rfl⟩
    · rw [update_of_ne hn] at hm
      exact ⟨q, pn, pte, .inl rfl, hm, rfl⟩
  refine h.faulting hst hmv ?fork ?status setFault_self ?excl (fun {pn pte} hs hr => ?cow) ?fault ?forkInv
  case fork => rw [setFault_fork, setSpace_fork]
  case status => rw [setFault_status, setSpace_status]
  case excl =>
    rw [table_update hsp fun hq => by rw [setFault_space, setSpace_of_ne hq], if_neg hne, Option.map_some,
      between_congr (s := s) fun _ => by rw [setFault_fork, setSpace_fork]]
    refine h.excl.fresh fun {k r} _ hk => ?_
    obtain ⟨hn, pte', hm, he, -⟩ := of_table hk
    exact hn (ho hm he).2
  case cow =>
    rw [hsp] at hs
    by_cases hn : pn = w.pn
    · rw [hn, update_self] at hs
      cases hs
      rw [right_WUP] at hr
      cases hr
    · rw [update_of_ne hn] at hs
      exact h.cow hs hr
  case fault =>
    refine ⟨hne, f, ⟨by rw [hsp, update_of_ne (Ne.symm hne), ht], fun {q pn pte'} hm hn => ?_⟩,
      by rw [hsp, update_self]⟩
    by_cases hq : q = p
    · subst hq
      rw [hsp] at hm
      by_cases hp : pn = w.pn
      · exact ⟨rfl, .inr hp⟩
      · rw [update_of_ne hp] at hm
        exact ⟨rfl, .inl (ho hm hn).2⟩
    · rw [setFault_of_ne hq, setSpace_of_ne hq] at hm
      exact absurd (ho hm hn).1 hq
  case forkInv =>
    have hk := (h.each p).fork
    cases hpc : (s.proc p).fork <;> rw [hpc] at hk
    case mapPage c pn perm l =>
      obtain ⟨hn, pte', hs', hc', hk⟩ := hk
      have hnw : pn ≠ w.pn := by
        rintro rfl
        rw [hs] at hs'
        cases hs'
        exact hcow hc'
      exact ⟨hn, pte', by rwa [hsp, update_of_ne hnw], hc', hk⟩
    case mapCow c pn l | markCow c pn l =>
      obtain ⟨hn, pte', hs', hk⟩ := hk
      by_cases hnw : pn = w.pn
      · exact ⟨hn, ⟨f, PTE_W ||| PTE_U ||| PTE_P⟩, by rw [hsp, hnw, update_self], by simp⟩
      · exact ⟨hn, pte', by rwa [hsp, update_of_ne hnw], hk⟩
    all_goals trivial

theorem pageUnmap (hpc : (s.proc p).fault = .pageUnmap w) :
    Inv ((s.setSpace p PFTEMP none).setFault p (.again w)) := by
  have hf := (h.each p).fault
  rw [hpc] at hf
  obtain ⟨hne, f, -, hs⟩ := hf
  have hsp : (((s.setSpace p PFTEMP none).setFault p (.again w)).proc p).space =
      update (s.proc p).space PFTEMP none := by
    rw [setFault_space, setSpace_self]
  have hold {pn : Nat} {pte : Pte}
      (hm : (((s.setSpace p PFTEMP none).setFault p (.again w)).proc p).space pn = some pte) :
      (s.proc p).space pn = some pte := by
    rw [hsp] at hm
    by_cases hn : pn = PFTEMP
    · rw [hn, update_self] at hm
      cases hm
    · rwa [update_of_ne hn] at hm
  have hmv : Moved s ((s.setSpace p PFTEMP none).setFault p (.again w)) p p := by
    refine ⟨fun hq _ => by rw [setFault_of_ne hq, setSpace_of_ne hq], fun _ _ _ _ => rfl,
      fun {q pn pte} hq hm => .inr ?_⟩
    obtain rfl := or_self_iff.mp hq
    exact ⟨q, pn, pte, .inl rfl, hold hm, rfl⟩
  refine h.faulting hst hmv ?fork ?status setFault_self ?excl (fun hs hr => h.cow (hold hs) hr)
    ⟨by rw [hsp, update_self], hne, f, by rwa [hsp, update_of_ne hne]⟩ ?forkInv
  case fork => rw [setFault_fork, setSpace_fork]
  case status => rw [setFault_status, setSpace_status]
  case excl =>
    rw [table_update hsp fun hq => by rw [setFault_space, setSpace_of_ne hq], if_pos rfl,
      between_congr (s := s) fun _ => by rw [setFault_fork, setSpace_fork]]
    exact h.excl
  case forkInv =>
    have hk := (h.each p).fork
    cases hpc : (s.proc p).fork <;> rw [hpc] at hk
    case mapPage | mapCow | markCow =>
      obtain ⟨hn, hk⟩ := hk
      exact ⟨hn, by rwa [hsp, update_of_ne hn]⟩
    all_goals trivial

theorem again {b : Nat → BitVec 8} (hpc : (s.proc p).fault = .again w)
    (hs : (s.proc p).space w.pn = some pte) : Inv ((s.setMem pte.page b).setFault p .idle) := by
  have hf := (h.each p).fault
  rw [hpc] at hf
  obtain ⟨ht, hne, f, hs'⟩ := hf
  rw [hs] at hs'
  cases hs'
  have hm := h.moved_setMem (b := b) hne hs WUP_W
  have hsp (q : Nat) : (((s.setMem f b).setFault p .idle).proc q).space = (s.proc q).space := by
    rw [setFault_space, setMem_proc]
  have hmv : Moved s ((s.setMem f b).setFault p .idle) p p :=
    ⟨fun hq _ => by rw [setFault_of_ne hq, setMem_proc], hm.mem,
      fun hq hm => .inr ⟨_, _, _, hq, by rwa [hsp] at hm, rfl⟩⟩
  refine h.faulting hst hmv ?fork ?status setFault_self ?excl (fun hs hr => ?cow) ((hsp p ▸ ht :))
    ((h.each p).fork.congr (hsp p))
  case fork => rw [setFault_fork, setMem_proc]
  case status => rw [setFault_status, setMem_proc]
  case excl =>
    rw [table_congr hsp, between_congr (s := s) fun _ => by rw [setFault_fork, setMem_proc]]
    exact h.excl
  case cow =>
    rw [hsp] at hs
    exact h.cow hs hr

end Pgfault

theorem congr (hs : ∀ p, (s'.proc p).space = (s.proc p).space) (hm : s'.mem = s.mem)
    (hst : ∀ p, (s'.proc p).status = (s.proc p).status) (hf : ∀ p, (s'.proc p).fork = (s.proc p).fork)
    (hfl : ∀ p, (s'.proc p).fault = (s.proc p).fault) : Inv s' where
  excl := by
    rw [table_congr hs, between_congr hf]
    exact h.excl
  cow := by
    intro p pn pte hp
    rw [hs] at hp
    exact h.cow hp
  each p := by
    have hl := h.each p
    refine ⟨?_, ?_, ?_, ?_, ?_⟩
    · rw [hst, hs]
      exact hl.free
    · rw [hst, hf, hfl]
      exact hl.quiet
    · rw [hfl]
      exact hl.fault.congr hs hm
    · rw [hf]
      exact hl.fork.congr (hs p)
    · intro x hx
      rw [hf] at hx
      rw [hst, hs]
      exact hl.child hx
  uniq := by
    intro p q x y hx hy
    rw [hf] at hx hy
    exact h.uniq hx hy

end Inv

end Lib.Cow

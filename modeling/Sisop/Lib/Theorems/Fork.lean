import Sisop.Lib.Fork
import Sisop.Library.Run

namespace Lib

open Inc Library Function Kern

def Pte.Writable (pte : Pte) : Prop := pte.perm &&& PTE_W ≠ 0#32

-- What the kernel and the loader make sure of: the pages of a process are below `UTOP`, for the user, and
-- in use.
structure Fork.Valid (s : Fork) : Prop where
  below : ∀ {pn pte}, s.parent.space pn = some pte → pn < PGNUM UTOP
  user  : ∀ {pn pte}, s.parent.space pn = some pte → pte.perm &&& (PTE_U ||| PTE_P) = PTE_U ||| PTE_P
  page  : ∀ {pn pte}, s.parent.space pn = some pte → pte.page < s.nextPage

def Process.CanWrite (p : Process) (mem : Pages) (new pn : Nat) : Prop :=
  ∀ off b, (write p mem new pn off b).isSome

-- What the process of `p` writes is not seen in `space`.
def Process.Hidden (p : Process) (space : Space) (mem : Pages) (new : Nat) : Prop :=
  ∀ {pn off b p' mem'}, write p mem new pn off b = some (p', mem') →
    ∀ pn' off', read space mem' pn' off' = read space mem pn' off'

-- A write of one of the two processes.
inductive Fork.Write : Fork → Fork → Prop
  | parent {t : Fork} {pn off b p mem} : write t.parent t.mem t.nextPage pn off b = some (p, mem) →
    Write t { t with parent := p, mem := mem, nextPage := t.nextPage + 1 }
  | child {t : Fork} {pn off b p mem} : write t.child t.mem t.nextPage pn off b = some (p, mem) →
    Write t { t with child := p, mem := mem, nextPage := t.nextPage + 1 }

abbrev Fork.Writes := Relation.ReflTransGen Fork.Write

-- The child has the memory of the parent, but for the exception stack, and the parent keeps it; neither
-- sees what the other writes, and the child can write where the parent could.
structure Fork.Forks (s s' : Fork) : Prop where
  kept   : s'.parent = s.parent ∧
    ∀ pn off, read s'.parent.space s'.mem pn off = read s.parent.space s.mem pn off
  copied : ∀ pn off, pn ≠ UXSTACK → read s'.child.space s'.mem pn off = read s.parent.space s.mem pn off
  parent : ∀ {t : Fork}, s'.Writes t → t.parent.Hidden t.child.space t.mem t.nextPage
  child  : ∀ {t : Fork}, s'.Writes t → t.child.Hidden t.parent.space t.mem t.nextPage
  writes : ∀ pn, s.parent.CanWrite s.mem s.nextPage pn → s'.child.CanWrite s'.mem s'.nextPage pn

-- The address spaces that `fork_v0` copies as `fork` does.
structure Process.Plain (p : Process) : Prop where
  utemp : ∀ {pn pte}, p.space pn = some pte → pte.Writable → p.space UTEMP = none
  apart : ∀ {pn pn' pte pte'}, p.space pn = some pte → pte.Writable → p.space pn' = some pte' →
    ¬pte'.Writable → pte.page ≠ pte'.page
  cow   : p.upcall → ∀ {pn pte}, p.space pn = some pte → ¬pte.Writable → pn ≠ PFTEMP →
    pte.perm &&& PTE_COW = 0#32

variable {s s' t t' : Fork} {p : Process} {space : Space} {mem : Pages} {fails : Nat → Bool} {noEnv : Bool}
  {new pn k q : Nat} {pte : Pte} {perm : Word}

instance : Decidable pte.Writable := inferInstanceAs (Decidable (_ ≠ _))

section Flags

theorem not_badPerm (h : perm &&& (PTE_U ||| PTE_P) = PTE_U ||| PTE_P) :
    badPerm (perm &&& PTE_SYSCALL) = false := by
  have h₁ : PTE_SYSCALL &&& (PTE_U ||| PTE_P) = PTE_U ||| PTE_P := by decide
  have h₂ : PTE_SYSCALL &&& ~~~PTE_SYSCALL = 0#32 := by decide
  rw [badPerm, BitVec.and_assoc, h₁, h, BitVec.and_assoc, h₂, BitVec.and_zero]
  rfl

theorem and_SYSCALL_W : perm &&& PTE_SYSCALL &&& PTE_W = perm &&& PTE_W := by
  have h : PTE_SYSCALL &&& PTE_W = PTE_W := by decide
  rw [BitVec.and_assoc, h]

theorem not_badWrite : badWrite perm (perm &&& PTE_SYSCALL) = false := by
  rw [badWrite, and_SYSCALL_W]
  by_cases h : perm &&& PTE_W = 0#32
  · rw [h]
    rfl
  · simp [h]

theorem not_badWrite_self : badWrite perm perm = false := by
  rw [badWrite]
  by_cases h : perm &&& PTE_W = 0#32
  · rw [h]
    rfl
  · simp [h]

end Flags

-- A page below `k` is writable, so that the loop has used `UTEMP` when it is at `k`.
def Used (p : Process) (k : Nat) : Prop := ∃ pn < k, ∃ pte, p.space pn = some pte ∧ pte.Writable

open Classical in
-- What the child has at `pn` after the loop has been there.
def CopiedAt (s t : Fork) (pn : Nat) : Prop :=
  match s.parent.space pn with
  | none     => t.child.space pn = none
  | some pte =>
    if pn = UTEMP ∧ Used s.parent UTEMP then t.child.space pn = none
    else if pte.Writable then
      ∃ q, t.child.space pn = some ⟨q, pte.perm &&& PTE_SYSCALL⟩ ∧ s.nextPage ≤ q ∧ q < t.nextPage ∧
        (pn ≠ UTEMP → t.mem q = s.mem pte.page)
    else t.child.space pn = some ⟨pte.page, pte.perm &&& PTE_SYSCALL⟩

-- What holds before the turn of the loop for the page `k`.
structure Turn (s : Fork) (k : Nat) (t : Fork) : Prop where
  same   : ¬Used s.parent k → t.parent = s.parent
  gone   : Used s.parent k → t.parent = ⟨update s.parent.space UTEMP none, s.parent.upcall⟩
  upcall : t.child.upcall = false
  later  : ∀ pn, k ≤ pn → t.child.space pn = none
  copied : ∀ pn < k, CopiedAt s t pn
  next   : s.nextPage ≤ t.nextPage
  mem    : ∀ q < s.nextPage, t.mem q = s.mem q

theorem used_succ : Used p (k + 1) ↔ Used p k ∨ ∃ pte, p.space k = some pte ∧ pte.Writable := by
  constructor
  case mp =>
    rintro ⟨pn, hlt, h⟩
    rcases Nat.lt_succ_iff_lt_or_eq.mp hlt with hlt | rfl
    · exact .inl ⟨pn, hlt, h⟩
    · exact .inr h
  case mpr =>
    rintro (⟨pn, hlt, h⟩ | h)
    · exact ⟨pn, Nat.lt_succ_of_lt hlt, h⟩
    · exact ⟨k, Nat.lt_succ_self k, h⟩

theorem Used.mono {k' : Nat} (h : Used p k) (hk : k ≤ k') : Used p k' := by
  obtain ⟨pn, hlt, h⟩ := h
  exact ⟨pn, lt_of_lt_of_le hlt hk, h⟩

-- A copy is not changed by what is copied later.
theorem CopiedAt.keep (h : CopiedAt s t pn) (hc : t'.child.space pn = t.child.space pn)
    (hn : t.nextPage ≤ t'.nextPage) (hm : ∀ q < t.nextPage, t'.mem q = t.mem q) : CopiedAt s t' pn := by
  unfold CopiedAt at h ⊢
  cases hs : s.parent.space pn
  case none =>
    simp only [hs] at h ⊢
    exact hc.trans h
  case some pte =>
    simp only [hs] at h ⊢
    split_ifs at h ⊢
    · exact hc.trans h
    · obtain ⟨q, h₁, h₂, h₃, h₄⟩ := h
      exact ⟨q, hc.trans h₁, h₂, lt_of_lt_of_le h₃ hn, fun hne => (hm q h₃).trans (h₄ hne)⟩
    · exact hc.trans h

section Turns

variable (h : Turn s k t)

include h

-- The page `k` of the parent is still what it was, or the loop has taken it for `UTEMP`.
theorem Turn.parent_eq (hk : t.parent.space k = some pte) :
    s.parent.space k = some pte ∧ ¬(k = UTEMP ∧ Used s.parent UTEMP) := by
  by_cases hu : Used s.parent k
  · rw [h.gone hu] at hk
    dsimp only at hk
    by_cases he : k = UTEMP
    · rw [he, update_self] at hk
      cases hk
    · rw [update_of_ne he] at hk
      exact ⟨hk, fun hc => he hc.1⟩
  · rw [h.same hu] at hk
    exact ⟨hk, fun hc => hu (hc.1 ▸ hc.2)⟩

theorem Turn.parent_none (hk : t.parent.space k = none) :
    s.parent.space k = none ∨ k = UTEMP ∧ Used s.parent UTEMP := by
  by_cases hu : Used s.parent k
  · rw [h.gone hu] at hk
    dsimp only at hk
    by_cases he : k = UTEMP
    · exact .inr ⟨he, he ▸ hu⟩
    · rw [update_of_ne he] at hk
      exact .inl hk
  · rw [h.same hu] at hk
    exact .inl hk

-- There is no page, or it has gone.
theorem Turn.skip (hk : t.parent.space k = none) : Turn s (k + 1) t := by
  have hn := h.parent_none hk
  have hu : Used s.parent (k + 1) ↔ Used s.parent k := by
    rw [used_succ, or_iff_left_iff_imp]
    rintro ⟨pte, hp, -⟩
    rcases hn with hn | ⟨rfl, hu⟩
    · rw [hn] at hp
      cases hp
    · exact hu
  refine ⟨fun hc => h.same fun hc' => hc (hu.mpr hc'), fun hc => h.gone (hu.mp hc), h.upcall,
    fun pn hp => h.later pn (Nat.le_of_succ_le hp), fun pn hp => ?_, h.next, h.mem⟩
  rcases Nat.lt_succ_iff_lt_or_eq.mp hp with hp | rfl
  · exact h.copied pn hp
  · have hc := h.later pn le_rfl
    unfold CopiedAt
    rcases hn with hn | hn
    · rw [hn]
      exact hc
    · cases hs : s.parent.space pn
      case none => exact hc
      case some pte =>
        simp only [if_pos hn]
        exact hc

-- A page that is not writable is shared.
theorem Turn.share (hk : t.parent.space k = some pte) (hw : ¬pte.Writable) :
    Turn s (k + 1)
      (t.setChild (update t.child.space k (some ⟨pte.page, pte.perm &&& PTE_SYSCALL⟩))) := by
  obtain ⟨hs, hne⟩ := h.parent_eq hk
  have hu : Used s.parent (k + 1) ↔ Used s.parent k := by
    rw [used_succ, or_iff_left_iff_imp]
    rintro ⟨pte', hp, hw'⟩
    rw [hs] at hp
    cases hp
    exact absurd hw' hw
  refine ⟨fun hc => h.same fun hc' => hc (hu.mpr hc'), fun hc => h.gone (hu.mp hc), h.upcall,
    fun pn hp => ?_, fun pn hp => ?_, h.next, h.mem⟩
  · exact (update_of_ne (by omega) _ _).trans (h.later pn (Nat.le_of_succ_le hp))
  · rcases Nat.lt_succ_iff_lt_or_eq.mp hp with hp | rfl
    · exact (h.copied pn hp).keep (update_of_ne (Nat.ne_of_lt hp) _ _) le_rfl fun _ _ => rfl
    · unfold CopiedAt
      simp only [hs, if_neg hne, if_neg hw]
      exact update_self _ _ _

variable (hv : s.Valid)

include hv

-- A writable page is copied, through `UTEMP`.
theorem Turn.copy {b : Nat → BitVec 8} (hk : t.parent.space k = some pte) (hw : pte.Writable)
    (hb : k ≠ UTEMP → b = t.mem pte.page) : Turn s (k + 1) { t with
      parent   := { t.parent with space := update t.parent.space UTEMP none }
      child    := { t.child with
        space := update t.child.space k (some ⟨t.nextPage, pte.perm &&& PTE_SYSCALL⟩) }
      mem      := update t.mem t.nextPage b
      nextPage := t.nextPage + 1 } := by
  obtain ⟨hs, hne⟩ := h.parent_eq hk
  have hu : Used s.parent (k + 1) := used_succ.mpr (.inr ⟨pte, hs, hw⟩)
  have hold {q : Nat} (hq : q < t.nextPage) : update t.mem t.nextPage b q = t.mem q :=
    update_of_ne (Nat.ne_of_lt hq) _ _
  refine ⟨fun hc => absurd hu hc, fun _ => ?_, h.upcall, fun pn hp => ?_, fun pn hp => ?_,
    Nat.le_succ_of_le h.next, fun q hq => ?_⟩
  · by_cases hu₀ : Used s.parent k
    · simp only [h.gone hu₀, update_idem]
    · simp only [h.same hu₀]
  · exact (update_of_ne (by omega) _ _).trans (h.later pn (Nat.le_of_succ_le hp))
  · rcases Nat.lt_succ_iff_lt_or_eq.mp hp with hp | rfl
    · exact (h.copied pn hp).keep (update_of_ne (Nat.ne_of_lt hp) _ _) (Nat.le_succ _)
        fun _ => hold
    · unfold CopiedAt
      simp only [hs, if_neg hne, if_pos hw]
      refine ⟨t.nextPage, update_self _ _ _, h.next, Nat.lt_succ_self _, fun hne => ?_⟩
      rw [update_self, hb hne]
      exact h.mem pte.page (hv.page hs)
  · exact (hold (lt_of_lt_of_le hq h.next)).trans (h.mem q hq)

-- What a turn does, unless a system call fails.
theorem Turn.copyPage_eq (hk : t.parent.space k = some pte) : ∃ t', Turn s (k + 1) t' ∧
    t.copyPage fails k = if fails k then none else some t' := by
  have hs := (h.parent_eq hk).1
  have hp := not_badPerm (hv.user hs)
  by_cases hw : pte.Writable
  case neg =>
    refine ⟨_, h.share hk hw, ?_⟩
    have hw : pte.perm &&& PTE_SYSCALL &&& PTE_W = 0#32 := by
      rw [and_SYSCALL_W]
      simpa [Pte.Writable] using hw
    simp [Fork.copyPage, Fork.dupOrShare, hw, sysPageMap, hp, hk, not_badWrite]
  case pos =>
    have hw' : pte.perm &&& PTE_SYSCALL &&& PTE_W ≠ 0#32 := by
      rw [and_SYSCALL_W]
      exact hw
    by_cases hu : k = UTEMP
    · refine ⟨_, h.copy hv (b := fun _ => 0#8) hk hw fun hc => absurd hu hc, ?_⟩
      subst hu
      simp [Fork.copyPage, Fork.dupOrShare, hw', Fork.pageAlloc, sysPageMap, hp, hk, not_badWrite_self,
        Fork.setChild, Fork.setParent, Fork.memmove]
    · have hne : pte.page ≠ t.nextPage := Nat.ne_of_lt (lt_of_lt_of_le (hv.page hs) h.next)
      refine ⟨_, h.copy hv hk hw fun _ => rfl, ?_⟩
      simp [Fork.copyPage, Fork.dupOrShare, hw', Fork.pageAlloc, sysPageMap, hp, hk, not_badWrite_self,
        Fork.setChild, Fork.setParent, Fork.memmove, hu, hne]

theorem Turn.step (fails : Nat → Bool) : (∀ t', t.copyPage fails k = some t' → Turn s (k + 1) t') ∧
    (fails k = false → ∃ t', t.copyPage fails k = some t') := by
  cases hk : t.parent.space k
  case none =>
    have hx : t.copyPage fails k = some t := by simp [Fork.copyPage, hk]
    rw [hx]
    refine ⟨fun t' ht => ?_, fun _ => ⟨t, rfl⟩⟩
    cases ht
    exact h.skip hk
  case some pte =>
    obtain ⟨t₁, ht, hx⟩ := h.copyPage_eq hv hk
    rw [hx]
    constructor
    · intro t' he
      split at he
      · cases he
      · cases he
        exact ht
    · intro hf
      exact ⟨t₁, by simp [hf]⟩

end Turns

theorem turn_zero : Turn s 0 { s with child := ⟨fun _ => none, false⟩ } where
  same   := fun _ => rfl
  gone   := fun ⟨_, hlt, _⟩ => absurd hlt (Nat.not_lt_zero _)
  upcall := rfl
  later  := fun _ _ => rfl
  copied := fun _ hlt => absurd hlt (Nat.not_lt_zero _)
  next   := le_rfl
  mem    := fun _ _ => rfl

theorem forkV0_turn (hv : s.Valid) (hx : s.forkV0 noEnv fails = some s') :
    Turn s (PGNUM UTOP) s' := by
  rw [Fork.forkV0] at hx
  split at hx
  case isTrue => cases hx
  case isFalse => exact foldlM_range hx turn_zero fun _ ht he => (ht.step hv fails).1 _ he

-- Without errors, `fork_v0` returns.
theorem forkV0_returns (hv : s.Valid) : ∃ s', s.forkV0 false (fun _ => false) = some s' := by
  have hi {t : Fork} {k : Nat} (ht : Turn s k t) :
      ∃ t', t.copyPage (fun _ => false) k = some t' ∧ Turn s (k + 1) t' := by
    obtain ⟨hturn, hret⟩ := ht.step hv fun _ => false
    obtain ⟨t', he⟩ := hret rfl
    exact ⟨t', he, hturn t' he⟩
  obtain ⟨s', hx, -⟩ := foldlM_range_total (n := PGNUM UTOP) turn_zero fun _ ht => hi ht
  exact ⟨s', hx⟩

section Write

variable {off : Nat} {b : BitVec 8} {p' : Process} {mem' : Pages}

theorem pgfault_eq (hp : p.space pn = some pte) (hc : pte.perm &&& PTE_COW ≠ 0#32) (hne : pn ≠ PFTEMP) :
    pgfault p.space mem new pn =
      some (update (update (update p.space PFTEMP (some ⟨new, PTE_W ||| PTE_U ||| PTE_P⟩)) pn
        (some ⟨new, PTE_W ||| PTE_U ||| PTE_P⟩)) PFTEMP none,
        update (update mem new fun _ => 0#8) new ((update mem new fun _ => 0#8) pte.page)) := by
  simp [pgfault, hp, hc, update_of_ne hne]

-- A write to a page that is not writable, in a process with the handler.
theorem write_cow (hu : p.upcall = true) (hp : p.space pn = some pte) (hw : ¬pte.Writable)
    (hc : pte.perm &&& PTE_COW ≠ 0#32) (hne : pn ≠ PFTEMP) : ∃ space mem₁,
      write p mem new pn off b = some (⟨space, true⟩, store mem₁ new off b) ∧
      (∀ r, r ≠ new → mem₁ r = mem r) ∧
      ∀ q pte, space q = some pte → p.space q = some pte ∨ pte.page = new := by
  have hw : pte.perm &&& PTE_W = 0#32 := by simpa [Pte.Writable] using hw
  let new' : Option Pte := some ⟨new, PTE_W ||| PTE_U ||| PTE_P⟩
  let mem₀ := update mem new fun _ => 0#8
  refine ⟨update (update (update p.space PFTEMP new') pn new') PFTEMP none,
    update mem₀ new (mem₀ pte.page), ?_, fun r hr => ?_, fun q pte hq => ?_⟩
  · simp only [write, hp, hw, hu, pgfault_eq hp hc hne, ne_eq, not_true, if_false, if_true,
      Option.bind_eq_bind, Option.bind_some, update_of_ne hne, update_self]
    rfl
  · exact (update_of_ne hr _ _).trans (update_of_ne hr _ _)
  · by_cases hq₁ : q = PFTEMP
    · rw [hq₁, update_self] at hq
      cases hq
    · rw [update_of_ne hq₁] at hq
      by_cases hq₂ : q = pn
      · rw [hq₂, update_self] at hq
        exact .inr (congrArg Pte.page (Option.some.inj hq)).symm
      · rw [update_of_ne hq₂, update_of_ne hq₁] at hq
        exact .inl hq

theorem write_isSome : (write p mem new pn off b).isSome ↔ ∃ pte, p.space pn = some pte ∧
    (pte.Writable ∨ p.upcall ∧ pn ≠ PFTEMP ∧ pte.perm &&& PTE_COW ≠ 0#32) := by
  cases hp : p.space pn
  case none => simp [write, hp]
  case some pte =>
    by_cases hw : pte.Writable
    · have hw' : pte.perm &&& PTE_W ≠ 0#32 := hw
      simp [write, hp, hw, hw']
    · have hw' : pte.perm &&& PTE_W = 0#32 := by simpa [Pte.Writable] using hw
      simp only [Option.some.injEq, exists_eq_left', hw, false_or]
      cases hu : p.upcall
      case false => simp [write, hp, hw', hu]
      case true =>
        by_cases hc : pte.perm &&& PTE_COW = 0#32
        · simp [write, hp, hw', hu, pgfault, hc]
        · by_cases hne : pn = PFTEMP
          · subst hne
            simp [write, hp, hw', hu, pgfault, hc]
          · have ⟨_, _, he, _⟩ := @write_cow p mem new pn pte off b hu hp hw hc hne
            simp [he, hc, hne]

-- A process can write to its writable pages, and with the handler to copy-on-write pages.
theorem canWrite_iff : p.CanWrite mem new pn ↔ ∃ pte, p.space pn = some pte ∧
    (pte.Writable ∨ p.upcall ∧ pn ≠ PFTEMP ∧ pte.perm &&& PTE_COW ≠ 0#32) :=
  ⟨fun h => write_isSome.mp (h 0 0#8), fun h _ _ => write_isSome.mpr h⟩

-- A write changes a writable page of the process, or a new one, which the process gets.
theorem write_spec (h : write p mem new pn off b = some (p', mem')) :
    (∃ q, (∀ r, r ≠ q → mem' r = mem r) ∧
      (q = new ∨ ∃ pte, p.space pn = some pte ∧ pte.Writable ∧ q = pte.page)) ∧
    ∀ pn pte, p'.space pn = some pte → p.space pn = some pte ∨ pte.page = new := by
  obtain ⟨pte, hp, hc⟩ := write_isSome.mp (Option.isSome_of_mem h)
  by_cases hw : pte.Writable
  · have hw' : pte.perm &&& PTE_W ≠ 0#32 := hw
    simp only [write, hp, if_pos hw', Option.some.injEq, Prod.mk.injEq] at h
    obtain ⟨rfl, rfl⟩ := h
    exact ⟨⟨pte.page, fun r hr => update_of_ne hr _ _, .inr ⟨pte, hp, hw, rfl⟩⟩, fun _ _ => .inl⟩
  · obtain ⟨hu, hne, hc⟩ := hc.resolve_left hw
    obtain ⟨space, mem₁, he, hm, hs⟩ := write_cow (b := b) hu hp hw hc hne
    rw [he] at h
    cases h
    exact ⟨⟨new, fun r hr => (update_of_ne hr _ _).trans (hm r hr), .inl rfl⟩, hs⟩

-- Neither of two processes can write to a page of the other.
structure Apart (p p' : Process) (new : Nat) : Prop where
  page  : ∀ {pn pte}, p.space pn = some pte → pte.page < new
  page' : ∀ {pn pte}, p'.space pn = some pte → pte.page < new
  ne    : ∀ {pn pn' pte pte'}, p.space pn = some pte → pte.Writable → p'.space pn' = some pte' →
    pte'.page ≠ pte.page
  ne'   : ∀ {pn pn' pte pte'}, p'.space pn = some pte → pte.Writable → p.space pn' = some pte' →
    pte'.page ≠ pte.page

theorem Apart.symm {p' : Process} (h : Apart p p' new) : Apart p' p new := ⟨h.page', h.page, h.ne', h.ne⟩

theorem Apart.hidden {p' : Process} (h : Apart p p' new) : p.Hidden p'.space mem new := by
  intro pn off b _ mem' hw pn' off'
  obtain ⟨⟨q, hq, ho⟩, -⟩ := write_spec hw
  simp only [read]
  cases hs : p'.space pn'
  case none => rfl
  case some pte' =>
    have hne : pte'.page ≠ q := by
      rcases ho with rfl | ⟨pte, hp, hpw, rfl⟩
      · exact Nat.ne_of_lt (h.page' hs)
      · exact h.ne hp hpw hs
    simp only [Option.map_some, hq _ hne]

-- A write keeps the processes apart.
theorem Apart.write {p₂ : Process} (h : Apart p p₂ new) (hw : write p mem new pn off b = some (p', mem')) :
    Apart p' p₂ (new + 1) := by
  have hs := (write_spec hw).2
  refine ⟨fun hp => ?_, fun hp => Nat.lt_succ_of_lt (h.page' hp), fun hp hpw hp₂ => ?_,
    fun hp₂ hpw hp => ?_⟩
  · rcases hs _ _ hp with hp | he
    · exact Nat.lt_succ_of_lt (h.page hp)
    · exact he ▸ Nat.lt_succ_self new
  · rcases hs _ _ hp with hp | he
    · exact h.ne hp hpw hp₂
    · exact he ▸ Nat.ne_of_lt (h.page' hp₂)
  · rcases hs _ _ hp with hp | he
    · exact h.ne' hp₂ hpw hp
    · exact he ▸ Nat.ne_of_gt (h.page' hp₂)

theorem Apart.writes (h : Apart t.parent t.child t.nextPage) (hw : t.Writes t') :
    Apart t'.parent t'.child t'.nextPage := by
  induction hw
  case refl => exact h
  case tail hw ih =>
    cases hw
    case parent hw => exact ih.write hw
    case child hw => exact (ih.symm.write hw).symm

end Write

section Copy

variable (hv : s.Valid) (h : Turn s (PGNUM UTOP) s')

include hv h

theorem kept_iff : s'.parent = s.parent ↔
    ∀ {pn pte}, s.parent.space pn = some pte → pte.Writable → s.parent.space UTEMP = none := by
  by_cases hu : Used s.parent (PGNUM UTOP)
  · rw [h.gone hu]
    obtain ⟨pn, -, pte, hp, hw⟩ := hu
    constructor
    case mp =>
      intro he _ _ _ _
      have hs : update s.parent.space UTEMP none = s.parent.space := congrArg Process.space he
      rw [← hs, update_self]
    case mpr =>
      intro hn
      rw [← hn hp hw, update_eq_self]
  · rw [h.same hu]
    exact iff_of_true rfl fun hp hw => absurd ⟨_, hv.below hp, _, hp, hw⟩ hu

variable (hut : ∀ {pn pte}, s.parent.space pn = some pte → pte.Writable → s.parent.space UTEMP = none)

include hut

-- What the child has if `UTEMP` is not in the way.
omit hv hut in
theorem child_none (hp : s.parent.space pn = none) : s'.child.space pn = none := by
  by_cases hlt : pn < PGNUM UTOP
  · have hc := h.copied pn hlt
    unfold CopiedAt at hc
    rwa [hp] at hc
  · exact h.later pn (Nat.le_of_not_lt hlt)

omit hv h in
theorem not_utemp (hp : s.parent.space pn = some pte) : ¬(pn = UTEMP ∧ Used s.parent UTEMP) := by
  rintro ⟨rfl, _, -, _, hs, hw⟩
  rw [hut hs hw] at hp
  cases hp

theorem child_shared (hp : s.parent.space pn = some pte) (hw : ¬pte.Writable) :
    s'.child.space pn = some ⟨pte.page, pte.perm &&& PTE_SYSCALL⟩ := by
  have hc := h.copied pn (hv.below hp)
  unfold CopiedAt at hc
  simpa only [hp, if_neg (not_utemp hut hp), if_neg hw] using hc

theorem child_copied (hp : s.parent.space pn = some pte) (hw : pte.Writable) :
    ∃ q, s'.child.space pn = some ⟨q, pte.perm &&& PTE_SYSCALL⟩ ∧ s.nextPage ≤ q ∧
      q < s'.nextPage ∧ s'.mem q = s.mem pte.page := by
  have hc := h.copied pn (hv.below hp)
  unfold CopiedAt at hc
  simp only [hp, if_neg (not_utemp hut hp), if_pos hw] at hc
  obtain ⟨q, h₁, h₂, h₃, h₄⟩ := hc
  refine ⟨q, h₁, h₂, h₃, h₄ fun he => ?_⟩
  rw [he, hut hp hw] at hp
  cases hp

end Copy

section Plain

variable (hv : s.Valid) (h : Turn s (PGNUM UTOP) s') (hpl : s.parent.Plain)

include hv h

theorem parent_keeps (he : s'.parent = s.parent) (pn off : Nat) :
    read s'.parent.space s'.mem pn off = read s.parent.space s.mem pn off := by
  rw [he]
  simp only [read]
  cases hp : s.parent.space pn
  case none => rfl
  case some pte => simp only [Option.map_some, h.mem _ (hv.page hp)]

include hpl

theorem parent_same : s'.parent = s.parent := (kept_iff hv h).mpr hpl.utemp

-- The pages of the child: its own copies, and those that the parent cannot write to.
theorem child_page (hc : s'.child.space pn = some pte) : ∃ pte₀, s.parent.space pn = some pte₀ ∧
    pte.perm = pte₀.perm &&& PTE_SYSCALL ∧ s'.mem pte.page = s.mem pte₀.page ∧
    (pte.Writable ↔ pte₀.Writable) ∧
    (pte₀.Writable ∧ s.nextPage ≤ pte.page ∧ pte.page < s'.nextPage ∨
      ¬pte₀.Writable ∧ pte.page = pte₀.page) := by
  cases hp : s.parent.space pn
  case none =>
    rw [child_none h hp] at hc
    cases hc
  case some pte₀ =>
    refine ⟨pte₀, rfl, ?_⟩
    by_cases hw : pte₀.Writable
    · obtain ⟨q, hq, hge, hlt, hm⟩ := child_copied hv h hpl.utemp hp hw
      rw [hq] at hc
      cases hc
      exact ⟨rfl, hm, by rw [Pte.Writable, Pte.Writable, and_SYSCALL_W], .inl ⟨hw, hge, hlt⟩⟩
    · rw [child_shared hv h hpl.utemp hp hw] at hc
      cases hc
      exact ⟨rfl, h.mem pte₀.page (hv.page hp), by rw [Pte.Writable, Pte.Writable, and_SYSCALL_W],
        .inr ⟨hw, rfl⟩⟩

theorem child_reads (pn off : Nat) :
    read s'.child.space s'.mem pn off = read s.parent.space s.mem pn off := by
  simp only [read]
  cases hc : s'.child.space pn
  case some pte =>
    obtain ⟨pte₀, hp, -, hm, -⟩ := child_page hv h hpl hc
    simp only [hp, Option.map_some, hm]
  case none =>
    cases hp : s.parent.space pn
    case none => rfl
    case some pte =>
      by_cases hw : pte.Writable
      · obtain ⟨q, hq, -⟩ := child_copied hv h hpl.utemp hp hw
        rw [hq] at hc
        cases hc
      · rw [child_shared hv h hpl.utemp hp hw] at hc
        cases hc

theorem forked_apart : Apart s'.parent s'.child s'.nextPage := by
  rw [parent_same hv h hpl]
  refine ⟨fun hp => lt_of_lt_of_le (hv.page hp) h.next, fun hc => ?_, fun hp hw hc => ?_,
    fun hc hw hp => ?_⟩
  · obtain ⟨pte₀, hp, -, -, -, ⟨-, -, hlt⟩ | ⟨-, he⟩⟩ := child_page hv h hpl hc
    · exact hlt
    · rw [he]
      exact lt_of_lt_of_le (hv.page hp) h.next
  · obtain ⟨pte₀, hp', -, -, -, ⟨-, hge, -⟩ | ⟨hw', he⟩⟩ := child_page hv h hpl hc
    · exact Nat.ne_of_gt (lt_of_lt_of_le (hv.page hp) hge)
    · rw [he]
      exact (hpl.apart hp hw hp' hw').symm
  · obtain ⟨pte₀, hp', -, -, hiff, ⟨-, hge, -⟩ | ⟨hw', -⟩⟩ := child_page hv h hpl hc
    · exact Nat.ne_of_lt (lt_of_lt_of_le (hv.page hp) hge)
    · exact absurd (hiff.mp hw) hw'

theorem child_writes (hw : s.parent.CanWrite s.mem s.nextPage pn) :
    s'.child.CanWrite s'.mem s'.nextPage pn := by
  obtain ⟨pte, hp, hc⟩ := canWrite_iff.mp hw
  rw [canWrite_iff]
  by_cases hw : pte.Writable
  · obtain ⟨q, hq, -⟩ := child_copied hv h hpl.utemp hp hw
    exact ⟨_, hq, .inl (by rwa [Pte.Writable, and_SYSCALL_W])⟩
  · obtain ⟨hu, hne, hc⟩ := hc.resolve_left hw
    exact absurd (hpl.cow hu hp hw hne) hc

end Plain

section Forks

variable (hv : s.Valid) (h : Turn s (PGNUM UTOP) s') (hf : s.Forks s')

include hv h hf

theorem utemp_of_forks {pn : Nat} {pte : Pte} (hp : s.parent.space pn = some pte) (hw : pte.Writable) :
    s.parent.space UTEMP = none :=
  (kept_iff hv h).mp hf.kept.1 hp hw

-- The parent sees in the child what it writes to a page that it has with and without `PTE_W`.
theorem apart_of_forks {pn pn' : Nat} {pte pte' : Pte} (hp : s.parent.space pn = some pte)
    (hw : pte.Writable) (hp' : s.parent.space pn' = some pte') (hw' : ¬pte'.Writable) :
    pte.page ≠ pte'.page := by
  intro he
  have hut {pn pte} : s.parent.space pn = some pte → pte.Writable → s.parent.space UTEMP = none :=
    utemp_of_forks hv h hf
  have hc := child_shared hv h hut hp' hw'
  have hs : s'.parent.space pn = some pte := by rw [hf.kept.1, hp]
  have hwr : write s'.parent s'.mem s'.nextPage pn 0 (s'.mem pte.page 0 + 1#8) =
      some (s'.parent, store s'.mem pte.page 0 (s'.mem pte.page 0 + 1#8)) := by
    have hw : pte.perm &&& PTE_W ≠ 0#32 := hw
    simp [write, hs, hw]
  have hr := hf.parent .refl hwr pn' 0
  simp only [read, hc, Option.map_some, store, ← he, update_self, Option.some.injEq] at hr
  have hne (a : BitVec 8) : a + 1#8 ≠ a := by bv_omega
  exact hne _ hr

-- The child cannot write to a copy-on-write page.
theorem cow_of_forks (hu : s.parent.upcall) {pn : Nat} {pte : Pte} (hp : s.parent.space pn = some pte)
    (hw : ¬pte.Writable) (hne : pn ≠ PFTEMP) : pte.perm &&& PTE_COW = 0#32 := by
  by_contra hc
  have hut {pn pte} : s.parent.space pn = some pte → pte.Writable → s.parent.space UTEMP = none :=
    utemp_of_forks hv h hf
  have hcw : s.parent.CanWrite s.mem s.nextPage pn := canWrite_iff.mpr ⟨pte, hp, .inr ⟨hu, hne, hc⟩⟩
  obtain ⟨pte', hp', hc'⟩ := canWrite_iff.mp (hf.writes pn hcw)
  rw [child_shared hv h hut hp hw] at hp'
  cases hp'
  rcases hc' with hw' | ⟨hu', -⟩
  · rw [Pte.Writable, and_SYSCALL_W] at hw'
    exact hw hw'
  · rw [h.upcall] at hu'
    cases hu'

end Forks

-- `fork_v0` does what `fork` does for the address spaces that are plain, and for no other.
theorem fork_v0 (hv : s.Valid) (hx : s.forkV0 noEnv fails = some s') : s.Forks s' ↔ s.parent.Plain := by
  have h := forkV0_turn hv hx
  constructor
  case mp =>
    intro hf
    exact ⟨utemp_of_forks hv h hf, apart_of_forks hv h hf, fun hu _ _ => cow_of_forks hv h hf hu⟩
  case mpr =>
    intro hpl
    have ha := forked_apart hv h hpl
    exact {
      kept   := ⟨parent_same hv h hpl, parent_keeps hv h (parent_same hv h hpl)⟩
      copied := fun pn off _ => child_reads hv h hpl pn off
      parent := fun hw => (ha.writes hw).hidden
      child  := fun hw => (ha.writes hw).symm.hidden
      writes := fun _ => child_writes hv h hpl }

section Sample

-- A process with one page, with the given flags, at the address `pn`.
def onePage (pn : Nat) (perm : Word) (upcall : Bool) : Fork where
  parent   := ⟨update (fun _ => none) pn (some ⟨0, perm⟩), upcall⟩
  child    := ⟨fun _ => none, false⟩
  mem      := fun _ _ => 0#8
  nextPage := 1

theorem onePage_space {upcall : Bool} : (onePage pn perm upcall).parent.space q = some pte ↔
    q = pn ∧ pte = ⟨0, perm⟩ := by
  simp only [onePage]
  by_cases he : q = pn
  · subst he
    simp [eq_comm]
  · simp [he]

theorem onePage_valid {upcall : Bool} (hpn : pn < PGNUM UTOP)
    (hp : perm &&& (PTE_U ||| PTE_P) = PTE_U ||| PTE_P) : (onePage pn perm upcall).Valid where
  below hs := by
    obtain ⟨rfl, -⟩ := onePage_space.mp hs
    exact hpn
  user hs := by
    obtain ⟨-, rfl⟩ := onePage_space.mp hs
    exact hp
  page hs := by
    obtain ⟨-, rfl⟩ := onePage_space.mp hs
    exact Nat.zero_lt_one

-- A process that has copied nothing yet.
theorem fork_v0_onePage : ∃ s',
    (onePage 2048 (PTE_W ||| PTE_U ||| PTE_P) true).forkV0 false (fun _ => false) = some s' ∧
      (onePage 2048 (PTE_W ||| PTE_U ||| PTE_P) true).Forks s' := by
  have hv : (onePage 2048 (PTE_W ||| PTE_U ||| PTE_P) true).Valid := onePage_valid (by decide) (by decide)
  obtain ⟨s', hx⟩ := forkV0_returns hv
  refine ⟨s', hx, (fork_v0 hv hx).mpr ⟨fun hp _ => ?_, fun _ _ hp' hw' => ?_, fun _ _ _ hp hw => ?_⟩⟩
  · cases hs : (onePage 2048 (PTE_W ||| PTE_U ||| PTE_P) true).parent.space UTEMP
    case none => rfl
    case some pte =>
      obtain ⟨he, -⟩ := onePage_space.mp hs
      exact absurd he (by decide)
  · obtain ⟨-, rfl⟩ := onePage_space.mp hp'
    exact absurd (by decide) hw'
  · obtain ⟨-, rfl⟩ := onePage_space.mp hp
    exact absurd (by decide) hw

-- A process that has called `fork`: its pages are copy-on-write.
theorem not_fork_v0 : ¬∀ (s s' : Fork) (noEnv : Bool) (fails : Nat → Bool), s.Valid →
    s.forkV0 noEnv fails = some s' → s.Forks s' := by
  intro hall
  have hv : (onePage 2048 (PTE_COW ||| PTE_U ||| PTE_P) true).Valid := onePage_valid (by decide) (by decide)
  obtain ⟨s', hx⟩ := forkV0_returns hv
  have hc := cow_of_forks hv (forkV0_turn hv hx) (hall _ _ _ _ hv hx) rfl (onePage_space.mpr ⟨rfl, rfl⟩)
    (by decide) (by decide)
  exact absurd hc (by decide)

end Sample

end Lib

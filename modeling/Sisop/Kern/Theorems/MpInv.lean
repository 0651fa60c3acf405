import Sisop.Kern.Mpentry
import Sisop.Kern.Theorems.Smp

-- The boot CPU starts the others one at a time.

namespace Kern

open Inc Function Library

variable {m : Machine} {b c i j n : Nat} {s s' : Mp} {k k' k₁ : State} {base base' lapic lapic' : Word}
  {p p' : Word × State} {l : List Ipi}

-- What `n` further calls of `lapic_init`, one after the other, make of `base` and of the page tables.
def lapicMaps (m : Machine) (p : Word × State) (n : Nat) : Option (Word × State) :=
  (List.range n).foldlM (fun p _ =>
    if m.lapicaddr = 0#32 then some p else mmioMapRegion m p.snd p.fst m.lapicaddr 4096#32) p

theorem lapicMaps_succ : lapicMaps m p (n + 1) = (lapicMaps m p n).bind fun p =>
    if m.lapicaddr = 0#32 then some p else mmioMapRegion m p.snd p.fst m.lapicaddr 4096#32 := by
  rw [lapicMaps, List.range_succ, List.foldlM_append, ← lapicMaps]
  simp

theorem lapicMaps_of_zero (h : m.lapicaddr = 0#32) : lapicMaps m p n = some p := by
  induction n
  case zero      => rfl
  case succ n hi => rw [lapicMaps_succ, hi, Option.bind_some, if_pos h]

theorem lapicMaps_one (h : lapicMaps m p 1 = some p') : lapicMaps m p (n + 1) = lapicMaps m p' n := by
  induction n
  case zero      => exact h
  case succ n hi => rw [lapicMaps_succ, hi, ← lapicMaps_succ]

theorem lapicMaps_mono (h : lapicMaps m p (n + i) = some p') : ∃ p', lapicMaps m p n = some p' := by
  induction i generalizing p'
  case zero => exact ⟨_, h⟩
  case succ i hi =>
    rw [← Nat.add_assoc, lapicMaps_succ, Option.bind_eq_some_iff] at h
    obtain ⟨_, h, -⟩ := h
    exact hi h

-- How many CPUs below `c` have to be started by CPU `b`.
def nth (b c : Nat) : Nat := c - if b < c then 1 else 0

theorem nth_self : nth b (b + 1) = nth b b := by simp [nth]

theorem nth_succ (h : c ≠ b) : nth b (c + 1) = nth b c + 1 := by
  simp only [nth]
  split <;> split <;> omega

theorem nth_ncpu (h : b < n) : nth b n + 1 = n := by
  simp only [nth, h, if_true]
  omega

-- The CPU runs on its kernel stack.
def ApPc.onStack : ApPc → Prop
  | .off | .waitSipi | .mpentry => False
  | _                           => True

-- The CPU runs, and it may not have the kernel lock.
def ApPc.starting : ApPc → Prop
  | .off | .waitSipi | .lockKernel => False
  | _                              => True

namespace Mp

-- CPU `i` is the same in both states.
structure SameCpu (s s' : Mp) (i : Nat) : Prop where
  pc   : s'.ap i = s.ap i
  cpu  : s'.cpus i = s.cpus i
  ipis : s'.ipis i = s.ipis i
  esp  : s'.esp i = s.esp i

-- A CPU that has been started.
structure Up (m : Machine) (s : Mp) (i : Nat) : Prop where
  pc     : s.ap i = .lockKernel
  status : (s.cpus i).cpuStatus = .started
  ipis   : ∀ {x}, x ∈ s.ipis i → x = .startup
  esp    : s.esp i = m.kstacktop i

-- A CPU that has not been started yet, or the boot CPU.
structure Down (b : Nat) (s : Mp) (i : Nat) : Prop where
  pc     : s.ap i = .off
  status : i ≠ b → (s.cpus i).cpuStatus ≠ .started
  ipis   : s.ipis i = []

theorem SameCpu.of_goto {pc : ApPc} (hne : i ≠ c) (hc : s'.cpus i = s.cpus i) (hi : s'.ipis i = s.ipis i)
    (he : s'.esp i = s.esp i) (ha : s'.ap = s.ap) : SameCpu s (s'.goto c pc) i where
  pc   := (update_of_ne hne _ _).trans (congrFun ha i)
  cpu  := hc
  ipis := hi
  esp  := he

theorem SameCpu.up (h : SameCpu s s' i) (u : s.Up m i) : s'.Up m i where
  pc     := h.pc.trans u.pc
  status := by rw [h.cpu]; exact u.status
  ipis   := by rw [h.ipis]; exact u.ipis
  esp    := h.esp.trans u.esp

theorem SameCpu.down (h : SameCpu s s' i) (d : s.Down b i) : s'.Down b i where
  pc     := h.pc.trans d.pc
  status := by rw [h.cpu]; exact d.status
  ipis   := h.ipis.trans d.ipis

-- Between two calls of `lapic_init`, `n` of which CPU `b` has waited for.
structure Between (m : Machine) (p : Word × State) (n : Nat) (s : Mp) : Prop where
  maps  : lapicMaps m p n = some (s.base, s.kern)
  lapic : m.lapicaddr ≠ 0#32 → s.lapic + 4096#32 = s.base

-- In `mmio_map_region`, behind the call of `boot_map_region`.
structure Mapped (m : Machine) (p : Word × State) (n : Nat) (s : Mp) : Prop where
  maps  : lapicMaps m p (n + 1) = some (s.base + 4096#32, s.kern)
  addr  : m.lapicaddr ≠ 0#32

-- How far `lapic_init` has got on the CPU that is being started.
def Stage (m : Machine) (p : Word × State) (n : Nat) (s : Mp) : ApPc → Prop
  | .off | .waitSipi | .mpentry | .mpMain => Between m p n s
  | .mmioMap     => Between m p n s ∧ m.lapicaddr ≠ 0#32 ∧ ¬MMIOLIM ≤ s.base + 4096#32
  | .mmioBase    => Mapped m p n s
  | .mmioNext v  => Mapped m p n s ∧ v = s.base
  | .lapicInit v => lapicMaps m p (n + 1) = some (s.base, s.kern) ∧ v + 4096#32 = s.base
  | .percpu | .lockKernel => Between m p (n + 1) s

theorem Between.congr (v : Between m p n s) (hb : s'.base = s.base) (hk : s'.kern = s.kern)
    (hl : s'.lapic = s.lapic) : Between m p n s' where
  maps  := by rw [hb, hk]; exact v.maps
  lapic := by rw [hb, hl]; exact v.lapic

theorem Stage.congr {pc : ApPc} (v : s.Stage m p n pc) (hb : s'.base = s.base) (hk : s'.kern = s.kern)
    (hl : s'.lapic = s.lapic) : s'.Stage m p n pc := by
  cases pc
  case mmioMap   => exact ⟨v.left.congr hb hk hl, v.right.left, hb ▸ v.right.right⟩
  case mmioBase  => exact ⟨by rw [hb, hk]; exact v.maps, v.addr⟩
  case mmioNext  => exact ⟨⟨by rw [hb, hk]; exact v.left.maps, v.left.addr⟩, hb ▸ v.right⟩
  case lapicInit => exact ⟨by rw [hb, hk]; exact v.left, hb ▸ v.right⟩
  all_goals exact Between.congr v hb hk hl

-- The interrupts that a CPU has not taken yet.
def Sent (l : List Ipi) : ApPc → Prop
  | .off      => l = [.init, .startup, .startup]
  | .waitSipi => l = [.startup, .startup]
  | _         => ∀ {x}, x ∈ l → x = .startup

theorem Sent.of_init {pc : ApPc} (h : Sent (.init :: l) pc) : pc = .off := by
  cases pc
  case off      => rfl
  case waitSipi => cases h
  all_goals cases h List.mem_cons_self

-- The CPU that `boot_aps` waits for, or sends interrupts to.
structure Starting (m : Machine) (b : Nat) (p : Word × State) (c : Nat) (l : List Ipi) (s : Mp) : Prop where
  lt     : c < m.ncpu
  ne     : c ≠ b
  kstack : s.mpentryKstack = m.kstacktop c
  esp    : (s.ap c).onStack → s.esp c = m.kstacktop c
  sent   : Sent (s.ipis c ++ l) (s.ap c)
  stage  : s.Stage m p (nth b c) (s.ap c)
  status : (s.cpus c).cpuStatus = .started ↔ s.ap c = .lockKernel

end Mp

-- The CPUs below this number have been started, and those from the other number on have not.
def BspPc.passed (n : Nat) : BspPc → Nat
  | .bootAps c   => c
  | .startap c _ => c
  | .done        => n

def BspPc.reached (n : Nat) : BspPc → Nat
  | .bootAps c   => c
  | .startap c _ => c + 1
  | .done        => n

theorem BspPc.passed_le {pc : BspPc} : pc.passed n ≤ pc.reached n := by
  cases pc
  case startap => exact Nat.le_succ _
  all_goals exact Nat.le_refl _

def Mp.Cur (m : Machine) (b : Nat) (p : Word × State) (s : Mp) : BspPc → Prop
  | .bootAps c   => c ≤ m.ncpu ∧ s.Between m p (nth b c)
  | .startap c l => s.Starting m b p c l
  | .done        => s.Between m p (nth b m.ncpu)

structure MpInv (m : Machine) (b : Nat) (p : Word × State) (s : Mp) : Prop where
  up   : ∀ {i}, i < s.bsp.passed m.ncpu → i ≠ b → s.Up m i
  down : ∀ {i}, i = b ∨ s.bsp.reached m.ncpu ≤ i → s.Down b i
  cur  : s.Cur m b p s.bsp

namespace Mp

-- A CPU leaves the others alone, and the boot CPU.
theorem apNext_others (h : s.apNext m c = some s') : s'.bsp = s.bsp ∧ ∀ {i}, i ≠ c → SameCpu s s' i := by
  cases hpc : s.ap c <;> simp only [apNext, hpc] at h <;> generalize ROUNDUP 4096#32 4096#32 = z at h
  case off | waitSipi | lockKernel => cases h
  case mpentry =>
    cases h
    exact ⟨rfl, fun hi => .of_goto hi rfl rfl (update_of_ne hi _ _) rfl⟩
  case mpMain =>
    split at h
    case isTrue =>
      cases h
      exact ⟨rfl, fun hi => .of_goto hi rfl rfl rfl rfl⟩
    case isFalse =>
      split at h <;> cases h
      exact ⟨rfl, fun hi => .of_goto hi rfl rfl rfl rfl⟩
  case mmioMap =>
    obtain ⟨_, _, h⟩ := Option.bind_eq_some_iff.mp h
    cases h
    exact ⟨rfl, fun hi => .of_goto hi rfl rfl rfl rfl⟩
  case mmioBase | mmioNext | lapicInit =>
    cases h
    exact ⟨rfl, fun hi => .of_goto hi rfl rfl rfl rfl⟩
  case percpu =>
    cases h
    exact ⟨rfl, fun hi => .of_goto hi (update_of_ne hi _ _) rfl rfl rfl⟩

theorem deliver_others (h : s.deliver c = some s') : s'.bsp = s.bsp ∧ ∀ {i}, i ≠ c → SameCpu s s' i := by
  simp only [deliver] at h
  split at h
  case h_1 => cases h
  case h_2 =>
    cases h
    exact ⟨rfl, fun hi => .of_goto hi rfl (update_of_ne hi _ _) rfl rfl⟩
  case h_3 =>
    split at h <;> cases h
    case isTrue  => exact ⟨rfl, fun hi => .of_goto hi rfl (update_of_ne hi _ _) rfl rfl⟩
    case isFalse => exact ⟨rfl, fun hi => ⟨rfl, rfl, update_of_ne hi _ _, rfl⟩⟩

theorem Between.succ_of_zero (v : Between m p n s) (h : m.lapicaddr = 0#32) : Between m p (n + 1) s where
  maps  := by rw [lapicMaps_succ, v.maps, Option.bind_some, if_pos h]
  lapic := v.lapic

-- The stages of `mmio_map_region` are those of one call.
theorem Between.mapped (v : Between m p n s) (ha : m.lapicaddr ≠ 0#32) (hl : ¬MMIOLIM ≤ s.base + 4096#32)
    (h : bootMapRegion m s.kern m.kernPgdir s.base 4096#32 m.lapicaddr (PTE_PCD ||| PTE_PWT ||| PTE_W) =
      some k') : lapicMaps m p (n + 1) = some (s.base + 4096#32, k') := by
  have hr : ROUNDUP 4096#32 4096#32 = 4096#32 := by decide
  rw [lapicMaps_succ, v.maps, Option.bind_some, if_neg ha, mmioMapRegion]
  simp only [hr, hl, if_false, h, Option.bind_eq_bind, Option.bind_some]

theorem Starting.frame (v : s.Starting m b p c l) (h : SameCpu s s' c)
    (hs : s'.mpentryKstack = s.mpentryKstack) (hb : s'.base = s.base) (hk : s'.kern = s.kern)
    (hl : s'.lapic = s.lapic) : s'.Starting m b p c l where
  lt     := v.lt
  ne     := v.ne
  kstack := hs.trans v.kstack
  esp    := by rw [h.pc, h.esp]; exact v.esp
  sent   := by rw [h.pc, h.ipis]; exact v.sent
  stage  := by rw [h.pc]; exact v.stage.congr hb hk hl
  status := by rw [h.pc, h.cpu]; exact v.status

theorem Starting.apNext (v : s.Starting m b p c l) (h : s.apNext m c = some s') :
    s'.Starting m b p c l := by
  have hr : ROUNDUP 4096#32 4096#32 = 4096#32 := by decide
  obtain ⟨hlt, hne, hk, he, hs, hg, hst⟩ := v
  cases hpc : s.ap c <;> simp only [Mp.apNext, hpc, hr] at h <;> rw [hpc] at he hs hg hst
  case off | waitSipi | lockKernel => cases h
  case mpentry =>
    cases h
    obtain ⟨hm, hl⟩ := hg
    refine ⟨hlt, hne, hk, fun _ => ?_, ?_, ?_, ?_⟩ <;> simp only [goto, update_self]
    · exact hk
    · exact hs
    · exact ⟨hm, hl⟩
    · simpa using hst
  case mpMain =>
    obtain ⟨hm, hl⟩ := hg
    split at h
    case isTrue ha =>
      cases h
      refine ⟨hlt, hne, hk, fun _ => he trivial, ?_, ?_, ?_⟩ <;> simp only [goto, update_self]
      · exact hs
      · exact Between.succ_of_zero ⟨hm, hl⟩ ha
      · simpa using hst
    case isFalse ha =>
      split at h <;> cases h
      rename_i hb
      refine ⟨hlt, hne, hk, fun _ => he trivial, ?_, ?_, ?_⟩ <;> simp only [goto, update_self]
      · exact hs
      · exact ⟨⟨hm, hl⟩, ha, hb⟩
      · simpa using hst
  case mmioMap =>
    obtain ⟨hb, ha, hl⟩ := hg
    obtain ⟨k', hk', h⟩ := Option.bind_eq_some_iff.mp h
    cases h
    refine ⟨hlt, hne, hk, fun _ => he trivial, ?_, ?_, ?_⟩ <;> simp only [goto, update_self]
    · exact hs
    · exact ⟨hb.mapped ha hl hk', ha⟩
    · simpa using hst
  case mmioBase =>
    obtain ⟨hm, ha⟩ := hg
    cases h
    refine ⟨hlt, hne, hk, fun _ => he trivial, ?_, ?_, ?_⟩ <;> simp only [goto, update_self]
    · exact hs
    · exact ⟨⟨hm, ha⟩, rfl⟩
    · simpa using hst
  case mmioNext v =>
    obtain ⟨⟨hm, -⟩, rfl⟩ := hg
    generalize hb : s.base + 4096#32 = base' at h hm
    cases h
    refine ⟨hlt, hne, hk, fun _ => he trivial, ?_, ?_, ?_⟩ <;> simp only [goto, update_self]
    · exact hs
    · exact ⟨hm, hb⟩
    · simpa using hst
  case lapicInit v =>
    obtain ⟨hm, hl⟩ := hg
    cases h
    refine ⟨hlt, hne, hk, fun _ => he trivial, ?_, ?_, ?_⟩ <;> simp only [goto, update_self]
    · exact hs
    · exact ⟨hm, fun _ => hl⟩
    · simpa using hst
  case percpu =>
    obtain ⟨hm, hl⟩ := hg
    cases h
    refine ⟨hlt, hne, hk, fun _ => he trivial, ?_, ?_, ?_⟩ <;> simp only [goto, update_self]
    · exact hs
    · exact ⟨hm, hl⟩

theorem Starting.deliver (v : s.Starting m b p c l) (h : s.deliver c = some s') :
    s'.Starting m b p c l := by
  obtain ⟨hlt, hne, hk, he, hs, hg, hst⟩ := v
  cases hi : s.ipis c <;> simp only [Mp.deliver, hi] at h <;> rw [hi] at hs
  case nil => cases h
  case cons x l' =>
    cases x <;> dsimp only at h
    case init =>
      cases h
      -- The CPU has taken no interrupt yet.
      have hpc : s.ap c = .off := hs.of_init
      rw [hpc] at hs hg hst
      obtain ⟨hm, hl⟩ := hg
      refine ⟨hlt, hne, hk, ?_, ?_, ?_, ?_⟩ <;> simp only [goto, update_self]
      · exact False.elim
      · exact (List.cons.inj hs).right
      · exact ⟨hm, hl⟩
      · simpa using hst
    case startup =>
      by_cases hpc : s.ap c = .waitSipi
      case pos =>
        rw [if_pos hpc] at h
        cases h
        rw [hpc] at hs hg hst
        obtain ⟨hm, hl⟩ := hg
        refine ⟨hlt, hne, hk, ?_, ?_, ?_, ?_⟩ <;> simp only [goto, update_self]
        · exact False.elim
        · intro x hx
          have hs : l' ++ l = [.startup] := (List.cons.inj hs).right
          rw [hs] at hx
          exact List.mem_singleton.mp hx
        · exact ⟨hm, hl⟩
        · simpa using hst
      case neg =>
        rw [if_neg hpc] at h
        cases h
        refine ⟨hlt, hne, hk, he, ?_, ?_, hst⟩ <;> dsimp only
        · rw [update_self]
          cases hp : s.ap c <;> rw [hp] at hs
          case off      => cases hs
          case waitSipi => exact absurd hp hpc
          all_goals exact fun hx => hs (List.mem_cons_of_mem _ hx)
        · exact hg.congr rfl rfl rfl

end Mp

namespace MpInv

theorem start (hl : m.lapicaddr ≠ 0#32 → lapic + 4096#32 = base) :
    MpInv m b (base, k) (.start k base lapic b) where
  up hi     := absurd hi (Nat.not_lt_zero _)
  down _    := ⟨rfl, fun hb => by simp [Mp.start, hb], rfl⟩
  cur       := ⟨Nat.zero_le _, by simp [nth, lapicMaps, Mp.start], hl⟩

-- Each CPU is up, or down, or `boot_aps` has to do with it.
theorem cases (v : MpInv m b p s) (i : Nat) :
    (i < s.bsp.passed m.ncpu ∧ i ≠ b) ∨ s.Down b i ∨ ∃ l, s.bsp = .startap i l := by
  by_cases hb : i = b
  case pos => exact .inr (.inl (v.down (.inl hb)))
  case neg =>
    by_cases hlt : i < s.bsp.passed m.ncpu
    case pos => exact .inl ⟨hlt, hb⟩
    case neg =>
      by_cases hr : s.bsp.reached m.ncpu ≤ i
      case pos => exact .inr (.inl (v.down (.inr hr)))
      case neg =>
        refine .inr (.inr ?_)
        cases hpc : s.bsp <;> rw [hpc] at hlt hr
        case bootAps   => exact absurd (Nat.le_of_not_lt hlt) hr
        case done      => exact absurd (Nat.le_of_not_lt hlt) hr
        case startap c l =>
          have hic : i = c := Nat.le_antisymm (Nat.le_of_lt_succ (Nat.lt_of_not_le hr)) (Nat.le_of_not_lt hlt)
          exact ⟨l, by rw [hic]⟩

theorem starting (v : MpInv m b p s) (h : s.bsp = .startap c l) : s.Starting m b p c l := by
  have hc := v.cur
  rw [h] at hc
  exact hc

-- The CPU of `boot_aps` takes a step.
theorem of_starting (v : MpInv m b p s) (h : s.bsp = .startap c l) (hb : s'.bsp = s.bsp)
    (ho : ∀ {i}, i ≠ c → Mp.SameCpu s s' i) (hs : s'.Starting m b p c l) : MpInv m b p s' where
  up {i} hi hne := by
    rw [hb] at hi
    refine (ho ?_).up (v.up hi hne)
    rw [h] at hi
    exact Nat.ne_of_lt hi
  down {i} hi := by
    rw [hb] at hi
    refine (ho ?_).down (v.down hi)
    intro hic
    rw [h, hic] at hi
    cases hi
    case inl hb => exact hs.ne hb
    case inr hl => exact Nat.not_succ_le_self c hl
  cur := by
    rw [hb, h]
    exact hs

theorem apNext (v : MpInv m b p s) (h : s.apNext m c = some s') : MpInv m b p s' := by
  obtain ⟨hb, ho⟩ := Mp.apNext_others h
  cases v.cases c
  case inl hu =>
    simp only [Mp.apNext, (v.up hu.left hu.right).pc] at h
    cases h
  case inr hr =>
    cases hr
    case inl hd =>
      simp only [Mp.apNext, hd.pc] at h
      cases h
    case inr hs =>
      obtain ⟨l, hl⟩ := hs
      exact v.of_starting hl hb ho ((v.starting hl).apNext h)

theorem deliver (v : MpInv m b p s) (h : s.deliver c = some s') : MpInv m b p s' := by
  obtain ⟨hb, ho⟩ := Mp.deliver_others h
  cases v.cases c
  case inl hu =>
    -- The second `STARTUP` gets to a CPU that is up.
    have u := v.up hu.left hu.right
    cases hi : s.ipis c <;> simp only [Mp.deliver, hi] at h
    case nil => cases h
    case cons x l' =>
      have hx : x = .startup := u.ipis (by rw [hi]; exact List.mem_cons_self)
      rw [hx, u.pc] at h
      have hs : { s with ipis := update s.ipis c l' } = s' := Option.some.inj h
      refine ⟨fun {i} hp hne => ?_, fun {i} hd => (ho ?_).down (v.down (hb ▸ hd)), ?_⟩
      · by_cases hic : i = c
        case pos =>
          rw [hic, ← hs]
          refine ⟨u.pc, u.status, fun hx => u.ipis ?_, u.esp⟩
          rw [hi]
          exact List.mem_cons_of_mem _ ((update_self c l' s.ipis) ▸ hx)
        case neg => exact (ho hic).up (v.up (hb ▸ hp) hne)
      · intro hic
        rw [hic, hb] at hd
        cases hd
        case inl hcb => exact hu.right hcb
        case inr hr => exact absurd (Nat.lt_of_lt_of_le hu.left s.bsp.passed_le) (Nat.not_lt_of_le hr)
      · have hc := v.cur
        have hbase : s'.base = s.base := by rw [← hs]
        have hkern : s'.kern = s.kern := by rw [← hs]
        have hlapic : s'.lapic = s.lapic := by rw [← hs]
        have hkstack : s'.mpentryKstack = s.mpentryKstack := by rw [← hs]
        rw [hb]
        cases hpc : s.bsp <;> rw [hpc] at hc hu
        case bootAps => exact ⟨hc.left, hc.right.congr hbase hkern hlapic⟩
        case startap => exact hc.frame (ho (Nat.ne_of_gt hu.left)) hkstack hbase hkern hlapic
        case done    => exact hc.congr hbase hkern hlapic
  case inr hr =>
    cases hr
    case inl hd =>
      simp only [Mp.deliver, hd.ipis] at h
      cases h
    case inr hs =>
      obtain ⟨l, hl⟩ := hs
      exact v.of_starting hl hb ho ((v.starting hl).deliver h)

-- In its loop, `boot_aps` only sets `mpentry_kstack`.
theorem bootAps (v : MpInv m b p s) (h : s.bootAps m b = some s') : MpInv m b p s' := by
  have ho {pc : BspPc} {z : Word} {i : Nat} : Mp.SameCpu s { s with mpentryKstack := z, bsp := pc } i :=
    ⟨rfl, rfl, rfl, rfl⟩
  have hu := @v.up
  have hd := @v.down
  have hc := v.cur
  generalize hz : m.kstacktop = z at *
  cases hpc : s.bsp <;> simp only [Mp.bootAps, hpc, hz] at h <;> rw [hpc] at hu hd hc
  case bootAps c =>
    obtain ⟨hle, hm, hl⟩ := hc
    split at h
    case isTrue hn =>
      cases h
      have heq : c = m.ncpu := Nat.le_antisymm hle hn
      rw [heq] at hm hu hd
      exact ⟨fun hi hne => ho.up (hu hi hne), fun hi => ho.down (hd hi), hm, hl⟩
    case isFalse hn =>
      have hlt : c < m.ncpu := Nat.lt_of_not_le hn
      split at h
      case isTrue hcb =>
        cases h
        refine ⟨fun {i} hi hne => ho.up (hu ?_ hne), fun hi => ho.down (hd (hi.imp_right Nat.le_of_succ_le)),
          hlt, ?_, hl⟩
        · exact Nat.lt_of_le_of_ne (Nat.le_of_lt_succ hi) (hcb ▸ hne)
        · rw [hcb] at hm
          rw [hcb, nth_self]
          exact hm
      case isFalse hcb =>
        cases h
        have d := hd (.inr (Nat.le_refl c))
        refine ⟨fun hi hne => ho.up (hu hi hne), fun hi => ho.down (hd (hi.imp_right Nat.le_of_succ_le)),
          hlt, hcb, congrFun hz.symm c, ?_, ?_, ?_, ?_⟩ <;> dsimp only <;> rw [d.pc]
        · exact False.elim
        · rw [d.ipis]
          rfl
        · exact ⟨hm, hl⟩
        · simpa using d.status hcb
  case startap c l =>
    cases l <;> dsimp only at h
    case nil =>
      split at h <;> cases h
      rename_i hst
      have hpc := hc.status.mp hst
      obtain ⟨hlt, hne, -, he, hs, hg, -⟩ := hc
      rw [hpc] at he hs hg
      obtain ⟨hm, hl⟩ := hg
      refine ⟨fun {i} hi hib => ho.up ?_, fun hi => ho.down (hd hi), hlt, ?_, hl⟩
      · by_cases hic : i = c
        case pos =>
          rw [hic]
          refine ⟨hpc, hst, fun hx => hs ?_, he trivial⟩
          rw [List.append_nil]
          exact hx
        case neg => exact hu (Nat.lt_of_le_of_ne (Nat.le_of_lt_succ hi) hic) hib
      · rw [nth_succ hne]
        exact hm
    case cons x l =>
      cases h
      have ho {i : Nat} (hi : i ≠ c) : Mp.SameCpu s
          { s with ipis := update s.ipis c (s.ipis c ++ [x]), bsp := .startap c l } i :=
        ⟨rfl, rfl, update_of_ne hi _ _, rfl⟩
      obtain ⟨hlt, hne, hk, he, hs, hg, hst⟩ := hc
      refine ⟨fun hi hib => (ho (Nat.ne_of_lt hi)).up (hu hi hib), fun {i} hi => (ho ?_).down (hd hi),
        hlt, hne, hk, he, ?_, hg.congr rfl rfl rfl, hst⟩
      · intro hic
        rw [hic] at hi
        cases hi
        case inl hb => exact hne hb
        case inr hr => exact Nat.not_succ_le_self c hr
      · dsimp only
        rw [update_self, List.append_assoc]
        exact hs
  case done => cases h

theorem step {ev : MpEvent} (v : MpInv m b p s) (h : MpStep m b s ev s') : MpInv m b p s' := by
  cases ev
  case bsp     => exact v.bootAps h
  case ap      => exact v.apNext h
  case deliver => exact v.deliver h

theorem run (hl : m.lapicaddr ≠ 0#32 → lapic + 4096#32 = base)
    (r : Run (MpStep m b) (fun _ _ => True) (.start k base lapic b) s) : MpInv m b (base, k) s :=
  r.invariant (start hl) fun v _ h => v.step h

-- `boot_aps` has to do with one CPU at a time.
theorem cur_of_starting (v : MpInv m b p s) (h : (s.ap i).starting) : ∃ l, s.bsp = .startap i l := by
  cases v.cases i
  case inl hu =>
    rw [(v.up hu.left hu.right).pc] at h
    exact h.elim
  case inr hr =>
    cases hr
    case inl hd =>
      rw [hd.pc] at h
      exact h.elim
    case inr hs => exact hs

end MpInv

end Kern

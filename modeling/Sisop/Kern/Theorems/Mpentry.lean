import Mathlib.Algebra.BigOperators.Group.Finset.Basic
import Mathlib.Order.OrderIsoNat
import Sisop.Kern.Sample
import Sisop.Kern.Theorems.MpInv

-- What the handshake with the other CPUs is for, how `Smp` sees it, and that it ends.

namespace Kern

open Inc Function Library

variable {m : Machine} {b c i n : Nat} {s s' : Mp} {k k' k₁ : State}
  {base base' lapic lapic' : Word} {p : Word × State} {l : List Ipi}

-- What the handshake between `boot_aps` and `mp_main` is for. The CPUs that run without the kernel lock
-- do so one at a time and each on its own stack, and when `boot_aps` returns they have all called
-- `lapic_init` as if one after the other, and wait for the lock.
structure Handshake (m : Machine) (b : Nat) (k : State) (base : Word) (s : Mp) : Prop where
  alone  : ∀ {i j}, (s.ap i).starting → (s.ap j).starting → i = j
  stack  : ∀ {i}, (s.ap i).onStack → s.esp i = m.kstacktop i
  ready  : s.bsp = .done → ∀ {i}, i < m.ncpu → i ≠ b →
    s.ap i = .lockKernel ∧ (s.cpus i).cpuStatus = .started
  lapics : s.bsp = .done → lapicInits m k base = some s.kern
  lapic  : s.bsp = .done → m.lapicaddr ≠ 0#32 → s.lapic + 4096#32 = s.base

theorem mmioMapRegion_fst {pa size : Word} (h : mmioMapRegion m k base pa size = some p) :
    p.fst = base + ROUNDUP size 4096#32 := by
  simp only [mmioMapRegion] at h
  split at h
  case isTrue  => cases h
  case isFalse =>
    obtain ⟨_, _, h⟩ := Option.bind_eq_some_iff.mp h
    exact (congrArg Prod.fst (Option.some.inj h)).symm

theorem lapicInit_maps (h : Mp.lapicInit m k base lapic = some (k', base', lapic')) :
    lapicMaps m (base, k) 1 = some (base', k') ∧ (m.lapicaddr ≠ 0#32 → lapic' + 4096#32 = base') := by
  rw [lapicMaps_succ, lapicMaps, List.range_zero, List.foldlM_nil]
  simp only [Mp.lapicInit] at h
  split at h
  case isTrue ha =>
    cases h
    exact ⟨if_pos ha, fun hn => absurd ha hn⟩
  case isFalse ha =>
    obtain ⟨⟨base₁, k₁⟩, hm, h⟩ := Option.bind_eq_some_iff.mp h
    cases h
    exact ⟨(if_neg ha).trans hm, fun _ => (mmioMapRegion_fst hm).symm⟩

theorem lapicInits_of_maps (h : lapicMaps m (base, k) m.ncpu = some p) : lapicInits m k base = some p.snd := by
  rw [lapicInits]
  split
  case isTrue ha =>
    rw [lapicMaps_of_zero ha] at h
    cases h
    rfl
  case isFalse ha =>
    simp only [lapicMaps, if_neg ha] at h
    rw [h]
    rfl

-- When `boot_aps` has returned, each CPU has mapped its local APIC.
theorem MpInv.lapics (v : MpInv m b (base', k') s) (hb : b < m.ncpu)
    (h : lapicMaps m (base, k) 1 = some (base', k')) (hd : s.bsp = .done) :
    lapicInits m k base = some s.kern := by
  have hc := v.cur
  rw [hd] at hc
  apply lapicInits_of_maps (p := (s.base, s.kern))
  rw [← nth_ncpu hb, lapicMaps_one h]
  exact hc.maps

namespace Sample

-- The kernel's data before `lapic_init`.
def paged : State := envInit (stage (fun _ => .zero) none 68 (update tables 0 fun _ => 0#32))

-- CPU 0 starts CPU 1, to which the second `STARTUP` gets late.
def startCpus : List MpEvent :=
  [.bsp, .bsp, .bsp, .bsp, .deliver 1, .deliver 1, .ap 1, .bsp, .ap 1, .ap 1, .ap 1, .ap 1, .ap 1, .ap 1,
    .deliver 1, .bsp, .bsp]

theorem started : ∃ k base lapic s,
    Mp.lapicInit machine paged (MMIOBASE + 12288#32) 0#32 = some (k, base, lapic) ∧
    Run (MpStep machine 0) (fun _ _ => True) (.start k base lapic 0) s ∧ s.bsp = .done ∧
    s.esp 1 = 0xF0210000#32 ∧ s.ap 1 = .lockKernel := by
  have h : (Mp.lapicInit machine paged (MMIOBASE + 12288#32) 0#32).any fun (k, base, lapic) =>
      (Run.follow (fun s ev => Mp.next machine s 0 ev) (fun _ _ => True) (.start k base lapic 0) startCpus).any
        fun s => s.bsp = .done ∧ s.esp 1 = 0xF0210000#32 ∧ s.ap 1 = .lockKernel := by
    decide +kernel
  obtain ⟨⟨k, base, lapic⟩, hl, h⟩ := (Option.any_eq_true _ _).mp h
  obtain ⟨s, hs, h⟩ := (Option.any_eq_true _ _).mp h
  exact ⟨k, base, lapic, s, hl, Run.of_follow id hs, of_decide_eq_true h⟩

theorem lapics : ∃ k, lapicInits machine paged (MMIOBASE + 12288#32) = some k := by
  have h : (lapicInits machine paged (MMIOBASE + 12288#32)).isSome := by decide +kernel
  exact Option.isSome_iff_exists.mp h

end Sample

theorem boot_aps_handshake (hb : b < m.ncpu) (h : Mp.lapicInit m k base lapic = some (k', base', lapic'))
    (r : Run (MpStep m b) (fun _ _ => True) (.start k' base' lapic' b) s) : Handshake m b k base s := by
  obtain ⟨h₁, hl⟩ := lapicInit_maps h
  have v := MpInv.run hl r
  refine ⟨fun hi hj => ?_, fun {i} hi => ?_, fun hd {i} hi hne => ?_, fun hd => ?_, fun hd ha => ?_⟩
  · obtain ⟨_, hi⟩ := v.cur_of_starting hi
    obtain ⟨_, hj⟩ := v.cur_of_starting hj
    rw [hi] at hj
    cases hj
    rfl
  · cases v.cases i
    case inl hu => exact (v.up hu.left hu.right).esp
    case inr hr =>
      cases hr
      case inl hd =>
        rw [hd.pc] at hi
        exact hi.elim
      case inr hs =>
        obtain ⟨_, hs⟩ := hs
        exact (v.starting hs).esp hi
  · have u := v.up (i := i) (by rw [hd]; exact hi) hne
    exact ⟨u.pc, u.status⟩
  · exact v.lapics hb h₁ hd
  · have hc := v.cur
    rw [hd] at hc
    exact hc.lapic ha

theorem boot_aps_handshake_two : ∃ s, s.bsp = .done ∧ s.esp 1 = 0xF0210000#32 ∧
    Handshake Sample.machine 0 Sample.paged (MMIOBASE + 12288#32) s := by
  obtain ⟨_, _, _, s, h, r, hd, he, -⟩ := Sample.started
  exact ⟨s, hd, he, boot_aps_handshake (by decide) h r⟩

-- Where `Smp` sees the CPUs.
def ApPc.smp : ApPc → Pc
  | .off | .waitSipi => .off
  | .lockKernel      => .mpMainLock
  | _                => .mpMain

namespace Mp

def bspPc (s : Mp) : Pc :=
  match s.bsp with
  | .bootAps c   => .bootAps c
  | .startap c _ => if (s.ap c).smp = .off then .bootAps c else .bootApsWait c
  | .done        => .envCreates

-- The state of `Smp`, in which the kernel's data are those after `boot_aps`.
def smp (k : State) (b : Nat) (s : Mp) : Smp where
  kern := k
  lock := ⟨true, some b⟩
  cpus := s.cpus
  pc i := if i = b then s.bspPc else (s.ap i).smp

theorem smp_pc_self : (s.smp k b).pc b = s.bspPc := if_pos rfl

theorem smp_pc_of_ne (h : i ≠ b) : (s.smp k b).pc i = (s.ap i).smp := if_neg h

-- A step that `Smp` does not see.
theorem smp_eq (hc : s'.cpus = s.cpus) (hb : s'.bspPc = s.bspPc) (ha : ∀ {i}, (s'.ap i).smp = (s.ap i).smp) :
    s'.smp k b = s.smp k b := by
  rw [smp, smp, hc, hb]
  simp only [ha]

-- A step of the boot CPU alone.
theorem smp_goto {pc : Pc} (hc : s'.cpus = s.cpus) (hb : s'.bspPc = pc)
    (ha : ∀ {i}, i ≠ b → (s'.ap i).smp = (s.ap i).smp) : s'.smp k b = (s.smp k b).goto b pc := by
  have hp : (s'.smp k b).pc = update (s.smp k b).pc b pc := by
    funext i
    by_cases hi : i = b
    case pos => rw [hi, update_self, smp_pc_self, hb]
    case neg => rw [update_of_ne hi, smp_pc_of_ne hi, smp_pc_of_ne hi, ha hi]
  rw [Smp.goto, ← hp, smp, smp, hc]

-- A step of the CPU of `boot_aps`.
theorem smp_update {pc : ApPc} (ha : s'.ap = update s.ap c pc) : s'.smp k b =
    { s.smp k b with cpus := s'.cpus, pc := update (update (s.smp k b).pc c pc.smp) b s'.bspPc } := by
  refine congrArg (Smp.mk k _ _) ?_
  funext i
  by_cases hi : i = b
  case pos => rw [hi, if_pos rfl, update_self]
  case neg =>
    rw [if_neg hi, update_of_ne hi, ha, update_apply, update_apply]
    split
    case isTrue  => rfl
    case isFalse => rw [smp_pc_of_ne hi]

-- `Smp` does not see how far a CPU has got before `CPU_STARTED`.
theorem smp_ap {pc : ApPc} (hb : s'.bsp = s.bsp) (hc : s'.cpus = s.cpus) (ha : s'.ap = update s.ap c pc)
    (hp : pc.smp = (s.ap c).smp) : s'.smp k b = s.smp k b := by
  have hi {i : Nat} : (s'.ap i).smp = (s.ap i).smp := by
    rw [ha, update_apply]
    split
    case isTrue he => rw [he, hp]
    case isFalse   => rfl
  refine smp_eq hc ?_ hi
  rw [bspPc, bspPc, hb]
  simp only [hi]

end Mp

namespace MpInv

variable {inp : Input}

theorem smp_bootAps (v : MpInv m b p s) (h : s.bootAps m b = some s') :
    s'.smp k b = s.smp k b ∨ (s.smp k b).next m b inp = some (s'.smp k b) := by
  have hc := v.cur
  have hd := @v.down
  cases hpc : s.bsp <;> simp only [Mp.bootAps, hpc] at h <;> rw [hpc] at hc hd
  case bootAps c =>
    have hbp : s.bspPc = .bootAps c := by rw [Mp.bspPc, hpc]
    simp only [Smp.next, Mp.smp_pc_self, hbp]
    split at h
    case isTrue hn =>
      cases h
      rw [if_pos hn]
      refine .inr (congrArg some (Eq.symm ?_))
      apply Mp.smp_goto <;> intros <;> rfl
    case isFalse hn =>
      rw [if_neg hn]
      split at h
      case isTrue hcb =>
        cases h
        rw [if_pos hcb]
        refine .inr (congrArg some (Eq.symm ?_))
        apply Mp.smp_goto <;> intros <;> rfl
      case isFalse hcb =>
        cases h
        refine .inl (Mp.smp_eq rfl ?_ rfl)
        have hp : s.ap c = .off := (hd (.inr (Nat.le_refl c))).pc
        rw [hbp, Mp.bspPc]
        simp only [hp, ApPc.smp, if_true]
  case startap c l =>
    cases l <;> dsimp only at h
    case nil =>
      split at h <;> cases h
      rename_i hst
      have hbp : s.bspPc = .bootApsWait c := by
        rw [Mp.bspPc, hpc]
        simp [hc.status.mp hst, ApPc.smp]
      simp only [Smp.next, Mp.smp_pc_self, hbp]
      refine .inr ((if_pos hst).trans (congrArg some (Eq.symm ?_)))
      apply Mp.smp_goto <;> intros <;> rfl
    case cons x l =>
      cases h
      refine .inl (Mp.smp_eq rfl ?_ rfl)
      rw [Mp.bspPc, Mp.bspPc, hpc]
  case done => cases h

theorem smp_apNext (v : MpInv m b p s) (h : s.apNext m c = some s') :
    s'.smp k b = s.smp k b ∨ c < m.ncpu ∧ (s.smp k b).next m c inp = some (s'.smp k b) := by
  cases v.cases c
  case inl hu =>
    simp only [Mp.apNext, (v.up hu.left hu.right).pc] at h
    cases h
  case inr hr =>
    cases hr
    case inl hd =>
      simp only [Mp.apNext, hd.pc] at h
      cases h
    case inr hs =>
      obtain ⟨l, hl⟩ := hs
      have hst := v.starting hl
      cases hpc : s.ap c <;> simp only [Mp.apNext, hpc] at h <;> generalize ROUNDUP 4096#32 4096#32 = z at h
      case off | waitSipi | lockKernel => cases h
      case mpentry | mmioBase | mmioNext | lapicInit =>
        cases h
        exact .inl (Mp.smp_ap rfl rfl rfl (by rw [hpc]; rfl))
      case mpMain =>
        split at h
        case isTrue =>
          cases h
          exact .inl (Mp.smp_ap rfl rfl rfl (by rw [hpc]; rfl))
        case isFalse =>
          split at h <;> cases h
          exact .inl (Mp.smp_ap rfl rfl rfl (by rw [hpc]; rfl))
      case mmioMap =>
        obtain ⟨_, _, h⟩ := Option.bind_eq_some_iff.mp h
        cases h
        exact .inl (Mp.smp_ap rfl rfl rfl (by rw [hpc]; rfl))
      case percpu =>
        cases h
        refine .inr ⟨hst.lt, ?_⟩
        have hbp (t : Mp) (ht : t.bsp = s.bsp) (hp : (t.ap c).smp ≠ .off) : t.bspPc = .bootApsWait c := by
          rw [Mp.bspPc, ht, hl]
          exact if_neg hp
        simp only [Smp.next, Mp.smp_pc_of_ne hst.ne, hpc, ApPc.smp]
        refine congrArg some (Eq.symm ((Mp.smp_update rfl).trans (congrArg (Smp.mk _ _ _) ?_)))
        refine update_eq_self_iff.mpr ?_
        rw [update_of_ne hst.ne.symm, Mp.smp_pc_self]
        refine (hbp _ ?_ ?_).trans (hbp _ ?_ ?_).symm
        · rfl
        · simp only [Mp.goto, update_self]
          decide
        · rfl
        · dsimp only
          rw [hpc]
          decide

theorem smp_deliver (v : MpInv m b p s) (h : s.deliver c = some s') :
    s'.smp k b = s.smp k b ∨ (s.smp k b).next m b inp = some (s'.smp k b) := by
  cases hi : s.ipis c <;> simp only [Mp.deliver, hi] at h
  case nil => cases h
  case cons x l' =>
    cases v.cases c
    case inl hu =>
      have u := v.up hu.left hu.right
      rw [u.ipis (x := x) (by rw [hi]; exact List.mem_cons_self), u.pc] at h
      cases h
      exact .inl (Mp.smp_eq rfl rfl rfl)
    case inr hr =>
      cases hr
      case inl hd => cases hi.symm.trans hd.ipis
      case inr hs =>
        obtain ⟨l, hl⟩ := hs
        have hst := v.starting hl
        have hs := hst.sent
        rw [hi] at hs
        cases x <;> dsimp only at h
        case init =>
          cases h
          have hpc : s.ap c = .off := hs.of_init
          exact .inl (Mp.smp_ap rfl rfl rfl (by rw [hpc]; rfl))
        case startup =>
          by_cases hpc : s.ap c = .waitSipi
          case pos =>
            rw [if_pos hpc] at h
            cases h
            have hbp : s.bspPc = .bootAps c := by
              rw [Mp.bspPc, hl]
              simp only [hpc, ApPc.smp, if_true]
            simp only [Smp.next, Mp.smp_pc_self, hbp, if_neg (Nat.not_le_of_lt hst.lt), if_neg hst.ne,
              Mp.smp_pc_of_ne hst.ne, hpc, ApPc.smp]
            refine .inr (congrArg some (Eq.symm ((Mp.smp_update rfl).trans (congrArg (Smp.mk _ _ _) ?_))))
            refine congrArg (update _ b) ?_
            rw [Mp.bspPc]
            simp only [hl, Mp.goto, update_self]
            rfl
          case neg =>
            rw [if_neg hpc] at h
            cases h
            exact .inl (Mp.smp_eq rfl rfl rfl)

theorem smp_step {ev : MpEvent} (inp : Input) (hb : b < m.ncpu) (v : MpInv m b p s) (h : MpStep m b s ev s') :
    s'.smp k b = s.smp k b ∨ ∃ ev, True ∧ SmpStep m (s.smp k b) ev (s'.smp k b) := by
  cases ev
  case bsp       => exact (v.smp_bootAps h).imp_right fun h => ⟨(b, inp), trivial, hb, h⟩
  case ap c      => exact (v.smp_apNext h).imp_right fun h => ⟨(c, inp), trivial, h⟩
  case deliver c => exact (v.smp_deliver h).imp_right fun h => ⟨(b, inp), trivial, hb, h⟩

theorem smp_start : (Smp.boot k b).next m b inp = some ((Mp.start k' base lapic b).smp k b) := by
  have hpc : (Smp.boot k b).pc b = .i386Init := if_pos rfl
  rw [Smp.next, hpc]
  refine congrArg some (congrArg (Smp.mk k _ _) ?_)
  funext i
  rw [update_apply]
  split
  case isTrue      => rfl
  case isFalse hne => exact if_neg hne

end MpInv

-- The steps in which `Smp` boots the other CPUs stand for the handshake: they are taken in an order that
-- the code can take them in, and the kernel's data end up as those with which `Smp` starts.
theorem boot_aps_refines (hb : b < m.ncpu) (inp : Input)
    (h : Mp.lapicInit m k base lapic = some (k', base', lapic')) (hk : lapicInits m k base = some k₁)
    (r : Run (MpStep m b) (fun _ _ => True) (.start k' base' lapic' b) s) :
    Run (SmpStep m) (fun _ _ => True) (.boot k₁ b) (s.smp k₁ b) ∧ (s.bsp = .done → s.kern = k₁) := by
  refine ⟨?_, fun hd => ?_⟩
  · have hs : SmpStep m (.boot k₁ b) (b, inp) ((Mp.start k' base' lapic' b).smp k₁ b) :=
      ⟨hb, MpInv.smp_start⟩
    exact (Run.single trivial hs).trans (r.project (MpInv.start (lapicInit_maps h).right)
      (fun v _ h => v.step h) fun v _ h => v.smp_step inp hb h)
  · obtain ⟨h₁, hl⟩ := lapicInit_maps h
    have hi := (MpInv.run hl r).lapics hb h₁ hd
    rw [hk] at hi
    exact (Option.some.inj hi).symm

theorem boot_aps_refines_two : ∃ (k : State) (s : Mp),
    lapicInits Sample.machine Sample.paged (MMIOBASE + 12288#32) = some k ∧
    Run (SmpStep Sample.machine) (fun _ _ => True) (.boot k 0) (s.smp k 0) ∧
    (s.smp k 0).pc 1 = .mpMainLock ∧ s.kern = k := by
  obtain ⟨_, _, _, s, h, r, hd, -, hp⟩ := Sample.started
  obtain ⟨k, hk⟩ := Sample.lapics
  obtain ⟨hr, hs⟩ := boot_aps_refines (by decide) Sample.idle h hk r
  exact ⟨k, s, hk, hr, (Mp.smp_pc_of_ne (by decide)).trans (congrArg ApPc.smp hp), hs hd⟩

-- How many steps a CPU can still take, interrupts apart.
def ApPc.rest : ApPc → Nat
  | .off | .lockKernel => 0
  | .waitSipi    => 9
  | .mpentry     => 8
  | .mpMain      => 7
  | .mmioMap     => 6
  | .mmioBase    => 5
  | .mmioNext _  => 4
  | .lapicInit _ => 3
  | .percpu      => 2

-- `INIT` takes a CPU back to its start.
def Ipi.weight : Ipi → Nat
  | .init    => 10
  | .startup => 1

def BspPc.rest (n : Nat) : BspPc → Nat
  | .bootAps c   => 20 * (n + 1 - c) + 1
  | .startap c l => 20 * (n - c) + 2 + (l.map fun x => x.weight + 1).sum
  | .done        => 0

namespace Mp

def cpuWeight (s : Mp) (c : Nat) : Nat := (s.ap c).rest + ((s.ipis c).map Ipi.weight).sum

-- The number of steps that are left is at most this.
def weight (m : Machine) (s : Mp) : Nat := s.bsp.rest m.ncpu + ∑ c ∈ Finset.range m.ncpu, s.cpuWeight c

theorem SameCpu.weight (h : SameCpu s s' i) : s'.cpuWeight i = s.cpuWeight i := by
  rw [cpuWeight, cpuWeight, h.pc, h.ipis]

-- Only the weight of CPU `c` changes.
theorem weight_change (hc : c < m.ncpu) (ho : ∀ {i}, i ≠ c → s'.cpuWeight i = s.cpuWeight i) :
    s'.weight m + s.bsp.rest m.ncpu + s.cpuWeight c = s.weight m + s'.bsp.rest m.ncpu + s'.cpuWeight c := by
  have hm := Finset.mem_range.mpr hc
  have he : ∑ i ∈ (Finset.range m.ncpu).erase c, s'.cpuWeight i =
      ∑ i ∈ (Finset.range m.ncpu).erase c, s.cpuWeight i :=
    Finset.sum_congr rfl fun i hi => ho (Finset.ne_of_mem_erase hi)
  rw [weight, weight, ← Finset.add_sum_erase _ _ hm, ← Finset.add_sum_erase _ s.cpuWeight hm, he]
  omega

theorem apNext_rest (h : s.apNext m c = some s') : s'.cpuWeight c < s.cpuWeight c := by
  cases hpc : s.ap c <;> simp only [apNext, hpc] at h <;> generalize ROUNDUP 4096#32 4096#32 = z at h
  case off | waitSipi | lockKernel => cases h
  case mpMain =>
    split at h
    case isTrue =>
      cases h
      simp [cpuWeight, goto, hpc, ApPc.rest]
    case isFalse =>
      split at h <;> cases h
      simp [cpuWeight, goto, hpc, ApPc.rest]
  case mmioMap =>
    obtain ⟨_, _, h⟩ := Option.bind_eq_some_iff.mp h
    cases h
    simp [cpuWeight, goto, hpc, ApPc.rest]
  all_goals
    cases h
    simp [cpuWeight, goto, hpc, ApPc.rest]

theorem deliver_rest (h : s.deliver c = some s') : s'.cpuWeight c < s.cpuWeight c := by
  cases hi : s.ipis c <;> simp only [deliver, hi] at h
  case nil => cases h
  case cons x l =>
    cases x <;> dsimp only at h
    case init =>
      cases h
      simp only [cpuWeight, goto, update_self, hi, List.map_cons, List.sum_cons, ApPc.rest, Ipi.weight]
      omega
    case startup =>
      by_cases hpc : s.ap c = .waitSipi
      case pos =>
        rw [if_pos hpc] at h
        cases h
        simp [cpuWeight, goto, hi, hpc, ApPc.rest, Ipi.weight]
        omega
      case neg =>
        rw [if_neg hpc] at h
        cases h
        simp [cpuWeight, hi, Ipi.weight]

theorem weight_of_bsp (h : ∀ {i}, SameCpu s s' i) (hb : s'.bsp.rest m.ncpu < s.bsp.rest m.ncpu) :
    s'.weight m < s.weight m := by
  rw [weight, weight, Finset.sum_congr rfl fun i _ => (@h i).weight]
  exact Nat.add_lt_add_right hb _

end Mp

namespace MpInv

theorem lt_ncpu (v : MpInv m b p s) (h : ¬s.Down b c) : c < m.ncpu := by
  have hc := v.cur
  cases v.cases c
  case inl hu =>
    refine Nat.lt_of_lt_of_le hu.left ?_
    cases hpc : s.bsp <;> rw [hpc] at hc
    case bootAps => exact hc.left
    case startap => exact Nat.le_of_lt hc.lt
    case done    => exact Nat.le_refl _
  case inr hr =>
    obtain ⟨l, hl⟩ := hr.resolve_left h
    exact (v.starting hl).lt

theorem weight_bootAps (v : MpInv m b p s) (h : s.bootAps m b = some s') : s'.weight m < s.weight m := by
  have hc := v.cur
  have ho {pc : BspPc} {z : Word} {i : Nat} : Mp.SameCpu s { s with mpentryKstack := z, bsp := pc } i :=
    ⟨rfl, rfl, rfl, rfl⟩
  generalize hz : m.kstacktop = z at *
  cases hpc : s.bsp <;> simp only [Mp.bootAps, hpc, hz] at h <;> rw [hpc] at hc
  case bootAps c =>
    split at h
    case isTrue =>
      cases h
      refine Mp.weight_of_bsp ho ?_
      rw [hpc]
      exact Nat.succ_pos _
    case isFalse hn =>
      split at h <;> cases h <;> refine Mp.weight_of_bsp ho ?_ <;> rw [hpc]
      case isTrue  =>
        simp only [BspPc.rest]
        omega
      case isFalse =>
        simp only [BspPc.rest, List.map_cons, List.map_nil, List.sum_cons, List.sum_nil, Ipi.weight]
        omega
  case startap c l =>
    have hlt : c < m.ncpu := hc.lt
    cases l <;> dsimp only at h
    case nil =>
      split at h <;> cases h
      refine Mp.weight_of_bsp ho ?_
      rw [hpc]
      simp only [BspPc.rest, List.map_nil, List.sum_nil]
      omega
    case cons x l =>
      cases h
      have ho {i : Nat} (hi : i ≠ c) : Mp.SameCpu s
          { s with ipis := update s.ipis c (s.ipis c ++ [x]), bsp := .startap c l } i :=
        ⟨rfl, rfl, update_of_ne hi _ _, rfl⟩
      have hw := Mp.weight_change hlt fun hi => (ho hi).weight
      rw [hpc] at hw
      simp only [BspPc.rest, Mp.cpuWeight, update_self, List.map_cons, List.map_append, List.map_nil,
        List.sum_cons, List.sum_append, List.sum_nil] at hw
      omega
  case done => cases h

theorem weight_step {ev : MpEvent} (v : MpInv m b p s) (h : MpStep m b s ev s') :
    s'.weight m < s.weight m := by
  have of_cpu {c : Nat} (hd : ¬s.Down b c) (hb : s'.bsp = s.bsp) (ho : ∀ {i}, i ≠ c → Mp.SameCpu s s' i)
      (hl : s'.cpuWeight c < s.cpuWeight c) : s'.weight m < s.weight m := by
    have hw := Mp.weight_change (v.lt_ncpu hd) fun hi => (ho hi).weight
    rw [hb] at hw
    omega
  cases ev
  case bsp => exact v.weight_bootAps h
  case ap c =>
    obtain ⟨hb, ho⟩ := Mp.apNext_others h
    refine of_cpu (fun hd => ?_) hb ho (Mp.apNext_rest h)
    simp only [MpStep, Mp.next, Mp.apNext, hd.pc] at h
    cases h
  case deliver c =>
    obtain ⟨hb, ho⟩ := Mp.deliver_others h
    refine of_cpu (fun hd => ?_) hb ho (Mp.deliver_rest h)
    simp only [MpStep, Mp.next, Mp.deliver, hd.ipis] at h
    cases h

-- A CPU that cannot go on with `lapic_init` would panic in it if it had the machine to itself.
theorem stuck_starting (v : s.Starting m b p c []) (hd : s.deliver c = none) (h : s.apNext m c = none) :
    (s.cpus c).cpuStatus = .started ∨ lapicMaps m p (nth b c + 1) = none := by
  have hr : ROUNDUP 4096#32 4096#32 = 4096#32 := by decide
  obtain ⟨-, -, -, -, hs, hg, hst⟩ := v
  have hi : s.ipis c = [] := by
    cases hi : s.ipis c
    case nil => rfl
    case cons x l =>
      cases x <;> simp only [Mp.deliver, hi] at hd
      case init    => cases hd
      case startup => split at hd <;> cases hd
  rw [hi] at hs
  cases hpc : s.ap c <;> rw [hpc] at hs hg hst <;> simp only [Mp.apNext, hpc, hr] at h
  case off        => cases hs
  case waitSipi   => cases hs
  case lockKernel => exact .inl (hst.mpr rfl)
  case mpMain =>
    obtain ⟨hm, -⟩ := hg
    refine .inr ?_
    split at h
    case isTrue => cases h
    case isFalse ha =>
      split at h
      case isTrue hl  => rw [lapicMaps_succ, hm, Option.bind_some, if_neg ha, mmioMapRegion, hr, if_pos hl]
      case isFalse hl => cases h
  case mmioMap =>
    obtain ⟨⟨hm, -⟩, ha, hl⟩ := hg
    refine .inr ?_
    have hb := Option.bind_eq_none_iff.mp h
    rw [lapicMaps_succ, hm, Option.bind_some, if_neg ha, mmioMapRegion, hr, if_neg hl]
    refine Option.bind_eq_none_iff.mpr fun k hk => ?_
    cases hb k hk
  all_goals cases h

-- If nothing can take a step, then because `boot_aps` has returned, or because of a panic.
theorem stuck (v : MpInv m b p s) (h : ∀ ev, s.next m b ev = none) :
    s.bsp = .done ∨ ∃ c, c < m.ncpu ∧ c ≠ b ∧ lapicMaps m p (nth b c + 1) = none := by
  have hc := v.cur
  have hn := h .bsp
  cases hpc : s.bsp <;> simp only [Mp.next, Mp.bootAps, hpc] at hn <;> rw [hpc] at hc
  case bootAps c =>
    split at hn
    case isTrue  => cases hn
    case isFalse => split at hn <;> cases hn
  case startap c l =>
    cases l <;> dsimp only at hn
    case nil =>
      cases stuck_starting hc (h (.deliver c)) (h (.ap c))
      case inl hst =>
        rw [if_pos hst] at hn
        cases hn
      case inr hm => exact .inr ⟨c, hc.lt, hc.ne, hm⟩
    case cons => cases hn
  case done => exact .inl rfl

end MpInv

theorem nth_succ_le (hb : b < n) (hc : c < n) (hne : c ≠ b) : nth b c + 2 ≤ n := by
  simp only [nth]
  split <;> omega

theorem maps_of_lapicInits (h : lapicInits m k base = some k₁) :
    ∃ p, lapicMaps m (base, k) m.ncpu = some p := by
  rw [lapicInits] at h
  split at h
  case isTrue ha  => exact ⟨_, lapicMaps_of_zero ha⟩
  case isFalse ha =>
    obtain ⟨p, hp, -⟩ := Option.bind_eq_some_iff.mp h
    refine ⟨p, ?_⟩
    simp only [lapicMaps, if_neg ha]
    exact hp

end Kern

import Sisop.Kern.Trapentry

-- A trap and `env_pop_tf` take a program back to where it was.

namespace Kern.Trapentry

open Inc Library X86

variable {p : Image} {id : Nat} {e : Cause} {t : Taken} {s s' r : Machine} {m : Memory} {a : Nat}

section Gates

theorem mem_of_idt {v : Word} {g : Gatedesc} (h : idt v = some g) : (v, g) ∈ trapInit := by
  obtain ⟨l₁, l₂, hl, -⟩ := List.lookup_eq_some_iff.mp h
  rw [hl]
  simp

-- Each handler makes up for the error code that the processor pushes for some traps only, and none of
-- these can be reached with `int`.
theorem gates : ∀ x ∈ trapInit, x.snd.istrap = false ∧ x.snd.sel = GD_KT ∧
    x.snd.off.pushed = (if errs.contains x.fst then [x.fst] else [0#32, x.fst]) ∧
    (x.snd.dpl = 3 → errs.contains x.fst = false) := by
  decide

theorem taken_isSome : ∃ t, e.taken = some t := by
  have hg : idt T_GPFLT = some ⟨false, GD_KT, thGpflt, 0⟩ := by decide
  rw [Cause.taken]
  split
  case h_1 =>
    split
    case isTrue =>
      split
      case isTrue  => exact ⟨_, rfl⟩
      case isFalse => exact ⟨_, by rw [Cause.taken.fault, hg]; rfl⟩
    case isFalse => exact ⟨_, rfl⟩
  case h_2 => exact ⟨_, by rw [Cause.taken.fault, hg]; rfl⟩

-- All frames have the same layout.
structure Taken.Framed (t : Taken) : Prop where
  istrap : t.gate.istrap = false
  sel    : t.gate.sel = GD_KT
  pushed : t.err = none ∧ t.gate.off.pushed = [0#32, t.vector] ∨
    ∃ err, t.err = some err ∧ t.gate.off.pushed = [t.vector]

theorem taken_framed (h : e.taken = some t) : t.Framed := by
  have fault {bits : Word} (h : Cause.taken.fault e bits = some t) : t.Framed := by
    obtain ⟨g, hg, rfl⟩ := Option.map_eq_some_iff.mp h
    obtain ⟨ht, hs, hp, -⟩ := gates _ (mem_of_idt hg)
    have hc : errs.contains T_GPFLT := by decide
    rw [if_pos hc] at hp
    exact ⟨ht, hs, .inr ⟨_, rfl, hp⟩⟩
  rw [Cause.taken] at h
  split at h
  case h_2 => exact fault h
  case h_1 g hg =>
    obtain ⟨ht, hs, hp, hd⟩ := gates _ (mem_of_idt hg)
    split at h
    case isTrue =>
      split at h
      case isFalse => exact fault h
      case isTrue hg3 =>
        cases h
        rw [if_neg (by rw [hd hg3]; decide)] at hp
        exact ⟨ht, hs, .inl ⟨rfl, hp⟩⟩
    case isFalse =>
      cases h
      by_cases he : errs.contains e.vector
      case pos =>
        rw [if_pos he] at hp
        exact ⟨ht, hs, .inr ⟨_, if_pos he, hp⟩⟩
      case neg =>
        rw [if_neg he] at hp
        exact ⟨ht, hs, .inl ⟨if_neg he, hp⟩⟩

end Gates

-- The flags that are saved.
def Taken.eflags (t : Taken) (f : Flags) : Word := if t.resume then f.val ||| RF else f.val

-- The words of a frame, as they are pushed. `pushal` finds `%esp` after 9 words.
def words (p : Image) (t : Taken) (a : Nat) (s : Machine) : List Word :=
  [p.sel.word s.segs.ss, s.esp, t.eflags s.eflags, p.sel.word s.segs.cs, s.eip, t.err.getD 0#32, t.vector,
    p.sel.word s.segs.ds, p.sel.word s.segs.es, s.regs.eax, s.regs.ecx, s.regs.edx, s.regs.ebx,
    BitVec.ofNat 32 (a - 36), s.regs.ebp, s.regs.esi, s.regs.edi]

-- The frame of a program.
def frame (t : Taken) (a : Nat) (s : Machine) : Trapframe where
  tfRegs := ⟨s.regs.edi, s.regs.esi, s.regs.ebp, BitVec.ofNat 32 (a - 36), s.regs.ebx, s.regs.edx,
    s.regs.ecx, s.regs.eax⟩
  tfEs     := s.segs.es
  tfDs     := s.segs.ds
  tfTrapno := t.vector
  tfErr    := t.err.getD 0#32
  tfEip    := s.eip
  tfCs     := s.segs.cs
  tfEflags := t.eflags s.eflags
  tfEsp    := s.esp
  tfSs     := s.segs.ss

section Enter

theorem loadTf_pushed {l : List Word} (ha : 4 * (17 + l.length) ≤ a) :
    loadTf (pushed m a (words p t a s ++ l)) (a - 68) = frame t a s := by
  have h {i k : Nat} (hi : i < 17) (hk : k + 4 * (i + 1) = 68) :
      (pushed m a (words p t a s ++ l)).load32 (a - 68 + k) = (words p t a s).get ⟨i, hi⟩ := by
    have hl : (words p t a s ++ l).length = 17 + l.length := by rw [List.length_append]; rfl
    have hd : a - 68 + k = a - 4 * (i + 1) := by omega
    rw [hd, load32_pushed (by omega) (by omega)]
    exact List.getElem_append_left hi
  have h₀ := h (i := 16) (k := 0) (by decide) (by decide)
  rw [Nat.add_zero] at h₀
  rw [loadTf, h₀, h (i := 15) (by decide) rfl, h (i := 14) (by decide) rfl, h (i := 13) (by decide) rfl,
    h (i := 12) (by decide) rfl, h (i := 11) (by decide) rfl, h (i := 10) (by decide) rfl,
    h (i := 9) (by decide) rfl, h (i := 8) (by decide) rfl, h (i := 7) (by decide) rfl,
    h (i := 6) (by decide) rfl, h (i := 5) (by decide) rfl, h (i := 4) (by decide) rfl,
    h (i := 3) (by decide) rfl, h (i := 2) (by decide) rfl, h (i := 1) (by decide) rfl,
    h (i := 0) (by decide) rfl]
  simp only [words, frame, List.get_eq_getElem, List.getElem_cons_succ, List.getElem_cons_zero, p.sel.low]

theorem esp0_toNat (h : id < NCPU) : (tss id).esp0.toNat = 4026531840 - id * 65536 := by
  have hn : id < 8 := h
  have hk : KSTACKTOP.toNat = 4026531840 := rfl
  have hi : (BitVec.ofNat 32 (id * (KSTKSIZE + KSTKGAP))).toNat = id * 65536 := by
    rw [BitVec.toNat_ofNat]
    have hs : KSTKSIZE + KSTKGAP = 65536 := by decide
    rw [hs]
    exact Nat.mod_eq_of_lt (by omega)
  rw [tss, BitVec.toNat_sub, hi, hk]
  omega

-- `_alltraps` completes a frame.
theorem alltraps_eq {w : List Word} (hw : w.length = 7) (he : s.esp = BitVec.ofNat 32 (a - 28))
    (hm : s.mem = pushed m a w) (ha : a < 2 ^ 32) (hl : 76 ≤ a) (hg : s.pages.CanWrite (a - 76) 76) :
    alltraps p s = some { s with
      regs := { s.regs with eax := (s.regs.eax >>> 16).setWidth 16 ++ GD_KD }
      esp  := BitVec.ofNat 32 (a - 76)
      eip  := p.trap
      segs := { s.segs with ds := GD_KD, es := GD_KD }
      mem  := pushed m a (w ++ [p.sel.word s.segs.ds, p.sel.word s.segs.es, s.regs.eax, s.regs.ecx, s.regs.edx,
        s.regs.ebx, BitVec.ofNat 32 (a - 36), s.regs.ebp, s.regs.esi, s.regs.edi, BitVec.ofNat 32 (a - 68),
        p.next]) } := by
  have hp {k n : Nat} {u : Machine} {v l : List Word} (hk : v.length = k) (hn : l.length = n)
      (hkn : k + n ≤ 19) (hue : u.esp = BitVec.ofNat 32 (a - 4 * k)) (hum : u.mem = pushed m a v)
      (hug : u.pages = s.pages) : u.pushes l = some { u with
        esp := BitVec.ofNat 32 (a - 4 * (k + n)), mem := pushed m a (v ++ l) } := by
    subst hk hn
    exact Machine.pushes_onto hue hum ha (by omega) (hug ▸ hg.mono (by omega) (by omega))
  let w₂ := w ++ [p.sel.word s.segs.ds] ++ [p.sel.word s.segs.es]
  let w₃ := w₂ ++ [s.regs.eax, s.regs.ecx, s.regs.edx, s.regs.ebx, BitVec.ofNat 32 (a - 36), s.regs.ebp,
    s.regs.esi, s.regs.edi]
  have hw₂ : w₂.length = 9 := by simp [w₂, hw]
  have hw₃ : w₃.length = 17 := by simp [w₃, hw₂]
  let s₁ : Machine := { s with
    esp := BitVec.ofNat 32 (a - 32), mem := pushed m a (w ++ [p.sel.word s.segs.ds]) }
  let s₂ : Machine := { s with esp := BitVec.ofNat 32 (a - 36), mem := pushed m a w₂ }
  let s₃ : Machine := { s with esp := BitVec.ofNat 32 (a - 68), mem := pushed m a w₃ }
  have h₁ : s.pushes [p.sel.word s.segs.ds] = some s₁ :=
    hp (k := 7) (n := 1) hw rfl (by decide) he hm rfl
  have h₂ : s₁.pushes [p.sel.word s₁.segs.es] = some s₂ :=
    hp (k := 8) (n := 1) (by rw [List.length_append, hw]; rfl) rfl (by decide) rfl rfl rfl
  have h₃ : s₂.pushal = some s₃ := hp (k := 9) (n := 8) hw₂ rfl (by decide) rfl rfl rfl
  let s₄ : Machine := { s₃ with
    regs := { s.regs with eax := (s.regs.eax >>> 16).setWidth 16 ++ GD_KD }
    segs := { s.segs with ds := GD_KD, es := GD_KD } }
  let s₅ : Machine := { s₄ with
    esp := BitVec.ofNat 32 (a - 72), mem := pushed m a (w₃ ++ [BitVec.ofNat 32 (a - 68)]) }
  have h₄ : s₄.pushes [s₄.esp] = some s₅ := hp (k := 17) (n := 1) hw₃ rfl (by decide) rfl rfl rfl
  have h₅ : s₅.pushes [p.next] = some { s₅ with
      esp := BitVec.ofNat 32 (a - 76), mem := pushed m a (w₃ ++ [BitVec.ofNat 32 (a - 68)] ++ [p.next]) } :=
    hp (k := 18) (n := 1) (by rw [List.length_append, hw₃]; rfl) rfl (by decide) rfl rfl rfl
  have hd : w₃ ++ [BitVec.ofNat 32 (a - 68)] ++ [p.next] = w ++ [p.sel.word s.segs.ds, p.sel.word s.segs.es,
      s.regs.eax, s.regs.ecx, s.regs.edx, s.regs.ebx, BitVec.ofNat 32 (a - 36), s.regs.ebp, s.regs.esi,
      s.regs.edi, BitVec.ofNat 32 (a - 68), p.next] := by
    simp only [w₃, w₂, List.append_assoc, List.cons_append, List.nil_append]
  rw [← hd, alltraps, h₁]
  simp only [Option.bind_eq_bind, Option.bind_some]
  rw [h₂, Option.bind_some, h₃, Option.bind_some]
  refine (congrArg (Option.bind · _) h₄).trans ?_
  refine (congrArg (Option.bind · _) h₅).trans ?_
  rfl

-- The state in which `trap` is entered.
def entered (p : Image) (a : Nat) (t : Taken) (s : Machine) : Machine :=
  { s with
    regs   := { s.regs with eax := (s.regs.eax >>> 16).setWidth 16 ++ GD_KD }
    esp    := BitVec.ofNat 32 (a - 76)
    eip    := p.trap
    eflags := .ofWord (s.eflags.val &&& ~~~CLEARED)
    segs   := ⟨GD_KT, GD_KD, GD_KD, GD_KD⟩
    mem    := pushed s.mem a (words p t a s ++ [BitVec.ofNat 32 (a - 68), p.next]) }

-- The words that the processor and the handler push together.
theorem enter_handler {k : Tss} (ht : e.taken = some t) (he : k.esp0 = BitVec.ofNat 32 a) (hss : k.ss0 = GD_KD)
    (ha : a < 2 ^ 32) (hl : 76 ≤ a) (hg : s.pages.CanWrite (a - 76) 76) :
    (s.enter p.sel k t.gate.sel (p.off t.gate.off) t.gate.istrap t.resume t.err).bind
        (·.pushes t.gate.off.pushed) = some { s with
      esp    := BitVec.ofNat 32 (a - 28)
      eip    := p.off t.gate.off
      eflags := .ofWord (s.eflags.val &&& ~~~CLEARED)
      segs   := { s.segs with cs := GD_KT, ss := GD_KD }
      mem    := pushed s.mem a ((words p t a s).take 7) } := by
  obtain ⟨hi, hs, hp⟩ := taken_framed ht
  let s₀ : Machine := { s with esp := k.esp0, segs := { s.segs with ss := GD_KD } }
  let l := [p.sel.word s.segs.ss, s.esp, t.eflags s.eflags, p.sel.word s.segs.cs, s.eip]
  -- The state after `n` words.
  let u (n : Nat) (l : List Word) : Machine := { s with
    esp    := BitVec.ofNat 32 (a - 4 * n)
    eip    := p.off t.gate.off
    eflags := .ofWord (s.eflags.val &&& ~~~CLEARED)
    segs   := { s.segs with cs := GD_KT, ss := GD_KD }
    mem    := pushed s.mem a l }
  have enter {n : Nat} {d : List Word} (hn : (l ++ d).length = n) (hle : n ≤ 7) (hd : t.err.toList = d) :
      s.enter p.sel k t.gate.sel (p.off t.gate.off) t.gate.istrap t.resume t.err =
        some (u n (l ++ d)) := by
    subst hn
    have h₀ := Machine.pushes_eq (s := s₀) (l := l ++ d) he ha (by omega) (hg.mono (by omega) (by omega))
    rw [Machine.enter, hi, hs, hd, hss]
    exact congrArg (Option.bind · _) h₀
  rcases hp with ⟨hr, hp⟩ | ⟨err, hr, hp⟩
  · rw [enter (n := 5) (d := []) rfl (by decide) (by rw [hr]; rfl), Option.bind_some, hp]
    have h := Machine.pushes_onto (s := u 5 (l ++ [])) (w := l ++ []) (l := [0#32, t.vector]) rfl rfl ha
      (by simp [l]; omega) (hg.mono (by simp [l]; omega) (by simp [l]; omega))
    rw [h, words, hr]
    rfl
  · rw [enter (n := 6) (d := [err]) rfl (by decide) (by rw [hr]; rfl), Option.bind_some, hp]
    have h := Machine.pushes_onto (s := u 6 (l ++ [err])) (w := l ++ [err]) (l := [t.vector]) rfl rfl ha
      (by simp [l]; omega) (hg.mono (by simp [l]; omega) (by simp [l]; omega))
    rw [h, words, hr]
    rfl

theorem entered_mem : (entered p a t s).mem =
    pushed s.mem a (words p t a s ++ [BitVec.ofNat 32 (a - 68), p.next]) := by
  rw [entered]

theorem arg_entered (ha : a < 2 ^ 32) (hl : 76 ≤ a) : (arg (entered p a t s)).toNat = a - 68 := by
  have he : (entered p a t s).esp = BitVec.ofNat 32 (a - 76) := rfl
  have hd : a - 76 + 4 = a - 4 * (17 + 1) := by omega
  have hw : (words p t a s ++ [BitVec.ofNat 32 (a - 68), p.next]).length = 19 := rfl
  rw [arg, he, entered_mem, BitVec.toNat_ofNat, Nat.mod_eq_of_lt (by omega), hd,
    load32_pushed (by omega) (by omega)]
  exact Nat.mod_eq_of_lt (by omega)

theorem enter_eq (ht : e.taken = some t) (he : (tss id).esp0 = BitVec.ofNat 32 a) (ha : a < 2 ^ 32)
    (hl : 76 ≤ a) (hg : s.pages.CanWrite (a - 76) 76) : enter p id e s = some (entered p a t s) := by
  let s₁ : Machine := { s with
    esp    := BitVec.ofNat 32 (a - 28)
    eip    := p.off t.gate.off
    eflags := .ofWord (s.eflags.val &&& ~~~CLEARED)
    segs   := { s.segs with cs := GD_KT, ss := GD_KD }
    mem    := pushed s.mem a ((words p t a s).take 7) }
  have h₁ := enter_handler (p := p) ht he rfl ha hl hg
  have h₂ := alltraps_eq (p := p) (s := s₁) rfl rfl rfl ha hl hg
  rw [enter, ht]
  simp only [Option.bind_eq_bind, Option.bind_some]
  rw [← Option.bind_assoc, h₁, Option.bind_some, h₂]
  rfl

end Enter

-- The program that `env_pop_tf` of a frame goes on with.
def contextOf (tf : Trapframe) : Context where
  regs   := ⟨tf.tfRegs.regEdi, tf.tfRegs.regEsi, tf.tfRegs.regEbp, tf.tfRegs.regEbx, tf.tfRegs.regEdx,
    tf.tfRegs.regEcx, tf.tfRegs.regEax⟩
  esp    := tf.tfEsp
  eip    := tf.tfEip
  eflags := .ofWord tf.tfEflags
  segs   := ⟨tf.tfCs, tf.tfDs, tf.tfEs, tf.tfSs⟩

theorem contextOf_frame : contextOf (frame t a s) = s.context := by
  have hf : Flags.ofWord (t.eflags s.eflags) = s.eflags := by
    rw [Taken.eflags]
    split
    · exact s.eflags.ofWord_or
    · exact s.eflags.ofWord_val
  rw [contextOf, frame, hf]
  rfl

theorem envPopTf_eq (ha : a + 68 ≤ 2 ^ 32) (hr : r.pages.CanRead a 68)
    (hu : (loadTf r.mem a).tfCs &&& 3#16 ≠ 0#16) : envPopTf p (BitVec.ofNat 32 a) r = some { r with
      toCpu := (contextOf (loadTf r.mem a)).toCpu, segs := (contextOf (loadTf r.mem a)).segs } := by
  have hm {k n : Nat} (hk : k + n ≤ 68) : r.pages.CanRead (a + k) n := hr.mono (by omega) (by omega)
  let c := contextOf (loadTf r.mem a)
  let r₁ : Machine := { r with regs := c.regs, esp := BitVec.ofNat 32 (a + 32) }
  let r₂ : Machine := { r₁ with esp := BitVec.ofNat 32 (a + 36), segs := { r.segs with es := c.segs.es } }
  let r₃ : Machine := { r₂ with
    esp := BitVec.ofNat 32 (a + 40), segs := { r.segs with ds := c.segs.ds, es := c.segs.es } }
  have h₁ : ({ r with esp := BitVec.ofNat 32 a } : Machine).popal = some r₁ := by
    have h := Machine.popal_eq (s := { r with esp := BitVec.ofNat 32 a }) rfl (by omega)
      (hr.mono le_rfl (by omega))
    exact h
  have h₂ : r₁.popEs = some r₂ := by
    rw [Machine.popEs, Machine.popSel_eq (s := r₁) rfl (by omega) (hm (by decide))]
    rfl
  have h₃ : r₂.popDs = some r₃ := by
    rw [Machine.popDs, Machine.popSel_eq (s := r₂) rfl (by omega) (hm (by decide))]
    rfl
  have he : (r₃.addlEsp p.alu 8#32).esp = BitVec.ofNat 32 (a + 48) := (BitVec.ofNat_add ..).symm
  have h₄ := Machine.iret_eq he (by omega) (hm (by decide)) hu
  rw [envPopTf]
  simp only [Option.bind_eq_bind]
  rw [h₁, Option.bind_some, h₂, Option.bind_some, h₃, Option.bind_some, h₄]
  rfl

-- What `trap` finds after a trap of the program `s`, and how the program goes on.
structure RoundTrip (p : Image) (id : Nat) (t : Taken) (s s' : Machine) : Prop where
  eip     : s'.eip = p.trap
  segs    : s'.segs = ⟨GD_KT, GD_KD, GD_KD, GD_KD⟩
  trapno  : (loadTf s'.mem (arg s').toNat).tfTrapno = t.vector
  err     : (loadTf s'.mem (arg s').toNat).tfErr = t.err.getD 0#32
  context : contextOf (loadTf s'.mem (arg s').toNat) = s.context
  -- Only 19 words of the kernel stack are written.
  kept    : ∀ x, x < (tss id).esp0.toNat - 76 ∨ (tss id).esp0.toNat ≤ x → s'.mem x = s.mem x
  -- `env_pop_tf` of a copy of the frame, on any CPU.
  pop     : ∀ {r : Machine} {a : Nat}, a + sizeofTrapframe ≤ 2 ^ 32 → r.pages.CanRead a sizeofTrapframe →
    loadTf r.mem a = loadTf s'.mem (arg s').toNat →
      ∃ u, envPopTf p (BitVec.ofNat 32 a) r = some u ∧ u.context = s.context ∧ u.mem = r.mem

-- Whatever makes a program in user mode trap, and whether or not the processor pushes an error code, `trap`
-- gets a frame with all of its registers, and `env_pop_tf` takes it back to where it was.
theorem trap_round_trip (hid : id < NCPU) (hu : s.segs.cs &&& 3#16 = 3#16)
    (hw : s.pages.CanWrite ((tss id).esp0.toNat - KSTKSIZE) KSTKSIZE) :
    ∃ t s', e.taken = some t ∧ enter p id e s = some s' ∧ RoundTrip p id t s s' := by
  obtain ⟨t, ht⟩ := taken_isSome (e := e)
  have hn : id < 8 := hid
  have hk : KSTKSIZE = 32768 := rfl
  have ha := esp0_toNat hid
  have he : (tss id).esp0 = BitVec.ofNat 32 (tss id).esp0.toNat := by
    rw [BitVec.ofNat_toNat, BitVec.setWidth_eq]
  rw [hk] at hw
  have hen := enter_eq (p := p) ht he (by omega) (by omega) (hw.mono (by omega) (by omega))
  generalize hg : (tss id).esp0.toNat = a at *
  have harg := arg_entered (p := p) (t := t) (s := s) (a := a) (by omega) (by omega)
  have hf : loadTf (entered p a t s).mem (arg (entered p a t s)).toNat = frame t a s := by
    rw [harg, entered_mem]
    exact loadTf_pushed (by rw [List.length_cons, List.length_singleton]; omega)
  have hc : contextOf (loadTf (entered p a t s).mem (arg (entered p a t s)).toNat) = s.context := by
    rw [hf, contextOf_frame]
  refine ⟨t, _, ht, hen, rfl, rfl, ?_, ?_, hc, ?_, ?_⟩
  · rw [hf]
    rfl
  · rw [hf]
    rfl
  · intro x hx
    rw [hg] at hx
    have hlen : (words p t a s ++ [BitVec.ofNat 32 (a - 68), p.next]).length = 19 := rfl
    rw [entered_mem, pushed_of_not_mem (by omega) (by omega)]
  · intro r b hb hr hl
    rw [← hl] at hc
    refine ⟨_, envPopTf_eq hb hr ?_, ?_, rfl⟩
    · rw [hl, hf]
      change s.segs.cs &&& 3#16 ≠ 0#16
      rw [hu]
      decide
    · rw [← hc]
      rfl

namespace Sample

def image : Image where
  alu  := ⟨fun _ _ => 0#32, fun _ _ => 0#32⟩
  sel  := ⟨fun sel => sel.setWidth 32, fun _ => by simp⟩
  off  := fun _ => 0xF0103000#32
  trap := 0xF0102000#32
  next := 0xF0103800#32

-- A program in user mode.
def program : Machine where
  regs   := ⟨1#32, 2#32, 0xEEBFDFD0#32, 4#32, 5#32, 6#32, 7#32⟩
  esp    := 0xEEBFDFC0#32
  eip    := 0x800020#32
  eflags := ⟨0x246#32, by decide⟩
  segs   := ⟨0x1B#16, 0x23#16, 0x23#16, 0x23#16⟩
  mem    := fun _ => 0#8
  pages  := ⟨fun _ => true, fun x => x < 0x100000000, fun _ => rfl, of_decide_eq_true⟩

-- The interrupt of the keyboard, which has no gate.
def kbd : Cause := ⟨IRQ_OFFSET + 1#32, 0#32, false, false⟩

end Sample

-- A key is pressed while a program runs on CPU 1.
theorem trap_round_trip_kbd : ∃ s', enter Sample.image 1 Sample.kbd Sample.program = some s' ∧
    (loadTf s'.mem (arg s').toNat).tfTrapno = T_GPFLT ∧ (loadTf s'.mem (arg s').toNat).tfErr = 267#32 ∧
    contextOf (loadTf s'.mem (arg s').toNat) = Sample.program.context := by
  have hid : 1 < NCPU := by decide
  have hw : Sample.program.pages.CanWrite ((tss 1).esp0.toNat - KSTKSIZE) KSTKSIZE := by
    intro i hi
    have hk : KSTKSIZE = 32768 := rfl
    rw [esp0_toNat hid]
    exact decide_eq_true (by omega)
  obtain ⟨t, s', ht, hs, h⟩ := trap_round_trip (p := Sample.image) (e := Sample.kbd) hid (by decide) hw
  have hg : Sample.kbd.taken = some ⟨T_GPFLT, ⟨false, GD_KT, thGpflt, 0⟩, some 267#32, true⟩ := rfl
  rw [hg] at ht
  cases ht
  exact ⟨s', hs, h.trapno, h.err, h.context⟩

end Kern.Trapentry

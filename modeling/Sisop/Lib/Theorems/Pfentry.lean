import Sisop.Lib.Pfentry
import Sisop.Kern.Theorems.PageFault

-- `_pgfault_upcall` takes a program back to where it faulted.

namespace Lib.Pfentry

open Inc Library X86
open Kern (utrapframeAddr sizeofUTrapframe)

-- The fault of `s` has left no trace in `s'`, neither in its registers nor in the handlers around it.
structure Transparent (s s' : User) : Prop where
  cpu  : s'.toCpu = s.toCpu
  kept : ∀ x, enclosing s ≤ x → x < UXSTACKTOP.toNat → s'.mem x = s.mem x

-- However the C handler runs, it goes back to a state in which `s` has not faulted.
def Handled (p : Image) (s s₁ s₂ : User) : Prop :=
  ∀ t, Runs p (enclosing s) s₁.esp.toNat s₂ t → Returned p s s₁ t →
    ∃ s', resume p t = some s' ∧ Transparent s s'

variable {p : Image} {f : Fault} {s s₁ s₂ s₃ s' t : User} {c u a n : Nat} {m : Memory} {r : Regs}
  {oesp : Word}

-- The words of a frame that are popped, and those that are not.
structure SavedRegs (m : Memory) (u : Nat) (c : Cpu) : Prop where
  edi    : m.load32 (u + 8) = c.regs.edi
  esi    : m.load32 (u + 12) = c.regs.esi
  ebp    : m.load32 (u + 16) = c.regs.ebp
  ebx    : m.load32 (u + 24) = c.regs.ebx
  edx    : m.load32 (u + 28) = c.regs.edx
  ecx    : m.load32 (u + 32) = c.regs.ecx
  eax    : m.load32 (u + 36) = c.regs.eax
  eflags : m.load32 (u + 44) = c.eflags.val ||| RF

structure Saved (m : Memory) (u : Nat) (c : Cpu) : Prop extends SavedRegs m u c where
  eip : m.load32 (u + 40) = c.eip
  esp : m.load32 (u + 48) = c.esp

theorem saved_storeFrame {c : Cpu} : Saved (storeFrame m u c f) u c := by
  refine ⟨⟨?_, ?_, ?_, ?_, ?_, ?_, ?_, ?_⟩, ?_, ?_⟩ <;>
    simp (disch := omega) only [storeFrame, storeRegs, utfFaultVa, utfEsp, utfEflags, utfEip, utfRegs, utfErr,
      Nat.add_assoc, Nat.reduceAdd, Memory.load32_store32, Memory.load32_store32_self]

theorem storeFrame_of_not_mem {c : Cpu} {x : Nat} (h : x < u ∨ u + sizeofUTrapframe ≤ x) :
    storeFrame m u c f x = m x := by
  rw [sizeofUTrapframe] at h
  simp (disch := omega) only [storeFrame, storeRegs, utfFaultVa, utfEsp, utfEflags, utfEip, utfRegs, utfErr,
    Memory.store32_of_not_mem]

theorem SavedRegs.congr {m' : Memory} {c : Cpu} (h : SavedRegs m u c)
    (ha : Memory.AgreeOn (u + 8) 40 m m') : SavedRegs m' u c := by
  have hl {k : Nat} (h₁ : 8 ≤ k) (h₂ : k + 4 ≤ 48) : m'.load32 (u + k) = m.load32 (u + k) :=
    Memory.load32_congr (ha.mono (by omega) (by omega))
  constructor
  case edi    => exact (hl (by decide) (by decide)).trans h.edi
  case esi    => exact (hl (by decide) (by decide)).trans h.esi
  case ebp    => exact (hl (by decide) (by decide)).trans h.ebp
  case ebx    => exact (hl (by decide) (by decide)).trans h.ebx
  case edx    => exact (hl (by decide) (by decide)).trans h.edx
  case ecx    => exact (hl (by decide) (by decide)).trans h.ecx
  case eax    => exact (hl (by decide) (by decide)).trans h.eax
  case eflags => exact (hl (by decide) (by decide)).trans h.eflags

theorem Saved.congr {m' : Memory} {c : Cpu} (h : Saved m u c)
    (ha : Memory.AgreeOn u sizeofUTrapframe m m') : Saved m' u c := by
  rw [sizeofUTrapframe] at ha
  constructor
  case toSavedRegs => exact h.toSavedRegs.congr (ha.mono (by omega) (by omega))
  case eip => exact (Memory.load32_congr (ha.mono (by omega) (by omega))).trans h.eip
  case esp => exact (Memory.load32_congr (ha.mono (by omega) (by omega))).trans h.esp

-- What `_pgfault_upcall` leaves in memory.
def resumed (m : Memory) (u : Nat) (c : Cpu) : Memory :=
  (m.store32 (u + 48) (c.esp - 4#32)).store32 (c.esp - 4#32).toNat c.eip

theorem resumed_of_le {c : Cpu} {x : Nat} (h₁ : u + 52 ≤ x) (h₂ : (c.esp - 4#32).toNat + 4 ≤ x) :
    resumed m u c x = m x := by
  rw [resumed, Memory.store32_of_not_mem (.inr h₂), Memory.store32_of_not_mem (.inr h₁)]

section Resume

variable {c : Cpu} (hs : Saved t.mem u c) (hw : t.pages.CanWrite u sizeofUTrapframe)
include hs hw

theorem pushEip_eq (he : t.esp + 4#32 = BitVec.ofNat 32 u)
    (hb : t.pages.CanWrite (c.esp - 4#32).toNat 4) : ∃ r fl, fl.system = t.eflags.system ∧
      pushEip p t = some { t with
        regs := r, esp := BitVec.ofNat 32 u, eflags := fl, mem := resumed t.mem u c } := by
  have hlt : u + 52 ≤ UTOP.toNat := hw.le_top
  have hu : UTOP.toNat < 2 ^ 32 := UTOP.isLt
  have hg (k : Nat) (hk : k + 4 ≤ 52) : t.pages.CanWrite (u + k) 4 :=
    hw.mono (by omega) (by rw [sizeofUTrapframe]; omega)
  have hn (k : Nat) (hk : k + 4 ≤ 52) :
      BitVec.ofNat 32 u + BitVec.ofNat 32 k = BitVec.ofNat 32 (u + k) ∧
        (BitVec.ofNat 32 (u + k)).toNat = u + k :=
    ⟨(BitVec.ofNat_add ..).symm, Nat.mod_eq_of_lt (by omega)⟩
  have hl : (t.mem.store32 (u + 48) (c.esp - 4#32)).load32 (u + 40) = c.eip := by
    rw [Memory.load32_store32 (by omega)]
    exact hs.eip
  refine ⟨{ t.regs with ecx := c.esp - 4#32, edx := c.eip },
    (t.eflags.status (p.alu.add t.esp 4#32)).status (p.alu.sub c.esp 4#32), ?_, ?_⟩
  · rw [Flags.system_status, Flags.system_status]
  · simp only [pushEip, State.addlEsp, State.sublEcx, State.load, State.store, Option.bind_eq_bind,
      Option.bind_some, he, hn 48 (by decide), hn 40 (by decide), (hg 48 (by decide)).canRead,
      hg 48 (by decide), (hg 40 (by decide)).canRead, hb, hs.esp, hl, if_true]
    rfl

omit hs in
theorem restore_eq (hr : SavedRegs t.mem u c) (he : t.esp = BitVec.ofNat 32 u)
    (hf : t.eflags.system = c.eflags.system) : restore p t =
      ({ t with regs := c.regs, esp := t.mem.load32 (u + 48), eflags := c.eflags } : User).ret := by
  have hlt : u + 52 ≤ UTOP.toNat := hw.le_top
  have hu : UTOP.toNat < 2 ^ 32 := UTOP.isLt
  have hg {k n : Nat} (hk : k + n ≤ 52) : t.pages.CanRead (u + k) n :=
    (hw.mono (by omega) (by rw [sizeofUTrapframe]; omega)).canRead
  let t₁ : User := { t with
    regs := c.regs, esp := BitVec.ofNat 32 (u + 40), eflags := t.eflags.status (p.alu.add t.esp 8#32) }
  have h₁ : (t.addlEsp p.alu 8#32).popal = some t₁ := by
    have he₁ : (t.addlEsp p.alu 8#32).esp = BitVec.ofNat 32 (u + 8) := by
      rw [State.addlEsp, he, BitVec.ofNat_add]
    rw [State.popal_eq he₁ (by omega) (hg (by decide))]
    simp only [State.addlEsp, Nat.add_assoc, Nat.reduceAdd, hr.edi, hr.esi, hr.ebp, hr.ebx, hr.edx, hr.ecx,
      hr.eax]
    rfl
  let t₂ : User := { t₁ with esp := BitVec.ofNat 32 (u + 48), eflags := c.eflags }
  have h₂ : (t₁.addlEsp p.alu 4#32).popfl = some t₂ := by
    have he₂ : (t₁.addlEsp p.alu 4#32).esp = BitVec.ofNat 32 (u + 44) := (BitVec.ofNat_add ..).symm
    have hf₂ : (t₁.addlEsp p.alu 4#32).eflags.system = c.eflags.system := by
      rw [State.addlEsp, Flags.system_status, Flags.system_status, hf]
    have hl : (t₁.addlEsp p.alu 4#32).mem.load32 (u + 44) = c.eflags.val ||| RF := hr.eflags
    rw [State.popfl_eq he₂ (by omega) (hg (by decide)), hl, Flags.pop_eq hf₂]
    rfl
  have h₃ : t₂.popEsp = some { t₂ with esp := t.mem.load32 (u + 48) } :=
    State.popEsp_eq rfl (by omega) (hg (by decide))
  rw [restore]
  simp only [h₁, h₂, h₃, Option.bind_eq_bind, Option.bind_some]
  rfl

-- The word below the `%esp` of the fault may overlap the last word of the frame, but no other one.
theorem resume_eq (he : t.esp + 4#32 = BitVec.ofNat 32 u) (hf : t.eflags.system = c.eflags.system)
    (hb : t.pages.CanWrite (c.esp - 4#32).toNat 4)
    (hd : (c.esp - 4#32).toNat + 4 ≤ u + 8 ∨ u + 48 ≤ (c.esp - 4#32).toNat) : resume p t =
      ({ t with
        regs := c.regs, esp := (resumed t.mem u c).load32 (u + 48), eflags := c.eflags,
        mem := resumed t.mem u c } : User).ret := by
  obtain ⟨r, fl, hfl, hp⟩ := pushEip_eq (p := p) hs hw he hb
  have hm : Memory.AgreeOn (u + 8) 40 t.mem (resumed t.mem u c) := by
    intro x h₁ h₂
    rw [resumed, Memory.store32_of_not_mem (by omega), Memory.store32_of_not_mem (by omega)]
  rw [resume, hp]
  exact restore_eq hw (hs.toSavedRegs.congr hm) rfl (hfl.trans hf)

-- Apart from the frame, the word is popped again.
theorem resume_restores (he : t.esp + 4#32 = BitVec.ofNat 32 u) (hf : t.eflags.system = c.eflags.system)
    (hb : t.pages.CanWrite (c.esp - 4#32).toNat 4)
    (hd : (c.esp - 4#32).toNat + 4 ≤ u ∨ u + 52 ≤ (c.esp - 4#32).toNat) :
    resume p t = some ⟨c, resumed t.mem u c, t.pages⟩ := by
  have hl : (resumed t.mem u c).load32 (u + 48) = c.esp - 4#32 := by
    rw [resumed, Memory.load32_store32 (by omega), Memory.load32_store32_self]
  have hr : (resumed t.mem u c).load32 (c.esp - 4#32).toNat = c.eip := Memory.load32_store32_self
  rw [resume_eq hs hw he hf hb (by omega), hl, State.ret_of_canRead hb.canRead]
  simp only [hr, BitVec.sub_add_cancel]

-- Over the last word of the frame, it is lost.
theorem resume_lost (he : t.esp + 4#32 = BitVec.ofNat 32 u) (hf : t.eflags.system = c.eflags.system)
    (hb : t.pages.CanWrite (c.esp - 4#32).toNat 4) (hd : (c.esp - 4#32).toNat = u + 48) :
    resume p t = ({ t with
      regs := c.regs, esp := c.eip, eflags := c.eflags, mem := resumed t.mem u c } : User).ret := by
  have hl : (resumed t.mem u c).load32 (u + 48) = c.eip := by
    rw [resumed, hd]
    exact Memory.load32_store32_self
  rw [resume_eq hs hw he hf hb (by omega), hl]

end Resume

-- Where the frame is, which has 13 words.
def frameAddr (s : User) : Nat := (utrapframeAddr s.esp).1.toNat

-- A fault of a program that is on the exception stack.
def Nested (s : User) : Prop := (utrapframeAddr s.esp).2 = true

section Address

theorem nested_iff : Nested s ↔
    UXSTACKTOP.toNat - 4096 ≤ s.esp.toNat ∧ s.esp.toNat < UXSTACKTOP.toNat := by
  have hc : UXSTACKTOP - 4096#32 ≤ s.esp ∧ s.esp < UXSTACKTOP ↔
      UXSTACKTOP.toNat - 4096 ≤ s.esp.toNat ∧ s.esp.toNat < UXSTACKTOP.toNat := Iff.rfl
  rw [← hc, Nested, utrapframeAddr]
  split
  case isTrue h  => simp [h]
  case isFalse h => simp [h]

theorem enclosing_nested (h : Nested s) : enclosing s = s.esp.toNat := if_pos h

theorem enclosing_top (h : ¬Nested s) : enclosing s = UXSTACKTOP.toNat := if_neg h

theorem frameAddr_nested (h : Nested s) : frameAddr s + 56 = s.esp.toNat := by
  have hn := nested_iff.mp h
  have ht : UXSTACKTOP.toNat = 4005560320 := rfl
  have hu : utrapframeAddr s.esp = (s.esp - 4#32 - BitVec.ofNat 32 sizeofUTrapframe, true) := if_pos hn
  rw [frameAddr, hu, sizeofUTrapframe]
  simp only [BitVec.toNat_sub, BitVec.toNat_ofNat]
  omega

theorem frameAddr_top (h : ¬Nested s) : frameAddr s + 52 = UXSTACKTOP.toNat := by
  have hu : utrapframeAddr s.esp = (UXSTACKTOP - BitVec.ofNat 32 sizeofUTrapframe, false) :=
    if_neg fun hc => h (nested_iff.mpr hc)
  rw [frameAddr, hu]
  rfl

end Address

theorem frameAddr_lt : frameAddr s + 52 ≤ enclosing s ∧ frameAddr s + 52 ≤ UXSTACKTOP.toNat := by
  by_cases h : Nested s
  case pos =>
    have hu := frameAddr_nested h
    have hn := nested_iff.mp h
    rw [enclosing_nested h]
    omega
  case neg =>
    have hu := frameAddr_top h
    rw [enclosing_top h]
    omega

-- What `page_fault_handler` leaves for the upcall.
structure Pushed (s s₁ : User) : Prop where
  esp    : s₁.esp.toNat = frameAddr s
  saved  : Saved s₁.mem (frameAddr s) s.toCpu
  mapped : s₁.pages.CanWrite (frameAddr s) sizeofUTrapframe
  pages  : s₁.pages = s.pages
  own    : Own (enclosing s) s s₁

theorem storeScratch_cases (h : storeScratch s (utrapframeAddr s.esp).2 = some s') :
    s'.toCpu = s.toCpu ∧ s'.pages = s.pages ∧ ∀ x, enclosing s ≤ x → s'.mem x = s.mem x := by
  rw [storeScratch] at h
  split at h
  case isFalse =>
    cases h
    exact ⟨rfl, rfl, fun _ _ => rfl⟩
  case isTrue hn =>
    obtain ⟨-, rfl⟩ := State.store_cases h
    have hn : Nested s := hn
    have hr := frameAddr_nested hn
    have h₄ : (s.esp - 4#32).toNat + 4 = s.esp.toNat := by
      rw [BitVec.toNat_sub, BitVec.toNat_ofNat]
      omega
    refine ⟨rfl, rfl, fun x hx => Memory.store32_of_not_mem (.inr ?_)⟩
    rw [enclosing_nested hn] at hx
    omega

theorem pushed (h : pageFaultHandler p f s = some s₁) : Pushed s s₁ := by
  rw [pageFaultHandler] at h
  simp only [Option.bind_eq_bind, Option.bind_eq_some_iff] at h
  obtain ⟨s', hs', h⟩ := h
  split at h
  case isFalse => cases h
  case isTrue hw =>
    cases h
    obtain ⟨hc, hp, hk⟩ := storeScratch_cases hs'
    constructor
    case esp    => rfl
    case saved  => exact saved_storeFrame
    case mapped => exact hw
    case pages  => exact hp
    case own    =>
      constructor
      case kept =>
        intro x hx _
        have hlt := (@frameAddr_lt s).left
        refine (storeFrame_of_not_mem (.inr ?_)).trans (hk x hx)
        rw [sizeofUTrapframe]
        exact Nat.le_trans hlt hx
      case system =>
        have hf : s'.eflags = s.eflags := congrArg Cpu.eflags hc
        exact congrArg Flags.system hf

-- What the call of the handler leaves.
theorem called (h : pgfaultUpcall p s₁ = some s₂) (ha : 8 ≤ s₁.esp.toNat) : s₂.pages = s₁.pages ∧
    s₂.eflags = s₁.eflags ∧ ∀ x, s₁.esp.toNat ≤ x → s₂.mem x = s₁.mem x := by
  simp only [pgfaultUpcall, State.call, Option.bind_eq_bind, Option.bind_eq_some_iff] at h
  obtain ⟨s₃, h₃, eax, -, s₄, h₄, h⟩ := h
  cases h
  have h₃ := State.pushl_cases h₃
  have h₄ := State.pushl_cases h₄
  subst h₃ h₄
  have hn : (s₁.esp - 4#32).toNat + 4 = s₁.esp.toNat := by
    rw [BitVec.toNat_sub, BitVec.toNat_ofNat]
    omega
  have hn' : (s₁.esp - 4#32 - 4#32).toNat + 8 = s₁.esp.toNat := by
    rw [BitVec.toNat_sub, BitVec.toNat_ofNat]
    omega
  refine ⟨rfl, rfl, fun x hx => ?_⟩
  refine (Memory.store32_of_not_mem (a := (s₁.esp - 4#32 - 4#32).toNat) (.inr (by omega))).trans ?_
  exact Memory.store32_of_not_mem (.inr (by omega))

theorem Own.trans {s'' : User} (h : Own c s s') (h' : Own c s' s'') : Own c s s'' where
  kept x h₁ h₂ := (h'.kept x h₁ h₂).trans (h.kept x h₁ h₂)
  system       := h'.system.trans h.system

theorem Own.mono {b : Nat} (h : Own c s s') (hc : c ≤ b) : Own b s s' where
  kept x h₁ h₂ := h.kept x (Nat.le_trans hc h₁) h₂
  system       := h.system

theorem frameAddr_ge : 8 ≤ frameAddr s := by
  have ht : UXSTACKTOP.toNat = 4005560320 := rfl
  by_cases h : Nested s
  case pos =>
    have hu := frameAddr_nested h
    have hn := nested_iff.mp h
    omega
  case neg =>
    have hu := frameAddr_top h
    omega

-- The C handler starts with all that the fault has saved.
structure Ready (s s₁ s₂ : User) : Prop extends Pushed s s₁ where
  own₂   : Own (enclosing s) s s₂
  pages₂ : s₂.pages = s.pages
  frame  : Memory.AgreeOn (frameAddr s) sizeofUTrapframe s₁.mem s₂.mem

theorem Entered.ready (h : Entered p f s s₁ s₂) : Ready s s₁ s₂ := by
  have hp := pushed h.push
  have hlt := (@frameAddr_lt s).left
  obtain ⟨hg, hf, hm⟩ := called h.call (hp.esp ▸ frameAddr_ge)
  rw [hp.esp] at hm
  constructor
  case toPushed => exact hp
  case own₂     =>
    refine hp.own.trans ⟨fun x h₁ _ => hm x (by omega), ?_⟩
    rw [hf]
  case pages₂   => exact hg.trans hp.pages
  case frame    => exact fun x h₁ _ => hm x h₁

-- Where the word below the `%esp` of the fault is.
theorem below (hb : t.pages.CanWrite (s.esp - 4#32).toNat 4) : (s.esp - 4#32).toNat + 4 = s.esp.toNat := by
  have hlt : (s.esp - 4#32).toNat + 4 ≤ UTOP.toNat := hb.le_top
  have ht : UTOP.toNat = 4005560320 := rfl
  rw [BitVec.toNat_sub, BitVec.toNat_ofNat] at hlt ⊢
  omega

-- It is outside of the frame, except at the top of the exception stack.
theorem below_disjoint (hb : t.pages.CanWrite (s.esp - 4#32).toNat 4) (hne : s.esp ≠ UXSTACKTOP) :
    (s.esp - 4#32).toNat + 4 ≤ frameAddr s ∨ frameAddr s + 52 ≤ (s.esp - 4#32).toNat := by
  have hn := below hb
  have hlt : (s.esp - 4#32).toNat + 4 ≤ UXSTACKTOP.toNat := hb.le_top
  by_cases h : Nested s
  case pos =>
    have hu := frameAddr_nested h
    omega
  case neg =>
    have hu := frameAddr_top h
    have hs := nested_iff.not.mp h
    have he : s.esp.toNat ≠ UXSTACKTOP.toNat := fun hc => hne (BitVec.eq_of_toNat_eq hc)
    omega

section Return

variable (hr : Ready s s₁ s₂) (ho : Own (enclosing s) s₂ t) (ht : Returned p s s₁ t)
include hr ho ht

theorem resume_pre : Saved t.mem (frameAddr s) s.toCpu ∧ t.pages.CanWrite (frameAddr s) sizeofUTrapframe ∧
    t.esp + 4#32 = BitVec.ofNat 32 (frameAddr s) ∧ t.eflags.system = s.eflags.system := by
  have hf := ht.frame
  have hw := ht.mapped
  have he : t.esp + 4#32 = s₁.esp := by rw [ht.esp, BitVec.sub_add_cancel]
  have hn : s₁.esp = BitVec.ofNat 32 (frameAddr s) := by rw [← hr.esp, BitVec.ofNat_toNat, BitVec.setWidth_eq]
  rw [hr.esp] at hf hw
  exact ⟨hr.saved.congr hf, hw, he.trans hn, ho.system.trans hr.own₂.system⟩

-- One fault.
theorem resume_transparent (hne : s.esp ≠ UXSTACKTOP) : ∃ s', resume p t = some s' ∧ Transparent s s' := by
  obtain ⟨hs, hw, he, hf⟩ := resume_pre hr ho ht
  have hd := below_disjoint ht.below hne
  have hb := below ht.below
  refine ⟨_, resume_restores hs hw he hf ht.below hd, rfl, fun x h₁ h₂ => ?_⟩
  by_cases h : Nested s
  case pos =>
    have hu := frameAddr_nested h
    have hk : t.mem x = s.mem x := (hr.own₂.trans ho).kept x h₁ h₂
    rw [enclosing_nested h] at h₁
    exact (resumed_of_le (by omega) (by omega)).trans hk
  case neg =>
    rw [enclosing_top h] at h₁
    omega

end Return

theorem Transparent.own (h : Transparent s s') (hc : enclosing s ≤ c) : Own c s s' where
  kept x h₁ h₂ := h.kept x (Nat.le_trans hc h₁) h₂
  system       := by
    have hf : s'.eflags = s.eflags := congrArg Cpu.eflags h.cpu
    rw [hf]

-- By induction on the run, and so on the depth of the faults: a handler that faults below its frame
-- goes on as if it had not.
theorem Runs.own_of_frame (h : Runs p c u s t) (hc : u + 52 ≤ c) (hu : u + 52 ≤ UXSTACKTOP.toNat) :
    Own c s t := by
  induction h
  case refl => exact ⟨fun _ _ _ => rfl, rfl⟩
  case own ho _ hi => exact ho.trans (hi hc hu)
  case fault inside le entered _ returned resumed _ hi₁ hi₂ =>
    rename_i s s₁ s₂ s₃ s' t _ _
    have hr := entered.ready
    have hf := @frameAddr_lt s
    have hlt : s.esp.toNat < UXSTACKTOP.toNat := by omega
    have hn : Nested s := nested_iff.mpr ⟨inside, hlt⟩
    have hne : s.esp ≠ UXSTACKTOP := fun he => Nat.ne_of_lt hlt (congrArg BitVec.toNat he)
    have ho := hi₁ (hr.esp ▸ hf.left) (hr.esp ▸ hf.right)
    obtain ⟨s'', hs, ht⟩ := resume_transparent hr ho returned hne
    obtain rfl : s' = s'' := Option.some.inj (resumed.symm.trans hs)
    refine (ht.own ?_).trans (hi₂ hc hu)
    rw [enclosing_nested hn]
    omega

namespace Ready

variable (hr : Ready s s₁ s₂)
include hr

theorem own_of_runs (h : Runs p (enclosing s) s₁.esp.toNat s₂ t) : Own (enclosing s) s₂ t := by
  have hf := @frameAddr_lt s
  exact h.own_of_frame (hr.esp ▸ hf.left) (hr.esp ▸ hf.right)

-- A handler may return at once.
theorem returns (hb : s.pages.CanWrite (s.esp - 4#32).toNat 4) :
    ∃ t, Runs p (enclosing s) s₁.esp.toNat s₂ t ∧ Returned p s s₁ t := by
  let t : User := { s₂ with eip := p.next, esp := s₁.esp - 4#32 }
  have ho : Own (enclosing s) s₂ t := ⟨fun _ _ _ => rfl, rfl⟩
  refine ⟨t, .own ho .refl, ?_⟩
  constructor
  case eip    => rfl
  case esp    => rfl
  case frame  => exact hr.esp ▸ hr.frame
  case mapped =>
    have hm := hr.mapped
    rw [hr.pages, ← hr.pages₂] at hm
    exact hr.esp ▸ hm
  case below  => exact hr.pages₂ ▸ hb

end Ready

section Top

variable (he : s.esp = UXSTACKTOP)
include he

theorem frameAddr_of_esp : (s.esp - 4#32).toNat = frameAddr s + 48 := by
  have hn : ¬Nested s := by
    rw [nested_iff, he]
    omega
  have hu := frameAddr_top hn
  have hb : (s.esp - 4#32).toNat = UXSTACKTOP.toNat - 4 := by
    rw [he]
    rfl
  omega

-- The upcall may go back to the last word of the frame.
theorem resume_transparent_top (hr : Ready s s₁ s₂) (ho : Own (enclosing s) s₂ t) (ht : Returned p s s₁ t)
    (hi : s.eip = UXSTACKTOP - 4#32) : ∃ s', resume p t = some s' ∧ Transparent s s' := by
  obtain ⟨hs, hw, he', hf⟩ := resume_pre hr ho ht
  have hd := frameAddr_of_esp he
  have hie : s.eip = s.esp - 4#32 := by rw [hi, he]
  have hc := hie ▸ ht.below.canRead
  have hl : (resumed t.mem (frameAddr s) s.toCpu).load32 s.eip.toNat = s.eip := by
    rw [resumed, ← hie]
    exact Memory.load32_store32_self
  refine ⟨⟨s.toCpu, resumed t.mem (frameAddr s) s.toCpu, t.pages⟩, ?_, rfl, fun x h₁ h₂ => ?_⟩
  · have hre : s.eip + 4#32 = s.esp := by rw [hie, BitVec.sub_add_cancel]
    rw [resume_lost hs hw he' hf ht.below hd, State.ret_of_canRead hc]
    simp only [hl, hre]
  · have hn : ¬Nested s := by
      rw [nested_iff, he]
      omega
    rw [enclosing_top hn] at h₁
    omega

-- Otherwise it does not go back, even from a handler that returns at once.
theorem not_handled (hr : Ready s s₁ s₂) (hi : s.eip ≠ UXSTACKTOP - 4#32) : ¬Handled p s s₁ s₂ := by
  intro h
  have hd := frameAddr_of_esp he
  have hb : s.pages.CanWrite (s.esp - 4#32).toNat 4 := by
    have hm := hr.mapped
    rw [hr.pages] at hm
    rw [hd]
    exact hm.mono (by omega) (Nat.le_refl _)
  obtain ⟨t, hrun, ht⟩ := hr.returns (p := p) hb
  obtain ⟨s', hs', htr⟩ := h t hrun ht
  obtain ⟨hs, hw, he', hf⟩ := resume_pre hr (hr.own_of_runs hrun) ht
  rw [resume_lost hs hw he' hf ht.below hd] at hs'
  have hesp : s'.esp = s.eip + 4#32 := State.ret_esp hs'
  have hcpu : s'.esp = s.esp := congrArg Cpu.esp htr.cpu
  refine hi ?_
  rw [← he, ← hcpu, hesp, BitVec.add_sub_cancel]

end Top

-- The upcall goes back to the fault, however deep the faults of the handler are, unless the stack is at
-- `UXSTACKTOP`: there the kernel reserves no word, and the return address overwrites the frame.
theorem pgfault_upcall_transparent (h : Entered p f s s₁ s₂) :
    Handled p s s₁ s₂ ↔ s.esp ≠ UXSTACKTOP ∨ s.eip = UXSTACKTOP - 4#32 := by
  have hr := h.ready
  constructor
  case mp =>
    intro hh
    by_contra hc
    rw [not_or, not_not] at hc
    exact not_handled hc.left hr hc.right hh
  case mpr =>
    intro hc t hrun ht
    have ho := hr.own_of_runs hrun
    by_cases he : s.esp = UXSTACKTOP
    case pos => exact resume_transparent_top he hr ho ht (hc.resolve_left (not_not.mpr he))
    case neg => exact resume_transparent hr ho ht he

namespace Sample

def image : Image where
  alu            := ⟨fun a b => a + b, fun a b => a - b⟩
  pgfaultUpcall  := 0x800020#32
  pgfaultHandler := 0x804000#32

-- Only the exception stack can be written.
def pages : X86.Pages UTOP.toNat where
  readable x := x < UTOP.toNat
  writable x := UXSTACKTOP.toNat - 4096 ≤ x && x < UXSTACKTOP.toNat
  read h     := decide_eq_true (of_decide_eq_true (Bool.and_eq_true_iff.mp h).right)
  lt_top h   := of_decide_eq_true (Bool.and_eq_true_iff.mp h).right

def user (esp : Word) : User where
  regs   := ⟨1, 2, 3, 4, 5, 6, 7⟩
  esp    := esp
  eip    := 0x800100#32
  eflags := ⟨0x202#32, rfl⟩
  mem    := fun _ => 0#8
  pages  := pages

def fault : Fault := ⟨0x400000#32, 6#32, 0#32⟩

theorem entered (esp : Word)
    (h : ((pageFaultHandler image fault (user esp)).bind (pgfaultUpcall image)).isSome) :
    ∃ s₁ s₂, Entered image fault (user esp) s₁ s₂ := by
  obtain ⟨s₂, hs⟩ := Option.isSome_iff_exists.mp h
  obtain ⟨s₁, h₁, h₂⟩ := Option.bind_eq_some_iff.mp hs
  exact ⟨s₁, s₂, h₁, h₂⟩

end Sample

theorem pgfault_upcall_transparent_nested : ∃ s₁ s₂ t s',
    Entered Sample.image Sample.fault (Sample.user (UXSTACKTOP - 80#32)) s₁ s₂ ∧
      Returned Sample.image (Sample.user (UXSTACKTOP - 80#32)) s₁ t ∧ resume Sample.image t = some s' ∧
        Transparent (Sample.user (UXSTACKTOP - 80#32)) s' := by
  obtain ⟨s₁, s₂, h⟩ := Sample.entered (UXSTACKTOP - 80#32) (by decide +kernel)
  obtain ⟨t, hrun, ht⟩ := h.ready.returns (p := Sample.image) (by decide)
  obtain ⟨s', hs, htr⟩ := (pgfault_upcall_transparent h).mpr (.inl (by decide)) t hrun ht
  exact ⟨s₁, s₂, t, s', h, ht, hs, htr⟩

-- At the top of the exception stack, the upcall is not transparent.
theorem not_pgfault_upcall_transparent : ¬∀ {p f s s₁ s₂},
    UXSTACKTOP.toNat - 4096 + 56 ≤ s.esp.toNat → s.esp.toNat ≤ UXSTACKTOP.toNat →
      Entered p f s s₁ s₂ → Handled p s s₁ s₂ := by
  intro hh
  obtain ⟨s₁, s₂, h⟩ := Sample.entered UXSTACKTOP (by decide +kernel)
  exact not_handled rfl h.ready (by decide) (hh (by decide) (by decide) h)

end Lib.Pfentry

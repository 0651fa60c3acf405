import Sisop.Kern.Console
import Sisop.Kern.Theorems.Sample

-- Console input.

namespace Kern

open Inc Function Library

variable {m : Machine} {cons : Cons} {cs serial kbd : List (BitVec 8)} {c : BitVec 8} {r : Word}
  {s s' : ConsState} {ev : ConsEvent}

theorem stored_append {cs' : List (BitVec 8)} : stored (cs ++ cs') = stored cs ++ stored cs' := by
  simp [stored]

theorem consChar_contents (h : cons.length + (stored [c]).length < CONSBUFSIZE) :
    (consChar cons c).contents = cons.contents ++ stored [c] := by
  simp only [consChar]
  split
  case isTrue hc  => simp [stored, hc]
  case isFalse hc =>
    have hs : stored [c] = [c] := by simp [stored, hc]
    rw [hs] at h ⊢
    exact Ring.contents_put h

-- As long as there is room, what arrives is stored.
theorem consIntr_contents (h : cons.length + (stored cs).length < CONSBUFSIZE) :
    (consIntr cons cs).contents = cons.contents ++ stored cs := by
  induction cs generalizing cons
  case nil => simp [consIntr, stored]
  case cons c cs hi =>
    have hcs : stored (c :: cs) = stored [c] ++ stored cs := by
      rw [← stored_append, List.singleton_append]
    rw [hcs, List.length_append] at h
    have hc : (consChar cons c).contents = cons.contents ++ stored [c] :=
      consChar_contents (by omega)
    have hl : (consChar cons c).length = cons.length + (stored [c]).length := by
      rw [← Ring.contents_length, hc, List.length_append, Ring.contents_length]
    have : (consIntr (consChar cons c) cs).contents = (consChar cons c).contents ++ stored cs :=
      hi (by omega)
    rw [hcs, ← List.append_assoc, ← hc, ← this]
    rfl

theorem consIntr_eq_self (h : stored cs = []) : consIntr cons cs = cons := by
  induction cs generalizing cons
  case nil => rfl
  case cons c cs hi =>
    have hcs : stored (c :: cs) = stored [c] ++ stored cs := by
      rw [← stored_append, List.singleton_append]
    rw [hcs, List.append_eq_nil_iff] at h
    have hc : c = 0#8 := by
      by_contra hc
      simp [stored, hc] at h
    have : consChar cons c = cons := by simp [consChar, hc]
    show consIntr (consChar cons c) cs = cons
    rw [this, hi h.right]

theorem consGetc_intr (h : cons.length + (stored (serial ++ kbd)).length < CONSBUFSIZE) :
    (consIntr (consIntr cons serial) kbd).contents = cons.contents ++ stored (serial ++ kbd) := by
  rw [stored_append, List.length_append] at h
  have hs : (consIntr cons serial).contents = cons.contents ++ stored serial :=
    consIntr_contents (by omega)
  have hl : (consIntr cons serial).length = cons.length + (stored serial).length := by
    rw [← Ring.contents_length, hs, List.length_append, Ring.contents_length]
  rw [consIntr_contents (by omega), hs, stored_append, List.append_assoc]

-- Characters as results of `cons_getc`.
def chars (cs : List (BitVec 8)) : List Word := cs.map (·.zeroExtend 32)

theorem chars_append {cs' : List (BitVec 8)} : chars (cs ++ cs') = chars cs ++ chars cs' :=
  List.map_append

theorem zeroExtend_ne_zero (h : c ≠ 0#8) : c.zeroExtend 32 ≠ 0#32 := by
  intro hc
  refine h (BitVec.eq_of_toNat_eq ?_)
  have := congrArg BitVec.toNat hc
  have := c.isLt
  simp only [BitVec.truncate_eq_setWidth, BitVec.toNat_setWidth, BitVec.toNat_ofNat] at *
  omega

-- What `cons_getc` returns was at the front, and is 0 only if nothing was there.
theorem consGetc_eq {cons' : Cons} (h : cons.length + (stored (serial ++ kbd)).length < CONSBUFSIZE)
    (h0 : ∀ c ∈ cons.contents ++ stored (serial ++ kbd), c ≠ 0#8)
    (hr : consGetc cons serial kbd = (r, cons')) :
    chars (cons.contents ++ stored (serial ++ kbd)) =
      (if r ≠ 0#32 then [r] else []) ++ chars cons'.contents := by
  have hc := consGetc_intr h
  simp only [consGetc] at hr
  cases hg : (consIntr (consIntr cons serial) kbd).get <;> simp only [hg, Prod.mk.injEq] at hr
  case none =>
    have he := Ring.get_eq_none.mp hg
    rw [hc] at he
    obtain ⟨rfl, rfl⟩ := hr
    simp [hc, he]
  case some x =>
    obtain ⟨rfl, rfl⟩ := hr
    have he : _ = x.fst :: x.snd.contents := Ring.contents_get hg
    rw [hc] at he
    have hx : x.fst ≠ 0#8 := h0 _ (he ▸ List.mem_cons_self)
    rw [he, if_pos (zeroExtend_ne_zero hx)]
    rfl

theorem consGetc_empty (h : cons.contents = []) (hs : stored (serial ++ kbd) = []) :
    consGetc cons serial kbd = (0#32, cons) := by
  rw [stored_append, List.append_eq_nil_iff] at hs
  simp only [consGetc, consIntr_eq_self hs.left, consIntr_eq_self hs.right, Ring.get_eq_none.mpr h]

-- The system call `SYS_cgetc` returns what `cons_getc` does.
theorem trapUser_cgetc {k : State} {e : EnvPtr} {tf : Trapframe} {x : Exit} (hs : isSyscall k e tf)
    (hn : tf.tfRegs.regEax = SYS_cgetc) (h : trapUser m k e r tf = some x) : x.result = r := by
  simp only [isSyscall, Bool.and_eq_true, bne_iff_ne, beq_iff_eq] at hs
  obtain ⟨hd, ht⟩ := hs
  have h₁ : T_SYSCALL ≠ T_PGFLT := by decide
  have h₂ : T_SYSCALL ≠ T_BRKPT := by decide
  have h₃ : SYS_cgetc ≠ SYS_cputs := by decide
  simp only [trapUser, if_neg hd, trapDispatch, ht, if_neg h₁, if_neg h₂, if_true, hn, syscall,
    if_neg h₃, Option.bind_eq_bind, Option.bind_some, Option.some.injEq] at h
  rw [← h]
  rfl

-- Nothing is lost or stolen: what `SYS_cgetc` has returned, followed by what is pending, is what has
-- arrived.
structure InputKept (s : ConsState) : Prop where
  kept    : s.got ++ chars s.cons.contents = chars (stored s.arrived)
  nonzero : ∀ c ∈ s.cons.contents, c ≠ 0#8

theorem stored_ne_zero (h : c ∈ stored cs) : c ≠ 0#8 := by
  simpa using (List.mem_filter.mp h).right

theorem trapGetc_cases {k : State} {e : EnvPtr} {tf : Trapframe} (h : trapGetc m k e tf) :
    isSyscall k e tf ∧ (tf.tfRegs.regEax = SYS_cgetc ∨ tf.tfRegs.regEax = SYS_cputs) := by
  simp only [trapGetc, Bool.and_eq_true, callsGetc] at h
  refine ⟨h.left, ?_⟩
  have h := h.right
  split at h
  case isTrue hn  => exact .inl hn
  case isFalse =>
    split at h
    case isTrue hn => exact .inr hn
    case isFalse   => cases h

theorem trapGetc_of_cgetc {k : State} {e : EnvPtr} {tf : Trapframe} (h : isSyscall k e tf)
    (hn : tf.tfRegs.regEax = SYS_cgetc) : trapGetc m k e tf := by
  simp [trapGetc, h, callsGetc, hn]

-- A trap that is not the system call `SYS_cgetc` takes nothing.
theorem trap_cons {e : EnvPtr} {tf : Trapframe} {x : Exit}
    (q : PutsQuietly m s (.trap e serial kbd tf))
    (hn : ¬(isSyscall s.kern e tf ∧ tf.tfRegs.regEax = SYS_cgetc)) :
    (s.trap m e serial kbd tf x).cons = s.cons ∧
      stored (s.trap m e serial kbd tf x).arrived = stored s.arrived := by
  simp only [ConsState.trap]
  split
  case isFalse    => exact ⟨rfl, rfl⟩
  case isTrue hg  =>
    obtain ⟨hs, hp⟩ := trapGetc_cases hg
    obtain ⟨hc, hst⟩ := q hg (hp.resolve_left fun hp => hn ⟨hs, hp⟩)
    simp only [consGetc_empty hc hst, List.append_assoc, stored_append] at hst ⊢
    simp [hst]

-- What one step preserves.
theorem InputKept.step (i : InputKept s) (g : Fits m s ev) (q : PutsQuietly m s ev)
    (h : s.next m ev = some s') : InputKept s' := by
  cases ev
  case intr cs =>
    cases h
    have hc := consIntr_contents g
    refine ⟨?_, fun c hmem => ?_⟩
    · rw [hc, chars_append, ← List.append_assoc, i.kept, stored_append, chars_append]
    · rw [hc] at hmem
      rcases List.mem_append.mp hmem with hmem | hmem
      · exact i.nonzero c hmem
      · exact stored_ne_zero hmem
  case run =>
    obtain ⟨_, _, rfl⟩ := Option.map_eq_some_iff.mp h
    exact ⟨i.kept, i.nonzero⟩
  case trap e serial kbd tf =>
    obtain ⟨x, hx, rfl⟩ := Option.map_eq_some_iff.mp h
    by_cases hn : isSyscall s.kern e tf ∧ tf.tfRegs.regEax = SYS_cgetc
    case neg =>
      obtain ⟨hc, ha⟩ := trap_cons (x := x) q hn
      have hgot : (s.trap m e serial kbd tf x).got = s.got := by
        have hn' : ¬(isSyscall s.kern e tf ∧ tf.tfRegs.regEax = SYS_cgetc ∧ x.result ≠ 0#32) :=
          fun h => hn ⟨h.left, h.right.left⟩
        simp only [ConsState.trap, if_neg hn', List.append_nil]
        split <;> rfl
      exact ⟨by rw [hc, ha, hgot, i.kept], hc ▸ i.nonzero⟩
    case pos =>
      obtain ⟨hs, hn⟩ := hn
      have hg : trapGetc m s.kern e tf := trapGetc_of_cgetc hs hn
      cases hr : consGetc s.cons serial kbd with | mk r cons' =>
      rw [hr] at hx
      have h0 : ∀ c ∈ s.cons.contents ++ stored (serial ++ kbd), c ≠ 0#8 := by
        intro c hc
        rcases List.mem_append.mp hc with hc | hc
        · exact i.nonzero c hc
        · exact stored_ne_zero hc
      have heq := consGetc_eq (g hg) h0 hr
      have hnew : ∀ c ∈ cons'.contents, c ≠ 0#8 := by
        intro c hc hz
        have hmem : c.zeroExtend 32 ∈ chars (s.cons.contents ++ stored (serial ++ kbd)) :=
          heq ▸ List.mem_append_right _ (List.mem_map_of_mem hc)
        obtain ⟨c', hc', he⟩ := List.mem_map.mp hmem
        exact zeroExtend_ne_zero (h0 c' hc') (he.trans (by rw [hz]; rfl))
      have hres : x.result = r := trapUser_cgetc hs hn hx
      simp only [ConsState.trap, hg, hs, hn, hres, hr, if_true, true_and]
      refine ⟨?_, hnew⟩
      have ha : stored (s.arrived ++ serial ++ kbd) = stored s.arrived ++ stored (serial ++ kbd) := by
        rw [List.append_assoc, stored_append]
      rw [List.append_assoc, ← heq, chars_append, ← List.append_assoc, i.kept, ← chars_append]
      exact congrArg chars ha.symm

-- Console input is kept, and only `SYS_cgetc` takes any.
structure InputLaw (m : Machine) (guard : ConsState → ConsEvent → Prop) (s : ConsState) : Prop where
  kept : InputKept s
  cons : ∀ {e serial kbd tf s'}, guard s (.trap e serial kbd tf) →
    s.next m (.trap e serial kbd tf) = some s' →
      ¬(isSyscall s.kern e tf ∧ tf.tfRegs.regEax = SYS_cgetc) → s'.cons = s.cons

-- As long as `SYS_cputs` is only called when there is no input, input is neither lost nor stolen.
theorem input_law (r : ConsReachable m (fun s ev => Fits m s ev ∧ PutsQuietly m s ev) s) :
    InputLaw m (fun s ev => Fits m s ev ∧ PutsQuietly m s ev) s := by
  obtain ⟨_, _, s₁, _, _, r⟩ := r
  have h0 : InputKept ⟨s₁, .zero, [], []⟩ := ⟨rfl, nofun⟩
  refine ⟨r.invariant h0 fun i g h => i.step g.left g.right h, fun g h hn => ?_⟩
  obtain ⟨x, _, rfl⟩ := Option.map_eq_some_iff.mp h
  exact (trap_cons g.right hn).left

section Sample

instance : Decidable (Fits m s ev) := by
  cases ev
  · exact inferInstanceAs (Decidable (_ < _))
  · exact inferInstanceAs (Decidable (_ → _))
  · exact inferInstanceAs (Decidable True)

instance : Decidable (PutsQuietly m s ev) := by
  cases ev
  · exact inferInstanceAs (Decidable True)
  · exact inferInstanceAs (Decidable (_ → _ → _ ∧ _))
  · exact inferInstanceAs (Decidable True)

theorem consReachable_follow (guard : ConsState → ConsEvent → Prop) [∀ s ev, Decidable (guard s ev)]
    {P : ConsState → Prop} [DecidablePred P] (evs : List ConsEvent)
    (h : (Sample.start.bind fun k =>
      Run.follow (ConsState.next Sample.machine) guard ⟨k, .zero, [], []⟩ evs).any (decide <| P ·)) :
    ∃ s, ConsReachable Sample.machine guard s ∧ P s := by
  obtain ⟨s, hs, hp⟩ := (Option.any_eq_true _ _).mp h
  obtain ⟨k, hk, hr⟩ := Option.bind_eq_some_iff.mp hs
  exact ⟨s, ⟨_, _, k, Sample.boot_boot, Sample.start_eq ▸ hk, Run.of_follow id hr⟩,
    of_decide_eq_true hp⟩

-- One of two characters is read.
theorem input_law_cgetc : ∃ s,
    ConsReachable Sample.machine (fun s ev => Fits Sample.machine s ev ∧ PutsQuietly Sample.machine s ev) s ∧
      s.got = [0x61#32] ∧
      InputLaw Sample.machine (fun s ev => Fits Sample.machine s ev ∧ PutsQuietly Sample.machine s ev) s := by
  obtain ⟨s, hr, hg⟩ := consReachable_follow
    (fun s ev => Fits Sample.machine s ev ∧ PutsQuietly Sample.machine s ev)
    (P := fun s => s.got = [0x61#32])
    [.run none Sample.fs 0, .intr [0x61#8], .trap Sample.fs [] [0x62#8] (Sample.call SYS_cgetc 0 0 0 0 0)]
    (by decide +kernel)
  exact ⟨s, hr, hg, input_law hr⟩

-- `SYS_cputs` of an empty string takes the character that is pending.
theorem not_input_law : ¬∀ {m s}, ConsReachable m (Fits m) s → InputLaw m (Fits m) s := by
  intro h
  obtain ⟨s, hr, hg, hc, ha⟩ := consReachable_follow (Fits Sample.machine)
    (P := fun s => s.got = [] ∧ s.cons.contents = [] ∧ s.arrived = [0x61#8])
    [.run none Sample.fs 0, .intr [0x61#8], .trap Sample.fs [] [] (Sample.call SYS_cputs 0 0 0 0 0)]
    (by decide +kernel)
  have hk := (h hr).kept.kept
  rw [hg, hc, ha] at hk
  simp [chars, stored] at hk

end Sample

end Kern

import Sisop.Fs.Theorems.Reach
import Sisop.Fs.Sample

namespace Fs

open Inc Library

-- A file whose blocks are its own, and whose `struct File` is in none of them.
structure Sound (m : Memory) (f : Nat) : Prop where
  owned : Owned m {f}
  apart : Apart m f {f}

-- The code that a request returns, and the memory that it leaves.
def returned : Outcome Memory Nat (Word × List Chunk) → Option (Word × Memory)
  | .panic      => none
  | .error e m  => some (err e, m)
  | .ok (r, _) m => some (r, m)

-- A request at a negative position is refused; what is copied and what changes belongs to `f`; not more
-- bytes are reported than have been copied.
structure Confined (m : Memory) (f : Nat) (offset : Word)
    (x : Outcome Memory Nat (Word × List Chunk)) : Prop where
  refused : offset.slt 0#32 → ∃ r, returned x = some (r, m) ∧ negative r
  copied  : ∀ {r cs m'}, x = .ok (r, cs) m' → ∀ c ∈ cs, ∀ a, c.addr ≤ a → a < c.addr + c.len →
    Data m' f a
  changed : ∀ {r m'}, returned x = some (r, m') → ∀ a, m' a ≠ m a → Own m f a ∨ Own m' f a
  count   : ∀ {r cs m'}, x = .ok (r, cs) m' → r.toInt ≤ ((cs.map (·.len)).sum : Nat)

-- At a negative position, a transfer stays in place where its first block number is out of range, or
-- where it copies nothing and its count is negative as an `int`.
def Refuses (offset count : Word) : Prop :=
  offset.toNat ≤ 4294963200 ∧ 0 < count.toNat ∧ offset.toNat + count.toNat < 4294967296 ∨
    negative count

def ReadRefuses (m : Memory) (f : Nat) (count offset : Word) : Prop :=
  offset.slt (m.load32 (fSize f)) ∧ Refuses offset (umin count (m.load32 (fSize f) - offset))

def WriteRefuses (m : Memory) (f : Nat) (count offset : Word) : Prop :=
  ¬m.load32 (fSize f) < offset + count ∧ Refuses offset count

variable {m m' m₁ : Memory} {f n : Nat} {pos stop offset count v : Word} {cs : List Chunk}
  {buf : Nat → BitVec 8} {x : Outcome Memory Nat (Word × List Chunk)}

theorem slt_zero : v.slt 0#32 ↔ 2147483648 ≤ v.toNat := by
  rw [BitVec.slt_zero_eq_msb, BitVec.msb_eq_decide, decide_eq_true_iff]

theorem negative_iff : negative v ↔ 2147483648 ≤ v.toNat := by
  rw [negative, BitVec.msb_eq_decide, decide_eq_true_iff]

theorem Covers.data {p a : Nat} {c : Chunk} (h : Covers m f p n cs) (hc : c ∈ cs) (h₁ : c.addr ≤ a)
    (h₂ : a < c.addr + c.len) : Data m f a := by
  induction h
  case nil => cases hc
  case cons hk h₀ ha _ hl _ hi =>
    rcases List.mem_cons.mp hc with rfl | hc
    · refine ⟨_, hk, h₀, ?_⟩
      simp only [InBlock, BLKSIZE] at *
      omega
    · exact hi hc

section Negative

variable (hneg : 2147483648 ≤ pos.toNat)

include hneg

theorem sdiv_negative : (pos.sdiv 4096#32).toNat =
    (4294967296 - (4294967296 - pos.toNat) / 4096) % 4294967296 := by
  have hm : pos.msb = true := by
    rw [BitVec.msb_eq_decide, decide_eq_true_iff]
    exact hneg
  have := pos.isLt
  rw [BitVec.sdiv_eq, hm, show (4096#32).msb = false by decide]
  simp only [BitVec.toNat_neg, BitVec.udiv_eq, BitVec.toNat_udiv, BitVec.toNat_ofNat, Nat.reducePow,
    Nat.reduceMod]
  omega

theorem srem_negative (h : 4294963200 < pos.toNat) : pos.srem 4096#32 = pos := by
  have hm : pos.msb = true := by
    rw [BitVec.msb_eq_decide, decide_eq_true_iff]
    exact hneg
  have := pos.isLt
  apply BitVec.eq_of_toNat_eq
  rw [BitVec.srem_eq, hm, show (4096#32).msb = false by decide]
  simp only [BitVec.toNat_neg, BitVec.toNat_umod, BitVec.toNat_ofNat, Nat.reducePow, Nat.reduceMod]
  omega

theorem chunkLen_negative (h : 4294963200 < pos.toNat) (hlt : pos < stop) :
    pos + chunkLen stop pos = stop := by
  have h₁ := stop.isLt
  have h₂ : pos.toNat < stop.toNat := hlt
  have hl : chunkLen stop pos = stop - pos := by
    apply BitVec.eq_of_toNat_eq
    rw [chunkLen, srem_negative hneg h, umin_toNat, BitVec.toNat_sub, BitVec.toNat_sub]
    simp only [BitVec.toNat_ofNat]
    omega
  rw [hl, BitVec.add_comm, BitVec.sub_add_cancel]

theorem getBlock_negative {S : Set Nat} (o : Owned m S) (hf : f ∈ S) :
    (fileGetBlock f (pos.sdiv 4096#32).toNat).wp (4294963200 < pos.toNat)
      (fun e m' => e = E_INVAL ∧ m' = m ∧ pos.toNat ≤ 4294963200)
      (fun _ _ => 4294963200 < pos.toNat) m := by
  have hd := sdiv_negative hneg
  have hI := INDIRECT_eq
  have := pos.isLt
  refine (fileGetBlock_wp o hf).mono ?_ ?_ ?_
  · rintro ⟨hk, -⟩
    omega
  · rintro e m' ⟨rfl, ⟨rfl, h⟩ | ⟨-, h, hk, -⟩⟩
    · exact ⟨rfl, rfl, by omega⟩
    · rw [NDIRECT] at h
      omega
  · rintro _ m' ⟨g, -⟩
    have := g.lt
    omega

theorem readLoop_negative (o : Owned m {f}) (hlt : pos < stop) :
    (readLoop f stop (n + 2) pos).wp (4294963200 < pos.toNat)
      (fun e m' => e = E_INVAL ∧ m' = m ∧ pos.toNat ≤ 4294963200)
      (fun _ _ => 4294963200 < pos.toNat) m := by
  rw [readLoop, if_pos hlt, Prog.wp_bind]
  refine (getBlock_negative hneg o rfl).mono id (fun _ _ h => h) fun _ m₁ h => ?_
  rw [Prog.wp_bind, Prog.wp_get, chunkLen_negative hneg h hlt, readLoop,
    if_neg (by rw [BitVec.lt_def]; omega)]
  exact h

theorem writeLoop_negative (o : Owned m {f}) (hlt : pos < stop) :
    (writeLoop f stop (n + 2) buf pos).wp (4294963200 < pos.toNat)
      (fun e m' => e = E_INVAL ∧ m' = m ∧ pos.toNat ≤ 4294963200)
      (fun _ _ => 4294963200 < pos.toNat) m := by
  rw [writeLoop, if_pos hlt, Prog.wp_bind]
  refine (getBlock_negative hneg o rfl).mono id (fun _ _ h => h) fun _ m₁ h => ?_
  rw [Prog.wp_bind, Prog.wp_get]
  simp only [Prog.wp_bind, Prog.wp_modify]
  rw [chunkLen_negative hneg h hlt, writeLoop, if_neg (by rw [BitVec.lt_def]; omega)]
  exact h

end Negative

section Refused

variable {l : FsProg (List Chunk)} (hneg : 2147483648 ≤ offset.toNat)

include hneg

-- A request that returns without having done anything.
theorem confined_nil : Confined m f offset (.ok (count, []) m) ↔ negative count := by
  constructor
  case mp =>
    intro h
    obtain ⟨r, hr, hn⟩ := h.refused (slt_zero.mpr hneg)
    cases hr
    exact hn
  case mpr =>
    intro h
    constructor
    case refused => exact fun _ => ⟨count, rfl, h⟩
    case copied =>
      intro _ _ _ hx _ hc
      cases hx
      cases hc
    case changed =>
      intro _ _ hx a ha
      cases hx
      exact absurd rfl ha
    case count =>
      intro _ _ _ hx
      cases hx
      rw [negative_iff] at h
      rw [BitVec.toInt_eq_toNat_cond]
      have := count.isLt
      simp only [List.map_nil, List.sum_nil]
      omega

theorem confined_loop (hc : ¬negative count)
    (hl : l.wp (4294963200 < offset.toNat)
      (fun e m' => e = E_INVAL ∧ m' = m ∧ offset.toNat ≤ 4294963200)
      (fun _ _ => 4294963200 < offset.toNat) m) :
    Confined m f offset ((l >>= fun cs => pure (count, cs)) m) ↔ offset.toNat ≤ 4294963200 := by
  simp only [Prog.wp] at hl
  simp only [bind]
  cases hx : l m
  case panic =>
    simp only [hx] at hl
    refine ⟨fun h => ?_, fun h => by omega⟩
    obtain ⟨r, hr, -⟩ := h.refused (slt_zero.mpr hneg)
    cases hr
  case error e m' =>
    simp only [hx] at hl
    obtain ⟨rfl, rfl, hle⟩ := hl
    refine ⟨fun _ => hle, fun _ => ?_⟩
    constructor
    case refused => exact fun _ => ⟨_, rfl, by decide⟩
    case copied => exact fun h => by cases h
    case changed =>
      intro _ _ h a ha
      cases h
      exact absurd rfl ha
    case count => exact fun h => by cases h
  case ok cs m' =>
    simp only [hx] at hl
    refine ⟨fun h => ?_, fun h => by omega⟩
    obtain ⟨r, hr, hn⟩ := h.refused (slt_zero.mpr hneg)
    cases hr
    exact absurd hn hc

-- A request that changes the memory, or does not return a negative code.
theorem not_confined {y : FsProg (Word × List Chunk)}
    (hy : y.wp True (fun _ m' => m' ≠ m) (fun r m' => m' ≠ m ∨ ¬negative r.1) m₁) :
    ¬Confined m f offset (y m₁) := by
  intro h
  obtain ⟨r, hr, hn⟩ := h.refused (slt_zero.mpr hneg)
  simp only [Prog.wp] at hy
  cases hx : y m₁
  case panic =>
    rw [hx] at hr
    cases hr
  case error e m' =>
    rw [hx] at hr
    simp only [hx] at hy
    cases hr
    exact hy rfl
  case ok p m' =>
    rw [hx] at hr
    simp only [hx] at hy
    cases hr
    exact hy.elim (fun h => h rfl) fun h => h hn

end Refused

theorem fuel_eq (h : pos < stop) : fuel stop pos = (stop - pos).toNat - 1 + 2 := by
  have h₁ : pos.toNat < stop.toNat := h
  rw [fuel, BitVec.toNat_sub]
  omega

theorem lt_add_iff : offset < offset + count ↔
    0 < count.toNat ∧ offset.toNat + count.toNat < 4294967296 := by
  rw [BitVec.lt_def, BitVec.toNat_add]
  omega

theorem read_negative (h : Sound m f) (hneg : 2147483648 ≤ offset.toNat) :
    Confined m f offset (fileRead f count offset m) ↔ ReadRefuses m f count offset := by
  have hle : (m.load32 (fSize f)).sle offset = !offset.slt (m.load32 (fSize f)) :=
    BitVec.sle_eq_not_slt ..
  by_cases hs : offset.slt (m.load32 (fSize f))
  case neg =>
    have he : fileRead f count offset m = .ok (0#32, []) m := by
      show (if (m.load32 (fSize f)).sle offset then pure (0#32, []) else _ : FsProg _) m = _
      rw [if_pos (by simpa [hle] using hs)]
      rfl
    rw [he, confined_nil hneg, ReadRefuses]
    exact iff_of_false (by decide) fun h => hs h.1
  have he : fileRead f count offset m =
      (readLoop f (offset + umin count (m.load32 (fSize f) - offset))
        (fuel (offset + umin count (m.load32 (fSize f) - offset)) offset) offset >>=
          fun cs => pure (umin count (m.load32 (fSize f) - offset), cs)) m := by
    show (if (m.load32 (fSize f)).sle offset then pure (0#32, []) else _ : FsProg _) m = _
    rw [if_neg (by simp [hle, hs])]
  rw [he, ReadRefuses, and_iff_right hs, Refuses]
  generalize umin count (m.load32 (fSize f) - offset) = c
  by_cases hlt : offset < offset + c
  · have h₁ := lt_add_iff.mp hlt
    have hc : ¬negative c := by
      rw [negative_iff]
      omega
    rw [fuel_eq hlt, confined_loop hneg hc (readLoop_negative hneg h.owned hlt), or_iff_left hc,
      and_iff_left h₁]
  · have h₁ := mt lt_add_iff.mpr hlt
    have hx : (readLoop f (offset + c) (fuel (offset + c) offset) offset >>=
        fun cs => pure (c, cs) : FsProg _) m = .ok (c, []) m := by
      rw [fuel, readLoop, if_neg hlt]
      rfl
    rw [hx, confined_nil hneg, or_iff_right fun h => h₁ h.2]

theorem fileWrite_eq : fileWrite f buf count offset m =
    ((if m.load32 (fSize f) < offset + count then fileSetSize f (offset + count) else pure ()) >>=
      fun _ => writeLoop f (offset + count) (fuel (offset + count) offset) buf offset >>=
        fun cs => pure (count, cs)) m := by
  show (if m.load32 (fSize f) < offset + count then _ else _ : FsProg _) m = _
  split <;> rfl

theorem write_negative (h : Sound m f) (hneg : 2147483648 ≤ offset.toNat) :
    Confined m f offset (fileWrite f buf count offset m) ↔ WriteRefuses m f count offset := by
  rw [fileWrite_eq]
  by_cases hs : m.load32 (fSize f) < offset + count
  case pos =>
    rw [if_pos hs, WriteRefuses]
    refine iff_of_false (not_confined hneg ?_) fun h => h.1 hs
    rw [Prog.wp_bind]
    refine (fileSetSize_wp h.owned rfl h.apart).mono (fun _ => trivial) (fun _ _ h => h.elim) ?_
    intro _ m₁ h₁
    have hne : m₁ ≠ m := by
      rintro rfl
      rw [h₁.2.2.1, BitVec.lt_def] at hs
      omega
    by_cases hlt : offset < offset + count
    · have hc := lt_add_iff.mp hlt
      rw [Prog.wp_bind, fuel_eq hlt]
      refine (writeLoop_negative hneg h₁.1 hlt).mono (fun _ => trivial) ?_ ?_
      · rintro _ _ ⟨-, rfl, -⟩
        exact hne
      · have hn : ¬negative count := by
          rw [negative_iff]
          omega
        exact fun _ _ _ => .inr hn
    · rw [Prog.wp_bind, fuel, writeLoop, if_neg hlt]
      exact .inl hne
  case neg =>
    rw [if_neg hs, WriteRefuses, and_iff_right hs, Refuses]
    have hp {α : Type} {y : FsProg α} : ((pure () : FsProg Unit) >>= fun _ => y) m = y m := rfl
    rw [hp]
    by_cases hlt : offset < offset + count
    · have h₁ := lt_add_iff.mp hlt
      have hc : ¬negative count := by
        rw [negative_iff]
        omega
      rw [fuel_eq hlt, confined_loop hneg hc (writeLoop_negative hneg h.owned hlt), or_iff_left hc,
        and_iff_left h₁]
    · have h₁ := mt lt_add_iff.mpr hlt
      have hx : (writeLoop f (offset + count) (fuel (offset + count) offset) buf offset >>=
          fun cs => pure (count, cs) : FsProg _) m = .ok (count, []) m := by
        rw [fuel, writeLoop, if_neg hlt]
        rfl
      rw [hx, confined_nil hneg, or_iff_right fun h => h₁ h.2]

section NotNegative

theorem Writes.changed {S : Set Nat} {X : Nat → Prop} {a : Nat} (h : Writes S X m f m')
    (hX : ∀ a, X a → Data m' f a) (ha : m' a ≠ m a) : Data m' f a ∨ Table m' f a := by
  by_contra hc
  rw [not_or] at hc
  exact ha (h.grown.bytes a hc.2 fun hx => hc.1 (hX a hx))

theorem read_confined (h : Sound m f) (hpos : offset.toNat < 2147483648) :
    Confined m f offset (fileRead f count offset m) := by
  have hr : (fileRead f count offset).wp True
      (fun _ m' => Reads {f} m f m')
      (fun r m' => Reads {f} m f m' ∧ ∃ p n, Covers m' f p n r.2 ∧ r.1.toInt ≤ n) m := by
    rw [fileRead, Prog.wp_bind, Prog.wp_get, Prog.wp_ite]
    refine ⟨fun _ => ⟨.refl h.owned h.apart, 0, 0, .nil, le_rfl⟩, fun hs => ?_⟩
    have hle : offset.slt (m.load32 (fSize f)) := by
      rw [BitVec.sle_eq_not_slt] at hs
      simpa using hs
    have hstop : (offset + umin count (m.load32 (fSize f) - offset)).toNat =
        offset.toNat + (umin count (m.load32 (fSize f) - offset)).toNat ∧
        offset.toNat + (umin count (m.load32 (fSize f) - offset)).toNat < 2147483648 := by
      rw [BitVec.slt_eq_decide, decide_eq_true_iff, BitVec.toInt_eq_toNat_cond,
        BitVec.toInt_eq_toNat_cond] at hle
      rw [BitVec.toNat_add, umin_toNat, BitVec.toNat_sub]
      have := (m.load32 (fSize f)).isLt
      omega
    generalize umin count (m.load32 (fSize f) - offset) = c at hstop ⊢
    rw [Prog.wp_bind]
    refine (readLoop_wp h.owned h.apart rfl hpos ?_).mono (fun _ => trivial) (fun _ _ h => h.1) ?_
    · rw [fuel, BitVec.toNat_sub]
      omega
    · rintro cs m' ⟨hr, hc, -⟩
      refine ⟨hr, _, _, hc, ?_⟩
      show c.toInt ≤ _
      rw [BitVec.toInt_eq_toNat_cond]
      omega
  constructor
  case refused => exact fun hn => absurd (slt_zero.mp hn) (by omega)
  case copied =>
    intro r cs m' hx c hc a h₁ h₂
    obtain ⟨-, p, n, hcov, -⟩ := hr.ok hx
    exact hcov.data hc h₁ h₂
  case changed =>
    intro r m' hx a ha
    have hrd : Reads {f} m f m' := by
      simp only [Prog.wp] at hr
      revert hx hr
      cases fileRead f count offset m <;> intro hr hx <;> cases hx
      · exact hr
      · exact hr.1
    exact .inr ((hrd.writes.changed (fun _ => id) ha).imp_right .inr)
  case count =>
    intro r cs m' hx
    obtain ⟨-, p, n, hcov, hle⟩ := hr.ok hx
    rw [hcov.length]
    exact hle

theorem fileSetSize_own (h : Sound m f) : (fileSetSize f v).wp False (fun _ _ => False)
    (fun _ m' => Sound m' f ∧ ∀ a, m' a ≠ m a → Own m f a) m := by
  refine (fileSetSize_wp h.owned rfl h.apart).mono id (fun _ _ h => h) ?_
  rintro _ m' ⟨o, hap, -, m₁, rfl, -, hs, -⟩
  refine ⟨⟨o, hap⟩, fun a ha => ?_⟩
  by_contra hc
  simp only [Own, InSize, not_or, not_and] at hc
  rw [Memory.store32_of_not_mem (by omega), hs.bytes a hc.2.2] at ha
  exact ha rfl

-- `fileSetSize` on the way to a write.
theorem setSize_own (h : Sound m f) :
    (if m.load32 (fSize f) < v then fileSetSize f v else pure () : FsProg Unit).wp False
      (fun _ _ => False)
      (fun _ m' => Sound m' f ∧ ∀ a, m' a ≠ m a → Own m f a) m := by
  rw [Prog.wp_ite]
  exact ⟨fun _ => fileSetSize_own h, fun _ => ⟨h, fun a ha => absurd rfl ha⟩⟩

theorem write_confined (h : Sound m f) (hpos : offset.toNat < 2147483648) :
    Confined m f offset (fileWrite f buf count offset m) := by
  have hr : ((if m.load32 (fSize f) < offset + count then fileSetSize f (offset + count)
      else pure ()) >>= fun _ => writeLoop f (offset + count) (fuel (offset + count) offset) buf offset
        >>= fun cs => pure (count, cs) : FsProg _).wp True
      (fun _ m' => ∀ a, m' a ≠ m a → Own m f a ∨ Own m' f a)
      (fun r m' => (∀ a, m' a ≠ m a → Own m f a ∨ Own m' f a) ∧
        ∃ p n, Covers m' f p n r.2 ∧ r.1.toInt ≤ n) m := by
    rw [Prog.wp_bind]
    refine (setSize_own h).mono (fun _ => trivial) (fun _ _ h => h.elim) ?_
    rintro _ m₁ ⟨h₁, hown⟩
    have hchanged {X : Nat → Prop} {m' : Memory} (hw : Writes {f} X m₁ f m')
        (hX : ∀ a, X a → Data m' f a) : ∀ a, m' a ≠ m a → Own m f a ∨ Own m' f a := by
      intro a ha
      by_cases ha₁ : m₁ a = m a
      · exact .inr ((hw.changed hX (by rwa [ha₁])).imp_right .inr)
      · exact .inl (hown a ha₁)
    rw [Prog.wp_bind]
    refine (writeLoop_wp h₁.owned h₁.apart rfl hpos ?_).mono (fun _ => trivial) ?_ ?_
    · have := (offset + count).isLt
      rw [fuel, BitVec.toNat_sub]
      omega
    · exact fun _ m' hw => hchanged hw.1 fun _ => id
    · rintro cs m' ⟨hw, hc, -⟩
      refine ⟨hchanged hw fun _ => Span.data, _, _, hc, ?_⟩
      show count.toInt ≤ _
      rw [BitVec.toInt_eq_toNat_cond, BitVec.toNat_add]
      omega
  have he : fileWrite f buf count offset m = _ := fileWrite_eq
  constructor
  case refused => exact fun hn => absurd (slt_zero.mp hn) (by omega)
  case copied =>
    intro r cs m' hx c hc a h₁ h₂
    obtain ⟨-, p, n, hcov, -⟩ := hr.ok (he ▸ hx)
    exact hcov.data hc h₁ h₂
  case changed =>
    intro r m' hx
    rw [he] at hx
    simp only [Prog.wp] at hr
    revert hx hr
    generalize ((if m.load32 (fSize f) < offset + count then fileSetSize f (offset + count)
      else pure ()) >>= fun _ => writeLoop f (offset + count) (fuel (offset + count) offset) buf offset
        >>= fun cs => pure (count, cs) : FsProg _) m = y
    cases y <;> intro hr hx <;> cases hx
    · exact hr
    · exact hr.1
  case count =>
    intro r cs m' hx
    obtain ⟨-, p, n, hcov, hle⟩ := hr.ok (he ▸ hx)
    rw [hcov.length]
    exact hle

end NotNegative

-- The transfers of file_read and file_write stay within the file exactly at the positions that are not
-- negative, and where they happen to return a negative code before they do anything.
theorem transfers_confined (h : Sound m f) :
    (Confined m f offset (fileRead f count offset m) ↔
      ¬offset.slt 0#32 ∨ ReadRefuses m f count offset) ∧
    (Confined m f offset (fileWrite f buf count offset m) ↔
      ¬offset.slt 0#32 ∨ WriteRefuses m f count offset) := by
  rw [slt_zero]
  by_cases hneg : 2147483648 ≤ offset.toNat
  · rw [read_negative h hneg, write_negative h hneg]
    simp [hneg]
  · have hpos : offset.toNat < 2147483648 := by omega
    simp [hneg, read_confined h hpos, write_confined h hpos]

theorem Sound.of_single {b : Nat} (hc : Checked m) (hn : NodePlace m f) (hv : bitmapEnd m ≤ b)
    (hlt : b < sNblocks m) (hu : blockIsFree m b = false) (hne : b ≠ nodeBlock f)
    (hp : ∀ k ≤ INDIRECT, (ptr m f k).toNat = if k = 0 then b else 0) : Sound m f := by
  have h₀ {k : Nat} (hk : k ≤ INDIRECT) (h : ptr m f k ≠ 0#32) : k = 0 := by
    by_contra hne
    refine h (BitVec.eq_of_toNat_eq ?_)
    rw [hp k hk, if_neg hne]
    rfl
  have hb : (ptr m f 0).toNat = b := (hp 0 (Nat.zero_le _)).trans (if_pos rfl)
  constructor
  case owned =>
    constructor
    case checked => exact hc
    case node =>
      rintro _ rfl
      exact hn
    case valid =>
      rintro _ k rfl hk h
      rw [h₀ hk h, hb]
      exact ⟨hv, hlt, hu⟩
    case unique =>
      rintro _ k _ k' rfl rfl hk hk' h he
      exact ⟨rfl, (h₀ hk h).trans (h₀ hk' (he ▸ h)).symm⟩
    case indirect =>
      rintro _ _ rfl rfl h
      cases h₀ le_rfl h
  case apart =>
    rintro _ rfl k hk h
    rw [h₀ hk h, hb]
    exact hne

theorem Sample.sound_fileA : Sound Sample.disk Sample.fileA :=
  .of_single (b := 4) ⟨by decide, by decide⟩
    (.inr (by decide)) (by decide) (by decide) (by decide)
    (by decide +kernel) (by decide +kernel)

theorem transfers_confined_fileA :
    (Confined Sample.disk Sample.fileA 3#32 (fileRead Sample.fileA 4#32 3#32 Sample.disk) ↔
      ¬(3#32).slt 0#32 ∨ ReadRefuses Sample.disk Sample.fileA 4#32 3#32) ∧
    (Confined Sample.disk Sample.fileA 3#32
        (fileWrite Sample.fileA (fun _ => 1#8) 4#32 3#32 Sample.disk) ↔
      ¬(3#32).slt 0#32 ∨ WriteRefuses Sample.disk Sample.fileA 4#32 3#32) :=
  transfers_confined Sample.sound_fileA

-- With the position -2, a byte of the block before the block of the file is read.
theorem not_transfers_confined : ¬∀ {m f count offset buf}, Sound m f →
    Confined m f offset (fileRead f count offset m) ∧
      Confined m f offset (fileWrite f buf count offset m) := by
  intro h
  have hc := (@h Sample.disk Sample.fileA 1#32 4294967294#32 (fun _ => 0#8)
    Sample.sound_fileA).1
  have := ((read_negative Sample.sound_fileA (by decide)).mp hc).2
  rw [Refuses] at this
  revert this
  decide

end Fs

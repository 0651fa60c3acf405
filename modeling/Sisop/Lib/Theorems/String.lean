import Sisop.Lib.String

namespace Lib

open Inc Library Function

-- What a copy should do: every byte of the destination is the old byte of the source, and all others
-- stay.
structure Simultaneous (m m' : Bytes) (dst src n : Word) : Prop where
  copied : ∀ i < n, m' (dst + i) = m (src + i)
  frame  : ∀ x, x < dst ∨ dst.toNat + n.toNat ≤ x.toNat → m' x = m x

-- The `n` bytes at `a` do not wrap.
def Fits (a : Word) (n : Nat) : Prop := a.toNat + n ≤ 4294967296

variable {m : Bytes} {d s dst src n : Word} {k w : Nat}

theorem move_zero : move m d s 0 = m := by
  funext x
  simp [move]

theorem move_one : move m d s 1 = update m d (m s) := by
  funext x
  rw [move, update_apply]
  by_cases h : x = d
  · simp [h]
  · rw [if_neg h, if_neg]
    intro hc
    have h₀ : x - d = 0#32 := BitVec.eq_of_toNat_eq (Nat.lt_one_iff.mp hc)
    exact h (by grind)

-- Where `x` lies among the bytes that follow the first `k`.
theorem sub_add_toNat {x : Word} (h : k + w ≤ 4294967296) :
    (x - (d + BitVec.ofNat 32 k)).toNat < w ↔ k ≤ (x - d).toNat ∧ (x - d).toNat < k + w := by
  have hx : x - (d + BitVec.ofNat 32 k) = (x - d) - BitVec.ofNat 32 k := by grind
  have ho := (x - d).isLt
  rw [hx, BitVec.toNat_sub, BitVec.toNat_ofNat]
  generalize (x - d).toNat = o at *
  omega

theorem add_sub_add {x : Word} :
    s + BitVec.ofNat 32 k + (x - (d + BitVec.ofNat 32 k)) = s + (x - d) := by grind

-- The offset in the destination of a byte of the source.
theorem source_toNat {x : Word} : (s + (x - d) - d).toNat =
    (4294967296 - d.toNat + s.toNat + (x - d).toNat) % 4294967296 := by
  have hx : s + (x - d) - d = (s - d) + (x - d) := by grind
  rw [hx, BitVec.toNat_add, BitVec.toNat_sub s d]
  omega

-- A copy that goes up may be made in pieces: it reads only bytes that are still the old ones.
theorem move_up (hs : Fits s (k + w)) (hd : Fits d (k + w))
    (h : d.toNat ≤ s.toNat ∨ s.toNat + (k + w) ≤ d.toNat) :
    move (move m d s k) (d + BitVec.ofNat 32 k) (s + BitVec.ofNat 32 k) w = move m d s (k + w) := by
  rw [Fits] at hs hd
  funext x
  have hx := @sub_add_toNat d k w x (by omega)
  have hr (ho : k ≤ (x - d).toNat) (hw : (x - d).toNat < k + w) :
      ¬(s + (x - d) - d).toNat < k := by
    rw [source_toNat]
    generalize (x - d).toNat = o at *
    omega
  simp only [move, hx, add_sub_add]
  by_cases h₁ : k ≤ (x - d).toNat ∧ (x - d).toNat < k + w
  · rw [if_pos h₁, if_neg (hr h₁.left h₁.right), if_pos h₁.right]
  · rw [if_neg h₁]
    by_cases h₂ : (x - d).toNat < k
    · rw [if_pos h₂, if_pos (by omega)]
    · rw [if_neg h₂, if_neg (by omega)]

-- And so may one that goes down.
theorem move_down (hs : Fits s (w + k)) (hd : Fits d (w + k)) (h : s.toNat ≤ d.toNat) :
    move (move m (d + BitVec.ofNat 32 w) (s + BitVec.ofNat 32 w) k) d s w = move m d s (w + k) := by
  rw [Fits] at hs hd
  funext x
  have hx (y : Word) := @sub_add_toNat d w k y (by omega)
  have hr (hw : (x - d).toNat < w) : ¬(w ≤ (s + (x - d) - d).toNat ∧
      (s + (x - d) - d).toNat < w + k) := by
    rw [source_toNat]
    generalize (x - d).toNat = o at *
    omega
  simp only [move, hx, add_sub_add]
  by_cases h₁ : (x - d).toNat < w
  · rw [if_pos h₁, if_neg (hr h₁), if_pos (by omega)]
  · rw [if_neg h₁]
    by_cases h₂ : (x - d).toNat < w + k
    · rw [if_pos ⟨by omega, h₂⟩, if_pos h₂]
    · rw [if_neg (by omega), if_neg h₂]

namespace Asm

variable {c : Cpu} {N : Word}

@[simp] theorem std_mem : (std c).mem = c.mem := rfl

@[simp] theorem cld_mem : (cld c).mem = c.mem := rfl

theorem sub_ofNat_ne_zero (h : k < N.toNat) : N - BitVec.ofNat 32 k ≠ 0#32 := by
  intro hc
  have hn := N.isLt
  have h₀ := congrArg BitVec.toNat hc
  rw [BitVec.toNat_sub, BitVec.toNat_ofNat, BitVec.toNat_ofNat] at h₀
  omega

theorem sub_ofNat_succ : N - BitVec.ofNat 32 k - 1#32 = N - BitVec.ofNat 32 (k + 1) := by
  rw [BitVec.ofNat_add]
  grind

-- `rep` takes as many turns as `ecx` says.
theorem rep_eq {f : Cpu → Cpu} {P : Nat → Cpu} (hc : c = P 0)
    (hn : ∀ k, (P k).ecx = N - BitVec.ofNat 32 k)
    (h : ∀ k < N.toNat, f (P k) = P (k + 1)) : rep f c = P N.toNat := by
  have h₀ : c.ecx = N := by
    rw [hc, hn]
    exact BitVec.sub_zero N
  rw [rep, h₀, hc]
  refine whileLoop_states fun k hk => ⟨?_, h k hk⟩
  rw [hn]
  exact sub_ofNat_ne_zero hk

-- The bytes that the first `k` of the `N` elements have.
theorem mul_le_of_lt (h : k < N.toNat) : k * w + w ≤ N.toNat * w := by
  rw [← Nat.succ_mul]
  exact Nat.mul_le_mul_right w h

theorem copyUp_mem (hs : Fits s (N.toNat * w)) (hd : Fits d (N.toNat * w))
    (h : d.toNat ≤ s.toNat ∨ s.toNat + N.toNat * w ≤ d.toNat) :
    (copyUp w c d s N).mem = move c.mem d s (N.toNat * w) := by
  let P (k : Nat) : Cpu :=
    { mem := move c.mem d s (k * w)
      edi := d + BitVec.ofNat 32 (k * w)
      esi := s + BitVec.ofNat 32 (k * w)
      ecx := N - BitVec.ofNat 32 k
      df  := false }
  have h₀ : { cld c with edi := d, esi := s, ecx := N } = P 0 := by
    simp [P, cld, move_zero]
  have hp (k : Nat) (hk : k < N.toNat) : movs w (P k) = P (k + 1) := by
    have hle : k * w + w ≤ N.toNat * w := mul_le_of_lt hk
    rw [Fits] at hs hd
    have hm : move (move c.mem d s (k * w)) (d + BitVec.ofNat 32 (k * w))
        (s + BitVec.ofNat 32 (k * w)) w = move c.mem d s (k * w + w) :=
      move_up (by rw [Fits]; omega) (by rw [Fits]; omega) (by omega)
    have hadd (a : Word) : a + BitVec.ofNat 32 (k * w) + BitVec.ofNat 32 w =
        a + BitVec.ofNat 32 (k * w + w) := by rw [BitVec.ofNat_add, BitVec.add_assoc]
    simp only [movs, P, hm, hadd, sub_ofNat_succ, Nat.succ_mul, Bool.false_eq_true, if_false]
  exact congrArg Cpu.mem (rep_eq h₀ (fun _ => rfl) hp)

theorem copyDown_mem (hw : 0 < w) (hs : Fits s (N.toNat * w)) (hd : Fits d (N.toNat * w))
    (h : s.toNat ≤ d.toNat) :
    (copyDown w c (d + BitVec.ofNat 32 (N.toNat * w)) (s + BitVec.ofNat 32 (N.toNat * w)) N).mem =
      move c.mem d s (N.toNat * w) := by
  -- The bytes below those that have been copied after `k` turns.
  let rest (k : Nat) : Nat := N.toNat * w - k * w
  let P (k : Nat) : Cpu :=
    { mem := move c.mem (d + BitVec.ofNat 32 (rest k)) (s + BitVec.ofNat 32 (rest k)) (k * w)
      edi := d + BitVec.ofNat 32 (rest k) - BitVec.ofNat 32 w
      esi := s + BitVec.ofNat 32 (rest k) - BitVec.ofNat 32 w
      ecx := N - BitVec.ofNat 32 k
      df  := true }
  have h₀ : { std c with
      edi := d + BitVec.ofNat 32 (N.toNat * w) - BitVec.ofNat 32 w
      esi := s + BitVec.ofNat 32 (N.toNat * w) - BitVec.ofNat 32 w
      ecx := N } = P 0 := by
    simp [P, rest, std, move_zero]
  have hp (k : Nat) (hk : k < N.toNat) : movs w (P k) = P (k + 1) := by
    have hle : k * w + w ≤ N.toNat * w := mul_le_of_lt hk
    obtain ⟨r, hr'⟩ : ∃ r, rest (k + 1) = r := ⟨_, rfl⟩
    have hr : rest k = r + w := by
      simp only [rest, Nat.succ_mul] at hr' ⊢
      omega
    have hn : r + w + k * w = N.toNat * w := by
      simp only [rest, Nat.succ_mul] at hr'
      omega
    rw [Fits] at hs hd
    have hadd (a : Word) : a + BitVec.ofNat 32 (r + w) = a + BitVec.ofNat 32 r + BitVec.ofNat 32 w := by
      rw [BitVec.ofNat_add, BitVec.add_assoc]
    have hsub (a : Word) : a + BitVec.ofNat 32 r + BitVec.ofNat 32 w - BitVec.ofNat 32 w =
        a + BitVec.ofNat 32 r := by grind
    have hto (a : Word) (ha : a.toNat + N.toNat * w ≤ 4294967296) :
        (a + BitVec.ofNat 32 r).toNat = a.toNat + r := by
      rw [BitVec.toNat_add, BitVec.toNat_ofNat]
      omega
    have hm : move (move c.mem (d + BitVec.ofNat 32 r + BitVec.ofNat 32 w)
        (s + BitVec.ofNat 32 r + BitVec.ofNat 32 w) (k * w)) (d + BitVec.ofNat 32 r)
        (s + BitVec.ofNat 32 r) w = move c.mem (d + BitVec.ofNat 32 r) (s + BitVec.ofNat 32 r)
          (w + k * w) := by
      refine move_down ?_ ?_ ?_
      · rw [Fits, hto s hs]
        omega
      · rw [Fits, hto d hd]
        omega
      · rw [hto s hs, hto d hd]
        omega
    simp only [movs, P, hr, hr', hadd, hsub, hm, sub_ofNat_succ, if_true, Nat.succ_mul, Nat.add_comm w]
  have hz : rest N.toNat = 0 := Nat.sub_self _
  have he := congrArg Cpu.mem (rep_eq h₀ (fun _ => rfl) hp)
  simp only [P, hz, BitVec.add_zero] at he
  exact he

end Asm

namespace NoAsm

open Asm (Cpu movs rep)

-- The loops take the turns of the string instruction on bytes. Going down, they change the pointers
-- before the copy.
def ofUp (c : Cpu) : Copy := ⟨c.mem, c.edi, c.esi, c.ecx⟩

def ofDown (c : Cpu) : Copy := ⟨c.mem, c.edi + 1#32, c.esi + 1#32, c.ecx⟩

theorem up_ofUp {c : Cpu} (h : c.df = false) : up (ofUp c) = ofUp (movs 1 c) := by
  simp [up, ofUp, movs, h, move_one]

theorem down_ofDown {c : Cpu} (h : c.df = true) : down (ofDown c) = ofDown (movs 1 c) := by
  have hb (a : Word) : a + 1#32 - 1#32 = a := by grind
  have hs (a : Word) : a - 1#32 + 1#32 = a := by grind
  simp [down, ofDown, movs, h, move_one, hb, hs]

theorem loop_up {c : Cpu} (h : c.df = false) : loop up (ofUp c) = ofUp (rep (movs 1) c) := by
  let inv (c : Cpu) : Prop := c.df = false
  have h₀ : inv c := h
  refine whileLoop_map h₀ ?_ ?_
  · intro c _
    simp [ofUp, BitVec.pos_iff_ne_zero]
  · intro c hc _
    exact ⟨hc, up_ofUp hc⟩

theorem loop_down {c : Cpu} (h : c.df = true) : loop down (ofDown c) = ofDown (rep (movs 1) c) := by
  let inv (c : Cpu) : Prop := c.df = true
  have h₀ : inv c := h
  refine whileLoop_map h₀ ?_ ?_
  · intro c _
    simp [ofDown, BitVec.pos_iff_ne_zero]
  · intro c hc _
    exact ⟨hc, down_ofDown hc⟩

-- Without `ASM` the result is that of the copies of bytes.
theorem loop_up_mem {c : Cpu} : (loop up ⟨c.mem, d, s, n⟩).mem = (Asm.copyUp 1 c d s n).mem := by
  let c' : Cpu := { Asm.cld c with edi := d, esi := s, ecx := n }
  have hl : loop up (ofUp c') = ofUp (rep (movs 1) c') := loop_up rfl
  exact congrArg Copy.mem hl

theorem loop_down_mem {c : Cpu} : (loop down ⟨c.mem, d, s, n⟩).mem = (Asm.copyDown 1 c d s n).mem := by
  let c' : Cpu := { Asm.std c with edi := d - 1#32, esi := s - 1#32, ecx := n }
  have hc : ofDown c' = ⟨c.mem, d, s, n⟩ := by
    have hs (a : Word) : a - 1#32 + 1#32 = a := by grind
    simp [ofDown, c', hs]
  have hl : loop down (ofDown c') = ofDown (rep (movs 1) c') := loop_down rfl
  rw [hc] at hl
  exact congrArg Copy.mem hl

end NoAsm

-- A move that does not wrap is a simultaneous copy, and there is only one.
theorem simultaneous_iff {m' : Bytes} (hd : Fits dst n.toNat) :
    Simultaneous m m' dst src n ↔ m' = move m dst src n.toNat := by
  rw [Fits] at hd
  have hin (x : Word) : x < dst ∨ dst.toNat + n.toNat ≤ x.toNat ↔ ¬(x - dst).toNat < n.toNat := by
    rw [BitVec.lt_def, BitVec.toNat_sub]
    have := x.isLt
    omega
  constructor
  case mp =>
    intro h
    funext x
    rw [move]
    split
    case isTrue hx =>
      have he : dst + (x - dst) = x := by grind
      have hc := h.copied (x - dst) hx
      rwa [he] at hc
    case isFalse hx => exact h.frame x ((hin x).mpr hx)
  case mpr =>
    rintro rfl
    constructor
    case copied =>
      intro i hi
      have he : dst + i - dst = i := by grind
      rw [move, he, if_pos (BitVec.lt_def.mp hi)]
    case frame =>
      intro x hx
      rw [move, if_neg ((hin x).mp hx)]

namespace Asm

variable {c : Cpu}

-- The two ways of copying, where `memmove` chooses them.
theorem copyUp_move {N : Word} (hn : N.toNat * w = n.toNat) (hs : Fits src n.toNat)
    (hd : Fits dst n.toNat) (h : ¬overlaps dst src n) :
    (copyUp w c dst src N).mem = move c.mem dst src n.toNat := by
  have hf : dst.toNat ≤ src.toNat ∨ src.toNat + n.toNat ≤ dst.toNat := by
    rw [overlaps, BitVec.lt_def, BitVec.lt_def, BitVec.toNat_add] at h
    rw [Fits] at hs hd
    have := n.isLt
    have := dst.isLt
    omega
  rw [← hn] at hs hd hf ⊢
  exact copyUp_mem hs hd hf

theorem copyDown_move {N : Word} (hw : 0 < w) (hn : N.toNat * w = n.toNat) (hs : Fits src n.toNat)
    (hd : Fits dst n.toNat) (h : overlaps dst src n) :
    (copyDown w c (dst + n) (src + n) N).mem = move c.mem dst src n.toNat := by
  have hb : BitVec.ofNat 32 (N.toNat * w) = n := by
    rw [hn]
    exact BitVec.ofNat_toNat 32 n
  rw [← hn] at hs hd ⊢
  have hm := @copyDown_mem dst src w c N hw hs hd (Nat.le_of_lt h.left)
  rwa [hb] at hm

-- The numbers of elements of the two widths.
theorem words_toNat (h : n % 4#32 = 0#32) : (n / 4#32).toNat * 4 = n.toNat := by
  have hm := congrArg BitVec.toNat h
  rw [BitVec.toNat_umod] at hm
  rw [BitVec.toNat_udiv]
  rw [show (4#32).toNat = 4 by rfl, show (0#32).toNat = 0 by rfl] at *
  omega

theorem bytes_toNat : n.toNat * 1 = n.toNat := Nat.mul_one _

theorem memmove_move (hs : Fits src n.toNat) (hd : Fits dst n.toNat) :
    (memmove c dst src n).2.mem = move c.mem dst src n.toNat := by
  simp only [memmove]
  split
  case isTrue h =>
    split
    case isTrue ha  => exact copyDown_move (by decide) (words_toNat ha.2.2) hs hd h
    case isFalse    => exact copyDown_move (by decide) bytes_toNat hs hd h
  case isFalse h =>
    split
    case isTrue ha  => exact copyUp_move (words_toNat ha.2.2) hs hd h
    case isFalse    => exact copyUp_move bytes_toNat hs hd h

-- The direction flag is clear afterwards.
theorem copyUp_df {N : Word} : (copyUp w c d s N).df = false := by
  let inv (c : Cpu) : Prop := c.df = false
  have h₀ : inv { cld c with edi := d, esi := s, ecx := N } := rfl
  have hf : inv (copyUp w c d s N) := whileLoop_invariant h₀ fun _ h _ => h
  exact hf

theorem memmove_df : (memmove c dst src n).2.df = false := by
  simp only [memmove]
  split
  case isTrue  => split <;> rfl
  case isFalse => split <;> exact copyUp_df

end Asm

theorem NoAsm.memmove_move {c : Asm.Cpu} (hs : Fits src n.toNat) (hd : Fits dst n.toNat) :
    (NoAsm.memmove c.mem dst src n).2 = move c.mem dst src n.toNat := by
  rw [NoAsm.memmove]
  split
  case isTrue h  => exact loop_down_mem.trans (Asm.copyDown_move (by decide) Asm.bytes_toNat hs hd h)
  case isFalse h => exact loop_up_mem.trans (Asm.copyUp_move Asm.bytes_toNat hs hd h)

-- What `memmove` does, with the paths that it can take.
structure MemmoveSpec (c : Asm.Cpu) (dst src n : Word) : Prop where
  result    : (Asm.memmove c dst src n).1 = dst
  mem       : Simultaneous c.mem (Asm.memmove c dst src n).2.mem dst src n
  df        : (Asm.memmove c dst src n).2.df = false
  noAsm     : NoAsm.memmove c.mem dst src n = (dst, (Asm.memmove c dst src n).2.mem)
  bytesDown : overlaps dst src n →
    (Asm.copyDown 1 c (dst + n) (src + n) n).mem = (Asm.memmove c dst src n).2.mem
  wordsDown : overlaps dst src n → n % 4#32 = 0#32 →
    (Asm.copyDown 4 c (dst + n) (src + n) (n / 4#32)).mem = (Asm.memmove c dst src n).2.mem
  bytesUp   : ¬overlaps dst src n →
    (Asm.copyUp 1 c dst src n).mem = (Asm.memmove c dst src n).2.mem
  wordsUp   : ¬overlaps dst src n → n % 4#32 = 0#32 →
    (Asm.copyUp 4 c dst src (n / 4#32)).mem = (Asm.memmove c dst src n).2.mem

theorem memmove_simultaneous {c : Asm.Cpu} (hs : src.toNat + n.toNat ≤ 4294967296)
    (hd : dst.toNat + n.toNat ≤ 4294967296) : MemmoveSpec c dst src n := by
  have hm := @Asm.memmove_move dst src n c hs hd
  constructor
  case result =>
    simp only [Asm.memmove]
    split <;> split <;> rfl
  case mem => exact (simultaneous_iff hd).mpr hm
  case df => exact Asm.memmove_df
  case noAsm =>
    have hn := @NoAsm.memmove_move dst src n c hs hd
    rw [hm, ← hn]
    rw [NoAsm.memmove]
    split <;> rfl
  case bytesDown =>
    intro h
    rw [hm]
    exact Asm.copyDown_move (by decide) Asm.bytes_toNat hs hd h
  case wordsDown =>
    intro h ha
    rw [hm]
    exact Asm.copyDown_move (by decide) (Asm.words_toNat ha) hs hd h
  case bytesUp =>
    intro h
    rw [hm]
    exact Asm.copyUp_move Asm.bytes_toNat hs hd h
  case wordsUp =>
    intro h ha
    rw [hm]
    exact Asm.copyUp_move (Asm.words_toNat ha) hs hd h

-- Six bytes are moved up by one place.
theorem memmove_simultaneous_six :
    MemmoveSpec ⟨fun x => x.setWidth 8, 0, 0, 0, true⟩ 0x1001#32 0x1000#32 6#32 :=
  memmove_simultaneous (by decide) (by decide)

end Lib

import Sisop.Lib.Printf
import Mathlib.Data.List.TakeWhile

namespace Lib.Printf

open Inc Kern Function

variable {addr : Word} {buf : Nat → BitVec 8} {bs l : List (BitVec 8)} {b : Printbuf} {crt : Crt}

-- What is printed of the bytes of one system call: a zero byte ends it.
def printed (bs : List (BitVec 8)) : List Word := (bs.takeWhile (· ≠ 0#8)).map (·.signExtend 32)

-- What is printed of the bytes of a whole call, of which 255 are given to a system call.
def allPrinted (bs : List (BitVec 8)) : List Word :=
  if bs.length < 255 then printed bs else printed (bs.take 255) ++ allPrinted (bs.drop 255)
termination_by bs.length
decreasing_by
  rw [List.length_drop]
  omega

-- The buffer begins with `l`.
def Printbuf.Holds (b : Printbuf) (l : List (BitVec 8)) : Prop :=
  b.idx = l.length ∧ ∀ {i c}, l[i]? = some c → b.buf i = c

theorem puts_append {cs cs' : List Word} : crt.puts (cs ++ cs') = (crt.puts cs).puts cs' := List.foldl_append

namespace Printbuf

theorem read_eq {i : Nat} (h : i < 256) : b.read addr (addr + BitVec.ofNat 32 i) = some (b.buf i) := by
  have hi : (addr + BitVec.ofNat 32 i - addr).toNat = i := by
    rw [BitVec.add_comm, BitVec.add_sub_cancel, BitVec.toNat_ofNat]
    omega
  rw [read, hi, if_pos h]

-- The loop stays in the buffer, as that has one byte more than is printed at most.
theorem stringLoop_eq (addr : Word) {n i : Nat} (h : b.Holds l) (hn : i + n = l.length) (hl : l.length ≤ 255) :
    stringLoop (b.read addr) n (addr + BitVec.ofNat 32 i) = some (printed (l.drop i)) := by
  induction n generalizing i
  case zero =>
    rw [stringLoop, read_eq (by omega), List.drop_of_length_le (by omega)]
    rfl
  case succ n hi =>
    have hlt : i < l.length := by omega
    have hs : addr + BitVec.ofNat 32 i + 1#32 = addr + BitVec.ofNat 32 (i + 1) := by
      rw [BitVec.ofNat_add, BitVec.add_assoc]
    rw [stringLoop, read_eq (by omega), h.right (List.getElem?_eq_getElem hlt), hs, hi (by omega),
      List.drop_eq_getElem_cons hlt]
    simp only [Option.bind_eq_bind, Option.bind_some, Option.map_some, printed]
    split
    case isTrue h₀  => rw [List.takeWhile_cons_of_neg (by simp [h₀]), List.map_nil]
    case isFalse h₀ => rw [List.takeWhile_cons_of_pos (by simpa using h₀), List.map_cons]

theorem sysCputs_eq (crt : Crt) (h : b.Holds l) (hl : l.length ≤ 255) (ha : addr ≠ 0#32) :
    b.sysCputs addr crt = some (crt.puts (printed l)) := by
  have hz : addr + BitVec.ofNat 32 0 = addr := BitVec.add_zero addr
  have hn : (BitVec.ofNat 32 b.idx).toNat = l.length := by
    rw [BitVec.toNat_ofNat, h.left]
    omega
  have hs := stringLoop_eq addr h (Nat.zero_add _) hl
  rw [hz, List.drop_zero] at hs
  have hi : ¬(BitVec.ofNat 32 b.idx).toInt < 0 := by
    rw [BitVec.toInt_neg_iff, hn]
    omega
  rw [sysCputs, printString, if_neg ha, if_neg hi, hn, hs]
  rfl

theorem Holds.concat (h : b.Holds l) (c : BitVec 8) (cnt : Nat) :
    Holds ⟨b.idx + 1, cnt, update b.buf b.idx c⟩ (l ++ [c]) := by
  refine ⟨by simp [h.left], fun {i c'} hi => ?_⟩
  rw [h.left]
  by_cases hlt : i < l.length
  case pos =>
    rw [List.getElem?_append_left hlt] at hi
    exact (update_of_ne (Nat.ne_of_lt hlt) _ _).trans (h.right hi)
  case neg =>
    rw [List.getElem?_append_right (Nat.le_of_not_lt hlt)] at hi
    have he : i = l.length := by
      have := (List.getElem?_eq_some_iff.mp hi).choose
      simp at this
      omega
    rw [he] at hi ⊢
    simpa using hi

theorem putch_pending (addr : Word) (crt : Crt) (ch : Word) (h : b.Holds l) (hl : l.length + 1 < 255) :
    ∃ b', putch addr (b, crt) ch = some (b', crt) ∧ b'.Holds (l ++ [ch.setWidth 8]) ∧ b'.cnt = b.cnt + 1 := by
  have hn : b.idx + 1 ≠ 256 - 1 := by
    rw [h.left]
    omega
  exact ⟨_, if_neg hn, h.concat _ _, rfl⟩

theorem putch_full (crt : Crt) (ch : Word) (h : b.Holds l) (hl : l.length + 1 = 255) (ha : addr ≠ 0#32) :
    ∃ b', putch addr (b, crt) ch = some (b', crt.puts (printed (l ++ [ch.setWidth 8]))) ∧ b'.Holds [] ∧
      b'.cnt = b.cnt + 1 := by
  have hn : b.idx + 1 = 256 - 1 := by
    rw [h.left]
    omega
  have hle : (l ++ [ch.setWidth 8]).length ≤ 255 := by
    simp only [List.length_append, List.length_singleton]
    omega
  have hs := sysCputs_eq crt (h.concat (ch.setWidth 8) b.cnt) hle ha
  exact ⟨_, (if_pos hn).trans (congrArg _ hs), ⟨rfl, by simp⟩, rfl⟩

end Printbuf

theorem allPrinted_lt (h : bs.length < 255) : allPrinted bs = printed bs := by
  rw [allPrinted, if_pos h]

theorem allPrinted_full (h : l.length = 255) : allPrinted (l ++ bs) = printed l ++ allPrinted bs := by
  have hn : ¬(l ++ bs).length < 255 := by
    rw [List.length_append]
    omega
  rw [allPrinted, if_neg hn, List.take_left' h, List.drop_left' h]

-- The rest of a call: `l` has been put and not been printed yet.
theorem vcprintf_rest (crt : Crt) (chs : List Word) (h : b.Holds l) (hl : l.length < 255) (ha : addr ≠ 0#32) :
    (do
      let (b, crt) ← chs.foldlM (Printbuf.putch addr) (b, crt)
      let crt ← b.sysCputs addr crt
      some (b.cnt, crt)) =
      some (b.cnt + chs.length, crt.puts (allPrinted (l ++ chs.map (·.setWidth 8)))) := by
  induction chs generalizing b crt l
  case nil =>
    rw [List.map_nil, List.append_nil, allPrinted_lt hl]
    simp [Printbuf.sysCputs_eq crt h (Nat.le_of_lt hl) ha]
  case cons ch chs hi =>
    have hs : l ++ (ch :: chs).map (·.setWidth 8) = l ++ [ch.setWidth 8] ++ chs.map (·.setWidth 8) := by simp
    have hlen : (l ++ [ch.setWidth 8]).length = l.length + 1 := by simp
    rw [List.foldlM_cons, hs, List.length_cons]
    by_cases hf : l.length + 1 = 255
    case pos =>
      obtain ⟨b', hp, hh, hc⟩ := Printbuf.putch_full crt ch h hf ha
      rw [hp, allPrinted_full (hlen.trans hf), puts_append]
      refine (hi _ hh (by decide)).trans ?_
      rw [hc, List.nil_append, Nat.add_assoc, Nat.add_comm 1]
    case neg =>
      obtain ⟨b', hp, hh, hc⟩ := Printbuf.putch_pending addr crt ch h (by omega)
      rw [hp]
      refine (hi _ hh (by rw [hlen]; omega)).trans ?_
      rw [hc, Nat.add_assoc, Nat.add_comm 1]

theorem printed_text (h : ∀ c ∈ bs, c ≠ 0#8) : printed bs = bs.map (·.signExtend 32) := by
  rw [printed, List.takeWhile_eq_self_iff.mpr]
  simpa using h

theorem allPrinted_text (h : ∀ c ∈ bs, c ≠ 0#8) : allPrinted bs = bs.map (·.signExtend 32) := by
  fun_induction allPrinted bs
  case case1 => exact printed_text h
  case case2 bs _ hi =>
    rw [hi fun c hc => h c (List.mem_of_mem_drop hc), printed_text fun c hc => h c (List.mem_of_mem_take hc),
      ← List.map_append, List.take_append_drop]

-- All that `vprintfmt` puts gets to the console in its order, and the kernel does not fault: it reads one byte
-- more than it has checked, but that is the last one of the buffer. A zero byte hides what follows it in
-- the same system call.
theorem vcprintf_prints (chs : List Word) (ha : addr ≠ 0#32) :
    vcprintf addr buf chs crt = some (chs.length, crt.puts (allPrinted (chs.map (·.setWidth 8)))) ∧
      ((∀ ch ∈ chs, ch.setWidth 8 ≠ 0#8) → allPrinted (chs.map (·.setWidth 8)) =
        chs.map fun ch => (ch.setWidth 8).signExtend 32) := by
  refine ⟨?_, fun hc => ?_⟩
  · have h : Printbuf.Holds ⟨0, 0, buf⟩ [] := ⟨rfl, by simp⟩
    have hr := vcprintf_rest crt chs h (by decide) ha
    rwa [Nat.zero_add, List.nil_append] at hr
  · have hm : ∀ c ∈ chs.map (·.setWidth 8), c ≠ 0#8 := by simpa using hc
    rw [allPrinted_text hm, List.map_map]
    rfl

theorem vcprintf_prints_hi : ∃ crt, crt = Crt.cgaInit .cga 0#8 0#8 (fun _ => 0x0720#16) [] ∧
    vcprintf 0xEEBFDE00#32 (fun _ => 0#8) [0x68#32, 0x69#32] crt =
      some (2, crt.puts (allPrinted [0x68#8, 0x69#8])) :=
  ⟨_, rfl, (vcprintf_prints _ (by decide)).left⟩

end Lib.Printf

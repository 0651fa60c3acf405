import Sisop.Lib.Theorems.Devpipe

-- How far the positions of a pipe can go.

namespace Lib.Channel

open Inc Function Library

variable {s : Channel} {ev : Event} {n : Nat} {buf : List (BitVec 8)} {closed : Bool}

def InRing (pos : Word) : Prop := 0 ≤ pipeIndex pos ∧ pipeIndex pos < PIPEBUFSIZ

-- The positions that index the buffer next do so in its bounds, and the pipe is not found full next
-- unless no more bytes fit.
structure RingKept (s : Channel) : Prop where
  take : ∀ {c rpos}, s.reader = .take c rpos → InRing rpos
  put  : ∀ {c wpos}, s.writer = .put c wpos → InRing wpos
  full : ∀ {c wpos}, s.writer = .loadRpos c wpos → s.pipe.pRpos + 32#32 ≤ wpos →
    s.accepted.length = s.taken.length + PIPEBUFSIZ

-- The writer does not go on to store another byte behind the first 2 ^ 31 + 1.
def Below (s : Channel) : Event → Prop
  | .reader ..  => True
  | .writer ..  =>
    match s.writer with
    | .index _ => s.accepted.length ≤ 2147483648
    | _        => True

-- The writer is about to store a byte, or to count one that it has stored.
def Storing : Writer → Prop
  | .put ..       => True
  | .inc _        => True
  | .storeWpos .. => True
  | _             => False

structure Bounded (s : Channel) : Prop where
  inv     : s.Inv
  le      : s.accepted.length ≤ 2147483649
  storing : Storing s.writer → s.accepted.length ≤ 2147483648

theorem inRing {pos : Word} (h : pos.toNat ≤ 2147483648) : InRing pos := by
  rw [InRing, pipeIndex_eq h, PIPEBUFSIZ]
  omega

theorem Bounded.ringKept (h : s.Bounded) : s.RingKept := by
  have hr := h.inv.reader
  have hw := h.inv.writer
  have hrp := h.inv.rpos
  have hwp := h.inv.wpos
  have hle := h.le
  have hfl := h.inv.fifo.length_le
  constructor
  case take =>
    intro c rpos hq
    rw [hq] at hr
    obtain ⟨_, hta, rfl⟩ := hr
    exact inRing (by omega)
  case put =>
    intro c wpos hq
    have hs := h.storing
    rw [hq] at hw hs
    obtain ⟨_, _, rfl⟩ := hw
    exact inRing (hwp.trans_le (hs trivial))
  case full =>
    intro c wpos hq hf
    rw [hq] at hw
    obtain ⟨_, rfl⟩ := hw
    have hfit := h.inv.le
    rw [BitVec.le_def, BitVec.toNat_add, show (32#32).toNat = 32 by rfl] at hf
    rw [PIPEBUFSIZ] at *
    omega

theorem bounded_init : init.Bounded :=
  ⟨init_inv, Nat.zero_le _, fun _ => Nat.zero_le _⟩

theorem writer_stepRead : (s.stepRead n closed).writer = s.writer := by
  have hf (c : Read) (s : Channel) : (s.forRead c).writer = s.writer := by
    rw [forRead]
    split <;> rfl
  rw [stepRead]
  cases hr : s.reader
  case idle => exact hf _ s
  case loadWpos =>
    dsimp only
    split <;> rfl
  case empty =>
    dsimp only
    split_ifs <;> rfl
  case storeRpos => exact hf _ _
  all_goals rfl

theorem not_storing_forWrite {c : Write} : ¬Storing (s.forWrite c).writer := by
  rw [forWrite]
  split <;> exact id

-- A byte is accepted only after it has been stored.
theorem Bounded.stepWrite (h : s.Bounded) (hb : Below s (.writer buf closed)) :
    (s.stepWrite buf closed).accepted.length ≤ 2147483649 ∧
      (Storing (s.stepWrite buf closed).writer →
        (s.stepWrite buf closed).accepted.length ≤ 2147483648) := by
  have hle := h.le
  have hs := h.storing
  have ha : s.accepted = s.written ++ s.writer.accepted := rfl
  rw [Below] at hb
  rw [Channel.stepWrite]
  cases hq : s.writer <;> rw [hq] at ha hs hb <;> rw [ha] at hle hs
  case idle =>
    rw [accepted_forWrite]
    exact ⟨hle, fun hc => absurd hc not_storing_forWrite⟩
  case loadWpos => exact ⟨hle, False.elim⟩
  case loadRpos =>
    dsimp only
    split <;> exact ⟨hle, False.elim⟩
  case full =>
    dsimp only
    split
    case isTrue  => exact ⟨accepted_endWrite (s := s) ▸ hle, False.elim⟩
    case isFalse => exact ⟨hle, False.elim⟩
  case index =>
    dsimp only at hb
    rw [ha] at hb
    exact ⟨hle, fun _ => hb⟩
  case put       => exact ⟨hle, hs⟩
  case inc       => exact ⟨hle, hs⟩
  case storeWpos c wpos =>
    rw [accepted_forWrite]
    refine ⟨?_, fun hc => absurd hc not_storing_forWrite⟩
    have hs := hs trivial
    have hacc : (Writer.storeWpos c wpos).accepted = c.buf.take c.i := rfl
    rw [hacc] at hs
    simp only [List.length_append, List.length_take] at hs ⊢
    omega

theorem Bounded.next (h : s.Bounded) (hb : Below s ev) : (s.next ev).Bounded := by
  have hput : ∀ c wpos, s.writer = .put c wpos → s.accepted.length ≤ 2147483648 := fun c wpos hq =>
    h.storing (hq ▸ trivial)
  have hi : (s.next ev).Inv := h.inv.next h.le hput
  cases ev
  case reader =>
    refine ⟨hi, ?_, ?_⟩
    · exact accepted_stepRead.symm ▸ h.le
    · rw [Channel.next, writer_stepRead, accepted_stepRead]
      exact h.storing
  case writer => exact ⟨hi, (h.stepWrite hb).left, (h.stepWrite hb).right⟩

theorem bounded_of_run (r : Run Step Below init s) : s.Bounded :=
  r.invariant bounded_init fun h hg hs => hs ▸ h.next hg

-- The 32 bits of a position that has passed 2 ^ 31 are those of a negative number.
theorem not_inRing {pos : Word} (h : pos.toNat = 2147483649) : ¬InRing pos := by
  have hp : pos = 2147483649#32 := BitVec.eq_of_toNat_eq h
  rw [hp]
  exact fun hc => absurd hc.1 (by decide)

-- The ring is kept in every state, up to the byte behind the first 2 ^ 31 + 1.
theorem pipe_ring (r : Run Step Below init s) : RingKept s ∧ (RingKept (s.next ev) ↔ Below s ev) := by
  have h := bounded_of_run r
  refine ⟨h.ringKept, fun hk => ?_, fun hb => (h.next hb).ringKept⟩
  cases ev
  case reader => trivial
  case writer buf closed =>
    rw [Below]
    split
    case h_2 => trivial
    case h_1 c hq =>
      by_contra hc
      have hput : (s.stepWrite buf closed).writer = .put c s.pipe.pWpos := by rw [stepWrite, hq]
      have hle := h.le
      exact not_inRing (by rw [h.inv.wpos]; omega) (hk.put hput)

theorem pipe_ring_init : RingKept init ∧ (RingKept (init.next (.writer [7#8] false)) ↔
    Below init (.writer [7#8] false)) :=
  pipe_ring .refl

-- Both processes are idle, and `k` bytes have gone through the pipe.
structure Idle (s : Channel) (k : Nat) : Prop where
  reader : s.reader = .idle
  writer : s.writer = .idle
  rpos   : s.pipe.pRpos = BitVec.ofNat 32 k
  wpos   : s.pipe.pWpos = BitVec.ofNat 32 k

def passByte (s : Channel) : Channel :=
  (List.replicate 7 (Event.writer [7#8] false) ++ List.replicate 7 (Event.reader 1 false)).foldl next s

theorem Idle.passByte {k : Nat} (h : Idle s k) (hk : k ≤ 2147483648) : Idle s.passByte (k + 1) := by
  obtain ⟨⟨rpos, wpos, b⟩, q, d, x, y, z⟩ := s
  obtain ⟨rfl, rfl, rfl, rfl⟩ := h
  have hroom : ¬BitVec.ofNat 32 k + 32#32 ≤ BitVec.ofNat 32 k := by
    rw [BitVec.le_def, BitVec.toNat_add, BitVec.toNat_ofNat, show (32#32).toNat = 32 by rfl]
    omega
  have hk : BitVec.ofNat 32 (k + 1) = BitVec.ofNat 32 k + 1 := BitVec.ofNat_add ..
  constructor <;>
    simp [Channel.passByte, next, stepWrite, stepRead, forWrite, forRead, endWrite, endRead, hroom, hk]

theorem exists_idle {k : Nat} (hk : k ≤ 2147483649) :
    ∃ s, Run Step (fun _ _ => True) init s ∧ Idle s k := by
  induction k
  case zero => exact ⟨init, .refl, rfl, rfl, rfl, rfl⟩
  case succ k hi =>
    obtain ⟨s, r, h⟩ := hi (by omega)
    exact ⟨s.passByte, run_foldl r, h.passByte (by omega)⟩

-- After 2 ^ 31 + 1 bytes, the writer indexes the buffer with -31.
theorem not_pipe_ring : ¬∀ {s}, Run Step (fun _ _ => True) init s → RingKept s := by
  intro h
  obtain ⟨s, r, hs⟩ := exists_idle le_rfl
  have hk := h (@run_foldl _ (List.replicate 4 (Event.writer [7#8] false)) r)
  obtain ⟨⟨rpos, wpos, b⟩, q, d, x, y, z⟩ := s
  obtain ⟨rfl, rfl, rfl, rfl⟩ := hs
  exact not_inRing rfl (hk.put rfl)

end Lib.Channel

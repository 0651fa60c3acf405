import Sisop.Lib.Devpipe
import Sisop.Library.Run

namespace Lib

open Inc Function Library

namespace Reader

-- The bytes that the call has taken from the pipe.
def taken : Reader → List (BitVec 8)
  | .idle          => []
  | .loadRpos c    => c.buf.take c.i
  | .loadWpos c _  => c.buf.take c.i
  | .empty c       => c.buf.take c.i
  | .index c       => c.buf.take c.i
  | .take c _      => c.buf.take c.i
  | .inc c         => c.buf.take c.i
  | .storeRpos c _ => c.buf.take c.i

end Reader

namespace Writer

-- The bytes of the call that the pipe has accepted.
def accepted : Writer → List (BitVec 8)
  | .idle          => []
  | .loadWpos c    => c.buf.take c.i
  | .loadRpos c _  => c.buf.take c.i
  | .full c        => c.buf.take c.i
  | .index c       => c.buf.take c.i
  | .put c _       => c.buf.take c.i
  | .inc c         => c.buf.take c.i
  | .storeWpos c _ => c.buf.take c.i

end Writer

namespace Channel

-- All bytes that reads have taken so far, and all that writes have put in.
def taken (s : Channel) : List (BitVec 8) := s.returned ++ s.reader.taken

def accepted (s : Channel) : List (BitVec 8) := s.written ++ s.writer.accepted

-- What the reader knows of the bytes `a` that have been accepted and the `r` of them that it has taken.
def ReaderHeld (pipe : Pipe) (a : List (BitVec 8)) (r : Nat) : Reader → Prop
  | .idle             => True
  | .loadRpos c       => c.buf.length = c.i
  | .loadWpos c rpos  => c.buf.length = c.i ∧ rpos = pipe.pRpos
  | .empty c          => c.buf.length = c.i
  | .index c          => c.buf.length = c.i ∧ r < a.length
  | .take c rpos      => c.buf.length = c.i ∧ r < a.length ∧ rpos = pipe.pRpos
  | .inc c            => c.buf.length = c.i + 1 ∧ r < a.length ∧ c.buf[c.i]? = a[r]?
  | .storeRpos c rpos =>
    c.buf.length = c.i + 1 ∧ r < a.length ∧ c.buf[c.i]? = a[r]? ∧ rpos = pipe.pRpos

-- What the writer knows when the pipe has accepted `w` bytes, of which `r` have been taken.
def WriterHeld (pipe : Pipe) (w r : Nat) : Writer → Prop
  | .idle             => True
  | .loadWpos c       => c.i < c.buf.length
  | .loadRpos c wpos  => c.i < c.buf.length ∧ wpos = pipe.pWpos
  | .full c           => c.i < c.buf.length
  | .index c          => c.i < c.buf.length ∧ w < r + PIPEBUFSIZ
  | .put c wpos       => c.i < c.buf.length ∧ w < r + PIPEBUFSIZ ∧ wpos = pipe.pWpos
  | .inc c            => c.i < c.buf.length ∧ w < r + PIPEBUFSIZ ∧
    c.buf[c.i]? = some (pipe.pBuf (w % PIPEBUFSIZ : Nat))
  | .storeWpos c wpos => c.i < c.buf.length ∧ w < r + PIPEBUFSIZ ∧
    c.buf[c.i]? = some (pipe.pBuf (w % PIPEBUFSIZ : Nat)) ∧ wpos = pipe.pWpos

structure Inv (s : Channel) : Prop where
  rpos   : s.pipe.pRpos.toNat = s.taken.length
  wpos   : s.pipe.pWpos.toNat = s.accepted.length
  le     : s.accepted.length ≤ s.taken.length + PIPEBUFSIZ
  fifo   : s.taken <+: s.accepted
  -- The bytes that have not been taken are in the buffer.
  unread : ∀ {k}, s.taken.length ≤ k → k < s.accepted.length →
    s.accepted[k]? = some (s.pipe.pBuf (k % PIPEBUFSIZ : Nat))
  reader : ReaderHeld s.pipe s.accepted s.taken.length s.reader
  writer : WriterHeld s.pipe s.accepted.length s.taken.length s.writer

section Held

variable {pipe pipe' : Pipe} {a a' : List (BitVec 8)} {w r r' : Nat} {q : Reader} {d : Writer}

theorem ReaderHeld.mono (h : ReaderHeld pipe a r q) (ha : a <+: a') (hp : pipe'.pRpos = pipe.pRpos) :
    ReaderHeld pipe' a' r q := by
  obtain ⟨t, rfl⟩ := ha
  have hl {r : Nat} (hr : r < a.length) : r < (a ++ t).length ∧ (a ++ t)[r]? = a[r]? := by
    rw [List.length_append]
    exact ⟨Nat.lt_add_right _ hr, List.getElem?_append_left hr⟩
  cases q
  case idle => trivial
  case loadRpos => exact h
  case loadWpos => exact ⟨h.1, h.2.trans hp.symm⟩
  case empty => exact h
  case index => exact ⟨h.1, (hl h.2).1⟩
  case take => exact ⟨h.1, (hl h.2.1).1, h.2.2.trans hp.symm⟩
  case inc => exact ⟨h.1, (hl h.2.1).1, h.2.2.trans (hl h.2.1).2.symm⟩
  case storeRpos =>
    exact ⟨h.1, (hl h.2.1).1, h.2.2.1.trans (hl h.2.1).2.symm, h.2.2.2.trans hp.symm⟩

theorem WriterHeld.mono (h : WriterHeld pipe w r d) (hr : r ≤ r') (hp : pipe'.pWpos = pipe.pWpos)
    (hb : pipe'.pBuf = pipe.pBuf) : WriterHeld pipe' w r' d := by
  have hle (hw : w < r + PIPEBUFSIZ) : w < r' + PIPEBUFSIZ :=
    lt_of_lt_of_le hw (Nat.add_le_add_right hr _)
  cases d
  case idle => trivial
  case loadWpos => exact h
  case loadRpos => exact ⟨h.1, h.2.trans hp.symm⟩
  case full => exact h
  case index => exact ⟨h.1, hle h.2⟩
  case put => exact ⟨h.1, hle h.2.1, h.2.2.trans hp.symm⟩
  case inc => exact ⟨h.1, hle h.2.1, hb ▸ h.2.2⟩
  case storeWpos => exact ⟨h.1, hle h.2.1, hb ▸ h.2.2.1, h.2.2.2.trans hp.symm⟩

end Held

variable {s : Channel} {n : Nat} {buf : List (BitVec 8)} {closed : Bool} {pos : Word}

-- Positions are not negative as long as fewer than 2 ^ 31 bytes have gone through the pipe. The
-- remainder of the first negative one is still 0.
theorem pipeIndex_eq (h : pos.toNat ≤ 2147483648) : pipeIndex pos = (pos.toNat % PIPEBUFSIZ : Nat) := by
  rw [pipeIndex, BitVec.toInt_srem, BitVec.toInt_eq_toNat_cond, show (32#32).toInt = 32 by rfl, PIPEBUFSIZ]
  split
  case isTrue  => exact (Int.ofNat_tmod _ _).symm
  case isFalse =>
    have hp : pos.toNat = 2147483648 := by omega
    rw [hp]
    rfl

theorem init_inv : init.Inv := by
  constructor
  case rpos => rfl
  case wpos => rfl
  case le => exact Nat.zero_le _
  case fifo => exact List.prefix_rfl
  case unread => exact fun _ h => absurd h (Nat.not_lt_zero _)
  case reader => trivial
  case writer => trivial

section Loop

variable {c : Read} {d : Write}

theorem accepted_endWrite {r : Nat} : (s.endWrite d r).accepted = s.written ++ d.buf.take d.i :=
  List.append_nil _

theorem accepted_forWrite : (s.forWrite d).accepted = s.written ++ d.buf.take d.i := by
  rw [forWrite]
  split
  case isTrue => rfl
  case isFalse => exact accepted_endWrite

-- What has been accepted stays accepted.
theorem accepted_stepWrite : s.accepted <+: (s.stepWrite buf closed).accepted := by
  have hi (c : Write) : s.written ++ c.buf.take c.i <+: s.written ++ c.buf.take (c.i + 1) :=
    (List.prefix_append_right_inj _).mpr (List.take_prefix_take_left (Nat.le_succ _))
  rw [stepWrite, accepted]
  cases hw : s.writer
  case idle =>
    rw [accepted_forWrite]
    exact List.prefix_rfl
  case loadWpos c => exact List.prefix_rfl
  case loadRpos c wpos =>
    dsimp only
    split <;> exact List.prefix_rfl
  case full c =>
    dsimp only
    split
    case isTrue =>
      rw [accepted_endWrite]
      exact List.prefix_rfl
    case isFalse => exact List.prefix_rfl
  case index c => exact List.prefix_rfl
  case put c wpos => exact List.prefix_rfl
  case inc c => exact List.prefix_rfl
  case storeWpos c wpos =>
    rw [accepted_forWrite]
    exact hi c

theorem accepted_stepRead : (s.stepRead n closed).accepted = s.accepted := by
  have hf (c : Read) (s : Channel) : (s.forRead c).accepted = s.accepted := by
    rw [forRead]
    split <;> rfl
  rw [stepRead]
  cases hr : s.reader
  case idle => exact hf _ s
  case loadWpos =>
    dsimp only
    split <;> rfl
  case empty =>
    dsimp only
    split_ifs <;> rfl
  case storeRpos => exact hf _ _
  all_goals rfl

end Loop

section Reader

variable (h : s.Inv) {q : Reader} {x : List (BitVec 8)}

include h

-- A step of the reader that takes no byte.
theorem Inv.readLocal (ht : x ++ q.taken = s.taken)
    (hq : ReaderHeld s.pipe s.accepted s.taken.length q) :
    Inv { s with reader := q, returned := x } := by
  have ht : taken { s with reader := q, returned := x } = s.taken := ht
  constructor
  case rpos => exact ht ▸ h.rpos
  case wpos => exact h.wpos
  case le => exact ht ▸ h.le
  case fifo => exact ht ▸ h.fifo
  case unread => exact ht ▸ h.unread
  case reader => exact ht ▸ hq
  case writer => exact ht ▸ h.writer

theorem Inv.readTurn {c : Read} (ht : s.returned ++ c.buf.take c.i = s.taken)
    (hc : c.buf.length = c.i) : (s.forRead c).Inv := by
  rw [forRead]
  split
  case isTrue => exact h.readLocal (x := s.returned) ht hc
  case isFalse => exact h.readLocal (q := .idle) ((List.append_nil _).trans ht) trivial

-- The reader moves on behind the byte that it has taken.
theorem Inv.readStore {c : Read} (hlt : s.accepted.length ≤ 2147483649)
    (hr : s.reader = .storeRpos c s.pipe.pRpos) (hc : c.buf.length = c.i + 1)
    (hta : s.taken.length < s.accepted.length) (hb : c.buf[c.i]? = s.accepted[s.taken.length]?) :
    (forRead { s with pipe := { s.pipe with pRpos := s.pipe.pRpos + 1 } }
      { c with i := c.i + 1 }).Inv := by
  obtain ⟨x, hx⟩ : ∃ x, s.accepted[s.taken.length]? = some x :=
    ⟨_, List.getElem?_eq_getElem hta⟩
  have ht : s.returned ++ c.buf.take (c.i + 1) = s.taken ++ [x] := by
    rw [taken, hr, List.take_add_one, hb, hx, List.append_assoc]
    rfl
  have ht' : taken { s with
      pipe     := { s.pipe with pRpos := s.pipe.pRpos + 1 }
      reader   := .idle
      returned := s.taken ++ [x] } = s.taken ++ [x] := List.append_nil _
  have hpre : s.taken ++ [x] <+: s.accepted := by
    have hta' := List.prefix_iff_eq_take.mp h.fifo
    have he : s.taken ++ [x] = s.accepted.take (s.taken.length + 1) := by
      rw [List.take_add_one, hx, ← hta']
      rfl
    rw [he]
    exact List.take_prefix _ _
  have h' : Inv { s with
      pipe     := { s.pipe with pRpos := s.pipe.pRpos + 1 }
      reader   := .idle
      returned := s.taken ++ [x] } := by
    constructor
    case rpos =>
      rw [ht', List.length_append, List.length_singleton, ← h.rpos]
      have := h.rpos
      exact BitVec.toNat_add_of_lt (show s.pipe.pRpos.toNat + 1 < 2 ^ 32 by omega)
    case wpos => exact h.wpos
    case le =>
      rw [ht', List.length_append]
      exact h.le.trans (Nat.add_le_add_right (Nat.le_add_right _ _) _)
    case fifo =>
      rw [ht']
      exact hpre
    case unread =>
      intro k h₁ h₂
      rw [ht', List.length_append] at h₁
      exact h.unread (Nat.le_of_add_right_le h₁) h₂
    case reader => trivial
    case writer =>
      rw [ht', List.length_append]
      exact h.writer.mono (Nat.le_add_right _ _) rfl rfl
  rw [forRead]
  split
  case isTrue => exact h'.readLocal (q := .loadRpos _) (x := s.returned) (ht.trans ht'.symm) hc
  case isFalse =>
    exact h'.readLocal (q := .idle) ((List.append_nil _).trans (ht.trans ht'.symm)) trivial

theorem Inv.stepRead (hlt : s.accepted.length ≤ 2147483649) : (s.stepRead n closed).Inv := by
  have hr := h.reader
  have ht : s.taken = s.returned ++ s.reader.taken := rfl
  rw [Channel.stepRead]
  cases hq : s.reader <;> rw [hq] at hr ht
  case idle => exact h.readTurn ht.symm rfl
  case loadRpos c => exact h.readLocal ht.symm ⟨hr, rfl⟩
  case loadWpos c rpos =>
    dsimp only
    split
    case isTrue => exact h.readLocal ht.symm hr.1
    case isFalse hne =>
      refine h.readLocal ht.symm ⟨hr.1, lt_of_le_of_ne h.fifo.length_le fun he => hne ?_⟩
      rw [hr.2]
      exact BitVec.eq_of_toNat_eq (by rw [h.rpos, h.wpos, he])
  case empty c =>
    dsimp only
    have he : (s.endRead c).Inv := h.readLocal (q := .idle) ((List.append_nil _).trans ht.symm) trivial
    split
    case isTrue => exact he
    case isFalse =>
      split
      case isTrue => exact he
      case isFalse => exact h.readLocal ht.symm hr
  case index c => exact h.readLocal ht.symm ⟨hr.1, hr.2, rfl⟩
  case take c rpos =>
    obtain ⟨hc, hta, rfl⟩ := hr
    have hx := h.unread le_rfl hta
    refine h.readLocal ?_ ⟨?_, hta, ?_⟩
    · rw [ht, Reader.taken, Reader.taken, List.take_append_of_le_length hc.ge]
    · rw [List.length_append, hc, List.length_singleton]
    · rw [hx, pipeIndex_eq (by rw [h.rpos]; omega), h.rpos]
      simp [hc]
  case inc c => exact h.readLocal ht.symm ⟨hr.1, hr.2.1, hr.2.2, rfl⟩
  case storeRpos c rpos =>
    obtain ⟨hc, hta, hb, rfl⟩ := hr
    exact h.readStore hlt hq hc hta hb

end Reader

section Writer

variable (h : s.Inv) {q : Writer} {x : List (BitVec 8)} {y : List Nat}

include h

-- A step of the writer by which the pipe accepts no byte.
theorem Inv.writeLocal (ha : x ++ q.accepted = s.accepted)
    (hq : WriterHeld s.pipe s.accepted.length s.taken.length q) :
    Inv { s with writer := q, written := x, codes := y } := by
  have ha : accepted { s with writer := q, written := x, codes := y } = s.accepted := ha
  constructor
  case rpos => exact h.rpos
  case wpos => exact ha ▸ h.wpos
  case le => exact ha ▸ h.le
  case fifo => exact ha ▸ h.fifo
  case unread => exact ha ▸ h.unread
  case reader => exact ha ▸ h.reader
  case writer => exact ha ▸ hq

theorem Inv.writeTurn {c : Write} (ha : s.written ++ c.buf.take c.i = s.accepted) :
    (s.forWrite c).Inv := by
  rw [forWrite]
  split
  case isTrue hlt => exact h.writeLocal (x := s.written) (y := s.codes) ha hlt
  case isFalse => exact h.writeLocal (q := .idle) ((List.append_nil _).trans ha) trivial

-- The byte is stored where no byte is that has not been taken.
theorem Inv.writePut {c : Write} (hlt : s.accepted.length ≤ 2147483648)
    (hw : s.writer = .put c s.pipe.pWpos) (hi : c.i < c.buf.length)
    (hroom : s.accepted.length < s.taken.length + PIPEBUFSIZ) :
    Inv { s with
      pipe   := { s.pipe with
        pBuf := update s.pipe.pBuf (pipeIndex s.pipe.pWpos) (c.buf.getD c.i 0) }
      writer := .inc c } := by
  have ha : accepted { s with
      pipe   := { s.pipe with
        pBuf := update s.pipe.pBuf (pipeIndex s.pipe.pWpos) (c.buf.getD c.i 0) }
      writer := .inc c } = s.accepted := by
    rw [accepted, accepted, hw]
    rfl
  have hx : pipeIndex s.pipe.pWpos = (s.accepted.length % PIPEBUFSIZ : Nat) := by
    rw [pipeIndex_eq (by rw [h.wpos]; omega), h.wpos]
  constructor
  case rpos => exact h.rpos
  case wpos => exact ha ▸ h.wpos
  case le => exact ha ▸ h.le
  case fifo => exact ha ▸ h.fifo
  case unread =>
    intro k h₁ h₂
    rw [ha] at h₂ ⊢
    rw [h.unread h₁ h₂, hx]
    refine congrArg some (update_of_ne (fun he => ?_) _ _).symm
    have he := Int.natCast_inj.mp he
    have h₁ : s.taken.length ≤ k := h₁
    rw [PIPEBUFSIZ] at *
    omega
  case reader => exact ha ▸ h.reader.mono List.prefix_rfl rfl
  case writer =>
    rw [ha]
    refine ⟨hi, hroom, ?_⟩
    rw [hx, List.getElem?_eq_getElem hi]
    have hu : update s.pipe.pBuf (s.accepted.length % PIPEBUFSIZ : Nat) (c.buf.getD c.i 0)
        (s.accepted.length % PIPEBUFSIZ : Nat) = c.buf.getD c.i 0 := update_self _ _ _
    refine congrArg some (Eq.trans ?_ hu.symm)
    rw [List.getD_eq_getElem?_getD, List.getElem?_eq_getElem hi, Option.getD_some]

theorem Inv.writeStore {c : Write} (hlt : s.accepted.length ≤ 2147483649)
    (hw : s.writer = .storeWpos c s.pipe.pWpos)
    (hroom : s.accepted.length < s.taken.length + PIPEBUFSIZ)
    (hb : c.buf[c.i]? = some (s.pipe.pBuf (s.accepted.length % PIPEBUFSIZ : Nat))) :
    (forWrite { s with pipe := { s.pipe with pWpos := s.pipe.pWpos + 1 } }
      { c with i := c.i + 1 }).Inv := by
  obtain ⟨x, hbuf⟩ : ∃ x, s.pipe.pBuf (s.accepted.length % PIPEBUFSIZ : Nat) = x := ⟨_, rfl⟩
  rw [hbuf] at hb
  have ha : s.written ++ c.buf.take (c.i + 1) = s.accepted ++ [x] := by
    rw [accepted, hw, List.take_add_one, hb, List.append_assoc]
    rfl
  have ha' : accepted { s with
      pipe    := { s.pipe with pWpos := s.pipe.pWpos + 1 }
      writer  := .idle
      written := s.accepted ++ [x] } = s.accepted ++ [x] := List.append_nil _
  have hl : (s.accepted ++ [x]).length = s.accepted.length + 1 := by simp
  have h' : Inv { s with
      pipe    := { s.pipe with pWpos := s.pipe.pWpos + 1 }
      writer  := .idle
      written := s.accepted ++ [x] } := by
    constructor
    case rpos => exact h.rpos
    case wpos =>
      rw [ha', hl, ← h.wpos]
      have := h.wpos
      exact BitVec.toNat_add_of_lt (show s.pipe.pWpos.toNat + 1 < 2 ^ 32 by omega)
    case le =>
      rw [ha', hl]
      exact hroom
    case fifo =>
      rw [ha']
      exact h.fifo.trans (List.prefix_append _ _)
    case unread =>
      intro k h₁ h₂
      rw [ha', hl] at h₂
      rw [ha']
      by_cases hk : k = s.accepted.length
      · subst hk
        rw [List.getElem?_append_right le_rfl, Nat.sub_self]
        exact congrArg some hbuf.symm
      · rw [List.getElem?_append_left (by omega)]
        exact h.unread h₁ (by omega)
    case reader =>
      rw [ha']
      exact h.reader.mono (List.prefix_append _ _) rfl
    case writer => trivial
  rw [forWrite]
  split
  case isTrue hlt' => exact h'.writeLocal (x := s.written) (y := s.codes) (ha.trans ha'.symm) hlt'
  case isFalse =>
    exact h'.writeLocal (q := .idle) ((List.append_nil _).trans (ha.trans ha'.symm)) trivial

theorem Inv.stepWrite (hlt : s.accepted.length ≤ 2147483649)
    (hput : ∀ c wpos, s.writer = .put c wpos → s.accepted.length ≤ 2147483648) :
    (s.stepWrite buf closed).Inv := by
  have hw := h.writer
  have ha : s.accepted = s.written ++ s.writer.accepted := rfl
  rw [Channel.stepWrite]
  cases hq : s.writer <;> rw [hq] at hw ha
  case idle => exact h.writeTurn ha.symm
  case loadWpos c => exact h.writeLocal ha.symm ⟨hw, rfl⟩
  case loadRpos c wpos =>
    dsimp only
    split
    case isTrue => exact h.writeLocal ha.symm hw.1
    case isFalse hfull =>
      refine h.writeLocal ha.symm ⟨hw.1, ?_⟩
      have hr := h.rpos
      have hwp := h.wpos
      have hpre := h.fifo.length_le
      rw [hw.2, BitVec.le_def, BitVec.toNat_add, show (32#32).toNat = 32 by rfl] at hfull
      rw [PIPEBUFSIZ]
      omega
  case full c =>
    dsimp only
    split
    case isTrue => exact h.writeLocal (q := .idle) ((List.append_nil _).trans ha.symm) trivial
    case isFalse => exact h.writeLocal ha.symm hw
  case index c => exact h.writeLocal ha.symm ⟨hw.1, hw.2, rfl⟩
  case put c wpos =>
    obtain ⟨hi, hroom, rfl⟩ := hw
    exact h.writePut (hput _ _ hq) hq hi hroom
  case inc c => exact h.writeLocal ha.symm ⟨hw.1, hw.2.1, hw.2.2, rfl⟩
  case storeWpos c wpos =>
    obtain ⟨hi, hroom, hb, rfl⟩ := hw
    exact h.writeStore hlt hq hroom hb

end Writer

-- The steps of the two processes, in any order.
def Step (s : Channel) (ev : Event) (s' : Channel) : Prop := s' = s.next ev

theorem accepted_next {ev : Event} : s.accepted <+: (s.next ev).accepted := by
  cases ev
  case reader => exact accepted_stepRead.symm ▸ List.prefix_rfl
  case writer => exact accepted_stepWrite

theorem Inv.next {ev : Event} (h : s.Inv) (hlt : s.accepted.length ≤ 2147483649)
    (hput : ∀ c wpos, s.writer = .put c wpos → s.accepted.length ≤ 2147483648) :
    (s.next ev).Inv := by
  cases ev
  case reader => exact h.stepRead hlt
  case writer => exact h.stepWrite hlt hput

theorem inv_of_run (r : Run Step (fun _ _ => True) init s) (hlt : s.accepted.length < 2147483648) :
    s.Inv := by
  induction r
  case refl => exact init_inv
  case tail hs hi =>
    cases hs
    have hlt' := lt_of_le_of_lt accepted_next.length_le hlt
    exact (hi hlt').next (by omega) fun _ _ _ => hlt'.le

-- The ring of a pipe with one reader and one writer is a queue, in every state of every interleaving
-- in which the writes have put in fewer than 2 ^ 31 bytes.
theorem pipe_fifo (r : Run Step (fun _ _ => True) init s) (hlt : s.accepted.length < 2147483648) :
    0 ≤ s.pipe.pWpos.toInt - s.pipe.pRpos.toInt ∧
      s.pipe.pWpos.toInt - s.pipe.pRpos.toInt ≤ PIPEBUFSIZ ∧
      s.returned <+: s.accepted ∧
      ∀ k, s.taken.length ≤ k → k < s.accepted.length →
        s.accepted[k]? = some (s.pipe.pBuf (k % PIPEBUFSIZ : Nat)) := by
  have h := inv_of_run r hlt
  have hle := h.fifo.length_le
  have hr := h.rpos
  have hw := h.wpos
  have hd := h.le
  have hi {pos : Word} (hp : pos.toNat < 2147483648) : pos.toInt = pos.toNat := by
    rw [BitVec.toInt_eq_toNat_cond, if_pos (by omega)]
  rw [hi (by omega), hi (by omega)]
  refine ⟨by omega, by omega, (List.prefix_append _ _).trans h.fifo, fun k => h.unread⟩

theorem run_foldl {evs : List Event} (r : Run Step (fun _ _ => True) init s) :
    Run Step (fun _ _ => True) init (evs.foldl next s) := by
  induction evs generalizing s
  case nil => exact r
  case cons ev evs hi => exact hi (r.tail trivial rfl)

-- A byte is written and read.
def oneByte : Channel :=
  (List.replicate 7 (Event.writer [7#8] false) ++ List.replicate 8 (Event.reader 1 false)).foldl next init

theorem pipe_fifo_oneByte : oneByte.returned = [7#8] ∧
    0 ≤ oneByte.pipe.pWpos.toInt - oneByte.pipe.pRpos.toInt ∧
      oneByte.pipe.pWpos.toInt - oneByte.pipe.pRpos.toInt ≤ PIPEBUFSIZ ∧
      oneByte.returned <+: oneByte.accepted ∧
      ∀ k, oneByte.taken.length ≤ k → k < oneByte.accepted.length →
        oneByte.accepted[k]? = some (oneByte.pipe.pBuf (k % PIPEBUFSIZ : Nat)) :=
  ⟨by decide, pipe_fifo (run_foldl .refl) (by decide)⟩

end Channel

end Lib

import Sisop.Fs.Theorems.Client

namespace Fs.Client

open Inc Library Function

-- A call of `read` or `readn`.
inductive Request
  | read (n : Word)
  | readn (n : Word)
deriving DecidableEq

-- How many bytes a request gets, if there are so many: one page at most in a `read`.
def Request.size : Request → Nat
  | .read n  => min n.toNat 4096
  | .readn n => n.toNat

def Request.run (fd : Nat) : Request → ServProg (Option (Word × List (BitVec 8)))
  | .read n  => do
    let a ← Client.read fd n
    pure (some a)
  | .readn n => Client.readn fd n

-- The results of the requests, one after the other.
def requests (fd : Nat) : List Request → ServProg (List (Option (Word × List (BitVec 8))))
  | []      => pure []
  | q :: qs => do
    let r ← q.run fd
    let rs ← requests fd qs
    pure (r :: rs)

-- All bytes that are returned.
def bytes (rs : List (Option (Word × List (BitVec 8)))) : List (BitVec 8) :=
  rs.flatMap fun r => (r.map Prod.snd).getD []

def total (qs : List Request) : Nat := (qs.map Request.size).sum

-- What the requests should return from the position `x` on.
def answers (data : List (BitVec 8)) : Nat → List Request → List (Option (Word × List (BitVec 8)))
  | _, []      => []
  | x, q :: qs =>
    some (BitVec.ofNat 32 (min q.size (data.length - x)), (data.drop x).take q.size) ::
      answers data (x + min q.size (data.length - x)) qs

-- A descriptor that can be read from, at the position `x` of a file with the contents `data` on the disk `m`.
structure Reading (o f : Nat) (data : List (BitVec 8)) (m : Memory) (x : Nat) (s : Serv) : Prop where
  opened : Open s o f x
  mem    : s.mem = m
  source : Holds m f data
  reads  : (s.oFd o).fdOmode &&& O_ACCMODE ≠ O_WRONLY
  pos    : x < 2147483648

-- The requests return what they should, the position goes on by the bytes that are returned, and these are a
-- prefix of what is left of the file. Other requests of the same total return the same bytes.
structure Chunked (o f : Nat) (data : List (BitVec 8)) (x : Nat) (s : Serv) (qs : List Request) : Prop where
  run    : ∃ s', requests o qs s = .ok (answers data x qs) s' ∧
    Reading o f data s.mem (x + (bytes (answers data x qs)).length) s'
  start  : bytes (answers data x qs) <+: data.drop x
  splits : ∀ qs', total qs' = total qs → ∃ rs s', requests o qs' s = .ok rs s' ∧
    bytes rs = bytes (answers data x qs)

variable {m : Memory} {s : Serv} {o f x a c : Nat} {n tot : Word} {data buf l : List (BitVec 8)}
  {q : Request} {qs qs' : List Request}

section Lists

-- A part of the list, and then the rest.
theorem take_chunk (h : c ≤ a) :
    l.take a = l.take c ++ (l.drop (l.take c).length).take (a - (l.take c).length) := by
  obtain ⟨j, rfl⟩ := Nat.exists_eq_add_of_le h
  rw [List.take_add]
  by_cases hc : c ≤ l.length
  · rw [List.length_take_of_le hc, Nat.add_sub_cancel_left]
  · rw [List.take_of_length_le (by omega), List.drop_eq_nil_of_le (by omega), List.drop_length]
    simp

theorem got_length : ((data.drop x).take a).length = min a (data.length - x) := by
  rw [List.length_take, List.length_drop]

theorem take_next (h : c ≤ a) : (data.drop x).take a = (data.drop x).take c ++
    (data.drop (x + min c (data.length - x))).take (a - min c (data.length - x)) := by
  rw [take_chunk h, got_length, List.drop_drop]

theorem bytes_answers : bytes (answers data x qs) = (data.drop x).take (total qs) := by
  induction qs generalizing x
  case nil => simp [answers, bytes, total]
  case cons q qs ih =>
    have ht : total (q :: qs) = q.size + total qs := by simp [total]
    have hb : bytes (answers data x (q :: qs)) = (data.drop x).take q.size ++
        bytes (answers data (x + min q.size (data.length - x)) qs) := by
      simp [answers, bytes]
    rw [ht, hb, ih, take_next (Nat.le_add_right q.size (total qs))]
    by_cases hq : q.size ≤ data.length - x
    · rw [Nat.min_eq_left hq, Nat.add_sub_cancel_left]
    · have hnil : data.drop (x + (data.length - x)) = [] := List.drop_eq_nil_of_le (by omega)
      rw [Nat.min_eq_right (by omega), hnil, List.take_nil, List.take_nil]

end Lists

section Spec

-- One `read`
theorem Reading.read (h : Reading o f data m x s) : (read o n).wp False (fun _ _ => False)
    (fun r s' => r = (BitVec.ofNat 32 (min (min n.toNat 4096) (data.length - x)),
        (data.drop x).take (min n.toNat 4096)) ∧
      Reading o f data m (x + min (min n.toNat 4096) (data.length - x)) s') s := by
  have hM : MAXFILESIZE = 1034 * 4096 := by decide
  have hlen := h.source.length
  have hpos := h.pos
  rw [Client.read, Prog.wp_bind, Prog.wp_get, if_neg h.reads]
  have hread := devfileRead_spec (n := n) h.opened (h.mem ▸ h.source) h.pos
  refine hread.mono id (fun _ _ => False.elim) fun r s' hs => ?_
  obtain ⟨r, got⟩ := r
  simp only at hs
  obtain ⟨rfl, rfl, hm, hmem⟩ := hs
  rw [got_length] at hm ⊢
  have hr : (BitVec.ofNat 32 (min (min n.toNat 4096) (data.length - x))).toNat =
      min (min n.toNat 4096) (data.length - x) := by
    rw [BitVec.toNat_ofNat]
    omega
  have ho := hm.open_self h.opened (by omega)
  rw [hr] at ho
  exact ⟨rfl, ho, hmem.trans h.mem, h.source, by rw [hm.mode]; exact h.reads, by omega⟩

-- The loop of `readn` ends, and it reads what is left of `n`.
theorem Reading.readnLoop {k : Nat} (h : Reading o f data m x s) (htot : tot.toNat ≤ n.toNat)
    (hk : n.toNat - tot.toNat < k) : (readnLoop o n k tot buf).wp False (fun _ _ => False)
      (fun r s' => r = some (tot + BitVec.ofNat 32 (min (n.toNat - tot.toNat) (data.length - x)),
          buf ++ (data.drop x).take (n.toNat - tot.toNat)) ∧
        Reading o f data m (x + min (n.toNat - tot.toNat) (data.length - x)) s') s := by
  induction k generalizing x s tot buf
  case zero => exact absurd hk (Nat.not_lt_zero _)
  case succ k ih =>
    have hM : MAXFILESIZE = 1034 * 4096 := by decide
    have hlen := h.source.length
    rw [Client.readnLoop, Prog.wp_ite, BitVec.lt_def]
    refine ⟨fun hlt => ?_, fun hge => ?_⟩
    case refine_1 =>
      have hsub : (n - tot).toNat = n.toNat - tot.toNat := BitVec.toNat_sub_of_le (BitVec.le_def.mpr htot)
      have hread := h.read (n := n - tot)
      rw [hsub] at hread
      rw [Prog.wp_bind]
      refine hread.mono id (fun _ _ => False.elim) fun r s' hs => ?_
      obtain ⟨r, got⟩ := r
      rw [Prod.mk.injEq] at hs
      obtain ⟨⟨rfl, rfl⟩, hr⟩ := hs
      have hnext : (data.drop x).take (n.toNat - tot.toNat) = _ := take_next (Nat.min_le_left _ 4096)
      have hgl : ((data.drop x).take (min (n.toNat - tot.toNat) 4096)).length = _ := got_length
      generalize (data.drop x).take (min (n.toNat - tot.toNat) 4096) = got at hnext hgl ⊢
      rw [← hgl] at hnext hr ⊢
      obtain ⟨hl, hneg⟩ := toNat_length (show got.length ≤ 4096 by omega)
      simp only [hneg, Bool.false_eq_true, if_false]
      by_cases hz : got.length = 0
      case pos =>
        -- There is nothing left.
        have hend : data.length - x = 0 := by omega
        rw [hz] at hr ⊢
        rw [if_pos rfl, hend, Nat.min_zero, hnext, hz, Nat.add_zero,
          List.drop_eq_nil_of_le (show data.length ≤ x by omega), List.take_nil, List.append_nil]
        refine ⟨?_, hr⟩
        simp
      case neg =>
        have hne : BitVec.ofNat 32 got.length ≠ 0#32 := by
          intro he
          rw [he] at hl
          exact hz hl.symm
        have htot' : (tot + BitVec.ofNat 32 got.length).toNat = tot.toNat + got.length := by
          rw [BitVec.toNat_add, hl]
          omega
        rw [if_neg hne]
        refine (ih hr (by omega) (by omega)).mono id (fun _ _ => False.elim) fun r s'' hs => ?_
        have hrest : n.toNat - (tot.toNat + got.length) = n.toNat - tot.toNat - got.length := by omega
        have hsum : got.length + min (n.toNat - tot.toNat - got.length) (data.length - (x + got.length)) =
            min (n.toNat - tot.toNat) (data.length - x) := by omega
        rw [htot', hrest] at hs
        rw [hnext, ← hsum, BitVec.ofNat_add, ← BitVec.add_assoc, ← List.append_assoc, ← Nat.add_assoc]
        exact hs
    case refine_2 =>
      have h₀ : n.toNat - tot.toNat = 0 := by omega
      rw [h₀, Nat.zero_min, List.take_zero, List.append_nil]
      refine ⟨?_, h⟩
      simp

theorem Reading.request (h : Reading o f data m x s) : (q.run o).wp False (fun _ _ => False)
    (fun r s' => r = some (BitVec.ofNat 32 (min q.size (data.length - x)), (data.drop x).take q.size) ∧
      Reading o f data m (x + min q.size (data.length - x)) s') s := by
  cases q
  case read n =>
    rw [Request.run, Prog.wp_bind]
    refine h.read.mono id (fun _ _ => False.elim) fun r s' hs => ?_
    obtain ⟨rfl, hr⟩ := hs
    exact ⟨rfl, hr⟩
  case readn n =>
    have hx : (Client.readnLoop o n (n.toNat + 1) 0#32 []).wp False _ _ s :=
      h.readnLoop (Nat.zero_le _) (Nat.lt_succ_self _)
    simpa [Request.run, readn, Request.size] using hx

theorem Reading.requests (h : Reading o f data m x s) : (requests o qs).wp False (fun _ _ => False)
    (fun rs s' => rs = answers data x qs ∧
      Reading o f data m (x + (bytes (answers data x qs)).length) s') s := by
  induction qs generalizing x s
  case nil => exact ⟨rfl, h⟩
  case cons q qs ih =>
    rw [Client.requests, Prog.wp_bind]
    refine h.request.mono id (fun _ _ => False.elim) fun r s' hs => ?_
    obtain ⟨rfl, hr⟩ := hs
    rw [Prog.wp_bind]
    refine (ih hr).mono id (fun _ _ => False.elim) fun rs s'' hs => ?_
    obtain ⟨rfl, hr⟩ := hs
    have hl : (bytes (answers data x (q :: qs))).length = min q.size (data.length - x) +
        (bytes (answers data (x + min q.size (data.length - x)) qs)).length := by
      rw [← got_length]
      simp [answers, bytes]
    rw [hl, ← Nat.add_assoc]
    exact ⟨rfl, hr⟩

end Spec

-- Reads of a file without holes do not depend on how they are split.
theorem reads_chunked (h : Reading o f data m x s) : Chunked o f data x s qs := by
  have hm := h.mem
  subst hm
  refine ⟨?_, ?_, fun qs' ht => ?_⟩
  · have hrun : (requests o qs).wp False _ _ s := h.requests
    obtain ⟨_, s', hx, rfl, hr⟩ := hrun.exists_ok
    exact ⟨s', hx, hr⟩
  · rw [bytes_answers]
    exact List.take_prefix _ _
  · have hrun : (requests o qs').wp False _ _ s := h.requests
    obtain ⟨_, s', hx, rfl, -⟩ := hrun.exists_ok
    refine ⟨_, s', hx, ?_⟩
    rw [bytes_answers, bytes_answers, ht]

-- The file `/a` of the sample, which has one block
theorem reads_chunked_fileA :
    Chunked 0 Sample.fileA dataA 0 opened [.read 100#32, .readn 5000#32, .read 0#32] :=
  reads_chunked ⟨⟨by decide, rfl, rfl⟩, rfl, holds_fileA, by decide, by decide⟩

section Sample

-- A descriptor that can be read from, at the position `x` of any regular file.
structure Readable (o f x : Nat) (s : Serv) : Prop where
  opened : Open s o f x
  inv    : BlockInv s.mem
  reach  : Reach s.mem f
  notDir : ¬isDir s.mem f
  size   : (s.mem.load32 (fSize f)).toNat ≤ MAXFILESIZE
  reads  : (s.oFd o).fdOmode &&& O_ACCMODE ≠ O_WRONLY
  pos    : x < 2147483648

def Request.asked : Request → Nat
  | .read n  => n.toNat
  | .readn n => n.toNat

-- Requests that ask for the same number of bytes return the same bytes.
def SplitsAgree (o : Nat) (s : Serv) : Prop :=
  ∀ qs qs' : List Request, (qs.map Request.asked).sum = (qs'.map Request.asked).sum →
    ∃ rs rs' s' s'', requests o qs s = .ok rs s' ∧ requests o qs' s = .ok rs' s'' ∧ bytes rs = bytes rs'

-- The file `/a` has two blocks, 4 and 5.
def long : Memory := Sample.ofBytes
  [(4100, 8), (4104, 0x2F), (4233, 0x10), (4236, 1), (4240, 3), (8192, 0xC0),
    (12288, 0x61), (12417, 0x20), (12424, 4), (12428, 5)]

-- The second block of the file `/a` is a hole, and the disk is full.
def holed : Memory := Sample.ofBytes
  [(4100, 8), (4104, 0x2F), (4233, 0x10), (4236, 1), (4240, 3),
    (12288, 0x61), (12417, 0x20), (12424, 4)]

theorem image_long : Sample.Image long [Sample.fileA] 2 where
  checked := ⟨by decide, by decide⟩
  root    := by
    rw [isDir]
    decide
  block   := by decide
  entries := by decide
  regular := List.forall_mem_singleton.mpr (by rw [isDir]; decide)
  null    := by decide
  rootPtr := by decide
  filePtr := by decide
  valid   := by decide

theorem image_holed : Sample.Image holed [Sample.fileA] 1 where
  checked := ⟨by decide, by decide⟩
  root    := by
    rw [isDir]
    decide
  block   := by decide
  entries := by decide
  regular := List.forall_mem_singleton.mpr (by rw [isDir]; decide)
  null    := by decide
  rootPtr := by decide
  filePtr := by decide
  valid   := by decide

theorem reach_image {files : List Nat} {k : Nat} (i : Sample.Image m files k)
    (h : m Sample.fileA ≠ 0#8) : Reach m Sample.fileA := by
  have hs : slot m sRoot 0 0 = Sample.fileA := by
    rw [slot, i.rootPtr 0 (by decide)]
    rfl
  have hr := i.reach_slot (j := 0) (by decide)
  rw [hs] at hr
  exact hr h

-- The disk `m`, with the file `/a` open at the position `x`.
def reader (m : Memory) (x : Word) : Serv :=
  { opened with mem := m, oFile := fun _ => Sample.fileA, oFd := fun _ => ⟨0x66#32, x, 0#32, 0#32⟩ }

theorem reading_long : Reading 0 Sample.fileA
    (content long Sample.fileA 0 (long.load32 (fSize Sample.fileA)).toNat) long 0 (reader long 0#32) := by
  have hr := reach_image image_long (by decide)
  have hd := image_long.regular _ (List.mem_singleton_self _)
  have hw : Whole long Sample.fileA := by
    refine ⟨fun k hk _ => ?_, by decide⟩
    have hb : blocks (long.load32 (fSize Sample.fileA)).toNat = 2 := by decide
    have hk' : k = 0 ∨ k = 1 := by omega
    obtain rfl | rfl := hk' <;> decide
  have hc := contents_whole image_long.blockInv hr hd hw
  exact ⟨⟨by decide, rfl, rfl⟩, rfl, ⟨image_long.blockInv, hr, hd, hw, hc⟩, by decide, by decide⟩

theorem readable_holed : Readable 0 Sample.fileA 4095 (reader holed 4095#32) :=
  ⟨⟨by decide, rfl, rfl⟩, image_holed.blockInv, reach_image image_holed (by decide),
    image_holed.regular _ (List.mem_singleton_self _), by decide, by decide, by decide⟩

-- A read of a hole panics where the disk is full, and a `read` returns one page at most.
theorem not_reads_chunked :
    (¬∀ {o f x s}, Readable o f x s → SplitsAgree o s) ∧
      ¬∀ {o f data m x s}, Reading o f data m x s → SplitsAgree o s := by
  constructor
  case left =>
    intro h
    obtain ⟨rs, -, s', -, hx, -⟩ := h readable_holed [.read 2#32] [.read 2#32] rfl
    have hp : (requests 0 [.read 2#32] (reader holed 4095#32)).okAnd (fun _ _ => true) = false := by
      decide
    rw [hx] at hp
    cases hp
  case right =>
    intro h
    obtain ⟨rs, rs', s', s'', h₁, h₂, he⟩ := h reading_long [.read 8192#32] [.readn 8192#32] rfl
    have hrun : (requests 0 [.read 8192#32]).wp False _ _ (reader long 0#32) := reading_long.requests
    have hrun' : (requests 0 [.readn 8192#32]).wp False _ _ (reader long 0#32) := reading_long.requests
    have hlen : (long.load32 (fSize Sample.fileA)).toNat = 8192 := by decide
    have hb := (hrun.ok h₁).1
    have hb' := (hrun'.ok h₂).1
    have hl := congrArg List.length he
    rw [hb, hb', bytes_answers, bytes_answers, got_length, got_length, content_length, hlen] at hl
    revert hl
    decide

end Sample

end Fs.Client

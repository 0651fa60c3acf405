import Sisop.Kern.Kbd
import Sisop.Kern.Theorems.Console

namespace Kern.Kbd

open Inc

variable {h : List KeyEvent} {e : KeyEvent} {k : Key} {m x y : Word} {code : BitVec 7}

-- The bits of `shift`.
def bits (s c a k n l : Bool) : Word :=
  (if s then SHIFT else 0#32) ||| (if c then CTL else 0#32) ||| (if a then ALT else 0#32) |||
    (if k then CAPSLOCK else 0#32) ||| (if n then NUMLOCK else 0#32) ||| (if l then SCROLLLOCK else 0#32)

-- What `shift` is between two events.
def word (h : List KeyEvent) : Word :=
  bits (held SHIFT h) (held CTL h) (held ALT h) (toggled CAPSLOCK h) (toggled NUMLOCK h) (toggled SCROLLLOCK h)

theorem shiftcode_mem {data : BitVec 8} : shiftcode data ∈ [0#32, SHIFT, CTL, ALT] := by
  rw [shiftcode]
  split_ifs <;> simp

theorem togglecode_mem {data : BitVec 8} : togglecode data ∈ [0#32, CAPSLOCK, NUMLOCK, SCROLLLOCK] := by
  rw [togglecode]
  split_ifs <;> simp

-- A prefix is taken back.
theorem or_and_not {w : Word} : (w ||| E0ESC) &&& ~~~(x ||| E0ESC) = w &&& ~~~(x ||| E0ESC) := by
  ext i hi
  simp only [BitVec.getElem_and, BitVec.getElem_or, BitVec.getElem_not]
  cases w[i] <;> cases E0ESC[i] <;> simp

theorem or_and_self {w : Word} : (w ||| E0ESC) &&& E0ESC ≠ 0#32 := by
  have h : (w ||| E0ESC) &&& E0ESC = E0ESC := by
    ext i hi
    simp only [BitVec.getElem_and, BitVec.getElem_or]
    cases w[i] <;> cases E0ESC[i] <;> rfl
  rw [h]
  decide

theorem or_and_not_self {w : Word} (h : w &&& E0ESC = 0#32) : (w ||| E0ESC) &&& ~~~E0ESC = w := by
  ext i hi
  have hb : (w &&& E0ESC)[i] = false := by simp [h]
  simp only [BitVec.getElem_and, BitVec.getElem_or, BitVec.getElem_not] at hb ⊢
  revert hb
  cases w[i] <;> cases E0ESC[i] <;> simp

section Code

theorem code_ne : code.setWidth 8 ≠ 0xE0#8 := by
  revert code
  decide

theorem code_high : code.setWidth 8 &&& 0x80#8 = 0#8 := by
  revert code
  decide

theorem release_ne (h : code ≠ 0x60#7) : code.setWidth 8 ||| 0x80#8 ≠ 0xE0#8 := by
  revert code
  decide

theorem release_high : (code.setWidth 8 ||| 0x80#8) &&& 0x80#8 ≠ 0#8 := by
  revert code
  decide

theorem release_low : (code.setWidth 8 ||| 0x80#8) &&& 0x7F#8 = code.setWidth 8 := by
  revert code
  decide

end Code

section Bits

variable {s c a k n l : Bool}

theorem bits_or (hx : x ∈ [0#32, SHIFT, CTL, ALT]) : bits s c a k n l ||| x =
    bits (x = SHIFT || s) (x = CTL || c) (x = ALT || a) k n l := by
  simp only [List.mem_cons, List.not_mem_nil, or_false] at hx
  rcases hx with rfl | rfl | rfl | rfl <;> revert s c a k n l <;> decide

theorem bits_xor (hy : y ∈ [0#32, CAPSLOCK, NUMLOCK, SCROLLLOCK]) : bits s c a k n l ^^^ y =
    bits s c a (xor (y = CAPSLOCK) k) (xor (y = NUMLOCK) n) (xor (y = SCROLLLOCK) l) := by
  simp only [List.mem_cons, List.not_mem_nil, or_false] at hy
  rcases hy with rfl | rfl | rfl | rfl <;> revert s c a k n l <;> decide

theorem bits_and_not (hx : x ∈ [0#32, SHIFT, CTL, ALT]) : bits s c a k n l &&& ~~~(x ||| E0ESC) =
    bits (x ≠ SHIFT && s) (x ≠ CTL && c) (x ≠ ALT && a) k n l := by
  simp only [List.mem_cons, List.not_mem_nil, or_false] at hx
  rcases hx with rfl | rfl | rfl | rfl <;> revert s c a k n l <;> decide

theorem bits_plain : bits s c a k n l &&& E0ESC = 0#32 := by
  revert s c a k n l
  decide

theorem bits_map : bits s c a k n l &&& (CTL ||| SHIFT) =
    (if s then SHIFT else 0#32) ||| (if c then CTL else 0#32) := by
  revert s c a k n l
  decide

theorem bits_capslock : bits s c a k n l &&& CAPSLOCK = if k then CAPSLOCK else 0#32 := by
  revert s c a k n l
  decide

end Bits

section Word

theorem held_press : held m (.press k :: h) = (shiftcode k.index = m || held m h) := by
  rw [held, List.find?_cons, KeyEvent.key]
  split
  case h_1 hm => simp [of_decide_eq_true hm, KeyEvent.isPress]
  case h_2 hm => simp [of_decide_eq_false hm, held]

theorem held_release : held m (.release k :: h) = (shiftcode k.index ≠ m && held m h) := by
  rw [held, List.find?_cons, KeyEvent.key]
  split
  case h_1 hm => simp [of_decide_eq_true hm, KeyEvent.isPress]
  case h_2 hm => simp [of_decide_eq_false hm, held]

theorem toggled_cons : toggled m (e :: h) = xor (e.toggles m) (toggled m h) := by
  rw [toggled, toggled, List.countP_cons]
  cases e.toggles m
  case false => simp
  case true =>
    rw [if_pos rfl, Bool.true_xor, ← decide_not]
    congr 1
    apply propext
    omega

theorem word_press : word (.press k :: h) = (word h ||| shiftcode k.index) ^^^ togglecode k.index := by
  rw [word, word, bits_or shiftcode_mem, bits_xor togglecode_mem]
  simp only [held_press, toggled_cons]
  rfl

theorem word_release : word (.release k :: h) = word h &&& ~~~(shiftcode k.index ||| E0ESC) := by
  rw [word, word, bits_and_not shiftcode_mem]
  simp only [held_release, toggled_cons]
  simp [KeyEvent.toggles, KeyEvent.isPress]

theorem word_plain : word h &&& E0ESC = 0#32 := bits_plain

-- The table that the modifiers choose.
theorem charcode_word : charcode (word h &&& (CTL ||| SHIFT)) k.index =
    if held CTL h then ctlmap k.index else if held SHIFT h then shiftmap k.index else normalmap k.index := by
  rw [word, bits_map]
  cases held CTL h <;> cases held SHIFT h <;> rfl

theorem capslock_word : word h &&& CAPSLOCK ≠ 0#32 ↔ toggled CAPSLOCK h = true := by
  rw [word, bits_capslock]
  cases toggled CAPSLOCK h <;> decide

end Word

section Run

variable {shift : Word} {a b : List (BitVec 8)}

theorem kbdChars_append : kbdChars shift (a ++ b) =
    ((kbdChars (kbdChars shift a).fst b).fst,
      (kbdChars shift a).snd ++ (kbdChars (kbdChars shift a).fst b).snd) := by
  induction a generalizing shift
  case nil => rfl
  case cons data a hi => simp only [List.cons_append, kbdChars, hi]

theorem kbdChars_singleton {data : BitVec 8} :
    kbdChars shift [data] = ((kbdProcData shift data).fst, [(kbdProcData shift data).snd]) := rfl

theorem kbdProcData_prefix : kbdProcData shift 0xE0#8 = (shift ||| E0ESC, 0#8) := if_pos rfl

-- The character of an event.
def KeyEvent.char (h : List KeyEvent) (e : KeyEvent) : BitVec 8 :=
  if e.isPress then layout (e :: h) e.key else 0#8

theorem press_char : (word (.press k :: h), layout (.press k :: h) k) =
    (let shift := (word h ||| shiftcode k.index) ^^^ togglecode k.index
     let c := charcode (shift &&& (CTL ||| SHIFT)) k.index
     (shift, if shift &&& CAPSLOCK ≠ 0#32 then swapCase c else c)) := by
  simp only [← word_press, charcode_word, capslock_word, layout]

theorem kbdProcData_press : kbdProcData (if k.ext then word h ||| E0ESC else word h) (k.code.setWidth 8) =
    (word (.press k :: h), layout (.press k :: h) k) := by
  have hn : ¬k.code.setWidth 8 &&& 0x80#8 ≠ 0#8 := not_not.mpr code_high
  rw [press_char, kbdProcData, if_neg code_ne, if_neg hn]
  cases hk : k.ext
  case false =>
    have hi : k.index = k.code.setWidth 8 := by rw [Key.index, hk]; rfl
    have he : ¬word h &&& E0ESC ≠ 0#32 := not_not.mpr word_plain
    simp only [Bool.false_eq_true, if_false, if_neg he, hi]
  case true =>
    have hi : k.index = k.code.setWidth 8 ||| 0x80#8 := by rw [Key.index, hk]; rfl
    simp only [if_true, if_pos or_and_self, or_and_not_self word_plain, hi]

theorem kbdProcData_release :
    kbdProcData (if k.ext then word h ||| E0ESC else word h) (k.code.setWidth 8 ||| 0x80#8) =
      (word (.release k :: h), 0#8) := by
  rw [word_release, kbdProcData, if_neg (release_ne k.ne), if_pos release_high]
  cases hk : k.ext
  case false =>
    have hi : k.index = k.code.setWidth 8 := by rw [Key.index, hk]; rfl
    have he : ¬word h &&& E0ESC ≠ 0#32 := not_not.mpr word_plain
    simp only [Bool.false_eq_true, if_false, if_neg he, release_low, hi]
  case true =>
    have hi : k.index = k.code.setWidth 8 ||| 0x80#8 := by rw [Key.index, hk]; rfl
    simp only [if_true, if_pos or_and_self, or_and_not, hi]

-- What an event leaves.
theorem kbdChars_scancodes (h : List KeyEvent) (e : KeyEvent) : ∃ cs,
    kbdChars (word h) e.scancodes = (word (e :: h), cs ++ [e.char h]) ∧ stored cs = [] := by
  have hd : kbdProcData (if e.key.ext then word h ||| E0ESC else word h)
      (if e.isPress then e.key.code.setWidth 8 else e.key.code.setWidth 8 ||| 0x80#8) =
      (word (e :: h), e.char h) := by
    cases e
    case press k   => exact kbdProcData_press
    case release k => exact kbdProcData_release
  rw [KeyEvent.scancodes]
  cases hk : e.key.ext <;> rw [hk] at hd
  case false => exact ⟨[], congrArg (fun r => (r.fst, [r.snd])) hd, rfl⟩
  case true =>
    refine ⟨[0#8], ?_, rfl⟩
    rw [if_pos rfl, kbdChars_append, kbdChars_singleton, kbdChars_singleton, kbdProcData_prefix]
    exact congrArg (fun r => (r.fst, [0#8] ++ [r.snd])) hd

theorem stored_append : stored (a ++ b) = stored a ++ stored b := List.filter_append _ _

theorem kbdChars_events (h es : List KeyEvent) :
    (kbdChars (word h) (es.flatMap KeyEvent.scancodes)).fst = word (es.reverse ++ h) ∧
      stored (kbdChars (word h) (es.flatMap KeyEvent.scancodes)).snd = typed h es := by
  induction es generalizing h
  case nil => exact ⟨rfl, rfl⟩
  case cons e es hi =>
    obtain ⟨cs, hc, hs⟩ := kbdChars_scancodes h e
    obtain ⟨h₁, h₂⟩ := hi (e :: h)
    rw [List.flatMap_cons, kbdChars_append, hc]
    refine ⟨by simpa using h₁, ?_⟩
    rw [stored_append, stored_append, hs, h₂, List.nil_append, typed, KeyEvent.char]
    congr 1
    cases e.isPress <;> rfl

theorem consIntr_append {cons : Cons} : consIntr cons (a ++ b) = consIntr (consIntr cons a) b :=
  List.foldl_append

theorem kbdIntr_append {cons : Cons} : kbdIntr cons shift (a ++ b) =
    kbdIntr (kbdIntr cons shift a).snd (kbdIntr cons shift a).fst b := by
  simp only [kbdIntr, kbdChars_append, consIntr_append]

-- The interrupts do not matter.
theorem kbdIntrs_flatten {cons : Cons} {chunks : List (List (BitVec 8))} :
    kbdIntrs cons shift chunks = kbdIntr cons shift chunks.flatten := by
  induction chunks generalizing cons shift
  case nil => rfl
  case cons a chunks hi =>
    rw [List.flatten_cons, kbdIntr_append]
    exact hi

end Run

-- Whatever is done on the keyboard, and whatever the interrupts at which the bytes are fetched, what is typed
-- gets into the input buffer, if that has room.
theorem kbd_types (es : List KeyEvent) {cons : Cons} {chunks : List (List (BitVec 8))}
    (hc : chunks.flatten = es.flatMap KeyEvent.scancodes)
    (hf : cons.length + (typed [] es).length < CONSBUFSIZE) :
    (kbdIntrs cons 0#32 chunks).snd.contents = cons.contents ++ typed [] es ∧
      (kbdIntrs cons 0#32 chunks).fst = word es.reverse := by
  obtain ⟨h₁, h₂⟩ := kbdChars_events [] es
  rw [List.append_nil] at h₁
  rw [kbdIntrs_flatten, hc]
  refine ⟨?_, h₁⟩
  rw [← h₂] at hf ⊢
  exact consIntr_contents hf

-- A capital letter. The key that is released last sends a prefix, which another interrupt fetches.
def Sample.keys : List KeyEvent :=
  [.press ⟨false, 0x2A#7, by decide⟩, .press ⟨false, 0x1E#7, by decide⟩, .release ⟨false, 0x2A#7, by decide⟩,
    .release ⟨true, 0x1D#7, by decide⟩]

theorem kbd_types_letter :
    (kbdIntrs Cons.zero 0#32 [[0x2A#8, 0x1E#8], [0xAA#8, 0xE0#8], [0x9D#8]]).snd.contents = [0x41#8] := by
  have ht : typed [] Sample.keys = [0x41#8] := by decide
  have hz : Cons.zero.contents = [] := rfl
  have hf : Cons.zero.length + (typed [] Sample.keys).length < CONSBUFSIZE := by
    rw [ht]
    decide
  rw [(kbd_types Sample.keys (by decide) hf).left, ht, hz, List.nil_append]

end Kern.Kbd

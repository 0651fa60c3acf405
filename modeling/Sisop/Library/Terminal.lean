import Mathlib.Logic.Function.Basic
import Mathlib.Tactic.Common

namespace Library

open Function

namespace Terminal

-- What a character does.
inductive Op (α : Type*)
  | glyph (a : α)
  | back (a : α)
  | newline
  | ret

-- A display of a fixed size, whose lines lie one behind the other in `cell`, and its cursor.
structure Screen (α : Type*) where
  cell : Nat → α
  pos : Nat

-- Paper without an end, of which the lines from `top` on are visible.
structure Page (α : Type*) where
  cell : Nat → α
  pos : Nat
  top : Nat

variable {α : Type*} {rows cols : Nat} {blank : α}

namespace Screen

def write (cols : Nat) (s : Screen α) : Op α → Screen α
  | .glyph a => ⟨update s.cell s.pos a, s.pos + 1⟩
  | .back a  => if s.pos = 0 then s else ⟨update s.cell (s.pos - 1) a, s.pos - 1⟩
  | .newline => ⟨s.cell, s.pos + cols - (s.pos + cols) % cols⟩
  | .ret     => ⟨s.cell, s.pos - s.pos % cols⟩

-- All lines move up by one when the cursor is behind the last one.
def scroll (rows cols : Nat) (blank : α) (s : Screen α) : Screen α :=
  if s.pos < rows * cols then s
  else
    { cell := fun i =>
        if i < (rows - 1) * cols then s.cell (i + cols)
        else if i < rows * cols then blank
        else s.cell i
      pos := s.pos - cols }

def put (rows cols : Nat) (blank : α) (s : Screen α) (op : Op α) : Screen α :=
  (s.write cols op).scroll rows cols blank

end Screen

namespace Page

-- The cursor does not leave the visible lines upwards.
def write (cols : Nat) (p : Page α) : Op α → Page α
  | .glyph a => ⟨update p.cell p.pos a, p.pos + 1, p.top⟩
  | .back a  => if p.pos = p.top * cols then p else ⟨update p.cell (p.pos - 1) a, p.pos - 1, p.top⟩
  | .newline => ⟨p.cell, (p.pos / cols + 1) * cols, p.top⟩
  | .ret     => ⟨p.cell, p.pos / cols * cols, p.top⟩

-- The paper moves so far that the line of the cursor is visible.
def feed (rows cols : Nat) (p : Page α) : Page α := { p with top := max p.top (p.pos / cols + 1 - rows) }

def put (rows cols : Nat) (p : Page α) (op : Op α) : Page α := (p.write cols op).feed rows cols

end Page

-- The screen has the visible lines of the page, and what follows them is still blank. The cursor may be
-- just behind the last line.
structure Tracks (rows cols : Nat) (blank : α) (s : Screen α) (p : Page α) : Prop where
  le : s.pos ≤ rows * cols
  pos : p.pos = p.top * cols + s.pos
  cell : ∀ i < rows * cols, s.cell i = p.cell (p.top * cols + i)
  fresh : ∀ i ≥ (p.top + rows) * cols, p.cell i = blank

structure Shows (rows cols : Nat) (blank : α) (s : Screen α) (p : Page α) : Prop extends
    Tracks rows cols blank s p where
  lt : s.pos < rows * cols

variable {s : Screen α} {p : Page α}

theorem Tracks.update (h : Tracks rows cols blank s p) {i : Nat} (hi : i < rows * cols) (a : α) {k : Nat}
    (hk : k ≤ rows * cols) :
    Tracks rows cols blank ⟨update s.cell i a, k⟩
      ⟨update p.cell (p.top * cols + i) a, p.top * cols + k, p.top⟩ where
  le         := hk
  pos        := rfl
  cell j hj  := by
    by_cases hij : j = i
    case pos => simp [hij]
    case neg => simp [update_of_ne, hij, h.cell j hj]
  fresh j hj := by
    have hne : j ≠ p.top * cols + i := by
      simp only [Nat.add_mul] at hj
      omega
    simp [update_of_ne hne, h.fresh j hj]

theorem Tracks.move (h : Tracks rows cols blank s p) {k : Nat} (hk : k ≤ rows * cols) :
    Tracks rows cols blank ⟨s.cell, k⟩ ⟨p.cell, p.top * cols + k, p.top⟩ where
  le    := hk
  pos   := rfl
  cell  := h.cell
  fresh := h.fresh

theorem sub_mod_eq (n cols : Nat) : n - n % cols = n / cols * cols := by
  have := Nat.div_add_mod' n cols
  omega

theorem Tracks.line (h : Tracks rows cols blank s p) (hc : 0 < cols) :
    p.pos / cols = p.top + s.pos / cols := by
  rw [h.pos, Nat.add_comm, Nat.add_mul_div_right _ _ hc, Nat.add_comm]

theorem Shows.line_lt (h : Shows rows cols blank s p) : s.pos / cols < rows :=
  Nat.div_lt_of_lt_mul (Nat.mul_comm rows cols ▸ h.lt)

theorem Shows.write (h : Shows rows cols blank s p) (hc : 0 < cols) (op : Op α) :
    Tracks rows cols blank (s.write cols op) (p.write cols op) := by
  have hl := h.line_lt
  have hp := h.line hc
  cases op <;> simp only [Screen.write, Page.write]
  case glyph a =>
    have := h.toTracks.update h.lt a (k := s.pos + 1) h.lt
    rwa [← Nat.add_assoc, ← h.pos] at this
  case back a =>
    have hz : p.pos = p.top * cols ↔ s.pos = 0 := by
      rw [h.pos]
      omega
    simp only [hz]
    split
    case isTrue => exact h.toTracks
    case isFalse hs =>
      have hlt : s.pos - 1 < rows * cols := Nat.lt_of_le_of_lt (Nat.sub_le _ _) h.lt
      have := h.toTracks.update hlt a (Nat.le_of_lt hlt)
      rwa [← Nat.add_sub_assoc (Nat.pos_of_ne_zero hs), ← h.pos] at this
  case newline =>
    have := h.toTracks.move (Nat.mul_le_mul_right cols hl)
    rwa [sub_mod_eq, Nat.add_div_right _ hc, hp, Nat.add_assoc, Nat.add_mul p.top]
  case ret =>
    have := h.toTracks.move (Nat.mul_le_mul_right cols (Nat.le_of_lt hl))
    rwa [sub_mod_eq, hp, Nat.add_mul]

theorem Tracks.scroll (h : Tracks rows cols blank s p) (hr : 0 < rows) (hc : 0 < cols) :
    Shows rows cols blank (s.scroll rows cols blank) (p.feed rows cols) := by
  have hp := h.line hc
  unfold Screen.scroll Page.feed
  split
  case isTrue hlt =>
    have hl : s.pos / cols < rows := Nat.div_lt_of_lt_mul (Nat.mul_comm rows cols ▸ hlt)
    have ht : max p.top (p.pos / cols + 1 - rows) = p.top := by omega
    rw [ht]
    exact ⟨h, hlt⟩
  case isFalse hlt =>
    have he : s.pos = rows * cols := by
      have := h.le
      omega
    rw [he, Nat.mul_div_cancel _ hc] at hp
    have ht : max p.top (p.pos / cols + 1 - rows) = p.top + 1 := by omega
    have hs : rows * cols = (rows - 1) * cols + cols := by
      rw [← Nat.succ_mul, Nat.succ_eq_add_one, Nat.sub_add_cancel hr]
    have hpos := h.pos
    rw [ht]
    refine ⟨⟨?le, ?pos, ?cell, ?fresh⟩, ?lt⟩
    case le => exact Nat.le_trans (Nat.sub_le _ _) h.le
    case pos =>
      simp only [Nat.add_mul]
      omega
    case cell =>
      intro i hi
      simp only [Nat.add_mul, Nat.one_mul]
      split
      case isTrue hlt =>
        rw [h.cell _ (by omega)]
        congr 1
        omega
      case isFalse hlt =>
        apply Eq.symm
        apply h.fresh
        rw [Nat.add_mul]
        omega
    case fresh =>
      intro i hi
      simp only [Nat.add_mul, ge_iff_le] at hi
      apply h.fresh
      rw [Nat.add_mul]
      omega
    case lt => exact Nat.lt_of_lt_of_le (Nat.sub_lt (by omega) hc) h.le

-- The simulation: a screen that scrolls shows what an endless page would have.
theorem Shows.put (h : Shows rows cols blank s p) (op : Op α) :
    Shows rows cols blank (s.put rows cols blank op) (p.put rows cols op) := by
  have hr : 0 < rows := Nat.pos_of_mul_pos_right (Nat.zero_lt_of_lt h.lt)
  have hc : 0 < cols := Nat.pos_of_mul_pos_left (Nat.zero_lt_of_lt h.lt)
  exact (h.write hc op).scroll hr hc

theorem Shows.puts (h : Shows rows cols blank s p) (ops : List (Op α)) :
    Shows rows cols blank (ops.foldl (Screen.put rows cols blank) s) (ops.foldl (Page.put rows cols) p) := by
  induction ops generalizing s p
  case nil            => exact h
  case cons op ops hi => exact hi (h.put op)

-- Any screen is the beginning of a page.
def Screen.page (rows cols : Nat) (blank : α) (s : Screen α) : Page α where
  cell i := if i < rows * cols then s.cell i else blank
  pos    := s.pos
  top    := 0

theorem Screen.shows_page (h : s.pos < rows * cols) : Shows rows cols blank s (s.page rows cols blank) where
  lt         := h
  le         := Nat.le_of_lt h
  pos        := by simp [page]
  cell i hi  := by simp [page, hi]
  fresh i hi := by
    simp only [page, Nat.zero_add] at hi ⊢
    exact if_neg (Nat.not_lt.mpr hi)

-- The cells behind the last line are not the screen's.
theorem Screen.put_outside (op : Op α) (h : s.pos < rows * cols) {i : Nat} (hi : rows * cols ≤ i) :
    (s.put rows cols blank op).cell i = s.cell i := by
  have hw : (s.write cols op).cell i = s.cell i := by
    cases op <;> simp only [write]
    case glyph a => exact update_of_ne (by omega) _ _
    case back a =>
      split
      · rfl
      · exact update_of_ne (by omega) _ _
  have hn : ¬i < (rows - 1) * cols :=
    Nat.not_lt.mpr (Nat.le_trans (Nat.mul_le_mul_right cols (Nat.sub_le _ _)) hi)
  rw [put, scroll]
  split
  · exact hw
  · simp [hn, Nat.not_lt.mpr hi, hw]

namespace Page

variable {k : Nat} {a : α} {l : List α} {ls : List (List α)}

-- The page after the text `l` at the cursor.
def text (p : Page α) (l : List α) : Page α where
  cell i := if p.pos ≤ i then l[i - p.pos]?.getD (p.cell i) else p.cell i
  pos    := p.pos + l.length
  top    := p.top

theorem text_write : (p.write cols (.glyph a)).text l = p.text (a :: l) := by
  refine congrArg₂ (Page.mk · · p.top) (funext fun i => ?_) ?_
  · by_cases hi : p.pos < i
    case pos =>
      have hs : i - p.pos = i - (p.pos + 1) + 1 := by omega
      have hne : i ≠ p.pos := by omega
      simp [write, Nat.le_of_lt hi, Nat.succ_le_of_lt hi, hs, update_of_ne hne]
    case neg =>
      have hn : ¬p.pos + 1 ≤ i := hi
      by_cases he : i = p.pos
      case pos => simp [write, he, Nat.not_succ_le_self]
      case neg => simp [write, hn, update_of_ne he, show ¬p.pos ≤ i by omega]
  · simp only [write, List.length_cons]
    omega

theorem feed_eq (h : p.pos / cols < p.top + rows) : p.feed rows cols = p := by
  have ht : max p.top (p.pos / cols + 1 - rows) = p.top := by omega
  rw [feed, ht]

theorem put_glyphs (hr : p.pos + l.length < (k + 1) * cols) (ht : k < p.top + rows) :
    (l.map .glyph).foldl (put rows cols) p = p.text l := by
  induction l generalizing p
  case nil => simp [text]
  case cons a l hi =>
    have hp : p.pos + 1 + l.length < (k + 1) * cols := by
      simp only [List.length_cons] at hr
      omega
    have hf : p.put rows cols (.glyph a) = p.write cols (.glyph a) := by
      apply feed_eq
      apply Nat.lt_of_le_of_lt (Nat.le_of_lt_succ _) ht
      apply Nat.div_lt_of_lt_mul
      rw [Nat.mul_comm]
      exact Nat.lt_of_le_of_lt (Nat.le_add_right _ _) hp
    rw [List.map_cons, List.foldl_cons, hf, ← text_write]
    apply hi
    · exact hp
    · exact ht

-- A line of text.
def lineOps (l : List α) : List (Op α) := l.map .glyph ++ [.newline]

-- The page after `ls` from line `k` on.
def lines (p : Page α) (rows cols k : Nat) (ls : List (List α)) : Page α where
  cell i := if k * cols ≤ i then (ls[i / cols - k]?.bind (·[i % cols]?)).getD (p.cell i) else p.cell i
  pos    := (k + ls.length) * cols
  top    := max p.top (k + ls.length + 1 - rows)

theorem put_line (hp : p.pos = k * cols) (hl : l.length < cols) (ht : k < p.top + rows) :
    (lineOps l).foldl (put rows cols) p = p.lines rows cols k [l] := by
  have hr : p.pos + l.length < (k + 1) * cols := by
    rw [hp, Nat.add_mul]
    omega
  have hc : 0 < cols := Nat.zero_lt_of_lt hl
  have hd : (p.pos + l.length) / cols = k := by
    rw [hp, Nat.add_comm, Nat.add_mul_div_right _ _ hc, Nat.div_eq_of_lt hl, Nat.zero_add]
  rw [hp] at hd
  rw [lineOps, List.foldl_append, put_glyphs hr ht, List.foldl_cons, List.foldl_nil]
  simp only [put, write, feed, text, lines, hp, hd, Nat.mul_div_cancel _ hc, List.length_singleton]
  congr 1
  funext i
  split
  case isTrue hi =>
    have hm := Nat.div_add_mod' i cols
    have hlt := Nat.mod_lt i hc
    by_cases hk : i / cols = k
    case pos =>
      rw [hk] at hm
      rw [hk, Nat.sub_self, List.getElem?_cons_zero, Option.bind_some, show i - k * cols = i % cols by omega]
    case neg =>
      have hk : k + 1 ≤ i / cols := Nat.lt_of_le_of_ne ((Nat.le_div_iff_mul_le hc).mpr hi) (Ne.symm hk)
      have hi : (k + 1) * cols ≤ i := (Nat.le_div_iff_mul_le hc).mp hk
      rw [Nat.add_mul] at hi
      rw [List.getElem?_eq_none (by omega), List.getElem?_eq_none (by rw [List.length_singleton]; omega)]
      rfl
  case isFalse => rfl

theorem lines_cons (hc : 0 < cols) :
    (p.lines rows cols k [l]).lines rows cols (k + 1) ls = p.lines rows cols k (l :: ls) := by
  have hlen : k + 1 + ls.length = k + (ls.length + 1) := by omega
  simp only [lines, List.length_cons, List.length_nil, hlen]
  congr 1
  · funext i
    by_cases hi : (k + 1) * cols ≤ i
    case pos =>
      have hd := (Nat.le_div_iff_mul_le hc).mpr hi
      have hk : k * cols ≤ i := Nat.le_trans (Nat.mul_le_mul_right cols (Nat.le_succ k)) hi
      have hs : i / cols - k = i / cols - (k + 1) + 1 := by omega
      simp [hi, hk, hs]
    case neg =>
      rw [if_neg hi]
      split
      case isTrue hk =>
        have hd := (Nat.le_div_iff_mul_le hc).mpr hk
        have hd' : i / cols < k + 1 := Nat.div_lt_of_lt_mul (by rw [Nat.mul_comm]; omega)
        have hz : i / cols - k = 0 := by omega
        rw [hz, List.getElem?_cons_zero, List.getElem?_cons_zero]
      case isFalse => rfl
  · omega

-- Lines that fit are on the page one below the other.
theorem put_lines (hc : 0 < cols) (hp : p.pos = k * cols) (hl : ∀ l ∈ ls, l.length < cols)
    (ht : k < p.top + rows) (hn : ls ≠ []) :
    (ls.flatMap lineOps).foldl (put rows cols) p = p.lines rows cols k ls := by
  induction ls generalizing p k
  case nil => exact absurd rfl hn
  case cons l ls hi =>
    rw [List.flatMap_cons, List.foldl_append, put_line hp (hl l List.mem_cons_self) ht]
    by_cases he : ls = []
    case pos => rw [he, List.flatMap_nil, List.foldl_nil]
    case neg =>
      refine Eq.trans (hi ?_ ?_ ?_ he) (lines_cons hc)
      · rfl
      · exact fun l h => hl l (List.mem_cons_of_mem _ h)
      · simp only [lines, List.length_singleton]
        omega

end Page

theorem cell_lt {r j : Nat} (hr : r < rows) (hj : j < cols) : r * cols + j < rows * cols := by
  have := Nat.mul_le_mul_right cols (Nat.succ_le_of_lt hr)
  rw [Nat.succ_mul] at this
  omega

-- The last lines are on the screen.
theorem Shows.lines {ls : List (List α)} (h : Shows rows cols blank s (p.lines rows cols 0 ls))
    (hp : ∀ {i}, p.cell i = blank) (ht : p.top = 0) {r j : Nat} (hr : r < rows) (hj : j < cols) :
    s.cell (r * cols + j) = (ls[ls.length + 1 - rows + r]?.bind (·[j]?)).getD blank := by
  have hc := Nat.zero_lt_of_lt hj
  rw [h.cell _ (cell_lt hr hj), ← Nat.add_assoc, ← Nat.add_mul]
  simp only [Page.lines, Nat.zero_mul, Nat.zero_le, if_true, hp, ht, Nat.zero_add, Nat.zero_max, Nat.sub_zero]
  rw [Nat.add_comm (_ * cols), Nat.add_mul_div_right _ _ hc, Nat.div_eq_of_lt hj, Nat.zero_add,
    Nat.add_mul_mod_self_right, Nat.mod_eq_of_lt hj]

end Terminal

end Library

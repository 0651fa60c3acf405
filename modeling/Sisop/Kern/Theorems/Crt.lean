import Sisop.Kern.Crt

namespace Kern

open Inc Function Library.Terminal

variable {s s' : Crt} {c : Word} {d : Devices} {l l' : List (Port × BitVec 8)} {bytes bytes' : List (BitVec 8)}

-- What is sent puts `bytes` on both lines.
def Sends (addr : Port) (l : List (Port × BitVec 8)) (bytes : List (BitVec 8)) : Prop :=
  ∀ d : Devices, (l.foldl (.outb addr) d).serial = d.serial ++ bytes ∧
    (l.foldl (.outb addr) d).printed = d.printed ++ bytes

theorem Sends.append {addr : Port} (h : Sends addr l bytes) (h' : Sends addr l' bytes') :
    Sends addr (l ++ l') (bytes ++ bytes') := by
  intro d
  have ⟨hs, hp⟩ := h d
  have ⟨hs', hp'⟩ := h' (l.foldl (.outb addr) d)
  rw [List.foldl_append, hs', hp', hs, hp, List.append_assoc, List.append_assoc]
  exact ⟨rfl, rfl⟩

theorem bytes_append (x : BitVec 16) : (x >>> 8).setWidth 8 ++ x.setWidth 8 = x := by
  apply BitVec.eq_of_getLsbD_eq
  intro i hi
  rw [BitVec.getLsbD_append]
  split
  · simp [*]
  · simp
    grind

namespace Crt

-- What `blink` sends.
def cursorOuts (s : Crt) : List (Port × BitVec 8) :=
  [(s.addr6845, 14#8), (s.addr6845 + 1#16, (s.crtPos >>> 8).setWidth 8), (s.addr6845, 15#8),
    (s.addr6845 + 1#16, s.crtPos.setWidth 8)]

-- What `serial_putc` and `lpt_putc` send.
def charOuts (c : Word) : List (Port × BitVec 8) :=
  [(COM1 + COM_TX, c.setWidth 8), (LPT, c.setWidth 8), (LPT + 2#16, 0x0D#8), (LPT + 2#16, 0x08#8)]

theorem sends_charOuts : Sends s.addr6845 (charOuts c) [c.setWidth 8] := by
  intro d
  refine ⟨?_, ?_⟩ <;> cases hd : s.display <;>
    simp [charOuts, Devices.outb, COM1, COM_TX, LPT]

theorem sends_cursorOuts : Sends s.addr6845 s.cursorOuts [] := by
  intro d
  refine ⟨?_, ?_⟩ <;> cases hd : s.display <;>
    simp [cursorOuts, addr6845, hd, Devices.outb, COM1, COM_TX, LPT, CGA_BASE, MONO_BASE]

theorem cursor_cursorOuts : (s.cursorOuts.foldl (.outb s.addr6845) d).cursor = s.crtPos := by
  apply Eq.trans _ (bytes_append s.crtPos)
  cases hd : s.display <;>
    simp [cursorOuts, addr6845, hd, Devices.outb, Devices.cursor, COM1, COM_TX, LPT, CGA_BASE, MONO_BASE]

theorem blink_eq : s.blink = { s with outs := s.outs ++ s.cursorOuts } := by
  simp [blink, outb, cursorOuts, addr6845]

theorem chars_eq : lptPutc c (serialPutc c s) = { s with outs := s.outs ++ charOuts c } := by
  simp [lptPutc, serialPutc, outb, charOuts]

-- What a call leaves: it has done `ops` on the display, and has sent `bytes` and the place of the cursor.
structure Prints (s s' : Crt) (ops : List (Op (BitVec 16))) (bytes : List (BitVec 8)) : Prop where
  display : s'.display = s.display
  lt : s'.crtPos.toNat < CRT_SIZE
  screen : s'.screen = ops.foldl (Screen.put CRT_ROWS CRT_COLS 0x0720#16) s.screen
  outside : ∀ i ≥ CRT_SIZE, s'.crtBuf i = s.crtBuf i
  outs : ∃ l, s'.outs = s.outs ++ l ∧ Sends s.addr6845 l bytes ∧
    ∀ d : Devices, (l.foldl (.outb s.addr6845) d).cursor = s'.crtPos

variable {s₁ s₂ : Crt} {ops ops' : List (Op (BitVec 16))}

theorem addr_eq (h : s'.display = s.display) : s'.addr6845 = s.addr6845 := by
  rw [addr6845, addr6845, h]

theorem Prints.trans (h : Prints s s₁ ops bytes) (h' : Prints s₁ s₂ ops' bytes') :
    Prints s s₂ (ops ++ ops') (bytes ++ bytes') where
  display      := h'.display.trans h.display
  lt           := h'.lt
  screen       := by rw [h'.screen, h.screen, List.foldl_append]
  outside i hi := (h'.outside i hi).trans (h.outside i hi)
  outs         := by
    obtain ⟨l, ho, hs, -⟩ := h.outs
    obtain ⟨l', ho', hs', hc⟩ := h'.outs
    rw [addr_eq h.display] at hs' hc
    refine ⟨l ++ l', by rw [ho', ho, List.append_assoc], hs.append hs', fun d => ?_⟩
    rw [List.foldl_append]
    exact hc _

theorem scroll_screen (h : s.crtPos.toNat ≤ CRT_SIZE) :
    s.scroll.screen = s.screen.scroll CRT_ROWS CRT_COLS 0x0720#16 := by
  rw [scroll]
  split
  case isTrue hs =>
    have he : s.crtPos.toNat = 2000 := Nat.le_antisymm h hs
    refine Eq.trans (congrArg (Screen.mk _) ?_) (if_neg (Nat.not_lt.mpr hs)).symm
    apply BitVec.toNat_sub_of_le
    rw [BitVec.le_def, he]
    decide
  case isFalse hs => exact (if_pos (Nat.lt_of_not_ge hs)).symm

@[simp] theorem scroll_display : s.scroll.display = s.display := by
  rw [scroll]
  split <;> rfl

@[simp] theorem scroll_outs : s.scroll.outs = s.outs := by
  rw [scroll]
  split <;> rfl

theorem screen_shows (h : s.crtPos.toNat < CRT_SIZE) :
    Shows CRT_ROWS CRT_COLS 0x0720#16 s.screen (s.screen.page CRT_ROWS CRT_COLS 0x0720#16) :=
  Screen.shows_page h

-- One case of the `switch`, and what follows it.
theorem prints_blink {op : Op (BitVec 16)} (h : s.crtPos.toNat < CRT_SIZE) (hd : s'.display = s.display)
    (ho : s'.outs = s.outs) (hs : s'.screen = s.screen.write CRT_COLS op) :
    Prints s s'.scroll.blink [op] [] := by
  have hle : s'.crtPos.toNat ≤ CRT_SIZE := by
    have := ((screen_shows h).write (by decide) op).le
    rwa [← hs] at this
  have hp : s'.scroll.screen = s.screen.put CRT_ROWS CRT_COLS 0x0720#16 op := by
    rw [scroll_screen hle, hs]
    rfl
  have ha : s'.scroll.addr6845 = s.addr6845 := addr_eq (by rw [scroll_display, hd])
  rw [blink_eq]
  refine ⟨?_, ?_, hp, fun i hi => ?_, s'.scroll.cursorOuts, ?_, ?_, fun d => ?_⟩
  · exact scroll_display.trans hd
  · have := ((screen_shows h).put op).lt
    rwa [← hp] at this
  · have ho : (s.screen.put CRT_ROWS CRT_COLS 0x0720#16 op).cell i = s.screen.cell i :=
      Screen.put_outside op h hi
    rwa [← hp] at ho
  · simp [ho]
  · rw [← ha]
    exact sends_cursorOuts
  · rw [← ha]
    exact cursor_cursorOuts

-- Between two calls nothing is behind the last line.
theorem scroll_eq (h : s.crtPos.toNat < CRT_SIZE) : s.scroll = s := if_neg (Nat.not_le.mpr h)

theorem sub_mod_toNat {x : BitVec 16} :
    (x - x % BitVec.ofNat 16 CRT_COLS).toNat = x.toNat - x.toNat % CRT_COLS := by
  rw [BitVec.toNat_sub_of_le]
  · rfl
  · rw [BitVec.le_def]
    exact Nat.mod_le _ _

theorem move_screen {k : BitVec 16} : (s.move k).screen = ⟨s.crtBuf, k.toNat⟩ := rfl

theorem store_screen {i : BitVec 16} : (s.store i c).screen =
    ⟨update s.crtBuf i.toNat (c.setWidth 16), s.crtPos.toNat⟩ := rfl

-- A character that is no tab is one step on the display.
theorem cgaPutc_prints (h : s.crtPos.toNat < CRT_SIZE) (ht : c &&& 0xFF#32 ≠ 0x09#32) :
    Prints s (cgaPutc c s) (crtOps c) [] := by
  rw [cgaPutc]
  simp only [low_attr, crtOps, if_neg ht]
  have hlt : s.crtPos.toNat < 2000 := h
  split
  case isTrue =>
    split
    case isTrue hp =>
      have h₀ : s.crtPos.toNat ≠ 0 := by bv_omega
      have h₁ : (s.crtPos - 1#16).toNat = s.crtPos.toNat - 1 := by bv_omega
      refine prints_blink h ?_ ?_ ?_
      · rfl
      · rfl
      · rw [store_screen, h₁]
        simp only [Screen.write]
        rw [screen, if_neg h₀]
        exact congrArg (Screen.mk _) h₁
    case isFalse hp =>
      have h₀ : s.crtPos.toNat = 0 := by bv_omega
      refine prints_blink h rfl rfl ?_
      simp only [Screen.write]
      exact (if_pos h₀).symm
  case isFalse =>
    split
    case isTrue =>
      have ha : (s.crtPos + BitVec.ofNat 16 CRT_COLS).toNat = s.crtPos.toNat + CRT_COLS := by
        apply BitVec.toNat_add_of_lt
        exact Nat.lt_trans (Nat.add_lt_add_right hlt 80) (by decide)
      refine prints_blink h ?_ ?_ ?_
      · rfl
      · rfl
      · rw [move_screen, sub_mod_toNat, ha]
        rfl
    case isFalse =>
      split
      case isTrue =>
        refine prints_blink h ?_ ?_ ?_
        · rfl
        · rfl
        · rw [move_screen, sub_mod_toNat]
          rfl
      case isFalse =>
        have h₁ : (s.crtPos + 1#16).toNat = s.crtPos.toNat + 1 := by bv_omega
        refine prints_blink h ?_ ?_ ?_
        · rfl
        · rfl
        · rw [move_screen, h₁]
          rfl

-- The character that is sent over the lines before it gets to the display.
theorem consPutc_prints_of {ops : List (Op (BitVec 16))}
    (h : Prints (lptPutc c (serialPutc c s)) s' ops bytes) : Prints s s' ops (c.setWidth 8 :: bytes) := by
  rw [chars_eq] at h
  refine ⟨h.display, h.lt, h.screen, h.outside, ?_⟩
  obtain ⟨l, ho, hs, hc⟩ := h.outs
  refine ⟨charOuts c ++ l, by rw [ho, List.append_assoc], sends_charOuts.append hs, fun d => ?_⟩
  rw [List.foldl_append]
  exact hc _

theorem consPutc_prints_plain (h : s.crtPos.toNat < CRT_SIZE) (ht : c &&& 0xFF#32 ≠ 0x09#32) :
    Prints s (consPutc c s) (crtOps c) (lineBytes c) := by
  rw [consPutc, lineBytes, if_neg ht]
  exact consPutc_prints_of (cgaPutc_prints (chars_eq ▸ h) ht)

theorem consPutc_prints_blank (h : s.crtPos.toNat < CRT_SIZE) :
    Prints s (consPutc 0x20#32 s) [.glyph 0x0720#16] [0x20#8] :=
  consPutc_prints_plain h (by decide)

theorem Prints.blink {ops : List (Op (BitVec 16))} (h : Prints s s' ops bytes) :
    Prints s s'.scroll.blink ops bytes := by
  have ha := addr_eq h.display
  rw [scroll_eq h.lt, blink_eq]
  refine ⟨h.display, h.lt, h.screen, h.outside, ?_⟩
  obtain ⟨l, ho, hs, -⟩ := h.outs
  refine ⟨l ++ s'.cursorOuts, by rw [ho, List.append_assoc], ?_, fun d => ?_⟩
  · have hs := hs.append (ha ▸ sends_cursorOuts)
    rwa [List.append_nil] at hs
  · rw [List.foldl_append, ← ha]
    exact cursor_cursorOuts

theorem cgaPutc_prints_tab (h : s.crtPos.toNat < CRT_SIZE) (ht : c &&& 0xFF#32 = 0x09#32) :
    Prints s (cgaPutc c s) (List.replicate 5 (.glyph 0x0720#16)) (List.replicate 5 0x20#8) := by
  have h₁ := consPutc_prints_blank h
  have h₂ := consPutc_prints_blank h₁.lt
  have h₃ := consPutc_prints_blank h₂.lt
  have h₄ := consPutc_prints_blank h₃.lt
  have h₅ := consPutc_prints_blank h₄.lt
  rw [cgaPutc]
  simp only [low_attr, ht]
  rw [if_neg (by decide), if_neg (by decide), if_neg (by decide), if_pos trivial]
  exact ((((h₁.trans h₂).trans h₃).trans h₄).trans h₅).blink

theorem consPutc_prints (h : s.crtPos.toNat < CRT_SIZE) : Prints s (consPutc c s) (crtOps c) (lineBytes c) := by
  by_cases ht : c &&& 0xFF#32 = 0x09#32
  case pos =>
    have ho : crtOps c = List.replicate 5 (.glyph 0x0720#16) := by
      rw [crtOps, ht]
      rfl
    rw [consPutc, lineBytes, if_pos ht, ho]
    exact consPutc_prints_of (cgaPutc_prints_tab (chars_eq ▸ h) ht)
  case neg => exact consPutc_prints_plain h ht

-- A call that prints any number of characters.
theorem consPutc_prints_foldl {cs : List Word} (h : s.crtPos.toNat < CRT_SIZE) (hc : cs ≠ []) :
    Prints s (s.puts cs) (cs.flatMap crtOps) (cs.flatMap lineBytes) := by
  induction cs generalizing s
  case nil => exact absurd rfl hc
  case cons c cs hi =>
    have hp := consPutc_prints (c := c) h
    by_cases hn : cs = []
    case pos =>
      rw [hn]
      simpa [puts] using hp
    case neg => exact hp.trans (hi hp.lt hn)

end Crt

-- What the console is for. The display shows the last lines of an endless page, the memory behind it is left
-- alone, the lines carry the same characters, and the cursor of the display is where the next one goes.
structure Shown (s s' : Crt) (page : Page (BitVec 16)) (d : Devices) (cs : List Word) : Prop where
  page : Shows CRT_ROWS CRT_COLS 0x0720#16 s'.screen
    ((cs.flatMap crtOps).foldl (Page.put CRT_ROWS CRT_COLS) page)
  outside : ∀ i ≥ CRT_SIZE, s'.crtBuf i = s.crtBuf i
  serial : (s'.devices d).serial = (s.devices d).serial ++ cs.flatMap lineBytes
  printed : (s'.devices d).printed = (s.devices d).printed ++ cs.flatMap lineBytes
  cursor : cs ≠ [] → (s'.devices d).cursor = s'.crtPos

theorem cons_putc_shows {page : Page (BitVec 16)} (h : Shows CRT_ROWS CRT_COLS 0x0720#16 s.screen page)
    (cs : List Word) : Shown s (s.puts cs) page d cs := by
  by_cases hc : cs = []
  case pos =>
    rw [hc]
    exact ⟨h, fun _ _ => rfl, (List.append_nil _).symm, (List.append_nil _).symm, fun hn => absurd rfl hn⟩
  case neg =>
    have hp := Crt.consPutc_prints_foldl h.lt hc
    obtain ⟨l, ho, hs, hcur⟩ := hp.outs
    have hd : (s.puts cs).devices d = l.foldl (.outb s.addr6845) (s.devices d) := by
      rw [Crt.devices, Crt.addr_eq hp.display, ho, List.foldl_append]
      rfl
    refine ⟨?_, hp.outside, ?_, ?_, fun _ => ?_⟩
    · have hs := h.puts (cs.flatMap crtOps)
      rwa [← hp.screen] at hs
    · rw [hd]
      exact (hs _).left
    · rw [hd]
      exact (hs _).right
    · rw [hd]
      exact hcur _

theorem cons_putc_shows_tab : ∃ s page, s = Crt.cgaInit .mono 7#8 0xCF#8 (fun _ => 0x0720#16) [] ∧
    Shown s (s.puts [0x61#32, 0x09#32, 0x0A#32]) page ⟨[], 0#8, [], 0#8, 0#8, 0#8⟩
      [0x61#32, 0x09#32, 0x0A#32] :=
  ⟨_, _, rfl, cons_putc_shows (Screen.shows_page (by decide)) _⟩

theorem crtOps_glyph (h : isGlyph c) : crtOps c = [.glyph (glyph c)] := by
  simp only [isGlyph, List.mem_cons, not_or] at h
  obtain ⟨h₁, h₂, h₃, h₄, -⟩ := h
  simp only [crtOps, if_neg h₁, if_neg h₂, if_neg h₃, if_neg h₄, glyph]

theorem crtOps_line {l : List Word} (h : ∀ c ∈ l, isGlyph c) :
    (l ++ [0x0A#32]).flatMap crtOps = Page.lineOps (l.map glyph) := by
  have hn : crtOps 0x0A#32 = [.newline] := by
    simp [crtOps]
  rw [List.flatMap_append, List.flatMap_singleton, hn, Page.lineOps]
  congr 1
  induction l
  case nil => rfl
  case cons c l hi =>
    rw [List.flatMap_cons, crtOps_glyph (h c List.mem_cons_self),
      hi fun c hc => h c (List.mem_cons_of_mem _ hc)]
    rfl

theorem crtOps_lines {ls : List (List Word)} (h : ∀ l ∈ ls, ∀ c ∈ l, isGlyph c) :
    (ls.flatMap (· ++ [0x0A#32])).flatMap crtOps = (ls.map (·.map glyph)).flatMap Page.lineOps := by
  induction ls
  case nil => rfl
  case cons l ls hi =>
    rw [List.flatMap_cons, List.flatMap_append, crtOps_line (h l List.mem_cons_self),
      hi fun l hl => h l (List.mem_cons_of_mem _ hl)]
    rfl

-- The last lines of a text are on a display that was empty.
theorem text_shown (ls : List (List Word)) (hp : s.crtPos = 0#16) (hb : ∀ i < CRT_SIZE, s.crtBuf i = 0x0720#16)
    (hl : ∀ l ∈ ls, l.length < CRT_COLS) (hc : ∀ l ∈ ls, ∀ c ∈ l, isGlyph c) {r j : Nat} (hr : r < CRT_ROWS)
    (hj : j < CRT_COLS) : (s.puts (ls.flatMap (· ++ [0x0A#32]))).crtBuf (r * CRT_COLS + j) =
      (ls[ls.length + 1 - CRT_ROWS + r]?.bind (·[j]?)).elim 0x0720#16 glyph := by
  by_cases hn : ls = []
  case pos =>
    rw [hn]
    exact hb _ (cell_lt hr hj)
  case neg =>
    have h₀ : s.crtPos.toNat = 0 := congrArg BitVec.toNat hp
    have hlt : s.crtPos.toNat < CRT_SIZE := h₀.trans_lt (by decide)
    have hs := (Crt.screen_shows hlt).puts ((ls.flatMap (· ++ [0x0A#32])).flatMap crtOps)
    have hn' : ls.flatMap (· ++ [0x0A#32]) ≠ [] := by
      cases ls
      case nil  => exact absurd rfl hn
      case cons => simp
    rw [← (Crt.consPutc_prints_foldl hlt hn').screen, crtOps_lines hc,
      Page.put_lines (k := 0) (by decide)] at hs
    · have ht := hs.lines (fun {i} => ?_) rfl hr hj
      · rw [List.length_map] at ht
        refine ht.trans ?_
        rw [List.getElem?_map]
        cases ls[ls.length + 1 - CRT_ROWS + r]?
        case none => rfl
        case some l =>
          rw [Option.map_some, Option.bind_some, Option.bind_some, List.getElem?_map]
          cases l[j]? <;> rfl
      · simp only [Screen.page, Crt.screen, ite_eq_right_iff]
        exact hb i
    · rw [Screen.page, Nat.zero_mul]
      exact h₀
    · intro l hm
      obtain ⟨l', hl', rfl⟩ := List.mem_map.mp hm
      rw [List.length_map]
      exact hl l' hl'
    · exact (by decide : 0 < 0 + CRT_ROWS)
    · simpa using hn

theorem text_shown_hi : ∃ s, s = Crt.cgaInit .cga 0#8 0#8 (fun _ => 0x0720#16) [] ∧
    (s.puts [0x68#32, 0x69#32, 0x0A#32]).crtBuf 1 = 0x0769#16 :=
  ⟨_, rfl, text_shown [[0x68#32, 0x69#32]] (r := 0) (j := 1) rfl (fun _ _ => rfl) (by decide) (by
    simp [isGlyph]) (by decide) (by decide)⟩

end Kern

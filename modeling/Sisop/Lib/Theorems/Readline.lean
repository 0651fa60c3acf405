import Sisop.Lib.Readline

namespace Lib.Readline

open Library

variable {echoing : Bool} {s s' : State} {c e : Byte} {l l' cs pre post : List Byte} {buf : Memory} {n : Nat}

def DEL : Byte := 0x7F

-- What a character should do to a line.
def edit (l : List Byte) (c : Byte) : List Byte :=
  if c = 8 ∨ c = DEL then l.dropLast
  else if 0x20 ≤ c ∧ l.length < BUFLEN - 1 then l ++ [c]
  else l

-- How many characters there are in a line of `n` characters after another one has been typed.
def count (n : Nat) (c : Byte) : Nat :=
  if (c = 8 ∨ c = DEL) ∧ 0 < n then n - 1
  else if 0x20 ≤ c ∧ n < BUFLEN - 1 then n + 1
  else n

-- The string `l` is at the start of the buffer.
def Shows (buf : Memory) (l : List Byte) : Prop := (∀ k (_ : k < l.length), buf k = l[k]) ∧ buf l.length = 0

-- The line `cs` that ends with `e` is read as it should be: what is returned is the string that one gets by
-- the edits, and nothing is stored outside of the buffer.
def Reads (echoing : Bool) (cs : List Byte) (e : Byte) (buf : Memory) : Prop :=
  ∃ buf' s, readline echoing ((cs ++ [e]).map fun c => (c.toNat : Int)) buf = some (some buf', s) ∧
    Shows buf' (cs.foldl edit []) ∧ ∀ k ∈ s.stores, k < BUFLEN

-- What is typed after a DEL on an empty line deletes it.
def Undone (cs : List Byte) : Prop :=
  ∀ pre post, cs = pre ++ DEL :: post → pre.foldl count 0 = 0 → ∃ p, p <+: post ∧ p.foldl count 1 = 0

section Edits

-- What the code does to the line.
def edits (l : List Byte) (c : Byte) : List Byte :=
  if (c = 8 ∨ c = DEL) ∧ 0 < l.length then l.dropLast
  else if 0x20 ≤ c ∧ l.length < BUFLEN - 1 then l ++ [c]
  else l

theorem edits_length : (edits l c).length = count l.length c := by
  rw [edits, count]
  split
  · exact List.length_dropLast
  · split
    · exact List.length_append
    · rfl

theorem foldl_edits_length : (cs.foldl edits l).length = cs.foldl count l.length := by
  induction cs generalizing l
  case nil => rfl
  case cons c cs hi => rw [List.foldl_cons, hi, edits_length, List.foldl_cons]

theorem edits_head (hl : l ≠ []) (h : edits l c ≠ []) : (edits l c).head? = l.head? := by
  obtain ⟨x, l, rfl⟩ := List.exists_cons_of_ne_nil hl
  rw [edits] at h ⊢
  split
  case isTrue hd =>
    rw [if_pos hd] at h
    cases l
    case nil => exact absurd rfl h
    case cons => rfl
  case isFalse =>
    split
    · rfl
    · rfl

theorem foldl_edits_head (hl : l ≠ []) (h : ∀ p, p <+: cs → p.foldl count l.length ≠ 0) :
    (cs.foldl edits l).head? = l.head? := by
  induction cs generalizing l
  case nil => rfl
  case cons c cs hi =>
    have hne : edits l c ≠ [] := by
      rw [ne_eq, ← List.length_eq_zero_iff, edits_length]
      exact h [c] ⟨cs, rfl⟩
    rw [List.foldl_cons, hi hne fun p hp => ?_]
    · exact edits_head hl hne
    · rw [edits_length]
      exact h (c :: p) ((List.prefix_cons_inj c).mpr hp)

-- The line of the code begins with DEL where a DEL has come on an empty line and has stayed.
theorem edits_begins : (cs.foldl edits []).head? = some DEL ↔
    ∃ pre post, cs = pre ++ DEL :: post ∧ pre.foldl count 0 = 0 ∧ ∀ p, p <+: post → p.foldl count 1 ≠ 0 := by
  constructor
  · induction cs using List.reverseRecOn
    case nil => exact nofun
    case append_singleton cs c hi =>
      intro h
      rw [List.foldl_append, List.foldl_cons, List.foldl_nil] at h
      have hlen : (cs.foldl edits []).length = cs.foldl count 0 := foldl_edits_length
      by_cases hl : cs.foldl edits [] = []
      case pos =>
        rw [hl] at h hlen
        have hc : c = DEL := by
          rw [edits] at h
          split at h
          · cases h
          · split at h
            · exact Option.some.inj h
            · cases h
        refine ⟨cs, [], by rw [hc], hlen.symm, fun p hp => ?_⟩
        rw [List.prefix_nil.mp hp]
        exact Nat.one_ne_zero
      case neg =>
        have hne : edits (cs.foldl edits []) c ≠ [] := fun he => by
          rw [he] at h
          cases h
        rw [edits_head hl hne] at h
        obtain ⟨pre, post, rfl, hpre, hpost⟩ := hi h
        refine ⟨pre, post ++ [c], by simp, hpre, fun p hp => ?_⟩
        obtain hp | rfl := (List.prefix_concat_iff.mp hp).symm
        · exact hpost p hp
        · have hl₀ : pre.foldl edits [] = [] := by
            rw [← List.length_eq_zero_iff, foldl_edits_length]
            exact hpre
          have hd : edits [] DEL = [DEL] := by decide
          rw [List.foldl_append, hl₀, List.foldl_cons, hd] at hne
          have hlast : ((post ++ [c]).foldl edits [DEL]).length = (post ++ [c]).foldl count 1 :=
            foldl_edits_length
          rw [List.foldl_append, List.foldl_cons, List.foldl_nil] at hlast
          rw [← hlast]
          exact fun h₀ => hne (List.length_eq_zero_iff.mp h₀)
  · rintro ⟨pre, post, rfl, hpre, hpost⟩
    have hl₀ : pre.foldl edits [] = [] := by
      rw [← List.length_eq_zero_iff, foldl_edits_length]
      exact hpre
    have hd : edits [] DEL = [DEL] := by decide
    rw [List.foldl_append, hl₀, List.foldl_cons, hd]
    exact foldl_edits_head nofun hpost

-- While no DEL has stayed, the code does the edits; otherwise its line begins with DEL, and it is at least as
-- long.
structure Follows (l l' : List Byte) : Prop where
  noDel  : DEL ∉ l
  follow : l' = l ∨ l'.head? = some DEL ∧ l.length ≤ l'.length

theorem Follows.edit (h : Follows l l') : Follows (edit l c) (edits l' c) := by
  obtain ⟨hd, hl⟩ := h
  constructor
  · rw [Readline.edit]
    split
    case isTrue => exact fun h => hd ((List.dropLast_sublist l).subset h)
    case isFalse hc =>
      split
      · rw [List.mem_append, List.mem_singleton]
        rintro (h | h)
        · exact hd h
        · exact hc (.inr h.symm)
      · exact hd
  obtain rfl | ⟨hh, hle⟩ := hl
  · rw [Readline.edit, edits]
    by_cases hc : c = 8 ∨ c = DEL
    case neg => rw [if_neg hc, if_neg fun h => hc h.1]; exact .inl rfl
    case pos =>
      rw [if_pos hc]
      by_cases hl : 0 < l'.length
      case pos => rw [if_pos ⟨hc, hl⟩]; exact .inl rfl
      case neg =>
        rw [if_neg fun h => hl h.2]
        obtain rfl : l' = [] := List.length_eq_zero_iff.mp (by omega)
        obtain rfl | rfl := hc
        · exact .inl (by decide)
        · exact .inr (by decide)
  · have hpos : 0 < l'.length := by
      cases l'
      case nil => cases hh
      case cons => exact Nat.zero_lt_succ _
    have hlen : (edits l' c).length = count l'.length c := edits_length
    have hlen' : (Readline.edit l c).length ≤ (edits l' c).length := by
      have hB : BUFLEN = 1024 := rfl
      rw [hlen, Readline.edit, count]
      by_cases hc : c = 8 ∨ c = DEL
      case pos =>
        rw [if_pos hc, if_pos ⟨hc, hpos⟩, List.length_dropLast]
        omega
      case neg =>
        simp only [hc, false_and, if_false]
        by_cases hp : 0x20 ≤ c
        case pos =>
          simp only [hp, true_and]
          split
          · rw [List.length_append, List.length_singleton]
            split <;> omega
          · split <;> omega
        case neg =>
          simp only [hp, false_and, if_false]
          exact hle
    by_cases hne : edits l' c = []
    case pos =>
      rw [hne] at hlen' ⊢
      exact .inl (List.length_eq_zero_iff.mp (Nat.le_zero.mp hlen')).symm
    case neg =>
      rw [edits_head (List.length_pos_iff.mp hpos) hne]
      exact .inr ⟨hh, hlen'⟩

theorem Follows.foldl (h : Follows l l') : Follows (cs.foldl Readline.edit l) (cs.foldl edits l') := by
  induction cs generalizing l l'
  case nil => exact h
  case cons c cs hi => exact hi h.edit

theorem edits_eq : cs.foldl edits [] = cs.foldl edit [] ↔ Undone cs := by
  have hf : Follows (cs.foldl edit []) (cs.foldl edits []) := Follows.foldl ⟨List.not_mem_nil, .inl rfl⟩
  have hb : Undone cs ↔ ¬(cs.foldl edits []).head? = some DEL := by
    rw [edits_begins, Undone]
    push Not
    rfl
  rw [hb]
  constructor
  · intro he hh
    rw [he] at hh
    exact hf.noDel (List.mem_of_mem_head? hh)
  · exact fun hh => hf.follow.resolve_right fun h => hh h.1

-- Only printable characters get into a line.
theorem edit_mem {x : Byte} : (x ∈ edit l c → x ∈ l ∨ 0x20 ≤ x) ∧ (x ∈ edits l c → x ∈ l ∨ 0x20 ≤ x) := by
  have happ (hc : 0x20 ≤ c) (hx : x ∈ l ++ [c]) : x ∈ l ∨ 0x20 ≤ x := by
    obtain hx | hx := List.mem_append.mp hx
    · exact .inl hx
    · rw [List.mem_singleton.mp hx]
      exact .inr hc
  rw [edit, edits]
  constructor
  all_goals
    split
    · exact fun hx => .inl ((List.dropLast_sublist l).subset hx)
    · split
      case isTrue hc => exact happ hc.1
      case isFalse => exact .inl

theorem foldl_mem {x : Byte} {f : List Byte → Byte → List Byte}
    (hf : ∀ l c, x ∈ f l c → x ∈ l ∨ 0x20 ≤ x) (hx : x ∈ cs.foldl f l) : x ∈ l ∨ 0x20 ≤ x := by
  induction cs generalizing l
  case nil => exact .inl hx
  case cons c cs hi => exact (hi hx).elim (hf l c) .inr

-- A buffer shows one string without null characters.
theorem Shows.unique (h : Shows buf l) (h' : Shows buf l') (hl : 0 ∉ l) (hl' : 0 ∉ l') : l = l' := by
  have hlen : l.length = l'.length := by
    obtain hlt | he | hlt := Nat.lt_trichotomy l.length l'.length
    · exact absurd ((h'.1 _ hlt).symm.trans h.2 ▸ List.getElem_mem hlt) hl'
    · exact he
    · exact absurd ((h.1 _ hlt).symm.trans h'.2 ▸ List.getElem_mem hlt) hl
  exact List.ext_getElem hlen fun k h₁ h₂ => (h.1 k h₁).symm.trans (h'.1 k h₂)

end Edits

section Loop

-- The first `l.length` characters of the buffer are those of the line.
structure Holds (s : State) (l : List Byte) : Prop where
  i      : s.i = l.length
  length : l.length < BUFLEN
  chars  : ∀ k (_ : k < l.length), s.buf k = l[k]
  stores : ∀ k ∈ s.stores, k < BUFLEN

theorem cputchar_holds {x : Int} (h : Holds s l) : Holds (cputchar echoing x s) l := by
  rw [cputchar]
  split
  · exact ⟨h.i, h.length, h.chars, h.stores⟩
  · exact h

theorem store_self {x : Int} : (store n x s).buf n = BitVec.ofInt 8 x :=
  if_pos ⟨Nat.le_refl n, Nat.lt_succ_self n⟩

theorem store_ne {x : Int} {k : Nat} (h : k ≠ n) : (store n x s).buf k = s.buf k := if_neg (by omega)

theorem store_stores {x : Int} (hn : n < BUFLEN) (h : ∀ k ∈ s.stores, k < BUFLEN) :
    ∀ k ∈ (store n x s).stores, k < BUFLEN := by
  intro k hk
  obtain rfl | hk := List.mem_cons.mp hk
  · exact hn
  · exact h k hk

theorem toNat_cases (c : Byte) : ((c.toNat : Int) = 8 ↔ c = 8) ∧ ((c.toNat : Int) = 0x7F ↔ c = DEL) ∧
    ((c.toNat : Int) = 10 ↔ c = 10) ∧ ((c.toNat : Int) = 13 ↔ c = 13) ∧
      (0x20 ≤ (c.toNat : Int) ↔ 0x20 ≤ c) := by
  have h₁ : (8 : Byte).toNat = 8 := rfl
  have h₂ : DEL.toNat = 127 := rfl
  have h₃ : (10 : Byte).toNat = 10 := rfl
  have h₄ : (13 : Byte).toNat = 13 := rfl
  have h₅ : (0x20 : Byte).toNat = 32 := rfl
  rw [← BitVec.toNat_inj, ← BitVec.toNat_inj, ← BitVec.toNat_inj, ← BitVec.toNat_inj, BitVec.le_def]
  omega

-- A character that does not end the line.
theorem turn_spec (h : Holds s l) (hc : c ≠ 10 ∧ c ≠ 13) :
    ∃ s', turn echoing c.toNat s = (s', none) ∧ Holds s' (edits l c) := by
  obtain ⟨h₁, h₂, h₃, h₄, h₅⟩ := toNat_cases c
  rw [turn, if_neg (Int.not_lt.mpr (Int.natCast_nonneg _)), edits]
  simp only [h₁, h₂, h₃, h₄, h₅, h.i]
  split
  case isTrue hd =>
    have hp : Holds (cputchar echoing 8 s) l := cputchar_holds h
    refine ⟨_, rfl, ⟨?_, ?_, fun k hk => ?_, hp.stores⟩⟩
    · rw [List.length_dropLast]
      exact congrArg (· - 1) hp.i
    · rw [List.length_dropLast]
      have := h.length
      omega
    · rw [List.length_dropLast] at hk
      exact (hp.chars k (by omega)).trans (List.getElem_dropLast _).symm
  case isFalse =>
    split
    case isTrue hb =>
      have hp : Holds (cputchar echoing c.toNat s) l := cputchar_holds h
      have hl : (l ++ [c]).length = l.length + 1 := List.length_append
      have hB : BUFLEN = 1024 := rfl
      refine ⟨_, rfl, ⟨?_, ?_, fun k hk => ?_, ?_⟩⟩
      · rw [hl]
        exact congrArg (· + 1) hp.i
      · omega
      · rw [hl] at hk
        by_cases he : k = l.length
        case pos =>
          subst he
          rw [List.getElem_concat_length rfl]
          show (store _ _ _).buf l.length = c
          rw [hp.i, store_self, BitVec.ofInt_natCast, BitVec.ofNat_toNat, BitVec.setWidth_eq]
        case neg =>
          have hk : k < l.length := by omega
          rw [List.getElem_append_left hk]
          show (store _ _ _).buf k = _
          rw [store_ne (by rw [hp.i]; exact he)]
          exact hp.chars k hk
      · exact store_stores (x := c.toNat) (hp.i ▸ h.length) hp.stores
    case isFalse =>
      rw [if_neg (not_or.mpr hc)]
      exact ⟨s, rfl, h⟩

-- The end of the line.
theorem turn_end (h : Holds s l) (he : e = 10 ∨ e = 13) :
    ∃ buf' s', turn echoing e.toNat s = (s', some (some buf')) ∧ Shows buf' l ∧
      ∀ k ∈ s'.stores, k < BUFLEN := by
  obtain ⟨h₁, h₂, h₃, h₄, h₅⟩ := toNat_cases e
  rw [turn, if_neg (Int.not_lt.mpr (Int.natCast_nonneg _))]
  simp only [h₁, h₂, h₃, h₄, h₅]
  have hne : ¬(e = 8 ∨ e = DEL) ∧ ¬0x20 ≤ e := by
    obtain rfl | rfl := he <;> decide
  simp only [hne.1, hne.2, he, false_and, if_false, if_true]
  have hp : Holds (cputchar echoing 10 s) l := cputchar_holds h
  refine ⟨_, _, rfl, ⟨fun k hk => ?_, ?_⟩, store_stores (h.i ▸ h.length) hp.stores⟩
  · rw [store_ne (by rw [h.i]; omega)]
    exact hp.chars k hk
  · rw [h.i]
    exact store_self

theorem loop_spec (h : Holds s l) (hcs : ∀ c ∈ cs, c ≠ 10 ∧ c ≠ 13) (he : e = 10 ∨ e = 13) :
    ∃ buf' s', loop echoing ((cs ++ [e]).map fun c => (c.toNat : Int)) s = some (some buf', s') ∧
      Shows buf' (cs.foldl edits l) ∧ ∀ k ∈ s'.stores, k < BUFLEN := by
  induction cs generalizing s l
  case nil =>
    obtain ⟨buf', s', ht, hs⟩ : ∃ buf' s', turn echoing e.toNat s = _ ∧ _ := turn_end h he
    refine ⟨buf', s', ?_, hs⟩
    rw [List.nil_append, List.map_singleton, loop, ht]
  case cons c cs hi =>
    obtain ⟨s', ht, hs⟩ : ∃ s', turn echoing c.toNat s = _ ∧ _ := turn_spec h (hcs c List.mem_cons_self)
    obtain ⟨buf', s'', hl, hb⟩ := hi hs fun c hc => hcs c (List.mem_cons_of_mem _ hc)
    refine ⟨buf', s'', ?_, hb⟩
    rw [List.cons_append, List.map_cons, loop, ht]
    exact hl

end Loop

-- A line is read as it should be exactly where every DEL on an empty line has been deleted again.
theorem readline_edits_iff (hcs : ∀ c ∈ cs, c ≠ 10 ∧ c ≠ 13) (he : e = 10 ∨ e = 13) :
    Reads echoing cs e buf ↔ Undone cs := by
  have h₀ : Holds ⟨buf, 0, [], []⟩ [] := ⟨rfl, by decide, nofun, nofun⟩
  obtain ⟨buf', s', hl, hb, hs⟩ : ∃ buf' s', loop echoing _ _ = _ ∧ _ := loop_spec h₀ hcs he
  rw [← edits_eq]
  constructor
  · rintro ⟨buf'', s'', hr, hb', _⟩
    rw [readline, hl] at hr
    cases hr
    refine hb.unique hb' (fun hz => ?_) fun hz => ?_
    · exact absurd (foldl_mem (fun _ _ => edit_mem.2) hz) (by decide)
    · exact absurd (foldl_mem (fun _ _ => edit_mem.1) hz) (by decide)
  · intro heq
    exact ⟨buf', s', hl, heq ▸ hb, hs⟩

theorem readline_edits_iff_sample :
    Reads true [0x61, 0x7F, 0x62] 10 (fun _ => 0) ↔ Undone [0x61, 0x7F, 0x62] :=
  readline_edits_iff (by decide) (by decide)

-- DEL alone on a line stays.
theorem not_readline_edits : ¬Reads true [0x7F] 10 (fun _ => 0) := by
  rintro ⟨buf', s, hr, hb, _⟩
  cases hr
  exact absurd hb.2 (by decide)

end Lib.Readline

import Mathlib.Tactic.Ring
import Sisop.Kern.Sample
import Sisop.Kern.Theorems.Binsearch

-- Which bytes of the user `debuginfo_eip` reads.

namespace Kern.Kdebug

open Inc Library

section AnyTable

variable {stabs : Int → Stab} {type l r t L R : Int} {k n : Nat} {a : Word} {s s' : Search}

-- The reads of the table at indices from `l` to `r`.
def ReadsIn (l r : Int) (reads : List (Int × StabField)) : Prop := ∀ x ∈ reads, l ≤ x.1 ∧ x.1 ≤ r

theorem ReadsIn.append {reads reads' : List (Int × StabField)} (h : ReadsIn l r reads)
    (h' : ReadsIn l r reads') : ReadsIn l r (reads ++ reads') := fun x hx =>
  (List.mem_append.mp hx).elim (h x) (h' x)

theorem ReadsIn.mono {reads : List (Int × StabField)} (h : ReadsIn l r reads) (hl : L ≤ l) (hr : r ≤ R) :
    ReadsIn L R reads := fun x hx => by
  have := h x hx
  omega

theorem scanBack_reads : ReadsIn l (l + k - 1) (scanBack stabs type l k).2 := by
  induction k
  case zero => exact fun x hx => absurd hx List.not_mem_nil
  case succ k hi =>
    have here : l ≤ l + k ∧ l + (k : Int) ≤ l + (k + 1 : Nat) - 1 := by omega
    by_cases ht : isType stabs type (l + k)
    case pos =>
      simp only [scanBack, if_pos ht]
      intro x hx
      rw [List.mem_singleton.mp hx]
      exact here
    case neg =>
      simp only [scanBack, if_neg ht]
      intro x hx
      obtain rfl | hx := List.mem_cons.mp hx
      · exact here
      · exact hi.mono (Int.le_refl _) (by omega) x hx

-- A turn reads inside of its interval.
theorem searchStep_reads (h₀ : 0 ≤ s.l) (h₁ : s.l ≤ s.r) (h₂ : s.r < 1073741824) :
    ∃ reads, (searchStep stabs type s).reads = s.reads ++ reads ∧ ReadsIn s.l s.r reads := by
  obtain ⟨t, ht⟩ : ∃ t, t = (s.l + s.r) / 2 := ⟨_, rfl⟩
  have hk : s.l + ((t + 1 - s.l).toNat : Int) = t + 1 := by omega
  have hc := scanBack_cases stabs type s.l (t + 1 - s.l).toNat
  have hr : ReadsIn s.l s.r (scanBack stabs type s.l (t + 1 - s.l).toNat).2 :=
    scanBack_reads.mono (Int.le_refl _) (by omega)
  simp only [hk, Int.lt_add_one_iff] at hc
  simp only [searchStep, midpoint h₀ h₁ h₂, ← ht]
  have values : ∀ {m} {fields : List (Int × StabField)}, s.l ≤ m → m ≤ t → (∀ x ∈ fields, x.1 = m) →
      ReadsIn s.l s.r fields := fun lo hi he x hx => by
    rw [he x hx]
    omega
  obtain ⟨hm, _⟩ | ⟨lo, hi, _⟩ := hc
  case inl =>
    rw [if_pos (by omega)]
    exact ⟨_, rfl, hr⟩
  case inr =>
    rw [if_neg (by omega)]
    split
    case isTrue =>
      refine ⟨_, List.append_assoc .., hr.append (values lo hi ?_)⟩
      simp
    case isFalse =>
      split
      case isTrue =>
        refine ⟨_, List.append_assoc .., hr.append (values lo hi ?_)⟩
        simp
      case isFalse =>
        refine ⟨_, List.append_assoc .., hr.append (values lo hi ?_)⟩
        simp

-- What every search keeps, whatever the table holds.
structure Within (stabs : Int → Stab) (type L R : Int) (s : Search) : Prop where
  lo    : L ≤ s.l
  hi    : s.r ≤ R
  len   : s.l ≤ s.r + 1
  right : s.right = s.r
  left  : L ≤ s.left ∧ s.left ≤ R
  is    : s.left = L ∨ isType stabs type s.left
  none  : s.any_matches = false → s.left = L
  reads : ReadsIn L R s.reads

theorem searchStart_within (h : L ≤ R) : Within stabs type L R (searchStart L R a) :=
  ⟨Int.le_refl _, Int.le_refl _, by simp only [searchStart]; omega, rfl, ⟨Int.le_refl _, h⟩, .inl rfl,
    fun _ => rfl, fun _ hx => absurd hx List.not_mem_nil⟩

theorem Within.step (h : Within stabs type L R s) (hL : 0 ≤ L) (hR : R < 1073741824) (hc : s.l ≤ s.r) :
    Within stabs type L R (searchStep stabs type s) := by
  have hlo := h.lo
  have hhi := h.hi
  have hreads : ReadsIn L R (searchStep stabs type s).reads := by
    obtain ⟨reads, he, hr⟩ : ∃ reads, (searchStep stabs type s).reads = s.reads ++ reads ∧
      ReadsIn s.l s.r reads := searchStep_reads (by omega) hc (by omega)
    rw [he]
    exact h.reads.append (hr.mono hlo hhi)
  obtain ⟨t, he⟩ : ∃ t, t = (s.l + s.r) / 2 := ⟨_, rfl⟩
  have h₁ : s.l ≤ t := by omega
  have h₂ : t ≤ s.r := by omega
  have ht : Turn stabs type s ((s.l + s.r) / 2) (searchStep stabs type s) :=
    searchStep_turn (by omega) hc (by omega)
  rw [← he] at ht
  generalize searchStep stabs type s = s' at hreads ht
  cases ht
  case skip => exact ⟨by show L ≤ t + 1; omega, hhi, by show t + 1 ≤ s.r + 1; omega, h.right, h.left, h.is,
    h.none, hreads⟩
  case below m _ lo hi is _ _ =>
    exact ⟨by show L ≤ t + 1; omega, hhi, by show t + 1 ≤ s.r + 1; omega, h.right,
      ⟨by show L ≤ m; omega, by show m ≤ R; omega⟩, .inr is, fun h => Bool.noConfusion h, hreads⟩
  case above m _ lo hi _ _ _ =>
    exact ⟨hlo, by show m - 1 ≤ R; omega, by show s.l ≤ m - 1 + 1; omega, rfl, h.left, h.is, fun h => Bool.noConfusion h, hreads⟩
  case exact m _ lo hi is _ _ =>
    exact ⟨by show L ≤ m; omega, hhi, by show m ≤ s.r + 1; omega, h.right,
      ⟨by show L ≤ m; omega, by show m ≤ R; omega⟩, .inr is, fun h => Bool.noConfusion h, hreads⟩

-- As long as the address has not wrapped: the left end is not beyond the right one, unless the first
-- entry of the range is after the address.
structure Steady (stabs : Int → Stab) (type L R : Int) (a : Word) (s : Search) : Prop where
  within : Within stabs type L R s
  behind : s.left < s.l ∨ (s.left = s.l ∧ value stabs s.left < s.addr.toNat) ∨
    (s.left = L ∧ s.l = L ∧ s.addr = a)
  ends   : s.left ≤ s.r ∨ (s.r = L - 1 ∧ isType stabs type L ∧ a.toNat < value stabs L)
  hops   : ∃ E q, s.addr.toNat = a.toNat + E ∧
    (∀ i, s.l ≤ i → i ≤ q → isType stabs type i → value stabs i < s.addr.toNat) ∧ s.l ≤ q + 1 ∧
    (s.r + 1 - s.l).toNat * (s.r - q).toNat * 2 ^ E ≤ 2 ^ 60

theorem searchStart_steady (hL : 0 ≤ L) (hR : R < 1073741824) (h : L ≤ R) :
    Steady stabs type L R a (searchStart L R a) := by
  refine ⟨searchStart_within h, .inr (.inr ⟨rfl, rfl, rfl⟩), .inl h, 0, L - 1, rfl, fun i h₁ h₂ => ?_,
    by show L ≤ L - 1 + 1; omega, ?_⟩
  · have : L ≤ i := h₁
    omega
  · have hx : (R + 1 - L).toNat ≤ 2 ^ 30 := by omega
    have hy : (R - (L - 1)).toNat ≤ 2 ^ 30 := by omega
    calc (R + 1 - L).toNat * (R - (L - 1)).toNat * 2 ^ 0
        ≤ 2 ^ 30 * 2 ^ 30 * 2 ^ 0 := Nat.mul_le_mul_right _ (Nat.mul_le_mul hx hy)
      _ = 2 ^ 60 := by norm_num

-- Between two exact matches the interval loses one half, so that there are not enough of them to wrap.
theorem Steady.step (h : Steady stabs type L R a s) (hL : 0 ≤ L) (hR : R < 1073741824)
    (ha : a.toNat < 4294967232) (hc : s.l ≤ s.r) :
    Steady stabs type L R a (searchStep stabs type s) := by
  have hw := h.within.step hL hR hc
  have hlo := h.within.lo
  have hhi := h.within.hi
  have hbehind := h.behind
  have hends := h.ends
  obtain ⟨t, he⟩ : ∃ t, t = (s.l + s.r) / 2 := ⟨_, rfl⟩
  have h₁ : s.l ≤ t := by omega
  have h₂ : t ≤ s.r := by omega
  have ht : Turn stabs type s ((s.l + s.r) / 2) (searchStep stabs type s) :=
    searchStep_turn (by omega) hc (by omega)
  rw [← he] at ht
  obtain ⟨E, q, hE, dead, hq, hbound⟩ := h.hops
  -- The interval gets shorter, and so does what is left of it after `q`.
  have shorter : ∀ l' r' q', s.l ≤ l' → r' ≤ s.r → q ≤ q' →
      (r' + 1 - l').toNat * (r' - q').toNat * 2 ^ E ≤ 2 ^ 60 := fun _ _ _ hl hr hq => by
    refine Nat.le_trans (Nat.mul_le_mul_right _ (Nat.mul_le_mul ?_ ?_)) hbound <;> omega
  generalize searchStep stabs type s = s' at hw ht
  cases ht
  case skip =>
    refine ⟨hw, .inl (by show s.left < t + 1; omega), hends, E, max q t, hE, fun i hl hi is => ?_,
      by show t + 1 ≤ max q t + 1; omega, shorter (t + 1) s.r (max q t) (by omega) (Int.le_refl _) (by omega)⟩
    have : t + 1 ≤ i := hl
    exact dead i (by omega) (by omega) is
  case below m _ lo hi is last lt =>
    refine ⟨hw, .inl (by show m < t + 1; omega), .inl (by show m ≤ s.r; omega), E, max q t, hE,
      fun i hl hi is => ?_, by show t + 1 ≤ max q t + 1; omega,
      shorter (t + 1) s.r (max q t) (by omega) (Int.le_refl _) (by omega)⟩
    have : t + 1 ≤ i := hl
    exact dead i (by omega) (by omega) is
  case above m _ lo hi is last gt =>
    refine ⟨hw, hbehind, ?_, E, q, hE, dead, hq, shorter s.l (m - 1) q (Int.le_refl _) (by omega) (Int.le_refl _)⟩
    show s.left ≤ m - 1 ∨ (m - 1 = L - 1 ∧ _)
    by_cases hm : s.left ≤ m - 1
    case pos => exact .inl hm
    case neg =>
      obtain hb | ⟨hb, hv⟩ | ⟨hb, hl, haddr⟩ := hbehind
      · omega
      · have : s.left = m := by omega
        rw [this] at hv
        omega
      · have : m = L := by omega
        subst this
        exact .inr ⟨rfl, is, haddr ▸ gt⟩
  case exact m _ lo hi is last eq =>
    have hqm : q < m := by
      by_contra hn
      have := dead m lo (by omega) is
      omega
    have hE60 : E ≤ 60 := by
      have hx : 1 ≤ (s.r + 1 - s.l).toNat := by omega
      have hy : 1 ≤ (s.r - q).toNat := by omega
      have : 2 ^ E ≤ 2 ^ 60 := by
        calc 2 ^ E = 1 * 1 * 2 ^ E := by omega
          _ ≤ (s.r + 1 - s.l).toNat * (s.r - q).toNat * 2 ^ E :=
            Nat.mul_le_mul_right _ (Nat.mul_le_mul hx hy)
          _ ≤ 2 ^ 60 := hbound
      exact (Nat.pow_le_pow_iff_right (by decide)).mp this
    have hadd : (s.addr + 1).toNat = a.toNat + (E + 1) := by
      rw [BitVec.toNat_add, hE]
      have h1 : (1 : Word).toNat = 1 := rfl
      omega
    have hv : value stabs m < (s.addr + 1).toNat := by omega
    refine ⟨hw, .inr (.inl ⟨rfl, hv⟩), .inl (by show m ≤ s.r; omega), E + 1, t, hadd, fun i hl hi is => ?_,
      by show m ≤ t + 1; omega, ?_⟩
    · have hl : m ≤ i := hl
      obtain rfl | hl := Int.le_iff_eq_or_lt.mp hl
      · exact hv
      · exact absurd is (last i hl hi)
    · show (s.r + 1 - m).toNat * (s.r - t).toNat * 2 ^ (E + 1) ≤ 2 ^ 60
      have hx : (s.r + 1 - m).toNat ≤ (s.r - q).toNat := by omega
      have hy : (s.r - t).toNat * 2 ≤ (s.r + 1 - s.l).toNat := by omega
      calc (s.r + 1 - m).toNat * (s.r - t).toNat * 2 ^ (E + 1)
          = (s.r - t).toNat * 2 * (s.r + 1 - m).toNat * 2 ^ E := by rw [Nat.pow_succ]; ring
        _ ≤ (s.r + 1 - s.l).toNat * (s.r - q).toNat * 2 ^ E :=
          Nat.mul_le_mul_right _ (Nat.mul_le_mul hy hx)
        _ ≤ 2 ^ 60 := hbound

-- What a search of `[L, R]` returns: no entry of the type, or a region that begins with one, or else at
-- the beginning of the range; unless the first entry of the range is after the address.
def Region (stabs : Int → Stab) (type L R : Int) (a : Word) (region : Int × Int) : Prop :=
  region = (L, L - 1) ∨
  (L - 1 ≤ region.1 ∧ region.1 ≤ region.2 ∧ region.2 ≤ R ∧
    (a.toNat < 4294967232 →
      (L ≤ region.1 ∧ (region.1 = L ∨ isType stabs type region.1)) ∨
      (isType stabs type L ∧ a.toNat < value stabs L)))

theorem searchFinish_reads (h : Within stabs type L R s) :
    ReadsIn L R (searchFinish stabs type s).2 := by
  have hright := h.right
  have hhi := h.hi
  have ⟨h₁, h₂⟩ := h.left
  simp only [searchFinish]
  split
  case isTrue => exact fun x hx => absurd hx List.not_mem_nil
  case isFalse =>
    split
    case isTrue => exact scanBack_reads.mono (by omega) (by omega)
    case isFalse => exact fun x hx => absurd hx List.not_mem_nil

theorem searchFinish_region (h : Within stabs type L R s)
    (hs : a.toNat < 4294967232 → Steady stabs type L R a s) :
    Region stabs type L R a (searchFinish stabs type s).1 := by
  by_cases hany : s.any_matches = true
  case neg =>
    have hany := Bool.not_eq_true _ ▸ hany
    rw [searchFinish_none hany, h.none hany]
    exact .inl rfl
  case pos =>
    have hright := h.right
    have hhi := h.hi
    have hlo := h.lo
    have hlen := h.len
    have ⟨h₁, h₂⟩ := h.left
    refine .inr ?_
    by_cases hlt : s.left < s.right
    case pos =>
      have hc := scanBack_cases stabs type (s.left + 1) (s.right - s.left).toNat
      simp only [searchFinish, hany, Bool.not_true, Bool.false_eq_true, if_false, if_pos hlt]
      obtain ⟨hm, _⟩ | ⟨lo, hi, is, _⟩ := hc
      · rw [hm, Int.add_sub_cancel]
        exact ⟨by omega, by omega, by omega, fun _ => .inl ⟨h₁, h.is⟩⟩
      · exact ⟨by omega, by omega, by omega, fun _ => .inl ⟨by omega, .inr is⟩⟩
    case neg =>
      rw [searchFinish_over hany (by omega)]
      refine ⟨by show L - 1 ≤ s.right; omega, Int.le_refl _, by show s.right ≤ R; omega, fun ha => ?_⟩
      obtain hle | ⟨_, is, hv⟩ := (hs ha).ends
      · have he : s.right = s.left := by omega
        exact .inl ⟨by show L ≤ s.right; omega, by rw [he]; exact h.is⟩
      · exact .inr ⟨is, hv⟩

-- The rule for the whole of a search.
theorem searchLoop_region (stabs : Int → Stab) (type : Int) (a : Word) (n : Nat) (hL : 0 ≤ L) (hR : R < 1073741824) (h : L ≤ R) :
    Within stabs type L R (searchLoop stabs type n (searchStart L R a)) ∧
    Region stabs type L R a
      (searchFinish stabs type (searchLoop stabs type n (searchStart L R a))).1 := by
  have hw : Within stabs type L R (searchLoop stabs type n (searchStart L R a)) :=
    whileLoop_invariant (searchStart_within h) fun s hs hc => hs.step hL hR hc
  refine ⟨hw, searchFinish_region hw fun ha => ?_⟩
  exact whileLoop_invariant (searchStart_steady hL hR h) fun s hs hc => hs.step hL hR ha hc

end AnyTable

section Quiet

variable {α β : Type} {v : List (Word × Word)} {x : EipProg α} {f : α → EipProg β} {Q Q' : α → Prop}
  {R : β → Prop} {r : Stop} {c : Prop} [Decidable c]

-- With the ranges `v` verified, `x` reads only bytes of these.
def Quiet (v : List (Word × Word)) (x : EipProg α) (Q : α → Prop) : Prop :=
  ∀ e, e.verified = v →
    x.wp True (fun r _ => r ≠ .unverified) (fun a e' => e'.verified = v ∧ Q a) e

theorem Quiet.pure {a : α} (h : Q a) : Quiet v (pure a) Q := fun _ he => ⟨he, h⟩

theorem Quiet.throw (h : r ≠ .unverified) : Quiet v (Prog.throw r) Q := fun _ _ => h

theorem Quiet.bind (h : Quiet v x Q) (h' : ∀ a, Q a → Quiet v (f a) R) : Quiet v (x >>= f) R := by
  intro e he
  rw [Prog.wp_bind]
  exact (h e he).mono id (fun _ _ => id) fun a e' ha => h' a ha.right e' ha.left

theorem Quiet.mono (h : Quiet v x Q) (h' : ∀ a, Q a → Q' a) : Quiet v x Q' := fun e he =>
  (h e he).mono id (fun _ _ => id) fun a _ ha => ⟨ha.left, h' a ha.right⟩

theorem Quiet.ite {y : EipProg α} (h : c → Quiet v x Q) (h' : ¬c → Quiet v y Q) :
    Quiet v (if c then x else y) Q := by
  split
  case isTrue hc  => exact h hc
  case isFalse hc => exact h' hc

theorem Quiet.setInfo {g : Eipdebuginfo → Eipdebuginfo} : Quiet v (setInfo g) fun _ => True :=
  fun _ he => ⟨he, trivial⟩

theorem Quiet.access {a : Word} {size : Nat} (h : ∀ k < size, Covers v (a + BitVec.ofNat 32 k)) :
    Quiet v (access a size) fun _ => True := by
  intro e he
  simp only [Kdebug.access, Prog.wp_bind, Prog.wp_get, he, if_pos h]
  exact ⟨he, trivial⟩

theorem Quiet.accessFields {stabs : Word} {reads : List (Int × StabField)}
    (h : ∀ x ∈ reads, CoversField v stabs x) : Quiet v (accessFields stabs reads) fun _ => True := by
  intro e he
  simp only [Kdebug.accessFields, Prog.wp_bind, Prog.wp_get, he, if_pos h]
  exact ⟨he, trivial⟩

end Quiet

section Lookup

variable {mem : Word → BitVec 8} {v : List (Word × Word)} {usd : UserStabData} {addr : Word} {N : Int}
  {fuel : Nat} {L R : Int}

-- All of the table and of the string table has been verified, and the string table ends with a 0.
structure Tables (mem : Word → BitVec 8) (v : List (Word × Word)) (usd : UserStabData) : Prop where
  small  : count usd < 1073741824
  fields : ∀ i, 0 ≤ i → i < count usd → ∀ f, CoversField v usd.stabs (i, f)
  string : ∀ j, j < usd.stabstr_end - usd.stabstr → Covers v (usd.stabstr + j)
  zero   : mem (usd.stabstr_end - 1) = 0

theorem Tables.field (h : Tables mem v usd) {i : Int} {f : StabField} (h₀ : 0 ≤ i)
    (h₁ : i < count usd) : Quiet v (accessFields usd.stabs [(i, f)]) fun _ => True :=
  .accessFields fun x hx => by
    rw [List.mem_singleton.mp hx]
    exact h.fields i h₀ h₁ f

theorem Tables.search (h : Tables mem v usd) {type : Nat} (hL : 0 ≤ L) (hLR : L ≤ R)
    (hR : R < count usd) :
    Quiet v (search mem fuel usd.stabs L R type addr)
      (Region (stabAt mem usd.stabs) type L R addr) := by
  have hsmall := h.small
  have ⟨hw, hregion⟩ := searchLoop_region (stabAt mem usd.stabs) type addr fuel hL (by omega) hLR
  have covered : ∀ {reads}, ReadsIn L R reads → ∀ x ∈ reads, CoversField v usd.stabs x :=
    fun hr x hx => h.fields x.1 (by have := hr x hx; omega) (by have := hr x hx; omega) x.2
  refine (Quiet.accessFields (covered hw.reads)).bind fun _ _ => .ite (fun _ => .throw (by decide)) ?_
  exact fun _ => (Quiet.accessFields (covered (searchFinish_reads hw))).bind fun _ _ => .pure hregion

theorem Tables.nameOf (h : Tables mem v usd) {i : Int} (h₀ : 0 ≤ i) (h₁ : i < count usd) :
    Quiet v (nameOf mem usd i) fun name =>
      ∀ a, name = .user a → ∃ j, j < usd.stabstr_end - usd.stabstr ∧ a = usd.stabstr + j := by
  refine (h.field h₀ h₁).bind fun _ _ => .ite (fun hlt => (h.field h₀ h₁).bind fun _ _ => .pure ?_)
    fun _ => .pure ?_
  · intro a ha
    cases ha
    exact ⟨_, hlt, rfl⟩
  · intro a ha
    cases ha

theorem Tables.strfind (h : Tables mem v usd) {c : BitVec 8} {j : Word}
    (hj : j < usd.stabstr_end - usd.stabstr) :
    Quiet v (strfind mem c fuel (usd.stabstr + j)) fun _ => True := by
  induction fuel generalizing j
  case zero => exact .throw (by decide)
  case succ fuel hi =>
    have hc : ∀ k < 1, Covers v (usd.stabstr + j + BitVec.ofNat 32 k) := fun k hk => by
      obtain rfl : k = 0 := by omega
      simpa using h.string j hj
    refine (Quiet.access hc).bind fun _ _ => .ite (fun _ => .pure trivial) fun hn => ?_
    rw [BitVec.add_assoc]
    refine hi ?_
    -- The last byte of the string table is 0, so that this is not it.
    have hlast : j ≠ usd.stabstr_end - usd.stabstr - 1 := fun he => by
      refine hn (.inl ?_)
      have : usd.stabstr + j = usd.stabstr_end - 1 := by bv_omega
      rw [this]
      exact h.zero
    bv_omega

theorem Tables.namelen (h : Tables mem v usd) {name : Name}
    (hn : ∀ a, name = .user a → ∃ j, j < usd.stabstr_end - usd.stabstr ∧ a = usd.stabstr + j) :
    Quiet v (namelen mem fuel name) fun _ => True := by
  cases name
  case unknown => exact .pure trivial
  case user a =>
    obtain ⟨j, hj, rfl⟩ := hn a rfl
    exact (h.strfind hj).bind fun _ _ => .pure trivial

theorem Tables.fileScan (h : Tables mem v usd) {lfile : Int} {k : Nat} (h₀ : 0 ≤ lfile)
    (h₁ : lfile + k ≤ count usd) :
    Quiet v (fileScan mem usd.stabs lfile k) fun lline => lline < count usd := by
  induction k
  case zero => exact .pure (by omega)
  case succ k hi =>
    have hline : lfile + (k : Int) < count usd := by omega
    have next : Quiet v (Kdebug.fileScan mem usd.stabs lfile k) fun lline => lline < count usd :=
      hi (by omega)
    have read : ∀ f, Quiet v (accessFields usd.stabs [(lfile + (k : Int), f)]) fun _ => True :=
      fun f => h.field (by omega) hline
    refine (read .type).bind fun _ _ => .ite (fun _ => .pure hline) fun _ => ?_
    refine (read .type).bind fun _ _ => .ite (fun _ => ?_) fun _ => next
    exact (read .value).bind fun _ _ => .ite (fun _ => .pure hline) fun _ => next

theorem Tables.argScan (h : Tables mem v usd) {rfun : Int} {k : Nat} (h₀ : 0 ≤ rfun - k)
    (h₁ : rfun ≤ count usd) : Quiet v (argScan mem usd.stabs rfun k) fun _ => True := by
  induction k
  case zero => exact .pure trivial
  case succ k hi =>
    refine (h.field (by omega) (by omega)).bind fun _ _ => .ite (fun _ => ?_) fun _ => .pure trivial
    exact (hi (by omega)).bind fun _ _ => .pure trivial

-- Every index that `debuginfo_eip` uses is one of the table, unless its first entry names a file that
-- begins after the address.
theorem Tables.lookup (h : Tables mem v usd) (hN : 0 < count usd) (ha : addr.toNat < 4294967232)
    (hfirst : ¬(isType (stabAt mem usd.stabs) N_SO 0 ∧ addr.toNat < value (stabAt mem usd.stabs) 0)) :
    Quiet v (lookup mem fuel usd addr) fun _ => True := by
  have types : ∀ {i} {t t' : Nat}, t ≠ t' → isType (stabAt mem usd.stabs) t i →
      ¬isType (stabAt mem usd.stabs) t' i := fun hne h h' => hne (Int.ofNat.inj (h.symm.trans h'))
  refine (h.search (Int.le_refl 0) (by omega) (by omega)).bind ?_
  intro file hfile
  refine .ite (fun _ => .throw (by decide)) fun hne => ?_
  obtain rfl | ⟨hf₀, hf₁, hf₂, hf⟩ := hfile
  case inl => exact absurd rfl hne
  have hf₂ : file.2 ≤ count usd - 1 := hf₂
  obtain ⟨hf₃, hf⟩ := (hf ha).resolve_right hfirst
  have hf := hf.resolve_left hne
  refine (h.search hf₃ hf₁ (by omega)).bind fun fn hfn => ?_
  have hfn : fn.1 ≤ fn.2 → file.1 ≤ fn.1 ∧ fn.2 ≤ file.2 := fun hle => by
    obtain rfl | ⟨_, _, hn₂, hn⟩ := hfn
    · have : file.1 ≤ file.1 - 1 := hle
      omega
    · exact ⟨((hn ha).resolve_right fun hn => types (by decide) hf hn.left).left, hn₂⟩
  have hfunction : Quiet v (functionOf mem usd file fn addr) fun function =>
      (∀ a, function.eip_fn_name = .user a →
        ∃ j, j < usd.stabstr_end - usd.stabstr ∧ a = usd.stabstr + j) ∧
      file.1 ≤ function.range.1 ∧ function.range.1 ≤ function.range.2 ∧ function.range.2 ≤ file.2 := by
    refine .ite (fun hle => ?_) fun _ => ?_
    · have ⟨h₁, h₂⟩ := hfn hle
      refine (h.nameOf (by omega) (by omega)).bind fun name hname => ?_
      refine (h.field (by omega) (by omega)).bind fun _ _ => ?_
      exact Quiet.setInfo.bind fun _ _ => .pure ⟨hname, h₁, hle, h₂⟩
    · refine Quiet.setInfo.bind fun _ _ => .pure ⟨?_, Int.le_refl _, hf₁, Int.le_refl _⟩
      intro a ha
      cases ha
  refine hfunction.bind fun function ⟨hname, hr₀, hr₁, hr₂⟩ => ?_
  refine (h.namelen hname).bind fun _ _ => Quiet.setInfo.bind fun _ _ => ?_
  refine (h.search (by omega) hr₁ (by omega)).bind fun line hline => ?_
  have hline : file.1 - 1 ≤ line.1 ∧ line.1 < count usd := by
    obtain rfl | ⟨_, _, _, _⟩ := hline
    · exact ⟨by show file.1 - 1 ≤ function.range.1; omega, by show function.range.1 < count usd; omega⟩
    · omega
  have hsetLine : Quiet v (setLine mem usd line) fun _ => True := by
    refine .ite (fun _ => ?_) fun _ => .pure trivial
    exact (h.field (by omega) hline.right).bind fun _ _ => .setInfo
  have hsetFile : Quiet v (setFile mem usd file.1 line.1) fun _ => True := by
    refine (h.fileScan (by omega) (by omega)).bind fun lline hlt => .ite (fun _ => .pure trivial) ?_
    exact fun hle => (h.nameOf (by omega) hlt).bind fun _ _ => .setInfo
  have hsetArgs : Quiet v (setArgs mem usd fn) fun _ => True := by
    refine .ite (fun hlt => ?_) fun _ => .pure trivial
    have ⟨h₁, h₂⟩ := hfn (by omega)
    exact (h.argScan (by omega) (by omega)).bind fun _ _ => .setInfo
  exact hsetLine.bind fun _ _ => hsetFile.bind fun _ _ => hsetArgs

-- Without entries there is no file.
theorem lookup_empty (hN : count usd ≤ 0) : Quiet v (lookup mem fuel usd addr) fun _ => True := by
  have hr : ¬(0 : Int) ≤ count usd - 1 := by omega
  have hloop : ∀ {type : Int} {r : Int}, ¬0 ≤ r → searchLoop (stabAt mem usd.stabs) type fuel
      (searchStart 0 r addr) = searchStart 0 r addr := fun hr => whileLoop_end hr
  have hsearch : Quiet v (search mem fuel usd.stabs 0 (count usd - 1) N_SO addr) fun file => file.1 = 0 := by
    simp only [search, hloop hr]
    refine (Quiet.accessFields fun x hx => absurd hx List.not_mem_nil).bind fun _ _ => ?_
    refine .ite (fun _ => .throw (by decide)) fun _ => ?_
    refine (Quiet.accessFields fun x hx => absurd hx List.not_mem_nil).bind fun _ _ => .pure ?_
    rfl
  refine hsearch.bind fun file hfile => ?_
  rw [if_pos hfile]
  exact .throw (by decide)

end Lookup

section Exact

variable (mem : Word → BitVec 8) (m : Machine) (s : State) (pgdir : Nat) (addr : Word)

-- The ranges that `debuginfo_eip` gives to `user_mem_check`, the last first.
def checkedRanges : List (Word × Word) :=
  let usd := userStabData mem
  [(usd.stabstr, usd.stabstr_end - usd.stabstr), (usd.stabs, stabDiff usd.stab_end usd.stabs),
    (USTABDATA, 16#32)]

-- The checks of `debuginfo_eip` let the user's tables pass.
structure Passes : Prop where
  usd     : userMemCheck m s pgdir USTABDATA 16#32 0#32 = some none
  stabs   : userMemCheck m s pgdir (userStabData mem).stabs
    (stabDiff (userStabData mem).stab_end (userStabData mem).stabs) 0#32 = some none
  stabstr : userMemCheck m s pgdir (userStabData mem).stabstr
    ((userStabData mem).stabstr_end - (userStabData mem).stabstr) 0#32 = some none
  lt      : ¬(userStabData mem).stabstr_end ≤ (userStabData mem).stabstr
  zero    : mem ((userStabData mem).stabstr_end - 1) = 0

-- The whole table lies in these ranges, and its first entry does not name a file after the address.
structure TableVerified : Prop where
  size   : 12 * count (userStabData mem) ≤ 4294967296
  fields : ∀ i, 0 ≤ i → i < count (userStabData mem) → ∀ f,
    CoversField (checkedRanges mem) (userStabData mem).stabs (i, f)
  first  : ¬(isType (stabAt mem (userStabData mem).stabs) N_SO 0 ∧
    addr.toNat < value (stabAt mem (userStabData mem).stabs) 0)

-- The type of the middle entry lies in one of the other two ranges.
def Overlaps : Prop :=
  Covers [(USTABDATA, 16#32), ((userStabData mem).stabstr,
    (userStabData mem).stabstr_end - (userStabData mem).stabstr)]
    (stabAddr (userStabData mem).stabs ((count (userStabData mem) - 1) / 2) + 4)

-- No run reads a byte that has not been verified before.
def ReadsVerified : Prop :=
  ∀ fuel e, debuginfoEip mem m s pgdir fuel addr (eipStart addr) ≠ .error .unverified e

variable {mem m s pgdir addr} {v : List (Word × Word)} {usd : UserStabData}

theorem checkMem_wp {va len : Word} {e : Eip} :
    (checkMem m s pgdir va len).wp (userMemCheck m s pgdir va len 0#32 ≠ some none)
      (fun r _ => r ≠ .unverified ∧ userMemCheck m s pgdir va len 0#32 ≠ some none)
      (fun _ e' => e'.verified = (va, len) :: e.verified ∧
        userMemCheck m s pgdir va len 0#32 = some none) e := by
  simp only [checkMem]
  split
  case h_1 h =>
    show userMemCheck m s pgdir va len 0#32 ≠ some none
    simp [h]
  case h_2 h => exact ⟨Stop.noConfusion, by simp [h]⟩
  case h_3 h => exact ⟨rfl, h⟩

theorem access_wp {a : Word} {size : Nat} {e : Eip} {P : Prop} {E : Stop → Eip → Prop}
    (h : ∀ k < size, Covers e.verified (a + BitVec.ofNat 32 k)) :
    (access a size).wp P E (fun _ e' => e' = e) e := by
  simp only [access, Prog.wp_bind, Prog.wp_get, if_pos h]
  rfl

theorem covers_offset {va len j : Word} (h : j < len) (hm : (va, len) ∈ v) : Covers v (va + j) := by
  have hj : va + j - va = j := by bv_omega
  exact ⟨_, hm, by rw [hj]; exact h⟩

-- `validate` never reads what it has not checked, and gets to its end where the checks pass.
theorem validate_wp :
    (validate mem m s pgdir).wp (¬Passes mem m s pgdir)
      (fun r _ => r ≠ .unverified ∧ ¬Passes mem m s pgdir)
      (fun usd e => usd = userStabData mem ∧ e.verified = checkedRanges mem ∧ Passes mem m s pgdir)
      (eipStart addr) := by
  simp only [validate]
  rw [Prog.wp_bind]
  refine checkMem_wp.mono (fun hn hp => hn hp.usd) (fun _ _ ⟨hr, hn⟩ => ⟨hr, fun hp => hn hp.usd⟩) ?_
  intro _ e₁ ⟨h₁, p₁⟩
  have hv : ∀ k < 16, Covers e₁.verified (USTABDATA + BitVec.ofNat 32 k) := fun k hk => by
    have hlt : BitVec.ofNat 32 k < 16#32 := by
      show (BitVec.ofNat 32 k).toNat < 16
      simp only [BitVec.toNat_ofNat]
      omega
    exact covers_offset hlt (by rw [h₁]; exact List.mem_cons_self)
  rw [Prog.wp_bind]
  refine (access_wp hv).mono id (fun _ _ => id) fun _ e₂ h₂ => ?_
  subst h₂
  rw [Prog.wp_bind]
  refine checkMem_wp.mono (fun hn hp => hn hp.stabs) (fun _ _ ⟨hr, hn⟩ => ⟨hr, fun hp => hn hp.stabs⟩) ?_
  intro _ e₃ ⟨h₃, p₃⟩
  rw [Prog.wp_bind]
  refine checkMem_wp.mono (fun hn hp => hn hp.stabstr)
    (fun _ _ ⟨hr, hn⟩ => ⟨hr, fun hp => hn hp.stabstr⟩) ?_
  intro _ e₄ ⟨h₄, p₄⟩
  rw [Prog.wp_ite]
  refine ⟨fun hle => ⟨Stop.noConfusion, fun hp => hp.lt hle⟩, fun hlt => ?_⟩
  have hl : ∀ k < 1, Covers e₄.verified ((userStabData mem).stabstr_end - 1 + BitVec.ofNat 32 k) :=
    fun k hk => by
      obtain rfl : k = 0 := by omega
      have he : (userStabData mem).stabstr_end - 1 + BitVec.ofNat 32 0 = (userStabData mem).stabstr +
        ((userStabData mem).stabstr_end - (userStabData mem).stabstr - 1) := by bv_omega
      have hlt : (userStabData mem).stabstr_end - (userStabData mem).stabstr - 1 <
          (userStabData mem).stabstr_end - (userStabData mem).stabstr := by bv_omega
      rw [he]
      exact covers_offset hlt (by rw [h₄]; exact List.mem_cons_self)
  rw [Prog.wp_bind]
  refine (access_wp hl).mono id (fun _ _ => id) fun _ e₅ h₅ => ?_
  subst h₅
  rw [Prog.wp_ite]
  refine ⟨fun hz => ⟨Stop.noConfusion, fun hp => hz hp.zero⟩, fun hz => ?_⟩
  refine ⟨rfl, ?_, p₁, p₃, p₄, hlt, not_not.mp hz⟩
  rw [h₄, h₃, h₁]
  rfl

theorem readsVerified_of (ha : addr < ULIM)
    (h : Passes mem m s pgdir → 0 < count (userStabData mem) → TableVerified mem addr) :
    ReadsVerified mem m s pgdir addr := by
  intro fuel e he
  have ha : addr.toNat < 4294967232 := Nat.lt_trans (show addr.toNat < ULIM.toNat from ha) (by decide)
  have hwp : (debuginfoEip mem m s pgdir fuel addr).wp True (fun r _ => r ≠ .unverified)
      (fun _ _ => True) (eipStart addr) := by
    rw [debuginfoEip, Prog.wp_bind]
    refine validate_wp.mono (fun _ => trivial) (fun _ _ hr => hr.left) fun usd e₁ ⟨hu, hv, hp⟩ => ?_
    subst hu
    have hq : Quiet (checkedRanges mem) (lookup mem fuel (userStabData mem) addr) fun _ => True := by
      by_cases hN : 0 < count (userStabData mem)
      case neg => exact lookup_empty (Int.not_lt.mp hN)
      case pos =>
        have ht := h hp hN
        have hsize := ht.size
        have tables : Tables mem (checkedRanges mem) (userStabData mem) :=
          ⟨by omega, ht.fields, fun j hj => covers_offset hj List.mem_cons_self, hp.zero⟩
        exact tables.lookup hN ha ht.first
    exact (hq e₁ hv).mono id (fun _ _ => id) fun _ _ _ => trivial
  exact hwp.error he rfl

theorem searchStep_first {stabs : Int → Stab} {type : Int} {s : Search} (h₀ : 0 ≤ s.l) (h₁ : s.l ≤ s.r)
    (h₂ : s.r < 1073741824) : ((s.l + s.r) / 2, .type) ∈ (searchStep stabs type s).reads := by
  obtain ⟨t, ht⟩ : ∃ t, t = (s.l + s.r) / 2 := ⟨_, rfl⟩
  have hk : ∃ k, (t + 1 - s.l).toNat = k + 1 ∧ s.l + (k : Int) = t := ⟨(t - s.l).toNat, by omega, by omega⟩
  obtain ⟨k, hk, hkt⟩ := hk
  have hscan : (t, .type) ∈ (scanBack stabs type s.l (k + 1)).2 := by
    simp only [scanBack, hkt]
    split <;> exact List.mem_cons_self
  simp only [searchStep, midpoint h₀ h₁ h₂, ← ht, hk]
  split
  case isTrue => exact List.mem_append_right _ hscan
  case isFalse =>
    split
    case isTrue => exact List.mem_append_left _ (List.mem_append_right _ hscan)
    case isFalse => split <;> exact List.mem_append_left _ (List.mem_append_right _ hscan)

theorem stabAddr_type {stabs : Word} {t : Nat} (h : 12 * t + 4 < 4294967296) :
    (stabAddr stabs t + 4#32 - stabs).toNat = 12 * t + 4 := by
  have he : BitVec.ofInt 32 (12 * (t : Int)) = BitVec.ofNat 32 (12 * t) :=
    BitVec.ofInt_natCast 32 (12 * t)
  have hs : ∀ x : Word, stabs + x + 4#32 - stabs = x + 4#32 := fun x => by bv_omega
  rw [stabAddr, he, hs, BitVec.toNat_add, BitVec.toNat_ofNat, BitVec.toNat_ofNat]
  omega

theorem count_toNat (h : 0 < count usd) : ((stabDiff usd.stab_end usd.stabs).toNat : Int) = count usd := by
  rw [count, BitVec.toInt_eq_toNat_cond] at *
  have := (stabDiff usd.stab_end usd.stabs).isLt
  split at h <;> simp_all
  omega

-- The bytes that count as the table are as many as its entries, so that the middle one is beyond them.
theorem middle_not_covered (hN : 0 < count (userStabData mem))
    (hsize : 12 * count (userStabData mem) ≤ 4294967296) (ho : ¬Overlaps mem) :
    ¬CoversField (checkedRanges mem) (userStabData mem).stabs
      ((count (userStabData mem) - 1) / 2, .type) := by
  intro hc
  obtain ⟨r, hr, hlt⟩ := hc 0 Nat.zero_lt_one
  have hlt : stabAddr (userStabData mem).stabs ((count (userStabData mem) - 1) / 2) + 4#32 - r.1 < r.2 := by
    simpa only [BitVec.ofNat_eq_ofNat, BitVec.add_zero, StabField.offset] using hlt
  obtain rfl | rfl | rfl : r = _ ∨ r = _ ∨ r = _ := by
    simpa only [checkedRanges, List.mem_cons, List.not_mem_nil, or_false] using hr
  · exact ho ⟨_, List.mem_cons_of_mem _ List.mem_cons_self, hlt⟩
  · obtain ⟨t, ht⟩ : ∃ t : Nat, (t : Int) = (count (userStabData mem) - 1) / 2 :=
      ⟨((count (userStabData mem) - 1) / 2).toNat, by omega⟩
    have hn := count_toNat hN
    rw [← ht] at hlt
    have hlt := BitVec.lt_def.mp hlt
    rw [stabAddr_type (by omega)] at hlt
    simp only at hlt
    omega
  · exact ho ⟨_, List.mem_cons_self, hlt⟩

theorem searchLoop_first (stabs : Int → Stab) (type : Int) (addr : Word) {r : Int} (h₀ : 0 ≤ r) (h₁ : r < 1073741824) :
    (r / 2, .type) ∈ (searchLoop stabs type 1 (searchStart 0 r addr)).reads := by
  have hturn : (_, .type) ∈ (searchStep stabs type (searchStart 0 r addr)).reads :=
    searchStep_first (Int.le_refl 0) h₀ h₁
  have hloop : searchLoop stabs type 1 (searchStart 0 r addr) =
      searchStep stabs type (searchStart 0 r addr) := if_pos h₀
  rw [hloop]
  simpa only [searchStart, Int.zero_add] using hturn

theorem accessFields_wp {e : Eip} {reads : List (Int × StabField)} {x : Int × StabField} {stabs : Word}
    (hm : x ∈ reads) (hc : ¬CoversField e.verified stabs x) :
    (accessFields stabs reads).wp False (fun r _ => r = .unverified) (fun _ _ => False) e := by
  simp only [accessFields, Prog.wp_bind, Prog.wp_get]
  rw [if_neg fun h => hc (h x hm), Prog.wp_throw]

theorem lookup_unverified (hN : 0 < count (userStabData mem))
    (hsize : 12 * count (userStabData mem) ≤ 4294967296) (ho : ¬Overlaps mem) {e : Eip}
    (he : e.verified = checkedRanges mem) :
    (lookup mem 1 (userStabData mem) addr).wp False (fun r _ => r = .unverified) (fun _ _ => False) e := by
  have hc : ¬CoversField e.verified (userStabData mem).stabs
      ((count (userStabData mem) - 1) / 2, .type) := by
    rw [he]
    exact middle_not_covered hN hsize ho
  have hm := searchLoop_first (stabAt mem (userStabData mem).stabs) N_SO addr
    (show 0 ≤ count (userStabData mem) - 1 by omega) (by omega)
  rw [lookup, Prog.wp_bind, search, Prog.wp_bind]
  exact (accessFields_wp hm hc).mono id (fun _ _ => id) fun _ _ => False.elim

theorem debuginfoEip_unverified (h : Passes mem m s pgdir) (hN : 0 < count (userStabData mem))
    (hsize : 12 * count (userStabData mem) ≤ 4294967296) (ho : ¬Overlaps mem) :
    (debuginfoEip mem m s pgdir 1 addr).wp False (fun r _ => r = .unverified) (fun _ _ => False)
      (eipStart addr) := by
  rw [debuginfoEip, Prog.wp_bind]
  refine validate_wp.mono (fun hn => hn h) (fun _ _ hn => absurd h hn.right) fun usd e ⟨hu, hv, _⟩ => ?_
  rw [hu]
  exact lookup_unverified hN hsize ho hv

theorem not_readsVerified (h : Passes mem m s pgdir) (hN : 0 < count (userStabData mem))
    (hsize : 12 * count (userStabData mem) ≤ 4294967296) (ho : ¬Overlaps mem) :
    ¬ReadsVerified mem m s pgdir addr := by
  intro hr
  have hwp : (debuginfoEip mem m s pgdir 1 addr).wp _ _ _ _ := debuginfoEip_unverified h hN hsize ho
  rw [Prog.wp] at hwp
  split at hwp
  case h_1      => exact hwp
  case h_2 r e he => exact hr 1 e (hwp ▸ he)
  case h_3      => exact hwp

end Exact

-- `debuginfo_eip` reads verified bytes only where it returns before its searches, or has no entries to
-- search, or the whole table is verified all the same; and where the table does not overlap the other
-- two ranges there is no further case.
theorem debuginfo_eip_exact (mem : Word → BitVec 8) (m : Machine) (s : State) (pgdir : Nat) (addr : Word)
    (ha : addr < ULIM) :
    ((Passes mem m s pgdir → 0 < count (userStabData mem) → TableVerified mem addr) →
      ReadsVerified mem m s pgdir addr) ∧
    (12 * count (userStabData mem) ≤ 4294967296 → ¬Overlaps mem →
      (ReadsVerified mem m s pgdir addr ↔
        ¬(Passes mem m s pgdir ∧ 0 < count (userStabData mem)))) := by
  refine ⟨readsVerified_of ha, fun hsize ho => ⟨fun hr ⟨hp, hN⟩ => ?_, fun hn => ?_⟩⟩
  · exact not_readsVerified hp hN hsize ho hr
  · exact readsVerified_of ha fun hp hN => absurd ⟨hp, hN⟩ hn

-- A user whose page at `USTABDATA` is mapped by the page directory 2000. It holds a table of one entry
-- at 0x200100 and a string table of one byte at 0x200200.
def sampleUser : State where
  pages        := Sample.page
  pageFreeList := none
  mem p i      :=
    if p = 2000 ∧ i = 0 then Sample.pde 2001
    else if p = 2001 ∧ i = 512 then Sample.pde 2002
    else 0#32
  envs         := Sample.boot.envs
  envFreeList  := none

def sampleMem (a : Word) : BitVec 8 :=
  [0x00#8, 0x01#8, 0x20#8, 0x00#8, 0x0C#8, 0x01#8, 0x20#8, 0x00#8,
    0x00#8, 0x02#8, 0x20#8, 0x00#8, 0x01#8, 0x02#8, 0x20#8, 0x00#8].getD (a - USTABDATA).toNat 0#8

theorem passes_sample : Passes sampleMem Sample.machine sampleUser 2000 := by
  constructor <;> decide

theorem debuginfo_eip_exact_sample :
    (0x800020#32 < ULIM ∧ 12 * count (userStabData sampleMem) ≤ 4294967296 ∧ ¬Overlaps sampleMem) ∧
    (ReadsVerified sampleMem Sample.machine sampleUser 2000 0x800020#32 ↔
      ¬(Passes sampleMem Sample.machine sampleUser 2000 ∧ 0 < count (userStabData sampleMem))) := by
  have ho : ¬Overlaps sampleMem := by
    rw [Overlaps]
    decide
  have hsize : 12 * count (userStabData sampleMem) ≤ 4294967296 := by decide
  have ha : 0x800020#32 < ULIM := by decide
  exact ⟨⟨ha, hsize, ho⟩, (debuginfo_eip_exact sampleMem Sample.machine sampleUser 2000 _ ha).right hsize ho⟩

-- The type of its entry, at 0x200104, is read although only one byte of the table has been verified.
theorem not_debuginfo_eip_exact :
    0x800020#32 < ULIM ∧ ¬ReadsVerified sampleMem Sample.machine sampleUser 2000 0x800020#32 := by
  refine ⟨by decide, not_readsVerified passes_sample (by decide) (by decide) ?_⟩
  rw [Overlaps]
  decide

end Kern.Kdebug

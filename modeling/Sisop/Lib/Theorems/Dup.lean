import Sisop.Lib.Fd

namespace Lib.Fd

open Library Function

variable {x : Outside} {oldfdnum newfdnum i : Int} {a b p q : Nat} {y z : Option Nat} {s s' : Pages}

def InRange (i : Int) : Prop := 0 ≤ i ∧ i < MAXFD

instance : DecidablePred InRange := fun _ => inferInstanceAs (Decidable (_ ∧ _))

-- What a number stands for.
structure Denotes (s : Pages) (i : Int) (fd : Nat) (data : Option Nat) : Prop where
  range : InRange i
  fd    : s (INDEX2FD i) = some fd
  data  : s (INDEX2DATA i) = data

-- A descriptor stands for what it did.
def Unchanged (s s' : Pages) (i : Int) : Prop :=
  s' (INDEX2FD i) = s (INDEX2FD i) ∧ (s (INDEX2FD i) ≠ none → s' (INDEX2DATA i) = s (INDEX2DATA i))

-- What `dup` should do, when it returns `r`.
structure Dups (s : Pages) (oldfdnum newfdnum r : Int) (s' : Pages) : Prop where
  same   : 0 ≤ r → r = newfdnum ∧ ∃ fd data, Denotes s oldfdnum fd data ∧ Denotes s' oldfdnum fd data ∧
    Denotes s' newfdnum fd data
  others : ∀ i, InRange i → i ≠ newfdnum → Unchanged s s' i
  self   : oldfdnum = newfdnum → s' (INDEX2FD oldfdnum) ≠ none

def Faithful (x : Outside) (oldfdnum newfdnum : Int) (s : Pages) : Prop :=
  (dup x oldfdnum newfdnum).wp False (Dups s oldfdnum newfdnum) (Dups s oldfdnum newfdnum) s

-- A page can be mapped there.
def CanMap (answer : Int) (s : Pages) (va : Nat) : Prop := va < UTOP ∧ (0 ≤ answer ∨ ¬NoTable s va)

def IsPipe (x : Outside) (s : Pages) (i : Int) : Prop :=
  ∃ pg, s (INDEX2FD i) = some pg ∧ dev_lookup (x.fd_dev_id pg) = some .devpipe

-- The pages with the data page of the old descriptor mapped for the new one as well.
def withData (s : Pages) (oldfdnum newfdnum : Int) : Pages :=
  if s (INDEX2DATA oldfdnum) ≠ none then update s (INDEX2DATA newfdnum) (s (INDEX2DATA oldfdnum)) else s

-- Both pages can be mapped.
def Succeeds (x : Outside) (s : Pages) (oldfdnum newfdnum : Int) : Prop :=
  (s (INDEX2DATA oldfdnum) ≠ none → CanMap x.mapData s (INDEX2DATA newfdnum)) ∧
    withData s oldfdnum newfdnum (INDEX2FD oldfdnum) ≠ none ∧
    CanMap x.mapFd (withData s oldfdnum newfdnum) (INDEX2FD newfdnum)

-- What becomes of the page at `p` changes no descriptor.
def Spared (s : Pages) (p : Nat) (y : Option Nat) : Prop :=
  ∀ i, InRange i → (p = INDEX2FD i → s p = y) ∧ (p = INDEX2DATA i → s (INDEX2FD i) ≠ none → s p = y)

section Addresses

theorem INDEX2FD_eq (h : InRange i) : INDEX2FD i = 3489660928 + 4096 * i.toNat ∧ i.toNat < 32 ∧ (i.toNat : Int) = i := by
  obtain ⟨h₀, h₁⟩ := h
  have hm : (MAXFD : Int) = 32 := rfl
  have hf : (FDTABLE : Int) = 3489660928 := rfl
  have hp : (PGSIZE : Int) = 4096 := rfl
  rw [INDEX2FD, hf, hp]
  omega

theorem INDEX2DATA_eq (h : InRange i) : INDEX2DATA i = 3489792000 + 4096 * i.toNat := by
  obtain ⟨h₀, h₁⟩ := h
  have hm : (MAXFD : Int) = 32 := rfl
  have hf : (FILEDATA : Int) = 3489792000 := rfl
  have hp : (PGSIZE : Int) = 4096 := rfl
  rw [INDEX2DATA, hf, hp]
  omega

theorem fd2num_INDEX2FD : fd2num (INDEX2FD i) = i % 2 ^ 20 := by
  have hf : FDTABLE = 3489660928 := rfl
  have hp : PGSIZE = 4096 := rfl
  rw [fd2num, INDEX2FD, hf, hp]
  omega

theorem fd2num_eq (h : InRange i) : fd2num (INDEX2FD i) = i := by
  have hm : (MAXFD : Int) = 32 := rfl
  obtain ⟨h₀, h₁⟩ := h
  rw [fd2num_INDEX2FD]
  omega

theorem fd2data_INDEX2FD : fd2data (INDEX2FD i) = INDEX2DATA i := by
  have hf : (FILEDATA : Int) = 3489792000 := rfl
  have hp : (PGSIZE : Int) = 4096 := rfl
  rw [fd2data, fd2num_INDEX2FD, INDEX2DATA, INDEX2DATA, hf, hp]
  omega

theorem INDEX2DATA_ne_INDEX2FD : INDEX2DATA i ≠ INDEX2FD i := by
  have hf : (FILEDATA : Int) = 3489792000 := rfl
  have hd : (FDTABLE : Int) = 3489660928 := rfl
  have hp : (PGSIZE : Int) = 4096 := rfl
  rw [INDEX2DATA, INDEX2FD, hf, hd, hp]
  omega

-- The pages of file descriptors are in one page table.
theorem not_noTable (h : InRange i) (ho : s (INDEX2FD i) ≠ none) (hp : p / 2 ^ 22 = 832) : ¬NoTable s p := by
  intro hn
  have ⟨he, hlt, _⟩ := INDEX2FD_eq h
  refine ho ?_
  rw [he]
  have := hn i.toNat (by omega)
  rw [hp] at this
  exact this

end Addresses

section Specs

theorem sys_page_map_spec {answer : Int} : (sys_page_map answer a b).wp False
    (fun e s' => e < 0 ∧ ¬(s a ≠ none ∧ CanMap answer s b) ∧ s' = s)
    (fun _ s' => (s a ≠ none ∧ CanMap answer s b) ∧ s' = update s b (s a)) s := by
  rw [sys_page_map, Prog.wp_bind, Prog.wp_get]
  cases h : s a
  case none => exact ⟨by decide, fun hc => hc.1 rfl, rfl⟩
  case some pg =>
    refine Prog.wp_ite.mpr ⟨fun hu => ?_, fun hu => Prog.wp_ite.mpr ⟨fun hn => ?_, fun hn => ?_⟩⟩
    · exact ⟨by decide, fun hc => absurd hu (Nat.not_le.mpr hc.2.1), rfl⟩
    · exact ⟨hn.1, fun hc => hc.2.2.elim (Int.not_le.mpr hn.1) fun ht => ht hn.2, rfl⟩
    · refine ⟨⟨nofun, Nat.lt_of_not_le hu, ?_⟩, rfl⟩
      by_cases ha : answer < 0
      · exact .inr fun ht => hn ⟨ha, ht⟩
      · exact .inl (Int.not_lt.mp ha)

theorem dupMaps_spec {ova nva oldfd newfd : Nat} {w : Pages}
    (hw : w = if s ova ≠ none then update s nva (s ova) else s) : (dupMaps x ova nva oldfd newfd).wp False
    (fun e s' => e < 0 ∧ ¬((s ova ≠ none → CanMap x.mapData s nva) ∧ w oldfd ≠ none ∧
      CanMap x.mapFd w newfd) ∧ (s' = s ∨ nva < UTOP ∧ ∃ z, s' = update s nva z))
    (fun _ s' => ((s ova ≠ none → CanMap x.mapData s nva) ∧ w oldfd ≠ none ∧ CanMap x.mapFd w newfd) ∧
      s' = update w newfd (w oldfd)) s := by
  rw [dupMaps, Prog.wp_bind, Prog.wp_get]
  by_cases h : s ova ≠ none
  case pos =>
    rw [if_pos h] at hw ⊢
    rw [Prog.wp_bind]
    refine sys_page_map_spec.mono id (fun e s' hs => ?_) fun _ s' hs => ?_
    · exact ⟨hs.1, fun hc => hs.2.1 ⟨h, hc.1 h⟩, .inl hs.2.2⟩
    · obtain ⟨hc, hs⟩ := hs
      rw [← hw] at hs
      subst hs
      refine sys_page_map_spec.mono id (fun e s'' hs => ?_) fun _ s'' hs => ?_
      · exact ⟨hs.1, fun hc => hs.2.1 hc.2, .inr ⟨hc.2.1, _, hs.2.2.trans hw⟩⟩
      · exact ⟨⟨fun _ => hc.2, hs.1⟩, hs.2⟩
  case neg =>
    rw [if_neg h] at hw ⊢
    subst hw
    refine sys_page_map_spec.mono id (fun e s' hs => ?_) fun _ s' hs => ?_
    · exact ⟨hs.1, fun hc => hs.2.1 hc.2, .inl hs.2.2⟩
    · exact ⟨⟨fun hn => absurd hn h, hs.1⟩, hs.2⟩

theorem fd_lookup_wp {P : Prop} {E : Int → Pages → Prop} {Q : Nat → Pages → Prop} :
    (fd_lookup i).wp P E Q s ↔ (InRange i ∧ s (INDEX2FD i) ≠ none → Q (INDEX2FD i) s) ∧
      (¬(InRange i ∧ s (INDEX2FD i) ≠ none) → E (-E_INVAL) s) := by
  have hr : (i < 0 ∨ MAXFD ≤ i) ↔ ¬InRange i := by
    rw [InRange]
    omega
  rw [fd_lookup, Prog.wp_ite, hr]
  simp only [Prog.wp_bind, Prog.wp_get, Prog.wp_ite, Prog.wp_throw, Prog.wp_pure]
  by_cases h : InRange i <;> by_cases hn : s (INDEX2FD i) = none <;> simp [h, hn]

instance : Decidable (IsPipe x s i) :=
  match h : s (INDEX2FD i) with
  | none    => isFalse fun ⟨_, hp, _⟩ => by rw [h] at hp; cases hp
  | some pg => decidable_of_iff (dev_lookup (x.fd_dev_id pg) = some .devpipe)
      ⟨fun hd => ⟨pg, h, hd⟩, fun ⟨_, hp, hd⟩ => by rw [h] at hp; cases hp; exact hd⟩

-- The pages after `close`.
def closed (x : Outside) (s : Pages) (i : Int) : Pages :=
  if InRange i ∧ s (INDEX2FD i) ≠ none then
    if IsPipe x s i then unmap (INDEX2DATA i) (unmap (INDEX2FD i) s) else unmap (INDEX2FD i) s
  else s

theorem unmap_unmap : unmap a (unmap b (unmap a s)) = unmap b (unmap a s) := by
  funext p
  simp only [unmap]
  split <;> split <;> simp only [update_apply] <;> split <;> simp_all

theorem fd_close_spec (h : InRange i) (hs : s (INDEX2FD i) ≠ none) {must_exist : Bool} :
    (fd_close x (INDEX2FD i) must_exist).wp False (fun _ s' => s' = closed x s i)
      (fun _ s' => s' = closed x s i) s := by
  obtain ⟨pg, hpg⟩ := Option.ne_none_iff_exists'.mp hs
  rw [fd_close, Prog.wp_bind, Prog.wp_attempt, fd2num_eq h, fd_lookup_wp]
  refine ⟨fun _ => ?_, fun hn => absurd ⟨h, hs⟩ hn⟩
  rw [closed, if_pos ⟨h, hs⟩]
  simp only [ne_eq, not_true_eq_false, if_false, Prog.wp_bind, Prog.wp_get, hpg]
  have hp : IsPipe x s i ↔ dev_lookup (x.fd_dev_id pg) = some .devpipe := by
    refine ⟨fun h => ?_, fun hd => ⟨pg, hpg, hd⟩⟩
    obtain ⟨_, he, hd⟩ := h
    rw [hpg] at he
    cases he
    exact hd
  cases hd : dev_lookup (x.fd_dev_id pg)
  case none =>
    have hnp : ¬IsPipe x s i := by
      rw [hp, hd]
      exact (Option.some_ne_none _).symm
    rw [if_neg hnp]
    rfl
  case some dev =>
    cases dev
    case devpipe =>
      rw [if_pos (hp.mpr hd)]
      show unmap _ (unmap (fd2data _) (unmap _ s)) = _
      rw [fd2data_INDEX2FD, unmap_unmap]
    all_goals
      have hnp : ¬IsPipe x s i := by
        rw [hp, hd, Option.some.injEq]
        decide
      rw [if_neg hnp]
      rfl

theorem close_spec : (close x i).wp False (fun _ s' => s' = closed x s i) (fun _ s' => s' = closed x s i) s := by
  rw [close, Prog.wp_bind, fd_lookup_wp]
  refine ⟨fun h => fd_close_spec h.1 h.2, fun h => ?_⟩
  rw [closed, if_neg h]

theorem unmap_update (h : a < UTOP) : unmap a (unmap b (update s a z)) = unmap a (unmap b s) := by
  funext p
  simp only [unmap, if_pos h]
  split <;> simp only [update_apply] <;> split <;> simp_all

theorem withData_eq : withData s oldfdnum newfdnum =
    update s (INDEX2DATA newfdnum) (withData s oldfdnum newfdnum (INDEX2DATA newfdnum)) := by
  rw [withData]
  split
  · rw [update_self]
  · exact (update_eq_self _ s).symm

theorem dup_spec (h : InRange oldfdnum) (hs : s (INDEX2FD oldfdnum) ≠ none) {c : Pages}
    (hc : c = closed x s newfdnum) : (dup x oldfdnum newfdnum).wp False
    (fun e s' => e < 0 ∧ ¬Succeeds x c oldfdnum newfdnum ∧
      s' = unmap (INDEX2DATA newfdnum) (unmap (INDEX2FD newfdnum) c))
    (fun r s' => r = newfdnum ∧ Succeeds x c oldfdnum newfdnum ∧
      s' = update (withData c oldfdnum newfdnum) (INDEX2FD newfdnum)
        (withData c oldfdnum newfdnum (INDEX2FD oldfdnum))) s := by
  rw [dup, Prog.wp_bind, fd_lookup_wp]
  refine ⟨fun _ => ?_, fun hn => absurd ⟨h, hs⟩ hn⟩
  have hclose : (close x newfdnum).attempt.wp False (fun _ _ => False) (fun _ s' => s' = c) s := by
    rw [Prog.wp_attempt, hc]
    exact close_spec
  rw [Prog.wp_bind]
  refine hclose.mono id (fun _ _ => False.elim) fun r s₁ h₁ => ?_
  subst h₁
  rw [Prog.wp_bind, Prog.wp_attempt, fd2data_INDEX2FD, fd2data_INDEX2FD]
  refine (dupMaps_spec (w := withData s₁ oldfdnum newfdnum) rfl).mono id (fun e s₂ h₂ => ?_) fun _ s₂ h₂ => ?_
  · refine ⟨h₂.1, h₂.2.1, ?_⟩
    obtain rfl | ⟨hlt, z, rfl⟩ := h₂.2.2
    · rfl
    · exact unmap_update hlt
  · exact ⟨rfl, h₂⟩

end Specs

section Pages

theorem unchanged_iff (hne : p ≠ q) : (∀ i, InRange i → Unchanged s (update (update s q y) p z) i) ↔
    Spared s q y ∧ Spared s p z := by
  have hq : update (update s q y) p z q = y := by rw [update_of_ne hne.symm, update_self]
  have hp : update (update s q y) p z p = z := update_self ..
  constructor
  case mp =>
    refine fun h => ⟨fun i hi => ⟨?_, fun he ho => ?_⟩, fun i hi => ⟨?_, fun he ho => ?_⟩⟩
    · rintro rfl
      exact (h i hi).1.symm.trans hq
    · subst he
      exact ((h i hi).2 ho).symm.trans hq
    · rintro rfl
      exact (h i hi).1.symm.trans hp
    · subst he
      exact ((h i hi).2 ho).symm.trans hp
  case mpr =>
    -- What is at a page that matters has not changed.
    have hat {a : Nat} (h₁ : q = a → s q = y) (h₂ : p = a → s p = z) : update (update s q y) p z a = s a := by
      by_cases ha : p = a
      case pos => rw [← ha, hp, h₂ ha]
      case neg =>
        rw [update_of_ne (Ne.symm ha)]
        by_cases ha : q = a
        case pos => rw [← ha, update_self, h₁ ha]
        case neg => rw [update_of_ne (Ne.symm ha)]
    exact fun ⟨h₁, h₂⟩ i hi => ⟨hat (h₁ i hi).1 (h₂ i hi).1,
      fun ho => hat (fun he => (h₁ i hi).2 he ho) fun he => (h₂ i hi).2 he ho⟩

theorem unmap_apply (h : b < UTOP) : unmap a s b = update s a none b := by
  rw [unmap]
  split
  case isTrue => rfl
  case isFalse ha => rw [update_of_ne (by rintro rfl; exact ha h)]

theorem unmap_unchanged_iff (hne : p ≠ q) : (∀ i, InRange i → Unchanged s (unmap q (unmap p s)) i) ↔
    Spared s q none ∧ Spared s p none := by
  rw [← unchanged_iff hne]
  refine forall₂_congr fun i hi => ?_
  have hat {a : Nat} (ha : a < UTOP) : unmap q (unmap p s) a = update (update s q none) p none a := by
    rw [unmap_apply ha, update_comm hne.symm]
    by_cases he : a = q
    case pos => rw [he, update_self, update_self]
    case neg => rw [update_of_ne he, update_of_ne he, unmap_apply ha]
  have hu : UTOP = 4005560320 := rfl
  have ⟨hf, hlt, _⟩ := INDEX2FD_eq hi
  have hd := INDEX2DATA_eq hi
  rw [Unchanged, Unchanged, hat (by omega), hat (by omega)]

theorem closed_of_not_mem (h : a ≠ INDEX2FD i) (h' : a ≠ INDEX2DATA i) : closed x s i a = s a := by
  have hat {b : Nat} {t : Pages} (hb : a ≠ b) : unmap b t a = t a := by
    rw [unmap]
    split
    · exact update_of_ne hb _ _
    · rfl
  rw [closed]
  split
  · split
    · rw [hat h', hat h]
    · exact hat h
  · rfl

theorem closed_data (hi : InRange i) : closed x s i (INDEX2DATA i) = none ↔
    s (INDEX2DATA i) = none ∨ IsPipe x s i := by
  have hu : UTOP = 4005560320 := rfl
  have hd := INDEX2DATA_eq hi
  have ⟨_, hlt, _⟩ := INDEX2FD_eq hi
  rw [closed]
  split
  case isTrue h =>
    split
    case isTrue hp =>
      rw [unmap_apply (by omega), update_self]
      exact ⟨fun _ => .inr hp, fun _ => rfl⟩
    case isFalse hp =>
      rw [unmap_apply (by omega), update_of_ne INDEX2DATA_ne_INDEX2FD]
      exact ⟨.inl, fun h => h.resolve_right hp⟩
  case isFalse h =>
    exact ⟨.inl, fun h' => h'.resolve_right fun ⟨pg, hpg, _⟩ => h ⟨hi, by rw [hpg]; exact nofun⟩⟩

theorem closed_fd (hi : InRange i) : closed x s i (INDEX2FD i) = none := by
  have hu : UTOP = 4005560320 := rfl
  have ⟨hf, hlt, _⟩ := INDEX2FD_eq hi
  rw [closed]
  split
  case isTrue h =>
    split
    · rw [unmap_apply (by omega), update_of_ne INDEX2DATA_ne_INDEX2FD.symm, unmap_apply (by omega), update_self]
    · rw [unmap_apply (by omega), update_self]
  case isFalse h =>
    by_contra hne
    exact h ⟨hi, hne⟩

end Pages

-- When `dup` does what it should. A number that is not one of a descriptor must not be mapped as a positive
-- one, and the pages that it stands for must not be those of descriptors.
structure Proper (x : Outside) (s : Pages) (oldfdnum newfdnum : Int) : Prop where
  inside : InRange newfdnum → newfdnum ≠ oldfdnum ∧
    (s (INDEX2DATA oldfdnum) = none → s (INDEX2DATA newfdnum) = none ∨ IsPipe x s newfdnum)
  mapped : ¬InRange newfdnum → Succeeds x s oldfdnum newfdnum → newfdnum < 0 ∧
    Spared s (INDEX2DATA newfdnum) (withData s oldfdnum newfdnum (INDEX2DATA newfdnum)) ∧
    Spared s (INDEX2FD newfdnum) (withData s oldfdnum newfdnum (INDEX2FD oldfdnum))
  failed : ¬InRange newfdnum → ¬Succeeds x s oldfdnum newfdnum →
    Spared s (INDEX2DATA newfdnum) none ∧ Spared s (INDEX2FD newfdnum) none

section Inside

-- The pages of different descriptors are different.
theorem pages_ne {k : Int} (hi : InRange i) (hk : InRange k) (hne : i ≠ k) :
    INDEX2FD i ≠ INDEX2FD k ∧ INDEX2DATA i ≠ INDEX2DATA k ∧ INDEX2FD i ≠ INDEX2DATA k ∧
      INDEX2DATA i ≠ INDEX2FD k := by
  have ⟨hf, hlt, hc⟩ := INDEX2FD_eq hi
  have ⟨hf', hlt', hc'⟩ := INDEX2FD_eq hk
  have hd := INDEX2DATA_eq hi
  have hd' := INDEX2DATA_eq hk
  omega

-- With a number in the range the pages can always be mapped, if it is not the old one.
theorem succeeds_inside {c : Pages} (h : InRange oldfdnum) (hn : InRange newfdnum) (hne : newfdnum ≠ oldfdnum)
    (hs : c (INDEX2FD oldfdnum) ≠ none) : Succeeds x c oldfdnum newfdnum := by
  have ⟨hf, hlt, _⟩ := INDEX2FD_eq hn
  have hd := INDEX2DATA_eq hn
  have ⟨_, _, hfd, _⟩ := pages_ne h hn hne.symm
  have hu : UTOP = 4005560320 := rfl
  have hw : withData c oldfdnum newfdnum (INDEX2FD oldfdnum) ≠ none := by
    rw [withData_eq, update_of_ne hfd]
    exact hs
  refine ⟨fun _ => ⟨by omega, .inr (not_noTable h hs (by omega))⟩, hw, by omega, .inr ?_⟩
  exact not_noTable h hw (by omega)

end Inside

theorem dup_inside {c : Pages} (h : InRange oldfdnum) (hn : InRange newfdnum) (hne : newfdnum ≠ oldfdnum)
    (hs : s (INDEX2FD oldfdnum) ≠ none) (hc : c = closed x s newfdnum)
    (hs' : s' = update (withData c oldfdnum newfdnum) (INDEX2FD newfdnum)
      (withData c oldfdnum newfdnum (INDEX2FD oldfdnum))) : Dups s oldfdnum newfdnum newfdnum s' ↔
    (s (INDEX2DATA oldfdnum) = none → s (INDEX2DATA newfdnum) = none ∨ IsPipe x s newfdnum) := by
  -- The pages of the other descriptors, the old one among them, stay.
  have hkept {k : Int} (hk : InRange k) (hkn : k ≠ newfdnum) :
      s' (INDEX2FD k) = s (INDEX2FD k) ∧ s' (INDEX2DATA k) = s (INDEX2DATA k) := by
    have ⟨hff, hdd, hfd, hdf⟩ := pages_ne hk hn hkn
    rw [hs', update_of_ne hff, update_of_ne hdf, withData_eq, update_of_ne hfd, update_of_ne hdd, hc]
    exact ⟨closed_of_not_mem hff hfd, closed_of_not_mem hdf hdd⟩
  have ⟨hff, hdd, hfd, hdf⟩ := pages_ne h hn hne.symm
  have hfd' : s' (INDEX2FD newfdnum) = s (INDEX2FD oldfdnum) := by
    rw [hs', update_self, withData_eq, update_of_ne hfd, hc, closed_of_not_mem hff hfd]
  have hold : c (INDEX2DATA oldfdnum) = s (INDEX2DATA oldfdnum) := by rw [hc, closed_of_not_mem hdf hdd]
  have hdata : s' (INDEX2DATA newfdnum) = s (INDEX2DATA oldfdnum) ↔
      (s (INDEX2DATA oldfdnum) = none → s (INDEX2DATA newfdnum) = none ∨ IsPipe x s newfdnum) := by
    rw [hs', update_of_ne INDEX2DATA_ne_INDEX2FD, withData, hold, ← closed_data hn, ← hc]
    by_cases hd : s (INDEX2DATA oldfdnum) = none
    case pos =>
      rw [if_neg (not_not.mpr hd), hd]
      exact ⟨fun h _ => h, fun h => h rfl⟩
    case neg =>
      rw [if_pos hd, update_self]
      exact ⟨fun _ h => absurd h hd, fun _ => rfl⟩
  obtain ⟨fd, hfdo⟩ := Option.ne_none_iff_exists'.mp hs
  constructor
  · intro hd
    obtain ⟨_, fd, data, h₁, _, h₃⟩ := hd.same hn.1
    exact hdata.mp (h₃.data.trans h₁.data.symm)
  · intro hl
    have ⟨hf, hd⟩ := hkept h hne.symm
    refine ⟨fun _ => ⟨rfl, fd, s (INDEX2DATA oldfdnum), ⟨h, hfdo, rfl⟩, ⟨h, hf.trans hfdo, hd⟩,
      ⟨hn, hfd'.trans hfdo, hdata.mpr hl⟩⟩, fun k hk hkn => ?_, fun he => absurd he.symm hne⟩
    exact ⟨(hkept hk hkn).1, fun _ => (hkept hk hkn).2⟩

-- A number that is out of the range is to be refused.
theorem dups_outside {r : Int} (h : InRange oldfdnum) (hn : ¬InRange newfdnum) :
    Dups s oldfdnum newfdnum r s' ↔ r < 0 ∧ ∀ i, InRange i → Unchanged s s' i := by
  constructor
  · refine fun hd => ⟨?_, fun i hi => hd.others i hi fun he => hn (he ▸ hi)⟩
    by_contra hr
    obtain ⟨_, _, _, _, _, hnew⟩ := hd.same (Int.not_lt.mp hr)
    exact hn hnew.range
  · exact fun ⟨hr, hall⟩ => ⟨fun h₀ => absurd hr (Int.not_lt.mpr h₀), fun i hi _ => hall i hi,
      fun he => absurd (he ▸ h) hn⟩

-- `dup` does what it should exactly in these cases.
theorem dup_faithful_iff (h : InRange oldfdnum) (hs : s (INDEX2FD oldfdnum) ≠ none) :
    Faithful x oldfdnum newfdnum s ↔ Proper x s oldfdnum newfdnum := by
  have hw := dup_spec (x := x) (s := s) h hs (c := closed x s newfdnum) rfl
  rw [Faithful]
  simp only [Prog.wp] at hw ⊢
  by_cases hn : InRange newfdnum
  case pos =>
    have hproper : Proper x s oldfdnum newfdnum ↔ newfdnum ≠ oldfdnum ∧ (s (INDEX2DATA oldfdnum) = none →
        s (INDEX2DATA newfdnum) = none ∨ IsPipe x s newfdnum) :=
      ⟨fun hp => hp.inside hn, fun hp => ⟨fun _ => hp, fun h => absurd hn h, fun h => absurd hn h⟩⟩
    rw [hproper]
    by_cases hne : newfdnum = oldfdnum
    case pos =>
      -- The old descriptor has been closed.
      subst hne
      have hnone : withData (closed x s newfdnum) newfdnum newfdnum (INDEX2FD newfdnum) = none := by
        rw [withData_eq, update_of_ne INDEX2DATA_ne_INDEX2FD.symm, closed_fd hn]
      refine iff_of_false ?_ fun hp => hp.1 rfl
      cases hx : dup x newfdnum newfdnum s
      case panic => exact id
      case error e s' =>
        rw [hx] at hw
        intro hd
        refine hd.self rfl ?_
        have hu : UTOP = 4005560320 := rfl
        obtain ⟨hf, hlt, _⟩ := INDEX2FD_eq hn
        rw [hw.2.2, unmap_apply (by omega), update_of_ne INDEX2DATA_ne_INDEX2FD.symm, unmap_apply (by omega),
          update_self]
      case ok r s' =>
        rw [hx] at hw
        exact absurd hnone hw.2.1.2.1
    case neg =>
      rw [and_iff_right hne]
      obtain ⟨hff, _, hfd, _⟩ := pages_ne h hn (Ne.symm hne)
      have hsucc := succeeds_inside (x := x) h hn hne
        (show closed x s newfdnum _ ≠ none by rw [closed_of_not_mem hff hfd]; exact hs)
      cases hx : dup x oldfdnum newfdnum s
      case panic =>
        rw [hx] at hw
        exact hw.elim
      case error e s' =>
        rw [hx] at hw
        exact absurd hsucc hw.2.1
      case ok r s' =>
        rw [hx] at hw
        obtain ⟨rfl, _, hs'⟩ := hw
        exact dup_inside h hn hne hs rfl hs'
  case neg =>
    have hc : closed x s newfdnum = s := if_neg fun hc => hn hc.1
    rw [hc] at hw
    have hne : INDEX2FD newfdnum ≠ INDEX2DATA newfdnum := INDEX2DATA_ne_INDEX2FD.symm
    cases hx : dup x oldfdnum newfdnum s
    case panic =>
      rw [hx] at hw
      exact hw.elim
    case error e s' =>
      rw [hx] at hw
      obtain ⟨he, hsucc, rfl⟩ := hw
      refine (dups_outside h hn).trans ((and_iff_right he).trans ((unmap_unchanged_iff hne).trans ?_))
      exact ⟨fun hp => ⟨fun h => absurd h hn, fun _ h => absurd h hsucc, fun _ _ => hp⟩, fun hp => hp.failed hn hsucc⟩
    case ok r s' =>
      rw [hx] at hw
      obtain ⟨rfl, hsucc, hs'⟩ := hw
      have he : s' = update (update s _ (withData s oldfdnum r (INDEX2DATA r))) (INDEX2FD r)
          (withData s oldfdnum r (INDEX2FD oldfdnum)) :=
        hs'.trans (congrArg (update · _ _) withData_eq)
      rw [he]
      refine (dups_outside h hn).trans ((and_congr_right' (unchanged_iff hne)).trans ?_)
      exact ⟨fun hp => ⟨fun h => absurd h hn, fun _ _ => hp, fun _ h => absurd hsucc h⟩,
        fun hp => hp.mapped hn hsucc⟩

section Sample

attribute [local irreducible] Faithful

-- An environment with a pipe as descriptor 0 and a file as descriptor 1.
def twoFds : Pages := fun va =>
  if va = INDEX2FD 0 then some 1 else if va = INDEX2DATA 0 then some 2 else if va = INDEX2FD 1 then some 3 else none

def devices : Outside := ⟨fun pg => if pg = 1 then 112 else 102, 0, 0, 0⟩

theorem dup_faithful_iff_sample : Faithful devices 0 1 twoFds := by
  refine (dup_faithful_iff (by decide) (by decide)).mpr ⟨fun _ => ⟨by decide, fun h => ?_⟩, ?_, ?_⟩
  · exact absurd h (by decide)
  · exact fun h => absurd (show InRange 1 by decide) h
  · exact fun h => absurd (show InRange 1 by decide) h

-- The page of a file descriptor onto itself: it is closed.
theorem dup_unfaithful : ¬Faithful devices 1 1 twoFds := by
  intro h
  exact ((dup_faithful_iff (by decide) (by decide)).mp h).inside (by decide) |>.1 rfl

end Sample

end Lib.Fd

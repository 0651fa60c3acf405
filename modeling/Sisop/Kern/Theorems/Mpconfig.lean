import Sisop.Kern.Mpconfig
import Mathlib.Tactic.Common

namespace Kern.Mpconfig

open Library Function

-- An entry of the table; `boot` is whether a processor carries the boot flag.
inductive Entry
  | proc (boot : Bool)
  | other
  | unknown
deriving DecidableEq

-- The last of the bytes of an entry that decide what is done with it.
def Entry.last : Entry → Nat
  | .proc _ => 3
  | _       => 0

def Entry.size : Entry → Nat
  | .proc _ => 20
  | _       => 8

def Entry.boot? : Entry → Option Bool
  | .proc b => some b
  | _       => none

def entryAt (m : Memory) (a : Nat) : Entry :=
  if (m a).toNat = 0 then .proc (m (a + 3) &&& MPPROC_BOOT ≠ 0)
  else if (m a).toNat ≤ 4 then .other
  else .unknown

-- The entries with their offsets, up to the first one of an unknown type.
def entries (m : Memory) (conf : Nat) : Nat → Nat → List (Nat × Entry)
  | 0,     _   => []
  | k + 1, off =>
    let e := entryAt m (conf + off)
    (off, e) :: if e = .unknown then [] else entries m conf k (off + e.size)

def Conf.entries (m : Memory) (c : Conf) : List (Nat × Entry) :=
  Mpconfig.entries m c.conf (c.entry m) 44

-- The boot flags of the processors, in their order.
def boots (es : List (Nat × Entry)) : List Bool := es.filterMap fun e => e.2.boot?

-- `b` is the number of the last processor with the flag, or 0 if none carries it.
def IsBoot (flags : List Bool) (b : Nat) : Prop :=
  flags[b]? = some true ∧ (∀ i > b, flags[i]? ≠ some true) ∨ b = 0 ∧ true ∉ flags

def Read.inside (length xlength : Nat) : Read → Prop
  | .table off    => off < length
  | .extended off => off < xlength

-- What `mp_init` should end with.
structure Sound (m : Memory) (c : Conf) (x : Mp) : Prop where
  reads   : ∀ r ∈ x.reads, r.inside (c.length m) (c.xlength m)
  ncpu    : x.ncpu ≤ NCPU
  bootcpu : x.ismp → x.bootcpu < x.ncpu ∧ IsBoot ((boots (c.entries m)).take NCPU) x.bootcpu

-- The length covers the header and the entries, and a table that is kept has a processor and no boot flag
-- on one that is not counted.
structure WellFormed (m : Memory) (c : Conf) : Prop where
  header  : 43 ≤ c.length m
  entries : ∀ e ∈ c.entries m, e.1 + e.2.last < c.length m
  boots   : (∀ e ∈ c.entries m, e.2 ≠ .unknown) →
    boots (c.entries m) ≠ [] ∧ ∀ b ∈ (boots (c.entries m)).drop NCPU, b = false

variable {m : Memory} {npages conf k len xlen : Nat} {c : Conf} {x y : Mp} {flags : List Bool}

section Scan

-- How far the scan has come: the processors it has seen so far carry the given flags.
structure Seen (flags : List Bool) (x : Mp) : Prop where
  ncpu : x.ncpu = min flags.length NCPU
  boot : (∃ j, flags[j]? = some true ∧ (∀ i > j, flags[i]? ≠ some true) ∧ x.bootcpu = min j NCPU) ∨
    true ∉ flags ∧ x.bootcpu = 0

def AllInside (len xlen : Nat) (x : Mp) : Prop := ∀ r ∈ x.reads, r.inside len xlen

theorem allInside_bytes {off n : Nat} {reads : List Read} :
    (∀ r ∈ reads ++ bytes off n, r.inside len xlen) ↔
      (∀ r ∈ reads, r.inside len xlen) ∧ (n = 0 ∨ off + n ≤ len) := by
  rw [List.forall_mem_append, bytes, List.forall_mem_map]
  refine and_congr_right fun _ => ?_
  constructor
  case mp =>
    intro h
    by_cases hn : n = 0
    case pos => exact .inl hn
    case neg =>
      have h : off + (n - 1) < len := h (n - 1) (List.mem_range.mpr (by omega))
      exact .inr (by omega)
  case mpr =>
    intro h i hi
    have hi := List.mem_range.mp hi
    exact show off + i < len by omega

-- Whether the processor at `x.p` carries the boot flag.
def isBoot (m : Memory) (conf : Nat) (x : Mp) : Bool := m (conf + x.p + 3) &&& MPPROC_BOOT ≠ 0

theorem mpproc_bootcpu : (mpproc m conf x).bootcpu = if isBoot m conf x then x.ncpu else x.bootcpu := by
  simp only [mpproc, isBoot, decide_eq_true_eq]
  split <;> split <;> rfl

theorem mpproc_ncpu (h : x.ncpu ≤ NCPU) : (mpproc m conf x).ncpu = min (x.ncpu + 1) NCPU := by
  have hn : (mpproc m conf x).ncpu = if x.ncpu < NCPU then x.ncpu + 1 else x.ncpu := by
    simp only [mpproc]
    split <;> split <;> rfl
  rw [hn]
  split <;> omega

theorem mpproc_p : (mpproc m conf x).p = x.p + 20 := by
  simp only [mpproc]
  split <;> split <;> rfl

theorem mpproc_ismp : (mpproc m conf x).ismp = x.ismp := by
  simp only [mpproc]
  split <;> split <;> rfl

-- The local APIC id, which is only read for a message, lies before the flags.
theorem mpproc_inside : AllInside len xlen (mpproc m conf x) ↔ AllInside len xlen x ∧ x.p + 3 < len := by
  have hr : (mpproc m conf x).reads = x.reads ++ bytes (x.p + 3) 1 ∨
      (mpproc m conf x).reads = x.reads ++ bytes (x.p + 3) 1 ++ bytes (x.p + 1) 1 := by
    simp only [mpproc]
    split <;> split
    · exact .inl rfl
    · exact .inr rfl
    · exact .inl rfl
    · exact .inr rfl
  rw [AllInside, AllInside]
  obtain hr | hr := hr
  · rw [hr, allInside_bytes]
    refine and_congr_right fun _ => ?_
    omega
  · rw [hr, allInside_bytes, allInside_bytes, and_assoc]
    refine and_congr_right fun _ => ?_
    omega

theorem Seen.mpproc (h : Seen flags x) : Seen (flags ++ [isBoot m conf x]) (mpproc m conf x) := by
  have hn := h.ncpu
  constructor
  · rw [mpproc_ncpu (by omega), List.length_append, List.length_singleton, hn]
    omega
  · rw [mpproc_bootcpu, hn]
    cases isBoot m conf x
    case true =>
      refine .inl ⟨flags.length, by simp, fun i hi => ?_, rfl⟩
      rw [List.getElem?_eq_none (by rw [List.length_append, List.length_singleton]; omega)]
      exact nofun
    case false =>
      obtain ⟨j, hj, hlast, hb⟩ | ⟨hno, hb⟩ := h.boot
      · refine .inl ⟨j, ?_, fun i hi => ?_, hb⟩
        · rw [List.getElem?_append_left (List.getElem?_eq_some_iff.mp hj).1, hj]
        · rw [List.getElem?_append]
          split
          case isTrue => exact hlast i hi
          case isFalse => cases i - flags.length <;> simp
      · exact .inr ⟨by simpa using hno, hb⟩

theorem entryAt_cases (x : Mp) :
    ((m (conf + x.p)).toNat = 0 ∧ entryAt m (conf + x.p) = .proc (isBoot m conf x)) ∨
      ((m (conf + x.p)).toNat ≠ 0 ∧ (m (conf + x.p)).toNat ≤ 4 ∧ entryAt m (conf + x.p) = .other) ∨
      (m (conf + x.p)).toNat ≠ 0 ∧ ¬(m (conf + x.p)).toNat ≤ 4 ∧ entryAt m (conf + x.p) = .unknown := by
  by_cases h₀ : (m (conf + x.p)).toNat = 0
  case pos => exact .inl ⟨h₀, if_pos h₀⟩
  by_cases h₁ : (m (conf + x.p)).toNat ≤ 4
  · exact .inr (.inl ⟨h₀, h₁, (if_neg h₀).trans (if_pos h₁)⟩)
  · exact .inr (.inr ⟨h₀, h₁, (if_neg h₀).trans (if_neg h₁)⟩)

theorem Seen.of_eq (h : Seen flags x) (hn : y.ncpu = x.ncpu) (hb : y.bootcpu = x.bootcpu) : Seen flags y :=
  ⟨hn ▸ h.ncpu, hb ▸ h.boot⟩

-- What the loop has done when it ends.
theorem scan_spec (h : Seen flags x) :
    let es := entries m conf k x.p
    let y := scan m conf k x
    Seen (flags ++ boots es) y ∧ (y.ismp ↔ x.ismp ∧ ∀ e ∈ es, e.2 ≠ .unknown) ∧
      (AllInside len xlen y ↔ AllInside len xlen x ∧ ∀ e ∈ es, e.1 + e.2.last < len) := by
  induction k generalizing x flags
  case zero => simpa [entries, boots, scan] using h
  case succ k hi =>
    -- The type of the entry is read first.
    let x' : Mp := { x with reads := x.reads ++ bytes x.p 1 }
    have hx' : Seen flags x' := h.of_eq rfl rfl
    have hr : AllInside len xlen x' ↔ AllInside len xlen x ∧ x.p < len := by
      rw [AllInside, allInside_bytes, AllInside]
      refine and_congr_right fun _ => ?_
      omega
    obtain ⟨ht, he⟩ | ⟨ht, ht₁, he⟩ | ⟨ht, ht₁, he⟩ :
      (m (conf + x.p)).toNat = 0 ∧ entryAt m (conf + x.p) = .proc (isBoot m conf x) ∨ _ ∨ _ := entryAt_cases x
    · have ⟨hs, hi₁, hi₂⟩ := hi (x := mpproc m conf x') hx'.mpproc
      have hscan : scan m conf (k + 1) x = scan m conf k (mpproc m conf x') := if_pos ht
      have hes : entries m conf (k + 1) x.p = (x.p, .proc (isBoot m conf x)) :: entries m conf k (x.p + 20) := by
        simp [entries, he, Entry.size]
      rw [mpproc_p] at hs hi₁ hi₂
      rw [mpproc_ismp] at hi₁
      rw [mpproc_inside, hr] at hi₂
      rw [hscan, hes]
      refine ⟨?_, ?_, ?_⟩
      · rw [List.append_assoc] at hs
        exact hs
      · rw [List.forall_mem_cons]
        exact hi₁.trans (and_congr_right fun _ => (and_iff_right nofun).symm)
      · rw [List.forall_mem_cons, hi₂]
        constructor
        · rintro ⟨⟨⟨h₁, _⟩, h₂⟩, h₃⟩
          exact ⟨h₁, h₂, h₃⟩
        · rintro ⟨h₁, h₂, h₃⟩
          exact ⟨⟨⟨h₁, Nat.lt_of_le_of_lt (Nat.le_add_right _ 3) h₂⟩, h₂⟩, h₃⟩
    · have ⟨hs, hi₁, hi₂⟩ := hi (x := { x' with p := x.p + 8 }) (hx'.of_eq rfl rfl)
      have hscan : scan m conf (k + 1) x = scan m conf k { x' with p := x.p + 8 } :=
        (if_neg ht).trans (if_pos ht₁)
      have hes : entries m conf (k + 1) x.p = (x.p, .other) :: entries m conf k (x.p + 8) := by
        simp [entries, he, Entry.size]
      rw [hscan, hes]
      refine ⟨hs, ?_, ?_⟩
      · rw [List.forall_mem_cons]
        exact hi₁.trans (and_congr_right fun _ => (and_iff_right nofun).symm)
      · rw [List.forall_mem_cons, ← and_assoc]
        exact hi₂.trans (and_congr_left fun _ => hr)
    · have hscan : scan m conf (k + 1) x = { x' with ismp := false } :=
        (if_neg ht).trans (if_neg ht₁)
      have hes : entries m conf (k + 1) x.p = [(x.p, .unknown)] := by
        simp [entries, he]
      rw [hscan, hes]
      refine ⟨?_, ?_, ?_⟩
      · rw [show flags ++ boots [(x.p, .unknown)] = flags from List.append_nil _]
        exact hx'.of_eq rfl rfl
      · rw [List.forall_mem_singleton]
        exact ⟨nofun, fun h => absurd rfl h.2⟩
      · rw [List.forall_mem_singleton]
        exact hr

theorem mpconfig_reads (h : mpconfig npages m = some (some c)) :
    c.reads = bytes 0 4 ++ bytes 4 2 ++ bytes 0 (c.length m) ++ bytes 6 1 ++ bytes 4 2 ++ bytes 40 2 ++
      (List.range (c.xlength m)).map .extended ++ bytes 42 1 := by
  rw [mpconfig, Option.bind_eq_bind, Option.bind_eq_some_iff] at h
  obtain ⟨_ | mp, _, h⟩ := h
  case none => cases h
  case some =>
    simp only at h
    split at h
    case isTrue => cases h
    rw [Option.bind_eq_bind, Option.bind_eq_some_iff] at h
    obtain ⟨conf, _, h⟩ := h
    split at h
    case isTrue => cases h
    split at h
    case isTrue => cases h
    split at h
    case isTrue => cases h
    split at h
    case isTrue => cases h
    cases h
    rfl

end Scan

section Init

theorem forall_drop_iff {n : Nat} : (∀ b ∈ flags.drop n, b = false) ↔ ∀ i ≥ n, flags[i]? ≠ some true := by
  constructor
  case mp =>
    intro h i hi he
    have hm : true ∈ flags.drop n := by
      refine List.mem_of_getElem? (i := i - n) ?_
      rwa [List.getElem?_drop, Nat.add_sub_cancel' hi]
    exact Bool.noConfusion (h true hm)
  case mpr =>
    intro h b hb
    obtain ⟨i, hi⟩ := List.getElem?_of_mem hb
    rw [List.getElem?_drop] at hi
    cases b
    case false => rfl
    case true => exact absurd hi (h (n + i) (Nat.le_add_right _ _))

theorem Seen.sound (h : Seen flags x) :
    x.bootcpu < x.ncpu ∧ IsBoot (flags.take NCPU) x.bootcpu ↔
      flags ≠ [] ∧ ∀ b ∈ flags.drop NCPU, b = false := by
  rw [forall_drop_iff, ← List.length_pos_iff, h.ncpu]
  constructor
  case mp =>
    rintro ⟨hlt, _⟩
    refine ⟨by omega, fun i hi => ?_⟩
    obtain ⟨j, _, hlast, hb⟩ | ⟨hno, _⟩ := h.boot
    · exact hlast i (by omega)
    · exact fun he => hno (List.mem_of_getElem? he)
  case mpr =>
    rintro ⟨hpos, hdrop⟩
    have hn : 0 < NCPU := by decide
    obtain ⟨j, hj, hlast, hb⟩ | ⟨hno, hb⟩ := h.boot
    · have hj' : j < NCPU := Nat.lt_of_not_le fun hle => hdrop j hle hj
      have hlen := (List.getElem?_eq_some_iff.mp hj).1
      have hb : x.bootcpu = j := by omega
      refine ⟨by omega, .inl ⟨?_, fun i hi => ?_⟩⟩
      · rw [hb, List.getElem?_take_of_lt hj', hj]
      · rw [List.getElem?_take]
        split
        · exact hlast i (by omega)
        · exact nofun
    · exact ⟨by omega, .inr ⟨hb, fun h => hno (List.mem_of_mem_take h)⟩⟩

theorem Seen.counted (h : Seen flags x) : x.ncpu ≤ NCPU := by
  rw [h.ncpu]
  exact Nat.min_le_right _ _

-- The reads of `mpconfig` and of the header.
theorem header_inside (h : mpconfig npages m = some (some c)) :
    (∀ r ∈ c.reads ++ bytes 36 4 ++ bytes 34 2, r.inside (c.length m) (c.xlength m)) ↔ 43 ≤ c.length m := by
  have hx : ∀ r ∈ (List.range (c.xlength m)).map Read.extended, r.inside (c.length m) (c.xlength m) :=
    List.forall_mem_map.mpr fun i hi => List.mem_range.mp hi
  rw [allInside_bytes, allInside_bytes, mpconfig_reads h, allInside_bytes, List.forall_mem_append,
    allInside_bytes, allInside_bytes, allInside_bytes, allInside_bytes, allInside_bytes,
    ← List.nil_append (bytes 0 4), allInside_bytes]
  constructor
  · rintro ⟨⟨⟨_, h⟩, _⟩, _⟩
    omega
  · intro h
    and_intros
    any_goals omega
    exact nofun

-- `mp_init` ends as it should exactly for the well formed tables.
theorem mp_init_sound_iff (h : mpconfig npages m = some (some c)) :
    ∃ x, mp_init npages m = some x ∧ (Sound m c x ↔ WellFormed m c) := by
  let x₀ : Mp := { boot with
    ismp := true, lapicaddr := c.lapicaddr m, reads := c.reads ++ bytes 36 4 ++ bytes 34 2 }
  have h₀ : Seen [] x₀ := ⟨rfl, .inr ⟨List.not_mem_nil, rfl⟩⟩
  have ⟨hs, hi, hr⟩ : Seen ([] ++ boots (c.entries m)) (scan m c.conf (c.entry m) x₀) ∧
      ((scan m c.conf (c.entry m) x₀).ismp ↔ x₀.ismp ∧ ∀ e ∈ c.entries m, e.2 ≠ .unknown) ∧
      (AllInside (c.length m) (c.xlength m) (scan m c.conf (c.entry m) x₀) ↔
        AllInside (c.length m) (c.xlength m) x₀ ∧ ∀ e ∈ c.entries m, e.1 + e.2.last < c.length m) :=
    scan_spec h₀
  rw [List.nil_append] at hs
  have hr := hr.trans (and_congr_left fun _ => header_inside h)
  have hi : (scan m c.conf (c.entry m) x₀).ismp ↔ ∀ e ∈ c.entries m, e.2 ≠ .unknown :=
    hi.trans (and_iff_right rfl)
  rw [mp_init, h, Option.bind_eq_bind, Option.bind_some]
  simp only
  generalize hy : scan m c.conf (c.entry m) x₀ = y at hs hi hr
  have hn := hs.counted
  split
  case isTrue hno =>
    have hno : ¬y.ismp := by simpa using hno
    refine ⟨_, rfl, fun hx => ?_, fun hw => ?_⟩
    · have ⟨h₁, h₂⟩ := hr.mp hx.reads
      exact ⟨h₁, h₂, fun hu => absurd (hi.mpr hu) hno⟩
    · exact ⟨hr.mpr ⟨hw.header, hw.entries⟩, show 1 ≤ NCPU by decide, fun he => absurd he hno⟩
  case isFalse hmp =>
    have hmp : y.ismp := by simpa using hmp
    refine ⟨_, rfl, fun hx => ?_, fun hw => ?_⟩
    · have ⟨h₁, h₂⟩ := hr.mp hx.reads
      exact ⟨h₁, h₂, fun _ => hs.sound.mp (hx.bootcpu hmp)⟩
    · exact ⟨hr.mpr ⟨hw.header, hw.entries⟩, hn, fun _ => hs.sound.mpr (hw.boots (hi.mp hmp))⟩

-- A memory with a table for processors with the given flags and with the given number of entries.
def withTable (count : BitVec 8) (flags : List (BitVec 8)) : Memory :=
  let conf (check : BitVec 8) : List (BitVec 8) :=
    [0x50, 0x43, 0x4D, 0x50, BitVec.ofNat 8 (44 + 20 * flags.length), 0, 4, check] ++
      List.replicate 26 0 ++ [count, 0] ++ List.replicate 8 0 ++
      flags.flatMap fun f => [0, 0, 0, f] ++ List.replicate 16 0
  let table := conf (-(conf 0).foldl (· + ·) 0)
  fun a =>
    if a = 0x40F then 1
    else if a < 0x1000 then 0
    else if a < 0x2000 then [0x5F, 0x4D, 0x50, 0x5F, 0, 0x20, 0, 0, 1, 4, 0x80].getD (a - 0x1000) 0
    else table.getD (a - 0x2000) 0

def tableConf (length : Nat) : Conf where
  mp    := 0x1000
  conf  := 0x2000
  reads := bytes 0 4 ++ bytes 4 2 ++ bytes 0 length ++ bytes 6 1 ++ bytes 4 2 ++ bytes 40 2 ++ bytes 42 1

theorem mp_init_sound_iff_sample :
    mpconfig 16 (withTable 1 [2]) = some (some (tableConf 64)) ∧
      ∃ x, mp_init 16 (withTable 1 [2]) = some x ∧ Sound (withTable 1 [2]) (tableConf 64) x := by
  have h : mpconfig 16 (withTable 1 [2]) = some (some (tableConf 64)) := by decide +kernel
  have hw : WellFormed (withTable 1 [2]) (tableConf 64) :=
    ⟨by decide +kernel, by decide +kernel, fun _ => by decide +kernel⟩
  obtain ⟨x, hx, hs⟩ := mp_init_sound_iff h
  exact ⟨h, x, hx, hs.mpr hw⟩

-- A second entry is looked for after the end of the table; and a ninth processor that carries the boot flag
-- makes `bootcpu` point after the end of `cpus`.
theorem mp_init_unsound :
    (mpconfig 16 (withTable 2 [2]) = some (some (tableConf 64)) ∧
      ∃ x, mp_init 16 (withTable 2 [2]) = some x ∧ ¬Sound (withTable 2 [2]) (tableConf 64) x) ∧
    (mpconfig 16 (withTable 9 (List.replicate 8 0 ++ [2])) = some (some (tableConf 224)) ∧
      ∃ x, mp_init 16 (withTable 9 (List.replicate 8 0 ++ [2])) = some x ∧ x.bootcpu = NCPU ∧
        ¬Sound (withTable 9 (List.replicate 8 0 ++ [2])) (tableConf 224) x) := by
  have he : ∃ x, mp_init 16 (withTable 2 [2]) = some x ∧ Read.table 64 ∈ x.reads := by
    have hd : (mp_init 16 (withTable 2 [2])).any (fun x => decide (Read.table 64 ∈ x.reads)) := by
      decide +kernel
    simpa [Option.any_eq_true] using hd
  have hb : ∃ x, mp_init 16 (withTable 9 (List.replicate 8 0 ++ [2])) = some x ∧
      x.ismp ∧ x.bootcpu = NCPU ∧ x.ncpu = NCPU := by
    have hd : (mp_init 16 (withTable 9 (List.replicate 8 0 ++ [2]))).any
        (fun x => x.ismp && decide (x.bootcpu = NCPU) && decide (x.ncpu = NCPU)) := by
      decide +kernel
    simpa [Option.any_eq_true, and_assoc] using hd
  refine ⟨⟨by decide +kernel, ?_⟩, ⟨by decide +kernel, ?_⟩⟩
  · obtain ⟨x, hx, hr⟩ := he
    refine ⟨x, hx, fun hs => ?_⟩
    have hlt : 64 < (tableConf 64).length (withTable 2 [2]) := hs.reads _ hr
    revert hlt
    decide +kernel
  · obtain ⟨x, hx, hm, hb, hn⟩ := hb
    refine ⟨x, hx, hb, fun hs => ?_⟩
    have hlt := (hs.bootcpu hm).1
    rw [hb, hn] at hlt
    exact absurd hlt (Nat.lt_irrefl _)

end Init

end Kern.Mpconfig

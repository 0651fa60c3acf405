import Sisop.Fs.Theorems.Reach
import Mathlib.Data.List.TakeWhile

namespace Fs

open Inc Library

-- A directory without holes.
def Full (m : Memory) (d : Nat) : Prop := ∀ k < nblock m d, k < INDIRECT → ptr m d k ≠ 0#32

def DirsFull (m : Memory) : Prop := ∀ d, Reach m d → isDir m d → Full m d

-- `f` is an entry of `d` with the given name.
def Entry (m : Memory) (d : Nat) (name : List (BitVec 8)) (f : Nat) : Prop :=
  ∃ k j, Holds m d k ∧ j < BLKFILES ∧ f = slot m d k j ∧ m.strEq f name

-- No slot that `dir_lookup` looks at has the given name.
def Absent (m : Memory) (d : Nat) (name : List (BitVec 8)) : Prop :=
  ∀ k < nblock m d, k < INDIRECT ∧ ∀ j < BLKFILES, m.strEq (slot m d k j) name = false

-- The directory that should hold the last element of a path.
inductive Parent (m : Memory) : Nat → List (List (BitVec 8)) → Nat → List (BitVec 8) → Prop
  | last {d name} : Parent m d [name] d name
  | step {d name f path d' name'} : Entry m d name f → Parent m f path d' name' →
    Parent m d (name :: path) d' name'

-- The slot that `dir_alloc_file` takes where it finds one.
def FirstEmpty (m : Memory) (d s : Nat) : Prop :=
  ∃ k j, Holds m d k ∧ j < BLKFILES ∧ s = slot m d k j ∧ m s = 0#8 ∧
    (∀ k' < k, ∀ j' < BLKFILES, m (slot m d k' j') ≠ 0#8) ∧ ∀ j' < j, m (slot m d k j') ≠ 0#8

-- No slot is empty.
def Packed (m : Memory) (d : Nat) : Prop :=
  ∀ k < nblock m d, k < INDIRECT ∧ ∀ j < BLKFILES, m (slot m d k j) ≠ 0#8

variable {m m' m₁ : Memory} {S : Set Nat} {f d g k j x a n : Nat} {name : List (BitVec 8)}
  {path : List (List (BitVec 8))} {p : Memory → Nat → Bool}

theorem Got.still (g : Got S m f k m') (h₀ : ptr m f k ≠ 0#32) : m' = m := by
  obtain ⟨m₁, h₁, h₂⟩ := g.steps
  have he : m₁ = m := by
    refine h₁.resolve_right ?_
    rintro ⟨hk, b, hb⟩
    exact h₀ (ptr_of_no_indirect hk g.lt hb.null)
  subst he
  refine h₂.resolve_right ?_
  rintro ⟨b, hb⟩
  exact h₀ hb.null

theorem getBlock_still (o : Owned m S) (hf : f ∈ S) (hk : k < INDIRECT) (h₀ : ptr m f k ≠ 0#32) :
    (fileGetBlock f k).wp False (fun _ _ => False)
      (fun blk m' => m' = m ∧ blk = slot m f k 0) m := by
  refine (fileGetBlock_wp o hf).mono (fun h => h.2 (.inl h₀)) ?_ ?_
  · rintro e m' ⟨-, ⟨-, h⟩ | ⟨-, -, -, h⟩⟩
    · omega
    · exact h (.inl h₀)
  · rintro blk m' ⟨g, rfl⟩
    have he := g.still h₀
    subst he
    exact ⟨rfl, by simp [slot]⟩

theorem slot_eq : slot m d k j = slot m d k 0 + sizeofFile * j := by
  simp only [slot, Nat.mul_zero, Nat.add_zero]

-- The search through a directory without holes.
theorem dirScan_wp {c : Nat} (o : Owned m S) (hd : d ∈ S)
    (hfull : ∀ k, a ≤ k → k < a + c → k < INDIRECT → ptr m d k ≠ 0#32) :
    (dirScan p d (List.range' a c)).wp False
      (fun e m' => m' = m ∧ e = E_INVAL ∧ INDIRECT < a + c ∧
        ∀ k, a ≤ k → k < INDIRECT → ∀ j < BLKFILES, ¬p m (slot m d k j))
      (fun r m' => m' = m ∧
        (∀ f, r = some f → ∃ k j, a ≤ k ∧ k < a + c ∧ k < INDIRECT ∧ j < BLKFILES ∧
          f = slot m d k j ∧ p m f ∧
          (∀ k', a ≤ k' → k' < k → ∀ j' < BLKFILES, ¬p m (slot m d k' j')) ∧
          ∀ j' < j, ¬p m (slot m d k j')) ∧
        (r = none → ∀ k, a ≤ k → k < a + c → k < INDIRECT ∧
          ∀ j < BLKFILES, ¬p m (slot m d k j))) m := by
  induction c generalizing a
  case zero =>
    refine ⟨rfl, fun f h => (by cases h), fun _ k h₁ h₂ => ?_⟩
    omega
  case succ c hi =>
    rw [List.range'_succ, dirScan, Prog.wp_bind]
    by_cases hI : a < INDIRECT
    case neg =>
      refine (fileGetBlock_wp o hd).mono (fun h => hI h.1) ?_ fun _ _ h => absurd h.1.lt hI
      rintro e m' ⟨rfl, ⟨rfl, h⟩ | ⟨-, -, h, -⟩⟩
      · exact ⟨rfl, rfl, by omega, fun k h₁ h₂ => by omega⟩
      · exact absurd h hI
    refine (getBlock_still o hd hI (hfull a le_rfl (by omega) hI)).mono id (fun _ _ h => h.elim) ?_
    rintro blk m' ⟨rfl, rfl⟩
    rw [Prog.wp_bind, Prog.wp_get]
    split
    case h_1 j hj =>
      rw [List.find?_range_eq_some] at hj
      refine ⟨rfl, fun f hf => ?_, fun h => by cases h⟩
      cases hf
      refine ⟨a, j, le_rfl, by omega, hI, List.mem_range.mp hj.2.1, slot_eq.symm, hj.1,
        fun k' h₁ h₂ => by omega, fun j' h => ?_⟩
      rw [slot_eq]
      simpa using hj.2.2 j' h
    case h_2 hj =>
      have hnone : ∀ j < BLKFILES, ¬p m' (slot m' d a j) := by
        intro j h
        rw [slot_eq]
        rw [List.find?_range_eq_none] at hj
        simpa using hj j h
      refine (hi fun k h₁ h₂ => hfull k (by omega) (by omega)).mono id ?_ ?_
      · rintro e m₁ ⟨h₁, h₂, h₃, h₄⟩
        refine ⟨h₁, h₂, by omega, fun k hk₁ hk₂ => ?_⟩
        by_cases hka : k = a
        · exact hka ▸ hnone
        · exact h₄ k (by omega) hk₂
      · rintro r m₁ ⟨rfl, h₁, h₂⟩
        refine ⟨rfl, fun f hf => ?_, fun hr k hk₁ hk₂ => ?_⟩
        · obtain ⟨k, j, hk₁, hk₂, hkI, hj, he, hp, hk', hj'⟩ := h₁ f hf
          refine ⟨k, j, by omega, by omega, hkI, hj, he, hp, fun k' h h' => ?_, hj'⟩
          by_cases hka : k' = a
          · exact hka ▸ hnone
          · exact hk' k' (by omega) h'
        · by_cases hka : k = a
          · exact hka ▸ ⟨hI, hnone⟩
          · exact h₂ hr k (by omega) (by omega)

theorem dirBlocks_wp : (dirBlocks d).wp True (fun _ _ => False)
    (fun c m' => m' = m ∧ c = nblock m d ∧ (m.load32 (fSize d)).srem 4096#32 = 0#32) m := by
  rw [dirBlocks, Prog.wp_bind, Prog.wp_get, Prog.wp_ite]
  exact ⟨fun _ => trivial, fun h => ⟨rfl, rfl, not_not.mp h⟩⟩

section Lookup

variable (o : Owned m S) (hd : d ∈ S) (hfull : Full m d)

include o hd hfull

theorem dirLookup_wp : (dirLookup d name).wp True
    (fun e m' => m' = m ∧ (e = E_NOT_FOUND → Absent m d name))
    (fun f m' => m' = m ∧ Entry m d name f) m := by
  rw [dirLookup, Prog.wp_bind]
  refine dirBlocks_wp.mono id (fun _ _ h => h.elim) ?_
  rintro c m' ⟨rfl, rfl, -⟩
  rw [List.range_eq_range', Prog.wp_bind]
  refine (dirScan_wp o hd fun k _ h => hfull k (by omega)).mono False.elim ?_ ?_
  · rintro e m₁ ⟨rfl, rfl, -⟩
    refine ⟨rfl, fun h => ?_⟩
    cases h
  · rintro r m₁ ⟨rfl, h₁, h₂⟩
    cases r
    case some f =>
      obtain ⟨k, j, -, hk, hkI, hj, he, hp, -⟩ := h₁ f rfl
      exact ⟨rfl, k, j, ⟨by omega, hkI, hfull k (by omega) hkI⟩, hj, he, hp⟩
    case none =>
      refine ⟨rfl, fun _ k hk => ?_⟩
      have h := h₂ rfl k (Nat.zero_le _) (by omega)
      exact ⟨h.1, fun j hj => by simpa using h.2 j hj⟩

end Lookup

-- The names of a path.
def Name (name : List (BitVec 8)) : Prop := name ≠ [] ∧ 0#8 ∉ name ∧ name.length < MAXNAMELEN

theorem mem_of_mem_splitOnP {α : Type} {q : α → Bool} {l seg : List α} {c : α}
    (h : seg ∈ l.splitOnP q) (hc : c ∈ seg) : c ∈ l := by
  induction l generalizing seg
  case nil =>
    rw [List.splitOnP_nil, List.mem_singleton] at h
    exact h ▸ hc
  case cons b l hi =>
    rw [List.splitOnP_cons_eq_if_modifyHead] at h
    split at h
    · rcases List.mem_cons.mp h with rfl | h
      · cases hc
      · exact List.mem_cons_of_mem _ (hi h hc)
    · cases hl : l.splitOnP q
      case nil =>
        rw [hl] at h
        cases h
      case cons t ts =>
        rw [hl, List.modifyHead_cons] at h
        rw [hl] at hi
        rcases List.mem_cons.mp h with rfl | h
        · rcases List.mem_cons.mp hc with rfl | hc
          · exact List.mem_cons_self
          · exact List.mem_cons_of_mem _ (hi List.mem_cons_self hc)
        · exact List.mem_cons_of_mem _ (hi (List.mem_cons_of_mem _ h) hc)

theorem pathElems_mem {s : List (BitVec 8)} (h : name ∈ pathElems s) : name ≠ [] ∧ 0#8 ∉ name := by
  rw [pathElems, List.mem_filter] at h
  refine ⟨by simpa using h.2, fun h₀ => ?_⟩
  have := List.mem_takeWhile_imp (mem_of_mem_splitOnP h.1 h₀)
  simp at this

theorem ne_zero_of_strEq (hn : name ≠ []) (h₀ : 0#8 ∉ name) (h : m.strEq f name) : m f ≠ 0#8 := by
  cases name
  case nil => exact absurd rfl hn
  case cons c cs =>
    rw [Memory.strEq, Bool.and_eq_true, decide_eq_true_iff] at h
    rw [h.1]
    rintro rfl
    exact h₀ List.mem_cons_self

theorem Entry.reach (h : Entry m d name f) (hr : Reach m d) (hd : isDir m d) (hn : name ≠ [])
    (h₀ : 0#8 ∉ name) : Reach m f := by
  obtain ⟨k, j, hk, hj, rfl, hs⟩ := h
  exact .entry hr hd hk hj (ne_zero_of_strEq hn h₀ hs)

-- Looking for a path changes nothing.
theorem walkPath_wp (h : BlockInv m) (hfull : DirsFull m) (hf : Reach m f)
    (hn : ∀ name ∈ path, name ≠ [] ∧ 0#8 ∉ name) :
    (walkPath f path).wp True (fun _ m' => m' = m)
      (fun w m' => m' = m ∧ (∀ g, w = .found g → Reach m g) ∧
        ∀ d name, w = .missing d name → Reach m d ∧ isDir m d ∧ Parent m f path d name ∧
          Absent m d name ∧ Name name) m := by
  induction path generalizing f
  case nil =>
    refine ⟨rfl, fun g hg => ?_, fun d name hm => by cases hm⟩
    cases hg
    exact hf
  case cons name path hi =>
    have hname := hn name List.mem_cons_self
    rw [walkPath, Prog.wp_ite]
    refine ⟨fun _ => rfl, fun hlen => ?_⟩
    rw [Prog.wp_bind, Prog.wp_get, Prog.wp_ite]
    refine ⟨fun _ => rfl, fun hd => ?_⟩
    have hd : isDir m f := not_not.mp hd
    rw [Prog.wp_bind, Prog.wp_attempt]
    refine (dirLookup_wp h.owned hf (hfull f hf hd)).mono id ?_ ?_
    · rintro e m' ⟨rfl, ha⟩
      simp only
      rw [Prog.wp_ite]
      refine ⟨?_, fun _ => rfl⟩
      rintro ⟨he, rfl⟩
      refine ⟨rfl, fun g hg => (by cases hg), fun d name' hm => ?_⟩
      cases hm
      exact ⟨hf, hd, .last, ha he, hname.1, hname.2, by omega⟩
    · rintro g m' ⟨rfl, hg⟩
      refine (hi (hg.reach hf hd hname.1 hname.2) fun n hn' => hn n (List.mem_cons_of_mem _ hn')).mono
        id (fun _ _ h => h) ?_
      rintro w m₁ ⟨rfl, h₁, h₂⟩
      refine ⟨rfl, h₁, fun d name' hm => ?_⟩
      have := h₂ d name' hm
      exact ⟨this.1, this.2.1, .step hg this.2.2.1, this.2.2.2⟩

theorem fileOpen_wp {s : List (BitVec 8)} (h : BlockInv m) (hfull : DirsFull m) :
    (fileOpen s).wp True (fun _ m' => m' = m) (fun f m' => m' = m ∧ Reach m f) m := by
  rw [fileOpen, Prog.wp_bind]
  refine (walkPath_wp h hfull .root fun _ => pathElems_mem).mono id (fun _ _ h => h) ?_
  rintro w m' ⟨rfl, h₁, -⟩
  cases w
  case found g => exact ⟨rfl, h₁ g rfl⟩
  case missing => rfl

end Fs

import Sisop.Fs.Theorems.Runs

namespace Fs

open Inc Library

variable {m m' : Memory} {g k : Nat} {path name : List (BitVec 8)}

theorem Server.Inv.run {s₀ s : Server} (h : s₀.Inv)
    (r : Run Server.Step (fun s c => c.Clean s.mem) s₀ s) : s.Inv :=
  r.invariant h fun h hc hs => h.step hc hs

-- Block ownership holds in every state of a run whose requests take no old data for files.
theorem block_ownership {s₀ s : Server} (h : BlockInv s₀.mem) (hf : s₀.files = [])
    (r : Run Server.Step (fun s c => c.Clean s.mem) s₀ s) : BlockInv s.mem := by
  have h₀ : s₀.Inv := ⟨h, fun f hm => by
    rw [hf] at hm
    cases hm⟩
  exact (h₀.run r).blocks

section Empty

-- A root directory without blocks.
variable (hn : nblock m sRoot = 0)

include hn

theorem not_holds_root : ¬Holds m sRoot k := by
  rintro ⟨h, -⟩
  omega

theorem reach_root (h : Reach m g) : g = sRoot := by
  induction h
  case root => rfl
  case entry hk _ _ ih =>
    subst ih
    exact absurd hk (not_holds_root hn)

theorem blockInv_root (hc : Checked m) (hp : ∀ k ≤ INDIRECT, ptr m sRoot k = 0#32) : BlockInv m where
  checked := hc
  valid   := fun hf hk h => absurd (reach_root hn hf ▸ hp _ hk) h
  unique  := fun hf _ hk _ h => absurd (reach_root hn hf ▸ hp _ hk) h

theorem dirsFull_root : DirsFull m := by
  intro d hd _ k hk
  rw [reach_root hn hd, hn] at hk
  omega

theorem parent_root {d : Nat} {elems : List (List (BitVec 8))} (h : Parent m sRoot elems d name) :
    d = sRoot := by
  cases h
  case last => rfl
  case step he _ =>
    obtain ⟨k, j, hk, -⟩ := he
    exact absurd hk (not_holds_root hn)

theorem createClean_root (hg : GrowClean m sRoot) : CreateClean m path := by
  refine ⟨dirsFull_root hn, fun d name hp => ?_⟩
  rw [parent_root hn hp]
  refine ⟨fun s hs => ?_, hg⟩
  obtain ⟨k, j, hk, -⟩ := hs
  exact absurd hk (not_holds_root hn)

end Empty

namespace Sample

theorem ofBytes_eq_zero {bytes : List (Nat × BitVec 8)} {n x : Nat} (h : ∀ p ∈ bytes, p.1 < n)
    (hx : n ≤ x) : ofBytes bytes x = 0#8 := by
  have hl : bytes.lookup x = none := by
    rw [List.lookup_eq_none_iff]
    intro p hp
    have := h p hp
    simp only [bne_iff_ne, ne_eq]
    omega
  rw [ofBytes, hl]
  rfl

theorem blockInv_blank : BlockInv blank :=
  blockInv_root (by decide +kernel) ⟨by decide +kernel, by decide +kernel⟩ (by decide +kernel)

theorem blockInv_stale : BlockInv stale :=
  blockInv_root (by decide +kernel) ⟨by decide +kernel, by decide +kernel⟩ (by decide +kernel)

theorem createClean_blank : CreateClean blank path := by
  refine createClean_root (by decide) fun _ _ => ⟨fun h => ?_, fun _ b hb x hx => ?_⟩
  · exact absurd (by decide) h
  · rw [NewBlock, if_neg (by decide)] at hb
    have hlt : 3 ≤ b := by
      by_contra hc
      have hfree : ∀ c < 3, blockIsFree blank c = false := by decide
      have hb : blockIsFree blank b = true := hb.1
      rw [hfree b (by omega)] at hb
      cases hb
    refine ofBytes_eq_zero (n := 12288) (by decide) ?_
    simp only [InBlock, BLKSIZE] at hx
    omega

end Sample

-- A file is created in an empty directory, and the server is left with the new file.
theorem block_ownership_create : ∃ s : Server, s.files = [12288] ∧ BlockInv s.mem := by
  have hx : ((Call.create Sample.pathX).prog Sample.blank).okAnd fun fs _ => fs = [12288] := by
    decide
  obtain ⟨fs, m', hx, hfs⟩ := Outcome.exists_of_okAnd hx
  have hfs : fs = [12288] := by simpa using hfs
  subst hfs
  have hs : Server.Step ⟨Sample.blank, []⟩ (.create Sample.pathX) ⟨m', [12288]⟩ :=
    ⟨trivial, .inr ⟨_, hx, rfl⟩⟩
  have hr : Run Server.Step (fun s c => c.Clean s.mem) ⟨Sample.blank, []⟩ ⟨m', [12288]⟩ :=
    .single (show (Call.create Sample.pathX).Clean Sample.blank from Sample.createClean_blank) hs
  exact ⟨_, rfl, block_ownership Sample.blockInv_blank rfl hr⟩

-- Old data of a free block becomes entries of the root directory.
theorem not_block_ownership : ¬∀ {s₀ s : Server}, BlockInv s₀.mem → s₀.files = [] →
    Run Server.Step (fun _ _ => True) s₀ s → BlockInv s.mem := by
  intro h
  have hx : ((Call.create Sample.pathX).prog Sample.stale).okAnd fun _ m' =>
      m'.load32 (fType sRoot) = FTYPE_DIR && nblock m' sRoot = 1 && ptr m' sRoot 0 = 3#32 &&
        m' 12544 = 0x7A#8 && ptr m' 12544 0 = 1#32 && sNblocks m' = 8 := by
    decide
  obtain ⟨fs, m', hx, hm⟩ := Outcome.exists_of_okAnd hx
  simp only [Bool.and_eq_true, decide_eq_true_iff] at hm
  obtain ⟨⟨⟨⟨⟨hdir, hn⟩, hp⟩, hz⟩, hq⟩, -⟩ := hm
  have hs : Server.Step ⟨Sample.stale, []⟩ (.create Sample.pathX) ⟨m', fs ++ []⟩ :=
    ⟨trivial, .inr ⟨_, hx, rfl⟩⟩
  have hinv : BlockInv m' := h Sample.blockInv_stale rfl (.single trivial hs)
  have hslot : slot m' sRoot 0 1 = 12544 := by
    rw [slot, hp]
    rfl
  have hr : Reach m' 12544 := by
    have := Reach.entry (m := m') (d := sRoot) (k := 0) (j := 1) .root hdir
      ⟨by omega, by decide, by rw [hp]; decide⟩ (by decide) (by rw [hslot, hz]; decide)
    rwa [hslot] at this
  have hv := (hinv.valid hr (Nat.zero_le _) (by rw [hq]; decide)).1
  rw [hq] at hv
  have := two_le_bitmapEnd m'
  have h₁ : (1#32).toNat = 1 := by decide
  omega

end Fs

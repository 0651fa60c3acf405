import Sisop.Fs.Theorems.Confined

namespace Fs

open Inc Library

variable {m m' m₁ : Memory} {f d k : Nat} {count offset size : Word} {buf : Nat → BitVec 8}

section Regular

variable (h : BlockInv m) (hf : Reach m f) (hd : ¬isDir m f)

include h hf hd

theorem Regular.refl : Regular m f m :=
  ⟨h.owned, h.apart hf hd, rfl, fun _ _ _ _ _ => rfl, fun _ _ _ => rfl⟩

omit h hf hd in
theorem Reads.regular (r : Reads {f | Reach m f} m f m') : Regular m f m' where
  owned   := r.owned
  apart   := r.apart
  nblocks := r.grown.nblocks
  ptrs    := fun g hg hgf k hk => (r.grown.ptrs g hg k hk).resolve_right fun hc => hgf hc.1
  bytes   := fun x _ hx => r.grown.bytes x (fun hc => hx (.inr (.inr hc))) id

theorem read_regular (hpos : offset.toNat < 2147483648) :
    (fileRead f count offset).wp True (fun _ m' => Regular m f m') (fun _ m' => Regular m f m')
      m := by
  rw [fileRead, Prog.wp_bind, Prog.wp_get, Prog.wp_ite]
  refine ⟨fun _ => .refl h hf hd, fun _ => ?_⟩
  rw [Prog.wp_bind]
  refine (readLoop_wp h.owned (h.apart hf hd) hf hpos ?_).mono (fun _ => trivial)
    (fun _ _ r => r.1.regular) fun _ _ r => r.1.regular
  have := (offset + umin count (m.load32 (fSize f) - offset)).isLt
  rw [fuel, BitVec.toNat_sub]
  omega

theorem setSize_regular : (fileSetSize f size).wp False (fun _ _ => False)
    (fun _ m' => Regular m f m' ∧ ∀ x, ¬Own m f x → m' x = m x) m := by
  refine (fileSetSize_wp h.owned hf (h.apart hf hd)).mono id (fun _ _ h => h) ?_
  rintro _ m' ⟨o, hap, -, m₁, rfl, o₁, hs, -⟩
  have hb (x : Nat) (hx : ¬Own m f x) : m₁.store32 (fSize f) size x = m x := by
    rw [Memory.store32_of_not_mem, hs.bytes x fun hc => hx (.inr (.inr hc))]
    by_contra hc
    exact hx (.inr (.inl (by simp only [InSize]; omega)))
  have hreg : bitmapEnd m₁ * BLKSIZE ≤ fSize f ∨ super + 8 ≤ fSize f ∧ fSize f + 4 ≤ bitmap := by
    rw [bitmapEnd_congr hs.nblocks]
    exact size_region h.owned hf
  refine ⟨⟨o, hap, (sNblocks_write hreg).trans hs.nblocks, fun g hg hgf k hk => ?_,
    fun x hx _ => hb x hx⟩, hb⟩
  rw [ptr_store_size hk o₁ hf hg]
  exact (hs.ptrs g hg k hk).resolve_right fun hc => hgf hc.1

omit h hf hd in
-- The writes to a file after its size has been set.
theorem Regular.writes {X : Nat → Prop} (r : Regular m f m₁) (hb : ∀ x, ¬Own m f x → m₁ x = m x)
    (w : Writes {f | Reach m f} X m₁ f m') (hX : ∀ x, X x → Data m' f x) : Regular m f m' := by
  refine ⟨w.owned, w.apart, w.grown.nblocks.trans r.nblocks, fun g hg hgf k hk => ?_,
    fun x hx hx' => ?_⟩
  · rw [(w.grown.ptrs g hg k hk).resolve_right fun hc => hgf hc.1]
    exact r.ptrs g hg hgf k hk
  · rw [w.grown.bytes x (fun hc => hx' (.inr (.inr hc))) fun hc => hx' (.inl (hX x hc))]
    exact hb x hx

theorem write_regular (hpos : offset.toNat < 2147483648) :
    (fileWrite f buf count offset).wp True (fun _ m' => Regular m f m') (fun _ m' => Regular m f m')
      m := by
  have hsize : (if m.load32 (fSize f) < offset + count then fileSetSize f (offset + count)
      else pure () : FsProg Unit).wp False (fun _ _ => False)
      (fun _ m' => Regular m f m' ∧ ∀ x, ¬Own m f x → m' x = m x) m := by
    rw [Prog.wp_ite]
    exact ⟨fun _ => setSize_regular h hf hd, fun _ => ⟨.refl h hf hd, fun _ _ => rfl⟩⟩
  have he : (fileWrite f buf count offset).wp True (fun _ m' => Regular m f m')
      (fun _ m' => Regular m f m') m ↔
      ((if m.load32 (fSize f) < offset + count then fileSetSize f (offset + count) else pure ()) >>=
        fun _ => writeLoop f (offset + count) (fuel (offset + count) offset) buf offset >>=
          fun cs => pure (count, cs) : FsProg _).wp True (fun _ m' => Regular m f m')
        (fun _ m' => Regular m f m') m := by
    rw [Prog.wp, fileWrite_eq, Prog.wp]
  rw [he, Prog.wp_bind]
  refine hsize.mono (fun _ => trivial) (fun _ _ h => h.elim) fun _ m₁ h₁ => ?_
  rw [Prog.wp_bind]
  refine (writeLoop_wp h₁.1.owned h₁.1.apart hf hpos ?_).mono (fun _ => trivial) ?_ ?_
  · have := (offset + count).isLt
    rw [fuel, BitVec.toNat_sub]
    omega
  · exact fun _ m' w => h₁.1.writes h₁.2 w.1 fun _ => id
  · exact fun cs m' w => h₁.1.writes h₁.2 w.1 fun _ => Span.data

end Regular

end Fs

import Sisop.Fs.Theorems.Bc
import Sisop.Library.Run

-- The block cache is coherent with the disk.

namespace Fs.Bc

open Inc Library Function Cache

-- What happens to the disk map, apart from page faults.
inductive Op
  | read (a : Nat)
  | write (a : Nat) (v : BitVec 8)
  | flush (a : Nat)
  | clearIndirect (b : Nat)
  | sync

namespace Op

-- The byte is the result of a read.
def exec (n : Nat) : Op → BcProg (BitVec 8)
  | read a          => load (touch n) a
  | write a v       => do
    store (touch n) a v
    pure 0
  | flush a         => do
    flushBlock a
    pure 0
  | clearIndirect b => do
    Bc.clearIndirect n b
    pure 0
  | sync            => do
    fsSync n
    pure 0

-- The bytes that were last written, after the operation.
def effect (m : Memory) : Op → Memory
  | write a v       => m.write a 1 fun _ => v
  | clearIndirect b => m.memset (b * BLKSIZE) BLKSIZE 0
  | _               => m

-- An operation on blocks that exist and, where it reads or writes, are in use. The block of the super
-- block is never allocated.
def Valid (m : Memory) : Op → Prop
  | read a          => a / BLKSIZE < sNblocks m ∧ Fs.blockIsFree m (a / BLKSIZE) = false
  | write a _       => a / BLKSIZE < sNblocks m ∧ Fs.blockIsFree m (a / BLKSIZE) = false
  | flush a         => a < DISKSIZE
  | clearIndirect b => 1 < b ∧ b < sNblocks m
  | sync            => True

end Op

variable {s s' : Cache} {m : Memory} {a b n k i : Nat} {v : BitVec 8} {op : Op}

section Touch

-- An access that returns has brought in pages only, whatever the bitmap says.
theorem touch_wp (h : s.vaIsMapped super = true) :
    (touch n a).wp True (fun _ _ => False) (fun _ s' => Touched s s' ∧ s'.vaIsMapped a = true) s := by
  induction n generalizing s a
  case zero =>
    cases hm : s.vaIsMapped a
    case true  => exact (touch_mapped hm).mpr ⟨.refl, hm⟩
    case false => simp [touch, hm]
  case succ n hi =>
    cases hm : s.vaIsMapped a
    case true  => exact (touch_mapped hm).mpr ⟨.refl, hm⟩
    case false =>
      have ht : Touched s (s.loaded (a / BLKSIZE)) :=
        loaded_touched ((vaIsMapped_congr (Nat.mul_div_cancel _ (by decide))).trans hm)
      have hm' : (s.loaded (a / BLKSIZE)).vaIsMapped a = true := by
        rw [loaded_vaIsMapped, decide_eq_true rfl, Bool.true_or]
      rw [touch, Prog.wp_bind, Prog.wp_get, hm, if_neg Bool.false_ne_true, bcPgfault]
      rw [Prog.wp_ite]
      refine ⟨fun _ => trivial, fun _ => ?_⟩
      rw [Prog.wp_bind, load_super h, Prog.wp_ite]
      refine ⟨fun _ => trivial, fun _ => ?_⟩
      simp only [Prog.wp_bind, Prog.wp_modify]
      have hsup : (s.loaded (a / BLKSIZE)).vaIsMapped super = true := ht.mapped h
      have hfree : (blockIsFree (touch n) (a / BLKSIZE)).wp True (fun _ _ => False)
          (fun _ s' => Touched (s.loaded (a / BLKSIZE)) s') (s.loaded (a / BLKSIZE)) := by
        rw [blockIsFree, Prog.wp_bind, load_super hsup, Prog.wp_ite]
        refine ⟨fun _ => .refl, fun _ => ?_⟩
        rw [Prog.wp_bind, load32, Prog.wp_bind]
        exact Prog.wp.mono (hi hsup) id (fun _ _ => id) fun _ _ ht => ht.left
      refine Prog.wp.mono hfree id (fun _ _ => id) fun x s' t => ?_
      rw [Prog.wp_ite]
      exact ⟨fun _ => trivial, fun _ => ⟨ht.trans t, t.mapped hm'⟩⟩

end Touch

section Rules

-- The cache is in order, and what the server sees is `m`.
structure Sees (m : Memory) (s : Cache) : Prop where
  mapped   : s.vaIsMapped super = true
  coherent : s.Coherent
  view     : s.view = m

theorem Sees.touched (h : Sees m s) (t : Touched s s') : Sees m s' :=
  ⟨t.mapped h.mapped, t.coherent h.coherent, t.view.trans h.view⟩

theorem Sees.flushed (h : Sees m s) : Sees m (s.flushed b) where
  mapped := by
    rw [flushed_vaIsMapped]
    exact h.mapped
  coherent := flushed_coherent h.coherent
  view := flushed_view.trans h.view

theorem Sees.stored {src : Nat → BitVec 8} (h : Sees m s) (hm : s.vaIsMapped a = true)
    (hab : ∀ x, a ≤ x → x < a + n → x / BLKSIZE = a / BLKSIZE) :
    Sees (m.write a n src) (s.stored (a / BLKSIZE) a n src) where
  mapped := by
    rw [stored_vaIsMapped]
    exact h.mapped
  coherent := stored_coherent h.coherent hab
  view := by rw [stored_view hm hab, h.view]

-- The fresh page may differ from the disk without being dirty until it is overwritten.
theorem Sees.replaced (h : Sees m s) : Sees (m.memset (b * BLKSIZE) BLKSIZE 0)
    ((s.pageAlloc b).stored b (b * BLKSIZE) BLKSIZE fun _ => 0#8) := by
  have hin (x : Nat) : (b * BLKSIZE ≤ x ∧ x < b * BLKSIZE + BLKSIZE) ↔ x / BLKSIZE = b := by
    rw [BLKSIZE]
    omega
  have hmap (x : Nat) : (s.pageAlloc b).vaIsMapped x = (x / BLKSIZE = b || s.vaIsMapped x) := by
    by_cases hx : x / BLKSIZE = b
    · simp only [vaIsMapped, pageAlloc, hx, update_self, decide_true, Bool.true_or]
      decide
    · simp [vaIsMapped, pageAlloc, hx]
  have hmem (x : Nat) : ((s.pageAlloc b).stored b (b * BLKSIZE) BLKSIZE fun _ => 0#8).mem x =
      if x / BLKSIZE = b then 0#8 else s.mem x := by
    have hp : (s.pageAlloc b).mem = s.mem.memset (b * BLKSIZE) BLKSIZE 0 := rfl
    rw [stored_mem, Memory.write]
    by_cases hx : x / BLKSIZE = b
    · rw [if_pos ((hin x).mpr hx), if_pos hx]
    · have hn : x < b * BLKSIZE ∨ b * BLKSIZE + BLKSIZE ≤ x := by
        have := (hin x).not.mpr hx
        omega
      rw [if_neg ((hin x).not.mpr hx), if_neg hx, hp, Memory.memset_of_not_mem hn]
  constructor
  case mapped =>
    rw [stored_vaIsMapped, hmap, h.mapped, Bool.or_true]
  case coherent =>
    intro x hm hd
    rw [stored_vaIsMapped, hmap] at hm
    rw [stored_vaIsDirty, Bool.or_eq_false_iff, decide_eq_false_iff_not] at hd
    rw [decide_eq_false hd.1, Bool.false_or] at hm
    rw [hmem, if_neg hd.1]
    refine h.coherent x hm ?_
    have hp : (s.pageAlloc b).vaIsDirty x = s.vaIsDirty x := by simp [vaIsDirty, pageAlloc, hd.1]
    exact hp ▸ hd.2
  case view =>
    funext x
    rw [Cache.view, stored_vaIsMapped, hmap, hmem, stored_disk, Memory.memset, Memory.write, ← h.view]
    by_cases hx : x / BLKSIZE = b
    · rw [decide_eq_true hx, Bool.true_or, if_pos rfl, if_pos hx, if_pos ((hin x).mpr hx)]
      rfl
    · rw [decide_eq_false hx, Bool.false_or, if_neg hx, if_neg ((hin x).not.mpr hx)]
      rfl

theorem diskaddr_wp {E : Nat → Cache → Prop} {Q : Nat → Cache → Prop}
    (hs : s.vaIsMapped super = true) (h : 0 < b → b < sNblocks s.view → Q (b * BLKSIZE) s) :
    (diskaddr (touch n) b).wp True E Q s := by
  have hn : (s.view.load32 (super + 4)).toNat = sNblocks s.view := rfl
  rw [diskaddr, Prog.wp_bind, load_super hs, Prog.wp_ite, hn]
  exact ⟨fun _ => trivial, fun hc => h (by omega) (by omega)⟩

theorem flushBlock_weak {E : Nat → Cache → Prop} {Q : Unit → Cache → Prop}
    (h : Q () (s.flushed (a / BLKSIZE))) : (flushBlock a).wp True E Q s := by
  by_cases ha : a < DISKSIZE
  · exact (flushBlock_wp ha).mpr h
  · rw [flushBlock]
    simp only [if_pos (Nat.not_lt.mp ha), Prog.wp_panic]

theorem Sees.clearIndirect (h : Sees m s) : (clearIndirect n b).wp True (fun _ _ => False)
    (fun _ s' => Sees (m.memset (b * BLKSIZE) BLKSIZE 0) s') s := by
  have hd : b * BLKSIZE / BLKSIZE = b := Nat.mul_div_cancel _ (by decide)
  have hs : (s.pageAlloc b).vaIsMapped super = true := by
    have := (@Sees.replaced s m b h).mapped
    rwa [stored_vaIsMapped] at this
  have hr := @Sees.replaced s m b h
  rw [Bc.clearIndirect, Prog.wp_bind]
  refine diskaddr_wp h.mapped fun _ _ => ?_
  rw [Prog.wp_bind, Prog.wp_modify, Prog.wp_bind, hd]
  refine diskaddr_wp hs fun _ _ => ?_
  rw [Prog.wp_bind, Prog.wp_modify, Prog.wp_bind, hd]
  refine diskaddr_wp hr.mapped fun _ _ => flushBlock_weak ?_
  exact hr.flushed

-- The blocks below `i` that `fs_sync` has passed are on the disk.
def Synced (m : Memory) (i : Nat) (s : Cache) : Prop :=
  ∀ x, 1 ≤ x / BLKSIZE → x / BLKSIZE < i → s.disk x = m x

theorem Sees.flushed_disk (h : Sees m s) {x : Nat} (hx : x / BLKSIZE = b ∨ s.disk x = m x) :
    (s.flushed b).disk x = m x := by
  rw [Cache.flushed_disk, ← h.view]
  cases hm : s.vaIsMapped x
  case false =>
    rw [if_neg (fun hc => Bool.false_ne_true hc.2.1), view_of_not_mapped hm]
  case true =>
    rw [view_of_mapped hm]
    cases hd : s.vaIsDirty x
    case false =>
      rw [if_neg (fun hc => Bool.false_ne_true hc.2.2)]
      exact (h.coherent x hm hd).symm
    case true =>
      by_cases hb : x / BLKSIZE = b
      · rw [if_pos ⟨hb, rfl, rfl⟩]
      · rw [if_neg fun hc => hb hc.1, hx.resolve_left hb, ← h.view, view_of_mapped hm]

theorem Sees.syncFrom (h : Sees m s) (hi : Synced m i s) : (syncFrom n k i).wp True (fun _ _ => False)
    (fun _ s' => Sees m s' ∧ Synced m (i + k) s') s := by
  induction k generalizing i s
  case zero => exact ⟨h, hi⟩
  case succ k ih =>
    have hd : i * BLKSIZE / BLKSIZE = i := Nat.mul_div_cancel _ (by decide)
    rw [Bc.syncFrom, Prog.wp_bind]
    refine diskaddr_wp h.mapped fun _ _ => ?_
    rw [Prog.wp_bind]
    refine flushBlock_weak ?_
    rw [hd]
    have hs : Synced m (i + 1) (s.flushed i) := by
      intro x h₁ h₂
      refine h.flushed_disk ?_
      by_cases hx : x / BLKSIZE = i
      · exact .inl hx
      · exact .inr (hi x h₁ (by omega))
    have := ih h.flushed hs
    rwa [Nat.add_assoc, Nat.add_comm 1 k] at this

theorem Sees.fsSync (h : Sees m s) : (fsSync n).wp True (fun _ _ => False)
    (fun _ s' => Sees m s' ∧ Synced m (sNblocks m) s') s := by
  have hn : (s.view.load32 (super + 4)).toNat = sNblocks m := by rw [h.view, sNblocks]
  rw [Bc.fsSync, Prog.wp_bind, load_super h.mapped, hn]
  refine Prog.wp.mono (h.syncFrom fun x h₁ h₂ => absurd h₁ (by omega)) id (fun _ _ => id)
    fun _ _ hs => ⟨hs.left, fun x h₁ h₂ => hs.right x h₁ ?_⟩
  omega

-- What one operation does.
theorem Sees.exec (h : Sees m s) : (op.exec n).wp True (fun _ _ => False) (fun x s' =>
    Sees (op.effect m) s' ∧ (∀ a, op = .read a → x = m a) ∧
      (op = .sync → Synced m (sNblocks m) s')) s := by
  cases op
  case read a =>
    rw [Op.exec, load, Prog.wp_bind]
    refine Prog.wp.mono (touch_wp h.mapped) id (fun _ _ => id) fun _ s' h => ?_
    obtain ⟨t, hm⟩ := h
    rw [Prog.wp_bind, Prog.wp_get, Prog.wp_pure]
    refine ⟨h.touched t, fun a' ha => ?_, nofun⟩
    cases ha
    rw [← view_of_mapped hm, t.view, h.view]
  case write a v =>
    rw [Op.exec, store, Prog.wp_bind, Prog.wp_bind]
    refine Prog.wp.mono (touch_wp h.mapped) id (fun _ _ => id) fun _ s' h => ?_
    obtain ⟨t, hm⟩ := h
    rw [Prog.wp_modify, Prog.wp_pure]
    have hs : Sees (m.write a 1 fun _ => v) (s'.stored (a / BLKSIZE) a 1 fun _ => v) :=
      (h.touched t).stored hm fun x h₁ h₂ => by rw [show x = a by omega]
    exact ⟨hs, nofun, nofun⟩
  case flush a =>
    rw [Op.exec, Prog.wp_bind]
    exact flushBlock_weak ⟨h.flushed, nofun, nofun⟩
  case clearIndirect b =>
    rw [Op.exec, Prog.wp_bind]
    exact Prog.wp.mono h.clearIndirect id (fun _ _ => id) fun _ s' hs => ⟨hs, nofun, nofun⟩
  case sync =>
    rw [Op.exec, Prog.wp_bind]
    exact Prog.wp.mono h.fsSync id (fun _ _ => id) fun _ s' hs => ⟨hs.1, nofun, fun _ => hs.2⟩

end Rules

section Total

theorem Ready.congr (r : Ready s) (hm : s'.vaIsMapped super = true) (hv : s'.view = s.view) :
    Ready s' :=
  ⟨hm, hv ▸ r.le, hv ▸ r.two, hv ▸ r.used⟩

theorem Ready.flushed (r : Ready s) : Ready (s.flushed b) :=
  r.congr (by rw [flushed_vaIsMapped]; exact r.mapped) flushed_view

theorem diskaddr_total {E : Nat → Cache → Prop} {Q : Nat → Cache → Prop}
    (hs : s.vaIsMapped super = true) (h₀ : 0 < b) (hb : b < sNblocks s.view) (h : Q (b * BLKSIZE) s) :
    (diskaddr (touch n) b).wp False E Q s := by
  have hn : (s.view.load32 (super + 4)).toNat = sNblocks s.view := rfl
  rw [diskaddr, Prog.wp_bind, load_super hs, Prog.wp_ite, hn]
  exact ⟨fun hc => by omega, fun _ => h⟩

theorem block_lt (r : Ready s) (hb : b < sNblocks s.view) : b * BLKSIZE < DISKSIZE := by
  have hle := r.le
  rw [DISKSIZE, BLKSIZE] at *
  omega

theorem syncFrom_total (r : Ready s) (hi : 1 ≤ i) (hk : i + k ≤ sNblocks s.view) :
    (syncFrom n k i).wp False (fun _ _ => False) (fun _ _ => True) s := by
  induction k generalizing i s
  case zero => trivial
  case succ k ih =>
    have hlt : i < sNblocks s.view := by omega
    rw [syncFrom, Prog.wp_bind]
    refine diskaddr_total r.mapped hi hlt ?_
    rw [Prog.wp_bind, flushBlock_wp (block_lt r hlt)]
    exact ih r.flushed (by omega) (by rw [flushed_view]; omega)

-- The super block is not changed by what happens to another block.
theorem sNblocks_congr {m m' : Memory} (h : ∀ x, x / BLKSIZE = 1 → m' x = m x) :
    sNblocks m' = sNblocks m := by
  rw [sNblocks, sNblocks]
  refine congrArg _ (Memory.load32_congr fun x h₁ h₂ => h x ?_)
  rw [super, BLKSIZE] at *
  omega

theorem pageAlloc_view {x : Nat} (hx : x / BLKSIZE ≠ b) : (s.pageAlloc b).view x = s.view x := by
  have hm : (s.pageAlloc b).vaIsMapped x = s.vaIsMapped x := by simp [vaIsMapped, pageAlloc, hx]
  have hp : (s.pageAlloc b).mem = s.mem.memset (b * BLKSIZE) BLKSIZE 0 := rfl
  have hn : x < b * BLKSIZE ∨ b * BLKSIZE + BLKSIZE ≤ x := by
    rw [BLKSIZE] at *
    omega
  rw [view, view, hm, hp, Memory.memset_of_not_mem hn]
  rfl

theorem clearIndirect_total (r : Ready s) (hb : 1 < b) (hlt : b < sNblocks s.view) :
    (clearIndirect n b).wp False (fun _ _ => False) (fun _ _ => True) s := by
  have hd : b * BLKSIZE / BLKSIZE = b := Nat.mul_div_cancel _ (by decide)
  have h₁ (x : Nat) (hx : x / BLKSIZE = 1) : (s.pageAlloc b).view x = s.view x :=
    pageAlloc_view (by omega)
  have hn₁ : sNblocks (s.pageAlloc b).view = sNblocks s.view := sNblocks_congr h₁
  have hm₁ : (s.pageAlloc b).vaIsMapped super = true := by
    have hne : super / BLKSIZE ≠ b := by
      have hs : super / BLKSIZE = 1 := rfl
      omega
    rw [← r.mapped]
    simp [vaIsMapped, pageAlloc, hne]
  have hp : (s.pageAlloc b).vaIsMapped (b * BLKSIZE) = true := by
    simp only [vaIsMapped, pageAlloc, hd, update_self]
    decide
  have hv₂ : ((s.pageAlloc b).stored b (b * BLKSIZE) BLKSIZE fun _ => 0#8).view =
      (s.pageAlloc b).view.write (b * BLKSIZE) BLKSIZE fun _ => 0#8 := by
    have := @stored_view (s.pageAlloc b) (b * BLKSIZE) BLKSIZE (fun _ => 0#8) hp fun x h₁ h₂ => by
      rw [BLKSIZE] at *
      omega
    rwa [hd] at this
  have hn₂ : sNblocks ((s.pageAlloc b).stored b (b * BLKSIZE) BLKSIZE fun _ => 0#8).view =
      sNblocks s.view := by
    rw [hv₂, ← hn₁]
    refine sNblocks_congr fun x hx => Memory.write_of_not_mem ?_
    rw [BLKSIZE] at *
    omega
  have hm₂ : ((s.pageAlloc b).stored b (b * BLKSIZE) BLKSIZE fun _ => 0#8).vaIsMapped super = true := by
    rw [stored_vaIsMapped]
    exact hm₁
  rw [clearIndirect, Prog.wp_bind]
  refine diskaddr_total r.mapped (by omega) hlt ?_
  rw [Prog.wp_bind, Prog.wp_modify, Prog.wp_bind, hd]
  refine diskaddr_total hm₁ (by omega) (hn₁ ▸ hlt) ?_
  rw [Prog.wp_bind, Prog.wp_modify, Prog.wp_bind, hd]
  refine diskaddr_total hm₂ (by omega) (hn₂ ▸ hlt) ?_
  exact (flushBlock_wp (block_lt r hlt)).mpr trivial

-- Valid operations return.
theorem exec_total (r : Ready s) (hv : op.Valid s.view) :
    (op.exec (n + 3)).wp False (fun _ _ => False) (fun _ _ => True) s := by
  cases op
  case read a =>
    rw [Op.exec, load, Prog.wp_bind]
    exact Prog.wp.mono (serves r hv.1 hv.2) id (fun _ _ => id) fun _ _ _ => trivial
  case write a v =>
    rw [Op.exec, store, Prog.wp_bind, Prog.wp_bind]
    exact Prog.wp.mono (serves r hv.1 hv.2) id (fun _ _ => id) fun _ _ _ => trivial
  case flush a =>
    rw [Op.exec, Prog.wp_bind]
    exact (flushBlock_wp hv).mpr trivial
  case clearIndirect b =>
    rw [Op.exec, Prog.wp_bind]
    exact Prog.wp.mono (clearIndirect_total r hv.1 hv.2) id (fun _ _ => id) fun _ _ _ => trivial
  case sync =>
    have hn : (s.view.load32 (super + 4)).toNat = sNblocks s.view := rfl
    have htwo := r.two
    rw [Op.exec, Prog.wp_bind, fsSync, Prog.wp_bind, load_super r.mapped, hn]
    exact Prog.wp.mono (syncFrom_total r le_rfl (by omega)) id (fun _ _ => id) fun _ _ _ => trivial

end Total

section Runs

-- The cache, with the bytes that were last written, or those of the disk at the start.
structure Traced where
  cache : Cache
  last  : Memory

-- An operation that returns `x`. There is room for three page faults on the exception stack: the block
-- of the access, the bitmap block for it, and the bitmap block for that.
structure Step (n : Nat) (t : Traced) (ev : Op × BitVec 8) (t' : Traced) : Prop where
  exec : ev.1.exec (n + 3) t.cache = .ok ev.2 t'.cache
  last : t'.last = ev.1.effect t.last

-- The super block has been read, and nothing has been written.
structure Started (t : Traced) : Prop where
  mapped : t.cache.vaIsMapped super = true
  clean  : ∀ a, t.cache.vaIsMapped a = true → t.cache.mem a = t.cache.disk a
  last   : t.last = t.cache.disk

structure Kept (n : Nat) (t : Traced) : Prop where
  coherent : t.cache.Coherent
  read     : ∀ {a x t'}, Step n t (.read a, x) t' → x = t.last a
  sync     : ∀ {x t'}, Step n t (.sync, x) t' → ∀ a, 1 ≤ a / BLKSIZE →
    a / BLKSIZE < sNblocks t.last → t'.cache.disk a = t'.cache.view a
  returns  : Ready t.cache → ∀ op, op.Valid t.last → ∃ x t', Step n t (op, x) t'

variable {t t' t₀ : Traced} {ev : Op × BitVec 8}

theorem Started.sees (h : Started t) : Sees t.last t.cache := by
  refine ⟨h.mapped, fun a hm _ => h.clean a hm, ?_⟩
  rw [h.last]
  funext a
  cases hm : t.cache.vaIsMapped a
  case true  => rw [view_of_mapped hm, h.clean a hm]
  case false => exact view_of_not_mapped hm

theorem Step.sees (h : Sees t.last t.cache) (hs : Step n t ev t') : Sees t'.last t'.cache := by
  rw [hs.last]
  exact (Prog.wp.ok h.exec hs.exec).1

theorem Sees.kept (h : Sees t.last t.cache) : Kept n t where
  coherent := h.coherent
  read     := fun hs => (Prog.wp.ok h.exec hs.exec).2.1 _ rfl
  sync     := by
    intro x t' hs a h₁ h₂
    have hx := Prog.wp.ok h.exec hs.exec
    have hv : t'.cache.view = t.last := hx.1.view
    rw [hx.2.2 rfl a h₁ h₂, hv]
  returns  := by
    intro r op hv
    obtain ⟨x, s', hx, _⟩ := Prog.wp.exists_ok (exec_total (n := n) r (h.view ▸ hv))
    exact ⟨x, ⟨s', op.effect t.last⟩, hx, rfl⟩

theorem cache_coherent (h : Started t₀) (r : Run (Step n) (fun _ _ => True) t₀ t) : Kept n t := by
  have hs : Sees t.last t.cache := r.invariant h.sees fun hi _ hs => hs.sees hi
  exact hs.kept

-- A byte is written to block 4 of a small disk, and read.
theorem cache_coherent_small : ∃ t, t.last 16384 = 7#8 ∧ Kept 0 t := by
  have h₀ : Started ⟨Sample.small, Sample.small.disk⟩ := ⟨by decide, fun _ _ => rfl, rfl⟩
  have r := Sample.ready_small
  have hv : (Op.write 16384 7#8).Valid Sample.small.disk := by
    have hd : Sample.small.disk = Sample.small.view := Sample.cache_view.symm
    refine ⟨?_, ?_⟩
    · rw [hd, Sample.small, Sample.cache_view, Sample.disk_nblocks le_rfl]
      decide
    · decide
  obtain ⟨x, t, hs⟩ := (cache_coherent (n := 0) h₀ .refl).returns r _ hv
  refine ⟨t, ?_, cache_coherent h₀ (.single trivial hs)⟩
  rw [hs.last]
  rfl

end Runs

end Fs.Bc

import Sisop.Lib.Spawn

namespace Lib.Spawn

open Library

variable {alloc map : Int} {argv l pre : List (List Byte)} {arg bs : List Byte} {a k n p v x : Nat}
  {m page : Memory} {s s' : State}

section Constants

theorem PGSIZE_eq : PGSIZE = 4096 := rfl
theorem UTEMP_eq : UTEMP = 4194304 := rfl
theorem UTOP_eq : UTOP = 4005560320 := rfl

end Constants

-- The strings, the pointers to them with the null pointer, and two words fit into one page.
def Fits (argv : List (List Byte)) : Prop := total argv + 4 * (argv.length + 1) + 8 ≤ PGSIZE

-- The comparison of pointers that `init_stack` makes, in 32 bits.
def Refused (argv : List (List Byte)) : Prop :=
  sub (sub (ROUNDDOWN (sub (UTEMP + PGSIZE) (total argv % 2 ^ 32)) 4) (4 * (argv.length + 1) % 2 ^ 32)) 8 <
    UTEMP

-- The page below `USTACKTOP`.
def STACK : Nat := USTACKTOP - PGSIZE

theorem STACK_eq : STACK = 4005548032 := rfl

-- A page which, placed below `USTACKTOP`, has the arguments of the program at `esp`.
structure Laid (argv : List (List Byte)) (page : Memory) (init_esp v : Nat) : Prop where
  esp  : STACK ≤ init_esp ∧ init_esp + 8 ≤ USTACKTOP
  argc : page.load32 (init_esp - STACK) = BitVec.ofNat 32 argv.length
  ptr  : page.load32 (init_esp + 4 - STACK) = BitVec.ofNat 32 v
  room : STACK ≤ v ∧ v + 4 * (argv.length + 1) ≤ USTACKTOP
  args : ∀ i (h : i < argv.length), ∃ p, page.load32 (v + 4 * i - STACK) = BitVec.ofNat 32 p ∧
    STACK ≤ p ∧ p + argv[i].length < USTACKTOP ∧ page.strEq (p - STACK) argv[i]
  null : page.load32 (v + 4 * argv.length - STACK) = 0

-- What `init_stack` should do: it stores nothing outside of the page, it refuses what does not fit, and
-- otherwise the child has its stack, unless the kernel has failed.
def StackFaithful (alloc map : Int) (argv : List (List Byte)) (s : State) : Prop :=
  (init_stack alloc map argv).wp False
    (fun e s' => s'.stray = [] ∧ e < 0 ∧ (Fits argv → alloc < 0 ∨ map < 0) ∧ (¬Fits argv → e = -E_NO_MEM))
    (fun esp s' => s'.stray = [] ∧ Fits argv ∧ ∃ page v,
      s'.child.pages (STACK / PGSIZE) = some ⟨page, PTE_P + PTE_U + PTE_W⟩ ∧ Laid argv page esp v) s

section Space

variable {y : Space} {z : Option Mapping} {q : Nat}

theorem Space.set_self (h : p < UTOP / PGSIZE) : (y.set p z).pages p = z := if_pos ⟨rfl, h⟩

theorem Space.set_ne (h : q ≠ p) : (y.set p z).pages q = y.pages q := if_neg fun he => h he.1

theorem UTEMP_lt : UTEMP / PGSIZE < UTOP / PGSIZE := by decide

theorem STACK_lt : STACK / PGSIZE < UTOP / PGSIZE := by decide

@[simp] theorem setParent_stray : (s.setParent p z).stray = s.stray := rfl

@[simp] theorem setChild_stray : (s.setChild p z).stray = s.stray := rfl

@[simp] theorem setParent_child : (s.setParent p z).child = s.child := rfl

@[simp] theorem setChild_child : (s.setChild p z).child = s.child.set p z := rfl

theorem utemp_setParent : (s.setParent (UTEMP / PGSIZE) z).utemp = z := Space.set_self UTEMP_lt

end Space

section Stores

-- What the stores leave as it is.
structure Stored (s s' : State) : Prop where
  child       : s'.child = s.child
  childExists : s'.childExists = s.childExists
  fdOpen      : s'.fdOpen = s.fdOpen
  headerReads : s'.headerReads = s.headerReads
  stray       : s.stray <:+ s'.stray

theorem storeBytes_stored : Stored s (storeBytes a bs s) :=
  ⟨rfl, rfl, rfl, rfl, List.suffix_append _ _⟩

theorem Stored.trans {s'' : State} (h : Stored s s') (h' : Stored s' s'') : Stored s s'' :=
  ⟨h'.child.trans h.child, h'.childExists.trans h.childExists, h'.fdOpen.trans h.fdOpen,
    h'.headerReads.trans h.headerReads, h.stray.trans h'.stray⟩

theorem storeWord_stored : Stored s (storeWord a n s) := storeBytes_stored

theorem storeBytes_page :
    (storeBytes a bs s).utemp = s.utemp.map fun y => { y with page := storePage a bs y.page } :=
  utemp_setParent

-- A store that goes outside of the page is recorded.
theorem storeBytes_stray (hk : k < bs.length) (h : add a k < UTEMP ∨ UTEMP + PGSIZE ≤ add a k) :
    add a k ∈ (storeBytes a bs s).stray := by
  refine List.mem_append_left _ (List.mem_filter.mpr ⟨List.mem_map.mpr ⟨k, List.mem_range.mpr hk, rfl⟩, ?_⟩)
  exact decide_eq_true h

-- A store inside the page, which is at the offset `p` of it.
theorem storeBytes_inside (h : p + bs.length ≤ PGSIZE) (hu : s.utemp = some ⟨m, v⟩) (hs : s.stray = []) :
    (storeBytes (UTEMP + p) bs s).utemp = some ⟨m.write p bs.length fun i => bs.getD i 0, v⟩ ∧
      (storeBytes (UTEMP + p) bs s).stray = [] := by
  rw [PGSIZE_eq] at h
  constructor
  · rw [storeBytes_page, hu, Option.map_some]
    refine congrArg some (congrArg (Mapping.mk · v) (funext fun x => ?_))
    have hx : x < PGSIZE ∧ sub (UTEMP + x) (UTEMP + p) < bs.length ↔ p ≤ x ∧ x < p + bs.length := by
      rw [sub, UTEMP_eq, PGSIZE_eq]
      omega
    by_cases hin : p ≤ x ∧ x < p + bs.length
    case pos =>
      have ho : sub (UTEMP + x) (UTEMP + p) = x - p := by
        rw [sub, UTEMP_eq]
        omega
      rw [Memory.write_of_mem hin.1 hin.2, ← ho]
      exact if_pos (hx.mpr hin)
    case neg =>
      rw [Memory.write_of_not_mem (by omega)]
      exact if_neg (mt hx.mp hin)
  · show List.filter _ _ ++ s.stray = []
    rw [hs, List.append_nil, List.filter_eq_nil_iff]
    intro x hx
    obtain ⟨i, hi, rfl⟩ := List.mem_map.mp hx
    have hi := List.mem_range.mp hi
    rw [decide_eq_true_iff, add, UTEMP_eq, PGSIZE_eq]
    omega

theorem write_congr {f g : Nat → Byte} (h : ∀ i < n, f i = g i) : m.write p n f = m.write p n g := by
  funext x
  by_cases hx : p ≤ x ∧ x < p + n
  case pos =>
    rw [Memory.write_of_mem hx.1 hx.2, Memory.write_of_mem hx.1 hx.2]
    exact h _ (by omega)
  case neg => rw [Memory.write_of_not_mem (by omega), Memory.write_of_not_mem (by omega)]

theorem storeWord_inside (h : p + 4 ≤ PGSIZE) (hu : s.utemp = some ⟨m, v⟩) (hs : s.stray = []) :
    (storeWord (UTEMP + p) n s).utemp = some ⟨m.store32 p (BitVec.ofNat 32 n), v⟩ ∧
      (storeWord (UTEMP + p) n s).stray = [] := by
  have hb := storeBytes_inside (show p + ((List.range 4).map fun i =>
    (BitVec.ofNat 32 n >>> (8 * i)).setWidth 8 : List Byte).length ≤ PGSIZE from h) hu hs
  refine ⟨hb.1.trans (congrArg some (congrArg (Mapping.mk · v) (write_congr fun i hi => ?_))), hb.2⟩
  have hi : i < 4 := hi
  simp [List.getElem?_range hi]

theorem storeString_inside (h : p + arg.length < PGSIZE) (hu : s.utemp = some ⟨m, v⟩) (hs : s.stray = []) :
    (storeBytes (UTEMP + p) (arg ++ [0]) s).utemp = some ⟨m.strcpy p arg, v⟩ ∧
      (storeBytes (UTEMP + p) (arg ++ [0]) s).stray = [] := by
  have hl : (arg ++ [(0 : Byte)]).length = arg.length + 1 := by simp
  have hb := storeBytes_inside (p := p) (show p + (arg ++ [(0 : Byte)]).length ≤ PGSIZE by omega) hu hs
  refine ⟨hb.1.trans (congrArg some (congrArg (Mapping.mk · v) ?_)), hb.2⟩
  rw [Memory.strcpy, hl]
  refine write_congr fun i hi => ?_
  by_cases hlt : i < arg.length
  case pos => simp [List.getElem?_append_left hlt]
  case neg =>
    obtain rfl : i = arg.length := by omega
    simp

end Stores

section Args

-- The bytes that the strings take from the one with the given number on.
def offset (argv : List (List Byte)) (i : Nat) : Nat := PGSIZE - total (argv.drop i)

-- What the loop over the arguments does for one of them.
def storeArg (argv_store : Nat) (x : State × Nat) (arg : List Byte × Nat) : State × Nat :=
  let s := storeWord (add argv_store (4 * arg.2)) (UTEMP2USTACK x.2) x.1
  (storeBytes x.2 (arg.1 ++ [0]) s, add x.2 (arg.1.length + 1))

theorem total_cons : total (arg :: l) = arg.length + 1 + total l := List.sum_cons

theorem total_append : total (pre ++ l) = total pre + total l := by
  simp [total]

theorem storeArgs_stored {x : State × Nat} {l : List (List Byte × Nat)} :
    Stored x.1 (l.foldl (storeArg a) x).1 := by
  induction l generalizing x
  case nil => exact ⟨rfl, rfl, rfl, rfl, List.suffix_refl _⟩
  case cons y l hi =>
    have h : Stored x.1 (storeArg a x y).1 := storeWord_stored.trans storeBytes_stored
    exact h.trans hi

-- Every byte of the strings is stored somewhere.
theorem storeArgs_stray (hk : n < total l) (ha : add p n < UTEMP ∨ UTEMP + PGSIZE ≤ add p n) :
    add p n ∈ ((l.zipIdx k).foldl (storeArg a) (s, p)).1.stray := by
  induction l generalizing s p k n
  case nil => exact absurd hk (Nat.not_lt_zero n)
  case cons arg l hi =>
    rw [total_cons] at hk
    rw [List.zipIdx_cons, List.foldl_cons]
    by_cases hn : n < arg.length + 1
    case pos =>
      refine (storeArgs_stored.stray).subset ?_
      exact storeBytes_stray (by simpa using hn) ha
    case neg =>
      have he : add (add p (arg.length + 1)) (n - (arg.length + 1)) = add p n := by
        rw [add, add, add]
        omega
      rw [← he] at ha ⊢
      exact hi (by omega) ha

theorem total_drop (hk : k < argv.length) :
    total (argv.drop k) = (argv.getD k []).length + 1 + total (argv.drop (k + 1)) := by
  rw [List.drop_eq_getElem_cons hk, total_cons, List.getD_eq_getElem _ _ hk]

theorem total_drop_le (h : n ≤ k) : total (argv.drop k) ≤ total (argv.drop n) := by
  induction k, h using Nat.le_induction
  case base => exact Nat.le_refl _
  case succ k _ hi =>
    by_cases hk : k < argv.length
    case pos =>
      rw [total_drop hk] at hi
      omega
    case neg =>
      rw [List.drop_eq_nil_of_le (by omega)]
      exact Nat.zero_le _

theorem offset_succ (hf : Fits argv) (hk : k < argv.length) :
    offset argv (k + 1) = offset argv k + (argv.getD k []).length + 1 := by
  have h₀ : total (argv.drop k) ≤ total (argv.drop 0) := total_drop_le (Nat.zero_le k)
  have h := total_drop hk
  rw [Fits] at hf
  rw [List.drop_zero] at h₀
  rw [offset, offset]
  omega

theorem offset_mono (h : n ≤ k) : offset argv n ≤ offset argv k := by
  have : total (argv.drop k) ≤ total (argv.drop n) := total_drop_le h
  rw [offset, offset]
  omega

theorem offset_le : offset argv k ≤ PGSIZE := Nat.sub_le _ _

theorem UTEMP2USTACK_eq (h : p ≤ PGSIZE) : UTEMP2USTACK (UTEMP + p) = STACK + p := by
  have hs : USTACKTOP - PGSIZE = STACK := rfl
  rw [PGSIZE_eq] at h
  rw [UTEMP2USTACK, hs, sub, add, UTEMP_eq, STACK_eq]
  omega

-- The pointers of the first `k` arguments, from the offset `av` on, and their strings are in the page.
structure Filled (argv : List (List Byte)) (av k : Nat) (s : State) (m : Memory) : Prop where
  page  : s.utemp = some ⟨m, PTE_P + PTE_U + PTE_W⟩
  stray : s.stray = []
  ptrs  : ∀ i < k, m.load32 (av + 4 * i) = BitVec.ofNat 32 (STACK + offset argv i)
  strs  : ∀ i < k, m.strEq (offset argv i) (argv.getD i [])

theorem strEq_strcpy : (m.strcpy p arg).strEq p arg := by
  have hs : ∀ (l : List Byte) (m : Memory) (p : Nat), (∀ i ≤ l.length, m (p + i) = l.getD i 0) → m.strEq p l := by
    intro l
    induction l
    case nil => exact fun m p h => decide_eq_true (h 0 (Nat.le_refl _))
    case cons c l hi =>
      intro m p h
      rw [Memory.strEq, Bool.and_eq_true]
      refine ⟨decide_eq_true (h 0 (Nat.zero_le _)), hi m (p + 1) fun i hle => ?_⟩
      rw [Nat.add_assoc, Nat.add_comm 1]
      exact h (i + 1) (Nat.succ_le_succ hle)
  refine hs arg _ p fun i hi => ?_
  rw [Memory.strcpy, Memory.write_of_mem (by omega) (by omega), Nat.add_sub_cancel_left]

-- One turn of the loop.
theorem Filled.step {av : Nat} (h : Filled argv av k s m) (hf : Fits argv) (hk : k < argv.length)
    (hv : av + 4 * (argv.length + 1) ≤ offset argv 0) :
    let r := storeArg (UTEMP + av) (s, UTEMP + offset argv k) (argv.getD k [], k)
    (∃ m', Filled argv av (k + 1) r.1 m') ∧ r.2 = UTEMP + offset argv (k + 1) := by
  have hs := offset_succ hf hk
  have hle : offset argv (k + 1) ≤ PGSIZE := offset_le
  have h₀ : offset argv 0 ≤ offset argv k := offset_mono (Nat.zero_le k)
  have hp : PGSIZE = 4096 := rfl
  have hu : UTEMP = 4194304 := rfl
  have ha : add (UTEMP + av) (4 * k) = UTEMP + (av + 4 * k) := by
    rw [add]
    omega
  have ⟨hw, hws⟩ := storeWord_inside (p := av + 4 * k) (n := UTEMP2USTACK (UTEMP + offset argv k)) (by omega)
    h.page h.stray
  have ⟨hb, hbs⟩ := storeString_inside
    (show offset argv k + (argv.getD k []).length < PGSIZE by omega) hw hws
  rw [← ha] at hb hbs
  refine ⟨⟨_, hb, hbs, fun i hi => ?_, fun i hi => ?_⟩, ?_⟩
  · rw [Memory.strcpy, Memory.load32_write (by omega)]
    by_cases hik : i = k
    case pos => rw [hik, Memory.load32_store32_self, UTEMP2USTACK_eq (by omega)]
    case neg =>
      rw [Memory.load32_store32 (by omega)]
      exact h.ptrs i (by omega)
  · by_cases hik : i = k
    case pos => exact hik ▸ strEq_strcpy
    case neg =>
      have hi' := offset_succ hf (show i < argv.length by omega)
      have hm : offset argv (i + 1) ≤ offset argv k := offset_mono (by omega)
      have hm₀ : offset argv 0 ≤ offset argv i := offset_mono (Nat.zero_le i)
      refine (Memory.strEq_congr fun x h₁ h₂ => ?_).trans (h.strs i (by omega))
      rw [Memory.strcpy, Memory.write_of_not_mem (by omega), Memory.store32_of_not_mem (by omega)]
  · show add (UTEMP + offset argv k) ((argv.getD k []).length + 1) = _
    rw [add]
    omega

theorem storeArgs_filled {av : Nat} (hf : Fits argv) (hv : av + 4 * (argv.length + 1) ≤ offset argv 0)
    (he : argv = pre ++ l) (h : Filled argv av pre.length s m) :
    ∃ m', Filled argv av argv.length
      ((l.zipIdx pre.length).foldl (storeArg (UTEMP + av)) (s, UTEMP + offset argv pre.length)).1 m' := by
  induction l generalizing pre s m
  case nil =>
    rw [List.append_nil] at he
    exact ⟨m, he ▸ h⟩
  case cons arg l hi =>
    have hk : pre.length < argv.length := by
      rw [he, List.length_append, List.length_cons]
      omega
    have harg : argv.getD pre.length [] = arg := by
      rw [he]
      simp
    have ⟨⟨m', h'⟩, hp⟩ := h.step hf hk hv
    rw [harg] at h' hp
    rw [List.zipIdx_cons, List.foldl_cons]
    generalize storeArg (UTEMP + av) (s, UTEMP + offset argv pre.length) (arg, pre.length) = r at h' hp
    obtain ⟨s', p⟩ := r
    have hl : (pre ++ [arg]).length = pre.length + 1 := by simp
    have hr := hi (show argv = (pre ++ [arg]) ++ l by simpa using he) (hl ▸ h')
    rw [hl] at hr
    rw [show p = UTEMP + offset argv (pre.length + 1) from hp]
    exact hr

end Args

section Calls

variable {P : Prop} {E : Int → State → Prop} {Q : Unit → State → Prop} {answer : Int} {va perm : Nat}

theorem check_wp : (check answer va).wp P E Q s ↔
    (UTOP ≤ va → E (-E_INVAL) s) ∧ (va < UTOP → (answer < 0 → E answer s) ∧ (0 ≤ answer → Q () s)) := by
  rw [check, Prog.wp_ite, Prog.wp_ite, Prog.wp_throw, Prog.wp_throw, Prog.wp_pure, not_le, not_lt]

theorem check_low (h : va < UTOP) :
    (check answer va).wp P E Q s ↔ (answer < 0 → E answer s) ∧ (0 ≤ answer → Q () s) := by
  rw [check_wp]
  simp [h]

theorem allocTemp_wp : (allocTemp answer).wp P E Q s ↔ (answer < 0 → E answer s) ∧
    (0 ≤ answer → Q () (s.setParent (UTEMP / PGSIZE) (some (blank (PTE_P + PTE_U + PTE_W))))) := by
  rw [allocTemp, Prog.wp_bind, check_low (by decide)]
  rfl

theorem mapChild_wp {y : Mapping} (hu : s.utemp = some y) : (mapChild answer va perm).wp P E Q s ↔
    (UTOP ≤ va → E (-E_INVAL) s) ∧ (va < UTOP → (answer < 0 → E answer s) ∧
      (0 ≤ answer → Q () (s.setChild (va / PGSIZE) (some ⟨y.page, perm⟩)))) := by
  rw [mapChild, Prog.wp_bind, Prog.wp_get]
  simp only [hu]
  rw [Prog.wp_bind, check_wp]
  rfl

end Calls

section Stack

variable {P : Prop} {E : Int → State → Prop} {Q : Nat → State → Prop}

def stringStore (argv : List (List Byte)) : Nat := sub (UTEMP + PGSIZE) (total argv % 2 ^ 32)

def argvStore (argv : List (List Byte)) : Nat :=
  sub (ROUNDDOWN (stringStore argv) 4) (4 * (argv.length + 1) % 2 ^ 32)

-- The stores of the null pointer and of `argv` and `argc`.
def storeHead (argv : List (List Byte)) (s : State) : State :=
  let s := storeWord (add (argvStore argv) (4 * argv.length)) 0 s
  let s := storeWord (sub (argvStore argv) 4) (UTEMP2USTACK (argvStore argv)) s
  storeWord (sub (argvStore argv) 8) argv.length s

-- The state after the stores of `init_stack`.
def stackState (argv : List (List Byte)) (s : State) : State :=
  let s := s.setParent (UTEMP / PGSIZE) (some (blank (PTE_P + PTE_U + PTE_W)))
  storeHead argv (argv.zipIdx.foldl (storeArg (argvStore argv)) (s, stringStore argv)).1

theorem storeHead_stored : Stored s (storeHead argv s) :=
  (storeWord_stored.trans storeWord_stored).trans storeWord_stored

theorem storeBytes_utemp (h : ∃ m, s.utemp = some ⟨m, v⟩) : ∃ m, (storeBytes a bs s).utemp = some ⟨m, v⟩ := by
  obtain ⟨m, hm⟩ := h
  rw [storeBytes_page, hm]
  exact ⟨_, rfl⟩

theorem storeArgs_utemp {l : List (List Byte × Nat)} (h : ∃ m, s.utemp = some ⟨m, v⟩) :
    ∃ m, (l.foldl (storeArg a) (s, p)).1.utemp = some ⟨m, v⟩ := by
  induction l generalizing s p
  case nil => exact h
  case cons y l hi => exact hi (storeBytes_utemp (storeBytes_utemp h))

theorem stackState_utemp : ∃ m, (stackState argv s).utemp = some ⟨m, PTE_P + PTE_U + PTE_W⟩ :=
  storeBytes_utemp (storeBytes_utemp (storeBytes_utemp (storeArgs_utemp ⟨_, utemp_setParent⟩)))

theorem stackState_stored :
    Stored (s.setParent (UTEMP / PGSIZE) (some (blank (PTE_P + PTE_U + PTE_W)))) (stackState argv s) := by
  have h := storeArgs_stored (a := argvStore argv) (l := argv.zipIdx)
    (x := (s.setParent (UTEMP / PGSIZE) (some (blank (PTE_P + PTE_U + PTE_W))), stringStore argv))
  exact h.trans storeHead_stored

theorem refused_iff : Refused argv ↔ sub (argvStore argv) 8 < UTEMP := Iff.rfl

-- How `init_stack` ends, by the answers of the kernel.
theorem init_stack_wp {y : Mapping} (hu : (stackState argv s).utemp = some y) :
    (init_stack alloc map argv).wp P E Q s ↔
      (Refused argv → E (-E_NO_MEM) s) ∧
      (¬Refused argv → (alloc < 0 → E alloc s) ∧ (0 ≤ alloc →
        (map < 0 → E map ((stackState argv s).setParent (UTEMP / PGSIZE) none)) ∧
        (0 ≤ map → Q (UTEMP2USTACK (sub (argvStore argv) 8)) (((stackState argv s).setChild (STACK / PGSIZE)
          (some ⟨y.page, PTE_P + PTE_U + PTE_W⟩)).setParent (UTEMP / PGSIZE) none)))) := by
  rw [init_stack]
  simp only
  rw [Prog.wp_ite, Prog.wp_throw, Prog.wp_bind, allocTemp_wp]
  refine and_congr Iff.rfl (imp_congr Iff.rfl (and_congr Iff.rfl (imp_congr Iff.rfl ?_)))
  simp only [Prog.wp_bind, Prog.wp_modify, Prog.wp_attempt]
  refine (mapChild_wp (s := stackState argv s) hu).trans ?_
  simp only [Prog.wp_bind, unmapTemp, Prog.wp_modify, Prog.wp_throw, Prog.wp_pure]
  constructor
  · exact fun h => h.2 (by decide)
  · exact fun h => ⟨fun h' => absurd h' (by decide), fun _ => h⟩

theorem stringStore_eq (hf : Fits argv) : stringStore argv = UTEMP + offset argv 0 := by
  rw [Fits, PGSIZE_eq] at hf
  rw [stringStore, offset, List.drop_zero, sub, UTEMP_eq, PGSIZE_eq]
  omega

-- The offset of the pointers in the page.
def argvOffset (argv : List (List Byte)) : Nat :=
  offset argv 0 - offset argv 0 % 4 - 4 * (argv.length + 1)

theorem argvOffset_spec (hf : Fits argv) : argvStore argv = UTEMP + argvOffset argv ∧ 8 ≤ argvOffset argv ∧
    argvOffset argv + 4 * (argv.length + 1) ≤ offset argv 0 := by
  have ho : offset argv 0 = 4096 - total argv := rfl
  have hs := stringStore_eq hf
  rw [Fits, PGSIZE_eq] at hf
  rw [argvStore, hs, argvOffset, ROUNDDOWN, sub, UTEMP_eq]
  omega

theorem not_refused (hf : Fits argv) : ¬Refused argv := by
  have ⟨ha, h8, hle⟩ := argvOffset_spec hf
  have hp : offset argv 0 ≤ 4096 := offset_le
  rw [refused_iff, ha, sub, UTEMP_eq]
  omega

-- The strings that fill more than the page are not all stored inside of it.
theorem refused_of_short (hf : ¬Fits argv) (ht : total argv ≤ PGSIZE) : Refused argv := by
  have hl : argv.length ≤ total argv := by
    clear hf ht
    induction argv
    case nil => exact Nat.le_refl _
    case cons arg l hi =>
      rw [total_cons, List.length_cons]
      omega
  rw [Fits, PGSIZE_eq] at hf
  rw [PGSIZE_eq] at ht
  rw [refused_iff, argvStore, stringStore, ROUNDDOWN, sub, sub, sub, UTEMP_eq, PGSIZE_eq]
  omega

theorem stackState_stray (hf : ¬Fits argv) (hr : ¬Refused argv) : (stackState argv s).stray ≠ [] := by
  have ht : PGSIZE < total argv := Nat.lt_of_not_le fun h => hr (refused_of_short hf h)
  rw [PGSIZE_eq] at ht
  have hout : ∃ n < total argv, add (stringStore argv) n < UTEMP ∨ UTEMP + PGSIZE ≤ add (stringStore argv) n := by
    by_cases hin : stringStore argv < UTEMP ∨ UTEMP + PGSIZE ≤ stringStore argv
    case pos =>
      refine ⟨0, by omega, ?_⟩
      have hlt : stringStore argv < 2 ^ 32 := Nat.mod_lt _ (by decide)
      rwa [add, Nat.add_zero, Nat.mod_eq_of_lt hlt]
    case neg =>
      refine ⟨PGSIZE, ht, .inr ?_⟩
      rw [UTEMP_eq, PGSIZE_eq] at hin
      rw [add, UTEMP_eq, PGSIZE_eq]
      omega
  obtain ⟨n, hn, hout⟩ := hout
  have hm := storeArgs_stray (k := 0) (a := argvStore argv)
    (s := s.setParent (UTEMP / PGSIZE) (some (blank (PTE_P + PTE_U + PTE_W)))) hn hout
  exact List.ne_nil_of_mem (storeHead_stored.stray.subset hm)

theorem stackState_laid (hf : Fits argv) (hs : s.stray = []) :
    (stackState argv s).stray = [] ∧ ∃ m, (stackState argv s).utemp = some ⟨m, PTE_P + PTE_U + PTE_W⟩ ∧
      Laid argv m (UTEMP2USTACK (sub (argvStore argv) 8)) (STACK + argvOffset argv) := by
  have ⟨ha, h8, hle⟩ := argvOffset_spec hf
  have ho : offset argv 0 ≤ 4096 := offset_le
  have hp : PGSIZE = 4096 := rfl
  have hu : UTEMP = 4194304 := rfl
  have ht : USTACKTOP = STACK + PGSIZE := rfl
  have hk : STACK = 4005548032 := rfl
  generalize hav : argvOffset argv = av at ha h8 hle
  have h₀ : Filled argv av 0 (s.setParent (UTEMP / PGSIZE) (some (blank (PTE_P + PTE_U + PTE_W)))) fun _ => 0 :=
    ⟨utemp_setParent, hs, nofun, nofun⟩
  have hfill : ∃ m, Filled argv av argv.length (argv.zipIdx.foldl (storeArg (UTEMP + av))
      (s.setParent (UTEMP / PGSIZE) (some (blank (PTE_P + PTE_U + PTE_W))), UTEMP + offset argv 0)).1 m :=
    storeArgs_filled hf hle (List.nil_append argv).symm h₀
  rw [stackState, ha, stringStore_eq hf, storeHead, ha]
  generalize (argv.zipIdx.foldl (storeArg (UTEMP + av)) (s.setParent (UTEMP / PGSIZE)
    (some (blank (PTE_P + PTE_U + PTE_W))), UTEMP + offset argv 0)).1 = s' at hfill
  obtain ⟨m, hm⟩ := hfill
  have e₁ : add (UTEMP + av) (4 * argv.length) = UTEMP + (av + 4 * argv.length) := by
    rw [add]
    omega
  have e₂ : sub (UTEMP + av) 4 = UTEMP + (av - 4) := by
    rw [sub]
    omega
  have e₃ : sub (UTEMP + av) 8 = UTEMP + (av - 8) := by
    rw [sub]
    omega
  rw [e₁, e₂, e₃, UTEMP2USTACK_eq (by omega), UTEMP2USTACK_eq (by omega)]
  have ⟨h₁, hs₁⟩ := storeWord_inside (p := av + 4 * argv.length) (n := 0) (by omega) hm.page hm.stray
  have ⟨h₂, hs₂⟩ := storeWord_inside (p := av - 4) (n := STACK + av) (by omega) h₁ hs₁
  have ⟨h₃, hs₃⟩ := storeWord_inside (p := av - 8) (n := argv.length) (by omega) h₂ hs₂
  refine ⟨hs₃, _, h₃, ⟨by omega, by omega⟩, ?_, ?_, ⟨by omega, by omega⟩, fun i hi => ?_, ?_⟩
  · rw [Nat.add_sub_cancel_left, Memory.load32_store32_self]
  · rw [show STACK + (av - 8) + 4 - STACK = av - 4 by omega, Memory.load32_store32 (by omega),
      Memory.load32_store32_self]
  · have hoi := offset_succ hf hi
    have hl : offset argv (i + 1) ≤ 4096 := offset_le
    have hm₀ : offset argv 0 ≤ offset argv i := offset_mono (Nat.zero_le i)
    have harg : argv.getD i [] = argv[i] := List.getD_eq_getElem _ _ hi
    rw [harg] at hoi
    refine ⟨STACK + offset argv i, ?_, by omega, by omega, ?_⟩
    · rw [show STACK + av + 4 * i - STACK = av + 4 * i by omega, Memory.load32_store32 (by omega),
        Memory.load32_store32 (by omega), Memory.load32_store32 (by omega)]
      exact hm.ptrs i hi
    · rw [Nat.add_sub_cancel_left, ← harg]
      refine (Memory.strEq_congr fun x h₁ h₂ => ?_).trans (hm.strs i hi)
      rw [Memory.store32_of_not_mem (by omega), Memory.store32_of_not_mem (by omega),
        Memory.store32_of_not_mem (by omega)]
  · rw [show STACK + av + 4 * argv.length - STACK = av + 4 * argv.length by omega,
      Memory.load32_store32 (by omega), Memory.load32_store32 (by omega), Memory.load32_store32_self]
    rfl

theorem init_stack_spec (hs : s.stray = []) :
    StackFaithful alloc map argv s ↔ Fits argv ∨ Refused argv ∨ alloc = -E_NO_MEM := by
  obtain ⟨m, hm⟩ : ∃ m, (stackState argv s).utemp = some ⟨m, PTE_P + PTE_U + PTE_W⟩ := stackState_utemp
  have hE : E_NO_MEM = 4 := rfl
  rw [StackFaithful, init_stack_wp hm]
  simp only [setParent_stray, setChild_stray, setParent_child, setChild_child]
  constructor
  case mp =>
    rintro ⟨_, h⟩
    by_cases hf : Fits argv
    case pos => exact .inl hf
    by_cases hr : Refused argv
    case pos => exact .inr (.inl hr)
    obtain ⟨h₁, h₂⟩ := h hr
    by_cases ha : alloc < 0
    case pos => exact .inr (.inr ((h₁ ha).2.2.2 hf))
    obtain ⟨h₁, h₂⟩ := h₂ (by omega)
    by_cases hmap : map < 0
    case pos => exact absurd (h₁ hmap).1 (stackState_stray hf hr)
    case neg => exact absurd (h₂ (by omega)).1 (stackState_stray hf hr)
  case mpr =>
    intro h
    refine ⟨fun hr => ⟨hs, by decide, fun hf => absurd hr (not_refused hf), fun _ => trivial⟩, fun hr => ?_⟩
    refine ⟨fun ha => ⟨hs, ha, fun _ => .inl ha, fun hf => ?_⟩, fun ha => ?_⟩
    · exact (h.resolve_left hf).resolve_left hr
    · have hf : Fits argv := h.resolve_right fun h => h.elim hr fun h => by omega
      have ⟨hst, m', hm', hl⟩ := stackState_laid hf hs
      rw [hm] at hm'
      cases hm'
      refine ⟨fun hmap => ⟨hst, hmap, fun _ => .inr hmap, fun h => absurd hf h⟩, fun _ => ?_⟩
      exact ⟨hst, hf, m, _, Space.set_self STACK_lt, hl⟩

-- `init_stack` does what it should exactly if the stack fits, or the comparison of pointers refuses it, or
-- the kernel has no memory for the page.
theorem init_stack_faithful (hs : s.stray = []) :
    StackFaithful alloc map argv s ↔ Fits argv ∨ Refused argv ∨ alloc = -E_NO_MEM :=
  init_stack_spec hs

end Stack

section Sample

attribute [local irreducible] StackFaithful

def idle : State := ⟨.empty, .empty, true, true, [], []⟩

theorem init_stack_faithful_sample : StackFaithful 0 0 [[0x6C, 0x73], [0x2D, 0x6C]] idle :=
  (init_stack_faithful rfl).mpr (.inl (by unfold Fits; decide))

theorem unfaithful_of_length (h : arg.length = 0x4FFFFF) : ¬StackFaithful 0 0 [arg] idle := by
  have ht : total [arg] = 0x500000 := by
    have h₀ : total [] = 0 := rfl
    rw [total_cons, h, h₀]
  rw [init_stack_spec rfl, Fits, Refused, ht, List.length_singleton]
  decide

-- A single argument of 5 MiB: the address of the strings, below `UTEMP` by more than it is, wraps around.
theorem init_stack_unfaithful : ¬StackFaithful 0 0 [List.replicate 0x4FFFFF 0x61] idle :=
  unfaithful_of_length List.length_replicate

end Sample

end Lib.Spawn

import Sisop.Fork.Xargs
import Sisop.Library.Batches

namespace Fork.Xargs

open Library

-- The input that has the given lines, each with its newline.
def entrada (lines : List Str) : Str := lines.flatMap (· ++ [NL])

-- What the runs of the command with the words `argv` on the lines should be: the words are the beginning of
-- the arrays that are executed.
structure Lotes (NARGS : Nat) (argv lines : List Str) (runs : List Ejecucion) : Prop where
  comando : ∀ r ∈ runs, [r.comando] = argv
  count   : runs.length = (lines.length + (NARGS - 1)) / NARGS
  concat  : (runs.map (·.argumentos)).flatten = lines.map some
  full    : ∀ r ∈ runs.dropLast, r.argumentos.length = NARGS
  last    : ∀ r, runs.getLast? = some r → 1 ≤ r.argumentos.length ∧ r.argumentos.length ≤ NARGS
  mult    : NARGS ∣ lines.length → ∀ r ∈ runs, r.argumentos ≠ []

-- The argument that is made of a line, with a buffer of the given size.
def argumento (linea : Str) (numeroBytes : Nat) : Option Str :=
  strncpy (cortar (linea ++ [NL])) (numeroBytes - 1)

-- The arguments that are made of the lines, where the buffer has the given size before the first.
def argumentosDe (g : Getline) : Nat → List Str → List (Option Str)
  | _,           []             => []
  | numeroBytes, linea :: lines =>
    let numeroBytes := g.size numeroBytes (linea.length + 2)
    argumento linea numeroBytes :: argumentosDe g numeroBytes lines

-- The lines that get through unchanged: strings whose length is an `int`.
def Pasa (linea : Str) : Prop := 0 ∉ linea ∧ linea.length < 2147483648

variable {g : Getline} {NARGS k : Nat} {linea comando : Str} {argv lines : List Str} {st : State}
  {as : List (Option Str)}

section Linea

theorem takeWhile_append_cons {p : UInt8 → Bool} {l rest : Str} {c : UInt8} (h : ∀ a ∈ l, p a)
    (hc : p c = false) : (l ++ c :: rest).takeWhile p = l := by
  rw [List.takeWhile_append_of_pos h]
  simp [hc]

theorem bne_of_notMem {c : UInt8} (h : c ∉ linea) : ∀ a ∈ linea, (a != c) = true := by
  intro a ha
  rw [bne_iff_ne]
  rintro rfl
  exact h ha

theorem primeraLinea_append {rest : Str} (h : NL ∉ linea) :
    primeraLinea (linea ++ NL :: rest) = linea ++ [NL] := by
  have ht : (linea ++ NL :: rest).takeWhile (· != NL) = linea :=
    takeWhile_append_cons (bne_of_notMem h) (by simp)
  simp [primeraLinea, ht]

theorem getline_entrada (h : NL ∉ linea) :
    getline g (entrada (linea :: lines)) k =
      (some (linea ++ [NL]), entrada lines, g.size k (linea.length + 2)) := by
  have he : entrada (linea :: lines) = linea ++ NL :: entrada lines := by simp [entrada]
  have hp : primeraLinea (linea ++ NL :: entrada lines) = linea ++ [NL] := primeraLinea_append h
  rw [he]
  cases hc : linea ++ NL :: entrada lines
  case nil => simp at hc
  case cons c stdin =>
    simp only [getline]
    rw [← hc, hp]
    simp

theorem zero_notMem_cadena {buf : Str} : 0 ∉ cadena buf := by
  intro hc
  have := List.all_eq_true.mp List.all_takeWhile 0 hc
  simp at this

theorem strncpy_eq_some {buf s : Str} (h : strncpy buf k = some s) : s = cadena buf := by
  rw [strncpy] at h
  split at h <;> cases h
  rfl

theorem strcspn_linea (h : NL ∉ linea) (h₀ : 0 ∉ linea) : strcspn (linea ++ [NL]) = linea.length := by
  rw [strcspn, takeWhile_append_cons ?_ (by simp)]
  intro c hc
  rw [bne_of_notMem h₀ c hc, bne_of_notMem h c hc]
  rfl

theorem cadena_length_le {buf : Str} {i : Nat} :
    (cadena (buf.set i 0)).length ≤ i := by
  by_contra hc
  have hc : i < (cadena (buf.set i 0)).length := Nat.lt_of_not_le hc
  have hp := List.IsPrefix.getElem (List.takeWhile_prefix (· != 0)) hc
  have h₀ : (cadena (buf.set i 0))[i] = 0 := hp.trans (by simp)
  exact zero_notMem_cadena (h₀ ▸ List.getElem_mem hc)

-- Where the place of the newline does not fit into an `int`, the line is cut in front of it or not at all.
theorem cadena_cortar_ne (h : NL ∉ linea) (h₀ : 0 ∉ linea) (hl : 2147483648 ≤ linea.length) :
    cadena (cortar (linea ++ [NL])) ≠ linea := by
  rw [cortar, strcspn_linea h h₀]
  have hlt : (BitVec.ofNat 32 linea.length).toInt < 2147483648 := BitVec.toInt_lt
  split
  case isTrue hs =>
    have hi : (BitVec.ofNat 32 linea.length).toInt.toNat < linea.length := by omega
    intro hc
    have hle := @cadena_length_le (linea ++ [NL]) (BitVec.ofNat 32 linea.length).toInt.toNat
    rw [hc] at hle
    omega
  case isFalse =>
    have hn : cadena (linea ++ [NL]) = linea ++ [NL] := by
      rw [cadena, List.takeWhile_append_of_pos (bne_of_notMem h₀)]
      rfl
    rw [hn]
    simp

-- A line comes through where it has no zero and its length is an `int`.
theorem argumento_iff (h : NL ∉ linea) (hk : linea.length + 2 ≤ k) :
    argumento linea k = some linea ↔ Pasa linea := by
  constructor
  case mp =>
    intro hc
    have he : linea = cadena (cortar (linea ++ [NL])) := strncpy_eq_some hc
    have h₀ : 0 ∉ linea := by
      rw [he]
      exact zero_notMem_cadena
    refine ⟨h₀, Nat.lt_of_not_le fun hl => ?_⟩
    exact cadena_cortar_ne h h₀ hl he.symm
  case mpr =>
    rintro ⟨h₀, hl⟩
    have hi : (BitVec.ofNat 32 linea.length).toInt = linea.length := by
      rw [BitVec.toInt_eq_toNat_of_lt] <;> rw [BitVec.toNat_ofNat] <;> omega
    have hs : (linea ++ [NL]).set linea.length 0 = linea ++ [0] := by simp
    have hc : cadena (linea ++ [0]) = linea :=
      takeWhile_append_cons (bne_of_notMem h₀) (by simp)
    rw [argumento, cortar, strcspn_linea h h₀, hi, if_pos (by omega), Int.toNat_natCast, hs, strncpy,
      hc, if_pos (by omega)]

-- All lines come through exactly where each of them does.
theorem argumentosDe_iff (h : ∀ linea ∈ lines, NL ∉ linea) :
    argumentosDe g k lines = lines.map some ↔ ∀ linea ∈ lines, Pasa linea := by
  induction lines generalizing k
  case nil => simp [argumentosDe]
  case cons linea lines hi =>
    obtain ⟨hl, hls⟩ := List.forall_mem_cons.mp h
    rw [argumentosDe, List.map_cons, List.cons.injEq, List.forall_mem_cons, hi hls,
      argumento_iff hl (g.le ..)]

theorem argumentosDe_length : (argumentosDe g k lines).length = lines.length := by
  induction lines generalizing k
  case nil               => rfl
  case cons linea lines i => rw [argumentosDe, List.length_cons, List.length_cons, i]

end Linea

-- The arguments that are still to be read from the input.
def Pendientes (g : Getline) (st : State) (as : List (Option Str)) : Prop :=
  ∃ lines, (∀ linea ∈ lines, NL ∉ linea) ∧ st.stdin = entrada lines ∧
    argumentosDe g st.numeroBytes lines = as

-- What one turn of the `for` loop does, where there is a line and where there is none.
theorem leer_cons {a : Option Str} (h : Pendientes g st (a :: as)) :
    Pendientes g (leer g st) as ∧ (leer g st).argumentos = st.argumentos ++ [a] ∧
      (leer g st).bytesLeidos ≠ none ∧ (leer g st).ejecuciones = st.ejecuciones := by
  obtain ⟨lines, hl, hs, ha⟩ := h
  cases lines
  case nil => cases ha
  case cons linea lines =>
    obtain ⟨hl, hls⟩ := List.forall_mem_cons.mp hl
    have hg := @getline_entrada g st.numeroBytes linea lines hl
    rw [← hs] at hg
    rw [argumentosDe, List.cons.injEq] at ha
    obtain ⟨rfl, rfl⟩ := ha
    rw [leer, hg]
    exact ⟨⟨lines, hls, rfl, rfl⟩, rfl, by simp, rfl⟩

theorem leer_nil (h : Pendientes g st []) :
    Pendientes g (leer g st) [] ∧ (leer g st).argumentos = st.argumentos ∧
      (leer g st).bytesLeidos = none ∧ (leer g st).ejecuciones = st.ejecuciones := by
  obtain ⟨lines, hl, hs, ha⟩ := h
  cases lines
  case cons => cases ha
  case nil =>
    have hg : getline g st.stdin st.numeroBytes = (none, [], g.size st.numeroBytes 0) := by
      rw [hs]
      rfl
    rw [leer, hg]
    exact ⟨⟨[], hl, rfl, rfl⟩, rfl, rfl, rfl⟩

-- The whole `for` loop. The last call of `getline` finds out that there are too few lines.
theorem leer_iterate {n : Nat} (h : Pendientes g st as) :
    let st' := (leer g)^[n] st
    Pendientes g st' (as.drop n) ∧ st'.argumentos = st.argumentos ++ as.take n ∧
      (0 < n → (st'.bytesLeidos = none ↔ as.length < n)) ∧ st'.ejecuciones = st.ejecuciones := by
  induction n
  case zero => exact ⟨by simpa using h, by simp, by simp, rfl⟩
  case succ n hi =>
    obtain ⟨hp, ha, -, he⟩ := hi
    rw [Function.iterate_succ_apply']
    by_cases hn : n < as.length
    case pos =>
      rw [List.drop_eq_getElem_cons hn] at hp
      obtain ⟨hp', ha', hb, he'⟩ := leer_cons hp
      refine ⟨hp', ?_, fun _ => iff_of_false hb (by omega), he'.trans he⟩
      rw [ha', ha, List.append_assoc, List.take_append_getElem hn]
    case neg =>
      rw [List.drop_of_length_le (by omega)] at hp
      obtain ⟨hp', ha', hb, he'⟩ := leer_nil hp
      refine ⟨?_, ?_, fun _ => iff_of_true hb (by omega), he'.trans he⟩
      · rwa [List.drop_of_length_le (by omega)]
      · rw [ha', ha, List.take_of_length_le (by omega), List.take_of_length_le (by omega)]

theorem lote_eq (hn : 0 < NARGS) (h : Pendientes g st as) :
    Pendientes g (lote g NARGS comando st) (as.drop NARGS) ∧
      ((lote g NARGS comando st).bytesLeidos = none ↔ as.length < NARGS) ∧
      (lote g NARGS comando st).ejecuciones = st.ejecuciones ++ [⟨comando, as.take NARGS⟩] := by
  have h₀ : Pendientes g { st with argumentos := [] } as := h
  obtain ⟨hp, ha, hb, he⟩ := leer_iterate (n := NARGS) h₀
  refine ⟨hp, hb hn, ?_⟩
  simp only [lote, he, ha, List.nil_append]

-- The `while` loop runs one batch after the other, until one is not full.
theorem whileLoop_lotes (hn : 0 < NARGS) {fuel : Nat} (h : Pendientes g st as)
    (hb : st.bytesLeidos ≠ none) (hf : as.length < fuel) :
    let st' := whileLoop (·.bytesLeidos ≠ none) (lote g NARGS comando) fuel st
    st'.bytesLeidos = none ∧
      st'.ejecuciones = st.ejecuciones ++ (batches NARGS as).map (⟨comando, ·⟩) := by
  induction fuel generalizing st as
  case zero => omega
  case succ fuel hi =>
    obtain ⟨hp, hb', he⟩ := @lote_eq g NARGS comando st as hn h
    have ht : whileLoop (fun st => st.bytesLeidos ≠ none) (lote g NARGS comando) (fuel + 1) st =
        whileLoop (fun st => st.bytesLeidos ≠ none) (lote g NARGS comando) fuel
          (lote g NARGS comando st) := whileLoop_turn hb
    simp only [ht]
    by_cases hl : as.length < NARGS
    case pos =>
      have hz := hb'.mpr hl
      have hd : whileLoop (fun st => st.bytesLeidos ≠ none) (lote g NARGS comando) fuel
          (lote g NARGS comando st) = lote g NARGS comando st := whileLoop_end (not_not.mpr hz)
      rw [hd, batches_last hl, he, List.take_of_length_le (by omega)]
      exact ⟨hz, rfl⟩
    case neg =>
      have hlt : (as.drop NARGS).length < fuel := by
        rw [List.length_drop]
        omega
      have hbf : batches NARGS as = as.take NARGS :: batches NARGS (as.drop NARGS) :=
        batches_full hn (Nat.le_of_not_lt hl)
      obtain ⟨hz, hr⟩ := hi hp (hb'.not.mpr hl) hlt
      refine ⟨hz, ?_⟩
      rw [hr, he, hbf, List.map_cons, List.append_assoc]
      rfl

theorem length_le_entrada (lines : List Str) : lines.length ≤ (entrada lines).length := by
  induction lines
  case nil => exact Nat.le_refl 0
  case cons linea lines hi =>
    simp only [entrada, List.flatMap_cons, List.length_append, List.length_cons] at hi ⊢
    omega

theorem main_eq (hn : 0 < NARGS) (ha : argv ≠ []) (hl : ∀ linea ∈ lines, NL ∉ linea) :
    ∃ st, main g NARGS argv (entrada lines) = some st ∧ st.bytesLeidos = none ∧
      st.ejecuciones =
        (batches NARGS (argumentosDe g 0 lines)).map (⟨[BLANK].intercalate argv, ·⟩) := by
  have hp : Pendientes g ⟨entrada lines, 0, some 0, [], []⟩ (argumentosDe g 0 lines) :=
    ⟨lines, hl, rfl, rfl⟩
  have hf : (argumentosDe g 0 lines).length < (entrada lines).length + 1 := by
    rw [argumentosDe_length]
    exact Nat.lt_succ_of_le (length_le_entrada lines)
  have hc : ¬argv.length + 1 < 2 := by
    have := List.length_pos_iff.mpr ha
    omega
  obtain ⟨hz, hr⟩ := @whileLoop_lotes g NARGS ([BLANK].intercalate argv) _ _ hn _ hp (by simp) hf
  exact ⟨_, if_neg hc, hz, hr⟩

-- The batches are as they should be where the last one is not empty and all lines come through.
theorem lotes_iff (hn : 0 < NARGS) (hl : as.length = lines.length) :
    Lotes NARGS argv lines ((batches NARGS as).map (⟨comando, ·⟩)) ↔
      [comando] = argv ∧ ¬NARGS ∣ lines.length ∧ as = lines.map some := by
  have hm : ((batches NARGS as).map fun a => (⟨comando, a⟩ : Ejecucion)).map (·.argumentos) =
      batches NARGS as := by
    rw [List.map_map]
    exact List.map_id _
  have hc : ((batches NARGS as).map fun a => (⟨comando, a⟩ : Ejecucion)).length =
      lines.length / NARGS + 1 := by
    rw [List.length_map, batches_length hn, hl]
  constructor
  case mp =>
    intro h
    refine ⟨?_, fun ⟨q, hq⟩ => ?_, ?_⟩
    · obtain ⟨b, bs, hb⟩ := List.exists_cons_of_ne_nil (@batches_ne_nil _ NARGS as)
      exact h.comando ⟨comando, b⟩ (by simp [hb])
    · have hx := h.count
      rw [hc, hq, Nat.mul_div_cancel_left q hn, Nat.mul_add_div hn,
        Nat.div_eq_of_lt (Nat.sub_lt hn Nat.one_pos)] at hx
      omega
    · have hx := h.concat
      rwa [hm, batches_flatten] at hx
  case mpr =>
    rintro ⟨hw, hd, rfl⟩
    have hr : 0 < lines.length % NARGS := Nat.pos_of_ne_zero fun h₀ => hd (Nat.dvd_of_mod_eq_zero h₀)
    constructor
    case comando => simpa using fun _ _ => hw
    case count =>
      have hq := Nat.div_add_mod' lines.length NARGS
      have hlt := Nat.mod_lt lines.length hn
      rw [hc]
      symm
      apply Nat.div_eq_of_lt_le
      · rw [Nat.succ_mul]
        omega
      · rw [Nat.succ_mul, Nat.succ_mul]
        omega
    case concat => rw [hm, batches_flatten]
    case full =>
      intro r hr
      rw [← List.map_dropLast] at hr
      obtain ⟨b, hb, rfl⟩ := List.mem_map.mp hr
      exact batches_dropLast hb
    case last =>
      intro r hr
      rw [List.getLast?_map, Option.map_eq_some_iff] at hr
      obtain ⟨b, hb, rfl⟩ := hr
      have hx : b.length = lines.length % NARGS := hl ▸ batches_getLast hn hb
      have hlt := Nat.mod_lt lines.length hn
      rw [hx]
      exact ⟨hr, Nat.le_of_lt hlt⟩
    case mult => exact fun hc => absurd hc hd

-- The words are joined with blanks, which makes one name of them.
theorem intercalate_eq_iff (ha : argv ≠ []) : [[BLANK].intercalate argv] = argv ↔ argv.length = 1 := by
  constructor
  case mp =>
    intro h
    rw [← h]
    rfl
  case mpr =>
    intro h
    obtain ⟨w, rfl⟩ := List.length_eq_one_iff.mp h
    simp [List.intercalate]

-- Buffers of at least 120 bytes, which are doubled when they are too small.
def Getline.doubling : Getline where
  size old need := if need ≤ old then old else max 120 (max need (2 * old))
  le old need   := by
    split
    · assumption
    · omega

-- The lines a, b and so on.
def letras (n : Nat) : List Str := (List.range n).map fun i => [97 + UInt8.ofNat i]

end Fork.Xargs

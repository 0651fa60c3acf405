import Sisop.Fork.Find

namespace Fork.Find

-- The entries other than . and .. as the names on the way to them; `ds` is the way to the directory.
def Listing.paths (ds : List Str) : Listing → List (List Str)
  | nil                   => []
  | entry name next       => if isDots name then next.paths ds else (ds ++ [name]) :: next.paths ds
  | dir name entries next =>
    if isDots name then next.paths ds
    else (ds ++ [name]) :: (entries.paths (ds ++ [name]) ++ next.paths ds)

-- The directories among them.
def Listing.dirs (ds : List Str) : Listing → List (List Str)
  | nil                   => []
  | entry _ next          => next.dirs ds
  | dir name entries next =>
    if isDots name then next.dirs ds
    else (ds ++ [name]) :: (entries.dirs (ds ++ [name]) ++ next.dirs ds)

def join (p : List Str) : Str := ['/'].intercalate p

section Search

variable (limit : Nat) (comparar : Str → Str → Bool) (busqueda : Str)

-- The paths of the entries whose names match.
def found (ps : List (List Str)) : List Str :=
  (ps.filter fun p => comparar (p.getLastD []) busqueda).map join

-- The search from the root prints the paths, writes nothing behind its arrays, and restores the path.
structure Finds (fds : Nat) (root : Listing) (st : State) : Prop where
  returns : buscarNombres limit comparar busqueda root ⟨[], fds, [], []⟩ = some st
  prints  : st.out = found comparar busqueda (root.paths [])
  calls   : ∀ call ∈ st.calls, call.2 = call.1
  path    : st.path = []

end Search

-- The path of each directory has room in the buffer, with a / and the terminator, and the directories can be
-- open at the same time.
structure Fits (limit fds : Nat) (root : Listing) : Prop where
  paths : ∀ p ∈ root.dirs [], (join p).length + 1 < MAX_PATH
  files : root.dirs [] ≠ [] → fds + (root.dirs []).length ≤ limit

variable {limit fds : Nat} {comparar : Str → Str → Bool} {busqueda name : Str} {ds : List Str}
  {l entries next : Listing} {st st' : State}

section Paths

-- The string in the buffer
def dirPath (ds : List Str) : Str := ds.flatMap (· ++ ['/'])

theorem dirPath_concat : dirPath (ds ++ [name]) = dirPath ds ++ name ++ ['/'] := by
  simp [dirPath]

theorem join_concat : join (ds ++ [name]) = dirPath ds ++ name := by
  induction ds
  case nil => simp [join, dirPath, List.intercalate]
  case cons d ds ih =>
    obtain ⟨x, xs, hx⟩ := List.exists_cons_of_ne_nil
      (List.append_ne_nil_of_right_ne_nil ds (List.cons_ne_nil name []))
    rw [hx] at ih
    simp only [join, List.intercalate] at ih ⊢
    rw [List.cons_append, hx, List.intersperse_cons_cons, List.flatten_cons, List.flatten_cons, ih]
    simp [dirPath]

end Paths

section Run

-- What the search of a directory leaves.
structure After (comparar : Str → Str → Bool) (busqueda : Str) (ds : List Str) (l : Listing)
    (st st' : State) : Prop where
  path  : st'.path = st.path
  fds   : st'.fds = st.fds + (l.dirs ds).length
  out   : st'.out = st.out ++ found comparar busqueda (l.paths ds)
  calls : (∀ call ∈ st.calls, call.2 = call.1) → ∀ call ∈ st'.calls, call.2 = call.1

theorem found_append (ps ps' : List (List Str)) : found comparar busqueda (ps ++ ps') =
    found comparar busqueda ps ++ found comparar busqueda ps' := by
  rw [found, List.filter_append, List.map_append, found, found]

theorem found_cons (p : List Str) (ps : List (List Str)) : found comparar busqueda (p :: ps) =
    found comparar busqueda [p] ++ found comparar busqueda ps := found_append [p] ps

-- What is printed for one entry.
theorem comparaNombre_out (h : st.path = dirPath ds) : comparaNombre comparar busqueda name st =
    { st with out := st.out ++ found comparar busqueda [ds ++ [name]] } := by
  unfold comparaNombre
  split
  case isTrue hc => simp [found, hc, join_concat, h]
  case isFalse hc => simp [found, hc]

theorem strcpy_some {s s' : Str} : strcpy s = some s' ↔ s.length < MAX_PATH ∧ s' = s := by
  unfold strcpy
  split
  case isTrue h => simp [h, eq_comm]
  case isFalse h => simp [h]

-- A directory: the call for its entries, and then the next entries.
theorem buscarNombres_dir (hd : isDots name = false) (hp : st.path = dirPath ds) :
    buscarNombres limit comparar busqueda (.dir name entries next) st = some st' ↔
      (join (ds ++ [name])).length + 1 < MAX_PATH ∧ st.fds < limit ∧ ∃ sub,
        buscarNombres limit comparar busqueda entries
          { comparaNombre comparar busqueda name st with
            fds := st.fds + 1, path := dirPath (ds ++ [name]) } = some sub ∧
        buscarNombres limit comparar busqueda next
          { sub with path := st.path, calls := (dirPath (ds ++ [name]), sub.path) :: sub.calls } =
            some st' := by
  have hlen : (join (ds ++ [name])).length = st.path.length + name.length := by
    rw [join_concat, List.length_append, hp]
  have hpath : (comparaNombre comparar busqueda name st).path = st.path := by
    rw [comparaNombre_out hp]
  have hfds : (comparaNombre comparar busqueda name st).fds = st.fds := by
    rw [comparaNombre_out hp]
  rw [buscarNombres, if_neg (by simp [hd]), hlen, dirPath_concat, ← hp]
  simp only [Option.bind_eq_bind, Option.bind_eq_some_iff, strcat, strcpy_some, openat, hpath, hfds]
  constructor
  case mp =>
    rintro ⟨_, ⟨-, rfl⟩, _, ⟨-, rfl⟩, _, ⟨h, rfl⟩, st₁, ho, sub, hs, _, ⟨-, rfl⟩, hn⟩
    split at ho
    case isTrue hf =>
      cases ho
      rw [List.length_append, List.length_append, List.length_singleton] at h
      exact ⟨h, hf, sub, hs, hn⟩
    case isFalse => cases ho
  case mpr =>
    rintro ⟨h, hf, sub, hs, hn⟩
    refine ⟨_, ⟨by omega, rfl⟩, _, ⟨?_, rfl⟩, _, ⟨?_, rfl⟩, _, if_pos hf, sub, hs, _, ⟨by omega, rfl⟩, hn⟩
    · rw [List.length_append]
      omega
    · rw [List.length_append, List.length_append, List.length_singleton]
      omega

theorem buscarNombres_after (hp : st.path = dirPath ds)
    (h : buscarNombres limit comparar busqueda l st = some st') :
    After comparar busqueda ds l st st' := by
  induction l generalizing ds st st'
  case nil =>
    cases h
    exact ⟨rfl, rfl, by simp [found, Listing.paths], id⟩
  case entry name next ih =>
    rw [buscarNombres] at h
    cases hd : isDots name
    case true =>
      rw [hd, if_pos rfl] at h
      obtain ⟨h₁, h₂, h₃, h₄⟩ := ih hp h
      exact ⟨h₁, h₂, by rw [h₃, Listing.paths, if_pos hd], h₄⟩
    case false =>
      rw [hd, if_neg (by decide), comparaNombre_out hp] at h
      obtain ⟨h₁, h₂, h₃, h₄⟩ := ih (by exact hp) h
      refine ⟨h₁, h₂, ?_, h₄⟩
      rw [h₃, Listing.paths, if_neg (by simp [hd]), found_cons _ (next.paths ds), List.append_assoc]
  case dir name entries next ihe ihn =>
    cases hd : isDots name
    case true =>
      rw [buscarNombres, if_pos hd] at h
      obtain ⟨h₁, h₂, h₃, h₄⟩ := ihn hp h
      exact ⟨h₁, by rw [h₂, Listing.dirs, if_pos hd], by rw [h₃, Listing.paths, if_pos hd], h₄⟩
    case false =>
      obtain ⟨-, -, sub, hsub, hn⟩ := (buscarNombres_dir hd hp).mp h
      rw [comparaNombre_out hp] at hsub
      obtain ⟨e₁, e₂, e₃, e₄⟩ := ihe rfl hsub
      obtain ⟨n₁, n₂, n₃, n₄⟩ := ihn (by exact hp) hn
      simp only at e₁ e₂ e₃ e₄ n₁ n₂ n₃ n₄
      refine ⟨n₁, ?_, ?_, fun hc => n₄ ?_⟩
      · rw [n₂, e₂, Listing.dirs, if_neg (by simp [hd]), List.length_cons, List.length_append]
        omega
      · rw [n₃, e₃, Listing.paths, if_neg (by simp [hd]), found_cons _ (_ ++ _), found_append]
        simp only [List.append_assoc]
      · intro call hm
        rcases List.mem_cons.mp hm with rfl | hm
        · exact e₁
        · exact e₄ hc call hm

theorem buscarNombres_isSome (hp : st.path = dirPath ds) :
    (∃ st', buscarNombres limit comparar busqueda l st = some st') ↔
      (∀ p ∈ l.dirs ds, (join p).length + 1 < MAX_PATH) ∧
        (l.dirs ds ≠ [] → st.fds + (l.dirs ds).length ≤ limit) := by
  induction l generalizing ds st
  case nil => simp [buscarNombres, Listing.dirs]
  case entry name next ih =>
    rw [buscarNombres, Listing.dirs, ih]
    · split
      · rfl
      · rw [comparaNombre_out hp]
    · split
      · exact hp
      · rw [comparaNombre_out hp]
        exact hp
  case dir name entries next ihe ihn =>
    cases hd : isDots name
    case true =>
      rw [buscarNombres, if_pos hd, Listing.dirs, if_pos hd]
      exact ihn hp
    case false =>
      simp only [buscarNombres_dir hd hp]
      rw [Listing.dirs, if_neg (by simp [hd]), comparaNombre_out hp]
      simp only [List.forall_mem_cons, List.forall_mem_append, List.length_cons, List.length_append, ne_eq,
        reduceCtorEq, not_false_eq_true, forall_const]
      constructor
      case mp =>
        rintro ⟨st', h₁, h₂, sub, hsub, hn⟩
        have ha := buscarNombres_after rfl hsub
        obtain ⟨e₁, e₂⟩ := (ihe rfl).mp ⟨sub, hsub⟩
        obtain ⟨n₁, n₂⟩ := (ihn (by exact hp)).mp ⟨st', hn⟩
        refine ⟨⟨h₁, e₁, n₁⟩, ?_⟩
        have hf := ha.fds
        simp only at hf e₂ n₂
        by_cases hn : next.dirs ds = []
        · by_cases he : entries.dirs (ds ++ [name]) = []
          · rw [hn, he]
            exact h₂
          · have hle := e₂ he
            rw [hn, List.length_nil]
            omega
        · have hle := n₂ hn
          omega
      case mpr =>
        rintro ⟨⟨h₁, e₁, n₁⟩, hlim⟩
        obtain ⟨sub, hsub⟩ : ∃ sub, buscarNombres limit comparar busqueda entries { st with
            fds := st.fds + 1, path := dirPath (ds ++ [name]),
            out := st.out ++ found comparar busqueda [ds ++ [name]] } = some sub :=
          (ihe rfl).mpr ⟨e₁, by simp only; omega⟩
        have hf := (buscarNombres_after rfl hsub).fds
        simp only at hf
        obtain ⟨st', hn⟩ : ∃ st', buscarNombres limit comparar busqueda next { sub with
            path := st.path, calls := (dirPath (ds ++ [name]), sub.path) :: sub.calls } = some st' :=
          (ihn (by exact hp)).mpr ⟨n₁, by simp only; omega⟩
        exact ⟨st', h₁, by omega, sub, hsub, hn⟩

end Run

variable (comparar busqueda) in
-- The search finds what it should if and only if the paths of the directories fit.
theorem buscar_nombres_finds_iff {root : Listing} :
    (∃ st, Finds limit comparar busqueda fds root st) ↔ Fits limit fds root := by
  have hp : State.path ⟨[], fds, [], []⟩ = dirPath [] := rfl
  have hs : (∃ st, buscarNombres limit comparar busqueda root ⟨[], fds, [], []⟩ = some st) ↔ _ :=
    buscarNombres_isSome hp
  constructor
  case mp =>
    rintro ⟨st, h⟩
    obtain ⟨h₁, h₂⟩ := hs.mp ⟨st, h.returns⟩
    exact ⟨h₁, h₂⟩
  case mpr =>
    rintro ⟨h₁, h₂⟩
    obtain ⟨st, h⟩ := hs.mpr ⟨h₁, h₂⟩
    have ha := buscarNombres_after hp h
    refine ⟨st, h, ha.out.trans (List.nil_append _), ha.calls fun call hm => ?_, ha.path⟩
    exact absurd hm List.not_mem_nil

-- A directory with a name of 99 characters
theorem not_buscar_nombres_finds : ¬∀ (limit : Nat) (comparar : Str → Str → Bool) (busqueda : Str)
    (fds : Nat) (root : Listing), ∃ st, Finds limit comparar busqueda fds root st := by
  intro hall
  have h := (buscar_nombres_finds_iff strstr ['a']).mp
    (hall 1024 strstr ['a'] 4 (.dir (List.replicate 99 'd') .nil .nil))
  exact absurd (h.paths [List.replicate 99 'd'] List.mem_cons_self) (by decide)

end Fork.Find

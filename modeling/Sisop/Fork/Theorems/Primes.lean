import Sisop.Fork.Primes
import Sisop.Library.Sieve
import Mathlib.Algebra.BigOperators.Group.Finset.Basic
import Mathlib.Algebra.Order.BigOperators.Group.Finset

namespace Fork.Primes

open Function Library

-- What `main` writes from `k` on.
def desde (N k : Int) : List Int := (List.range (N - k).toNat).map fun j : Nat => k + j

-- What a `filtro` process that has read `p` lets through.
def pasan (p : Int) (R : List Int) : List Int := R.filter fun n => n.tmod p ≠ 0

-- What the processes from a `filtro` on report, if the first reads `R`.
def criba : List Int → List Int
  | []     => []
  | p :: R => p :: criba (pasan p R)
termination_by R => R.length
decreasing_by exact Nat.lt_succ_of_le (List.length_filter_le ..)

-- The primes below `N`, in increasing order.
def primos (N : Int) : List Int := ((List.range N.toNat).filter Nat.Prime).map (↑)

section Criba

variable {N k p : Int} {R : List Int}

theorem desde_cons (h : k < N) : desde N k = k :: desde N (k + 1) := by
  have hn : (N - k).toNat = (N - (k + 1)).toNat + 1 := by omega
  rw [desde, hn, List.range_succ_eq_map, List.map_cons, List.map_map, desde]
  simp only [Int.natCast_zero, Int.add_zero, List.cons.injEq, true_and]
  refine List.map_congr_left fun j _ => ?_
  simp only [Function.comp]
  omega

theorem desde_nil (h : N ≤ k) : desde N k = [] := by
  rw [desde, show (N - k).toNat = 0 by omega]
  rfl

theorem pasan_cons_pos {n : Int} (h : n.tmod p ≠ 0) : pasan p (n :: R) = n :: pasan p R :=
  List.filter_cons_of_pos (by simpa using h)

theorem pasan_cons_neg {n : Int} (h : n.tmod p = 0) : pasan p (n :: R) = pasan p R :=
  List.filter_cons_of_neg (by simpa using h)

theorem length_pasan_le : (pasan p R).length ≤ R.length := List.length_filter_le ..

theorem pasan_cast (p : Nat) (l : List Nat) :
    pasan p (l.map (↑)) = ((l.filter fun n => ¬p ∣ n).map (↑) : List Int) := by
  rw [pasan, List.filter_map]
  congr 1
  refine List.filter_congr fun n _ => ?_
  have h : (n : Int).tmod p = 0 ↔ p ∣ n := by
    rw [← Int.dvd_iff_tmod_eq_zero, Int.natCast_dvd_natCast]
  simp [h]

-- On natural numbers this is the sieve.
theorem criba_cast (l : List Nat) : criba (l.map (↑)) = (sieve l).map (↑) := by
  induction hn : l.length using Nat.strongRecOn generalizing l with | _ n hi
  cases l
  case nil => rw [List.map_nil, criba, sieve, List.map_nil]
  case cons p l =>
    have hl : (l.filter fun n => ¬p ∣ n).length < n :=
      hn ▸ Nat.lt_succ_of_le (List.length_filter_le ..)
    rw [List.map_cons, criba, pasan_cast, hi _ hl _ rfl, sieve, List.map_cons]

theorem filter_range_prime (n : Nat) :
    (List.range n).filter Nat.Prime = (List.range' 2 (n - 2)).filter Nat.Prime := by
  match n with
  | 0     => rfl
  | 1     =>
    rw [show List.range 1 = [0] by rfl, List.filter_cons_of_neg (by simpa using Nat.not_prime_zero)]
    rfl
  | n + 2 =>
    rw [List.range_eq_range', List.range'_succ, List.range'_succ,
      List.filter_cons_of_neg (by simpa using Nat.not_prime_zero),
      List.filter_cons_of_neg (by simpa using Nat.not_prime_one), Nat.add_sub_cancel]

theorem criba_desde (N : Int) : criba (desde N 2) = primos N := by
  have hd : desde N 2 = (List.range' 2 (N - 2).toNat).map (↑) := by
    rw [desde, List.range'_eq_map_range, List.map_map]
    refine List.map_congr_left fun j _ => ?_
    simp only [Function.comp]
    omega
  have hn : (N - 2).toNat = N.toNat - 2 := by omega
  rw [hd, criba_cast, sieve_range', primos, filter_range_prime, hn]

end Criba

-- What a `filtro` process writes that reads all of `R`.
def colador : List Int → List Int
  | []     => []
  | p :: R => pasan p R

-- What a process has still to write, if it has still to read `R`.
def pend (N : Int) (R : List Int) : Pc → List Int
  | .mainPipe | .mainFork _                           => desde N 2
  | .mainFor _ k                                      => desde N k
  | .filtro _ | .leer .. | .cerrar _ (some _)         => colador R
  | .informar _ _ p | .bifurcar _ _ p | .filtrar _ _ p => pasan p R
  | .escribir _ _ p n                                 => n :: pasan p R
  | _                                                 => []

-- What a process and the ones that it has still to make have still to report.
def informes (N : Int) (R : List Int) : Pc → List Int
  | .mainPipe | .mainFork _                   => criba (desde N 2)
  | .filtro _ | .leer .. | .cerrar _ (some _) => criba R
  | .informar _ _ p                           => p :: criba (pasan p R)
  | .bifurcar _ _ p                           => criba (pasan p R)
  | _                                         => []

-- A bound for the steps of a `filtro` process that reads `n` numbers, and of those that it makes.
def turnos : Nat → Nat
  | 0     => 2
  | n + 1 => turnos n + 2 * n + 15

-- A bound for the steps of a process and of those that it has still to make.
def pasos (N : Int) (R : List Int) : Pc → Nat
  | .mainPipe           => (N - 2).toNat + 9 + turnos (N - 2).toNat
  | .mainFork _         => (N - 2).toNat + 8 + turnos (N - 2).toNat
  | .mainFor _ k        => (N - k).toNat + 5
  | .filtro _           => turnos R.length
  | .leer ..            => turnos R.length - 1
  | .informar ..        => 2 * R.length + 11 + turnos R.length
  | .bifurcar ..        => 2 * R.length + 10 + turnos R.length
  | .filtrar ..         => 2 * R.length + 6
  | .escribir ..        => 2 * R.length + 7
  | .cerrar l (some _)  => l.length + 1 + turnos R.length
  | .cerrar l none      => l.length + 2
  | .esperar            => 1
  | .exit _ | .sigpipe  => 0

-- Whether a process has made its child.
def Pc.bifurcado : Pc → Bool
  | .mainFor .. | .filtrar .. | .escribir .. | .cerrar _ none | .esperar => true
  | .exit status                                                       => status = 0
  | _                                                                  => false

-- Whether a process has still to make its pipe.
def Pc.sinPipe : Pc → Bool
  | .mainPipe | .filtro _ | .cerrar _ (some _) => true
  | _                                          => false

-- Whether a `filtro` process has seen the end of its input.
def Pc.finDeEntrada : Pc → Bool
  | .cerrar _ none | .esperar | .exit _ | .sigpipe => true
  | _                                              => false

-- The files that a process has open.
def Pc.abiertos : Pc → List Fd
  | .mainFork fds | .mainFor fds _  => [.lectura fds, .escritura fds]
  | .filtro fds                     => [.lectura fds]
  | .leer fds n | .informar fds n _ | .bifurcar fds n _ | .filtrar fds n _ | .escribir fds n _ _ =>
    [.lectura n, .escritura n, .lectura fds]
  | .cerrar l (some fds)            => .lectura fds :: l
  | .cerrar l none                  => l
  | _                               => []

-- Process 0 is `main`. Process `i + 1` reads from pipe `i`, and process `i` writes to it. Apart from
-- it, only the child has the end for writing, until it has closed it.
def Pc.enOrden (i : Nat) : Pc → Prop
  | .mainPipe                  => i = 0
  | .mainFork fds | .mainFor fds _ => i = 0 ∧ fds = 0
  | .filtro fds                => i = fds + 1
  | .leer fds n | .informar fds n _ | .bifurcar fds n _ | .filtrar fds n _ | .escribir fds n _ _ =>
    i = fds + 1 ∧ n = i
  | .cerrar l (some fds)       =>
    i = fds + 1 ∧ l.Nodup ∧ .lectura fds ∉ l ∧ ∀ q, .escritura q ∈ l → q = fds
  | .cerrar l none             => l.Nodup ∧ ∀ q, .escritura q ∈ l → q = i
  | .esperar                   => True
  | .exit status               => status = 0 ∨ status = -1
  | .sigpipe                   => False

-- The invariant of a run, in which process `u` is the youngest, and process `i` has still to read `ρ i`.
structure Inv (N : Int) (s : Sistema) (u : Nat) (ρ : Nat → List Int) : Prop where
  nprocs    : s.nprocs = u + 1
  enOrden   : ∀ i ≤ u, (s.pc i).enOrden i
  abiertos  : ∀ i ≤ u, ∀ fd, fd ∈ (s.procs i).abiertos ↔ fd ∈ (s.pc i).abiertos
  padre     : ∀ i ≤ u, ∀ j, (s.procs i).padre = some j ↔ i = j + 1
  bifurcado : ∀ i ≤ u, (s.pc i).bifurcado ↔ i < u
  npipes    : s.npipes = if (s.pc u).sinPipe then u else u + 1
  vacio     : ∀ q, u ≤ q → s.pipes q = []
  flujo     : ρ 0 = [] ∧ ∀ i < u, ρ (i + 1) = s.pipes i ++ pend N (ρ i) (s.pc i)
  fin       : ∀ i < u, (s.pc (i + 1)).finDeEntrada → s.pipes i = [] ∧ .escritura i ∉ (s.pc i).abiertos
  total     : s.salida ++ informes N (ρ u) (s.pc u) = primos N

def medida (N : Int) (s : Sistema) (u : Nat) (ρ : Nat → List Int) : Nat :=
  ∑ i ∈ Finset.range (u + 1), pasos N (ρ i) (s.pc i)

variable {N : Int} {s s' : Sistema} {u i : Nat} {ρ : Nat → List Int} {p : Proceso} {R : List Int}

-- A step of process `i` that makes no other process: it becomes `p`, and has then still to read `R`.
structure Cambio (N : Int) (s : Sistema) (u : Nat) (ρ : Nat → List Int) (i : Nat) (p : Proceso)
    (R : List Int) (s' : Sistema) : Prop where
  procs     : s'.procs = update s.procs i p
  nprocs    : s'.nprocs = s.nprocs
  padre     : p.padre = (s.procs i).padre
  enOrden   : p.pc.enOrden i
  abiertos  : ∀ fd, fd ∈ p.abiertos ↔ fd ∈ p.pc.abiertos
  bifurcado : p.pc.bifurcado = (s.pc i).bifurcado
  npipes    : s'.npipes = if i = u then (if p.pc.sinPipe then u else u + 1) else s.npipes
  ajenos    : ∀ j, j ≠ i → j + 1 ≠ i → s'.pipes j = s.pipes j
  vacio     : i = u → s'.pipes i = []
  lee₀      : i = 0 → R = []
  lee       : ∀ j, i = j + 1 → R = s'.pipes j ++ pend N (ρ j) (s.pc j)
  escribe   : i < u → ρ (i + 1) = s'.pipes i ++ pend N R p.pc
  fin       : p.pc.finDeEntrada → ∀ j, i = j + 1 → s'.pipes j = [] ∧ .escritura j ∉ (s.pc j).abiertos
  cerrado   : i < u → (s.pc (i + 1)).finDeEntrada → s'.pipes i = [] ∧ .escritura i ∉ p.pc.abiertos
  total     : if i = u then s'.salida ++ informes N R p.pc = s.salida ++ informes N (ρ i) (s.pc i)
    else s'.salida = s.salida
  pasos     : pasos N R p.pc < pasos N (ρ i) (s.pc i)

theorem pc_update (h : s'.procs = update s.procs i p) (j : Nat) :
    s'.pc j = if j = i then p.pc else s.pc j := by
  rw [Sistema.pc, h, update_apply]
  split <;> rfl

-- The step lemma.
theorem Inv.cambia (h : Inv N s u ρ) (hi : i ≤ u) (c : Cambio N s u ρ i p R s') :
    Inv N s' u (update ρ i R) := by
  have hpc := pc_update c.procs
  have hproc (j : Nat) : s'.procs j = if j = i then p else s.procs j := by rw [c.procs, update_apply]
  constructor
  case nprocs => rw [c.nprocs, h.nprocs]
  case enOrden =>
    intro j hj
    rw [hpc]
    split
    case isTrue he  => exact he ▸ c.enOrden
    case isFalse    => exact h.enOrden j hj
  case abiertos =>
    intro j hj fd
    rw [hpc, hproc]
    split
    case isTrue     => exact c.abiertos fd
    case isFalse    => exact h.abiertos j hj fd
  case padre =>
    intro j hj k
    rw [hproc]
    split
    case isTrue he  =>
      rw [c.padre, ← he]
      exact h.padre j hj k
    case isFalse    => exact h.padre j hj k
  case bifurcado =>
    intro j hj
    rw [hpc]
    split
    case isTrue he  =>
      rw [c.bifurcado, ← he]
      exact h.bifurcado j hj
    case isFalse    => exact h.bifurcado j hj
  case npipes =>
    rw [hpc, c.npipes]
    by_cases he : i = u
    · rw [if_pos he, if_pos he.symm]
    · rw [if_neg he, if_neg (Ne.symm he)]
      exact h.npipes
  case vacio =>
    intro q hq
    by_cases he : q = i
    · subst he
      exact c.vacio (by omega)
    · rw [c.ajenos q he (by omega)]
      exact h.vacio q hq
  case flujo =>
    constructor
    · rw [update_apply]
      split
      case isTrue he => exact c.lee₀ he.symm
      case isFalse   => exact h.flujo.left
    · intro j hj
      rw [hpc]
      by_cases hs : j + 1 = i
      · have hne : j ≠ i := by omega
        rw [hs, update_self, if_neg hne, update_of_ne hne]
        exact c.lee j hs.symm
      · rw [update_of_ne hs]
        by_cases he : j = i
        · subst he
          rw [if_pos rfl, update_self]
          exact c.escribe hj
        · rw [if_neg he, update_of_ne he, c.ajenos j he hs]
          exact h.flujo.right j hj
  case fin =>
    intro j hj hf
    rw [hpc] at hf ⊢
    by_cases hs : j + 1 = i
    · rw [if_pos hs] at hf
      rw [if_neg (by omega)]
      exact c.fin hf j hs.symm
    · rw [if_neg hs] at hf
      by_cases he : j = i
      · subst he
        rw [if_pos rfl]
        exact c.cerrado hj hf
      · rw [if_neg he, c.ajenos j he hs]
        exact h.fin j hj hf
  case total =>
    have ht := c.total
    rw [hpc]
    by_cases he : i = u
    · rw [if_pos he] at ht
      rw [if_pos he.symm, ← he, update_self, ht, he]
      exact h.total
    · rw [if_neg he] at ht
      rw [if_neg (Ne.symm he), update_of_ne (Ne.symm he), ht]
      exact h.total

theorem Inv.medida_lt (hi : i ≤ u) (c : Cambio N s u ρ i p R s') :
    medida N s' u (update ρ i R) < medida N s u ρ := by
  have hpc := pc_update c.procs
  refine Finset.sum_lt_sum ?_ ⟨i, Finset.mem_range.mpr (by omega), ?_⟩
  · intro j _
    rw [hpc]
    by_cases he : j = i
    · subst he
      rw [if_pos rfl, update_self]
      exact Nat.le_of_lt c.pasos
    · rw [if_neg he, update_of_ne he]
  · rw [hpc, if_pos rfl, update_self]
    exact c.pasos

-- The invariant holds again, and fewer steps are left.
def Avanza (N : Int) (s : Sistema) (u : Nat) (ρ : Nat → List Int) (s' : Sistema) : Prop :=
  ∃ u' ρ', Inv N s' u' ρ' ∧ medida N s' u' ρ' < medida N s u ρ

theorem Inv.avanza (h : Inv N s u ρ) (hi : i ≤ u) (c : Cambio N s u ρ i p R s') : Avanza N s u ρ s' :=
  ⟨u, update ρ i R, h.cambia hi c, Inv.medida_lt hi c⟩

variable {pc : Pc} {fds n : Nat} {hijo padre : Pc}

-- A process that only goes on, and may close files, or end.
theorem Inv.sigue (h : Inv N s u ρ) (hi : i ≤ u)
    (procs : s'.procs = update s.procs i ⟨pc, p.abiertos, (s.procs i).padre⟩)
    (nprocs : s'.nprocs = s.nprocs) (pipes : s'.pipes = s.pipes) (npipes : s'.npipes = s.npipes)
    (enOrden : pc.enOrden i) (abiertos : ∀ fd, fd ∈ p.abiertos ↔ fd ∈ pc.abiertos)
    (bifurcado : pc.bifurcado = (s.pc i).bifurcado) (sinPipe : i = u → pc.sinPipe = (s.pc i).sinPipe)
    (fin : pc.finDeEntrada → (s.pc i).finDeEntrada ∨
      ∀ j, i = j + 1 → s.pipes j = [] ∧ .escritura j ∉ (s.pc j).abiertos)
    (cierra : .escritura i ∈ pc.abiertos → .escritura i ∈ (s.pc i).abiertos)
    (hpend : pend N (ρ i) pc = pend N (ρ i) (s.pc i))
    (total : if i = u then s'.salida ++ informes N (ρ i) pc = s.salida ++ informes N (ρ i) (s.pc i)
      else s'.salida = s.salida)
    (hpasos : pasos N (ρ i) pc < pasos N (ρ i) (s.pc i)) : Avanza N s u ρ s' := by
  refine h.avanza hi (R := ρ i) ⟨procs, nprocs, rfl, enOrden, abiertos, bifurcado, ?_, ?_, ?_, ?_, ?_, ?_,
    ?_, ?_, total, hpasos⟩
  · rw [npipes]
    by_cases he : i = u
    · rw [if_pos he, sinPipe he, he]
      exact h.npipes
    · rw [if_neg he]
  · intro j _ _
    rw [pipes]
  · intro he
    rw [pipes]
    exact h.vacio i (Nat.le_of_eq he.symm)
  · intro he
    rw [he]
    exact h.flujo.left
  · rintro j rfl
    rw [pipes]
    exact h.flujo.right j (by omega)
  · intro hlt
    rw [pipes, hpend]
    exact h.flujo.right i hlt
  · rintro hf j rfl
    rw [pipes]
    obtain hf | hf := fin hf
    · exact h.fin j (by omega) hf
    · exact hf j rfl
  · intro hlt hf
    rw [pipes]
    obtain ⟨hv, hn⟩ := h.fin i hlt hf
    exact ⟨hv, mt cierra hn⟩

-- A process that has read a number.
theorem Inv.lee {j : Nat} {x : Int} {xs : List Int} (h : Inv N s u ρ) (hi : j + 1 ≤ u)
    (hx : s.pipes j = x :: xs)
    (procs : s'.procs = update s.procs (j + 1) { s.procs (j + 1) with pc })
    (nprocs : s'.nprocs = s.nprocs) (pipes : s'.pipes = update s.pipes j xs)
    (npipes : s'.npipes = s.npipes) (salida : s'.salida = s.salida)
    (enOrden : pc.enOrden (j + 1)) (abiertos : pc.abiertos = (s.pc (j + 1)).abiertos)
    (bifurcado : pc.bifurcado = (s.pc (j + 1)).bifurcado)
    (sinPipe : pc.sinPipe = (s.pc (j + 1)).sinPipe) (fin : pc.finDeEntrada = false)
    (hpend : ∀ R, pend N R pc = pend N (x :: R) (s.pc (j + 1)))
    (hinformes : ∀ R, informes N R pc = informes N (x :: R) (s.pc (j + 1)))
    (hpasos : ∀ R, pasos N R pc < pasos N (x :: R) (s.pc (j + 1))) : Avanza N s u ρ s' := by
  let R := xs ++ pend N (ρ j) (s.pc j)
  have hr : ρ (j + 1) = x :: R := by
    rw [h.flujo.right j hi, hx]
    rfl
  refine h.avanza hi (R := R) ⟨procs, nprocs, rfl, enOrden, ?_, bifurcado, ?_, ?_, ?_, ?_, ?_, ?_, ?_, ?_,
    ?_, ?_⟩
  · intro fd
    rw [abiertos]
    exact h.abiertos (j + 1) hi fd
  · rw [npipes, sinPipe]
    by_cases he : j + 1 = u
    · rw [if_pos he, he]
      exact h.npipes
    · rw [if_neg he]
  · intro k _ hk
    rw [pipes, update_of_ne (by omega)]
  · intro he
    rw [pipes, update_of_ne (by omega)]
    exact h.vacio (j + 1) (Nat.le_of_eq he.symm)
  · intro he
    omega
  · intro k hk
    obtain rfl : j = k := by omega
    rw [pipes, update_self]
  · intro hlt
    rw [pipes, update_of_ne (by omega), hpend, ← hr]
    exact h.flujo.right (j + 1) hlt
  · intro hf
    rw [fin] at hf
    cases hf
  · intro hlt hf
    rw [pipes, update_of_ne (by omega), abiertos]
    exact h.fin (j + 1) hlt hf
  · rw [salida, hinformes, ← hr]
    split <;> rfl
  · rw [hr]
    exact hpasos R

-- A process that has written a number.
theorem Inv.escribe {x : Int} (h : Inv N s u ρ) (hi : i < u)
    (procs : s'.procs = update s.procs i { s.procs i with pc })
    (nprocs : s'.nprocs = s.nprocs) (pipes : s'.pipes = update s.pipes i (s.pipes i ++ [x]))
    (npipes : s'.npipes = s.npipes) (salida : s'.salida = s.salida)
    (abierto : .escritura i ∈ (s.pc i).abiertos)
    (enOrden : pc.enOrden i) (abiertos : pc.abiertos = (s.pc i).abiertos)
    (bifurcado : pc.bifurcado = (s.pc i).bifurcado) (fin : pc.finDeEntrada = false)
    (hpend : pend N (ρ i) (s.pc i) = x :: pend N (ρ i) pc)
    (hpasos : pasos N (ρ i) pc < pasos N (ρ i) (s.pc i)) : Avanza N s u ρ s' := by
  have hne : i ≠ u := Nat.ne_of_lt hi
  refine h.avanza (Nat.le_of_lt hi) (R := ρ i) ⟨procs, nprocs, rfl, enOrden, ?_, bifurcado, ?_, ?_, ?_, ?_,
    ?_, ?_, ?_, ?_, ?_, hpasos⟩
  · intro fd
    rw [abiertos]
    exact h.abiertos i (Nat.le_of_lt hi) fd
  · rw [if_neg hne, npipes]
  · intro j hj _
    rw [pipes, update_of_ne hj]
  · exact fun he => absurd he hne
  · intro he
    rw [he]
    exact h.flujo.left
  · rintro j rfl
    rw [pipes, update_of_ne (by omega)]
    exact h.flujo.right j (by omega)
  · intro _
    rw [pipes, update_self, List.append_assoc, List.singleton_append, ← hpend]
    exact h.flujo.right i hi
  · intro hf
    rw [fin] at hf
    cases hf
  · intro hlt hf
    exact absurd abierto (h.fin i hlt hf).right
  · rw [if_neg hne, salida]

-- The youngest process has made its pipe.
theorem Inv.pipe (h : Inv N s u ρ) {luego : Nat → Pc} (hs : (s.pc u).sinPipe)
    (enOrden : (luego u).enOrden u)
    (abiertos : ∀ fd, fd ∈ .lectura u :: .escritura u :: (s.pc u).abiertos ↔ fd ∈ (luego u).abiertos)
    (bifurcado : (luego u).bifurcado = (s.pc u).bifurcado) (sinPipe : (luego u).sinPipe = false)
    (fin : (luego u).finDeEntrada = false)
    (hinformes : informes N (ρ u) (luego u) = informes N (ρ u) (s.pc u))
    (hpasos : pasos N (ρ u) (luego u) < pasos N (ρ u) (s.pc u)) :
    Avanza N s u ρ (s.pipe u luego) := by
  have hn : s.npipes = u := by rw [h.npipes, if_pos hs]
  have hv : s.pipes u = [] := h.vacio u (Nat.le_refl u)
  have hp : (s.pipe u luego).pipes = s.pipes := by
    simp only [Sistema.pipe, hn]
    rw [← hv, update_eq_self]
  refine h.avanza (Nat.le_refl u) (R := ρ u)
    (p := ⟨luego u, .lectura u :: .escritura u :: (s.procs u).abiertos, (s.procs u).padre⟩)
    ⟨?_, rfl, rfl, enOrden, ?_, bifurcado, ?_, ?_, ?_, ?_, ?_, ?_, ?_, ?_, ?_, hpasos⟩
  · simp only [Sistema.pipe, hn]
  · intro fd
    rw [← abiertos fd]
    simp only [List.mem_cons, h.abiertos u (Nat.le_refl u) fd]
  · rw [if_pos rfl, sinPipe]
    simp only [Sistema.pipe, hn, Bool.false_eq_true, if_false]
  · intro j _ _
    rw [hp]
  · intro _
    rw [hp, hv]
  · intro he
    rw [he]
    exact h.flujo.left
  · rintro j rfl
    rw [hp]
    exact h.flujo.right j (by omega)
  · exact fun hlt => absurd hlt (Nat.lt_irrefl u)
  · intro hf
    rw [fin] at hf
    cases hf
  · exact fun hlt => absurd hlt (Nat.lt_irrefl u)
  · rw [if_pos rfl, hinformes]
    rfl

-- The youngest process has made a child.
theorem Inv.fork (h : Inv N s u ρ) (hs : (s.pc u).sinPipe = false) (ordenPadre : padre.enOrden u)
    (ordenHijo : hijo.enOrden (u + 1)) (abiertosPadre : padre.abiertos = (s.pc u).abiertos)
    (abiertosHijo : ∀ fd, fd ∈ (s.pc u).abiertos ↔ fd ∈ hijo.abiertos)
    (bifurcadoPadre : padre.bifurcado) (bifurcadoHijo : hijo.bifurcado = false) (sinPipe : hijo.sinPipe)
    (finPadre : padre.finDeEntrada = false) (finHijo : hijo.finDeEntrada = false)
    (hinformes : informes N (pend N (ρ u) padre) hijo = informes N (ρ u) (s.pc u))
    (hpasos : pasos N (ρ u) padre + pasos N (pend N (ρ u) padre) hijo < pasos N (ρ u) (s.pc u)) :
    Avanza N s u ρ (s.fork u hijo padre) := by
  let s' := s.fork u hijo padre
  let R := pend N (ρ u) padre
  have hproc (j : Nat) : s'.procs j = if j = u + 1 then ⟨hijo, (s.procs u).abiertos, some u⟩
      else if j = u then { s.procs u with pc := padre } else s.procs j := by
    simp only [s', Sistema.fork, h.nprocs, update_apply]
  have hpc (j : Nat) : s'.pc j = if j = u + 1 then hijo else if j = u then padre else s.pc j := by
    rw [Sistema.pc, hproc]
    split
    case isTrue => rfl
    case isFalse => split <;> rfl
  have hpcu : s'.pc u = padre := by rw [hpc, if_neg (by omega), if_pos rfl]
  have hpch : s'.pc (u + 1) = hijo := by rw [hpc, if_pos rfl]
  have hpcj {j : Nat} (hj : j < u) : s'.pc j = s.pc j := by
    rw [hpc, if_neg (by omega), if_neg (by omega)]
  have hle {j : Nat} (hj : j ≤ u + 1) : j < u ∨ j = u ∨ j = u + 1 := by omega
  have hρ {j : Nat} (hj : j ≤ u) : update ρ (u + 1) R j = ρ j := update_of_ne (by omega) ..
  refine ⟨u + 1, update ρ (u + 1) R, ?inv, ?medida⟩
  case inv =>
    constructor
    case nprocs => exact congrArg (· + 1) h.nprocs
    case enOrden =>
      intro j hj
      rcases hle hj with hj | rfl | rfl
      · rw [hpcj hj]
        exact h.enOrden j (by omega)
      · rwa [hpcu]
      · rwa [hpch]
    case abiertos =>
      intro j hj fd
      rcases hle hj with hj | rfl | rfl
      · rw [hpcj hj, hproc, if_neg (by omega), if_neg (by omega)]
        exact h.abiertos j (by omega) fd
      · rw [hpcu, hproc, if_neg (by omega), if_pos rfl, abiertosPadre]
        exact h.abiertos j (Nat.le_refl j) fd
      · rw [hpch, hproc, if_pos rfl, ← abiertosHijo]
        exact h.abiertos u (Nat.le_refl u) fd
    case padre =>
      intro j hj k
      rcases hle hj with hj | rfl | rfl
      · rw [hproc, if_neg (by omega), if_neg (by omega)]
        exact h.padre j (by omega) k
      · rw [hproc, if_neg (by omega), if_pos rfl]
        exact h.padre j (Nat.le_refl j) k
      · rw [hproc, if_pos rfl, Option.some.injEq]
        omega
    case bifurcado =>
      intro j hj
      rcases hle hj with hj | rfl | rfl
      · rw [hpcj hj, h.bifurcado j (by omega)]
        omega
      · rw [hpcu]
        exact iff_of_true bifurcadoPadre (Nat.lt_succ_self j)
      · rw [hpch, bifurcadoHijo]
        exact iff_of_false Bool.false_ne_true (Nat.lt_irrefl _)
    case npipes =>
      rw [hpch, if_pos sinPipe]
      have hn := h.npipes
      rwa [hs, if_neg Bool.false_ne_true] at hn
    case vacio => exact fun q hq => h.vacio q (Nat.le_of_succ_le hq)
    case flujo =>
      constructor
      · rw [hρ (Nat.zero_le u)]
        exact h.flujo.left
      · intro j hj
        rcases hle (Nat.le_of_lt hj) with hlt | rfl | rfl
        · rw [hρ (by omega), hρ (by omega), hpcj hlt]
          exact h.flujo.right j hlt
        · have hv : s'.pipes j = [] := h.vacio j (Nat.le_refl j)
          rw [update_self, hρ (Nat.le_refl j), hpcu, hv]
          rfl
        · omega
    case fin =>
      intro j hj hf
      rcases hle (Nat.le_of_lt hj) with hlt | rfl | rfl
      · by_cases he : j + 1 = u
        · rw [he, hpcu, finPadre] at hf
          cases hf
        · rw [hpcj (by omega)] at hf
          rw [hpcj hlt]
          exact h.fin j hlt hf
      · rw [hpch, finHijo] at hf
        cases hf
      · omega
    case total =>
      rw [update_self, hpch, hinformes]
      exact h.total
  case medida =>
    have hd : ∑ j ∈ Finset.range u, pasos N (update ρ (u + 1) R j) (s'.pc j) =
        ∑ j ∈ Finset.range u, pasos N (ρ j) (s.pc j) := by
      refine Finset.sum_congr rfl fun j hj => ?_
      have hj := Finset.mem_range.mp hj
      rw [hρ (by omega), hpcj hj]
    have hlt : pasos N (ρ u) padre + pasos N R hijo < pasos N (ρ u) (s.pc u) := hpasos
    rw [medida, medida, Finset.sum_range_succ, Finset.sum_range_succ, Finset.sum_range_succ, hd,
      update_self, hρ (Nat.le_refl u), hpcu, hpch]
    omega

section Turnos

theorem two_le_turnos (n : Nat) : 2 ≤ turnos n := by
  induction n
  case zero => exact Nat.le_refl 2
  case succ => rw [turnos]; omega

theorem turnos_mono {m n : Nat} (h : m ≤ n) : turnos m ≤ turnos n := by
  induction h
  case refl => exact Nat.le_refl _
  case step hi => rw [turnos]; omega

theorem length_desde (N k : Int) : (desde N k).length = (N - k).toNat := by simp [desde]

end Turnos

-- What one `close` leaves open and in order.
theorem Pc.enOrden.cierra {fd : Fd} {l : List Fd} {luego : Option Nat}
    (h : (Pc.cerrar (fd :: l) luego).enOrden i) : (Pc.cerrar l luego).enOrden i := by
  cases luego
  case none => exact ⟨(List.nodup_cons.mp h.left).right, fun q hq => h.right q (List.mem_cons_of_mem _ hq)⟩
  case some =>
    obtain ⟨hi, hn, hl, hq⟩ := h
    exact ⟨hi, (List.nodup_cons.mp hn).right, fun hm => hl (List.mem_cons_of_mem _ hm),
      fun q hm => hq q (List.mem_cons_of_mem _ hm)⟩

theorem Pc.enOrden.abiertos_cierra {fd fd' : Fd} {l : List Fd} {luego : Option Nat}
    (h : (Pc.cerrar (fd :: l) luego).enOrden i) :
    fd' ∈ (Pc.cerrar (fd :: l) luego).abiertos ∧ fd' ≠ fd ↔ fd' ∈ (Pc.cerrar l luego).abiertos := by
  cases luego
  case none =>
    have hn := (List.nodup_cons.mp h.left).left
    simp only [Pc.abiertos, List.mem_cons]
    grind
  case some g =>
    obtain ⟨-, hn, hl, -⟩ := h
    have hn := (List.nodup_cons.mp hn).left
    simp only [Pc.abiertos, List.mem_cons]
    grind

namespace Inv

variable (h : Inv N s u ρ)
include h

theorem abierto_iff {fd : Fd} : s.abierto fd = true ↔ ∃ j ≤ u, fd ∈ (s.pc j).abiertos := by
  simp only [Sistema.abierto, List.any_eq_true, List.mem_range, decide_eq_true_iff, h.nprocs,
    Nat.lt_succ_iff]
  refine exists_congr fun j => and_congr_right fun hj => ?_
  exact h.abiertos j hj fd

-- The youngest process is the only one that has made no child.
theorem eq_of_not_bifurcado (hi : i ≤ u) (hb : (s.pc i).bifurcado = false) : i = u := by
  have hn := (h.bifurcado i hi).not.mp (by simp [hb])
  omega

-- What `read` finds in the pipe of a process.
theorem read_cases {j : Nat} (hi : j + 1 ≤ u) (ha : .lectura j ∈ (s.pc (j + 1)).abiertos) :
    (s.pipes j = [] ∧ s.abierto (.escritura j) ∧ s.read (j + 1) j = none) ∨
    (s.pipes j = [] ∧ s.abierto (.escritura j) = false ∧ s.read (j + 1) j = some (none, s)) ∨
    ∃ x xs, s.pipes j = x :: xs ∧
      s.read (j + 1) j = some (some x, { s with pipes := update s.pipes j xs }) := by
  have hm := (h.abiertos (j + 1) hi _).mpr ha
  rw [Sistema.read, if_neg (not_not.mpr hm)]
  cases hp : s.pipes j
  case nil =>
    cases hw : s.abierto (.escritura j)
    case true  => exact .inl ⟨rfl, rfl, rfl⟩
    case false => exact .inr (.inl ⟨rfl, rfl, rfl⟩)
  case cons x xs => exact .inr (.inr ⟨x, xs, rfl, rfl⟩)

-- A process that writes has both ends of its pipe open.
theorem write_cases {c : Capacidad} {x : Int} (hi : i ≤ u) (hw : .escritura i ∈ (s.pc i).abiertos)
    (hr : .lectura i ∈ (s.pc i).abiertos) :
    (c.lleno (s.pipes i).length ∧ s.write i c i x = none) ∨
    s.write i c i x = some (.bien, { s with pipes := update s.pipes i (s.pipes i ++ [x]) }) := by
  have hm := (h.abiertos i hi _).mpr hw
  have ha : s.abierto (.lectura i) = true := h.abierto_iff.mpr ⟨i, hi, hr⟩
  rw [Sistema.write, if_neg (not_not.mpr hm), ha]
  cases hl : c.lleno (s.pipes i).length
  case true  => exact .inl ⟨rfl, rfl⟩
  case false => exact .inr rfl

-- A process that has closed its pipe has nothing left to write.
theorem pend_of_cerrado {R : List Int} (hi : i < u) (hw : .escritura i ∉ (s.pc i).abiertos) :
    pend N R (s.pc i) = [] := by
  have ord := h.enOrden i (Nat.le_of_lt hi)
  have hb := (h.bifurcado i (Nat.le_of_lt hi)).mpr hi
  cases hpc : s.pc i <;> rw [hpc] at ord hb hw
  case mainFor fds k =>
    obtain ⟨rfl, rfl⟩ := ord
    simp [Pc.abiertos] at hw
  case filtrar fds n p =>
    obtain ⟨-, rfl⟩ := ord
    simp [Pc.abiertos] at hw
  case escribir fds n p x =>
    obtain ⟨-, rfl⟩ := ord
    simp [Pc.abiertos] at hw
  case cerrar l luego =>
    cases luego
    case none => rfl
    case some => cases hb
  case esperar => rfl
  case exit    => rfl
  case sigpipe => cases ord
  all_goals cases hb

-- The end of the input comes when everything has been read.
theorem rest_eq_nil {j : Nat} (hi : j + 1 ≤ u) (hp : s.pipes j = [])
    (ha : s.abierto (.escritura j) = false) : .escritura j ∉ (s.pc j).abiertos ∧ ρ (j + 1) = [] := by
  have hw : .escritura j ∉ (s.pc j).abiertos := by
    intro hw
    rw [h.abierto_iff.mpr ⟨j, by omega, hw⟩] at ha
    cases ha
  refine ⟨hw, ?_⟩
  rw [h.flujo.right j hi, hp, h.pend_of_cerrado hi hw]
  rfl

-- One step of a process of the chain, one case for each place where it can be.
theorem paso {c : Capacidad} (hs : paso c N s i = some s') : Avanza N s u ρ s' := by
  have hi : i ≤ u := by
    by_contra hc
    rw [Primes.paso, if_pos (by rw [h.nprocs]; omega)] at hs
    cases hs
  have hn : ¬s.nprocs ≤ i := by rw [h.nprocs]; omega
  have ord := h.enOrden i hi
  have abi := h.abiertos i hi
  rw [Primes.paso, if_neg hn] at hs
  cases hpc : s.pc i <;> rw [hpc] at ord abi hs <;> simp only at hs
  case mainPipe =>
    obtain rfl : i = u := h.eq_of_not_bifurcado hi (by rw [hpc]; rfl)
    cases hs
    refine h.pipe (by rw [hpc]; rfl) ⟨ord, ord⟩ ?_ ?_ rfl rfl ?_ ?_ <;> rw [hpc]
    · intro fd
      rfl
    · rfl
    · rfl
    · simp only [pasos]
      omega
  case filtro fds =>
    obtain rfl : i = u := h.eq_of_not_bifurcado hi (by rw [hpc]; rfl)
    cases hs
    refine h.pipe (by rw [hpc]; rfl) ⟨ord, rfl⟩ ?_ ?_ rfl rfl ?_ ?_ <;> rw [hpc]
    · intro fd
      rfl
    · rfl
    · rfl
    · have := two_le_turnos (ρ i).length
      simp only [pasos]
      omega
  case mainFork fds =>
    obtain rfl : i = u := h.eq_of_not_bifurcado hi (by rw [hpc]; rfl)
    obtain ⟨rfl, rfl⟩ := ord
    cases hs
    refine h.fork (by rw [hpc]; rfl) ⟨rfl, rfl⟩ ?_ ?_ ?_ rfl rfl rfl rfl rfl ?_ ?_ <;> try rw [hpc]
    · simp [Pc.enOrden]
    · rfl
    · simp [Pc.abiertos]
    · rfl
    · simp only [pasos, pend, length_desde, List.length_singleton]
      omega
  case mainFor fds k =>
    obtain ⟨rfl, rfl⟩ := ord
    have hlt : 0 < u := (h.bifurcado 0 hi).mp (by rw [hpc]; rfl)
    split at hs
    case isTrue hk =>
      have hw : .escritura 0 ∈ (s.pc 0).abiertos := by rw [hpc]; simp [Pc.abiertos]
      have hr : .lectura 0 ∈ (s.pc 0).abiertos := by rw [hpc]; simp [Pc.abiertos]
      obtain ⟨-, he⟩ | he := h.write_cases (c := c) (x := k) hi hw hr <;> rw [he] at hs
      · cases hs
      · cases hs
        refine h.escribe hlt rfl rfl rfl rfl rfl hw ⟨rfl, rfl⟩ ?_ ?_ rfl ?_ ?_ <;> rw [hpc]
        · rfl
        · rfl
        · exact desde_cons hk
        · simp only [pasos]
          omega
    case isFalse hk =>
      cases hs
      refine h.sigue (p := s.procs 0) hi rfl rfl rfl rfl ?_ ?_ ?_ ?_ ?_ ?_ ?_ ?_ ?_ <;> try rw [hpc]
      · simp [Pc.enOrden]
      · exact abi
      · rfl
      · intro
        rfl
      · exact fun _ => .inr fun j hj => by omega
      · exact id
      · exact (desde_nil (Int.not_lt.mp hk)).symm
      · rw [if_neg (Nat.ne_of_lt hlt)]
        rfl
      · simp only [pasos, List.length_cons, List.length_nil]
        omega
  case leer fds n =>
    obtain ⟨rfl, rfl⟩ := ord
    have hu : fds + 1 = u := h.eq_of_not_bifurcado hi (by rw [hpc]; rfl)
    have ha : .lectura fds ∈ (s.pc (fds + 1)).abiertos := by rw [hpc]; simp [Pc.abiertos]
    obtain ⟨-, -, he⟩ | ⟨hp, hw, he⟩ | ⟨x, xs, hx, he⟩ := h.read_cases hi ha <;> rw [he] at hs
    · cases hs
    · cases hs
      obtain ⟨hw, hr⟩ := h.rest_eq_nil hi hp hw
      refine h.sigue (p := ⟨.esperar, [], none⟩) hi rfl rfl rfl rfl (.inr rfl) ?_ ?_ ?_ ?_ ?_ ?_ ?_ ?_ <;>
        try rw [hpc]
      · intro fd
        rfl
      · rfl
      · intro
        rfl
      · intro
        refine .inr fun j hj => ?_
        obtain rfl : fds = j := by omega
        exact ⟨hp, hw⟩
      · intro hc
        cases hc
      · rw [hr]
        rfl
      · rw [if_pos hu, hr]
        simp [Sistema.termina, informes, criba]
      · rw [hr]
        exact Nat.zero_lt_one
    · cases hs
      refine h.lee hi hx rfl rfl rfl rfl rfl ⟨rfl, rfl⟩ ?_ ?_ ?_ rfl ?_ ?_ ?_ <;> rw [hpc]
      · rfl
      · rfl
      · rfl
      · intro R
        rfl
      · intro R
        simp [informes, criba]
      · intro R
        simp only [pasos, List.length_cons, turnos]
        omega
  case informar fds n p =>
    obtain ⟨rfl, rfl⟩ := ord
    have hu : fds + 1 = u := h.eq_of_not_bifurcado hi (by rw [hpc]; rfl)
    cases hs
    refine h.sigue (p := s.procs (fds + 1)) hi rfl rfl rfl rfl ⟨rfl, rfl⟩ ?_ ?_ ?_ ?_ ?_ ?_ ?_ ?_ <;>
      try rw [hpc]
    · exact abi
    · rfl
    · intro
      rfl
    · intro hc
      cases hc
    · exact id
    · rfl
    · rw [if_pos hu]
      simp [Sistema.sigue, informes]
    · simp only [pasos]
      omega
  case bifurcar fds n p =>
    obtain ⟨rfl, rfl⟩ := ord
    obtain rfl : fds + 1 = u := h.eq_of_not_bifurcado hi (by rw [hpc]; rfl)
    cases hs
    refine h.fork (by rw [hpc]; rfl) ⟨rfl, rfl⟩ ?_ ?_ ?_ rfl rfl rfl rfl rfl ?_ ?_ <;> try rw [hpc]
    · simp [Pc.enOrden]
    · rfl
    · intro fd
      simp only [Pc.abiertos, List.mem_cons, List.not_mem_nil, or_false]
      tauto
    · rfl
    · have hm : turnos (pasan p (ρ (fds + 1))).length ≤ turnos (ρ (fds + 1)).length :=
        turnos_mono length_pasan_le
      simp only [pasos, pend, List.length_cons, List.length_nil]
      omega
  case filtrar fds n p =>
    obtain ⟨rfl, rfl⟩ := ord
    have hlt : fds + 1 < u := (h.bifurcado (fds + 1) hi).mp (by rw [hpc]; rfl)
    have ha : .lectura fds ∈ (s.pc (fds + 1)).abiertos := by rw [hpc]; simp [Pc.abiertos]
    obtain ⟨-, -, he⟩ | ⟨hp, hw, he⟩ | ⟨x, xs, hx, he⟩ := h.read_cases hi ha <;> rw [he] at hs
    · cases hs
    · cases hs
      obtain ⟨hw, hr⟩ := h.rest_eq_nil hi hp hw
      refine h.sigue (p := s.procs (fds + 1)) hi rfl rfl rfl rfl ?_ ?_ ?_ ?_ ?_ ?_ ?_ ?_ ?_ <;>
        try rw [hpc]
      · simp [Pc.enOrden]
      · intro fd
        rw [abi]
        simp only [Pc.abiertos, List.mem_cons, List.not_mem_nil, or_false]
        tauto
      · rfl
      · intro
        rfl
      · intro
        refine .inr fun j hj => ?_
        obtain rfl : fds = j := by omega
        exact ⟨hp, hw⟩
      · intro
        simp [Pc.abiertos]
      · rw [hr]
        rfl
      · rw [if_neg (Nat.ne_of_lt hlt)]
        rfl
      · simp only [pasos, List.length_cons, List.length_nil]
        omega
    · simp only at hs
      split at hs
      case isTrue hx' =>
        cases hs
        refine h.lee hi hx rfl rfl rfl rfl rfl ⟨rfl, rfl⟩ ?_ ?_ ?_ rfl ?_ ?_ ?_ <;> rw [hpc]
        · rfl
        · rfl
        · rfl
        · exact fun R => (pasan_cons_pos hx').symm
        · exact fun R => rfl
        · intro R
          simp only [pasos, List.length_cons]
          omega
      case isFalse hx' =>
        cases hs
        refine h.lee hi hx rfl rfl rfl rfl rfl ⟨rfl, rfl⟩ ?_ ?_ ?_ rfl ?_ ?_ ?_ <;> rw [hpc]
        · exact fun R => (pasan_cons_neg (not_not.mp hx')).symm
        · exact fun R => rfl
        · intro R
          simp only [pasos, List.length_cons]
          omega
  case escribir fds n p x =>
    obtain ⟨rfl, rfl⟩ := ord
    have hlt : fds + 1 < u := (h.bifurcado (fds + 1) hi).mp (by rw [hpc]; rfl)
    have hw : .escritura (fds + 1) ∈ (s.pc (fds + 1)).abiertos := by rw [hpc]; simp [Pc.abiertos]
    have hr : .lectura (fds + 1) ∈ (s.pc (fds + 1)).abiertos := by rw [hpc]; simp [Pc.abiertos]
    obtain ⟨-, he⟩ | he := h.write_cases (c := c) (x := x) hi hw hr <;> rw [he] at hs
    · cases hs
    · cases hs
      refine h.escribe hlt rfl rfl rfl rfl rfl hw ⟨rfl, rfl⟩ ?_ ?_ rfl ?_ ?_ <;> rw [hpc]
      · rfl
      · rfl
      · rfl
      · exact Nat.lt_succ_self _
  case cerrar l luego =>
    cases l
    case cons fd l =>
      cases hs
      have hm (fd' : Fd) : fd' ∈ (s.procs i).abiertos.filter (· ≠ fd) ↔
          fd' ∈ (Pc.cerrar (fd :: l) luego).abiertos ∧ fd' ≠ fd := by
        rw [List.mem_filter, abi, decide_eq_true_iff]
      refine h.sigue (p := ⟨.esperar, (s.procs i).abiertos.filter (· ≠ fd), none⟩) hi rfl rfl rfl rfl
        ?_ ?_ ?_ ?_ ?_ ?_ ?_ ?_ ?_ <;> try rw [hpc]
      · exact ord.cierra
      · intro fd'
        rw [hm]
        exact ord.abiertos_cierra
      · cases luego <;> rfl
      · intro
        cases luego <;> rfl
      · intro hf
        cases luego
        case none => exact .inl rfl
        case some => cases hf
      · exact fun hf => (ord.abiertos_cierra.mpr hf).left
      · cases luego <;> rfl
      · cases luego <;> split <;> rfl
      · cases luego <;> simp only [pasos, List.length_cons] <;> omega
    case nil =>
      cases luego <;> cases hs
      case none =>
        refine h.sigue (p := s.procs i) hi rfl rfl rfl rfl trivial ?_ ?_ ?_ ?_ ?_ ?_ ?_ ?_ <;>
          try rw [hpc]
        · exact abi
        · rfl
        · intro
          rfl
        · exact fun _ => .inl rfl
        · exact id
        · rfl
        · split <;> rfl
        · exact Nat.lt_succ_self 1
      case some fds =>
        refine h.sigue (p := s.procs i) hi rfl rfl rfl rfl ord.left ?_ ?_ ?_ ?_ ?_ ?_ ?_ ?_ <;>
          try rw [hpc]
        · exact abi
        · rfl
        · intro
          rfl
        · intro hf
          cases hf
        · exact id
        · rfl
        · split <;> rfl
        · simp only [pasos, List.length_nil]
          omega
  case esperar =>
    split at hs <;> cases hs
    have hlt : i < u := (h.bifurcado i hi).mp (by rw [hpc]; rfl)
    refine h.sigue (p := ⟨.esperar, [], none⟩) hi rfl rfl rfl rfl (.inl rfl) ?_ ?_ ?_ ?_ ?_ ?_ ?_ ?_ <;>
      try rw [hpc]
    · intro fd
      rfl
    · rfl
    · intro
      rfl
    · exact fun _ => .inl rfl
    · exact id
    · rfl
    · rw [if_neg (Nat.ne_of_lt hlt)]
      rfl
    · exact Nat.zero_lt_one
  case exit    => cases hs
  case sigpipe => cases hs

-- Whose ends for writing there are.
theorem escritor {q : Nat} (hi : i ≤ u) (hm : .escritura q ∈ (s.pc i).abiertos) :
    i = q ∨ i = q + 1 ∧ ∃ l, s.pc i = .cerrar l (some q) := by
  have ord := h.enOrden i hi
  cases hpc : s.pc i <;> rw [hpc] at ord hm
  case cerrar l luego =>
    cases luego
    case none => exact .inl (ord.right q hm).symm
    case some g =>
      obtain ⟨hg, -, -, hl⟩ := ord
      obtain rfl : q = g := hl q (by simpa [Pc.abiertos] using hm)
      exact .inr ⟨hg, l, rfl⟩
  case mainPipe => cases hm
  case esperar  => cases hm
  case exit     => cases hm
  case sigpipe  => cases hm
  case filtro   => simp [Pc.abiertos] at hm
  all_goals
    simp only [Pc.abiertos, List.mem_cons, List.not_mem_nil, Fd.escritura.injEq, reduceCtorEq, or_false,
      false_or] at hm
    simp only [Pc.enOrden] at ord
    omega

section Stuck

variable {c : Capacidad} (hs : ∀ i, Primes.paso c N s i = none)
include hs

-- Closing never waits.
theorem not_cerrar {l : List Fd} {luego : Option Nat} (hi : i ≤ u) : s.pc i ≠ .cerrar l luego := by
  intro hpc
  have hp := hs i
  rw [Primes.paso, if_neg (by rw [h.nprocs]; omega), hpc] at hp
  cases l
  case cons => cases hp
  case nil  => cases luego <;> cases hp

-- A process waits to read where its pipe is empty and may still be written to.
theorem read_waits {fds n : Nat} {x : Int} (hi : i ≤ u)
    (hpc : s.pc i = .leer fds n ∨ s.pc i = .filtrar fds n x) :
    i = fds + 1 ∧ s.pipes fds = [] ∧ s.abierto (.escritura fds) := by
  have hn : ¬s.nprocs ≤ i := by rw [h.nprocs]; omega
  have ord := h.enOrden i hi
  have hp := hs i
  rw [Primes.paso, if_neg hn] at hp
  have hi' : i = fds + 1 := by
    obtain hpc | hpc := hpc <;> rw [hpc] at ord <;> exact ord.left
  have ha : .lectura fds ∈ (s.pc (fds + 1)).abiertos := by
    rw [← hi']
    obtain hpc | hpc := hpc <;> rw [hpc] <;> simp [Pc.abiertos]
  subst hi'
  obtain ⟨hv, hw, -⟩ | ⟨-, -, he⟩ | ⟨y, ys, -, he⟩ := h.read_cases hi ha
  · exact ⟨rfl, hv, hw⟩
  · obtain hpc | hpc := hpc <;> rw [hpc] at hp <;> simp only [he] at hp <;> cases hp
  · obtain hpc | hpc := hpc <;> rw [hpc] at hp <;> simp only [he] at hp
    · cases hp
    · split at hp <;> cases hp

-- A process waits to write where its pipe is full.
theorem write_waits (hi : i ≤ u) {fds n : Nat} {x k : Int}
    (hpc : s.pc i = .mainFor fds k ∨ s.pc i = .escribir fds n x k) : c.lleno (s.pipes i).length := by
  have hn : ¬s.nprocs ≤ i := by rw [h.nprocs]; omega
  have ord := h.enOrden i hi
  have hp := hs i
  rw [Primes.paso, if_neg hn] at hp
  have hab : .escritura i ∈ (s.pc i).abiertos ∧ .lectura i ∈ (s.pc i).abiertos := by
    obtain hpc | hpc := hpc <;> rw [hpc] at ord ⊢ <;> obtain ⟨h₁, h₂⟩ := ord <;>
      simp [Pc.abiertos, h₁, h₂]
  obtain ⟨hl, -⟩ | he := h.write_cases (c := c) (x := k) hi hab.left hab.right
  · exact hl
  · obtain hpc | hpc := hpc <;> rw [hpc] at hp ord
    · obtain ⟨rfl, rfl⟩ := ord
      simp only [he] at hp
      split at hp <;> cases hp
    · obtain ⟨-, rfl⟩ := ord
      simp only [he] at hp
      cases hp

-- Somebody up the chain could go on if a process waited to read.
theorem not_read_waits (j : Nat) (hj : j < u) (hv : s.pipes j = [])
    (hw : s.abierto (.escritura j)) : False := by
  induction j using Nat.strongRecOn with | _ j hi
  obtain ⟨k, hk, hm⟩ := h.abierto_iff.mp hw
  obtain rfl | ⟨-, l, hl⟩ := h.escritor hk hm
  case inr => exact h.not_cerrar hs hk hl
  have hb := (h.bifurcado k hk).mpr hj
  have hfull {fds n : Nat} {x y : Int}
      (hpc : s.pc k = .mainFor fds y ∨ s.pc k = .escribir fds n x y) : False := by
    have hl := h.write_waits hs hk hpc
    rw [hv, List.length_nil, c.vacio] at hl
    cases hl
  cases hpc : s.pc k <;> rw [hpc] at hb hm
  case mainFor fds y => exact @hfull fds 0 0 y (.inl hpc)
  case escribir fds n x y => exact hfull (.inr hpc)
  case filtrar fds n x =>
    obtain ⟨hk', hv', hw'⟩ := h.read_waits hs hk (.inr hpc)
    exact hi fds (by omega) (by omega) hv' hw'
  case cerrar => exact h.not_cerrar hs hk hpc
  case esperar => cases hm
  case exit => cases hm
  case sigpipe => cases hm
  all_goals cases hb

-- Where nothing can go on, everything has ended.
theorem terminado (hi : i ≤ u) : ∃ status, s.pc i = .exit status := by
  -- From the youngest process to the oldest.
  induction hd : u - i using Nat.strongRecOn generalizing i with | _ d hj
  have hn : ¬s.nprocs ≤ i := by rw [h.nprocs]; omega
  have hp := hs i
  rw [Primes.paso, if_neg hn] at hp
  have hb := h.bifurcado i hi
  have hend (hlt : i < u) : ∃ status, s.pc (i + 1) = .exit status := hj (u - (i + 1)) (by omega) hlt rfl
  have hread {fds n : Nat} {x : Int} (hpc : s.pc i = .leer fds n ∨ s.pc i = .filtrar fds n x) : False := by
    obtain ⟨hi', hv, hw⟩ := h.read_waits hs hi hpc
    exact h.not_read_waits hs fds (by omega) hv hw
  have hwrite {fds n : Nat} {x k : Int} (hlt : i < u)
      (hpc : s.pc i = .mainFor fds k ∨ s.pc i = .escribir fds n x k) : False := by
    have hl := h.write_waits hs hi hpc
    obtain ⟨status, hst⟩ := hend hlt
    obtain ⟨hv, -⟩ := h.fin i hlt (by rw [hst]; rfl)
    rw [hv, List.length_nil, c.vacio] at hl
    cases hl
  cases hpc : s.pc i <;> rw [hpc] at hp hb
  case mainFor fds k => exact (@hwrite fds 0 0 k (hb.mp rfl) (.inl hpc)).elim
  case escribir fds n x k => exact (hwrite (hb.mp rfl) (.inr hpc)).elim
  case leer fds n => exact (@hread fds n 0 (.inl hpc)).elim
  case filtrar fds n x => exact (hread (.inr hpc)).elim
  case cerrar => exact absurd hpc (h.not_cerrar hs hi)
  case esperar =>
    have hlt : i < u := hb.mp rfl
    obtain ⟨status, hst⟩ := hend hlt
    have hw : s.wait i = true := by
      simp only [Sistema.wait, Bool.or_eq_true, List.any_eq_true, List.mem_filter, List.mem_range,
        decide_eq_true_iff]
      refine .inr ⟨i + 1, ⟨by rw [h.nprocs]; omega, (h.padre (i + 1) hlt i).mpr rfl⟩, ?_⟩
      rw [Sistema.terminado, hst]
    simp only [hw] at hp
    cases hp
  case exit status => exact ⟨status, rfl⟩
  case sigpipe => exact (hpc ▸ h.enOrden i hi : Pc.enOrden i .sigpipe).elim
  all_goals cases hp

theorem salida_eq : s.salida = primos N := by
  obtain ⟨status, hpc⟩ := h.terminado hs (Nat.le_refl u)
  have ht := h.total
  rw [hpc] at ht
  simpa [informes] using ht

end Stuck

end Inv

-- At the beginning there is only `main`.
theorem inv_inicio (N : Int) : Inv N inicio 0 fun _ => [] where
  nprocs    := rfl
  enOrden   := by
    rintro i hi
    exact Nat.le_zero.mp hi
  abiertos  := fun _ _ _ => Iff.rfl
  padre     := by
    intro i hi j
    simp [inicio]
    omega
  bifurcado := by
    intro i _
    simp [inicio, Sistema.pc, Pc.bifurcado]
  npipes    := rfl
  vacio     := fun _ _ => rfl
  flujo     := ⟨rfl, fun i hi => absurd hi (Nat.not_lt_zero i)⟩
  fin       := fun i hi => absurd hi (Nat.not_lt_zero i)
  total     := criba_desde N

-- A run, in which the processes take their steps in the given order.
def corre (c : Capacidad) (N : Int) (orden : List Nat) : Option Sistema := orden.foldlM (paso c N) inicio

-- The number of steps in a run, whatever the order.
def cota (N : Int) : Nat := (N - 2).toNat + 9 + turnos (N - 2).toNat

theorem corre_inv {c : Capacidad} {orden : List Nat} (h : corre c N orden = some s) :
    ∃ u ρ, Inv N s u ρ ∧ medida N s u ρ + orden.length ≤ cota N := by
  induction orden using List.reverseRecOn generalizing s
  case nil =>
    cases h
    refine ⟨0, _, inv_inicio N, ?_⟩
    simp [medida, cota, pasos, inicio, Sistema.pc]
  case append_singleton orden i hi =>
    rw [corre, List.foldlM_append, Option.bind_eq_bind, Option.bind_eq_some_iff] at h
    obtain ⟨s₁, h₁, h₂⟩ := h
    have h₂ : paso c N s₁ i = some s := by simpa using h₂
    obtain ⟨u, ρ, hv, hm⟩ := hi h₁
    obtain ⟨u', ρ', hv', hm'⟩ := hv.paso h₂
    refine ⟨u', ρ', hv', ?_⟩
    rw [List.length_append, List.length_singleton]
    omega

-- What holds of the sieve after the steps of any run.
structure Cribado (c : Capacidad) (N : Int) (orden : List Nat) (s : Sistema) : Prop where
  -- Runs have an end.
  acotado  : orden.length ≤ cota N
  salida   : s.salida <+: primos N
  -- The end for writing of pipe `q` is open only in process `q`, and in its child until it calls `filtro`.
  escritor : ∀ i < s.nprocs, ∀ q, .escritura q ∈ (s.procs i).abiertos →
    i = q ∨ i = q + 1 ∧ ∃ l, s.pc i = .cerrar l (some q)
  -- At the end all processes have terminated, and all primes have been reported.
  final    : (∀ i, paso c N s i = none) →
    (∀ i < s.nprocs, ∃ status, s.pc i = .exit status) ∧ s.salida = primos N

-- Pipes that have room for one number.
def Capacidad.uno : Capacidad where
  lleno n := 1 ≤ n
  vacio   := rfl

-- A run for 4, to its end.
def orden4 : List Nat :=
  [0, 0, 0, 1, 1, 1, 1, 0, 0, 0, 0, 0, 1, 1, 1, 1, 1, 1, 1, 1, 1, 2, 2, 2, 2, 2, 2, 2, 2, 2, 2, 2, 2, 3, 3, 3,
    3, 3, 2, 1, 0]

end Fork.Primes

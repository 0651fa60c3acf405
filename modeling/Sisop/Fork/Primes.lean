import Mathlib.Data.List.Basic
import Mathlib.Logic.Function.Basic

-- labs/fork/primes.c

namespace Fork.Primes

open Function

-- `fds[0]` and `fds[1]` of the pipe with the given number.
inductive Fd
  | lectura (pipe : Nat)
  | escritura (pipe : Nat)
  deriving DecidableEq

-- Where a process is, with the variables that it still needs. The arrays `fds` and `fds_nuevo` are the
-- numbers of their pipes.
inductive Pc
  | mainPipe
  | mainFork (fds : Nat)
  | mainFor (fds : Nat) (i : Int)
  | filtro (fds : Nat)
  | leer (fds fdsNuevo : Nat)
  | informar (fds fdsNuevo : Nat) (primo : Int)
  | bifurcar (fds fdsNuevo : Nat) (primo : Int)
  | filtrar (fds fdsNuevo : Nat) (primo : Int)
  | escribir (fds fdsNuevo : Nat) (primo numero : Int)
  -- What is still to be closed, in a child before its call of `filtro`, or in a parent before `wait`.
  | cerrar (cierres : List Fd) (filtro : Option Nat)
  | esperar
  | exit (status : Int)
  | sigpipe
  deriving DecidableEq

structure Proceso where
  pc : Pc
  abiertos : List Fd
  padre : Option Nat

-- The processes in the order in which they were made, what is in the pipes, and what has been printed.
structure Sistema where
  procs : Nat → Proceso
  nprocs : Nat
  pipes : Nat → List Int
  npipes : Nat
  salida : List Int

-- When a pipe is full is up to the system, but an empty one is not.
structure Capacidad where
  lleno : Nat → Bool
  vacio : lleno 0 = false

inductive Escrito
  | bien
  | error
  | sigpipe

namespace Sistema

variable (s : Sistema) (i : Nat)

def pc : Pc := (s.procs i).pc

-- Process `i` goes on at `pc`.
def sigue (pc : Pc) : Sistema := { s with procs := update s.procs i { s.procs i with pc } }

def pipe (luego : Nat → Pc) : Sistema :=
  let p := s.procs i
  let n := s.npipes
  { s with
    procs  := update s.procs i { p with pc := luego n, abiertos := .lectura n :: .escritura n :: p.abiertos }
    pipes  := update s.pipes n []
    npipes := n + 1 }

-- The child has a copy of the open files.
def fork (hijo padre : Pc) : Sistema :=
  let p := s.procs i
  { s with
    procs  := update (update s.procs i { p with pc := padre }) s.nprocs ⟨hijo, p.abiertos, some i⟩
    nprocs := s.nprocs + 1 }

def close (fd : Fd) (pc : Pc) : Sistema :=
  let p := s.procs i
  { s with procs := update s.procs i { p with pc, abiertos := p.abiertos.filter (· ≠ fd) } }

-- The end of a process, which closes its files.
def termina (pc : Pc) : Sistema :=
  { s with procs := update s.procs i { s.procs i with pc, abiertos := [] } }

-- Whether some process has the file open.
def abierto (fd : Fd) : Bool := (List.range s.nprocs).any fun j => fd ∈ (s.procs j).abiertos

-- `none` in the result is a value that is not positive; `none` as a whole is a process that has to wait.
def read (fd : Nat) : Option (Option Int × Sistema) :=
  if .lectura fd ∉ (s.procs i).abiertos then some (none, s)
  else
    match s.pipes fd with
    | n :: ns => some (some n, { s with pipes := update s.pipes fd ns })
    | []      => if s.abierto (.escritura fd) then none else some (none, s)

def write (c : Capacidad) (fd : Nat) (n : Int) : Option (Escrito × Sistema) :=
  if .escritura fd ∉ (s.procs i).abiertos then some (.error, s)
  else if !s.abierto (.lectura fd) then some (.sigpipe, s)
  else if c.lleno (s.pipes fd).length then none
  else some (.bien, { s with pipes := update s.pipes fd (s.pipes fd ++ [n]) })

def terminado : Bool :=
  match s.pc i with
  | .exit _ | .sigpipe => true
  | _                  => false

-- `wait` returns when a child has ended, or if there is none.
def wait : Bool :=
  let hijos := (List.range s.nprocs).filter fun j => (s.procs j).padre = some i
  hijos.isEmpty || hijos.any s.terminado

end Sistema

-- The step of process `i`; `none` where it has to wait or has ended.
def paso (c : Capacidad) (N : Int) (s : Sistema) (i : Nat) : Option Sistema :=
  if s.nprocs ≤ i then none
  else
    match s.pc i with
    | .mainPipe      => some (s.pipe i .mainFork)
    | .mainFork fds  => some (s.fork i (.cerrar [.escritura fds] (some fds)) (.mainFor fds 2))
    | .mainFor fds k =>
      if k < N then
        match s.write i c fds k with
        | none               => none
        | some (.bien, s)    => some (s.sigue i (.mainFor fds (k + 1)))
        | some (.error, s)   => some (s.termina i (.exit (-1)))
        | some (.sigpipe, s) => some (s.termina i .sigpipe)
      else some (s.sigue i (.cerrar [.lectura fds, .escritura fds] none))
    | .filtro fds => some (s.pipe i (.leer fds))
    | .leer fds fdsNuevo =>
      match s.read i fds with
      | none                 => none
      | some (none, s)       => some (s.termina i (.exit (-1)))
      | some (some primo, s) => some (s.sigue i (.informar fds fdsNuevo primo))
    | .informar fds fdsNuevo primo =>
      let s := { s with salida := s.salida ++ [primo] }
      some (s.sigue i (.bifurcar fds fdsNuevo primo))
    | .bifurcar fds fdsNuevo primo =>
      some (s.fork i (.cerrar [.lectura fds, .escritura fdsNuevo] (some fdsNuevo))
        (.filtrar fds fdsNuevo primo))
    | .filtrar fds fdsNuevo primo =>
      match s.read i fds with
      | none                  => none
      | some (none, s)        =>
        some (s.sigue i (.cerrar [.lectura fds, .lectura fdsNuevo, .escritura fdsNuevo] none))
      | some (some numero, s) =>
        if numero.tmod primo ≠ 0 then some (s.sigue i (.escribir fds fdsNuevo primo numero))
        else some (s.sigue i (.filtrar fds fdsNuevo primo))
    | .escribir fds fdsNuevo primo numero =>
      match s.write i c fdsNuevo numero with
      | none               => none
      | some (.sigpipe, s) => some (s.termina i .sigpipe)
      -- After an error the loop goes on, too.
      | some (_, s)        => some (s.sigue i (.filtrar fds fdsNuevo primo))
    | .cerrar (fd :: cierres) luego => some (s.close i fd (.cerrar cierres luego))
    | .cerrar [] (some fds)         => some (s.sigue i (.filtro fds))
    | .cerrar [] none               => some (s.sigue i .esperar)
    | .esperar          => if s.wait i then some (s.termina i (.exit 0)) else none
    | .exit _ | .sigpipe => none

-- The process of `main`, before its first call.
def inicio : Sistema where
  procs _ := ⟨.mainPipe, [], none⟩
  nprocs  := 1
  pipes _ := []
  npipes  := 0
  salida  := []

end Fork.Primes

import Sisop.Library.While
import Mathlib.Data.List.Basic
import Mathlib.Logic.Function.Iterate

-- labs/fork/xargs.c

namespace Fork.Xargs

open Library

-- The bytes of a string, without its terminator.
abbrev Str := List UInt8

def NL : UInt8 := 10

def BLANK : UInt8 := 32

-- The buffers that `getline` of the C library allocates: their sizes are up to it, but have room for
-- what it stores.
structure Getline where
  size : Nat → Nat → Nat
  le (old need : Nat) : need ≤ size old need

-- One `execvp(comando, argumentos)` in a child: `comando` is the name of the file and the first element of
-- the array, and `argumentos` are the others. An argument is `none` where it has no terminator.
structure Ejecucion where
  comando : Str
  argumentos : List (Option Str)
  deriving DecidableEq

-- `bytesLeidos` is `none` for -1.
structure State where
  stdin : Str
  numeroBytes : Nat
  bytesLeidos : Option Nat
  argumentos : List (Option Str)
  ejecuciones : List Ejecucion

-- The first line with its newline, if there is one.
def primeraLinea (stdin : Str) : Str :=
  let linea := stdin.takeWhile (· != NL)
  if linea.length < stdin.length then linea ++ [NL] else linea

-- The line, what is left of the input, and the size of the buffer.
def getline (g : Getline) (stdin : Str) (numeroBytes : Nat) : Option Str × Str × Nat :=
  match stdin with
  | []         => (none, [], g.size numeroBytes 0)
  | c :: stdin =>
    let linea := primeraLinea (c :: stdin)
    (some linea, (c :: stdin).drop linea.length, g.size numeroBytes (linea.length + 1))

-- The string at the start of a buffer.
def cadena (buf : Str) : Str := buf.takeWhile (· != 0)

-- `strcspn(linea, "\n")`
def strcspn (linea : Str) : Nat := (linea.takeWhile fun c => c != 0 && c != NL).length

-- `int salto = strcspn(linea, "\n"); linea[salto] = 0;`, where a negative index is in front of the buffer.
def cortar (linea : Str) : Str :=
  let salto := (BitVec.ofNat 32 (strcspn linea)).toInt
  if 0 ≤ salto then linea.set salto.toNat 0 else linea

-- `strncpy(copia, linea, n)` into an array of `n` bytes.
def strncpy (linea : Str) (n : Nat) : Option Str :=
  if (cadena linea).length < n then some (cadena linea) else none

-- One turn of the `for` loop.
def leer (g : Getline) (st : State) : State :=
  match getline g st.stdin st.numeroBytes with
  | (none, stdin, numeroBytes)       => { st with stdin, numeroBytes, bytesLeidos := none }
  | (some linea, stdin, numeroBytes) =>
    let copia := strncpy (cortar linea) (numeroBytes - 1)
    { st with
      stdin
      numeroBytes
      bytesLeidos := some linea.length
      argumentos  := st.argumentos ++ [copia] }

-- One turn of the `while` loop. The array of the arguments has room for all of them.
def lote (g : Getline) (NARGS : Nat) (comando : Str) (st : State) : State :=
  let st := (leer g)^[NARGS] { st with argumentos := [] }
  { st with ejecuciones := st.ejecuciones ++ [⟨comando, st.argumentos⟩] }

-- `argv` is without the name of the program itself; `none` is `_exit(-1)`. Each turn but the last reads a
-- byte.
def main (g : Getline) (NARGS : Nat) (argv : List Str) (stdin : Str) : Option State :=
  if argv.length + 1 < 2 then none
  else
    let comando := [BLANK].intercalate argv
    some <| whileLoop (·.bytesLeidos ≠ none) (lote g NARGS comando) (stdin.length + 1)
      ⟨stdin, 0, some 0, [], []⟩

end Fork.Xargs

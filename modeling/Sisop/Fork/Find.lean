import Mathlib.Data.List.Basic

-- labs/fork/find.c

namespace Fork.Find

abbrev Str := List Char

def MAX_PATH : Nat := 100

-- What `readdir` returns for a directory, one entry after the other; `dir` is an entry with `DT_DIR`.
inductive Listing
  | nil
  | entry (name : Str) (next : Listing)
  | dir (name : Str) (entries next : Listing)

-- `path` is the string in the buffer, `fds` the number of open files, and `out` what has been printed. `calls`
-- has the path of each call that returned, when it began and when it returned.
structure State where
  path : Str
  fds : Nat
  out : List Str
  calls : List (Str × Str)

-- Into an array of `MAX_PATH` bytes; `none` is a write behind it.
def strcpy (s : Str) : Option Str := if s.length < MAX_PATH then some s else none

def strcat (path s : Str) : Option Str := strcpy (path ++ s)

def isDots (name : Str) : Bool := name = ['.'] || name = ['.', '.']

-- No file is closed. `none` is `_exit(-1)`.
def openat (limit : Nat) (st : State) : Option State :=
  if st.fds < limit then some { st with fds := st.fds + 1 } else none

section Search

variable (limit : Nat) (comparar : Str → Str → Bool) (busqueda : Str)

def comparaNombre (name : Str) (st : State) : State :=
  if comparar name busqueda then { st with out := st.out ++ [st.path ++ name] } else st

-- The call for `next` is the next turn of the loop.
def buscarNombres : Listing → State → Option State
  | .nil, st => some st
  | .entry name next, st =>
    buscarNombres next (if isDots name then st else comparaNombre comparar busqueda name st)
  | .dir name entries next, st =>
    if isDots name then buscarNombres next st
    else do
      let st := comparaNombre comparar busqueda name st
      let oldPath ← strcpy st.path
      let path ← strcat st.path name
      let path ← strcat path ['/']
      let st ← openat limit st
      let sub ← buscarNombres entries { st with path }
      let oldPath ← strcpy oldPath
      buscarNombres next { sub with path := oldPath, calls := (path, sub.path) :: sub.calls }

end Search

def strstr (name busqueda : Str) : Bool := name.tails.any busqueda.isPrefixOf

def strcasestr (name busqueda : Str) : Bool :=
  strstr (name.map Char.toLower) (busqueda.map Char.toLower)

-- `none` is `_exit(-1)` or a write behind an array; `fds` are the files that are open, with the directory.
def main (limit fds : Nat) (root : Listing) : List Str → Option State
  | [_, busqueda]       => buscarNombres limit strstr busqueda root ⟨[], fds, [], []⟩
  | [_, flag, busqueda] =>
    if flag = ['-', 'i'] then buscarNombres limit strcasestr busqueda root ⟨[], fds, [], []⟩
    else buscarNombres limit strstr busqueda root ⟨[], fds, [], []⟩
  | _                   => none

end Fork.Find

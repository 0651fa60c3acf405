import Sisop.Fs.Fs

-- Path resolution with all that `walk_path` returns.

namespace Fs

open Inc Library

-- The result of `walk_path`, with null pointers as `none`. `lastelem` is what is copied there, if
-- anything is.
structure Walked where
  r        : Word
  pdir     : Option Nat
  pf       : Option Nat
  lastelem : Option (List (BitVec 8))
deriving DecidableEq

def skipSlash (p : List (BitVec 8)) : List (BitVec 8) := p.dropWhile (· = 0x2F#8)

-- The part of a path up to the next slash, and the part from there on.
def nextName (path : List (BitVec 8)) : List (BitVec 8) := path.takeWhile (· ≠ 0x2F#8)

def afterName (path : List (BitVec 8)) : List (BitVec 8) := path.dropWhile (· ≠ 0x2F#8)

-- The loop of `walk_path`, with a bound on its turns: the end of the list is the null byte of the path.
def walkLoop : Nat → Option Nat → Nat → List (BitVec 8) → FsProg Walked
  | 0, _, _, _          => Prog.panic
  | n + 1, dir, f, path =>
    if path = [] then pure ⟨0#32, dir, some f, none⟩
    else do
      let name := nextName path
      if MAXNAMELEN ≤ name.length then pure ⟨err E_BAD_PATH, none, none, none⟩
      else
        let path := skipSlash (afterName path)
        let m ← Prog.get
        if m.load32 (fType f) ≠ FTYPE_DIR then pure ⟨err E_NOT_FOUND, none, none, none⟩
        else
          match ← (dirLookup f name).attempt with
          | .ok g    => walkLoop n (some f) g path
          | .error r =>
            if r = E_NOT_FOUND ∧ path = [] then pure ⟨err r, some f, none, some name⟩
            else pure ⟨err r, none, none, none⟩

-- Every turn but the last takes a byte of the path.
def walkPathname (path : List (BitVec 8)) : FsProg Walked :=
  let path := skipSlash (path.takeWhile (· ≠ 0#8))
  walkLoop (path.length + 1) none sRoot path

end Fs

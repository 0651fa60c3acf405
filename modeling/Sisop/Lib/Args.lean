import Mathlib.Tactic.Common

-- lib/args.c

namespace Lib.Args

-- A string, without its terminator.
abbrev Str := List UInt8

def DASH : UInt8 := 45

-- `argc` is `*args->argc`, and `argv` the array; a null pointer is `none`.
structure Argstate where
  argc : Nat
  argv : Nat → Option Str
  curarg : Option Str
  argvalue : Option Str

-- `argv` is not null.
def argstart (argc : Nat) (argv : Nat → Option Str) : Argstate where
  argc
  argv
  curarg   := if argc > 1 then some [] else none
  argvalue := none

-- `memmove(args->argv + 1, args->argv + 2, sizeof(const char *) * (*args->argc - 1)); (*args->argc)--;`
def shift (args : Argstate) : Argstate :=
  { args with
    argv := fun i => if 1 ≤ i ∧ i ≤ args.argc - 1 then args.argv (i + 1) else args.argv i
    argc := args.argc - 1 }

def endofargs (args : Argstate) : Option UInt8 × Argstate := (none, { args with curarg := none })

-- The returned character is `none` for `-1`; `none` as a whole is a null pointer that is dereferenced.
def argnext (args : Argstate) : Option (Option UInt8 × Argstate) :=
  let args := { args with argvalue := none }
  match args.curarg with
  | none          => some (none, args)
  | some (c :: s) => some (some c, { args with curarg := some s })
  | some []       =>
    if args.argc = 1 then some (endofargs args)
    else
      match args.argv 1 with
      | none                  => none
      | some []               => some (endofargs args)
      | some [_]              => some (endofargs args)
      | some (d :: c :: s) =>
        if d ≠ DASH then some (endofargs args)
        else if c = DASH ∧ s = [] then some (endofargs (shift args))
        else some (some c, { shift args with curarg := some s })

def argnextvalue (args : Argstate) : Option Str × Argstate :=
  match args.curarg with
  | none          => (none, args)
  | some (c :: s) => (some (c :: s), { args with argvalue := some (c :: s), curarg := some [] })
  | some []       =>
    if args.argc > 1 then (args.argv 1, shift { args with argvalue := args.argv 1 })
    else (none, { args with argvalue := none, curarg := none })

def argvalue (args : Argstate) : Option Str × Argstate :=
  match args.argvalue with
  | some s => (some s, args)
  | none   => argnextvalue args

end Lib.Args

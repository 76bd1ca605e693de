import Stepwise.Operator.Number

/-! # Run configurations

What a host fixes before a run: the rules of arithmetic, the specifiers that
declarations may use, the libraries and the length of a tick.
-/

namespace Stepwise

/-- The libraries that programs can load. -/
inductive Library
  /-- Formatted output, characters and files. -/
  | stdio
  deriving DecidableEq, Repr

structure Config where
  numerics : Numerics := {}
  specifiers : List String := ["const", "inline", "_stdcall", "extern", "static", "register"]
  /-- The libraries by the names that programs include. -/
  libraries : List (String × Library) := [("cstdio", .stdio), ("stdio.h", .stdio)]
  /-- The names of the libraries that are loaded without being included. -/
  defaultLibraries : List String := []
  /-- The most node boundaries that one tick grants. -/
  quantaPerTick : Nat := 1000

namespace Config

/-- The configuration with ticks of `quanta` node boundaries, or of one if that is none. -/
def withQuantaPerTick (c : Config) (quanta : Nat) : Config :=
  { c with quantaPerTick := max 1 quanta }

def limits (c : Config) : LimitsTable := c.numerics.limits

def library? (c : Config) (name : String) : Option Library := c.libraries.lookup name

def isSpecifier (c : Config) (word : String) : Bool := c.specifiers.contains word

end Config

end Stepwise

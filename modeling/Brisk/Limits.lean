/-! # Limits on the source text

A source is refused when one of its tokens or comments is too long, or when its expressions and
blocks are nested too deeply.
-/

namespace Brisk

/-- The longest identifiers, string literals and comments that are accepted, in characters, and the
deepest nesting of expressions, blocks and `if` statements. -/
structure Limits where
  identifier : Nat
  string : Nat
  comment : Nat
  nesting : Nat
  deriving DecidableEq, Repr

namespace Limits

/-- The length that long tokens may have unless something else is asked for. -/
def defaultLength : Nat := 1200

/-- The nesting that is accepted unless something else is asked for. -/
def defaultNesting : Nat := 128

/-- The same bound for everything that has a length, and the default nesting. -/
def uniform (length : Nat) : Limits := ⟨length, length, length, defaultNesting⟩

/-- The limits that hold unless something else is asked for. -/
def standard : Limits := uniform defaultLength

end Limits

end Brisk

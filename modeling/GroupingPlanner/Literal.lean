import GroupingPlanner.Decimal.Positional
import GroupingPlanner.ScalarType
/-!
# Constants

A constant is a boolean, a whole number of 64 bits with or without sign, a double, a text, or
null.  Doubles are compared by their bit patterns, so that constants can be compared at all: `NaN`
equals itself, and the two zeros differ.
-/

namespace GroupingPlanner

/-- A double, given by its bit pattern. -/
structure Double where
  bits : UInt64
deriving DecidableEq, Repr

/-- A double as text. -/
def Double.text (d : Double) : String := Decimal.textOfBits d.bits

/-- A constant. -/
inductive Literal where
  | boolean (b : Bool)
  | double (d : Double)
  | integer (i : Int64)
  | null
  | text (s : String)
  | unsigned (n : UInt64)
deriving DecidableEq

namespace Literal

/-- The type of a constant; null has none of its own. -/
def type : Literal → ScalarType
  | boolean _ => .boolean
  | double _ => .double
  | integer _ => .integer
  | null => .unknown
  | text _ => .text
  | unsigned _ => .unsigned

/-- Whether a constant is null. -/
def isNull : Literal → Bool
  | null => true
  | _ => false

/-- A constant as it is shown; a text stands between single quotes as it is. -/
def render : Literal → String
  | boolean b => if b then "true" else "false"
  | double d => d.text
  | integer i => toString i.toInt
  | null => "NULL"
  | text s => "'" ++ s ++ "'"
  | unsigned n => toString n.toNat

end Literal

end GroupingPlanner

/-!
# Scalar types

The type of an expression, and the type of an arithmetic expression over two operands
(`ScalarType.arithmetic`).
-/

namespace GroupingPlanner

/-- The type of a scalar. -/
inductive ScalarType where
  | unsigned
  | integer
  | double
  | numeric
  | text
  | boolean
  | datetime
  | uuid
  /-- The type of the null constant. -/
  | unknown
deriving DecidableEq, Repr

namespace ScalarType

/-- The name of a type as it is shown. -/
def name : ScalarType → String
  | unsigned => "unsigned"
  | integer => "int"
  | double => "double"
  | numeric => "numeric"
  | text => "text"
  | boolean => "bool"
  | datetime => "datetime"
  | uuid => "uuid"
  | unknown => "unknown"

/-- The type of an arithmetic expression.  An operand of unknown type leaves the choice to the
other one; doubles win over numerics and numerics over whole numbers; whole numbers are unsigned
only if both are.  Types that do not mix keep the type on the left. -/
def arithmetic : ScalarType → ScalarType → ScalarType
  | unknown, t => t
  | t, unknown => t
  | double, _ => double
  | _, double => double
  | numeric, _ => numeric
  | _, numeric => numeric
  | unsigned, unsigned => unsigned
  | integer, integer => integer
  | integer, unsigned => integer
  | unsigned, integer => integer
  | t, _ => t

end ScalarType

end GroupingPlanner

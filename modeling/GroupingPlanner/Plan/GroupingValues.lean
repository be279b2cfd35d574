import GroupingPlanner.Plan.Basic
/-!
# The values of grouping functions

A grouping function tells which of its arguments a grouping set does *not* hold, one bit for each
argument, the first one being the most significant.  The grouping id of a set is that mask for all
expressions of all sets.  Masks have 64 bits; bits beyond them are lost.

* `absenceMask`: the mask of a set for a list of expressions.
* `Repetition.groupingIds`, `Repetition.callValues`, `Repetition.virtualValues`: one value for each
  grouping set of a repetition.
-/

namespace GroupingPlanner

/-- One bit for each expression, set if the grouping set does not hold it; the first expression has
the most significant bit. -/
def absenceMask (set : List Expr) (exprs : List Expr) : UInt64 :=
  exprs.foldl (fun mask e => 2 * mask + if set.contains e then 0 else 1) 0

namespace Repetition

/-- The grouping id of each grouping set. -/
def groupingIds (r : Repetition) : List UInt64 :=
  r.sets.map fun set => absenceMask set r.items.toList

/-- The value of a grouping call for each grouping set. -/
def callValues (r : Repetition) (call : GroupingCall) : List UInt64 :=
  r.sets.map fun set => absenceMask set call.args

/-- The value of a virtual column for each grouping set. -/
def virtualValues (r : Repetition) (v : VirtualColumn) : List UInt64 :=
  match v.quantity with
  | .groupingId => r.groupingIds
  | .call c => r.callValues c

end Repetition

end GroupingPlanner

import GroupingPlanner.Plan.Basic
/-!
# Changing a plan from the bottom up

A rule is applied to every node of a plan once, the lowest first; what it sees is the node over the
child that has been changed already.
-/

namespace GroupingPlanner.Plan

/-- Applies a rule with effects to the nodes of a plan, from the bottom up. -/
def mapUpM {m : Type → Type} [Monad m] (rule : Plan → m Plan) : Plan → m Plan
  | scan relation columns => rule (scan relation columns)
  | projection list child => do rule (projection list (← mapUpM rule child))
  | repetition sets output child => do rule (repetition sets output (← mapUpM rule child))
  | aggregation groupBy output child => do
    rule (aggregation groupBy output (← mapUpM rule child))

/-- The number of repetitions in a plan. -/
def repetitionCount : Plan → Nat
  | scan .. => 0
  | projection _ child => repetitionCount child
  | repetition _ _ child => repetitionCount child + 1
  | aggregation _ _ child => repetitionCount child

end GroupingPlanner.Plan

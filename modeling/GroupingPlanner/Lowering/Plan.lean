import GroupingPlanner.Lowering.Duplicates
import GroupingPlanner.Lowering.Stack
import GroupingPlanner.Plan.MapUp
/-!
# Lowering a plan

`Repetition.lower` turns one repetition into nodes that can be executed: the stack of
`Lowering/Stack.lean`, whose aggregates read the duplicates of `Lowering/Duplicates.lean`.
`Plan.lower` does so for every repetition of a plan, the lowest first.
-/

namespace GroupingPlanner

/-- Lowers a repetition. -/
def Repetition.lower (r : Repetition) (settings : Settings) : PlanM Aggregation := do
  PlanM.ofExcept settings.check
  r.checkItems settings.maxGroupingItems
  (← r.stack).separate

/-- Lowers the top node of a plan if it is a repetition. -/
def Plan.lowerTop (settings : Settings) (p : Plan) : PlanM Plan :=
  match p.repetition? with
  | some r => Aggregation.toPlan <$> r.lower settings
  | none => pure p

/-- Lowers all repetitions of a plan. -/
def Plan.lower (p : Plan) (settings : Settings) : PlanM Plan := do
  PlanM.ofExcept settings.check
  let lowered ← p.mapUpM (Plan.lowerTop settings)
  if 0 < p.repetitionCount then
    PlanM.report
      { level := .debug
        message := "normalized repeat nodes"
        fields := [("count", toString p.repetitionCount)] }
  return lowered

end GroupingPlanner

import GroupingPlanner.Plan.Basic
/-!
# What has to be evaluated below a repetition

Neither a repetition nor an aggregation evaluates expressions in its grouping sets, in the
arguments of grouping functions or in the arguments of aggregates: each of these has to be a column
by then.  `Repetition.early` collects the expressions that a projection below the repetition has to
evaluate, each once.
-/

namespace GroupingPlanner

namespace Expr

/-- The arguments of all grouping calls in a tree, in pre-order of the calls. -/
def groupingArguments (e : Expr) : List Expr :=
  (e.subterms.filterMap groupingCall?).flatMap (·.args)

/-- The arguments of the aggregate calls evaluated over a group, without sort directions. -/
def aggregateArguments (e : Expr) : List Expr :=
  e.plainAggregates.flatMap fun call => call.args.map withoutDirection

end Expr

/-- The expressions to evaluate below a repetition: those of the grouping sets, then the arguments
of grouping calls, then the arguments of aggregates over a group. -/
def Repetition.early (r : Repetition) : Roster Expr :=
  (r.items.insertAll (r.output.flatMap Expr.groupingArguments)).insertAll
    (r.output.flatMap Expr.aggregateArguments)

end GroupingPlanner

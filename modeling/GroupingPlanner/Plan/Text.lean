import GroupingPlanner.Plan.Basic
/-!
# Plans as text

Every node of a plan takes a line, and every line is indented by four spaces more than the one
above it:

```text
aggregate group by (a, GROUPING_ID) output (a, sum(a') -> "sum(a)")
    repeat sets [(a)] output (a, a', GROUPING_ID)
        projection (a, a -> "a'")
            scan "t"
```
-/

namespace GroupingPlanner.Plan

/-- Expressions between brackets. -/
def bracketed (es : List Expr) : String := "(" ++ commaSeparated (es.map Expr.text) ++ ")"

/-- The line of a node, without indentation. -/
def headline : Plan → String
  | scan relation _ => "scan \"" ++ relation ++ "\""
  | projection list _ => "projection " ++ bracketed list
  | repetition sets output _ =>
    "repeat sets [" ++ commaSeparated (sets.map bracketed) ++ "] output " ++ bracketed output
  | aggregation groupBy output _ =>
    "aggregate group by " ++ bracketed groupBy ++ " output " ++ bracketed output

/-- The lines of a plan, from its top node down, without indentation. -/
def headlines : Plan → List String
  | scan relation columns => [(scan relation columns).headline]
  | projection list child => (projection list child).headline :: headlines child
  | repetition sets output child => (repetition sets output child).headline :: headlines child
  | aggregation groupBy output child =>
    (aggregation groupBy output child).headline :: headlines child

/-- A plan as it is shown. -/
def text (p : Plan) : String :=
  "\n".intercalate
    (p.headlines.mapIdx fun depth line => String.join (List.replicate depth "    ") ++ line)

end GroupingPlanner.Plan

import GroupingPlanner.Lowering.CallColumns
import GroupingPlanner.Settings
/-!
# The stack that a repetition becomes

A repetition over arbitrary expressions is executed as a stack of three nodes:

```text
aggregation (groups by the grouping columns and the virtual columns)
    repetition (grouping sets over columns only)
        projection (evaluates the bound expressions)
            child
```

The virtual columns are the grouping id and one column for each signature of a grouping call.
Grouping by them keeps rows apart that were made for different grouping sets.

* `Bindings.columnSets`: the grouping sets over columns.
* `Substituted`: sets and output once substituted, and what can be read off them: which columns
  are grouped by, which the aggregates alone read, and which virtual columns there are.
* `projectionEntries`, `defineBelow`: the projection; it is left out where the child already
  exposes exactly the columns it would produce.
* `Repetition.stack`: the three nodes.
-/

namespace GroupingPlanner

/-! ## Grouping sets over columns -/

namespace Bindings

/-- The column bound to an expression of a grouping set. -/
def boundColumn (b : Bindings) (e : Expr) : Except Fault Column :=
  match b.substitute e with
  | .column c => .ok c
  | other => .error (.invalid .groupingSet (some ("grouping expression " ++ e.text ++
      " was normalized to " ++ other.text ++ " instead of a column")))

/-- The grouping sets over bound columns. -/
def columnSets (b : Bindings) (sets : List (List Expr)) : Except Fault (List (List Column)) :=
  sets.mapM fun set => set.mapM b.boundColumn

end Bindings

/-- Grouping sets and output over bound columns and virtual columns. -/
structure Substituted where
  sets : List (List Column)
  output : List Expr

namespace Substituted

/-- The columns grouped by. -/
def keyColumns (s : Substituted) : Roster Column := .ofList s.sets.flatten

/-- The columns that the output reads and does not group by. -/
def otherColumns (s : Substituted) : Roster Column :=
  .ofList ((s.output.flatMap Expr.columns).filter fun c => !s.keyColumns.contains c)

/-- The virtual columns in the output, in pre-order. -/
def virtualOccurrences (s : Substituted) : List VirtualColumn :=
  (s.output.flatMap Expr.subterms).filterMap Expr.virtual?

/-- The first grouping-id column in the output. -/
def groupingIdColumn? (s : Substituted) : Option VirtualColumn :=
  s.virtualOccurrences.find? VirtualColumn.standsForId

/-- The columns of grouping calls in the output. -/
def callColumns (s : Substituted) : Roster VirtualColumn :=
  .ofList (s.virtualOccurrences.filter fun v => !v.standsForId)

/-- All virtual columns, that of the grouping id first. -/
def virtualColumns (s : Substituted) (groupingId : VirtualColumn) : List VirtualColumn :=
  groupingId :: s.callColumns.toList

/-- What the repetition puts out. -/
def repeatedColumns (s : Substituted) (groupingId : VirtualColumn) : List Expr :=
  (s.keyColumns.toList ++ s.otherColumns.toList).map Expr.column ++
    (s.virtualColumns groupingId).map VirtualColumn.toExpr

/-- What the aggregation groups by. -/
def groupBy (s : Substituted) (groupingId : VirtualColumn) : List Expr :=
  s.keyColumns.toList.map Expr.column ++
    (s.virtualColumns groupingId).map VirtualColumn.toExpr

/-- The grouping sets as expressions. -/
def setExprs (s : Substituted) : List (List Expr) := s.sets.map fun set => set.map Expr.column

end Substituted

/-! ## The projection below -/

/-- The entries of the projection: the definitions, and then those of the columns wanted that are
not defined yet and that the child exposes. -/
def projectionEntries (definitions : List Definition) (wanted schema : List Column) :
    List Definition :=
  let missing := wanted.filter fun c => !definitions.any (·.produced == c)
  definitions ++ (missing.filterMap fun c => schema.find? (· == c)).map Definition.column

/-- Whether entries only hand on columns that a schema lists, as many as the schema has. -/
def restates (schema : List Column) (entries : List Definition) : Bool :=
  entries.length == schema.length && entries.all fun
    | .column c => schema.contains c
    | .named _ => false

/-- A plan that produces the entries over a child with the given schema. -/
def defineBelow (child : Plan) (schema : List Column) (entries : List Definition) : Plan :=
  if entries.isEmpty || restates schema entries then child
  else .projection (entries.map Definition.toExpr) child

/-! ## The stack -/

namespace Repetition

/-- Fails if the grouping sets hold more distinct expressions than the limit allows. -/
def checkItems (r : Repetition) (limit : Nat) : PlanM Unit := do
  let actual := r.items.size
  if limit < actual then
    PlanM.report
      { level := .warning
        message := "too many grouping set items"
        fields := [("limit", toString limit), ("actual", toString actual)] }
    throw (.tooManyGroupingItems limit actual)

/-- Turns a repetition into an aggregation over a repetition over columns. -/
def stack (r : Repetition) : PlanM Aggregation := do
  let bindings ← r.bindAll r.early
  let sets ← PlanM.ofExcept (bindings.columnSets r.sets)
  let firstCall ← PlanM.takeIds (bindings.signatures r.output).size
  let callColumns := bindings.callColumns firstCall r.output
  let s : Substituted := ⟨sets, bindings.substituteOutput callColumns r.output⟩
  let groupingId ← match s.groupingIdColumn? with
    | some v => pure v
    | none => VirtualColumn.ofGroupingId <$> PlanM.freshId
  let schema ← PlanM.ofExcept r.child.schema
  let entries := projectionEntries bindings.definitions s.otherColumns.toList schema
  PlanM.report
    { level := .debug
      message := "normalized repeat node"
      fields :=
        [("grouping_sets", toString sets.length),
          ("pushed_down", toString bindings.toList.length),
          ("virtual_columns", toString (s.virtualColumns groupingId).length)] }
  return {
    groupBy := s.groupBy groupingId
    output := s.output
    child :=
      .repetition s.setExprs (s.repeatedColumns groupingId)
        (defineBelow r.child schema entries) }

end Repetition

end GroupingPlanner

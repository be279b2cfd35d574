import GroupingPlanner.Expr.Equality
import GroupingPlanner.Expr.Traversal
import GroupingPlanner.Expr.Typing
import GroupingPlanner.Roster
/-!
# Plans

A plan is a tower of nodes, each reading the rows of the one below: a scan of a stored relation, a
projection, an aggregation over groups, or a *repetition*.  A repetition is the general form of
`GROUP BY GROUPING SETS`, `ROLLUP` and `CUBE`: it gives every row once per grouping set, with null
in the place of what is not in the set.

* `Plan`: the nodes.
* `Plan.schema`: the columns a plan exposes, in order.  Every entry of an output list must be named.
* `Plan.same`: what `==` means for plans: equal trees over equal expressions.
* `Repetition`, `Aggregation`: the parts of the two kinds of nodes that the passes work on.
* `Repetition.items`, `Repetition.setColumns`: what the grouping sets hold.
-/

namespace GroupingPlanner

/-- A plan, from its top node down. -/
inductive Plan where
  /-- The rows of a stored relation. -/
  | scan (relation : String) (columns : List Column)
  /-- Named expressions over the rows of the child. -/
  | projection (list : List Expr) (child : Plan)
  /-- The rows of the child, once per grouping set. -/
  | repetition (sets : List (List Expr)) (output : List Expr) (child : Plan)
  /-- One row for each group of rows of the child. -/
  | aggregation (groupBy output : List Expr) (child : Plan)
deriving Inhabited

/-- The parts of a repetition.  The order of the expressions in the grouping sets matters: it
decides which bit of the grouping id each of them has. -/
structure Repetition where
  sets : List (List Expr)
  output : List Expr
  child : Plan

/-- The parts of an aggregation. -/
structure Aggregation where
  groupBy : List Expr
  output : List Expr
  child : Plan

/-- A repetition as a plan. -/
def Repetition.toPlan (r : Repetition) : Plan := .repetition r.sets r.output r.child

/-- An aggregation as a plan. -/
def Aggregation.toPlan (a : Aggregation) : Plan := .aggregation a.groupBy a.output a.child

namespace Plan

/-- The name of the kind of a node. -/
def name : Plan → String
  | scan .. => "scan"
  | projection .. => "projection"
  | repetition .. => "repeat"
  | aggregation .. => "aggregate"

/-- The node below, if there is one. -/
def child? : Plan → Option Plan
  | scan .. => none
  | projection _ child | repetition _ _ child | aggregation _ _ child => some child

/-- The parts of the top node, if it is a repetition. -/
def repetition? : Plan → Option Repetition
  | repetition sets output child => some ⟨sets, output, child⟩
  | _ => none

/-- The parts of the top node, if it is an aggregation. -/
def aggregation? : Plan → Option Aggregation
  | aggregation groupBy output child => some ⟨groupBy, output, child⟩
  | _ => none

/-! ## Schemas -/

/-- The columns that a list of named expressions produces; the fault names the first expression
that has no name. -/
def columnsOf (owner : Entity) : List Expr → Except Fault (List Column)
  | [] => .ok []
  | e :: es =>
    match e.produced? with
    | none => .error (.invalid owner (some ("output expression " ++ e.text ++ " has no name")))
    | some c => (columnsOf owner es).map (c :: ·)

/-- The columns a plan exposes, in order. -/
def schema : Plan → Except Fault (List Column)
  | scan _ columns => .ok columns
  | projection list _ => columnsOf .projection list
  | repetition _ output _ => columnsOf .repetition output
  | aggregation _ output _ => columnsOf .aggregate output

/-- A list of expressions has columns exactly if every entry is named. -/
theorem columnsOf_eq_ok_iff (owner : Entity) (es : List Expr) (cs : List Column) :
    columnsOf owner es = .ok cs ↔ es.map Expr.produced? = cs.map some := by
  induction es generalizing cs with
  | nil => cases cs <;> simp [columnsOf]
  | cons e es ih =>
    unfold columnsOf
    cases h : e.produced? with
    | none => cases cs <;> simp [h]
    | some c =>
      cases cs with
      | nil => cases columnsOf owner es <;> simp [Except.map]
      | cons d ds =>
        have tail := ih ds
        cases rest : columnsOf owner es <;> simp_all [Except.map]

/-! ## Equality -/

/-- Whether two plans are equal trees over equal expressions. -/
def same : Plan → Plan → Bool
  | scan relation columns, scan relation' columns' =>
    decide (relation = relation') && columns == columns'
  | projection list child, projection list' child' => list == list' && same child child'
  | repetition sets output child, repetition sets' output' child' =>
    sets == sets' && output == output' && same child child'
  | aggregation groupBy output child, aggregation groupBy' output' child' =>
    groupBy == groupBy' && output == output' && same child child'
  | _, _ => false

instance : BEq Plan := ⟨same⟩

end Plan

/-! ## What the grouping sets of a repetition hold -/

namespace Repetition

/-- The distinct expressions of all grouping sets, in order of first appearance. -/
def items (r : Repetition) : Roster Expr := .ofList r.sets.flatten

/-- The distinct columns in the expressions of all grouping sets, in order of first appearance. -/
def setColumns (r : Repetition) : Roster Column :=
  .ofList (r.sets.flatten.flatMap Expr.columns)

end Repetition

end GroupingPlanner

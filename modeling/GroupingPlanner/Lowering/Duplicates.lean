import GroupingPlanner.Expr.Replace
import GroupingPlanner.Plan.Basic
import GroupingPlanner.Session
/-!
# Duplicates of grouping columns

In `select sum(a) from t group by grouping sets ((a), ())` the repetition puts null into `a` in the
rows made for the empty set, while `sum(a)` has to see the values of `a`.  A column that is both
grouped by and read by an aggregate is therefore *duplicated* below the repetition.  The duplicate
passes through untouched, and the aggregate reads it.  A window function is evaluated over the rows
of the groups and goes on reading the grouping column.

* `Aggregation.readByAggregates`, `Aggregation.conflicts`: which columns are duplicated.
* `primed`, `unusedName`: a duplicate has the name of the grouping column with apostrophes after
  it, as few as make it new.
* `Ground`, `Duplicate`: the projection that duplicates are added to, and duplicates themselves.
* `Aggregation.separate`: the aggregation whose aggregates read duplicates.
-/

namespace GroupingPlanner

/-! ## Names -/

/-- A name with `count` apostrophes after it. -/
def primed (name : String) (count : Nat) : String := name ++ String.join (List.replicate count "'")

/-- The first of `name'`, `name''`, … that is not taken.  One of the first `taken.length + 1` of
them is free, so no more have to be tried. -/
def unusedName (taken : List String) (name : String) : String :=
  let candidates := (List.range (taken.length + 1)).map fun i => primed name (i + 1)
  (candidates.find? fun candidate => !taken.contains candidate).getD (primed name 1)

/-! ## Where duplicates are defined -/

/-- The expression that evaluates to a column in a projection. -/
def definingExpr? (list : List Expr) (c : Column) : Option Expr :=
  list.findSome? fun
    | .column produced => if produced == c then some (.column produced) else none
    | .named id _ child => if id = c.id then some child else none
    | _ => none

/-- The names of the named expressions of a list. -/
def namesOf (es : List Expr) : List String := (es.filterMap Expr.produced?).map (·.name)

/-- A duplicate of a grouping column. -/
structure Duplicate where
  /-- The grouping column. -/
  column : Column
  /-- What evaluates the duplicate. -/
  definition : Alias

/-- The column that aggregates read in the place of the grouping column. -/
def Duplicate.copy (d : Duplicate) : Column := d.definition.column

/-- The projection that duplicates are added to: its entries so far, and its child. -/
structure Ground where
  list : List Expr
  input : Plan

namespace Ground

/-- The expression that evaluates to a column there. -/
def source? (g : Ground) (c : Column) : Option Expr := definingExpr? g.list c

/-- A new projection that hands on all columns of a plan. -/
def handingOn (child : Plan) : Except Fault Ground :=
  child.schema.map fun schema => ⟨schema.map Expr.column, child⟩

/-- The ground for duplicates of some columns: a projection that defines all of them, or else a new
projection over the child. -/
def forColumns (child : Plan) (columns : List Column) : Except Fault Ground :=
  match child with
  | .projection list input =>
    if columns.all fun c => (definingExpr? list c).isSome then .ok ⟨list, input⟩
    else handingOn child
  | _ => handingOn child

/-- Defines duplicates of some columns in order.  They take their ids one by one, starting with
`next`, and every name given is taken for the later ones.  A column without a source has none. -/
def duplicatesFrom (g : Ground) :
    (next : Nat) → (taken : List String) → List Column → List Duplicate
  | _, _, [] => []
  | next, taken, c :: cs =>
    match g.source? c with
    | none => duplicatesFrom g next taken cs
    | some source =>
      let name := unusedName taken c.name
      ⟨c, ⟨⟨next⟩, name, source⟩⟩ :: duplicatesFrom g (next + 1) (name :: taken) cs

end Ground

/-! ## The pass -/

namespace Aggregation

/-- The columns inside the arguments of aggregates over a group. -/
def readByAggregates (a : Aggregation) : List Column :=
  (a.output.flatMap Expr.plainAggregates).flatMap fun call => call.args.flatMap Expr.columns

/-- The grouping columns of the repetition below that aggregates read. -/
def conflicts (a : Aggregation) (r : Repetition) : List Column :=
  r.setColumns.toList.filter a.readByAggregates.contains

/-- The aggregation over duplicates that are defined already. -/
def reading (a : Aggregation) (r : Repetition) (g : Ground) (duplicates : List Duplicate) :
    Aggregation :=
  let copy? (c : Column) : Option Column := (duplicates.find? (c == ·.column)).map Duplicate.copy
  let plain := r.output.filter fun e => e.virtual?.isNone
  let virtuals := r.output.filter fun e => e.virtual?.isSome
  { a with
    output := a.output.map (Expr.mapAggregateArguments (Expr.replaceColumns copy?))
    child :=
      .repetition r.sets (plain ++ duplicates.map (fun d => .column d.copy) ++ virtuals)
        (.projection (g.list ++ duplicates.map (·.definition.toExpr)) g.input) }

/-- Makes the aggregates over a group read duplicates of the grouping columns.  Ids are taken in
the order of the columns, up to the first one that is not found below. -/
def separate (a : Aggregation) : PlanM Aggregation := do
  match a.child.repetition? with
  | none =>
    throw (.invalid .aggregate (some ("expected repeat child, got " ++ a.child.name)))
  | some r =>
    let conflicts := a.conflicts r
    if conflicts.isEmpty then return a
    let g ← PlanM.ofExcept (Ground.forColumns r.child conflicts)
    let found := conflicts.takeWhile fun c => (g.source? c).isSome
    let first ← PlanM.takeIds found.length
    match conflicts.find? fun c => (g.source? c).isNone with
    | some c => throw (.notFound .column (c.name ++ " in the output of the repeat child"))
    | none =>
      let duplicates := g.duplicatesFrom first (namesOf r.output ++ namesOf g.list) conflicts
      PlanM.report
        { level := .debug
          message := "duplicated grouping columns read by aggregates"
          fields := [("columns", commaSeparated (conflicts.map (·.name)))] }
      return a.reading r g duplicates

end Aggregation

end GroupingPlanner

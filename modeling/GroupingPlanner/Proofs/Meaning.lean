import GroupingPlanner.Lowering.Duplicates
import GroupingPlanner.Plan.GroupingValues
import GroupingPlanner.Proofs.Groups
import GroupingPlanner.Proofs.Occurrences
/-!
# What repetitions and aggregations mean

A repetition with an output of aggregates is a query with `GROUP BY GROUPING SETS`.  Its meaning is
fixed here without any lowering: for each grouping set the rows of the child are grouped by the
values of the expressions in the set, and each group makes one row of results.  An aggregation over
a repetition has a meaning too, namely what an execution of the two nodes computes.  Whether
lowering preserves meaning is the question whether the two agree, as multisets of rows, and for
every reading of constants, operations and functions.

## Values

`Interpretation` collects what is left open: a domain with a null, constants, arithmetic, scalar
functions, and aggregate calls as functions of the list of their argument tuples.  A row gives
values to ids.  An aggregate or a window has no value on a single row, and neither has a grouping
call unless one is supplied; they are `undefined` there, as is a column that a row does not have.

## Groups

Over a group of rows an aggregate is applied to its arguments on each row, a grouping call has the
value supplied, and an expression may have a value of its own, supplied as well: that is how a
grouping expression gets its value or null.  A column outside aggregates is read from the first row.

* `Expr.value`, `Expr.groupValue`: expressions on a row and over a group.
* `Plan.rows`: the rows of a plan, where nodes other than projections are left open.
* `Repetition.meaning`: the meaning of grouping sets.
* `Repetition.copies`, `Aggregation.meaning`: what an execution computes.
-/

namespace GroupingPlanner

/-! ## Interpretations -/

/-- A domain of values, and the meaning of everything that expressions are built from. -/
structure Interpretation (V : Type) where
  /-- The null that a repetition puts in. -/
  null : V
  /-- The value of what has none. -/
  undefined : V
  literal : Literal → V
  arith : ArithOp → V → V → V
  call : String → ScalarType → List V → V
  /-- An aggregate call, from its function, whether it is distinct, the sort directions of its
  arguments, and the tuple of arguments for each row. -/
  aggregate : AggregateFn → Bool → List (Option Direction) → List (List V) → V
  /-- The value of a mask. -/
  mask : UInt64 → V
  /-- Different masks are different values. -/
  mask_injective : Function.Injective mask

/-- A row gives a value to every id. -/
abbrev Row (V : Type) := ColumnId → V

/-- How an aggregate reads one of its arguments. -/
structure Reading (V : Type) where
  direction : Option Direction
  value : Row V → V

variable {V : Type}

namespace Interpretation

/-- Grouping calls without a value. -/
def noCalls (I : Interpretation V) (_ : GroupingCall) : V := I.undefined

/-- The value of an id in the first row of a group. -/
def first (I : Interpretation V) (rows : List (Row V)) (i : ColumnId) : V :=
  (rows.head?.map (· i)).getD I.undefined

end Interpretation

namespace Expr

/-- The sort direction at the root, if there is one. -/
def direction? : Expr → Option Direction
  | ordered _ direction => some direction
  | _ => none

/-! ## Expressions on a row -/

/-- The value of a node that is no call over rows, from the values of columns and of children. -/
def scalarValue (I : Interpretation V) (column : ColumnId → V) (child : Expr → V) : Expr → V
  | .column c | groupingIdColumn c | callColumn c _ _ => column c.id
  | named _ _ e | ordered e _ => child e
  | literal v => I.literal v
  | arith op left right => I.arith op (child left) (child right)
  | call name args type => I.call name type (args.map child)
  | aggregate .. | grouping .. | window .. => I.undefined

lemma scalarValue_mapChildren (I : Interpretation V) (column : ColumnId → V) (child : Expr → V)
    (f : Expr → Expr) (e : Expr) :
    (e.mapChildren f).scalarValue I column child =
      e.scalarValue I column fun c => child (f c) := by
  cases e <;> simp [mapChildren, scalarValue, Function.comp_def]

/-- The value depends on the values of columns and of children. -/
lemma scalarValue_congr (I : Interpretation V) {column column' : ColumnId → V}
    {child child' : Expr → V} {e : Expr}
    (hcolumn : ∀ c, e.column? = some c → column c.id = column' c.id)
    (hvirtual : ∀ v, e.virtual? = some v → column v.column.id = column' v.column.id)
    (h : ∀ c ∈ e.children, child c = child' c) :
    e.scalarValue I column child = e.scalarValue I column' child' := by
  cases e with
  | call name args type =>
    have hargs : args.map child = args.map child' := List.map_congr_left h
    simp [scalarValue, hargs]
  | _ => simp_all [scalarValue, children, column?, virtual?]

mutual

/-- The value of an expression on a row. -/
def value (I : Interpretation V) (calls : GroupingCall → V) (row : Row V) : Expr → V
  | column c | groupingIdColumn c | callColumn c _ _ => row c.id
  | named _ _ e | ordered e _ => value I calls row e
  | literal v => I.literal v
  | arith op left right => I.arith op (value I calls row left) (value I calls row right)
  | call name args type => I.call name type (values I calls row args)
  | grouping fn args => calls ⟨fn, args⟩
  | aggregate .. | window .. => I.undefined

/-- The values of a list of expressions on a row. -/
def values (I : Interpretation V) (calls : GroupingCall → V) (row : Row V) : List Expr → List V
  | [] => []
  | e :: es => value I calls row e :: values I calls row es

end

@[simp] lemma values_eq_map (I : Interpretation V) (calls : GroupingCall → V) (row : Row V)
    (es : List Expr) : values I calls row es = es.map (value I calls row) := by
  induction es with
  | nil => rfl
  | cons e es ih => rw [values, ih, List.map_cons]

lemma value_eq (I : Interpretation V) (calls : GroupingCall → V) (row : Row V) (e : Expr) :
    e.value I calls row = (e.groupingCall?.map calls).getD
      (e.scalarValue I row (value I calls row)) := by
  cases e <;> simp [value, scalarValue, groupingCall?]

@[simp] lemma value_virtual (I : Interpretation V) (calls : GroupingCall → V) (row : Row V)
    (v : VirtualColumn) : v.toExpr.value I calls row = row v.column.id := by
  obtain ⟨c, _ | call⟩ := v <;> rfl

/-! ## Expressions over a group -/

/-- How an argument is read as it stands. -/
def reading (I : Interpretation V) (calls : GroupingCall → V) (x : Expr) : Reading V :=
  ⟨x.direction?, fun row => x.value I calls row⟩

mutual

/-- The value of an expression over a group of rows.  Grouping calls have the values given, other
expressions the value of their own where there is one. -/
def groupValue (I : Interpretation V) (own : Expr → Option V) (calls : GroupingCall → V)
    (read : Expr → Reading V) (rows : List (Row V)) : Expr → V
  | column c => (own (column c)).getD (I.first rows c.id)
  | groupingIdColumn c => (own (groupingIdColumn c)).getD (I.first rows c.id)
  | callColumn c fn args => (own (callColumn c fn args)).getD (I.first rows c.id)
  | named id name e => (own (named id name e)).getD (groupValue I own calls read rows e)
  | ordered e direction => (own (ordered e direction)).getD (groupValue I own calls read rows e)
  | literal v => (own (literal v)).getD (I.literal v)
  | arith op left right => (own (arith op left right)).getD (I.arith op
      (groupValue I own calls read rows left) (groupValue I own calls read rows right))
  | call name args type =>
    (own (call name args type)).getD (I.call name type (groupValues I own calls read rows args))
  | aggregate fn args distinct => (own (aggregate fn args distinct)).getD
      (I.aggregate fn distinct (args.map fun x => (read x).direction)
        (rows.map fun row => args.map fun x => (read x).value row))
  | grouping fn args => calls ⟨fn, args⟩
  | window function partitionBy orderBy frame =>
    (own (window function partitionBy orderBy frame)).getD I.undefined

/-- The values of a list of expressions over a group of rows. -/
def groupValues (I : Interpretation V) (own : Expr → Option V) (calls : GroupingCall → V)
    (read : Expr → Reading V) (rows : List (Row V)) : List Expr → List V
  | [] => []
  | e :: es => groupValue I own calls read rows e :: groupValues I own calls read rows es

end

section GroupValue

variable {I : Interpretation V} {own : Expr → Option V} {calls : GroupingCall → V}
  {read : Expr → Reading V} {rows : List (Row V)}

@[simp] lemma groupValues_eq_map (es : List Expr) :
    groupValues I own calls read rows es = es.map (groupValue I own calls read rows) := by
  induction es with
  | nil => rfl
  | cons e es ih => rw [groupValues, ih, List.map_cons]

lemma groupValue_of_groupingCall {e : Expr} {c : GroupingCall} (h : e.groupingCall? = some c) :
    e.groupValue I own calls read rows = calls c := by
  obtain rfl := groupingCall?_eq_some_iff.1 h
  rfl

lemma groupValue_of_own {e : Expr} (hcall : e.groupingCall? = none) {v : V} (h : own e = some v) :
    e.groupValue I own calls read rows = v := by
  cases e with
  | grouping fn args => cases hcall
  | _ => simp [groupValue, h]

lemma groupValue_of_aggregate {fn : AggregateFn} {args : List Expr} {distinct : Bool}
    (h : own (aggregate fn args distinct) = none) :
    (aggregate fn args distinct).groupValue I own calls read rows =
      I.aggregate fn distinct (args.map fun x => (read x).direction)
        (rows.map fun row => args.map fun x => (read x).value row) := by
  rw [groupValue, h, Option.getD_none]

/-- Any other expression is evaluated from its children. -/
lemma groupValue_of_none {e : Expr} (hcall : e.groupingCall? = none) (h : own e = none)
    (haggregate : e.aggregateCall? = none) : e.groupValue I own calls read rows =
      e.scalarValue I (I.first rows) (groupValue I own calls read rows) := by
  cases e with
  | grouping fn args => cases hcall
  | aggregate fn args distinct => cases haggregate
  | _ => simp [groupValue, scalarValue, h]

end GroupValue

end Expr

/-! ## Rows of plans -/

/-- The row that the entries of a projection make from a row.  Virtual columns are handed on. -/
def projectRow (I : Interpretation V) (list : List Expr) (row : Row V) : Row V := fun i =>
  match definingExpr? list ⟨i, "", .unknown, false⟩ with
  | some e => e.value I I.noCalls row
  | none => if (list.filterMap Expr.virtual?).any (·.column.id == i) then row i else I.undefined

namespace Plan

/-- Whether a plan exposes a column with an id. -/
def exposes (p : Plan) (i : ColumnId) : Bool :=
  match p.schema with
  | .ok columns => columns.any (·.id == i)
  | .error _ => false

/-- The rows of a plan.  For nodes other than projections they are left open, except that a row has
no values beyond the columns exposed. -/
def rows (I : Interpretation V) (base : Plan → List (Row V)) : Plan → List (Row V)
  | projection list child => (rows I base child).map (projectRow I list)
  | p => (base p).map fun row i => if p.exposes i then row i else I.undefined

end Plan

/-! ## The meaning of grouping sets -/

namespace Repetition

variable (r : Repetition) (I : Interpretation V)

/-- The value of a grouping call for a grouping set. -/
def callValue (set : List Expr) (call : GroupingCall) : V := I.mask (absenceMask set call.args)

/-- The value of an expression on the first row of a group. -/
def headValue (rows : List (Row V)) (e : Expr) : V :=
  (rows.head?.map fun row => e.value I I.noCalls row).getD I.undefined

/-- The value of a grouping expression for a grouping set: null if it is not in the set. -/
def keyValue (set : List Expr) (rows : List (Row V)) (e : Expr) : V :=
  if set.contains e then headValue I rows e else I.null

/-- The values that grouping expressions have over a group made for a grouping set. -/
def ownValue (set : List Expr) (rows : List (Row V)) (e : Expr) : Option V :=
  if r.items.contains e then some (keyValue I set rows e) else none

/-- The row of results for a group made for a grouping set. -/
def result (set : List Expr) (rows : List (Row V)) : List V :=
  r.output.map (Expr.groupValue I (r.ownValue I set rows) (callValue I set)
    (Expr.reading I (callValue I set)) rows)

/-- The key by which rows are grouped for a grouping set. -/
def setKey (set : List Expr) (row : Row V) : List V := set.map fun e => e.value I I.noCalls row

/-- The meaning of grouping sets: for each set a row of results for each group. -/
def meaning [DecidableEq V] (base : Plan → List (Row V)) : List (List V) :=
  r.sets.flatMap fun set => (groups (setKey I set) (r.child.rows I base)).map (r.result I set)

/-! ## What an execution computes -/

/-- The copy of a row for the grouping set at an index.  Grouping columns that are not in the set
are null, and virtual columns have the values that the repetition computes for the set. -/
def copyRow (set : List Expr) (index : Nat) (row : Row V) : Row V := fun i =>
  match r.output.find? fun e => e.produced?.any (·.id == i) with
  | some (.column c) =>
    if r.setColumns.contains c && !(set.flatMap Expr.columns).contains c then I.null else row i
  | some e =>
    match e.virtual? with
    | some v => I.mask ((r.virtualValues v).getD index 0)
    | none => I.undefined
  | none => I.undefined

/-- Every row of the child, once per grouping set. -/
def copies (base : Plan → List (Row V)) : List (Row V) :=
  (r.child.rows I base).flatMap fun row =>
    r.sets.zipIdx.map fun indexed => r.copyRow I indexed.1 indexed.2 row

end Repetition

namespace Aggregation

variable (a : Aggregation) (I : Interpretation V)

/-- The row of results for a group of copies. -/
def result (rows : List (Row V)) : List V :=
  a.output.map (Expr.groupValue I (fun _ => none) I.noCalls (Expr.reading I I.noCalls) rows)

/-- The key by which copies are grouped. -/
def groupKey (row : Row V) : List V := a.groupBy.map fun e => e.value I I.noCalls row

/-- The meaning of an aggregation over a repetition: a row of results for each group of copies. -/
def meaning [DecidableEq V] (base : Plan → List (Row V)) : List (List V) :=
  match a.child.repetition? with
  | some r => (groups (a.groupKey I) (r.copies I base)).map (a.result I)
  | none => []

end Aggregation
end GroupingPlanner

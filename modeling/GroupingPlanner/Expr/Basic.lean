import GroupingPlanner.AggregateFn
import GroupingPlanner.Column
import GroupingPlanner.Frame
import GroupingPlanner.GroupingFn
import GroupingPlanner.Literal
/-!
# Expressions

Expressions are trees over columns and constants.  A pass never changes a node in place; it builds
a new tree.  What a node hands to its passes is the list of its *children*, and the laws tying the
two directions together are what every pass rests on.

* `Expr`: the trees.
* `Expr.children`, `Expr.reassemble?`: the children of a node, in a fixed order, and the node
  over other children.  A window lists its function, its partition keys and its order keys.
* `Expr.mapChildren`: the node with a function applied to each child.
* `Expr.childrenInduction`: induction where the claim may be assumed of all children.
* `GroupingCall`, `AggregateCall`, `Alias`, `VirtualColumn`: what certain nodes hold, as values of
  their own, each with its way back into expressions.

A *virtual column* has no values below the node that introduces it: it is computed from the
grouping set a row was made for, and stands either for the grouping id or for one call of a
grouping function.  The arguments recorded with it say where it came from.  They are no children:
no pass looks for columns there or replaces anything.
-/

namespace GroupingPlanner

/-- An arithmetic operation. -/
inductive ArithOp where
  | add
  | subtract
  | multiply
  | divide
deriving DecidableEq, Repr

/-- The sign of an operation. -/
def ArithOp.sign : ArithOp → String
  | add => "+"
  | subtract => "-"
  | multiply => "*"
  | divide => "/"

/-- A sort direction. -/
inductive Direction where
  | ascending
  | descending
deriving DecidableEq, Repr

/-- The word for a direction. -/
def Direction.text : Direction → String
  | ascending => "asc"
  | descending => "desc"

/-- An expression. -/
inductive Expr where
  /-- A column that some node below produces. -/
  | column (c : Column)
  /-- The virtual column of the grouping id. -/
  | groupingIdColumn (c : Column)
  /-- The virtual column of one call of a grouping function. -/
  | callColumn (c : Column) (fn : GroupingFn) (args : List Expr)
  /-- A name, and an identity, for the value of an expression. -/
  | named (id : ColumnId) (name : String) (child : Expr)
  /-- A constant. -/
  | literal (v : Literal)
  /-- An arithmetic operation on two operands. -/
  | arith (op : ArithOp) (left right : Expr)
  /-- A call of a scalar function, with the type of its result. -/
  | call (name : String) (args : List Expr) (type : ScalarType)
  /-- A call of an aggregate function.  As the function of a window it is evaluated over the
  window, and everywhere else over a group. -/
  | aggregate (fn : AggregateFn) (args : List Expr) (distinct : Bool)
  /-- A call of a grouping function. -/
  | grouping (fn : GroupingFn) (args : List Expr)
  /-- A function evaluated over a window. -/
  | window (function : Expr) (partitionBy orderBy : List Expr) (frame : Option Frame)
  /-- An argument or a key with a sort direction; its value is that of its child. -/
  | ordered (child : Expr) (direction : Direction)

namespace Expr

instance : Inhabited Expr := ⟨.literal .null⟩

/-! ## Children -/

/-- The children of a node, from left to right. -/
def children : Expr → List Expr
  | column _ | groupingIdColumn _ | callColumn .. | literal _ => []
  | named _ _ child | ordered child _ => [child]
  | arith _ left right => [left, right]
  | call _ args _ | aggregate _ args _ | grouping _ args => args
  | window function partitionBy orderBy _ => function :: (partitionBy ++ orderBy)

/-- The same node over other children, if there are as many as before.  In a window the partition
keys stay as many as they were, and so do the order keys. -/
def reassemble? : Expr → List Expr → Option Expr
  | column c, [] => some (column c)
  | groupingIdColumn c, [] => some (groupingIdColumn c)
  | callColumn c fn args, [] => some (callColumn c fn args)
  | literal v, [] => some (literal v)
  | named id name _, [child] => some (named id name child)
  | ordered _ direction, [child] => some (ordered child direction)
  | arith op _ _, [left, right] => some (arith op left right)
  | call name args type, cs => if cs.length = args.length then some (call name cs type) else none
  | aggregate fn args distinct, cs =>
    if cs.length = args.length then some (aggregate fn cs distinct) else none
  | grouping fn args, cs => if cs.length = args.length then some (grouping fn cs) else none
  | window _ partitionBy orderBy frame, function :: keys =>
    if keys.length = partitionBy.length + orderBy.length then
      some (window function (keys.take partitionBy.length) (keys.drop partitionBy.length) frame)
    else none
  | _, _ => none

/-- The same node with a function applied to each child. -/
def mapChildren (f : Expr → Expr) : Expr → Expr
  | column c => column c
  | groupingIdColumn c => groupingIdColumn c
  | callColumn c fn args => callColumn c fn args
  | named id name child => named id name (f child)
  | literal v => literal v
  | arith op left right => arith op (f left) (f right)
  | call name args type => call name (args.map f) type
  | aggregate fn args distinct => aggregate fn (args.map f) distinct
  | grouping fn args => grouping fn (args.map f)
  | window function partitionBy orderBy frame =>
    window (f function) (partitionBy.map f) (orderBy.map f) frame
  | ordered child direction => ordered (f child) direction

theorem children_mapChildren (f : Expr → Expr) (e : Expr) :
    (e.mapChildren f).children = e.children.map f := by
  cases e <;> simp [mapChildren, children]

theorem mapChildren_congr {f g : Expr → Expr} {e : Expr} (h : ∀ c ∈ e.children, f c = g c) :
    e.mapChildren f = e.mapChildren g := by
  cases e <;> simp_all [mapChildren, children]

theorem mapChildren_eq_self {f : Expr → Expr} {e : Expr} (h : ∀ c ∈ e.children, f c = c) :
    e.mapChildren f = e := by
  have same : e.mapChildren f = e.mapChildren fun c => c := mapChildren_congr h
  rw [same]
  cases e <;> simp [mapChildren]

/-- A claim holds of every expression if it holds of each node as soon as it holds of its
children. -/
theorem childrenInduction {motive : Expr → Prop}
    (step : ∀ e : Expr, (∀ c ∈ e.children, motive c) → motive e) (e : Expr) : motive e := by
  refine @Expr.rec motive (fun es => ∀ c ∈ es, motive c)
    ?_ ?_ ?_ ?_ ?_ ?_ ?_ ?_ ?_ ?_ ?_ ?_ ?_ e
  case refine_1 => intro c; exact step _ (by simp [children])
  case refine_2 => intro c; exact step _ (by simp [children])
  case refine_3 => intro c fn args _; exact step _ (by simp [children])
  case refine_4 => intro id name child h; exact step _ (by simpa [children] using h)
  case refine_5 => intro v; exact step _ (by simp [children])
  case refine_6 => intro op left right h h'; exact step _ (by simpa [children] using ⟨h, h'⟩)
  case refine_7 => intro name args type h; exact step _ (by simpa [children] using h)
  case refine_8 => intro fn args distinct h; exact step _ (by simpa [children] using h)
  case refine_9 => intro fn args h; exact step _ (by simpa [children] using h)
  case refine_10 =>
    intro function partitionBy orderBy frame hf hp ho
    refine step _ fun c hc => ?_
    simp only [children, List.mem_cons, List.mem_append] at hc
    rcases hc with rfl | hc | hc
    · exact hf
    · exact hp c hc
    · exact ho c hc
  case refine_11 => intro child direction h; exact step _ (by simpa [children] using h)
  case refine_12 => simp
  case refine_13 => intro c cs h hs; simpa using ⟨h, hs⟩

end Expr

/-! ## What certain nodes hold -/

/-- A call of a grouping function. -/
structure GroupingCall where
  fn : GroupingFn
  args : List Expr

/-- A call of an aggregate function. -/
structure AggregateCall where
  fn : AggregateFn
  args : List Expr
  distinct : Bool

/-- A name, and an identity, for the value of an expression. -/
structure Alias where
  id : ColumnId
  name : String
  child : Expr

/-- What is computed from the grouping set a row was made for. -/
inductive GroupingQuantity where
  /-- The grouping id. -/
  | groupingId
  /-- The value of a grouping call. -/
  | call (c : GroupingCall)

/-- A virtual column together with what it stands for. -/
structure VirtualColumn where
  column : Column
  quantity : GroupingQuantity

/-- A call as an expression. -/
def GroupingCall.toExpr (c : GroupingCall) : Expr := .grouping c.fn c.args

/-- A call as an expression. -/
def AggregateCall.toExpr (c : AggregateCall) : Expr := .aggregate c.fn c.args c.distinct

/-- An alias as an expression. -/
def Alias.toExpr (a : Alias) : Expr := .named a.id a.name a.child

namespace VirtualColumn

/-- A virtual column as an expression. -/
def toExpr (v : VirtualColumn) : Expr :=
  match v.quantity with
  | .groupingId => .groupingIdColumn v.column
  | .call c => .callColumn v.column c.fn c.args

/-- Whether a virtual column is that of the grouping id. -/
def standsForId (v : VirtualColumn) : Bool :=
  match v.quantity with
  | .groupingId => true
  | .call _ => false

end VirtualColumn

namespace Expr

/-- The grouping call at the root, if there is one. -/
def groupingCall? : Expr → Option GroupingCall
  | grouping fn args => some ⟨fn, args⟩
  | _ => none

/-- The alias at the root, if there is one. -/
def alias? : Expr → Option Alias
  | named id name child => some ⟨id, name, child⟩
  | _ => none

/-- The plain column at the root, if there is one. -/
def column? : Expr → Option Column
  | column c => some c
  | _ => none

/-- The virtual column at the root, if there is one. -/
def virtual? : Expr → Option VirtualColumn
  | groupingIdColumn c => some ⟨c, .groupingId⟩
  | callColumn c fn args => some ⟨c, .call ⟨fn, args⟩⟩
  | _ => none

/-- The expression without the sort direction at its root. -/
def withoutDirection : Expr → Expr
  | ordered child _ => child
  | e => e

@[simp] theorem virtual?_toExpr (v : VirtualColumn) : v.toExpr.virtual? = some v := by
  obtain ⟨c, _ | ⟨fn, args⟩⟩ := v <;> rfl

end Expr

end GroupingPlanner

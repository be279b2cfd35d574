import GroupingPlanner.Expr.Basic
/-!
# What an expression contains

* `Expr.nodesUntil`: the nodes of a tree in pre-order, without those below a node at which the
  walk stops.  `Expr.subterms` lists all nodes.
* `Expr.columns`: the plain columns of a tree, in pre-order and with repetitions.
* `Expr.plainAggregates`: the aggregate calls that are evaluated over a group.
* `Expr.mapAggregateArguments`: changes the arguments of exactly those calls.

A window evaluates its function over the rows of the window, so an aggregate call that *is* the
function of a window does not range over a group, while one among the arguments of that function,
or in the keys, does: in `sum(sum(a)) over (partition by b)` only the inner call ranges over a
group.  The function of a window is looked at only through its children; a window that is the
function of another window therefore leaves its own function to be looked at as a whole.
-/

namespace GroupingPlanner.Expr

/-! ## Nodes -/

mutual

/-- The nodes of a tree in pre-order, without those below a node on which `stop` holds. -/
def nodesUntil (stop : Expr → Bool) : Expr → List Expr
  | column c => [column c]
  | groupingIdColumn c => [groupingIdColumn c]
  | callColumn c fn args => [callColumn c fn args]
  | literal v => [literal v]
  | named id name child =>
    named id name child :: if stop (named id name child) then [] else nodesUntil stop child
  | arith op left right =>
    arith op left right ::
      if stop (arith op left right) then [] else nodesUntil stop left ++ nodesUntil stop right
  | call name args type =>
    call name args type :: if stop (call name args type) then [] else nodesUntilAll stop args
  | aggregate fn args distinct =>
    aggregate fn args distinct ::
      if stop (aggregate fn args distinct) then [] else nodesUntilAll stop args
  | grouping fn args =>
    grouping fn args :: if stop (grouping fn args) then [] else nodesUntilAll stop args
  | window function partitionBy orderBy frame =>
    window function partitionBy orderBy frame ::
      if stop (window function partitionBy orderBy frame) then []
      else nodesUntil stop function ++ (nodesUntilAll stop partitionBy ++
        nodesUntilAll stop orderBy)
  | ordered child direction =>
    ordered child direction ::
      if stop (ordered child direction) then [] else nodesUntil stop child

/-- The nodes of a list of trees, one tree after the other. -/
def nodesUntilAll (stop : Expr → Bool) : List Expr → List Expr
  | [] => []
  | e :: es => nodesUntil stop e ++ nodesUntilAll stop es

end

@[simp] theorem nodesUntilAll_eq_flatMap (stop : Expr → Bool) (es : List Expr) :
    nodesUntilAll stop es = es.flatMap (nodesUntil stop) := by
  induction es with
  | nil => rfl
  | cons e es ih => simp [nodesUntilAll, ih]

/-- A walk visits a node and then, unless it stops there, the children from left to right. -/
theorem nodesUntil_eq (stop : Expr → Bool) (e : Expr) :
    e.nodesUntil stop = e :: if stop e then [] else e.children.flatMap (nodesUntil stop) := by
  cases e <;> simp [nodesUntil, children]

/-- All nodes of a tree, in pre-order. -/
def subterms (e : Expr) : List Expr := e.nodesUntil fun _ => false

theorem subterms_eq (e : Expr) : e.subterms = e :: e.children.flatMap subterms := by
  rw [subterms, nodesUntil_eq]
  rfl

theorem self_mem_subterms (e : Expr) : e ∈ e.subterms := by
  rw [subterms_eq]
  exact List.mem_cons_self

/-- The plain columns of a tree, in pre-order; one that occurs twice is listed twice. -/
def columns (e : Expr) : List Column := e.subterms.filterMap column?

/-! ## Aggregates over a group -/

mutual

/-- The aggregate calls of a tree that are evaluated over a group, in pre-order.  Those inside the
arguments of another one belong to that one and are not listed. -/
def plainAggregates : Expr → List AggregateCall
  | column _ | groupingIdColumn _ | callColumn .. | literal _ => []
  | named _ _ child => plainAggregates child
  | arith _ left right => plainAggregates left ++ plainAggregates right
  | call _ args _ => plainAggregatesOfAll args
  | aggregate fn args distinct => [⟨fn, args, distinct⟩]
  | grouping _ args => plainAggregatesOfAll args
  | window function partitionBy orderBy _ =>
    plainAggregatesBelow function ++ (plainAggregatesOfAll partitionBy ++
      plainAggregatesOfAll orderBy)
  | ordered child _ => plainAggregates child

/-- The same for the children of a node, whatever the node itself is. -/
def plainAggregatesBelow : Expr → List AggregateCall
  | column _ | groupingIdColumn _ | callColumn .. | literal _ => []
  | named _ _ child => plainAggregates child
  | arith _ left right => plainAggregates left ++ plainAggregates right
  | call _ args _ => plainAggregatesOfAll args
  | aggregate _ args _ => plainAggregatesOfAll args
  | grouping _ args => plainAggregatesOfAll args
  | window function partitionBy orderBy _ =>
    plainAggregates function ++ (plainAggregatesOfAll partitionBy ++ plainAggregatesOfAll orderBy)
  | ordered child _ => plainAggregates child

/-- The same for a list of trees. -/
def plainAggregatesOfAll : List Expr → List AggregateCall
  | [] => []
  | e :: es => plainAggregates e ++ plainAggregatesOfAll es

end

@[simp] theorem plainAggregatesOfAll_eq_flatMap (es : List Expr) :
    plainAggregatesOfAll es = es.flatMap plainAggregates := by
  induction es with
  | nil => rfl
  | cons e es ih => simp [plainAggregatesOfAll, ih]

theorem plainAggregatesBelow_eq (e : Expr) :
    e.plainAggregatesBelow = e.children.flatMap plainAggregates := by
  cases e <;> simp [plainAggregatesBelow, children]

mutual

/-- Applies `f` to the arguments of the aggregate calls that are evaluated over a group, and leaves
everything else as it is. -/
def mapAggregateArguments (f : Expr → Expr) : Expr → Expr
  | column c => column c
  | groupingIdColumn c => groupingIdColumn c
  | callColumn c fn args => callColumn c fn args
  | literal v => literal v
  | named id name child => named id name (mapAggregateArguments f child)
  | arith op left right =>
    arith op (mapAggregateArguments f left) (mapAggregateArguments f right)
  | call name args type => call name (mapAggregateArgumentsInAll f args) type
  | aggregate fn args distinct => aggregate fn (args.map f) distinct
  | grouping fn args => grouping fn (mapAggregateArgumentsInAll f args)
  | window function partitionBy orderBy frame =>
    window (mapAggregateArgumentsBelow f function) (mapAggregateArgumentsInAll f partitionBy)
      (mapAggregateArgumentsInAll f orderBy) frame
  | ordered child direction => ordered (mapAggregateArguments f child) direction

/-- The same for the children of a node, whatever the node itself is. -/
def mapAggregateArgumentsBelow (f : Expr → Expr) : Expr → Expr
  | column c => column c
  | groupingIdColumn c => groupingIdColumn c
  | callColumn c fn args => callColumn c fn args
  | literal v => literal v
  | named id name child => named id name (mapAggregateArguments f child)
  | arith op left right =>
    arith op (mapAggregateArguments f left) (mapAggregateArguments f right)
  | call name args type => call name (mapAggregateArgumentsInAll f args) type
  | aggregate fn args distinct =>
    aggregate fn (mapAggregateArgumentsInAll f args) distinct
  | grouping fn args => grouping fn (mapAggregateArgumentsInAll f args)
  | window function partitionBy orderBy frame =>
    window (mapAggregateArguments f function) (mapAggregateArgumentsInAll f partitionBy)
      (mapAggregateArgumentsInAll f orderBy) frame
  | ordered child direction => ordered (mapAggregateArguments f child) direction

/-- The same for a list of trees. -/
def mapAggregateArgumentsInAll (f : Expr → Expr) : List Expr → List Expr
  | [] => []
  | e :: es => mapAggregateArguments f e :: mapAggregateArgumentsInAll f es

end

@[simp] theorem mapAggregateArgumentsInAll_eq_map (f : Expr → Expr) (es : List Expr) :
    mapAggregateArgumentsInAll f es = es.map (mapAggregateArguments f) := by
  induction es with
  | nil => rfl
  | cons e es ih => simp [mapAggregateArgumentsInAll, ih]

theorem mapAggregateArgumentsBelow_eq (f : Expr → Expr) (e : Expr) :
    e.mapAggregateArgumentsBelow f = e.mapChildren (mapAggregateArguments f) := by
  cases e <;> simp [mapAggregateArgumentsBelow, mapChildren]

end GroupingPlanner.Expr

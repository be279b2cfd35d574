import GroupingPlanner.Lowering.Bindings
/-!
# Virtual columns in the place of grouping calls

Above a repetition a grouping call is read from a virtual column.  Calls of one function with
equal arguments, once bound columns stand for the bound expressions in them, share the column; such
a call with substituted arguments is the *signature* of the calls it comes from.

The output is searched from the root down.  A grouping call is replaced where it stands, so that
what lies inside its arguments is substituted but not searched for further calls, and a bound
expression is replaced as a whole.  Calls inside either are therefore not reached and get no column.

* `Bindings.signatures`: the signatures of the calls reached, in order of first visit.
* `Bindings.callColumns`: one virtual column for each, with consecutive ids.
* `Bindings.substituteOutput`: the output over bound columns and virtual columns.
-/

namespace GroupingPlanner

/-- Whether a virtual column stands for a grouping call. -/
def VirtualColumn.isFor (v : VirtualColumn) (call : GroupingCall) : Bool :=
  match v.quantity with
  | .groupingId => false
  | .call c => call == c

namespace Bindings

/-- A grouping call over bound columns. -/
def signature (b : Bindings) (call : GroupingCall) : GroupingCall :=
  { call with args := call.args.map b.substitute }

/-- Whether a node of the output is replaced as a whole. -/
def replaces (b : Bindings) (node : Expr) : Bool :=
  node.groupingCall?.isSome || (b.get? node).isSome

/-- The grouping calls of a tree that are replaced, in pre-order. -/
def replacedCalls (b : Bindings) (e : Expr) : List GroupingCall :=
  (e.nodesUntil b.replaces).filterMap Expr.groupingCall?

/-- The signatures of the calls replaced in an output, in order of first visit. -/
def signatures (b : Bindings) (output : List Expr) : Roster GroupingCall :=
  .ofList ((output.flatMap b.replacedCalls).map b.signature)

/-- A virtual column for each signature; the first has the id `first`. -/
def callColumns (b : Bindings) (first : Nat) (output : List Expr) : List VirtualColumn :=
  (b.signatures output).toList.mapIdx fun i call => .ofCall ⟨first + i⟩ call

/-- What replaces a node of the output: the virtual column of a grouping call, the column bound to
any other expression. -/
def outputRule (b : Bindings) (columns : List VirtualColumn) (node : Expr) : Option Expr :=
  match node.groupingCall? with
  | some call => (columns.find? (·.isFor (b.signature call))).map VirtualColumn.toExpr
  | none => b.replacement? node

/-- The output over bound columns and virtual columns. -/
def substituteOutput (b : Bindings) (columns : List VirtualColumn) (output : List Expr) :
    List Expr :=
  output.map (Expr.replace (b.outputRule columns))

end Bindings

end GroupingPlanner

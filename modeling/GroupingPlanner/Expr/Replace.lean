import GroupingPlanner.Expr.Traversal
/-!
# Replacing from the root down

A rule looks at a node and either replaces it or lets it be.  A replacement is final: neither it
nor what it replaced is looked at again.  Where the rule lets a node be, its children are treated
alike, from left to right.

* `Expr.replaceM`: what becomes of a tree under a rule with effects of its own, such as failing or
  taking ids.
* `Expr.replace`: the same under a plain function, and `Expr.replace_eq`, its one equation.
* `Expr.replaceColumns`: replaces columns, and nothing else, everywhere in a tree.
-/

namespace GroupingPlanner.Expr

/-- The replacement that a rule gives, or else what becomes of the node without one. -/
def answerOr {m : Type → Type} [Monad m] (answer : m (Option Expr)) (otherwise : m Expr) :
    m Expr := do
  match ← answer with
  | some replacement => return replacement
  | none => otherwise

mutual

/-- Applies a rule with effects to a tree, from the root down. -/
def replaceM {m : Type → Type} [Monad m] (rule : Expr → m (Option Expr)) : Expr → m Expr
  | column c => answerOr (rule (column c)) (return column c)
  | groupingIdColumn c => answerOr (rule (groupingIdColumn c)) (return groupingIdColumn c)
  | callColumn c fn args =>
    answerOr (rule (callColumn c fn args)) (return callColumn c fn args)
  | literal v => answerOr (rule (literal v)) (return literal v)
  | named id name child =>
    answerOr (rule (named id name child)) do
      return named id name (← replaceM rule child)
  | arith op left right =>
    answerOr (rule (arith op left right)) do
      let left ← replaceM rule left
      let right ← replaceM rule right
      return arith op left right
  | call name args type =>
    answerOr (rule (call name args type)) do
      return call name (← replaceAllM rule args) type
  | aggregate fn args distinct =>
    answerOr (rule (aggregate fn args distinct)) do
      return aggregate fn (← replaceAllM rule args) distinct
  | grouping fn args =>
    answerOr (rule (grouping fn args)) do
      return grouping fn (← replaceAllM rule args)
  | window function partitionBy orderBy frame =>
    answerOr (rule (window function partitionBy orderBy frame)) do
      let function ← replaceM rule function
      let partitionBy ← replaceAllM rule partitionBy
      let orderBy ← replaceAllM rule orderBy
      return window function partitionBy orderBy frame
  | ordered child direction =>
    answerOr (rule (ordered child direction)) do
      return ordered (← replaceM rule child) direction

/-- Applies a rule with effects to a list of trees, from left to right. -/
def replaceAllM {m : Type → Type} [Monad m] (rule : Expr → m (Option Expr)) :
    List Expr → m (List Expr)
  | [] => return []
  | e :: es => do
    let e ← replaceM rule e
    let es ← replaceAllM rule es
    return e :: es

end

/-- Applies a plain rule to a tree, from the root down. -/
def replace (rule : Expr → Option Expr) (e : Expr) : Expr :=
  Id.run (replaceM (fun node => pure (rule node)) e)

theorem replaceAllM_pure (rule : Expr → Option Expr) (es : List Expr) :
    Id.run (replaceAllM (fun node => pure (rule node)) es) = es.map (replace rule) := by
  induction es with
  | nil => rfl
  | cons e es ih =>
    simp only [List.map_cons, ← ih]
    rfl

/-- A node is replaced, or else the rule goes on to its children. -/
theorem replace_eq (rule : Expr → Option Expr) (e : Expr) :
    e.replace rule = (rule e).getD (e.mapChildren (replace rule)) := by
  cases h : rule e <;> cases e <;>
    simp [replace, replaceM, answerOr, h, mapChildren, ← replaceAllM_pure]

/-- A rule that replaces nothing changes nothing. -/
theorem replace_none (e : Expr) : e.replace (fun _ => none) = e := by
  induction e using childrenInduction with
  | step e ih =>
    rw [replace_eq]
    exact mapChildren_eq_self ih

/-- Replaces the columns for which `f` has another one, wherever they stand. -/
def replaceColumns (f : Column → Option Column) (e : Expr) : Expr :=
  e.replace fun node => (node.column?.bind f).map column

end GroupingPlanner.Expr

import GroupingPlanner.Expr.Basic
/-!
# When two expressions are the same

Expressions are compared as trees, and the columns in them by their ids: a column shown under
another nullability, or under another name, is still the same column.  `==` on `Expr` is this
comparison; `=` compares every field.

* `Expr.same`: the comparison, which is what `==` means.
* `Expr.skeleton`: the tree with every column reduced to its id.
* `Expr.same_iff`: two expressions are the same exactly if their skeletons are equal.  Hence `==`
  is an equivalence relation.
-/

namespace GroupingPlanner

namespace Expr

mutual

/-- Whether two trees agree, columns being compared by their ids. -/
def same : Expr → Expr → Bool
  | column c, column c' => c == c'
  | groupingIdColumn c, groupingIdColumn c' => c == c'
  | callColumn c fn args, callColumn c' fn' args' =>
    c == c' && decide (fn = fn') && sameAll args args'
  | named id name child, named id' name' child' =>
    decide (id = id') && decide (name = name') && same child child'
  | literal v, literal v' => decide (v = v')
  | arith op left right, arith op' left' right' =>
    decide (op = op') && same left left' && same right right'
  | call name args type, call name' args' type' =>
    decide (name = name') && sameAll args args' && decide (type = type')
  | aggregate fn args distinct, aggregate fn' args' distinct' =>
    decide (fn = fn') && sameAll args args' && decide (distinct = distinct')
  | grouping fn args, grouping fn' args' => decide (fn = fn') && sameAll args args'
  | window function partitionBy orderBy frame, window function' partitionBy' orderBy' frame' =>
    same function function' && sameAll partitionBy partitionBy' && sameAll orderBy orderBy' &&
      decide (frame = frame')
  | ordered child direction, ordered child' direction' =>
    same child child' && decide (direction = direction')
  | _, _ => false

/-- Whether two lists of trees agree, entry by entry. -/
def sameAll : List Expr → List Expr → Bool
  | [], [] => true
  | e :: es, e' :: es' => same e e' && sameAll es es'
  | _, _ => false

end

instance : BEq Expr := ⟨same⟩

theorem beq_def (a b : Expr) : (a == b) = a.same b := rfl

/-! ## Comparing skeletons -/

mutual

/-- The tree with every column reduced to its id. -/
def skeleton : Expr → Expr
  | column c => column c.skeleton
  | groupingIdColumn c => groupingIdColumn c.skeleton
  | callColumn c fn args => callColumn c.skeleton fn (skeletons args)
  | named id name child => named id name (skeleton child)
  | literal v => literal v
  | arith op left right => arith op (skeleton left) (skeleton right)
  | call name args type => call name (skeletons args) type
  | aggregate fn args distinct => aggregate fn (skeletons args) distinct
  | grouping fn args => grouping fn (skeletons args)
  | window function partitionBy orderBy frame =>
    window (skeleton function) (skeletons partitionBy) (skeletons orderBy) frame
  | ordered child direction => ordered (skeleton child) direction

/-- The skeletons of a list of trees. -/
def skeletons : List Expr → List Expr
  | [] => []
  | e :: es => skeleton e :: skeletons es

end

mutual

/-- Two expressions are the same exactly if their skeletons are equal. -/
theorem same_iff (a b : Expr) : a.same b = true ↔ a.skeleton = b.skeleton := by
  cases a <;> cases b <;>
    simp [same, skeleton, Column.beq_iff_skeleton, same_iff, sameAll_iff, and_assoc]

theorem sameAll_iff (as bs : List Expr) : sameAll as bs = true ↔ skeletons as = skeletons bs := by
  cases as <;> cases bs <;> simp [sameAll, skeletons, same_iff, sameAll_iff]

end

theorem beq_iff (a b : Expr) : a == b ↔ a.skeleton = b.skeleton := same_iff a b

instance : EquivBEq Expr where
  rfl := (beq_iff _ _).2 rfl
  symm h := (beq_iff _ _).2 ((beq_iff _ _).1 h).symm
  trans h₁ h₂ := (beq_iff _ _).2 (((beq_iff _ _).1 h₁).trans ((beq_iff _ _).1 h₂))

end Expr

/-! ## The parts of expressions

Aliases, calls and virtual columns are compared as the expressions they stand for. -/

/-- Aliases are the same if id, name and child are. -/
instance : BEq Alias := ⟨fun a b => a.toExpr == b.toExpr⟩

/-- Grouping calls are the same if fn and arguments are. -/
instance : BEq GroupingCall := ⟨fun a b => a.toExpr == b.toExpr⟩

/-- Virtual columns are the same if id and source are. -/
instance : BEq VirtualColumn := ⟨fun a b => a.toExpr == b.toExpr⟩

theorem GroupingCall.beq_def (a b : GroupingCall) : (a == b) = (a.toExpr == b.toExpr) := rfl

theorem VirtualColumn.beq_def (a b : VirtualColumn) : (a == b) = (a.toExpr == b.toExpr) := rfl

instance : EquivBEq GroupingCall where
  rfl {a} := (BEq.rfl : a.toExpr == a.toExpr)
  symm {a b} h := (BEq.symm h : b.toExpr == a.toExpr)
  trans {a _ c} h₁ h₂ := (BEq.trans h₁ h₂ : a.toExpr == c.toExpr)

instance : EquivBEq VirtualColumn where
  rfl {a} := (BEq.rfl : a.toExpr == a.toExpr)
  symm {a b} h := (BEq.symm h : b.toExpr == a.toExpr)
  trans {a _ c} h₁ h₂ := (BEq.trans h₁ h₂ : a.toExpr == c.toExpr)

end GroupingPlanner

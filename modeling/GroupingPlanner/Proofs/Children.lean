import GroupingPlanner.Expr.Text
import Mathlib.Tactic
/-!
# Nodes over other children

A pass takes a node apart into its children and puts it together again over new ones.  What it may
rely on is that nothing is lost on the way: over its own children a node is what it was, over other
ones it has these children and is unchanged in everything else, and the children it had before leave
no trace.  All of this follows from one equivalence.  A node put together over `cs` is the one node
that differs from the given one in its children only and that has the children `cs`.

The hard case is the window, whose list of children holds three kinds of them.  Where partition keys
end and order keys begin is not written into the list, and so the node has to know: its partition
keys stay as many as they were.

Putting a node together can also be told as taking children from a supply, one after the other.
A supply may run dry, or leave something over.  It does neither if the children are counted first.

* `Expr.SameNode`: nodes that differ in their children only.
* `Expr.reassemble?_eq_some_iff`, `Expr.reassemble_eq_ok_iff`: which node is put together.
* `Expr.refill`, `SameNode.run_refill`: the node over children taken from a supply.
* `Expr.Lens`, `Expr.reassemble_lens`: the laws of taking apart and putting together.
-/

namespace GroupingPlanner
namespace Expr

/-! ## Nodes that differ in their children only -/

/-- One node as another one but for the children, which are as many.  In a window there are as many
partition keys and as many order keys. -/
inductive SameNode : Expr → Expr → Prop
  | column (c : Column) : SameNode (column c) (column c)
  | groupingIdColumn (c : Column) : SameNode (groupingIdColumn c) (groupingIdColumn c)
  | callColumn (c : Column) (fn : GroupingFn) (args : List Expr) :
    SameNode (callColumn c fn args) (callColumn c fn args)
  | named (id : ColumnId) (name : String) (child child' : Expr) :
    SameNode (named id name child) (named id name child')
  | literal (v : Literal) : SameNode (literal v) (literal v)
  | arith (op : ArithOp) (left right left' right' : Expr) :
    SameNode (arith op left right) (arith op left' right')
  | call (name : String) (type : ScalarType) {args args' : List Expr}
    (length : args'.length = args.length) : SameNode (call name args type) (call name args' type)
  | aggregate (fn : AggregateFn) (distinct : Bool) {args args' : List Expr}
    (length : args'.length = args.length) :
    SameNode (aggregate fn args distinct) (aggregate fn args' distinct)
  | grouping (fn : GroupingFn) {args args' : List Expr} (length : args'.length = args.length) :
    SameNode (grouping fn args) (grouping fn args')
  | window (function function' : Expr) (frame : Option Frame)
    {partitionBy partitionBy' orderBy orderBy' : List Expr}
    (partition : partitionBy'.length = partitionBy.length)
    (order : orderBy'.length = orderBy.length) :
    SameNode (window function partitionBy orderBy frame)
      (window function' partitionBy' orderBy' frame)
  | ordered (child child' : Expr) (direction : Direction) :
    SameNode (ordered child direction) (ordered child' direction)

namespace SameNode

variable {e e' e'' : Expr}

lemma refl (e : Expr) : e.SameNode e := by
  cases e <;> constructor <;> rfl

lemma symm (h : e.SameNode e') : e'.SameNode e := by
  cases h <;> constructor <;> symm <;> assumption

lemma trans (h : e.SameNode e') (h' : e'.SameNode e'') : e.SameNode e'' := by
  cases h <;> cases h' <;> constructor <;> omega

lemma length_children (h : e.SameNode e') : e'.children.length = e.children.length := by
  cases h <;> simp [children, *]

/-- Nothing but the children is left to differ. -/
lemma eq_of_children (h : e.SameNode e') (hc : e'.children = e.children) : e' = e := by
  cases h
  case window function function' frame partitionBy partitionBy' orderBy orderBy' hp ho =>
    obtain ⟨rfl, hkeys⟩ := List.cons.inj hc
    obtain ⟨rfl, rfl⟩ := List.append_inj hkeys hp
    rfl
  all_goals simp_all [children]

end SameNode

/-! ## Which node is put together -/

/-- The node put together over `cs` is the one that differs in its children only and has these. -/
theorem reassemble?_eq_some_iff {e e' : Expr} {cs : List Expr} :
    e.reassemble? cs = some e' ↔ e.SameNode e' ∧ e'.children = cs := by
  constructor
  · intro h
    unfold reassemble? at h
    split at h
    case h_11 function partitionBy orderBy frame function' keys =>
      -- The keys are split where the partition keys of `e` end.
      split at h
      · rename_i length
        cases h
        exact ⟨.window function function' frame (by simp; omega) (by simp; omega),
          by simp [children]⟩
      · simp at h
    case h_12 => cases h
    case h_8 | h_9 | h_10 =>
      split at h
      · rename_i length
        cases h
        exact ⟨by constructor; exact length, rfl⟩
      · simp at h
    all_goals
      cases h
      exact ⟨by constructor, rfl⟩
  · rintro ⟨h, rfl⟩
    cases h <;> simp_all [children, reassemble?]

lemma isSome_reassemble?_iff {e : Expr} {cs : List Expr} :
    (e.reassemble? cs).isSome ↔ cs.length = e.children.length := by
  constructor
  · intro h
    obtain ⟨e', he'⟩ := Option.isSome_iff_exists.1 h
    obtain ⟨same, rfl⟩ := reassemble?_eq_some_iff.1 he'
    exact same.length_children
  · intro h
    cases e
    case named | ordered => obtain ⟨c, rfl⟩ := List.length_eq_one_iff.1 h; rfl
    case arith => obtain ⟨c, d, rfl⟩ := List.length_eq_two.1 h; rfl
    case window =>
      cases cs with
      | nil => cases h
      | cons c keys =>
        have length := Nat.succ.inj h
        rw [List.length_append] at length
        simp [reassemble?, length]
    case call | aggregate | grouping => simpa [reassemble?, children] using h
    all_goals
      obtain rfl := List.length_eq_zero_iff.1 h
      rfl

/-- A node can be put together again over its children once they are rewritten one by one. -/
lemma reassemble?_map_children (f : Expr → Expr) (e : Expr) :
    e.reassemble? (e.children.map f) = some (e.mapChildren f) :=
  reassemble?_eq_some_iff.2 ⟨by cases e <;> constructor <;> simp, children_mapChildren f e⟩

/-- The fault of a wrong number of children. -/
def miscount (e : Expr) (cs : List Expr) : Fault :=
  .unexpectedCount ("expression " ++ e.text ++ " expects " ++ toString e.children.length ++
    " children, got " ++ toString cs.length)

theorem reassemble_eq_ok_iff {e e' : Expr} {cs : List Expr} :
    e.reassemble cs = .ok e' ↔ e.SameNode e' ∧ e'.children = cs := by
  rw [← reassemble?_eq_some_iff, reassemble]
  cases e.reassemble? cs <;> simp

theorem reassemble_eq_error_iff {e : Expr} {cs : List Expr} {f : Fault} :
    e.reassemble cs = .error f ↔ cs.length ≠ e.children.length ∧ f = e.miscount cs := by
  rw [ne_eq, ← isSome_reassemble?_iff, reassemble, miscount]
  cases e.reassemble? cs <;> simp [eq_comm]

/-- The node itself is put together over its own children. -/
lemma reassemble_children (e : Expr) : e.reassemble e.children = .ok e :=
  reassemble_eq_ok_iff.2 ⟨.refl e, rfl⟩

/-- The children that a node had before leave no trace. -/
lemma SameNode.reassemble {e e' : Expr} {cs : List Expr} (h : e.SameNode e')
    (length : cs.length = e.children.length) : e'.reassemble cs = e.reassemble cs := by
  obtain ⟨e'', he''⟩ := Option.isSome_iff_exists.1 (isSome_reassemble?_iff.2 length)
  obtain ⟨same, hcs⟩ := reassemble?_eq_some_iff.1 he''
  rw [reassemble_eq_ok_iff.2 ⟨same, hcs⟩, reassemble_eq_ok_iff.2 ⟨h.symm.trans same, hcs⟩]

/-! ## Children from a supply -/

/-- Computations that take expressions from a supply. -/
abbrev Supply := StateT (List Expr) (Except Fault)

namespace Supply

/-- Takes the next expression. -/
def next : Supply Expr
  | [] => .error (.notFound .expression "children list is shorter than expected")
  | c :: cs => .ok (c, cs)

/-- Takes a number of expressions, or what is left if that is less. -/
def upTo (count : Nat) : Supply (List Expr) := fun cs => .ok (cs.take count, cs.drop count)

/-- Takes what is left. -/
def rest : Supply (List Expr) := fun cs => .ok (cs, [])

end Supply

open Supply in
/-- The node over children from a supply, taken in the order in which the node lists them. -/
def refill : Expr → Supply Expr
  | column c => return column c
  | groupingIdColumn c => return groupingIdColumn c
  | callColumn c fn args => return callColumn c fn args
  | literal v => return literal v
  | named id name _ => return named id name (← next)
  | ordered _ direction => return ordered (← next) direction
  | arith op _ _ => do
    let left ← next
    let right ← next
    return arith op left right
  | call name _ type => return call name (← rest) type
  | aggregate fn _ distinct => return aggregate fn (← rest) distinct
  | grouping fn _ => return grouping fn (← rest)
  | window _ partitionBy _ frame => do
    let function ← next
    let partitionBy ← upTo partitionBy.length
    let orderBy ← rest
    return window function partitionBy orderBy frame

/-- A supply of as many children as there were lasts, and nothing of it is left. -/
lemma SameNode.run_refill {e e' : Expr} (h : e.SameNode e') :
    e.refill.run e'.children = .ok (e', []) := by
  cases h
  case window function function' frame partitionBy partitionBy' orderBy orderBy' hp ho =>
    have split : (partitionBy' ++ orderBy').take partitionBy.length = partitionBy' ∧
        (partitionBy' ++ orderBy').drop partitionBy.length = orderBy' := by
      rw [← hp]
      exact ⟨List.take_left, List.drop_left⟩
    change Except.ok (Expr.window function' ((partitionBy' ++ orderBy').take partitionBy.length)
      ((partitionBy' ++ orderBy').drop partitionBy.length) frame, ([] : List Expr)) = _
    rw [split.1, split.2]
  all_goals rfl

/-- Putting a node together is counting children and then taking them one after the other. -/
theorem reassemble_eq_refill (e : Expr) (cs : List Expr) :
    e.reassemble cs =
      if cs.length = e.children.length then Prod.fst <$> e.refill.run cs
      else .error (e.miscount cs) := by
  split
  · rename_i length
    obtain ⟨e', he'⟩ := Option.isSome_iff_exists.1 (isSome_reassemble?_iff.2 length)
    obtain ⟨same, rfl⟩ := reassemble?_eq_some_iff.1 he'
    rw [same.run_refill, reassemble_eq_ok_iff.2 ⟨same, rfl⟩]
    rfl
  · rename_i length
    exact reassemble_eq_error_iff.2 ⟨length, rfl⟩

/-! ## The laws -/

/-- How a node `e` is taken apart, and put together over `cs`. -/
structure Lens (e : Expr) (cs : List Expr) : Prop where
  /-- It can be put together over as many children as it has. -/
  succeeds_iff : (∃ e', e.reassemble cs = .ok e') ↔ cs.length = e.children.length
  /-- There is no other fault than a wrong number of children. -/
  fails_iff : ∀ f, e.reassemble cs = .error f ↔ cs.length ≠ e.children.length ∧ f = e.miscount cs
  /-- The result has the new children, in order, and is the same node. -/
  result_iff : ∀ e', e.reassemble cs = .ok e' ↔ e.SameNode e' ∧ e'.children = cs
  /-- Over its own children a node is what it was. -/
  unchanged : e.reassemble e.children = .ok e
  /-- What is put together twice is as if put together the second time only. -/
  overwritten : cs.length = e.children.length → ∀ ds : List Expr, ds.length = e.children.length →
    (e.reassemble cs >>= fun e' => e'.reassemble ds) = e.reassemble ds
  /-- It comes to the same as taking the children from a supply once they are counted. -/
  supplied : e.reassemble cs = if cs.length = e.children.length then Prod.fst <$> e.refill.run cs
    else .error (e.miscount cs)

/-- Every node can be taken apart and put together again, over any children that are as many. -/
theorem reassemble_lens (e : Expr) (cs : List Expr) : Lens e cs := by
  constructor
  case succeeds_iff =>
    rw [← isSome_reassemble?_iff, reassemble]
    cases e.reassemble? cs <;> simp
  case fails_iff => exact fun f => reassemble_eq_error_iff
  case result_iff => exact fun e' => reassemble_eq_ok_iff
  case unchanged => exact reassemble_children e
  case overwritten =>
    intro length ds hds
    obtain ⟨e', he'⟩ := Option.isSome_iff_exists.1 (isSome_reassemble?_iff.2 length)
    obtain ⟨same, hcs⟩ := reassemble?_eq_some_iff.1 he'
    rw [reassemble_eq_ok_iff.2 ⟨same, hcs⟩]
    exact same.reassemble hds
  case supplied => exact reassemble_eq_refill e cs

/-- The keys of `sum(a) over (partition by b order by c, d)` stay where they are. -/
example (a b c d x y z w : Expr) :
    (window (aggregate .sum [a] false) [b] [c, d] none).reassemble [x, y, z, w] =
      .ok (window x [y] [z, w] none) := rfl

end Expr
end GroupingPlanner

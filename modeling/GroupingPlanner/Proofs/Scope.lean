import GroupingPlanner.Expr.Replace
import GroupingPlanner.Proofs.Occurrences
/-!
# What stands outside aggregates

A repetition nulls its grouping columns, and an aggregate over a group has to read them un-nulled.
So it matters for every node of a tree whether it stands inside such an aggregate or outside all of
them.  The function of a window is not evaluated over a group: an aggregate call there leaves its
arguments outside.  A window that is the function of a window hands its own function back to the
group.

* `Expr.outerNodesUntil`: the nodes outside, down to those at which the walk stops.
* `Expr.outerColumns`: the plain columns outside.
* `Expr.outerInduction`: induction over the places outside.
* `Expr.outerColumns_replace`: which columns stand outside once a tree has been rewritten.
* `Expr.outerColumns_mapAggregateArguments`: what happens inside aggregates changes none of them.
-/

namespace GroupingPlanner
namespace Expr

/-! ## The walk -/

mutual

/-- The nodes of a tree outside aggregates over a group, in pre-order, without those below a node
on which `stop` holds.  An aggregate over a group is itself listed.  The flag says whether the tree
is the function of a window. -/
def outerNodesUntil (stop : Expr → Bool) : (inWindow : Bool) → Expr → List Expr
  | _, column c => [column c]
  | _, groupingIdColumn c => [groupingIdColumn c]
  | _, callColumn c fn args => [callColumn c fn args]
  | _, literal v => [literal v]
  | _, named id name child =>
    named id name child ::
      if stop (named id name child) then [] else outerNodesUntil stop false child
  | _, arith op left right =>
    arith op left right ::
      if stop (arith op left right) then []
      else outerNodesUntil stop false left ++ outerNodesUntil stop false right
  | _, call name args type =>
    call name args type :: if stop (call name args type) then [] else outerNodesUntilAll stop args
  | inWindow, aggregate fn args distinct =>
    aggregate fn args distinct ::
      if stop (aggregate fn args distinct) then []
      else if inWindow then outerNodesUntilAll stop args else []
  | _, grouping fn args =>
    grouping fn args :: if stop (grouping fn args) then [] else outerNodesUntilAll stop args
  | inWindow, window function partitionBy orderBy frame =>
    window function partitionBy orderBy frame ::
      if stop (window function partitionBy orderBy frame) then []
      else outerNodesUntil stop (!inWindow) function ++
        (outerNodesUntilAll stop partitionBy ++ outerNodesUntilAll stop orderBy)
  | _, ordered child direction =>
    ordered child direction ::
      if stop (ordered child direction) then [] else outerNodesUntil stop false child

/-- The same for a list of trees, none of them the function of a window. -/
def outerNodesUntilAll (stop : Expr → Bool) : List Expr → List Expr
  | [] => []
  | e :: es => outerNodesUntil stop false e ++ outerNodesUntilAll stop es

end

@[simp] lemma outerNodesUntilAll_eq_flatMap (stop : Expr → Bool) (es : List Expr) :
    outerNodesUntilAll stop es = es.flatMap (outerNodesUntil stop false) := by
  induction es with
  | nil => rfl
  | cons e es ih => rw [outerNodesUntilAll, ih, List.flatMap_cons]

/-- The children of a node that stand outside as well, each with its own flag. -/
def outerChildren : (inWindow : Bool) → Expr → List (Bool × Expr)
  | inWindow, aggregate _ args _ => if inWindow then args.map (false, ·) else []
  | inWindow, window function partitionBy orderBy _ =>
    (!inWindow, function) :: (partitionBy ++ orderBy).map (false, ·)
  | _, e => e.children.map (false, ·)

/-- A walk visits a node and then, unless it stops there, the children outside. -/
lemma outerNodesUntil_eq (stop : Expr → Bool) (inWindow : Bool) (e : Expr) :
    e.outerNodesUntil stop inWindow = e :: if stop e then [] else
      (e.outerChildren inWindow).flatMap fun p => p.2.outerNodesUntil stop p.1 := by
  cases e <;> cases inWindow <;>
    simp [outerNodesUntil, outerChildren, children, List.flatMap_map]

lemma mem_children_of_mem_outerChildren {inWindow : Bool} {e : Expr} {p : Bool × Expr}
    (h : p ∈ e.outerChildren inWindow) : p.2 ∈ e.children := by
  cases e <;> cases inWindow <;> simp_all [outerChildren, children] <;> aesop

/-- A claim holds at every place if it holds at each one as soon as it holds of the children
outside. -/
theorem outerInduction {motive : Bool → Expr → Prop}
    (step : ∀ w e, (∀ p ∈ e.outerChildren w, motive p.1 p.2) → motive w e) (w : Bool) (e : Expr) :
    motive w e := by
  induction e using childrenInduction generalizing w with
  | step e ih => exact step w e fun p hp => ih p.2 (mem_children_of_mem_outerChildren hp) p.1

lemma mem_outerNodesUntil_iff {stop : Expr → Bool} {w : Bool} {n e : Expr} :
    n ∈ e.outerNodesUntil stop w ↔
      n = e ∨ stop e = false ∧ ∃ p ∈ e.outerChildren w, n ∈ p.2.outerNodesUntil stop p.1 := by
  rw [outerNodesUntil_eq, List.mem_cons]
  cases stop e <;> simp

/-- Walks that agree at every node visited visit the same nodes. -/
lemma outerNodesUntil_congr {stop stop' : Expr → Bool} {w : Bool} {e : Expr}
    (h : ∀ n ∈ e.outerNodesUntil stop w, stop n = stop' n) :
    e.outerNodesUntil stop w = e.outerNodesUntil stop' w := by
  induction w, e using outerInduction with
  | step w e ih =>
    have here : stop e = stop' e := h e (mem_outerNodesUntil_iff.2 (Or.inl rfl))
    rw [outerNodesUntil_eq, outerNodesUntil_eq, ← here]
    cases hstop : stop e with
    | true => rfl
    | false =>
      have below : ∀ p ∈ e.outerChildren w,
          p.2.outerNodesUntil stop p.1 = p.2.outerNodesUntil stop' p.1 := fun p hp =>
        ih p hp fun n hn => h n (mem_outerNodesUntil_iff.2 (Or.inr ⟨hstop, p, hp, hn⟩))
      rw [List.flatMap_congr below]

/-- A walk that stops earlier visits less. -/
lemma outerNodesUntil_mono {stop stop' : Expr → Bool}
    (h : ∀ n, stop' n = true → stop n = true ∨ n.children = []) {w : Bool} {n e : Expr}
    (hn : n ∈ e.outerNodesUntil stop w) : n ∈ e.outerNodesUntil stop' w := by
  induction w, e using outerInduction with
  | step w e ih =>
    rcases mem_outerNodesUntil_iff.1 hn with rfl | ⟨hstop, p, hp, hnp⟩
    · exact mem_outerNodesUntil_iff.2 (Or.inl rfl)
    · refine mem_outerNodesUntil_iff.2 (Or.inr ⟨?_, p, hp, ih p hp hnp⟩)
      by_contra hstop'
      rw [Bool.not_eq_false] at hstop'
      have hchild := mem_children_of_mem_outerChildren hp
      rcases h e hstop' with htrue | hleaf
      · rw [htrue] at hstop
        simp at hstop
      · rw [hleaf] at hchild
        exact List.not_mem_nil hchild

/-- The nodes outside are among the nodes of the whole walk. -/
lemma mem_nodesUntil_of_outer {stop : Expr → Bool} {w : Bool} {n e : Expr}
    (hn : n ∈ e.outerNodesUntil stop w) : n ∈ e.nodesUntil stop := by
  induction w, e using outerInduction with
  | step w e ih =>
    rw [nodesUntil_eq]
    rcases mem_outerNodesUntil_iff.1 hn with rfl | ⟨hstop, p, hp, hnp⟩
    · exact List.mem_cons_self
    · rw [hstop]
      exact List.mem_cons_of_mem _ (List.mem_flatMap.2
        ⟨p.2, mem_children_of_mem_outerChildren hp, ih p hp hnp⟩)

/-- The plain columns outside aggregates over a group, in pre-order and with repetitions. -/
def outerColumns (inWindow : Bool) (e : Expr) : List Column :=
  (e.outerNodesUntil (fun _ => false) inWindow).filterMap column?

lemma outerColumns_eq (w : Bool) (e : Expr) :
    e.outerColumns w =
      e.column?.toList ++ (e.outerChildren w).flatMap fun p => p.2.outerColumns p.1 := by
  rw [outerColumns, outerNodesUntil_eq]
  cases h : e.column? <;> simp [h, List.filterMap_flatMap, outerColumns]

/-! ## Rewriting -/

lemma outerChildren_mapChildren (w : Bool) (f : Expr → Expr) (e : Expr) :
    (e.mapChildren f).outerChildren w = (e.outerChildren w).map fun p => (p.1, f p.2) := by
  cases e <;> cases w <;> simp [outerChildren, mapChildren, children, Function.comp_def]

lemma outerColumns_of_children_eq_nil {e : Expr} (h : e.children = []) (w : Bool) :
    e.outerColumns w = e.column?.toList := by
  have none_below : e.outerChildren w = [] := by
    apply List.eq_nil_iff_forall_not_mem.2
    intro p hp
    have hmem := mem_children_of_mem_outerChildren hp
    rw [h] at hmem
    exact List.not_mem_nil hmem
  rw [outerColumns_eq, none_below, List.flatMap_nil, List.append_nil]

/-- Once a tree is rewritten, the columns outside are those put in the place of the nodes outside
at which the rule has an answer, and the columns outside for which it has none. -/
theorem outerColumns_replace {rule : Expr → Option Expr}
    (leaf : ∀ n x, rule n = some x → x.children = []) (w : Bool) (e : Expr) :
    (e.replace rule).outerColumns w =
      (e.outerNodesUntil (fun n => (rule n).isSome) w).filterMap fun n =>
        ((rule n).getD n).column? := by
  induction w, e using outerInduction with
  | step w e ih =>
    rw [replace_eq, outerNodesUntil_eq]
    cases hrule : rule e with
    | some x =>
      rw [Option.getD_some, outerColumns_of_children_eq_nil (leaf e x hrule)]
      cases hx : x.column? <;> simp [hrule, hx]
    | none =>
      have below : (e.outerChildren w).flatMap (fun p => (p.2.replace rule).outerColumns p.1) =
          (e.outerChildren w).flatMap fun p =>
            (p.2.outerNodesUntil (fun n => (rule n).isSome) p.1).filterMap fun n =>
              ((rule n).getD n).column? :=
        List.flatMap_congr fun p hp => ih p hp
      rw [Option.getD_none, outerColumns_eq, outerChildren_mapChildren, List.flatMap_map, below,
        column?_mapChildren]
      cases he : e.column? <;> simp [hrule, he, List.filterMap_flatMap]

/-! ## Changes inside aggregates -/

/-- `mapAggregateArguments` at a place. -/
def mapAggregateArgumentsAt (f : Expr → Expr) (inWindow : Bool) (e : Expr) : Expr :=
  if inWindow then e.mapAggregateArgumentsBelow f else e.mapAggregateArguments f

lemma column?_mapAggregateArgumentsAt (f : Expr → Expr) (w : Bool) (e : Expr) :
    (e.mapAggregateArgumentsAt f w).column? = e.column? := by
  cases e <;> cases w <;> rfl

lemma outerChildren_mapAggregateArgumentsAt (f : Expr → Expr) (w : Bool) (e : Expr) :
    (e.mapAggregateArgumentsAt f w).outerChildren w =
      (e.outerChildren w).map fun p => (p.1, p.2.mapAggregateArgumentsAt f p.1) := by
  cases e <;> cases w <;>
    simp [mapAggregateArgumentsAt, mapAggregateArguments, mapAggregateArgumentsBelow, outerChildren,
      children, Function.comp_def]

/-- What happens to the arguments of aggregates over a group leaves the columns outside alone. -/
theorem outerColumns_mapAggregateArgumentsAt (f : Expr → Expr) (w : Bool) (e : Expr) :
    (e.mapAggregateArgumentsAt f w).outerColumns w = e.outerColumns w := by
  induction w, e using outerInduction with
  | step w e ih =>
    rw [outerColumns_eq, outerColumns_eq w e, outerChildren_mapAggregateArgumentsAt,
      List.flatMap_map, column?_mapAggregateArgumentsAt]
    exact congrArg _ (List.flatMap_congr ih)

theorem outerColumns_mapAggregateArguments (f : Expr → Expr) (e : Expr) :
    (e.mapAggregateArguments f).outerColumns false = e.outerColumns false :=
  outerColumns_mapAggregateArgumentsAt f false e

end Expr
end GroupingPlanner

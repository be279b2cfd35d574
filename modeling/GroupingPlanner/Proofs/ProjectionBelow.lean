import GroupingPlanner.Proofs.ColumnOrder
/-!
# The projection below a repetition over columns

What stands below a repetition over columns has to evaluate everything that is bound, and to hand on
everything else that is read and that is there to be handed on.  A projection does so, with no entry
more than that.  Where the child does so itself no projection is put.

Whether the child does is decided by two tests, one of which only counts: there are as many entries
as columns exposed, and each entry hands on a column that is exposed.  This leaves open that two
entries hand on the same column while another column is exposed besides, or that one column is
exposed twice.  It is ruled out since no two entries produce the same column: different columns that
are as many as there are places take all of them.

* `restates_iff`: what the tests decide.
* `PushedDown`: what is put over the child, and when.
* `Stacked.pushedDown`, `Repetition.stack_pushedDown`: the stack has it below its repetition.
-/

namespace GroupingPlanner

/-! ## When the child does what the projection would do -/

/-- Entries with different columns restate a schema exactly if all of them hand on columns, and
these are the columns of the schema in some order. -/
theorem restates_iff {schema : List Column} {entries : List Definition}
    (nodup : (entries.map (·.produced.id)).Nodup) : restates schema entries ↔
      (∀ d ∈ entries, ∃ c, d = .column c) ∧
        (schema.map (·.id)).Perm (entries.map (·.produced.id)) := by
  constructor
  · intro h
    refine ⟨fun d hd => ?_, perm_ids_of_restates nodup h⟩
    obtain ⟨c, hc, -⟩ := columns_of_restates h hd
    exact ⟨c, hc⟩
  · rintro ⟨columns, perm⟩
    have length := perm.length_eq
    rw [List.length_map, List.length_map] at length
    rw [restates, Bool.and_eq_true, List.all_eq_true, beq_iff_eq]
    refine ⟨length.symm, fun d hd => ?_⟩
    obtain ⟨c, rfl⟩ := columns d hd
    have exposed : c.id ∈ schema.map (·.id) :=
      perm.mem_iff.2 (List.mem_map_of_mem (f := fun d : Definition => d.produced.id) hd)
    obtain ⟨c', hc', hid⟩ := List.mem_map.1 exposed
    exact List.contains_iff_exists_mem_beq.2 ⟨c', hc', (Column.beq_iff _ _).2 hid.symm⟩

/-- The child is left as it is exactly if the tests succeed. -/
lemma defineBelow_eq_child_iff {child : Plan} {schema : List Column} {entries : List Definition} :
    defineBelow child schema entries = child ↔ entries = [] ∨ restates schema entries := by
  rcases defineBelow_cases child schema entries with ⟨hkept, htests⟩ | ⟨hput, htests⟩
  · exact iff_of_true hkept htests
  · refine iff_of_false ?_ htests
    rw [hput]
    exact Plan.projection_ne_self _ _

/-! ## What is put over the child -/

/-- A plan `p` stands in the place of `child`, which exposes `schema`.  It produces `entries`: the
`definitions`, and what is `wanted` besides. -/
structure PushedDown (child p : Plan) (schema : List Column) (definitions : List Definition)
    (wanted : List Column) (entries : List Definition) : Prop where
  /-- The columns wanted that no definition produces are handed on, in order, if the child exposes
  them, and they are handed on as the child exposes them first. -/
  listed : ∃ handed : List Column, entries = definitions ++ handed.map Definition.column ∧
    handed.map (·.id) = (wanted.filter fun c =>
      !definitions.any (·.produced == c) && schema.contains c).map (·.id) ∧
    ∀ c ∈ handed, schema.find? (· == c) = some c
  /-- No column is produced twice. -/
  nodup : (entries.map (·.produced.id)).Nodup
  /-- The child is left as it is if there is nothing to produce, or if there are only columns to
  hand on and the child exposes these in some order, each of them once, and no others. -/
  kept_iff : p = child ↔ entries = [] ∨
    (∀ d ∈ entries, ∃ c, d = .column c) ∧ (schema.map (·.id)).Perm (entries.map (·.produced.id))
  /-- Or else a projection is put over it. -/
  put : p ≠ child → p = .projection (entries.map Definition.toExpr) child

namespace Stacked

variable {r : Repetition} {next : Nat} (x : Stacked r next)

/-- The stack has the projection below its repetition, or the child that does what it would do. -/
theorem pushedDown : PushedDown r.child x.repetition.child x.schema
    (r.bindingsAt next).definitions x.substituted.otherColumns.toList x.entries := by
  have child : x.repetition.child = defineBelow r.child x.schema x.entries := rfl
  constructor
  case listed =>
    have ids := ids_projectionEntries (r.bindingsAt next).definitions
      x.substituted.otherColumns.toList x.schema
    refine ⟨_, rfl, ?_, fun c hc => (Column.mem_filterMap_find?_iff.1 hc).1⟩
    rw [projectionEntries, List.map_append, List.map_map] at ids
    exact List.append_cancel_left ids
  case nodup => exact x.nodup_ids_entries
  case kept_iff => rw [child, defineBelow_eq_child_iff, restates_iff x.nodup_ids_entries]
  case put =>
    intro hput
    rw [child] at hput ⊢
    exact ((defineBelow_cases _ _ _).resolve_left fun hkept => hput hkept.1).1

end Stacked

namespace Repetition

/-- Below the repetition over columns, every successful run leaves what produces the definitions of
the bound expressions, followed by the columns read besides that the child exposes.  It is the child
itself exactly if that exposes these columns and no others, and else one projection over it. -/
theorem stack_pushedDown {r : Repetition} {s s' : Session} {a : Aggregation}
    (run : r.stack.runIn s = (.ok a, s')) :
    ∃ (b : Bindings) (s₁ : Session) (r' : Repetition) (schema : List Column)
      (entries : List Definition), (r.bindAll r.early).runIn s = (.ok b, s₁) ∧
        a.child = r'.toPlan ∧ r.child.schema = .ok schema ∧
        PushedDown r.child r'.child schema b.definitions
          (a.columnsBesides r'.setColumns.contains).toList entries := by
  obtain ⟨x, rfl, -⟩ := stack_eq_ok run
  refine ⟨r.bindingsAt s.nextId, _, x.repetition, x.schema, x.entries, rfl, rfl, x.schema_eq, ?_⟩
  have besides : x.aggregation.columnsBesides x.repetition.setColumns.contains =
      x.substituted.otherColumns := by
    rw [x.setColumns_eq]
    rfl
  rw [besides]
  exact x.pushedDown

/-- `select a, sum(b) … group by grouping sets ((a))` over a scan that exposes `b` and `a`. -/
def swappedSums : Repetition :=
  let a : Column := ⟨⟨0⟩, "a", .integer, true⟩
  let b : Column := ⟨⟨1⟩, "b", .integer, true⟩
  ⟨[[.column a]], [.column a, .named ⟨2⟩ "s" (.aggregate .sum [.column b] false)],
    .scan "t" [b, a]⟩

/-- The stack of `swappedSums`, with the scan left as it is. -/
def swappedStack : Aggregation :=
  let a : Column := ⟨⟨0⟩, "a", .integer, true⟩
  let b : Column := ⟨⟨1⟩, "b", .integer, true⟩
  let groupingId : Expr := .groupingIdColumn ⟨⟨3⟩, "GROUPING_ID", .integer, false⟩
  { groupBy := [.column a, groupingId]
    output := swappedSums.output
    child := .repetition swappedSums.sets [.column a, .column b, groupingId] swappedSums.child }

theorem stack_pushedDown_swappedSums :
    ∃ s' r' schema definitions entries, swappedSums.stack.runIn { nextId := 3 } =
        (.ok swappedStack, s') ∧ swappedStack.child = Repetition.toPlan r' ∧
      swappedSums.child.schema = .ok schema ∧ r'.child = swappedSums.child ∧
      PushedDown swappedSums.child r'.child schema definitions
        (swappedStack.columnsBesides r'.setColumns.contains).toList entries := by
  obtain ⟨s', run⟩ : ∃ s', swappedSums.stack.runIn { nextId := 3 } = (.ok swappedStack, s') :=
    ⟨_, rfl⟩
  obtain ⟨b, s₁, r', schema, entries, -, hchild, hschema, pushed⟩ := stack_pushedDown run
  exact ⟨s', r', schema, b.definitions, entries, run, hchild, hschema,
    (Plan.repetition.inj hchild).2.2.symm, pushed⟩

end Repetition

end GroupingPlanner

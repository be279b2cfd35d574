import GroupingPlanner.Proofs.Additions
/-!
# Repetitions over columns

What lowering leaves is a repetition whose grouping sets hold columns and whose output lists columns
and virtual columns: the grouping columns, the other columns that are read, copies of grouping
columns for aggregates to read, and the virtual columns, that of the grouping id first.

* `ColumnRepetition`: repetitions of this form.
* `Stacked.withCopies`, `Stacked.Lowered`: the one that lowering leaves, with what is known of it.
* `Stacked.Duplicated`: which copies it puts out.
* `Stacked.duplicated_of_separate`: a successful run leaves it.
-/

namespace GroupingPlanner

/-- The parts of a repetition over columns: the columns of the grouping sets, the columns put out
besides them, and the virtual columns. -/
@[ext]
structure ColumnRepetition where
  sets : List (List Column)
  others : List Column
  groupingId : VirtualColumn
  calls : Roster VirtualColumn
  child : Plan
  /-- A grouping column is null in the rows made for sets without it. -/
  nullable : ∀ c ∈ sets.flatten, c.nullable = true
  standsForId : groupingId.standsForId = true
  standForCalls : ∀ v ∈ calls.toList, v.standsForId = false

namespace ColumnRepetition

variable (n : ColumnRepetition)

/-- The grouping columns, each once. -/
def keys : Roster Column := .ofList n.sets.flatten

/-- All virtual columns, that of the grouping id first. -/
def virtuals : List VirtualColumn := n.groupingId :: n.calls.toList

/-- The repetition that has these parts. -/
def toRepetition : Repetition where
  sets := n.sets.map (·.map Expr.column)
  output := (n.keys.toList ++ n.others).map Expr.column ++ n.virtuals.map VirtualColumn.toExpr
  child := n.child

/-- What an aggregation over the repetition groups by. -/
def groupBy : List Expr := n.keys.toList.map Expr.column ++ n.virtuals.map VirtualColumn.toExpr

lemma mem_output {e : Expr} (he : e ∈ n.toRepetition.output) :
    (∃ c, e = .column c) ∨ ∃ v : VirtualColumn, e = v.toExpr := by
  rcases List.mem_append.1 he with he | he
  · obtain ⟨c, -, rfl⟩ := List.mem_map.1 he
    exact Or.inl ⟨c, rfl⟩
  · obtain ⟨v, -, rfl⟩ := List.mem_map.1 he
    exact Or.inr ⟨v, rfl⟩

lemma flatten_sets : n.toRepetition.sets.flatten = n.sets.flatten.map Expr.column := by
  rw [toRepetition, ← List.map_flatten]

end ColumnRepetition

/-! ## A lowered repetition is one over columns -/

lemma Repetition.toPlan_inj {r r' : Repetition} (h : r.toPlan = r'.toPlan) : r = r' := by
  cases r
  cases r'
  obtain ⟨rfl, rfl, rfl⟩ := Plan.repetition.inj h
  rfl

namespace Stacked

variable {r : Repetition} {next : Nat} (x : Stacked r next)

/-- A grouping column is the column bound to a member of a grouping set. -/
lemma exists_binding_of_mem_sets {c : Column} (hc : c ∈ x.sets.flatten) :
    ∃ item ∈ r.sets.flatten, ∃ b, (r.bindingsAt next).get? item = some b ∧ c = b.column := by
  have flat : x.sets.flatten.map Expr.column =
      r.sets.flatten.map (r.bindingsAt next).substitute := by
    rw [← x.flatten_sets, List.map_flatten]
    rfl
  have hmem : Expr.column c ∈ x.sets.flatten.map Expr.column := List.mem_map_of_mem hc
  rw [flat] at hmem
  obtain ⟨item, hitem, hsub⟩ := List.mem_map.1 hmem
  obtain ⟨b, hget, hsub'⟩ := x.item_bound hitem
  rw [hsub', Expr.column.injEq] at hsub
  exact ⟨item, hitem, b, hget, hsub.symm⟩

/-- Whatever becomes of a member of a grouping set may be null. -/
lemma nullable_of_mem_sets {c : Column} (hc : c ∈ x.sets.flatten) : c.nullable = true := by
  obtain ⟨item, hitem, b, hget, rfl⟩ := x.exists_binding_of_mem_sets hc
  obtain ⟨hb, hbeq⟩ := Bindings.get?_eq_some hget
  have grouped : b.grouped = true := by
    rw [(Bindings.mem_bindFrom hb).2.1, ← Roster.contains_congr _ hbeq]
    exact Repetition.contains_items_of_mem hitem
  rw [Binding.column, if_pos grouped]
  rfl

/-- The repetition over columns that puts out copies of grouping columns as well. -/
def withCopies (copies : List Column) (child : Plan) : ColumnRepetition where
  sets := x.sets
  others := x.substituted.otherColumns.toList ++ copies
  groupingId := x.groupingId
  calls := x.substituted.callColumns
  child := child
  nullable _ := x.nullable_of_mem_sets
  standsForId := by
    unfold groupingId
    cases hfind : x.substituted.groupingIdColumn? with
    | none => rfl
    | some v => exact List.find?_some hfind
  standForCalls v hv := by
    simpa using (List.mem_filter.1 (Roster.mem_ofList hv)).2

/-- What lowering makes of the repetition: `a` is an aggregation over a repetition over columns,
which puts out copies of grouping columns and has the given child. -/
structure Lowered (a : Aggregation) (copies : List Column) (child : Plan) : Prop where
  child_eq : a.child = (x.withCopies copies child).toRepetition.toPlan
  groupBy_eq : a.groupBy = (x.withCopies copies child).groupBy
  /-- The output is that of the stack, with columns renamed inside aggregates. -/
  renamed : ∃ f, a.output =
    x.substituted.output.map (Expr.mapAggregateArguments (Expr.replaceColumns f))
  /-- The ids of the copies are the first free ones. -/
  fresh : copies.map (·.id.number) = List.range' x.nextId copies.length
  /-- Without copies the child is that of the stack. -/
  kept : copies = [] → child = x.repetition.child
  /-- Only grouping columns are copied. -/
  grouped : copies ≠ [] → x.substituted.keyColumns.toList ≠ []
  /-- The copies are exposed after what was exposed before. -/
  schema : ∀ cs, x.repetition.child.schema = .ok cs → child.schema = .ok (cs ++ copies)
  /-- The names of the copies differ from each other and from those exposed before. -/
  names : ∀ cs, x.repetition.child.schema = .ok cs →
    (copies.map (·.name)).Nodup ∧ ∀ c ∈ copies, c.name ∉ cs.map (·.name)

namespace Lowered

variable {x} {a : Aggregation} {copies : List Column} {child : Plan}
  (h : x.Lowered a copies child)
include h

lemma nodup_copies : (copies.map (·.id)).Nodup := by
  have numbers : ((copies.map (·.id)).map (·.number)).Nodup := by
    rw [List.map_map]
    exact h.fresh ▸ List.nodup_range'
  exact numbers.of_map _

lemma le_number_copy {c : Column} (hc : c ∈ copies) : x.nextId ≤ c.id.number := by
  have hmem : c.id.number ∈ copies.map (·.id.number) := List.mem_map_of_mem hc
  rw [h.fresh] at hmem
  exact (List.mem_range'_1.1 hmem).1

end Lowered

/-- What the copies are: the columns of duplicates, which are defined below and which aggregates
read. -/
structure Duplicated (a : Aggregation) (ds : List Duplicate) (child : Plan) : Prop where
  /-- The output is that of the stack, where aggregates read duplicates. -/
  output : a.output = x.substituted.output.map
    (Expr.mapAggregateArguments (Expr.replaceColumns (Duplicate.copyOf? ds)))
  /-- Every grouping column that aggregates of the stack read has a duplicate. -/
  columns : ds.map (·.column) =
    x.substituted.keyColumns.toList.filter x.aggregation.readByAggregates.contains
  /-- A duplicate is an alias after the entries that there were, over what evaluates the column.
  The entries are those of the projection below, or else the columns that the child exposed. -/
  defined : ds ≠ [] → ∃ list input,
    child = .projection (list ++ ds.map (·.definition.toExpr)) input ∧
      (x.repetition.child = .projection list input ∨
        x.repetition.child = r.child ∧ input = r.child ∧ list = x.schema.map Expr.column) ∧
      ∀ d ∈ ds, definingExpr? list d.column = some d.definition.child
  /-- The name of a duplicate is new to the output. -/
  unnamed : ∀ d ∈ ds, d.copy.name ∉ namesOf x.repetition.output

/-- A successful run leaves a repetition over columns, with the columns of duplicates as copies. -/
theorem duplicated_of_separate {s s' : Session} {a : Aggregation} (hnext : s.nextId = x.nextId)
    (run : x.aggregation.separate.runIn s = (.ok a, s')) :
    ∃ ds child, x.Lowered a (ds.map (·.copy)) child ∧ x.Duplicated a ds child ∧
      s'.nextId = x.nextId + ds.length := by
  have conflicts_eq : x.aggregation.conflicts x.repetition =
      x.substituted.keyColumns.toList.filter x.aggregation.readByAggregates.contains := by
    rw [Aggregation.conflicts, x.setColumns_eq]
  rcases Aggregation.separate_eq_ok rfl run with
    ⟨none, rfl, rfl⟩ | ⟨g, hsome, hg, found, hlast, rfl⟩
  · have unchanged : x.substituted.output = x.substituted.output.map
        (Expr.mapAggregateArguments (Expr.replaceColumns (Duplicate.copyOf? []))) := by
      have same (e : Expr) :
          e.mapAggregateArguments (Expr.replaceColumns (Duplicate.copyOf? [])) = e :=
        (Expr.mapAggregateArguments_congr fun _ _ y _ =>
          Expr.replaceColumns_eq_self fun _ _ => rfl).trans (Expr.mapAggregateArguments_id e)
      rw [List.map_congr_left fun e _ => same e, List.map_id']
    refine ⟨[], x.repetition.child, ⟨?_, rfl, ⟨_, unchanged⟩, rfl, fun _ => rfl,
      fun h => absurd rfl h, fun cs hcs => ?_, fun _ _ => by simp⟩,
      ⟨unchanged, ?_, fun h => absurd rfl h, fun _ hd => absurd hd List.not_mem_nil⟩, hnext⟩
    · rw [ColumnRepetition.toRepetition, withCopies, List.map_nil, List.append_nil]
      rfl
    · rw [hcs, List.map_nil, List.append_nil]
    · rw [← conflicts_eq, none]
      rfl
  · generalize hds : g.duplicatesFrom s.nextId (namesOf x.repetition.output ++ namesOf g.list)
      (x.aggregation.conflicts x.repetition) = ds
    have columns : ds.map (·.column) = x.aggregation.conflicts x.repetition := by
      rw [← hds]
      exact Ground.columns_duplicatesFrom found _ _
    have source : ∀ d ∈ ds, g.source? d.column = some d.definition.child := by
      intro d hd
      rw [← hds] at hd
      exact Ground.source_duplicatesFrom hd
    have apart : (ds.map (·.copy.name)).Nodup ∧
        ∀ d ∈ ds, d.copy.name ∉ namesOf x.repetition.output ++ namesOf g.list := by
      rw [← hds]
      exact Ground.names_duplicatesFrom _ _
    obtain ⟨nodup, free⟩ := apart
    refine ⟨ds, .projection (g.list ++ ds.map (·.definition.toExpr)) g.input,
      ⟨?_, rfl, ⟨_, rfl⟩, ?_, fun hnil => ?_, fun _ hkeys => hsome ?_, fun cs hcs => ?_,
        fun cs hcs => ?_⟩,
      ⟨rfl, columns.trans conflicts_eq, fun _ => ⟨g.list, g.input, rfl, x.ground_cases hg, source⟩,
        fun d hd htaken => free d hd (List.mem_append_left _ htaken)⟩, ?_⟩
    · have output := x.output_duplicating g ds
      rw [readColumns, List.append_assoc] at output
      rw [Aggregation.child_reading]
      exact congrArg (fun output => Plan.repetition x.repetition.sets output _) output
    · have numbers := Ground.numbers_duplicatesFrom found s.nextId
        (namesOf x.repetition.output ++ namesOf g.list)
      rw [hds, ← columns, List.length_map, hnext] at numbers
      rw [List.map_map, List.length_map]
      exact numbers
    · rw [← columns, List.map_eq_nil_iff.1 hnil] at hsome
      exact absurd rfl hsome
    · rw [conflicts_eq, hkeys, List.filter_nil]
    · have exposed := Ground.columnsOf_list hg hcs
      rw [Plan.columnsOf_eq_ok_iff] at exposed
      rw [Plan.schema, Plan.columnsOf_eq_ok_iff, List.map_append, List.map_append, exposed,
        List.map_map, List.map_map]
      rfl
    · refine ⟨by rwa [List.map_map], fun c hc htaken => ?_⟩
      obtain ⟨d, hd, rfl⟩ := List.mem_map.1 hc
      rw [← Ground.namesOf_list hg hcs] at htaken
      exact free d hd (List.mem_append_right _ htaken)
    · rw [hlast, hnext, ← columns, List.length_map]

lemma lowered_of_separate {s s' : Session} {a : Aggregation} (hnext : s.nextId = x.nextId)
    (run : x.aggregation.separate.runIn s = (.ok a, s')) :
    ∃ copies child, x.Lowered a copies child := by
  obtain ⟨ds, child, lowered, -, -⟩ := x.duplicated_of_separate hnext run
  exact ⟨_, child, lowered⟩

end Stacked

end GroupingPlanner

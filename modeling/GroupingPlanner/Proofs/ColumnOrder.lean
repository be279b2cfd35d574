import GroupingPlanner.Proofs.ColumnRepetitions
import GroupingPlanner.Proofs.GroupingValues
/-!
# The order of columns

Whatever runs a lowered repetition finds columns by their place: first the grouping columns, then
the other columns that are read, then duplicates, and then the virtual columns, that of the grouping
id first.  The aggregation groups by the first and the last of these.  The columns in each place can
be read off the result: the aggregation and the grouping sets say which they are and in what order
they come.

The output is substituted, and then renamed inside aggregates, between the time when columns are
listed and the time when the result is complete.  Renaming touches grouping columns and duplicates
only, so what is listed besides stays what the output reads.

* `Aggregation.columns`, `Aggregation.virtuals`: what an aggregation reads.
* `Stacked.Ordered`: which columns stand in which place.
* `Repetition.lower_columnOrder`: lowering puts them there; ids are listed once, and grouping
  columns are read as they are grouped by.
-/

namespace GroupingPlanner

/-! ## What an aggregation reads -/

namespace Aggregation

/-- The plain columns in the output, in pre-order and with repetitions. -/
def columns (a : Aggregation) : List Column := a.output.flatMap Expr.columns

/-- The plain columns in the output besides those `given`, in order of first occurrence. -/
def columnsBesides (a : Aggregation) (given : Column → Bool) : Roster Column :=
  .ofList (a.columns.filter fun c => !given c)

/-- The virtual columns in the output, in pre-order and with repetitions. -/
def virtuals (a : Aggregation) : List VirtualColumn := a.output.flatMap Expr.virtuals

end Aggregation

section Renamed

variable {ds : List Duplicate}

/-- Columns other than those that are duplicated, and than duplicates, occur in the places in which
they occurred before. -/
lemma filter_columns_renamed {keep : Column → Bool} (untouched : ∀ d ∈ ds, keep d.copy = false)
    (grouped : ∀ d ∈ ds, ∀ c : Column, c == d.column → keep c = false) (es : List Expr) :
    ((es.map (Expr.mapAggregateArguments (Expr.replaceColumns (Duplicate.copyOf? ds)))).flatMap
      Expr.columns).filter keep = (es.flatMap Expr.columns).filter keep := by
  have one (c : Column) :
      [(Duplicate.copyOf? ds c).getD c].filter keep = [c].filter keep := by
    cases hcopy : Duplicate.copyOf? ds c with
    | none => rfl
    | some c' =>
      obtain ⟨d, hd, hbeq, rfl⟩ := Duplicate.copyOf?_eq_some hcopy
      rw [Option.getD_some, List.filter_cons_of_neg (by simp [untouched d hd]),
        List.filter_cons_of_neg (by simp [grouped d hd c hbeq])]
  have all (cs : List Column) :
      (cs.map fun c => (Duplicate.copyOf? ds c).getD c).filter keep = cs.filter keep := by
    induction cs with
    | nil => rfl
    | cons c cs ih =>
      rw [List.map_cons, ← List.singleton_append, List.filter_append, one, ih, ← List.filter_append,
        List.singleton_append]
  rw [List.flatMap_map, List.filter_flatMap, List.filter_flatMap]
  refine List.flatMap_congr fun e _ => Expr.filter_columns_mapAggregateArguments (fun x => ?_) e
  rw [Expr.columns_replaceColumns, all]

/-- What is read after duplicates have been put was read before, or it is a duplicate. -/
lemma mem_columns_renamed {es : List Expr} {c : Column}
    (hc : c ∈ (es.map (Expr.mapAggregateArguments
      (Expr.replaceColumns (Duplicate.copyOf? ds)))).flatMap Expr.columns) :
    c ∈ es.flatMap Expr.columns ∨ ∃ d ∈ ds, c = d.copy := by
  obtain ⟨e', he', hc⟩ := List.mem_flatMap.1 hc
  obtain ⟨e, he, rfl⟩ := List.mem_map.1 he'
  exact (Duplicate.mem_columns_renamed hc).imp_left fun hc => List.mem_flatMap.2 ⟨e, he, hc⟩

end Renamed

/-! ## Which columns stand in which place -/

namespace Stacked

variable {r : Repetition} {next : Nat} (x : Stacked r next)

/-- The aggregation `a` stands over the repetition over columns `n`.  Besides its grouping columns
and its virtual columns, that repetition puts out `others` and the duplicates `ds`. -/
structure Ordered (a : Aggregation) (n : ColumnRepetition) (others : List Column)
    (ds : List Duplicate) : Prop where
  child : a.child = n.toRepetition.toPlan
  groupBy : a.groupBy = n.groupBy
  /-- There are as many grouping sets as in the query, with as many members each. -/
  lengths : n.sets.map List.length = r.sets.map List.length
  places : n.others = others ++ ds.map (·.copy)
  /-- The other columns are those that the output reads and that are neither grouped by nor
  duplicates, each where it occurs first. -/
  others_eq : others =
    (a.columnsBesides fun c => n.keys.contains c || ds.any fun d => decide (c = d.copy)).toList
  /-- The duplicates stand in the order of the grouping columns. -/
  duplicated : ds.map (·.column) = n.keys.toList.filter x.aggregation.readByAggregates.contains
  /-- A duplicate is an alias at the end of the projection below, over what evaluates the column. -/
  defined : ds ≠ [] → ∃ list input,
    n.child = .projection (list ++ ds.map (·.definition.toExpr)) input ∧
      ∀ d ∈ ds, definingExpr? list d.column = some d.definition.child
  /-- The grouping id is the first one in the output, or else a new one. -/
  groupingId : n.groupingId = (a.virtuals.find? VirtualColumn.standsForId).getD
    (.ofGroupingId ⟨r.afterCalls next⟩)
  /-- The other virtual columns are those of the output, each where it occurs first. -/
  calls : n.calls = Roster.ofList (a.virtuals.filter fun v => !v.standsForId)

variable {x}

lemma lengths_sets (x : Stacked r next) : x.sets.map List.length = r.sets.map List.length := by
  have lengths := congrArg (List.map List.length) x.setExprs_eq
  rw [Substituted.setExprs, List.map_map, List.map_map] at lengths
  simp only [Function.comp_def, List.length_map] at lengths
  exact lengths

/-- The virtual columns are those of the stack. -/
lemma Duplicated.virtuals_eq {a : Aggregation} {ds : List Duplicate} {child : Plan}
    (duplicated : x.Duplicated a ds child) : a.virtuals = x.substituted.virtualOccurrences := by
  rw [Aggregation.virtuals, duplicated.output, List.flatMap_map, Substituted.virtualOccurrences,
    List.filterMap_flatMap]
  exact List.flatMap_congr fun e _ =>
    Expr.virtuals_mapAggregateArguments (Expr.virtuals_replaceColumns _) e

/-- Neither grouping columns nor duplicates are among the other columns, and reading duplicates
does not change which columns occur besides. -/
lemma Duplicated.columnsBesides_eq {a : Aggregation} {ds : List Duplicate} {child : Plan}
    (duplicated : x.Duplicated a ds child) (same : Column → Column → Bool)
    (refl : ∀ c, same c c = true)
    (apart : ∀ c ∈ x.substituted.otherColumns.toList, ∀ d ∈ ds, same c d.copy = false) :
    x.substituted.otherColumns.toList = (a.columnsBesides fun c =>
      x.substituted.keyColumns.contains c || ds.any fun d => same c d.copy).toList := by
  generalize hgiven : (fun c : Column => x.substituted.keyColumns.contains c ||
    ds.any fun d => same c d.copy) = given
  have given_eq (c : Column) : given c = (x.substituted.keyColumns.contains c ||
      ds.any fun d => same c d.copy) := by rw [← hgiven]
  have given_copy : ∀ d ∈ ds, (!given d.copy) = false := by
    intro d hd
    rw [given_eq, List.any_eq_true.2 ⟨d, hd, refl d.copy⟩, Bool.or_true, Bool.not_true]
  have given_grouped : ∀ d ∈ ds, ∀ c : Column, c == d.column → (!given c) = false := by
    intro d hd c hbeq
    have hcolumn : d.column ∈ ds.map (·.column) := List.mem_map_of_mem hd
    rw [duplicated.columns] at hcolumn
    have grouped := Roster.contains_of_mem (List.mem_of_mem_filter hcolumn)
    rw [given_eq, Roster.contains_congr _ hbeq, grouped, Bool.true_or, Bool.not_true]
  have kept : ∀ c ∈ x.substituted.otherColumns.toList, (!given c) = true := by
    intro c hc
    have ungrouped := (List.mem_filter.1 (Roster.mem_ofList hc)).2
    rw [given_eq, Bool.not_or, ungrouped, Bool.true_and, Bool.not_eq_true', ← Bool.not_eq_true,
      List.any_eq_true]
    rintro ⟨d, hd, hsame⟩
    rw [apart c hc d hd] at hsame
    exact Bool.false_ne_true hsame
  have columns : (a.columns.filter fun c => !given c) =
      ((x.substituted.output.flatMap Expr.columns).filter fun c =>
        !x.substituted.keyColumns.contains c).filter fun c => !given c := by
    rw [Aggregation.columns, duplicated.output, filter_columns_renamed given_copy given_grouped,
      List.filter_filter]
    refine List.filter_congr fun c _ => ?_
    rw [given_eq, Bool.not_or, Bool.and_comm, Bool.and_assoc, Bool.and_self]
  rw [Aggregation.columnsBesides, columns, Substituted.otherColumns,
    Roster.ofList_filter_eq_self kept]

/-- What lowering leaves is ordered. -/
lemma Lowered.ordered {a : Aggregation} {ds : List Duplicate} {child : Plan}
    (lowered : x.Lowered a (ds.map (·.copy)) child) (duplicated : x.Duplicated a ds child) :
    x.Ordered a (x.withCopies (ds.map (·.copy)) child) x.substituted.otherColumns.toList ds := by
  constructor
  case child => exact lowered.child_eq
  case groupBy => exact lowered.groupBy_eq
  case lengths => exact x.lengths_sets
  case places => rfl
  case others_eq =>
    refine duplicated.columnsBesides_eq (fun c c' => decide (c = c')) (fun c => decide_eq_true rfl)
      fun c hc d hd => ?_
    -- The duplicate has another name.
    refine decide_eq_false fun heq => duplicated.unnamed d hd ?_
    rw [← heq]
    refine List.mem_map_of_mem (List.mem_filterMap.2 ⟨.column c, ?_, rfl⟩)
    exact List.mem_append_left _ (List.mem_map_of_mem (List.mem_append_right _ hc))
  case duplicated => exact duplicated.columns
  case defined =>
    intro some_duplicate
    obtain ⟨list, input, hchild, -, source⟩ := duplicated.defined some_duplicate
    exact ⟨list, input, hchild, source⟩
  case groupingId =>
    rw [duplicated.virtuals_eq]
    rfl
  case calls =>
    rw [duplicated.virtuals_eq]
    rfl

/-- No virtual column is listed twice. -/
lemma nodup_ids_virtualColumns (x : Stacked r next) (free : r.VirtualFree) :
    ((x.substituted.virtualColumns x.groupingId).map (·.column.id)).Nodup := by
  have standsForId := (x.withCopies [] r.child).standsForId
  have standForCalls := (x.withCopies [] r.child).standForCalls
  refine List.nodup_cons.2 ⟨fun hmem => ?_, Roster.nodup_map fun v hv v' hv' hid => ?_⟩
  · obtain ⟨v, hv, hid⟩ := List.mem_map.1 hmem
    have same := x.eq_of_virtualColumn_id free (List.mem_cons_of_mem _ hv) List.mem_cons_self hid
    have standsForCall := standForCalls v hv
    rw [same] at standsForCall
    exact Bool.noConfusion (standsForId.symm.trans standsForCall)
  · rw [x.eq_of_virtualColumn_id free (List.mem_cons_of_mem _ hv) (List.mem_cons_of_mem _ hv')
      hid]
    exact BEq.rfl

namespace Lowered

variable {a : Aggregation} {copies : List Column} {child : Plan}
  (h : x.Lowered a copies child) (below : r.toPlan.IdsBelow next)
include h below

/-- Copies have ids that no other column has. -/
lemma id_ne_of_copy {c c' : Column} (hc : c ∈ x.readColumns) (hc' : c' ∈ copies) :
    c.id ≠ c'.id := by
  intro hid
  have hlt : c.id.number < r.firstCall next := by
    rcases List.mem_append.1 hc with hc | hc
    · exact x.number_lt_of_keyColumn below hc
    · exact x.number_lt_of_otherColumn below hc
  have hle := x.firstCall_le_nextId
  have hge := h.le_number_copy hc'
  rw [← hid] at hge
  omega

/-- No id is put out twice. -/
theorem nodup_ids_output (free : r.VirtualFree) :
    (((x.withCopies copies child).toRepetition.output.filterMap Expr.produced?).map
      (·.id)).Nodup := by
  have columns (cs : List Column) : (cs.map Expr.column).filterMap Expr.produced? = cs := by
    rw [List.filterMap_map]
    exact List.filterMap_some
  have virtuals (vs : List VirtualColumn) :
      (vs.map VirtualColumn.toExpr).filterMap Expr.produced? = vs.map (·.column) := by
    rw [List.filterMap_map, ← List.filterMap_eq_map]
    exact List.filterMap_congr fun v _ => VirtualColumn.produced?_toExpr v
  have output : (x.withCopies copies child).toRepetition.output.filterMap Expr.produced? =
      (x.readColumns ++ copies) ++ (x.substituted.virtualColumns x.groupingId).map (·.column) := by
    rw [ColumnRepetition.toRepetition, List.filterMap_append, columns, virtuals, readColumns,
      List.append_assoc x.substituted.keyColumns.toList]
    rfl
  have read : (x.readColumns.map (·.id)).Nodup := by
    rw [readColumns, List.map_append]
    refine (Column.nodup_ids _).append (Column.nodup_ids _) fun i hi hi' => ?_
    obtain ⟨c, hc, rfl⟩ := List.mem_map.1 hi
    obtain ⟨c', hc', hid⟩ := List.mem_map.1 hi'
    -- The other columns are those that are not grouped by.
    have other := (List.mem_filter.1 (Roster.mem_ofList hc')).2
    rw [Bool.not_eq_true', ← Bool.not_eq_true, Roster.contains_iff] at other
    exact other ⟨c, hc, (Column.beq_iff _ _).2 hid⟩
  have virtual : (((x.substituted.virtualColumns x.groupingId).map (·.column)).map
      (·.id)).Nodup := by
    rw [List.map_map]
    exact x.nodup_ids_virtualColumns free
  rw [output, List.map_append]
  refine List.Nodup.append ?_ virtual fun i hi hi' => ?_
  · rw [List.map_append]
    refine read.append h.nodup_copies fun i hi hi' => ?_
    obtain ⟨c, hc, rfl⟩ := List.mem_map.1 hi
    obtain ⟨c', hc', hid⟩ := List.mem_map.1 hi'
    exact h.id_ne_of_copy below hc hc' hid.symm
  · obtain ⟨c, hc, rfl⟩ := List.mem_map.1 hi
    obtain ⟨_, hcolumn, hid⟩ := List.mem_map.1 hi'
    obtain ⟨v, hv, rfl⟩ := List.mem_map.1 hcolumn
    exact x.id_ne_of_virtualColumn free below (fun c hc => h.le_number_copy hc) hv c hc hid.symm

end Lowered

/-- In a hygienic repetition the output reads a grouping column as it is grouped by. -/
theorem eq_of_keyColumn (h : r.Hygienic next) (x : Stacked r next) {e : Expr}
    (he : e ∈ r.outputAt next) {c k : Column} (hc : c ∈ e.columns)
    (hk : k ∈ x.substituted.keyColumns.toList) (hid : c.id = k.id) : c = k := by
  obtain ⟨item, -, b, hget, rfl⟩ := x.exists_binding_of_mem_sets (Roster.mem_ofList hk)
  obtain ⟨hb, -⟩ := Bindings.get?_eq_some hget
  obtain ⟨e₀, he₀, rfl⟩ := List.mem_map.1 he
  obtain ⟨n, hn, ⟨rfl, passed⟩ | ⟨-, b', hget', rfl⟩⟩ := (Bindings.mem_columns_substituted he₀).1 hc
  · -- A column that was let be is not bound, and shares no id with a column that is.
    have member : e₀ ∈ r.exprs := List.mem_append_right _ he₀
    have stands := Expr.mem_subterms_of_mem_nodesUntil hn
    rw [h.replaces_eq member stands, Bool.or_eq_false_iff] at passed
    have not_early : ¬ r.early.contains (.column c) := by
      rw [passed.2]
      exact Bool.false_ne_true
    exact absurd hid.symm
      (h.id_ne_of_not_early member (Expr.mem_columns_iff.2 stands) not_early hb)
  · obtain ⟨hb', -⟩ := Bindings.get?_eq_some hget'
    rw [Binding.id_column, Binding.id_column] at hid
    rw [Repetition.eq_of_source_beq hb' hb (h.source_beq_source hb' hb hid)]

end Stacked

/-- Whatever repetition is lowered, its columns are put out and grouped by in order: an aggregation
groups by the grouping columns and the virtual columns, and the repetition below puts out the other
columns that are read and the duplicates between them.  Grouping columns may be null.  If the query
has no virtual columns and all its ids are taken, then no id is put out twice, and in a hygienic
query each grouping column is read as it is grouped by, so that it may be null wherever it is
read. -/
theorem Repetition.lower_columnOrder {r : Repetition} {settings : Settings} {s s' : Session}
    {a : Aggregation} (run : (r.lower settings).runIn s = (.ok a, s')) :
    ∃ (x : Stacked r s.nextId) (n : ColumnRepetition) (others : List Column)
      (ds : List Duplicate), x.Ordered a n others ds ∧
        (a.virtuals.find? VirtualColumn.standsForId = none →
          s.nextId ≤ r.afterCalls s.nextId ∧ r.afterCalls s.nextId < s'.nextId) ∧
        (r.toPlan.IdsBelow s.nextId →
          others = (a.columnsBesides fun c =>
            n.keys.contains c || ds.any fun d => c == d.copy).toList) ∧
        (r.toPlan.IdsBelow s.nextId → r.VirtualFree →
          ((n.toRepetition.output.filterMap Expr.produced?).map (·.id)).Nodup) ∧
        (r.Hygienic s.nextId → ∀ c ∈ a.columns, n.keys.contains c →
          c ∈ n.keys.toList ∧ c.nullable = true) := by
  obtain ⟨-, -, x, s₁, hnext, run⟩ := lower_eq_ok run
  obtain ⟨ds, child, lowered, duplicated, hlast⟩ := x.duplicated_of_separate hnext run
  have ordered := lowered.ordered duplicated
  refine ⟨x, _, _, ds, ordered, fun none => ?_, fun below => ?_,
    fun below free => lowered.nodup_ids_output below free, fun h c hc hkey => ?_⟩
  · have new : x.nextId = r.afterCalls s.nextId + 1 := by
      rw [duplicated.virtuals_eq] at none
      rw [Stacked.nextId, Substituted.groupingIdColumn?, none]
      rfl
    exact ⟨r.le_afterCalls s.nextId, by omega⟩
  · refine duplicated.columnsBesides_eq (· == ·) (fun c => BEq.rfl) fun c hc d hd => ?_
    rw [← Bool.not_eq_true, Column.beq_iff]
    exact lowered.id_ne_of_copy below (List.mem_append_right _ hc) (List.mem_map_of_mem hd)
  · obtain ⟨k, hk, hbeq⟩ := (Roster.contains_iff _ _).1 hkey
    have hid := (Column.beq_iff _ _).1 hbeq
    rw [Aggregation.columns, duplicated.output] at hc
    have read : c ∈ x.substituted.output.flatMap Expr.columns := by
      refine (mem_columns_renamed hc).resolve_right ?_
      rintro ⟨d, hd, rfl⟩
      exact lowered.id_ne_of_copy h.below (List.mem_append_left _ hk) (List.mem_map_of_mem hd)
        hid.symm
    obtain ⟨e, he, hc⟩ := List.mem_flatMap.1 read
    obtain rfl := Stacked.eq_of_keyColumn h x he hc hk hid
    exact ⟨hk, x.nullable_of_mem_sets (Roster.mem_ofList hk)⟩

theorem Repetition.lower_columnOrder_markedSums :
    markedSums.Hygienic 5 ∧ ∃ a s', (markedSums.lower {}).runIn { nextId := 5 } = (.ok a, s') ∧
      ∃ (x : Stacked markedSums 5) (n : ColumnRepetition) (others : List Column)
        (ds : List Duplicate), x.Ordered a n others ds ∧
          others = (a.columnsBesides fun c =>
            n.keys.contains c || ds.any fun d => c == d.copy).toList ∧
          ((n.toRepetition.output.filterMap Expr.produced?).map (·.id)).Nodup ∧
          ∀ c ∈ a.columns, n.keys.contains c → c ∈ n.keys.toList ∧ c.nullable = true := by
  have h := markedSums_hygienic
  obtain ⟨a, s', run⟩ : ∃ a s', (markedSums.lower {}).runIn { nextId := 5 } = (.ok a, s') :=
    ⟨_, _, rfl⟩
  obtain ⟨x, n, others, ds, ordered, -, others_eq, nodup, keys⟩ := lower_columnOrder run
  exact ⟨h, a, s', run, x, n, others, ds, ordered, others_eq h.below,
    nodup h.below h.no_virtual, keys h⟩

end GroupingPlanner

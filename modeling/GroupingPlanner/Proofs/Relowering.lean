import GroupingPlanner.Proofs.ColumnRepetitions
import GroupingPlanner.Proofs.Outcome
/-!
# Lowering repetitions over columns

A repetition over columns may be lowered again.  Nothing is evaluated early then but the grouping
columns, which are bound to themselves; no call and no aggregate is left to be replaced or
separated; and the virtual columns are taken over.  So no id is taken, and all that can change is
which of several columns with one id is shown, which columns are listed twice, and the projection
below.  Lowered a third time the repetition stays as it is.

* `ColumnRepetition.again`: the repetition lowered again.
* `ColumnRepetition.repetition_eq`, `ColumnRepetition.nextId_eq`: the stack over a repetition over
  columns.
* `ColumnRepetition.exists_lower`: lowering succeeds, and what it returns.
* `ColumnRepetition.again_again`: nothing is left to change.
* `ColumnRepetition.child_again`: the child is kept if it exposes just what is put out.
-/

namespace GroupingPlanner

lemma Column.asNullable_eq_self {c : Column} (h : c.nullable = true) : c.asNullable = c := by
  rw [asNullable, ← h]

namespace ColumnRepetition

variable (n : ColumnRepetition)

/-- The grouping column with the id of a column, or else the column itself. -/
def keyOf (c : Column) : Column := (n.keys.toList.find? (c == ·)).getD c

/-- The columns put out that are no grouping columns, each once. -/
def free : Roster Column := .ofList (n.others.filter fun c => !n.keys.contains c)

/-- The entries of a projection below, where the child exposes a schema. -/
def entries (schema : List Column) : List Definition :=
  projectionEntries (n.keys.toList.map Definition.column) n.free.toList schema

/-! ## Grouping columns -/

lemma keyOf_of_mem {c : Column} (hc : c ∈ n.keys.toList) : n.keyOf c = c := by
  have found : (n.keys.toList.find? (c == ·)).isSome := List.find?_isSome.2 ⟨c, hc, BEq.rfl⟩
  obtain ⟨k, hk⟩ := Option.isSome_iff_exists.1 found
  have hbeq : c == k := by simpa using List.find?_some hk
  rw [keyOf, hk, Option.getD_some]
  exact (Roster.eq_of_beq_of_mem hc (List.mem_of_find?_eq_some hk) hbeq).symm

lemma find?_key_of_not_contains {c : Column} (hc : n.keys.contains c = false) :
    n.keys.toList.find? (c == ·) = none := by
  rw [List.find?_eq_none]
  intro k hk hbeq
  rw [(Roster.contains_iff _ _).2 ⟨k, hk, hbeq⟩] at hc
  exact Bool.noConfusion hc

lemma keyOf_of_not_key {c : Column} (hc : n.keys.contains c = false) : n.keyOf c = c := by
  rw [keyOf, n.find?_key_of_not_contains hc, Option.getD_none]

lemma keyOf_mem {c : Column} (hc : n.keys.contains c) : n.keyOf c ∈ n.keys.toList := by
  obtain ⟨k, hk, hbeq⟩ := (Roster.contains_iff _ _).1 hc
  obtain ⟨k', hk'⟩ := Option.isSome_iff_exists.1 (List.find?_isSome.2 ⟨k, hk, hbeq⟩)
  rw [keyOf, hk', Option.getD_some]
  exact List.mem_of_find?_eq_some hk'

lemma keyOf_beq (c : Column) : n.keyOf c == c := by
  cases h : n.keys.toList.find? (c == ·) with
  | none =>
    rw [keyOf, h]
    exact BEq.rfl
  | some k =>
    rw [keyOf, h]
    exact BEq.symm (by simpa using List.find?_some h)

lemma keyOf_beq_keyOf (c c' : Column) : (n.keyOf c == n.keyOf c') = (c == c') := by
  rw [Column.beq_def, Column.beq_def, (Column.beq_iff _ _).1 (n.keyOf_beq c),
    (Column.beq_iff _ _).1 (n.keyOf_beq c')]

/-! ## The second stack -/

/-- The repetition lowered again, where the child exposes a schema. -/
def again (schema : List Column) : ColumnRepetition where
  sets := n.sets.map (·.map n.keyOf)
  others := n.free.toList
  groupingId := n.groupingId
  calls := n.calls
  child := defineBelow n.child schema (n.entries schema)
  nullable := by
    intro c hc
    rw [← List.map_flatten] at hc
    obtain ⟨c', hc', rfl⟩ := List.mem_map.1 hc
    exact n.nullable _ (Roster.mem_ofList (n.keyOf_mem (Roster.contains_ofList_of_mem hc')))
  standsForId := n.standsForId
  standForCalls := n.standForCalls

lemma toList_keys_again (schema : List Column) : (n.again schema).keys.toList = n.keys.toList := by
  have kept : (n.again schema).keys.toList = n.keys.toList.map n.keyOf := by
    rw [keys, again, ← List.map_flatten]
    exact Roster.toList_ofList_map fun c _ c' _ => n.keyOf_beq_keyOf c c'
  rw [kept]
  exact (List.map_congr_left fun c hc => n.keyOf_of_mem hc).trans (List.map_id _)

/-! ## What is evaluated early -/

lemma toList_items : n.toRepetition.items.toList = n.keys.toList.map Expr.column := by
  rw [Repetition.items, flatten_sets]
  exact Roster.toList_ofList_map fun c _ c' _ => rfl

lemma flatMap_output_eq_nil {α : Type} {f : Expr → List α} (column : ∀ c, f (.column c) = [])
    (virtual : ∀ v : VirtualColumn, f v.toExpr = []) : n.toRepetition.output.flatMap f = [] := by
  rw [List.flatMap_eq_nil_iff]
  intro e he
  rcases n.mem_output he with ⟨c, rfl⟩ | ⟨v, rfl⟩
  · exact column c
  · exact virtual v

lemma toList_early : n.toRepetition.early.toList = n.keys.toList.map Expr.column := by
  have calls : n.toRepetition.output.flatMap Expr.groupingArguments = [] :=
    n.flatMap_output_eq_nil (fun _ => rfl) fun ⟨_, quantity⟩ => by cases quantity <;> rfl
  have aggregates : n.toRepetition.output.flatMap Expr.aggregateArguments = [] :=
    n.flatMap_output_eq_nil (fun _ => rfl) fun ⟨_, quantity⟩ => by cases quantity <;> rfl
  rw [Repetition.early, calls, aggregates, Roster.insertAll_nil, Roster.insertAll_nil, toList_items]

/-! ## Bindings -/

/-- Columns are bound to themselves. -/
lemma bindFrom_columns (aliases : List Alias) (grouped : Expr → Bool) (next : Nat)
    (cs : List Column) : Bindings.bindFrom aliases grouped next (cs.map Expr.column) =
      cs.map fun c => ⟨.column c, .column c, grouped (.column c)⟩ := by
  induction cs with
  | nil => rfl
  | cons c cs ih =>
    rw [List.map_cons, List.map_cons, ← ih]
    rfl

variable (next : Nat)

lemma bindable_early :
    Repetition.bindable n.toRepetition.early.toList = n.keys.toList.map Expr.column := by
  rw [toList_early]
  refine List.filter_eq_self.2 fun e he => ?_
  obtain ⟨c, -, rfl⟩ := List.mem_map.1 he
  rfl

lemma toList_bindings : (n.toRepetition.bindingsAt next).toList =
    n.keys.toList.map fun c => ⟨.column c, .column c, true⟩ := by
  rw [Repetition.bindingsAt, Repetition.bindingsFrom, bindable_early, bindFrom_columns]
  refine List.map_congr_left fun c hc => ?_
  have item : n.toRepetition.items.contains (.column c) := by
    refine (Roster.contains_iff _ _).2 ⟨.column c, ?_, BEq.rfl⟩
    rw [toList_items]
    exact List.mem_map_of_mem hc
  rw [item]

lemma firstCall_eq : n.toRepetition.firstCall next = next := by
  have none_new : n.toRepetition.newAliasCount n.toRepetition.early.toList = 0 := by
    rw [Repetition.newAliasCount, bindable_early, List.countP_eq_zero]
    intro e he
    obtain ⟨c, -, rfl⟩ := List.mem_map.1 he
    exact Bool.false_ne_true
  rw [Repetition.firstCall, none_new, Nat.add_zero]

lemma replacement?_column (c : Column) : (n.toRepetition.bindingsAt next).replacement? (.column c) =
    (n.keys.toList.find? (c == ·)).map Expr.column := by
  rw [Bindings.replacement?, Bindings.get?, toList_bindings, List.find?_map, Option.map_map]
  have same : ((fun b : Binding => Expr.column c == b.source) ∘ fun c : Column =>
      (⟨.column c, .column c, true⟩ : Binding)) = (c == ·) := by
    funext k
    rfl
  rw [same]
  cases hk : n.keys.toList.find? (c == ·) with
  | none => rfl
  | some k =>
    have hnull := n.nullable k (Roster.mem_ofList (List.mem_of_find?_eq_some hk))
    exact congrArg (fun k => some (Expr.column k)) (Column.asNullable_eq_self hnull)

lemma replacement?_virtual (v : VirtualColumn) :
    (n.toRepetition.bindingsAt next).replacement? v.toExpr = none := by
  rw [Bindings.replacement?, Bindings.get?, toList_bindings, Option.map_eq_none_iff,
    List.find?_eq_none]
  intro b hb
  obtain ⟨c, -, rfl⟩ := List.mem_map.1 hb
  obtain ⟨c', _ | call⟩ := v <;> exact Bool.false_ne_true

lemma getD_replacement?_column (c : Column) :
    ((n.toRepetition.bindingsAt next).replacement? (.column c)).getD (.column c) =
      .column (n.keyOf c) := by
  rw [replacement?_column, keyOf]
  cases n.keys.toList.find? (c == ·) <;> rfl

lemma substitute_column (c : Column) :
    (n.toRepetition.bindingsAt next).substitute (.column c) = .column (n.keyOf c) := by
  rw [Bindings.substitute, Expr.replace_eq]
  exact n.getD_replacement?_column next c

lemma toList_signatures :
    ((n.toRepetition.bindingsAt next).signatures n.toRepetition.output).toList = [] := by
  have no_call :
      n.toRepetition.output.flatMap (n.toRepetition.bindingsAt next).replacedCalls = [] :=
    n.flatMap_output_eq_nil (fun _ => rfl) fun ⟨_, quantity⟩ => by cases quantity <;> rfl
  rw [Bindings.signatures, no_call]
  rfl

lemma afterCalls_eq : n.toRepetition.afterCalls next = next := by
  rw [Repetition.afterCalls, firstCall_eq, Roster.size, toList_signatures]
  rfl

lemma outputAt_eq : n.toRepetition.outputAt next =
    (n.keys.toList ++ n.others.map n.keyOf).map Expr.column ++
      n.virtuals.map VirtualColumn.toExpr := by
  have column (c : Column) : (Expr.column c).replace
      ((n.toRepetition.bindingsAt next).outputRule (n.toRepetition.callColumnsAt next)) =
        .column (n.keyOf c) := by
    rw [Expr.replace_eq]
    exact n.getD_replacement?_column next c
  have virtual (v : VirtualColumn) : v.toExpr.replace
      ((n.toRepetition.bindingsAt next).outputRule (n.toRepetition.callColumnsAt next)) =
        v.toExpr := by
    have let_be : (n.toRepetition.bindingsAt next).outputRule (n.toRepetition.callColumnsAt next)
        v.toExpr = none := by
      have not_call : v.toExpr.groupingCall? = none := by
        obtain ⟨c, _ | call⟩ := v <;> rfl
      rw [Bindings.outputRule, not_call]
      exact n.replacement?_virtual next v
    rw [Expr.replace_eq, let_be, Option.getD_none]
    obtain ⟨c, _ | call⟩ := v <;> rfl
  have output : n.toRepetition.output = (n.keys.toList ++ n.others).map Expr.column ++
      n.virtuals.map VirtualColumn.toExpr := rfl
  have keys : n.keys.toList.map n.keyOf = n.keys.toList :=
    (List.map_congr_left fun c hc => n.keyOf_of_mem hc).trans (List.map_id _)
  rw [Repetition.outputAt, Bindings.substituteOutput, output, List.map_append, List.map_map,
    List.map_map]
  congr 1
  · have renamed : n.keys.toList ++ n.others.map n.keyOf =
        (n.keys.toList ++ n.others).map n.keyOf := by rw [List.map_append, keys]
    rw [renamed, List.map_map]
    exact List.map_congr_left fun c _ => column c
  · exact List.map_congr_left fun v _ => virtual v

lemma mem_outputAt {e : Expr} (he : e ∈ n.toRepetition.outputAt next) :
    (∃ c, e = .column c) ∨ ∃ v : VirtualColumn, e = v.toExpr := by
  rw [outputAt_eq] at he
  rcases List.mem_append.1 he with he | he
  · obtain ⟨c, -, rfl⟩ := List.mem_map.1 he
    exact Or.inl ⟨c, rfl⟩
  · obtain ⟨v, -, rfl⟩ := List.mem_map.1 he
    exact Or.inr ⟨v, rfl⟩

/-! ## The stack -/

section Stack

variable {next} (x : Stacked n.toRepetition next)

lemma sets_eq : x.sets = (n.again x.schema).sets := by
  have exprs : x.sets.map (·.map Expr.column) =
      (n.again x.schema).sets.map (·.map Expr.column) := by
    have sets : n.toRepetition.sets = n.sets.map (·.map Expr.column) := rfl
    have h := x.setExprs_eq
    rw [sets, List.map_map] at h
    rw [again, List.map_map]
    refine h.trans (List.map_congr_left fun set _ => ?_)
    rw [Function.comp_apply, Function.comp_apply, List.map_map, List.map_map]
    exact List.map_congr_left fun c _ => n.substitute_column next c
  have injective : Function.Injective (List.map Expr.column) :=
    List.map_injective_iff.2 fun c c' h => Expr.column.inj h
  exact List.map_injective_iff.2 injective exprs

lemma keyColumns_eq : x.substituted.keyColumns = (n.again x.schema).keys := by
  rw [Substituted.keyColumns, Stacked.substituted, keys, n.sets_eq x]

lemma flatMap_columns : (n.toRepetition.outputAt next).flatMap Expr.columns =
    n.keys.toList ++ n.others.map n.keyOf := by
  have columns (cs : List Column) : (cs.map Expr.column).flatMap Expr.columns = cs := by
    rw [List.flatMap_map]
    exact List.flatMap_singleton' cs
  have virtuals (vs : List VirtualColumn) :
      (vs.map VirtualColumn.toExpr).flatMap Expr.columns = [] := by
    rw [List.flatMap_map, List.flatMap_eq_nil_iff]
    exact fun v _ => Expr.columns_virtual v
  rw [outputAt_eq, List.flatMap_append, columns, virtuals, List.append_nil]

lemma otherColumns_eq : x.substituted.otherColumns.toList = n.free.toList := by
  have contains (c : Column) : x.substituted.keyColumns.contains c = n.keys.contains c := by
    rw [keyColumns_eq, Roster.contains, toList_keys_again]
    rfl
  have left_out : n.keys.toList.filter (fun c => !n.keys.contains c) = [] := by
    rw [List.filter_eq_nil_iff]
    intro c hc
    rw [Roster.contains_of_mem hc]
    exact Bool.false_ne_true
  have kept : (n.others.map n.keyOf).filter (fun c => !n.keys.contains c) =
      n.others.filter fun c => !n.keys.contains c := by
    rw [List.filter_map]
    have same : ((fun c => !n.keys.contains c) ∘ n.keyOf) = fun c => !n.keys.contains c := by
      funext c
      exact congrArg not (Roster.contains_congr _ (n.keyOf_beq c))
    rw [same]
    refine (List.map_congr_left fun c hc => n.keyOf_of_not_key ?_).trans (List.map_id _)
    simpa using (List.mem_filter.1 hc).2
  rw [Substituted.otherColumns, free]
  simp only [contains]
  rw [Stacked.substituted, flatMap_columns, List.filter_append, left_out, kept, List.nil_append]

lemma virtualOccurrences_eq : x.substituted.virtualOccurrences = n.virtuals := by
  have columns (cs : List Column) :
      ((cs.map Expr.column).flatMap Expr.subterms).filterMap Expr.virtual? = [] := by
    rw [List.filterMap_flatMap, List.flatMap_map, List.flatMap_eq_nil_iff]
    exact fun c _ => rfl
  have virtuals (vs : List VirtualColumn) :
      ((vs.map VirtualColumn.toExpr).flatMap Expr.subterms).filterMap Expr.virtual? = vs := by
    rw [List.filterMap_flatMap, List.flatMap_map]
    simp
  rw [Substituted.virtualOccurrences, Stacked.substituted, outputAt_eq, List.flatMap_append,
    List.filterMap_append, columns, virtuals, List.nil_append]

lemma groupingIdColumn?_eq : x.substituted.groupingIdColumn? = some n.groupingId := by
  rw [Substituted.groupingIdColumn?, virtualOccurrences_eq, virtuals,
    List.find?_cons_of_pos n.standsForId]

lemma groupingId_eq : x.groupingId = n.groupingId := by
  rw [Stacked.groupingId, groupingIdColumn?_eq, Option.getD_some]

lemma nextId_eq : x.nextId = next := by
  rw [Stacked.nextId, groupingIdColumn?_eq, afterCalls_eq]
  rfl

lemma virtualColumns_eq : x.substituted.virtualColumns x.groupingId = n.virtuals := by
  have calls : n.virtuals.filter (fun v => !v.standsForId) = n.calls.toList := by
    rw [virtuals, List.filter_cons_of_neg (by simp [n.standsForId]), List.filter_eq_self]
    intro v hv
    rw [n.standForCalls v hv]
    rfl
  rw [Substituted.virtualColumns, Substituted.callColumns, virtualOccurrences_eq, calls,
    Roster.toList_ofList_of_pairwise n.calls.distinct, groupingId_eq]
  rfl

lemma entries_eq : x.entries = n.entries x.schema := by
  have definitions : (n.toRepetition.bindingsAt next).definitions =
      n.keys.toList.map Definition.column := by
    rw [Bindings.definitions, toList_bindings, List.map_map]
    refine Roster.toList_ofList_of_pairwise (List.pairwise_map.2 ?_)
    exact n.keys.distinct
  rw [Stacked.entries, definitions, otherColumns_eq]
  rfl

/-- Lowered again, the repetition is one over columns again. -/
theorem repetition_eq : x.repetition = (n.again x.schema).toRepetition := by
  have output : x.substituted.repeatedColumns x.groupingId =
      (n.again x.schema).toRepetition.output := by
    rw [Substituted.repeatedColumns, virtualColumns_eq, keyColumns_eq, otherColumns_eq]
    rfl
  have sets : x.substituted.setExprs = (n.again x.schema).toRepetition.sets := by
    rw [Substituted.setExprs, Stacked.substituted, n.sets_eq x]
    rfl
  rw [Stacked.repetition, sets, output, entries_eq]
  rfl

lemma groupBy_eq : x.aggregation.groupBy = n.groupBy := by
  rw [Stacked.aggregation, Substituted.groupBy, virtualColumns_eq, keyColumns_eq,
    toList_keys_again, groupBy]

/-- No aggregate is left that could read a grouping column. -/
lemma conflicts_eq_nil : x.aggregation.conflicts x.repetition = [] := by
  have unread : x.aggregation.readByAggregates = [] := by
    rw [Aggregation.readByAggregates, List.flatMap_eq_nil_iff]
    intro call hcall
    obtain ⟨e, he, hcall⟩ := List.mem_flatMap.1 hcall
    rcases n.mem_outputAt next he with ⟨c, rfl⟩ | ⟨⟨c, _ | call'⟩, rfl⟩ <;>
      exact absurd hcall List.not_mem_nil
  rw [Aggregation.conflicts, unread, List.filter_eq_nil_iff]
  exact fun c _ => Bool.false_ne_true

end Stack

/-! ## Once more -/

lemma free_again (schema : List Column) : (n.again schema).free.toList = n.free.toList := by
  have kept : (n.again schema).others.filter (fun c => !(n.again schema).keys.contains c) =
      n.free.toList := by
    refine List.filter_eq_self.2 fun c hc => ?_
    have apart := (List.mem_filter.1 (Roster.mem_ofList hc)).2
    rw [Roster.contains, toList_keys_again]
    exact apart
  rw [free, kept]
  exact Roster.toList_ofList_of_pairwise n.free.distinct

lemma entries_again (schema schema' : List Column) :
    (n.again schema).entries schema' = n.entries schema' := by
  rw [entries, entries, toList_keys_again, free_again]

lemma keyOf_again (schema : List Column) : (n.again schema).keyOf = n.keyOf := by
  funext c
  rw [keyOf, toList_keys_again]
  rfl

lemma keyOf_keyOf (c : Column) : n.keyOf (n.keyOf c) = n.keyOf c := by
  cases hc : n.keys.contains c with
  | true => exact n.keyOf_of_mem (n.keyOf_mem hc)
  | false => rw [n.keyOf_of_not_key hc, n.keyOf_of_not_key hc]

/-- The second projection hands on the keys, and the other columns as the child exposes them. -/
lemma entries_eq_map (schema : List Column) : n.entries schema =
    (n.keys.toList ++ n.free.toList.filterMap fun c => schema.find? (· == c)).map
      Definition.column := by
  have missing : n.free.toList.filter
      (fun c => !(n.keys.toList.map Definition.column).any (·.produced == c)) = n.free.toList := by
    refine List.filter_eq_self.2 fun c hc => ?_
    have apart := (List.mem_filter.1 (Roster.mem_ofList hc)).2
    rw [Bool.not_eq_true', ← Bool.not_eq_true] at apart ⊢
    intro hany
    obtain ⟨d, hd, hbeq⟩ := List.any_eq_true.1 hany
    obtain ⟨k, hk, rfl⟩ := List.mem_map.1 hd
    exact apart ((Roster.contains_iff _ _).2 ⟨k, hk, BEq.symm hbeq⟩)
  rw [entries, projectionEntries, missing, List.map_append]

/-- The child is kept, or one projection of columns is put over it. -/
lemma child_again_cases (schema : List Column) : (n.again schema).child = n.child ∨
    ∃ cs : List Column, (n.again schema).child = .projection (cs.map Expr.column) n.child := by
  rw [again, defineBelow]
  split
  · exact Or.inl rfl
  · right
    rw [entries_eq_map, List.map_map]
    exact ⟨_, rfl⟩

lemma exists_schema_again {schema : List Column} (hschema : n.child.schema = .ok schema) :
    ∃ schema', (n.again schema).child.schema = .ok schema' := by
  rcases n.child_again_cases schema with hkept | ⟨cs, hput⟩
  · exact ⟨schema, by rw [hkept, hschema]⟩
  · refine ⟨cs, ?_⟩
    rw [hput, Plan.schema, Plan.columnsOf_eq_ok_iff, List.map_map]
    rfl

lemma nodup_ids_entries (schema : List Column) :
    ((n.entries schema).map (·.produced.id)).Nodup := by
  refine nodup_ids_projectionEntries ?_ (Column.nodup_ids _) schema
  rw [List.map_map]
  exact Column.nodup_ids n.keys

/-- Where the second projection is put, a third one would have the same entries. -/
lemma entries_produced (schema : List Column) :
    n.entries ((n.entries schema).map Definition.produced) = n.entries schema := by
  have nodup : (((n.entries schema).map Definition.produced).map (·.id)).Nodup := by
    rw [List.map_map]
    exact n.nodup_ids_entries schema
  have exposed (p : Column) : p ∈ (n.entries schema).map Definition.produced ↔
      p ∈ n.keys.toList ∨ ∃ c ∈ n.free.toList, schema.find? (· == c) = some p := by
    rw [entries_eq_map, List.map_map, ← List.mem_filterMap, ← List.mem_append]
    exact List.mem_map.trans ⟨fun ⟨c, hc, hp⟩ => hp ▸ hc, fun hp => ⟨p, hp, rfl⟩⟩
  have found : ∀ c ∈ n.free.toList,
      ((n.entries schema).map Definition.produced).find? (· == c) = schema.find? (· == c) := by
    intro c hc
    cases hfind : schema.find? (· == c) with
    | some p =>
      have hbeq : p == c := by simpa using List.find?_some hfind
      exact Column.find?_of_nodup_ids nodup ((exposed p).2 (Or.inr ⟨c, hc, hfind⟩)) hbeq
    | none =>
      rw [List.find?_eq_none]
      intro p hp hbeq
      rcases (exposed p).1 hp with hkey | ⟨c', -, hfind'⟩
      · have apart := (List.mem_filter.1 (Roster.mem_ofList hc)).2
        rw [(Roster.contains_iff _ _).2 ⟨p, hkey, BEq.symm hbeq⟩] at apart
        exact Bool.noConfusion apart
      · exact List.find?_eq_none.1 hfind p (List.mem_of_find?_eq_some hfind') hbeq
  rw [entries_eq_map n ((n.entries schema).map _), List.filterMap_congr found, ← entries_eq_map]

/-- A schema is restated by its own columns. -/
lemma restates_entries (schema : List Column) :
    restates ((n.entries schema).map Definition.produced) (n.entries schema) := by
  rw [restates, Bool.and_eq_true, List.length_map, beq_iff_eq, List.all_eq_true]
  refine ⟨rfl, fun d hd => ?_⟩
  have hd' := hd
  rw [entries_eq_map] at hd'
  obtain ⟨c, -, rfl⟩ := List.mem_map.1 hd'
  exact List.elem_eq_true_of_mem (List.mem_map_of_mem (f := Definition.produced) hd)

variable {n}

lemma child_again_again {schema schema' : List Column} (hschema : n.child.schema = .ok schema)
    (hschema' : (n.again schema).child.schema = .ok schema') :
    ((n.again schema).again schema').child = (n.again schema).child := by
  have child : (n.again schema).child = defineBelow n.child schema (n.entries schema) := rfl
  have twice : ((n.again schema).again schema').child =
      defineBelow (n.again schema).child schema' (n.entries schema') := by
    rw [← n.entries_again schema schema']
    rfl
  rw [twice]
  cases hkept : (n.entries schema).isEmpty || restates schema (n.entries schema) with
  | true =>
    have kept : (n.again schema).child = n.child := by
      rw [child, defineBelow, if_pos hkept]
    rw [kept, hschema, Except.ok.injEq] at hschema'
    rw [kept, ← hschema', defineBelow, if_pos hkept]
  | false =>
    have put : (n.again schema).child =
        .projection ((n.entries schema).map Definition.toExpr) n.child := by
      rw [child, defineBelow, hkept]
      exact if_neg Bool.false_ne_true
    have columns : schema' = (n.entries schema).map Definition.produced := by
      rw [put, Plan.schema, Definition.columnsOf_toExpr, Except.ok.injEq] at hschema'
      exact hschema'.symm
    rw [columns, n.entries_produced, defineBelow, n.restates_entries, Bool.or_true, if_pos rfl]

/-- Lowered twice, the repetition stays as it is. -/
theorem again_again {schema schema' : List Column} (hschema : n.child.schema = .ok schema)
    (hschema' : (n.again schema).child.schema = .ok schema') :
    (n.again schema).again schema' = n.again schema := by
  refine ColumnRepetition.ext ?_ (n.free_again schema) rfl rfl (child_again_again hschema hschema')
  have twice : ((n.again schema).again schema').sets =
      (n.again schema).sets.map (·.map (n.again schema).keyOf) := rfl
  rw [twice, keyOf_again, again, List.map_map]
  refine List.map_congr_left fun set _ => ?_
  rw [Function.comp_apply, List.map_map]
  exact List.map_congr_left fun c _ => n.keyOf_keyOf c

/-! ## Lowering -/

variable (n)

/-- Lowering succeeds if there are not too many grouping columns, and takes no id. -/
theorem exists_lower {settings : Settings} (hcheck : settings.check = .ok ())
    (hsize : n.keys.size ≤ settings.maxGroupingItems) {schema : List Column}
    (hschema : n.child.schema = .ok schema) (t : Session) :
    ∃ a t', (n.toRepetition.lower settings).runIn t = (.ok a, t') ∧ t'.nextId = t.nextId ∧
      a.child = (n.again schema).toRepetition.toPlan ∧ a.groupBy = n.groupBy := by
  have nothing : n.toRepetition.obstacle? settings = none := by
    refine (Repetition.obstacle?_eq_none_iff _ _).2 ⟨?_, ?_, fun e he => ?_, schema, hschema⟩
    · exact (Repetition.faultOf?_check settings).1 (by rw [hcheck]; rfl)
    · rwa [Roster.size, toList_items, List.length_map]
    · rw [flatten_sets] at he
      obtain ⟨c, -, rfl⟩ := List.mem_map.1 he
      rfl
  rw [← Repetition.fault?_lower _ _ t] at nothing
  obtain ⟨a, t', run⟩ := PlanM.fault?_eq_none_iff.1 nothing
  obtain ⟨-, -, x, t₁, hnext, separated⟩ := Repetition.lower_eq_ok run
  rcases Aggregation.separate_eq_ok rfl separated with ⟨-, rfl, rfl⟩ | ⟨g, some_conflict, -⟩
  · have same : x.schema = schema := Except.ok.inj (x.schema_eq.symm.trans hschema)
    refine ⟨_, _, run, by rw [hnext, nextId_eq], ?_, n.groupBy_eq x⟩
    rw [← same, ← n.repetition_eq x]
    rfl
  · exact absurd (n.conflicts_eq_nil x) some_conflict

/-! ## Keeping the child -/

/-- What the projection below would expose. -/
lemma mem_ids_entries {schema : List Column} {i : ColumnId} :
    i ∈ (n.entries schema).map (·.produced.id) ↔
      (∃ k ∈ n.keys.toList, k.id = i) ∨ ∃ c ∈ n.free.toList, schema.contains c ∧ c.id = i := by
  rw [entries_eq_map, List.map_map, List.map_append, List.mem_append, List.mem_map, List.mem_map]
  refine or_congr Iff.rfl ⟨?_, ?_⟩
  · rintro ⟨p, hp, rfl⟩
    obtain ⟨c, hc, hfind⟩ := List.mem_filterMap.1 hp
    have hbeq : p == c := by simpa using List.find?_some hfind
    refine ⟨c, hc, ?_, ((Column.beq_iff _ _).1 hbeq).symm⟩
    exact List.contains_iff_exists_mem_beq.2 ⟨p, List.mem_of_find?_eq_some hfind, BEq.symm hbeq⟩
  · rintro ⟨c, hc, hexposed, rfl⟩
    obtain ⟨p, hp, hbeq⟩ := List.contains_iff_exists_mem_beq.1 hexposed
    obtain ⟨p', hp'⟩ : ∃ p', schema.find? (· == c) = some p' :=
      Option.isSome_iff_exists.1 (List.find?_isSome.2 ⟨p, hp, BEq.symm hbeq⟩)
    have hbeq' : p' == c := by simpa using List.find?_some hp'
    exact ⟨p', List.mem_filterMap.2 ⟨c, hc, hp'⟩, (Column.beq_iff _ _).1 hbeq'⟩

/-- A child that exposes the grouping columns, and besides them only columns that are put out, needs
no projection. -/
theorem child_again {schema : List Column} (nodup : (schema.map (·.id)).Nodup)
    (exposed : ∀ k ∈ n.keys.toList, ∃ c ∈ schema, c.id = k.id)
    (read : ∀ c ∈ schema, ∃ c' ∈ n.keys.toList ++ n.others, c'.id = c.id) :
    (n.again schema).child = n.child := by
  have same (i : ColumnId) :
      i ∈ (n.entries schema).map (·.produced.id) ↔ i ∈ schema.map (·.id) := by
    rw [mem_ids_entries, List.mem_map]
    constructor
    · rintro (⟨k, hk, rfl⟩ | ⟨c, -, hexposed, rfl⟩)
      · exact exposed k hk
      · obtain ⟨p, hp, hbeq⟩ := List.contains_iff_exists_mem_beq.1 hexposed
        exact ⟨p, hp, ((Column.beq_iff _ _).1 hbeq).symm⟩
    · rintro ⟨c, hc, rfl⟩
      obtain ⟨c', hc', hid⟩ := read c hc
      by_cases hkey : n.keys.contains c'
      · obtain ⟨k, hk, hbeq⟩ := (Roster.contains_iff _ _).1 hkey
        exact Or.inl ⟨k, hk, by rw [← hid, (Column.beq_iff _ _).1 hbeq]⟩
      · have hother : c' ∈ n.others := by
          refine (List.mem_append.1 hc').resolve_left fun hk => hkey ?_
          exact Roster.contains_of_mem hk
        have hfree : c' ∈ n.others.filter fun c => !n.keys.contains c :=
          List.mem_filter.2 ⟨hother, by simpa using hkey⟩
        obtain ⟨f, hf, hbeq⟩ := Roster.exists_mem_ofList hfree
        have hfid : f.id = c.id := by rw [← hid, (Column.beq_iff _ _).1 hbeq]
        exact Or.inr ⟨f, hf, List.contains_iff_exists_mem_beq.2
          ⟨c, hc, (Column.beq_iff _ _).2 hfid⟩, hfid⟩
  have perm : ((n.entries schema).map (·.produced.id)).Perm (schema.map (·.id)) :=
    (List.perm_ext_iff_of_nodup (n.nodup_ids_entries schema) nodup).2 same
  have restated : restates schema (n.entries schema) := by
    rw [restates, Bool.and_eq_true, beq_iff_eq, List.all_eq_true]
    refine ⟨by simpa using perm.length_eq, fun d hd => ?_⟩
    have hid := perm.mem_iff.1 (List.mem_map_of_mem (f := fun d => d.produced.id) hd)
    obtain ⟨c, hc, hcid⟩ := List.mem_map.1 hid
    rw [entries_eq_map] at hd
    obtain ⟨c', -, rfl⟩ := List.mem_map.1 hd
    exact List.contains_iff_exists_mem_beq.2 ⟨c, hc, (Column.beq_iff _ _).2 hcid.symm⟩
  rw [again, defineBelow, restated, Bool.or_true, if_pos rfl]

end ColumnRepetition

end GroupingPlanner

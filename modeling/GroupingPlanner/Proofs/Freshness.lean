import GroupingPlanner.Proofs.Bound
/-!
# The ids of the stack

The stack is made of what the repetition was made of, and of columns that took the ids
`next, next + 1, …` in turn: first the new aliases, then the virtual columns of grouping calls,
then the grouping id.  Hence all its ids lie below the first one that is still free.

* `Expr.mem_subterms_replace_iff`, `Expr.mem_ids_replace`: the nodes of a tree that has been
  rewritten, and their ids.
* `Repetition.mem_columns_outputAt`: the columns of the substituted output.
* `Repetition.number_lt_of_definition`: the ids of definitions.
* `Stacked.idsBelow`: the ids of the whole stack.
-/

namespace GroupingPlanner

/-! ## Ids of rewritten trees -/

namespace Expr

lemma ids_eq (e : Expr) :
    e.ids = (e.produced?.map (·.id)).toList ++ e.children.flatMap ids := by
  rw [ids, subterms_eq]
  cases h : e.produced? <;> simp only [h, Option.map_none, Option.map_some, List.filterMap_cons,
    List.filterMap_flatMap] <;> rfl

lemma id_produced?_mapChildren (f : Expr → Expr) (e : Expr) :
    (e.mapChildren f).produced?.map (·.id) = e.produced?.map (·.id) := by
  cases e <;> rfl

/-- The nodes of a rewritten tree come from the walk that stops where the rule has an answer: a node
passed is let be, over rewritten children, and at the others the answer takes the place. -/
theorem mem_subterms_replace_iff {rule : Expr → Option Expr} {e t : Expr} :
    t ∈ (e.replace rule).subterms ↔ ∃ n ∈ e.nodesUntil fun n => (rule n).isSome,
      (rule n = none ∧ t = n.mapChildren (replace rule)) ∨
        ∃ y, rule n = some y ∧ t ∈ y.subterms := by
  induction e using childrenInduction with
  | step e ih =>
    rw [replace_eq, nodesUntil_eq]
    cases hrule : rule e with
    | some y => simp [hrule]
    | none =>
      have below : (∃ c ∈ (e.mapChildren (replace rule)).children, t ∈ c.subterms) ↔
          ∃ c ∈ e.children, t ∈ (c.replace rule).subterms := by
        rw [children_mapChildren]
        simp only [List.mem_map, exists_exists_and_eq_and]
      rw [Option.getD_none, mem_subterms_iff, below]
      simp only [Option.isSome_none, Bool.false_eq_true, if_false, List.mem_cons,
        List.mem_flatMap, exists_eq_or_imp, hrule, true_and, reduceCtorEq, false_and, exists_false,
        or_false]
      refine or_congr_right ⟨?_, ?_⟩
      · rintro ⟨c, hc, ht⟩
        obtain ⟨n, hn, hcases⟩ := (ih c hc).1 ht
        exact ⟨n, ⟨c, hc, hn⟩, hcases⟩
      · rintro ⟨n, ⟨c, hc, hn⟩, hcases⟩
        exact ⟨c, hc, (ih c hc).2 ⟨n, hn, hcases⟩⟩

/-- A node of a rewritten tree is one that was let be, over rewritten children, or it comes with a
replacement. -/
theorem mem_subterms_replace {rule : Expr → Option Expr} {e t : Expr}
    (h : t ∈ (e.replace rule).subterms) :
    (∃ n ∈ e.subterms, rule n = none ∧ t = n.mapChildren (replace rule)) ∨
      ∃ n ∈ e.subterms, ∃ x, rule n = some x ∧ t ∈ x.subterms := by
  obtain ⟨n, hn, hcases⟩ := mem_subterms_replace_iff.1 h
  have stands := mem_subterms_of_mem_nodesUntil hn
  exact hcases.imp (fun let_be => ⟨n, stands, let_be⟩) fun replaced => ⟨n, stands, replaced⟩

/-- Where the rule has an answer, and none above it, the answer stands in the rewritten tree. -/
lemma mem_subterms_replace_of_walk {rule : Expr → Option Expr} {stop : Expr → Bool} {e n y : Expr}
    (answers : ∀ n ∈ e.nodesUntil stop, (rule n).isSome = stop n) (hn : n ∈ e.nodesUntil stop)
    (hy : rule n = some y) : y ∈ (e.replace rule).subterms := by
  rw [← nodesUntil_congr answers] at hn
  exact mem_subterms_replace_iff.2 ⟨n, hn, Or.inr ⟨y, hy, y.self_mem_subterms⟩⟩

/-- Every id of a rewritten tree was there before or comes with a replacement. -/
lemma mem_ids_replace {rule : Expr → Option Expr} {e : Expr} {i : ColumnId}
    (h : i ∈ (e.replace rule).ids) :
    i ∈ e.ids ∨ ∃ n ∈ e.subterms, ∃ x, rule n = some x ∧ i ∈ x.ids := by
  obtain ⟨t, ht, c, hc, rfl⟩ := mem_ids_iff.1 h
  rcases mem_subterms_replace ht with ⟨n, hn, -, rfl⟩ | ⟨n, hn, x, hx, htx⟩
  · left
    have hid := id_produced?_mapChildren (replace rule) n
    rw [hc] at hid
    obtain ⟨c', hc', hid'⟩ := Option.map_eq_some_iff.1 hid.symm
    exact mem_ids_iff.2 ⟨n, hn, c', hc', hid'⟩
  · exact Or.inr ⟨n, hn, x, hx, mem_ids_iff.2 ⟨t, htx, c, hc, rfl⟩⟩

@[simp] lemma ids_column (c : Column) : (column c).ids = [c.id] := by
  simp [ids_eq, produced?, children]

@[simp] lemma ids_virtual (v : VirtualColumn) : v.toExpr.ids = [v.column.id] := by
  obtain ⟨c, _ | call⟩ := v <;> simp [VirtualColumn.toExpr, ids_eq, produced?, children]

@[simp] lemma ids_alias (a : Alias) : a.toExpr.ids = a.id :: a.child.ids := by
  simp [Alias.toExpr, ids_eq (named a.id a.name a.child), produced?, children]

lemma id_mem_ids_of_virtual {e : Expr} {v : VirtualColumn} (h : v.toExpr ∈ e.subterms) :
    v.column.id ∈ e.ids :=
  mem_ids_of_subterm h (by rw [ids_virtual]; exact List.mem_singleton_self _)

end Expr

/-! ## Columns of the output -/

/-- The columns of a rewritten tree were there before or come with a replacement. -/
lemma Expr.mem_columns_replace {rule : Expr → Option Expr} {e : Expr} {c : Column}
    (h : c ∈ (e.replace rule).columns) :
    c ∈ e.columns ∨ ∃ n ∈ e.subterms, ∃ y, rule n = some y ∧ c ∈ y.columns := by
  rcases mem_subterms_replace (mem_columns_iff.1 h) with ⟨n, hn, -, heq⟩ | ⟨n, hn, y, hy, hcy⟩
  · left
    have hcolumn := congrArg column? heq
    rw [column?_mapChildren] at hcolumn
    rw [column?_eq_some_iff.1 hcolumn.symm] at hn
    exact mem_columns_iff.2 hn
  · exact Or.inr ⟨n, hn, y, hy, mem_columns_iff.2 hcy⟩

/-- A column of the substituted output is bound, or it was in the output before. -/
lemma Repetition.mem_columns_outputAt {r : Repetition} {next : Nat} {e : Expr}
    (he : e ∈ r.outputAt next) {c : Column} (hc : c ∈ e.columns) :
    (∃ b ∈ (r.bindingsAt next).toList, c = b.column) ∨ ∃ e₀ ∈ r.output, c ∈ e₀.columns := by
  obtain ⟨e₀, he₀, rfl⟩ := List.mem_map.1 he
  rcases Expr.mem_columns_replace hc with hc | ⟨n, -, y, hy, hcy⟩
  · exact Or.inr ⟨e₀, he₀, hc⟩
  · left
    unfold Bindings.outputRule at hy
    split at hy
    · obtain ⟨v, -, rfl⟩ := Option.map_eq_some_iff.1 hy
      rw [Expr.columns_virtual] at hcy
      exact absurd hcy List.not_mem_nil
    · obtain ⟨b, hb, rfl⟩ := Bindings.replacement?_eq_some hy
      rw [Expr.columns_column, List.mem_singleton] at hcy
      exact ⟨b, (Bindings.get?_eq_some hb).1, hcy⟩

/-! ## Ids of definitions -/

namespace Repetition

lemma le_firstCall (r : Repetition) (next : Nat) : next ≤ r.firstCall next := Nat.le_add_right _ _

lemma firstCall_le_afterCalls (r : Repetition) (next : Nat) :
    r.firstCall next ≤ r.afterCalls next := Nat.le_add_right _ _

lemma le_afterCalls (r : Repetition) (next : Nat) : next ≤ r.afterCalls next :=
  Nat.le_trans (r.le_firstCall next) (r.firstCall_le_afterCalls next)

variable {r : Repetition} {next : Nat} (below : r.toPlan.IdsBelow next)
include below

lemma number_lt_of_exprs {e : Expr} (he : e ∈ r.exprs) {i : ColumnId} (hi : i ∈ e.ids) :
    i.number < next :=
  below i (List.mem_append_left _ (List.mem_flatMap.2 ⟨e, he, hi⟩))

/-- The ids of a definition are old ones and those of new aliases. -/
lemma number_lt_of_definition {b : Binding} (hb : b ∈ (r.bindingsAt next).toList) {i : ColumnId}
    (hi : i ∈ b.definition.toExpr.ids) : i.number < r.firstCall next := by
  have hle := r.le_firstCall next
  rcases definition_occurs_or_new hb with ⟨e, he, hsub⟩ | ⟨k, -, hlt, -, hd⟩
  · exact lt_of_lt_of_le (number_lt_of_exprs below he (Expr.mem_ids_of_subterm hsub hi)) hle
  · rw [hd] at hi
    rcases List.mem_cons.1 ((Expr.ids_alias _) ▸ hi) with rfl | hi
    · exact hlt
    · obtain ⟨e, he, hsub⟩ := exists_source_mem_subterms hb
      exact lt_of_lt_of_le (number_lt_of_exprs below he (Expr.mem_ids_of_subterm hsub hi)) hle

lemma number_lt_of_binding {b : Binding} (hb : b ∈ (r.bindingsAt next).toList) :
    b.column.id.number < r.firstCall next := by
  refine number_lt_of_definition below hb ?_
  rw [Binding.id_column]
  cases b.definition <;> simp [Definition.toExpr, Definition.produced, Alias.column]

lemma number_lt_of_substitute {e : Expr} (he : e ∈ r.exprs) {i : ColumnId}
    (hi : i ∈ ((r.bindingsAt next).substitute e).ids) : i.number < r.firstCall next := by
  rcases Expr.mem_ids_replace hi with hi | ⟨n, -, x, hx, hi⟩
  · exact lt_of_lt_of_le (number_lt_of_exprs below he hi) (r.le_firstCall next)
  · obtain ⟨b, hb, rfl⟩ := Bindings.replacement?_eq_some hx
    rw [Expr.ids_column, List.mem_singleton] at hi
    rw [hi]
    exact number_lt_of_binding below (Bindings.get?_eq_some hb).1

lemma number_lt_of_output {e : Expr} (he : e ∈ r.outputAt next) {i : ColumnId} (hi : i ∈ e.ids) :
    i.number < r.afterCalls next := by
  obtain ⟨e₀, he₀, rfl⟩ := List.mem_map.1 he
  rcases Expr.mem_ids_replace hi with hi | ⟨n, -, x, hx, hi⟩
  · have hlt := number_lt_of_exprs below (List.mem_append_right _ he₀) hi
    exact lt_of_lt_of_le hlt (r.le_afterCalls next)
  · unfold Bindings.outputRule at hx
    cases hcall : n.groupingCall? with
    | none =>
      rw [hcall] at hx
      obtain ⟨b, hb, rfl⟩ := Bindings.replacement?_eq_some hx
      rw [Expr.ids_column, List.mem_singleton] at hi
      rw [hi]
      exact lt_of_lt_of_le (number_lt_of_binding below (Bindings.get?_eq_some hb).1)
        (r.firstCall_le_afterCalls next)
    | some call =>
      rw [hcall] at hx
      obtain ⟨v, hv, rfl⟩ := Option.map_eq_some_iff.1 hx
      rw [Expr.ids_virtual, List.mem_singleton] at hi
      obtain ⟨k, hk, hv⟩ := List.mem_mapIdx.1 (List.mem_of_find?_eq_some hv)
      rw [hi, ← hv]
      exact Nat.add_lt_add_left hk _

/-- The plain columns of the output are old ones and bound ones. -/
lemma number_lt_of_outputColumn {e : Expr} (he : e ∈ r.outputAt next) {c : Column}
    (hc : c ∈ e.columns) : c.id.number < r.firstCall next := by
  rcases mem_columns_outputAt he hc with ⟨b, hb, rfl⟩ | ⟨e₀, he₀, hc₀⟩
  · exact number_lt_of_binding below hb
  · refine lt_of_lt_of_le ?_ (r.le_firstCall next)
    exact number_lt_of_exprs below (List.mem_append_right _ he₀)
      (Expr.id_mem_ids_of_mem_columns hc₀)

end Repetition

/-! ## Ids of the stack -/

namespace Stacked

variable {r : Repetition} {next : Nat} (x : Stacked r next)

lemma afterCalls_le_nextId : r.afterCalls next ≤ x.nextId := by
  unfold nextId
  split
  · exact le_rfl
  · exact Nat.le_succ _

lemma firstCall_le_nextId : r.firstCall next ≤ x.nextId :=
  Nat.le_trans (r.firstCall_le_afterCalls next) x.afterCalls_le_nextId

lemma le_nextId : next ≤ x.nextId :=
  Nat.le_trans (r.le_afterCalls next) x.afterCalls_le_nextId

/-- The grouping sets hold the columns put in the place of their expressions. -/
theorem setExprs_eq :
    x.substituted.setExprs = r.sets.map (·.map (r.bindingsAt next).substitute) := by
  have column_eq : ∀ (e : Expr) (c : Column), (r.bindingsAt next).boundColumn e = .ok c →
      (r.bindingsAt next).substitute e = .column c := by
    intro e c h
    unfold Bindings.boundColumn at h
    split at h
    · cases h
      assumption
    · simp at h
  exact (map_eq_map_of_mapM_eq_ok (fun _ _ => map_eq_map_of_mapM_eq_ok column_eq) x.sets_eq).symm

lemma number_lt_of_keyColumn (below : r.toPlan.IdsBelow next) {c : Column}
    (hc : c ∈ x.substituted.keyColumns.toList) : c.id.number < r.firstCall next := by
  obtain ⟨set, hset, hc⟩ := List.mem_flatten.1 (Roster.mem_ofList hc)
  have hmem : set.map Expr.column ∈ x.substituted.setExprs := List.mem_map_of_mem hset
  rw [setExprs_eq] at hmem
  obtain ⟨es, hes, heq⟩ := List.mem_map.1 hmem
  have hcol : Expr.column c ∈ es.map (r.bindingsAt next).substitute := by
    rw [heq]
    exact List.mem_map_of_mem hc
  obtain ⟨e, he, hsub⟩ := List.mem_map.1 hcol
  refine Repetition.number_lt_of_substitute below
    (List.mem_append_left _ (List.mem_flatten.2 ⟨es, hes, he⟩)) ?_
  rw [hsub, Expr.ids_column]
  exact List.mem_singleton_self _

lemma number_lt_of_virtual (below : r.toPlan.IdsBelow next) {v : VirtualColumn}
    (hv : v ∈ x.substituted.virtualColumns x.groupingId) : v.column.id.number < x.nextId := by
  have occurring : ∀ v ∈ x.substituted.virtualOccurrences, v.column.id.number < x.nextId := by
    intro v hv
    obtain ⟨t, ht, hvt⟩ := List.mem_filterMap.1 hv
    obtain ⟨e, he, hte⟩ := List.mem_flatMap.1 ht
    rw [Expr.virtual?_eq_some_iff.1 hvt] at hte
    exact lt_of_lt_of_le
      (Repetition.number_lt_of_output below he (Expr.id_mem_ids_of_virtual hte))
      x.afterCalls_le_nextId
  rcases List.mem_cons.1 hv with rfl | hv
  · unfold groupingId
    cases hgid : x.substituted.groupingIdColumn? with
    | some w => exact occurring w (List.mem_of_find?_eq_some hgid)
    | none =>
      rw [nextId, hgid]
      exact Nat.lt_succ_self _
  · exact occurring v (List.mem_of_mem_filter (Roster.mem_ofList hv))

lemma number_lt_of_child (below : r.toPlan.IdsBelow next) {i : ColumnId}
    (hi : i ∈ x.repetition.child.ids) : i.number < r.firstCall next := by
  have hle := r.le_firstCall next
  have old : ∀ i ∈ r.child.ids, i.number < r.firstCall next := fun i hi =>
    lt_of_lt_of_le (below i (List.mem_append_right _ hi)) hle
  simp only [repetition, defineBelow] at hi
  split at hi
  · exact old i hi
  · rcases List.mem_append.1 hi with hi | hi
    · obtain ⟨e, he, hie⟩ := List.mem_flatMap.1 hi
      obtain ⟨d, hd, rfl⟩ := List.mem_map.1 he
      rcases List.mem_append.1 hd with hd | hd
      · obtain ⟨b, hb, rfl⟩ := List.mem_map.1 (Roster.mem_ofList hd)
        exact Repetition.number_lt_of_definition below hb hie
      · obtain ⟨c, hc, rfl⟩ := List.mem_map.1 hd
        obtain ⟨c', -, hfind⟩ := List.mem_filterMap.1 hc
        rw [Definition.toExpr, Expr.ids_column, List.mem_singleton] at hie
        rw [hie]
        exact old _ (Plan.id_mem_ids_of_schema x.schema_eq (List.mem_of_find?_eq_some hfind))
    · exact old i hi

lemma number_lt_of_otherColumn (below : r.toPlan.IdsBelow next) {c : Column}
    (hc : c ∈ x.substituted.otherColumns.toList) : c.id.number < r.firstCall next := by
  obtain ⟨e, he, hce⟩ := List.mem_flatMap.1 (List.mem_of_mem_filter (Roster.mem_ofList hc))
  exact Repetition.number_lt_of_outputColumn below he hce

/-- All ids of the stack lie below the first one that is free after it. -/
theorem idsBelow (below : r.toPlan.IdsBelow next) : x.aggregation.toPlan.IdsBelow x.nextId := by
  have hle := x.firstCall_le_nextId
  have key : ∀ c ∈ x.substituted.keyColumns.toList, c.id.number < x.nextId := fun c hc =>
    lt_of_lt_of_le (x.number_lt_of_keyColumn below hc) hle
  have virtual : ∀ e ∈ (x.substituted.virtualColumns x.groupingId).map VirtualColumn.toExpr,
      ∀ i ∈ e.ids, i.number < x.nextId := by
    intro e he i hi
    obtain ⟨v, hv, rfl⟩ := List.mem_map.1 he
    rw [Expr.ids_virtual, List.mem_singleton] at hi
    rw [hi]
    exact x.number_lt_of_virtual below hv
  have column : ∀ cs : List Column, (∀ c ∈ cs, c.id.number < x.nextId) →
      ∀ e ∈ cs.map Expr.column, ∀ i ∈ e.ids, i.number < x.nextId := by
    intro cs hcs e he i hi
    obtain ⟨c, hc, rfl⟩ := List.mem_map.1 he
    rw [Expr.ids_column, List.mem_singleton] at hi
    rw [hi]
    exact hcs c hc
  have output : ∀ e ∈ r.outputAt next, ∀ i ∈ e.ids, i.number < x.nextId := fun e he i hi =>
    lt_of_lt_of_le (Repetition.number_lt_of_output below he hi) x.afterCalls_le_nextId
  have sets : ∀ e ∈ x.substituted.setExprs.flatten, ∀ i ∈ e.ids, i.number < x.nextId := by
    intro e he i hi
    rw [setExprs_eq] at he
    obtain ⟨set, hset, he⟩ := List.mem_flatten.1 he
    obtain ⟨es, hes, rfl⟩ := List.mem_map.1 hset
    obtain ⟨e₀, he₀, rfl⟩ := List.mem_map.1 he
    exact lt_of_lt_of_le (Repetition.number_lt_of_substitute below
      (List.mem_append_left _ (List.mem_flatten.2 ⟨es, hes, he₀⟩)) hi) hle
  intro i hi
  rcases List.mem_append.1 hi with hi | hi
  · obtain ⟨e, he, hie⟩ := List.mem_flatMap.1 hi
    rcases List.mem_append.1 he with he | he
    · rcases List.mem_append.1 he with he | he
      · exact column _ key e he i hie
      · exact virtual e he i hie
    · exact output e he i hie
  · rcases List.mem_append.1 hi with hi | hi
    · obtain ⟨e, he, hie⟩ := List.mem_flatMap.1 hi
      rcases List.mem_append.1 he with he | he
      · exact sets e he i hie
      · rcases List.mem_append.1 he with he | he
        · refine column _ (fun c hc => ?_) e he i hie
          rcases List.mem_append.1 hc with hc | hc
          · exact key c hc
          · exact lt_of_lt_of_le (x.number_lt_of_otherColumn below hc) hle
        · exact virtual e he i hie
    · exact lt_of_lt_of_le (x.number_lt_of_child below hi) hle

end Stacked
end GroupingPlanner

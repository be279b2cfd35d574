import GroupingPlanner.Proofs.ColumnOrder
import GroupingPlanner.Proofs.NewColumns
/-!
# Every id that is taken is used

Where all ids of a query are taken, an id of the result is an id of the query, or it belongs to one
of the columns that lowering makes up.  The nodes of the result show this one by one: a node with
an id is the new column itself, where it is defined or put out, or it reads the new column under its
name and with its type.  Since the new columns stand in the result, its ids besides those of the
query are exactly those that have been taken.

* `Plan.nodes`, `Plan.mem_ids_iff`: the nodes that carry the ids of a plan.
* `NewColumns.Owns`: the nodes that belong to a new column.
* `Stacked.accounted_child`, `Stacked.accounted_output`, `Stacked.accounted`: whose the nodes are,
  part by part.
* `Stacked.Takes`: what ids are taken for.
* `Repetition.lower_takenIds`: which ids are taken, in which order, and by what.
-/

namespace GroupingPlanner

/-! ## Nodes -/

namespace Plan

/-- The nodes of all expressions in a plan; a scan has its columns for nodes. -/
def nodes : Plan → List Expr
  | scan _ columns => columns.map Expr.column
  | projection list child => list.flatMap Expr.subterms ++ nodes child
  | repetition sets output child => (sets.flatten ++ output).flatMap Expr.subterms ++ nodes child
  | aggregation groupBy output child => (groupBy ++ output).flatMap Expr.subterms ++ nodes child

lemma mem_ids_iff {p : Plan} {i : ColumnId} :
    i ∈ p.ids ↔ ∃ t ∈ p.nodes, ∃ c, t.produced? = some c ∧ c.id = i := by
  have trees (es : List Expr) : i ∈ es.flatMap Expr.ids ↔
      ∃ t ∈ es.flatMap Expr.subterms, ∃ c, t.produced? = some c ∧ c.id = i := by
    simp only [List.mem_flatMap, Expr.mem_ids_iff]
    constructor
    · rintro ⟨e, he, t, ht, hc⟩
      exact ⟨t, ⟨e, he, ht⟩, hc⟩
    · rintro ⟨t, ⟨e, he, ht⟩, hc⟩
      exact ⟨e, he, t, ht, hc⟩
  induction p with
  | scan relation columns => simp [ids, nodes, Expr.produced?]
  | projection list child ih | repetition sets output child ih
    | aggregation groupBy output child ih =>
    simp only [ids, nodes, List.mem_append, trees, ih, or_and_right, exists_or]

lemma mem_nodes_of_listed {p : Plan} {e t : Expr} (he : e ∈ p.listed) (ht : t ∈ e.subterms) :
    t ∈ p.nodes := by
  cases p with
  | projection list child => exact List.mem_append_left _ (List.mem_flatMap.2 ⟨e, he, ht⟩)
  | _ => exact absurd he List.not_mem_nil

end Plan

namespace NewColumns

variable (new : NewColumns)

/-- A node belongs to a new column: it is the virtual column or the alias, or it reads the column of
the alias, which may be null where the alias is not. -/
def Owns (t : Expr) : Prop :=
  (∃ v ∈ new.virtuals, t = v.toExpr) ∨ ∃ b ∈ new.allAliases, t = b.toExpr ∨
    ∃ c, t = .column c ∧ c.id = b.id ∧ c.name = b.name ∧ c.type = b.child.type

variable {new}

/-- A node that belongs to a new column has its id. -/
lemma Owns.mem_numbers {t : Expr} (h : new.Owns t) {c : Column} (hc : t.produced? = some c) :
    c.id.number ∈ new.numbers := by
  have alias_id {b : Alias} (hb : b ∈ new.allAliases) : b.id.number ∈ new.numbers := by
    rcases List.mem_append.1 hb with hb | hb
    · exact List.mem_append_left _ (List.mem_append_left _ (List.mem_map_of_mem hb))
    · obtain ⟨d, hd, rfl⟩ := List.mem_map.1 hb
      exact List.mem_append_right _ (List.mem_map.2 ⟨d, hd, rfl⟩)
  rcases h with ⟨v, hv, rfl⟩ | ⟨b, hb, rfl | ⟨c', rfl, hid, -, -⟩⟩
  · rw [VirtualColumn.produced?_toExpr, Option.some.injEq] at hc
    rw [← hc]
    exact List.mem_append_left _ (List.mem_append_right _ (List.mem_map_of_mem hv))
  · rw [Alias.produced?_toExpr, Option.some.injEq] at hc
    rw [← hc]
    exact alias_id hb
  · obtain rfl := Option.some.inj hc
    rw [hid]
    exact alias_id hb

/-- Every number is that of an alias or a virtual column. -/
lemma exists_of_mem_numbers {k : Nat} (hk : k ∈ new.numbers) :
    (∃ b ∈ new.allAliases, b.id.number = k) ∨ ∃ v ∈ new.virtuals, v.column.id.number = k := by
  rcases List.mem_append.1 hk with hk | hk
  · rcases List.mem_append.1 hk with hk | hk
    · obtain ⟨b, hb, rfl⟩ := List.mem_map.1 hk
      exact Or.inl ⟨b, List.mem_append_left _ hb, rfl⟩
    · obtain ⟨v, hv, rfl⟩ := List.mem_map.1 hk
      exact Or.inr ⟨v, hv, rfl⟩
  · obtain ⟨d, hd, rfl⟩ := List.mem_map.1 hk
    exact Or.inl ⟨d.definition, List.mem_append_right _ (List.mem_map_of_mem hd), rfl⟩

end NewColumns

/-! ## Whose the nodes are -/

namespace Stacked

variable {r : Repetition} {next : Nat} (x : Stacked r next) (ds : List Duplicate)

/-- A node has no id, an id of the query, or it belongs to a new column. -/
def Accounted (t : Expr) : Prop :=
  ∀ c, t.produced? = some c → c.id ∈ r.toPlan.ids ∨ (x.newColumns ds).Owns t

variable {x ds}

lemma accounted_of_exprs {e t : Expr} (he : e ∈ r.exprs) (ht : t ∈ e.subterms) :
    x.Accounted ds t := fun c hc => Or.inl (List.mem_append_left _ (List.mem_flatMap.2
  ⟨e, he, Expr.mem_ids_iff.2 ⟨t, ht, c, hc, rfl⟩⟩))

lemma accounted_of_child {t : Expr} (ht : t ∈ r.child.nodes) : x.Accounted ds t := fun c hc =>
  Or.inl (List.mem_append_right _ (Plan.mem_ids_iff.2 ⟨t, ht, c, hc, rfl⟩))

lemma accounted_of_schema {c : Column} (hc : c ∈ x.schema) : x.Accounted ds (.column c) := by
  intro c' hc'
  obtain rfl := Option.some.inj hc'
  exact Or.inl (List.mem_append_right _ (Plan.id_mem_ids_of_schema x.schema_eq hc))

/-- The nodes of a definition. -/
lemma accounted_definition {b : Binding} (hb : b ∈ (r.bindingsAt next).toList) {t : Expr}
    (ht : t ∈ b.definition.toExpr.subterms) : x.Accounted ds t := by
  rcases Repetition.definition_occurs_or_new hb with ⟨e, he, hsub⟩ | ⟨k, -, -, none, hdef⟩
  · exact accounted_of_exprs he (Expr.subterms_trans ht hsub)
  · rw [hdef] at ht
    rcases Expr.mem_subterms_iff.1 ht with rfl | ⟨source, hsource, ht⟩
    · intro c _
      have hnew : Alias.ofExpr ⟨k⟩ b.source ∈ r.newAliases next :=
        Repetition.mem_newAliases_iff.2 ⟨b, hb, none, hdef⟩
      exact Or.inr (Or.inr ⟨_, List.mem_append_left _ hnew, Or.inl rfl⟩)
    · obtain rfl := List.mem_singleton.1 hsource
      obtain ⟨e, he, hsub⟩ := Repetition.exists_source_mem_subterms hb
      exact accounted_of_exprs he (Expr.subterms_trans ht hsub)

/-- The column bound to an expression. -/
lemma accounted_binding {b : Binding} (hb : b ∈ (r.bindingsAt next).toList) :
    x.Accounted ds (.column b.column) := by
  intro c hc
  obtain rfl := Option.some.inj hc
  rcases Repetition.definition_occurs_or_new hb with ⟨e, he, hsub⟩ | ⟨k, -, -, none, hdef⟩
  · left
    rw [Binding.id_column]
    exact List.mem_append_left _ (List.mem_flatMap.2 ⟨e, he, Expr.mem_ids_iff.2
      ⟨_, hsub, _, Definition.produced?_toExpr _, rfl⟩⟩)
  · have hnew : Alias.ofExpr ⟨k⟩ b.source ∈ r.newAliases next :=
      Repetition.mem_newAliases_iff.2 ⟨b, hb, none, hdef⟩
    have reads : b.column.id = ⟨k⟩ ∧ b.column.name = b.source.text ∧
        b.column.type = b.source.type := by
      unfold Binding.column
      rw [hdef]
      split <;> exact ⟨rfl, rfl, rfl⟩
    exact Or.inr (Or.inr ⟨_, List.mem_append_left _ hnew, Or.inr ⟨_, rfl, reads⟩⟩)

lemma accounted_virtual {v : VirtualColumn} (hv : v ∈ (x.newColumns ds).virtuals) :
    x.Accounted ds v.toExpr := fun _ _ => Or.inr (Or.inl ⟨v, hv, rfl⟩)

/-- The nodes of the substituted output. -/
lemma accounted_outputAt {e t : Expr} (he : e ∈ r.outputAt next) (ht : t ∈ e.subterms) :
    x.Accounted ds t := by
  obtain ⟨e₀, he₀, rfl⟩ := List.mem_map.1 he
  rcases Expr.mem_subterms_replace ht with ⟨n, hn, -, rfl⟩ | ⟨n, -, y, hy, hty⟩
  · intro c hc
    have hid := Expr.id_produced?_mapChildren
      (Expr.replace ((r.bindingsAt next).outputRule (r.callColumnsAt next))) n
    rw [hc] at hid
    obtain ⟨c', hc', hid⟩ := Option.map_eq_some_iff.1 hid.symm
    exact Or.inl (List.mem_append_left _ (List.mem_flatMap.2 ⟨e₀, List.mem_append_right _ he₀,
      Expr.mem_ids_iff.2 ⟨n, hn, c', hc', hid⟩⟩))
  · unfold Bindings.outputRule at hy
    split at hy
    · obtain ⟨v, hv, rfl⟩ := Option.map_eq_some_iff.1 hy
      rw [Expr.subterms_virtual, List.mem_singleton] at hty
      rw [hty]
      exact accounted_virtual (List.mem_append_left _ (List.mem_of_find?_eq_some hv))
    · obtain ⟨b, hget, rfl⟩ := Bindings.replacement?_eq_some hy
      rw [Expr.subterms_column, List.mem_singleton] at hty
      rw [hty]
      exact accounted_binding (Bindings.get?_eq_some hget).1

/-- Aliases of the substituted output are aliases of the query. -/
lemma old_of_mem_aliasIds {e : Expr} (he : e ∈ r.outputAt next) {i : ColumnId}
    (hi : i ∈ e.aliasIds) : i ∈ r.toPlan.ids := by
  obtain ⟨e₀, he₀, rfl⟩ := List.mem_map.1 he
  obtain ⟨t, ht, hti⟩ := List.mem_filterMap.1 hi
  rcases Expr.mem_subterms_replace ht with ⟨n, hn, -, rfl⟩ | ⟨n, -, y, hy, hty⟩
  · rw [Expr.id_alias?_mapChildren] at hti
    obtain ⟨b, hb, rfl⟩ := Option.map_eq_some_iff.1 hti
    obtain rfl := Expr.alias?_eq_some_iff.1 hb
    exact List.mem_append_left _ (List.mem_flatMap.2 ⟨e₀, List.mem_append_right _ he₀,
      Expr.mem_ids_iff.2 ⟨_, hn, _, Alias.produced?_toExpr b, rfl⟩⟩)
  · -- What is put in the place of a node is no alias.
    exfalso
    unfold Bindings.outputRule at hy
    split at hy
    · obtain ⟨v, -, rfl⟩ := Option.map_eq_some_iff.1 hy
      rw [Expr.subterms_virtual, List.mem_singleton] at hty
      rw [hty] at hti
      obtain ⟨c, _ | call⟩ := v <;> cases hti
    · obtain ⟨b, -, rfl⟩ := Bindings.replacement?_eq_some hy
      rw [Expr.subterms_column, List.mem_singleton] at hty
      rw [hty] at hti
      cases hti

lemma accounted_setColumn {c : Column} (hc : c ∈ x.sets.flatten) :
    x.Accounted ds (.column c) := by
  obtain ⟨item, -, b, hget, rfl⟩ := x.exists_binding_of_mem_sets hc
  exact accounted_binding (Bindings.get?_eq_some hget).1

lemma accounted_keyColumn {c : Column} (hc : c ∈ x.substituted.keyColumns.toList) :
    x.Accounted ds (.column c) := accounted_setColumn (Roster.mem_ofList hc)

lemma accounted_readColumn {c : Column} (hc : c ∈ x.readColumns) :
    x.Accounted ds (.column c) := by
  rcases List.mem_append.1 hc with hc | hc
  · exact accounted_keyColumn hc
  · obtain ⟨e, he, hc⟩ := List.mem_flatMap.1 (List.mem_of_mem_filter (Roster.mem_ofList hc))
    exact accounted_outputAt he (Expr.mem_columns_iff.1 hc)

lemma accounted_virtualOccurrence {v : VirtualColumn}
    (hv : v ∈ x.substituted.virtualOccurrences) : x.Accounted ds v.toExpr := by
  obtain ⟨t, ht, hvt⟩ := List.mem_filterMap.1 hv
  obtain ⟨e, he, ht⟩ := List.mem_flatMap.1 ht
  rw [Expr.virtual?_eq_some_iff.1 hvt] at ht
  exact accounted_outputAt he ht

lemma accounted_virtualColumn {v : VirtualColumn}
    (hv : v ∈ x.substituted.virtualColumns x.groupingId) : x.Accounted ds v.toExpr := by
  rcases List.mem_cons.1 hv with rfl | hv
  · unfold groupingId
    cases hfind : x.substituted.groupingIdColumn? with
    | some v => exact accounted_virtualOccurrence (List.mem_of_find?_eq_some hfind)
    | none =>
      refine accounted_virtual (List.mem_append_right _ ?_)
      rw [newColumns, hfind]
      exact List.mem_singleton_self _
  · exact accounted_virtualOccurrence (List.mem_of_mem_filter (Roster.mem_ofList hv))

/-! ## Below the repetition -/

/-- The nodes below the stack. -/
lemma accounted_child {t : Expr} (ht : t ∈ x.repetition.child.nodes) : x.Accounted ds t := by
  rcases x.child_cases with hput | ⟨hkept, -⟩
  · rw [hput] at ht
    rcases List.mem_append.1 ht with ht | ht
    · obtain ⟨e, he, ht⟩ := List.mem_flatMap.1 ht
      obtain ⟨d, hd, rfl⟩ := List.mem_map.1 he
      rcases x.entry_cases hd with ⟨b, hb, rfl⟩ | ⟨c, hc, rfl, -⟩
      · exact accounted_definition hb ht
      · obtain rfl := List.mem_singleton.1 ht
        exact accounted_of_schema hc
    · exact accounted_of_child ht
  · rw [hkept] at ht
    exact accounted_of_child ht

section Lowered

variable {a : Aggregation} {child : Plan} (lowered : x.Lowered a (ds.map (·.copy)) child)
  (duplicated : x.Duplicated a ds child)
include lowered duplicated

/-- The nodes below the repetition once duplicates are defined there. -/
lemma accounted_below {t : Expr} (ht : t ∈ child.nodes) : x.Accounted ds t := by
  by_cases hds : ds = []
  · rw [lowered.kept (by rw [hds]; rfl)] at ht
    exact accounted_child ht
  obtain ⟨list, input, hchild, hground, source⟩ := duplicated.defined hds
  have listed {e t : Expr} (he : e ∈ list) (ht : t ∈ e.subterms) : x.Accounted ds t := by
    rcases hground with hlist | ⟨-, -, hlist⟩
    · refine accounted_child ?_
      rw [hlist]
      exact List.mem_append_left _ (List.mem_flatMap.2 ⟨e, he, ht⟩)
    · rw [hlist] at he
      obtain ⟨c, hc, rfl⟩ := List.mem_map.1 he
      obtain rfl := List.mem_singleton.1 ht
      exact accounted_of_schema hc
  rw [hchild] at ht
  rcases List.mem_append.1 ht with ht | ht
  · obtain ⟨e, he, ht⟩ := List.mem_flatMap.1 ht
    rcases List.mem_append.1 he with he | he
    · exact listed he ht
    · obtain ⟨d, hd, rfl⟩ := List.mem_map.1 he
      rcases Expr.mem_subterms_iff.1 ht with rfl | ⟨y, hy, ht⟩
      · intro c _
        exact Or.inr (Or.inr ⟨d.definition, List.mem_append_right _ (List.mem_map_of_mem hd),
          Or.inl rfl⟩)
      · -- A duplicate is evaluated by what an entry evaluates.
        obtain rfl := List.mem_singleton.1 hy
        obtain ⟨entry, hentry, -, hexpr⟩ := definingExpr?_eq_some (source d hd)
        rw [← hexpr] at ht
        exact listed hentry (Expr.subterms_trans ht entry.expr_mem_subterms)
  · rcases hground with hlist | ⟨-, hinput, -⟩
    · refine accounted_child ?_
      rw [hlist]
      exact List.mem_append_right _ ht
    · rw [hinput] at ht
      exact accounted_of_child ht

omit lowered in
/-- The nodes of the output. -/
lemma accounted_output {e t : Expr} (he : e ∈ a.output) (ht : t ∈ e.subterms) :
    x.Accounted ds t := by
  intro c hc
  cases t with
  | column c' =>
    have read : c' ∈ a.columns := List.mem_flatMap.2 ⟨e, he, Expr.mem_columns_iff.2 ht⟩
    rw [Aggregation.columns, duplicated.output] at read
    rcases mem_columns_renamed read with read | ⟨d, hd, rfl⟩
    · obtain ⟨e₀, he₀, hc'⟩ := List.mem_flatMap.1 read
      exact accounted_outputAt he₀ (Expr.mem_columns_iff.1 hc') c hc
    · exact Or.inr (Or.inr ⟨d.definition, List.mem_append_right _ (List.mem_map_of_mem hd),
        Or.inr ⟨_, rfl, rfl, rfl, rfl⟩⟩)
  | groupingIdColumn c' =>
    have occurs : (⟨c', .groupingId⟩ : VirtualColumn) ∈ a.virtuals :=
      List.mem_flatMap.2 ⟨e, he, Expr.mem_virtuals_iff.2 ht⟩
    rw [duplicated.virtuals_eq] at occurs
    exact accounted_virtualOccurrence occurs c hc
  | callColumn c' fn args =>
    have occurs : (⟨c', .call ⟨fn, args⟩⟩ : VirtualColumn) ∈ a.virtuals :=
      List.mem_flatMap.2 ⟨e, he, Expr.mem_virtuals_iff.2 ht⟩
    rw [duplicated.virtuals_eq] at occurs
    exact accounted_virtualOccurrence occurs c hc
  | named id name child =>
    obtain rfl := Option.some.inj hc
    have hid : id ∈ e.aliasIds := List.mem_filterMap.2 ⟨_, ht, rfl⟩
    rw [duplicated.output] at he
    obtain ⟨e₀, he₀, rfl⟩ := List.mem_map.1 he
    rw [Expr.aliasIds_renamed] at hid
    exact Or.inl (old_of_mem_aliasIds he₀ hid)
  | _ => cases hc

/-- Every node of the result is accounted for. -/
theorem accounted {t : Expr} (ht : t ∈ a.toPlan.nodes) : x.Accounted ds t := by
  have columns {cs : List Column} (hcs : ∀ c ∈ cs, x.Accounted ds (.column c)) {e : Expr}
      (he : e ∈ cs.map Expr.column) (ht : t ∈ e.subterms) : x.Accounted ds t := by
    obtain ⟨c, hc, rfl⟩ := List.mem_map.1 he
    obtain rfl := List.mem_singleton.1 ht
    exact hcs c hc
  have virtuals {e : Expr} (he : e ∈ (x.withCopies (ds.map (·.copy)) child).virtuals.map
      VirtualColumn.toExpr) (ht : t ∈ e.subterms) : x.Accounted ds t := by
    obtain ⟨v, hv, rfl⟩ := List.mem_map.1 he
    rw [Expr.subterms_virtual, List.mem_singleton] at ht
    rw [ht]
    exact accounted_virtualColumn hv
  have putOut : ∀ c ∈ (x.withCopies (ds.map (·.copy)) child).keys.toList ++
      (x.withCopies (ds.map (·.copy)) child).others, x.Accounted ds (.column c) := by
    intro c hc
    rcases List.mem_append.1 hc with hc | hc
    · exact accounted_keyColumn hc
    · rcases List.mem_append.1 hc with hc | hc
      · exact accounted_readColumn (List.mem_append_right _ hc)
      · obtain ⟨d, hd, rfl⟩ := List.mem_map.1 hc
        intro c' _
        exact Or.inr (Or.inr ⟨d.definition, List.mem_append_right _ (List.mem_map_of_mem hd),
          Or.inr ⟨_, rfl, rfl, rfl, rfl⟩⟩)
  rw [Aggregation.toPlan, Plan.nodes, lowered.child_eq, lowered.groupBy_eq] at ht
  rcases List.mem_append.1 ht with ht | ht
  · obtain ⟨e, he, ht⟩ := List.mem_flatMap.1 ht
    rcases List.mem_append.1 he with he | he
    · rcases List.mem_append.1 he with he | he
      · exact columns (fun c hc => accounted_keyColumn hc) he ht
      · exact virtuals he ht
    · exact accounted_output duplicated he ht
  · rcases List.mem_append.1 ht with ht | ht
    · obtain ⟨e, he, ht⟩ := List.mem_flatMap.1 ht
      rcases List.mem_append.1 he with he | he
      · rw [ColumnRepetition.flatten_sets] at he
        exact columns (fun c hc => accounted_setColumn hc) he ht
      · rcases List.mem_append.1 he with he | he
        · exact columns putOut he ht
        · exact virtuals he ht
    · exact accounted_below lowered duplicated ht

end Lowered

/-! ## What the ids are taken for -/

/-- The repetition becomes the aggregation `a` over the repetition `r'`, and `new` are the columns
made up.  The ids from `next` on are taken for them, and `last` is the first one that is free
afterwards. -/
structure Takes (x : Stacked r next) (a : Aggregation) (r' : Repetition) (new : NewColumns)
    (last : Nat) : Prop where
  /-- The first ids are taken for the expressions evaluated below that have no name. -/
  aliases : new.aliases = r.newAliases next
  /-- Then there is one for each signature of grouping calls. -/
  calls : new.calls = r.callColumnsAt next
  /-- The grouping id takes one if there is none in the output. -/
  groupingId : new.groupingId? = if a.virtuals.any VirtualColumn.standsForId then none
    else some (.ofGroupingId ⟨r.afterCalls next⟩)
  /-- The last ones are taken for duplicates, in the order of the grouping columns. -/
  duplicates : new.duplicates.map (·.column) =
    r'.setColumns.toList.filter x.aggregation.readByAggregates.contains
  /-- No id is left out or taken twice. -/
  numbers : new.numbers = List.range' next (last - next)
  /-- The ids of the result are those taken, besides ids of the query. -/
  ids : ∀ i, i ∈ a.toPlan.ids ∧ i ∉ r.toPlan.ids ↔ next ≤ i.number ∧ i.number < last
  /-- Each new alias is defined below, and nothing else is defined there with its id. -/
  defined : ∀ b ∈ new.allAliases, r'.child.entriesFor b.id = [b.toExpr]
  /-- Each new virtual column is put out. -/
  putOut : ∀ v ∈ new.virtuals, v.toExpr ∈ r'.output
  /-- Wherever an id stands that was taken, it is that of one and the same new column. -/
  owns : ∀ t ∈ a.toPlan.nodes, ∀ c, t.produced? = some c → next ≤ c.id.number → new.Owns t

lemma groupingId?_newColumns {a : Aggregation} {child : Plan}
    (duplicated : x.Duplicated a ds child) : (x.newColumns ds).groupingId? =
      if a.virtuals.any VirtualColumn.standsForId then none
      else some (.ofGroupingId ⟨r.afterCalls next⟩) := by
  have same : x.substituted.groupingIdColumn?.isSome =
      a.virtuals.any VirtualColumn.standsForId := by
    rw [Bool.eq_iff_iff, duplicated.virtuals_eq, Substituted.groupingIdColumn?, List.find?_isSome,
      List.any_eq_true]
  rw [newColumns, same]

/-- Lowering takes ids for new columns and for nothing else. -/
theorem takes (below : r.toPlan.IdsBelow next) {a : Aggregation} {child : Plan}
    (lowered : x.Lowered a (ds.map (·.copy)) child) (duplicated : x.Duplicated a ds child) :
    x.Takes a (x.withCopies (ds.map (·.copy)) child).toRepetition (x.newColumns ds)
      (x.nextId + ds.length) := by
  have fresh := lowered.fresh
  rw [List.map_map, List.length_map] at fresh
  have numbers := x.numbers_newColumns fresh
  have hle := x.le_nextId
  have range {k : Nat} : k ∈ (x.newColumns ds).numbers ↔ next ≤ k ∧ k < x.nextId + ds.length := by
    rw [numbers, List.mem_range'_1]
    omega
  have defined : ∀ b ∈ (x.newColumns ds).allAliases, child.entriesFor b.id = [b.toExpr] :=
    fun b hb => x.entriesFor_child below lowered duplicated hb
  have putOut : ∀ v ∈ (x.newColumns ds).virtuals,
      v.toExpr ∈ (x.withCopies (ds.map (·.copy)) child).toRepetition.output := fun v hv =>
    List.mem_append_right _ (List.mem_map_of_mem (x.mem_virtualColumns_of_new below hv))
  have not_old {i : ColumnId} (hi : next ≤ i.number) : i ∉ r.toPlan.ids := fun hold =>
    absurd (below i hold) (Nat.not_lt.2 hi)
  -- New columns stand in the result.
  have stands {k : Nat} (hk : k ∈ (x.newColumns ds).numbers) :
      (⟨k⟩ : ColumnId) ∈ a.toPlan.ids := by
    rw [Plan.mem_ids_iff, Aggregation.toPlan, Plan.nodes, lowered.child_eq]
    rcases NewColumns.exists_of_mem_numbers hk with ⟨b, hb, rfl⟩ | ⟨v, hv, rfl⟩
    · have hmem : b.toExpr ∈ child.entriesFor b.id := by
        rw [defined b hb]
        exact List.mem_singleton_self _
      exact ⟨b.toExpr, List.mem_append_right _ (List.mem_append_right _
        (Plan.mem_nodes_of_listed (List.mem_of_mem_filter hmem) (Expr.self_mem_subterms _))),
        b.column, Alias.produced?_toExpr b, rfl⟩
    · exact ⟨v.toExpr, List.mem_append_right _ (List.mem_append_left _ (List.mem_flatMap.2
        ⟨_, List.mem_append_right _ (putOut v hv), Expr.self_mem_subterms _⟩)),
        v.column, VirtualColumn.produced?_toExpr v, rfl⟩
  constructor
  case aliases => rfl
  case calls => rfl
  case groupingId => exact groupingId?_newColumns duplicated
  case duplicates =>
    refine duplicated.columns.trans ?_
    rw [← x.setColumns_eq]
    rfl
  case numbers => exact numbers
  case ids =>
    intro i
    constructor
    · rintro ⟨hi, hnot⟩
      obtain ⟨t, ht, c, hc, rfl⟩ := Plan.mem_ids_iff.1 hi
      have owned := (accounted lowered duplicated ht c hc).resolve_left hnot
      exact range.1 (owned.mem_numbers hc)
    · rintro ⟨hge, hlt⟩
      exact ⟨stands (range.2 ⟨hge, hlt⟩), not_old hge⟩
  case defined => exact defined
  case putOut => exact putOut
  case owns =>
    intro t ht c hc hge
    exact (accounted lowered duplicated ht c hc).resolve_left (not_old hge)

end Stacked

/-- Lowering a query whose ids are all taken takes the next ones, one after the other, for columns
that it makes up, and each of them is the id of one such column in the result. -/
theorem Repetition.lower_takenIds {r : Repetition} {settings : Settings} {s s' : Session}
    {a : Aggregation} (below : r.toPlan.IdsBelow s.nextId)
    (run : (r.lower settings).runIn s = (.ok a, s')) :
    ∃ (x : Stacked r s.nextId) (r' : Repetition) (new : NewColumns),
      a.child = r'.toPlan ∧ x.Takes a r' new s'.nextId := by
  obtain ⟨-, -, x, s₁, hnext, run⟩ := lower_eq_ok run
  obtain ⟨ds, child, lowered, duplicated, hlast⟩ := x.duplicated_of_separate hnext run
  rw [hlast]
  exact ⟨x, _, _, lowered.child_eq, Stacked.takes below lowered duplicated⟩

theorem Repetition.lower_takenIds_markedSums :
    markedSums.toPlan.IdsBelow 5 ∧
      ∃ a s', (markedSums.lower {}).runIn { nextId := 5 } = (.ok a, s') ∧
        ∃ (x : Stacked markedSums 5) (r' : Repetition) (new : NewColumns), a.child = r'.toPlan ∧
          x.Takes a r' new 9 ∧ new.numbers = [5, 6, 7, 8] := by
  have below := markedSums_hygienic.below
  obtain ⟨a, s', run, hlast⟩ : ∃ a s', (markedSums.lower {}).runIn { nextId := 5 } = (.ok a, s') ∧
      s'.nextId = 9 := ⟨_, _, rfl, rfl⟩
  obtain ⟨x, r', new, hchild, takes⟩ := lower_takenIds below run
  rw [hlast] at takes
  exact ⟨below, a, s', run, x, r', new, hchild, takes, takes.numbers⟩

end GroupingPlanner

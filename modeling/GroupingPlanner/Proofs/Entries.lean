import GroupingPlanner.Proofs.Freshness
import GroupingPlanner.Lowering.Duplicates
/-!
# What the projection evaluates

The projection below a repetition lists each definition once, and a column that several bindings
share is evaluated by the definition that came first.  In a hygienic repetition this makes no
difference: whichever definition was kept, it evaluates the expression that the column stands for.

* `definingExpr?_toExpr`: what evaluates a column among the entries.
* `Stacked.find?_entry`: for a bound column it is the bound expression.
* `Stacked.child_cases`: the projection is put, or the child produces the same columns already.
* `Stacked.exists_schema_child`: either way the entries' columns are exposed.
* `Stacked.nodup_ids_entries`, `Stacked.perm_ids_schema_child`: each of them once, and no others.
* `Stacked.size_items_le`: grouping sets over columns hold no more than there was.
-/

namespace GroupingPlanner

/-- Among entries a column is evaluated by the first one that produces it. -/
lemma definingExpr?_toExpr (entries : List Definition) (c : Column) :
    definingExpr? (entries.map Definition.toExpr) c =
      (entries.find? (·.produced == c)).map Definition.expr := by
  unfold definingExpr?
  induction entries with
  | nil => rfl
  | cons d entries ih =>
    rw [List.map_cons, List.findSome?_cons, List.find?_cons, ih]
    cases d with
    | column c' =>
      rw [Definition.toExpr, Definition.produced]
      cases h : c' == c <;> simp [h, Definition.expr]
    | named a =>
      rw [Definition.toExpr, Definition.produced, Alias.toExpr, Column.beq_def]
      by_cases hid : a.id = c.id
      · have hbeq : (a.column.id == c.id) = true := by simpa [Alias.column] using hid
        simp [hid, hbeq, Definition.expr]
      · have hbeq : (a.column.id == c.id) = false := by simpa [Alias.column] using hid
        simp [hid, hbeq]

/-- A projection exposes what its entries produce. -/
lemma Definition.columnsOf_toExpr (owner : Entity) (entries : List Definition) :
    Plan.columnsOf owner (entries.map toExpr) = .ok (entries.map produced) := by
  rw [Plan.columnsOf_eq_ok_iff, List.map_map, List.map_map]
  exact List.map_congr_left fun d _ => produced?_toExpr d

/-- What evaluates a column in a list is evaluated by an entry of the list that produces it. -/
lemma definingExpr?_eq_some {list : List Expr} {c : Column} {source : Expr}
    (h : definingExpr? list c = some source) :
    ∃ d : Definition, d.toExpr ∈ list ∧ d.produced.id = c.id ∧ d.expr = source := by
  obtain ⟨e, he, hsource⟩ := List.exists_of_findSome?_eq_some h
  cases e with
  | column produced =>
    obtain ⟨hbeq, hsource⟩ := Option.ite_none_right_eq_some.1 hsource
    exact ⟨.column produced, he, (Column.beq_iff _ _).1 hbeq, Option.some.inj hsource⟩
  | named id name child =>
    obtain ⟨hid, hsource⟩ := Option.ite_none_right_eq_some.1 hsource
    exact ⟨.named ⟨id, name, child⟩, he, hid, Option.some.inj hsource⟩
  | _ => simp at hsource

/-! ## Entries are told apart by their columns -/

lemma Column.nodup_ids (r : Roster Column) : (r.toList.map (·.id)).Nodup :=
  Roster.nodup_map fun c _ c' _ hid => (Column.beq_iff c c').2 hid

lemma Column.pairwise_of_nodup_ids {cs : List Column} (nodup : (cs.map (·.id)).Nodup) :
    cs.Pairwise fun earlier later => (later == earlier) = false := by
  refine (List.pairwise_map.1 nodup).imp fun {earlier later} hne => ?_
  rw [← Bool.not_eq_true, Column.beq_iff]
  exact fun hid => hne hid.symm

/-- Among columns with different ids the one sought is the only one. -/
lemma Column.find?_of_nodup_ids {cs : List Column} (nodup : (cs.map (·.id)).Nodup) {c p : Column}
    (hp : p ∈ cs) (hbeq : p == c) : cs.find? (· == c) = some p := by
  obtain ⟨p', hp'⟩ : ∃ p', cs.find? (· == c) = some p' :=
    Option.isSome_iff_exists.1 (List.find?_isSome.2 ⟨p, hp, hbeq⟩)
  have hbeq' : p' == c := by simpa using List.find?_some hp'
  rw [hp', List.inj_on_of_nodup_map nodup (List.mem_of_find?_eq_some hp') hp
    ((Column.beq_iff _ _).1 (BEq.trans hbeq' (BEq.symm hbeq)))]

/-- What is found in a schema for some columns: the first column with its id each. -/
lemma Column.mem_filterMap_find?_iff {schema cs : List Column} {p : Column} :
    p ∈ cs.filterMap (fun c => schema.find? (· == c)) ↔
      schema.find? (· == p) = some p ∧ ∃ c ∈ cs, p == c := by
  have congr {c : Column} (hbeq : p == c) : schema.find? (· == c) = schema.find? (· == p) := by
    simp only [Column.beq_def, (Column.beq_iff _ _).1 hbeq]
  rw [List.mem_filterMap]
  constructor
  · rintro ⟨c, hc, hfind⟩
    have hbeq : p == c := by simpa using List.find?_some hfind
    exact ⟨congr hbeq ▸ hfind, c, hc, hbeq⟩
  · rintro ⟨hfind, c, hc, hbeq⟩
    exact ⟨c, hc, congr hbeq ▸ hfind⟩

/-- The columns of the entries: those of the definitions, and those wanted that are missing there
and exposed. -/
lemma ids_projectionEntries (definitions : List Definition) (wanted schema : List Column) :
    (projectionEntries definitions wanted schema).map (·.produced.id) =
      definitions.map (·.produced.id) ++
        (wanted.filter fun c => !definitions.any (·.produced == c) && schema.contains c).map
          (·.id) := by
  have found (cs : List Column) : ((cs.filterMap fun c => schema.find? (· == c)).map (·.id)) =
      (cs.filter schema.contains).map (·.id) := by
    induction cs with
    | nil => rfl
    | cons c cs ih =>
      rw [List.filterMap_cons]
      cases hfind : schema.find? (· == c) with
      | none =>
        have absent : schema.contains c = false := by
          rw [← Bool.not_eq_true, List.contains_iff_exists_mem_beq]
          rintro ⟨c', hc', hbeq⟩
          exact List.find?_eq_none.1 hfind c' hc' (BEq.symm hbeq)
        rw [List.filter_cons_of_neg (by simp [absent]), ← ih]
      | some c' =>
        have hbeq : c' == c := by simpa using List.find?_some hfind
        have present : schema.contains c :=
          List.contains_iff_exists_mem_beq.2 ⟨c', List.mem_of_find?_eq_some hfind, BEq.symm hbeq⟩
        rw [List.filter_cons_of_pos present, List.map_cons, List.map_cons, ← ih,
          (Column.beq_iff _ _).1 hbeq]
  rw [projectionEntries, List.map_append, List.map_map]
  congr 1
  exact (found _).trans (by rw [List.filter_filter]; simp only [Bool.and_comm])

lemma nodup_ids_projectionEntries {definitions : List Definition} {wanted : List Column}
    (hdefinitions : (definitions.map (·.produced.id)).Nodup) (hwanted : (wanted.map (·.id)).Nodup)
    (schema : List Column) :
    ((projectionEntries definitions wanted schema).map (·.produced.id)).Nodup := by
  rw [ids_projectionEntries]
  refine hdefinitions.append (hwanted.sublist (List.filter_sublist.map _)) fun i hi hi' => ?_
  -- What is wanted besides is missing among the definitions.
  obtain ⟨d, hd, rfl⟩ := List.mem_map.1 hi
  obtain ⟨c, hc, hid⟩ := List.mem_map.1 hi'
  have missing := (List.mem_filter.1 hc).2
  rw [Bool.and_eq_true, Bool.not_eq_true'] at missing
  have defined : definitions.any (·.produced == c) :=
    List.any_eq_true.2 ⟨d, hd, (Column.beq_iff _ _).2 hid.symm⟩
  rw [defined] at missing
  exact absurd missing.1 Bool.noConfusion

/-- Entries that restate a schema hand on columns that it lists. -/
lemma columns_of_restates {schema : List Column} {entries : List Definition}
    (h : restates schema entries) {d : Definition} (hd : d ∈ entries) :
    ∃ c, d = .column c ∧ schema.contains c := by
  rw [restates, Bool.and_eq_true, List.all_eq_true] at h
  have handed := h.2 d hd
  cases d with
  | column c => exact ⟨c, rfl, handed⟩
  | named a => exact Bool.noConfusion handed

/-- A schema that is restated lists the columns of the entries in some order. -/
lemma perm_ids_of_restates {schema : List Column} {entries : List Definition}
    (nodup : (entries.map (·.produced.id)).Nodup) (h : restates schema entries) :
    (schema.map (·.id)).Perm (entries.map (·.produced.id)) := by
  have subset : entries.map (·.produced.id) ⊆ schema.map (·.id) := by
    intro i hi
    obtain ⟨d, hd, rfl⟩ := List.mem_map.1 hi
    obtain ⟨c, rfl, hc⟩ := columns_of_restates h hd
    obtain ⟨c', hc', hbeq⟩ := List.contains_iff_exists_mem_beq.1 hc
    exact List.mem_map.2 ⟨c', hc', ((Column.beq_iff _ _).1 hbeq).symm⟩
  rw [restates, Bool.and_eq_true, beq_iff_eq] at h
  refine ((nodup.subperm subset).perm_of_length_le ?_).symm
  rw [List.length_map, List.length_map, h.1]

/-- The child is left as it is, or a projection is put over it. -/
lemma defineBelow_cases (child : Plan) (schema : List Column) (entries : List Definition) :
    defineBelow child schema entries = child ∧ (entries = [] ∨ restates schema entries) ∨
      defineBelow child schema entries = .projection (entries.map Definition.toExpr) child ∧
        ¬ (entries = [] ∨ restates schema entries) := by
  rw [← List.isEmpty_iff, ← Bool.or_eq_true, defineBelow]
  split
  · rename_i hkept
    exact Or.inl ⟨rfl, hkept⟩
  · rename_i hput
    exact Or.inr ⟨rfl, hput⟩

namespace Stacked

variable {r : Repetition} {next : Nat} (x : Stacked r next)

lemma mem_definitions {d : Definition} (hd : d ∈ (r.bindingsAt next).definitions) :
    ∃ b ∈ (r.bindingsAt next).toList, b.definition = d :=
  List.mem_map.1 (Roster.mem_ofList hd)

/-- An entry is the definition of a bound expression, or it hands on a column that the child
exposes and no definition produces. -/
lemma entry_cases {d : Definition} (hd : d ∈ x.entries) :
    (∃ b ∈ (r.bindingsAt next).toList, b.definition = d) ∨
      ∃ c ∈ x.schema, d = .column c ∧
        ∀ b ∈ (r.bindingsAt next).toList, b.definition.produced.id ≠ c.id := by
  rcases List.mem_append.1 hd with hd | hd
  · exact Or.inl (mem_definitions hd)
  · obtain ⟨c, hc, rfl⟩ := List.mem_map.1 hd
    obtain ⟨wanted, hwanted, hfind⟩ := List.mem_filterMap.1 hc
    have hbeq : c == wanted := by simpa using List.find?_some hfind
    refine Or.inr ⟨c, List.mem_of_find?_eq_some hfind, rfl, fun b hb hid => ?_⟩
    -- Otherwise the column wanted would not have been missing.
    obtain ⟨d', hd', hbeq'⟩ := Roster.exists_mem_ofList
      (List.mem_map_of_mem (f := Binding.definition) hb)
    have produced : (r.bindingsAt next).definitions.any (·.produced == wanted) := by
      refine List.any_eq_true.2 ⟨d', hd', BEq.trans (BEq.symm hbeq') ?_⟩
      exact BEq.trans ((Column.beq_iff _ _).2 hid) hbeq
    rw [List.mem_filter, produced] at hwanted
    exact absurd hwanted.2 Bool.false_ne_true

/-- An alias among the entries is the definition of a bound expression. -/
lemma mem_entries_named {a : Alias} (ha : .named a ∈ x.entries) :
    ∃ b ∈ (r.bindingsAt next).toList, b.definition = .named a := by
  rcases x.entry_cases ha with hb | ⟨c, -, hc, -⟩
  · exact hb
  · cases hc

lemma flatten_sets :
    x.repetition.sets.flatten = r.sets.flatten.map (r.bindingsAt next).substitute := by
  rw [repetition, setExprs_eq, List.map_flatten]

include x in
/-- Whatever stands in a grouping set is bound, or else it would not become a column. -/
theorem item_bound {item : Expr} (hitem : item ∈ r.sets.flatten) :
    ∃ b, (r.bindingsAt next).get? item = some b ∧
      (r.bindingsAt next).substitute item = .column b.column := by
  obtain ⟨set, hset, hitem'⟩ := List.mem_flatten.1 hitem
  have hmem : set.map (r.bindingsAt next).substitute ∈ x.substituted.setExprs := by
    rw [setExprs_eq]
    exact List.mem_map_of_mem hset
  obtain ⟨cs, -, hcs⟩ := List.mem_map.1 hmem
  have hcol : (r.bindingsAt next).substitute item ∈ cs.map Expr.column := by
    rw [hcs]
    exact List.mem_map_of_mem hitem'
  obtain ⟨c, -, hc⟩ := List.mem_map.1 hcol
  rw [Bindings.substitute, Expr.replace_eq, Bindings.replacement?] at hc ⊢
  cases hget : (r.bindingsAt next).get? item with
  | some b => exact ⟨b, rfl, rfl⟩
  | none =>
    have hearly : r.early.contains item :=
      Repetition.early_of_item (Repetition.contains_items_of_mem hitem)
    have hvirtual : ¬ item.virtual?.isNone := by
      intro hvirtual
      have hsome : ((r.bindingsAt next).get? item).isSome :=
        (Repetition.get?_isSome_iff item).2 ⟨hearly, hvirtual⟩
      rw [hget] at hsome
      simp at hsome
    rw [hget, Option.map_none, Option.getD_none] at hc
    have hnone := congrArg Expr.virtual? hc
    rw [Expr.virtual?_mapChildren] at hnone
    rw [← hnone] at hvirtual
    exact absurd rfl hvirtual

/-- The grouping columns are the columns bound to the expressions of the grouping sets. -/
theorem contains_setColumns {c : Column} : x.repetition.setColumns.contains c ↔
    ∃ item ∈ r.sets.flatten, ∃ b, (r.bindingsAt next).get? item = some b ∧ c == b.column := by
  rw [Repetition.setColumns, Roster.contains_ofList, List.contains_iff_exists_mem_beq,
    flatten_sets, List.flatMap_map]
  constructor
  · rintro ⟨c', hc', hbeq⟩
    obtain ⟨item, hitem, hc'⟩ := List.mem_flatMap.1 hc'
    obtain ⟨b, hget, hsub⟩ := x.item_bound hitem
    rw [hsub, Expr.columns_column, List.mem_singleton] at hc'
    exact ⟨item, hitem, b, hget, hc' ▸ hbeq⟩
  · rintro ⟨item, hitem, b, hget, hbeq⟩
    obtain ⟨b', hget', hsub⟩ := x.item_bound hitem
    rw [hget] at hget'
    cases hget'
    refine ⟨b.column, List.mem_flatMap.2 ⟨item, hitem, ?_⟩, hbeq⟩
    rw [hsub, Expr.columns_column]
    exact List.mem_singleton_self _

lemma setColumns_eq : x.repetition.setColumns = x.substituted.keyColumns := by
  have columns_map : ∀ cs : List Column, (cs.map Expr.column).flatMap Expr.columns = cs := by
    intro cs
    rw [List.flatMap_map]
    exact List.flatMap_singleton' cs
  unfold Repetition.setColumns Substituted.keyColumns
  rw [repetition, Substituted.setExprs, ← List.map_flatten, columns_map]

/-- A bound column is evaluated by the expression bound to it. -/
theorem find?_entry (h : r.Hygienic next) {b : Binding} (hb : b ∈ (r.bindingsAt next).toList) :
    ∃ b' ∈ (r.bindingsAt next).toList,
      x.entries.find? (·.produced == b.column) = some b'.definition ∧
      b'.definition.produced.id = b.column.id ∧ b.source == b'.definition.expr := by
  have hmem : b.definition ∈ (r.bindingsAt next).toList.map (·.definition) := List.mem_map_of_mem hb
  obtain ⟨d, hd, hbeq⟩ := Roster.exists_mem_ofList hmem
  have found : ((r.bindingsAt next).definitions.find? (·.produced == b.column)).isSome := by
    refine List.find?_isSome.2 ⟨d, hd, ?_⟩
    rw [Column.beq_iff, Binding.id_column]
    exact ((Column.beq_iff _ _).1 hbeq).symm
  obtain ⟨d', hd'⟩ := Option.isSome_iff_exists.1 found
  obtain ⟨b', hb', rfl⟩ := mem_definitions (List.mem_of_find?_eq_some hd')
  have hid : b'.definition.produced.id = b.column.id := by
    have hproduced : b'.definition.produced == b.column := by simpa using List.find?_some hd'
    exact (Column.beq_iff _ _).1 hproduced
  refine ⟨b', hb', ?_, hid, ?_⟩
  · rw [entries, projectionEntries, List.find?_append, hd']
    rfl
  · rw [Binding.id_column] at hid
    exact BEq.trans (h.source_beq_source hb hb' hid.symm) (h.source_beq_expr hb')

/-- The projection is put over the child, unless that produces the same columns already. -/
lemma child_cases :
    x.repetition.child = .projection (x.entries.map Definition.toExpr) r.child ∨
      x.repetition.child = r.child ∧ ∀ d ∈ x.entries, ∃ c, d = .column c ∧ x.schema.contains c := by
  rcases defineBelow_cases r.child x.schema x.entries with ⟨hkept, htests⟩ | ⟨hput, -⟩
  · refine Or.inr ⟨hkept, fun d hd => ?_⟩
    rcases htests with hempty | hrestates
    · exact absurd hempty (List.ne_nil_of_mem hd)
    · exact columns_of_restates hrestates hd
  · exact Or.inl hput

/-! ## What the child of the new repetition exposes -/

/-- Every bound column has an entry. -/
lemma exists_entry_of_binding {b : Binding} (hb : b ∈ (r.bindingsAt next).toList) :
    ∃ b' ∈ (r.bindingsAt next).toList, b'.definition ∈ x.entries ∧
      b'.definition.produced.id = b.column.id := by
  have hmem : b.definition ∈ (r.bindingsAt next).toList.map (·.definition) := List.mem_map_of_mem hb
  obtain ⟨d, hd, hbeq⟩ := Roster.exists_mem_ofList hmem
  obtain ⟨b', hb', rfl⟩ := mem_definitions hd
  refine ⟨b', hb', List.mem_append_left _ hd, ?_⟩
  rw [Binding.id_column]
  exact ((Column.beq_iff _ _).1 hbeq).symm

/-- Every grouping column has an entry. -/
lemma exists_entry_of_grouped {c : Column} (hc : x.repetition.setColumns.contains c) :
    ∃ d ∈ x.entries, d.produced.id = c.id := by
  obtain ⟨item, -, b, hget, hbeq⟩ := x.contains_setColumns.1 hc
  obtain ⟨b', -, hentry, hid⟩ := x.exists_entry_of_binding (Bindings.get?_eq_some hget).1
  exact ⟨b'.definition, hentry, by rw [hid, (Column.beq_iff _ _).1 hbeq]⟩

/-- The projection evaluates every grouping column. -/
lemma definingExpr?_isSome {c : Column} (hc : x.repetition.setColumns.contains c) :
    (definingExpr? (x.entries.map Definition.toExpr) c).isSome := by
  obtain ⟨d, hd, hid⟩ := x.exists_entry_of_grouped hc
  rw [definingExpr?_toExpr, Option.isSome_map, List.find?_isSome]
  exact ⟨d, hd, (Column.beq_iff _ _).2 hid⟩

/-- Any other column that the output reads has an entry, if the child exposes it. -/
lemma exists_entry_of_otherColumn {c : Column} (hc : c ∈ x.substituted.otherColumns.toList)
    (exposed : ∃ c' ∈ x.schema, c'.id = c.id) : ∃ d ∈ x.entries, d.produced.id = c.id := by
  by_cases hdefined : (r.bindingsAt next).definitions.any (·.produced == c)
  · obtain ⟨d, hd, hbeq⟩ := List.any_eq_true.1 hdefined
    exact ⟨d, List.mem_append_left _ hd, (Column.beq_iff _ _).1 hbeq⟩
  · obtain ⟨c', hc', hid⟩ := exposed
    have found : (x.schema.find? (· == c)).isSome :=
      List.find?_isSome.2 ⟨c', hc', (Column.beq_iff _ _).2 hid⟩
    obtain ⟨c'', hfind⟩ := Option.isSome_iff_exists.1 found
    have hbeq : c'' == c := by simpa using List.find?_some hfind
    refine ⟨.column c'', List.mem_append_right _ (List.mem_map_of_mem
      (List.mem_filterMap.2 ⟨c, List.mem_filter.2 ⟨hc, ?_⟩, hfind⟩)), (Column.beq_iff _ _).1 hbeq⟩
    rwa [Bool.not_eq_true', ← Bool.not_eq_true]

/-- The child exposes what the entries produce: exactly that, or, if it is the child that was there
before, what they hand on. -/
lemma schema_child_cases :
    x.repetition.child.schema = .ok (x.entries.map Definition.produced) ∨
      x.repetition.child.schema = .ok x.schema ∧
        ∀ d ∈ x.entries, ∃ c, d = .column c ∧ x.schema.contains c := by
  rcases x.child_cases with hput | ⟨hkept, hcolumns⟩
  · left
    rw [hput, Plan.schema, Definition.columnsOf_toExpr]
  · right
    rw [hkept]
    exact ⟨x.schema_eq, hcolumns⟩

/-- What the entries produce is exposed. -/
lemma exists_schema_child :
    ∃ cs, x.repetition.child.schema = .ok cs ∧ ∀ d ∈ x.entries, ∃ c ∈ cs, c.id = d.produced.id := by
  rcases x.schema_child_cases with hput | ⟨hkept, hcolumns⟩
  · exact ⟨_, hput, fun d hd => ⟨_, List.mem_map_of_mem hd, rfl⟩⟩
  · refine ⟨_, hkept, fun d hd => ?_⟩
    obtain ⟨c, rfl, hc⟩ := hcolumns d hd
    obtain ⟨c', hc', hbeq⟩ := List.contains_iff_exists_mem_beq.1 hc
    exact ⟨c', hc', ((Column.beq_iff _ _).1 hbeq).symm⟩

/-! ## How many entries there are -/

lemma nodup_ids_entries : (x.entries.map (·.produced.id)).Nodup :=
  nodup_ids_projectionEntries
    (Roster.nodup_map fun d _ d' _ hid => (Column.beq_iff d.produced d'.produced).2 hid)
    (Column.nodup_ids _) x.schema

/-- Where there are entries, the child exposes their columns and no others. -/
lemma perm_ids_schema_child (some_entry : x.entries ≠ []) {cs : List Column}
    (hcs : x.repetition.child.schema = .ok cs) :
    (cs.map (·.id)).Perm (x.entries.map (·.produced.id)) := by
  have child : x.repetition.child = defineBelow r.child x.schema x.entries := rfl
  rw [child] at hcs
  rcases defineBelow_cases r.child x.schema x.entries with ⟨hkept, htests⟩ | ⟨hput, -⟩
  · rw [hkept, x.schema_eq, Except.ok.injEq] at hcs
    rw [← hcs]
    exact perm_ids_of_restates x.nodup_ids_entries (htests.resolve_left some_entry)
  · rw [hput, Plan.schema, Definition.columnsOf_toExpr, Except.ok.injEq] at hcs
    rw [← hcs, List.map_map]
    exact List.Perm.refl _

/-- There are no more columns in the grouping sets than there were expressions. -/
lemma size_items_le : x.repetition.items.size ≤ r.items.size := by
  rw [Repetition.items, Repetition.items, flatten_sets]
  refine Roster.size_ofList_map_le fun e he e' he' hbeq => ?_
  obtain ⟨b, hget, hsub⟩ := x.item_bound he
  obtain ⟨b', hget', hsub'⟩ := x.item_bound he'
  rw [Bindings.get?_congr hbeq, hget', Option.some.injEq] at hget
  rw [hsub, hsub', hget]
  exact BEq.rfl

end Stacked
end GroupingPlanner

import GroupingPlanner.Proofs.NamedEntries
import GroupingPlanner.Proofs.Types
/-!
# Lowering keeps schemas

A lowered plan exposes the columns it exposed before: the same ids, names and types in the same
order.  Only nullability may change, and only towards null, since an expression of the grouping sets
is read from a column that admits null.  Types are recorded at every occurrence of a column, and
nothing makes two records with one id agree.  Whenever one column comes in the place of another, the
argument needs that they do, and so `Repetition.Coherent` asks for it.

The types of plain columns are not enough.  An alias may carry the id of a column, or of another
alias, and a virtual column may be recorded twice in different ways.  In either case the type of an
entry may change, and likewise over a child that has no schema until it is lowered.

* `Column.Conforms`: one column as it was, or admitting null.
* `Repetition.ColumnsAgree`, `Repetition.Coherent`: records that agree.
* `Coherent.conforms_binding`, `Coherent.conforms_outputRule`: what stands in the place of an
  expression conforms to it.
* `Coherent.type_of_child`: columns exposed below the repetition have the types the output records.
* `Coherent.keepsSchema_of_lower`, `Plan.keepsSchema_lower`: one repetition, and whole plans.
-/

namespace GroupingPlanner

/-! ## Columns that conform -/

/-- A column has the id, the name and the type of another one, and it may be null if the other one
may be. -/
structure Column.Conforms (c c' : Column) : Prop where
  id : c'.id = c.id
  name : c'.name = c.name
  type : c'.type = c.type
  nullable : c.nullable → c'.nullable

namespace Column

instance (c c' : Column) : Decidable (c.Conforms c') :=
  decidable_of_iff (c'.id = c.id ∧ c'.name = c.name ∧ c'.type = c.type ∧ (c.nullable → c'.nullable))
    ⟨fun ⟨id, name, type, nullable⟩ => ⟨id, name, type, nullable⟩,
      fun h => ⟨h.id, h.name, h.type, h.nullable⟩⟩

lemma Conforms.refl (c : Column) : c.Conforms c := ⟨rfl, rfl, rfl, fun hnull => hnull⟩

lemma Conforms.trans {c c' c'' : Column} (h : c.Conforms c') (h' : c'.Conforms c'') :
    c.Conforms c'' where
  id := h'.id.trans h.id
  name := h'.name.trans h.name
  type := h'.type.trans h.type
  nullable hnull := h'.nullable (h.nullable hnull)

/-- Named expressions that conform produce columns that do, if they have one name. -/
lemma Conforms.of_produced? {e e' : Expr} {c c' : Column} (hc : e.produced? = some c)
    (hc' : e'.produced? = some c') (h : e.Conforms e') (hid : c'.id = c.id)
    (hname : c'.name = c.name) : c.Conforms c' := by
  obtain ⟨htype, hnull⟩ := Expr.type_of_produced? hc
  obtain ⟨htype', hnull'⟩ := Expr.type_of_produced? hc'
  refine ⟨hid, hname, by rw [htype, htype', h.type], ?_⟩
  rw [hnull, hnull']
  exact h.nullable

end Column

/-- The column bound to an expression is that of the definition, or it is that and admits null. -/
lemma Binding.conforms_column (b : Binding) : b.definition.produced.Conforms b.column := by
  unfold column
  split
  · exact ⟨rfl, rfl, rfl, fun _ => rfl⟩
  · exact .refl _

/-! ## Coherent repetitions -/

namespace Repetition

/-- The columns that plain columns and aliases of the repetition produce. -/
def producedColumns (r : Repetition) : List Column :=
  r.exprs.flatMap Expr.columns ++ r.aliases.map Alias.column

/-- Plain columns with one id agree, also with the columns of the child, and no alias of the output
is put directly over an alias. -/
structure ColumnsAgree (r : Repetition) : Prop where
  flat : r.FlatAliases
  equal : ∀ c ∈ r.exprs.flatMap Expr.columns, ∀ c' ∈ r.exprs.flatMap Expr.columns,
    c.id = c'.id → c = c'
  exposed : ∀ cs, r.child.schema = .ok cs → ∀ c ∈ r.exprs.flatMap Expr.columns, ∀ c' ∈ cs,
    c'.id = c.id → c'.name = c.name ∧ c'.type = c.type

/-- Moreover whatever has one id has one type, virtual columns with one id agree, and the child
exposes columns. -/
structure Coherent (r : Repetition) : Prop extends ColumnsAgree r where
  types : ∀ c ∈ r.producedColumns, ∀ c' ∈ r.producedColumns, c.id = c'.id → c.type = c'.type
  virtuals : ∀ v ∈ r.exprs.flatMap Expr.virtuals, ∀ v' ∈ r.exprs.flatMap Expr.virtuals,
    v.column.id = v'.column.id →
      v.column.type = v'.column.type ∧ v.column.nullable = v'.column.nullable
  child : ∃ cs, r.child.schema = .ok cs

variable {r : Repetition} {next : Nat}

/-- Over a child with a known schema the conditions can be checked. -/
lemma ColumnsAgree.of_schema {cs : List Column} (hcs : r.child.schema = .ok cs)
    (flat : r.FlatAliases)
    (equal : ∀ c ∈ r.exprs.flatMap Expr.columns, ∀ c' ∈ r.exprs.flatMap Expr.columns,
      c.id = c'.id → c = c')
    (exposed : ∀ c ∈ r.exprs.flatMap Expr.columns, ∀ c' ∈ cs, c'.id = c.id →
      c'.name = c.name ∧ c'.type = c.type) : r.ColumnsAgree := by
  refine ⟨flat, equal, fun cs' hcs' => ?_⟩
  rwa [← Except.ok.inj (hcs.symm.trans hcs')]

lemma mem_producedColumns_of_columns {e : Expr} (he : e ∈ r.exprs) {c : Column}
    (hc : c ∈ e.columns) : c ∈ r.producedColumns :=
  List.mem_append_left _ (List.mem_flatMap.2 ⟨e, he, hc⟩)

lemma number_lt_of_producedColumns (below : ∀ i ∈ r.exprs.flatMap Expr.ids, i.number < next)
    {c : Column} (hc : c ∈ r.producedColumns) : c.id.number < next := by
  refine below _ ?_
  rcases List.mem_append.1 hc with hc | hc
  · obtain ⟨e, he, hce⟩ := List.mem_flatMap.1 hc
    exact List.mem_flatMap.2 ⟨e, he, Expr.id_mem_ids_of_mem_columns hce⟩
  · obtain ⟨a, ha, rfl⟩ := List.mem_map.1 hc
    obtain ⟨e, he, hsub⟩ := mem_aliases_iff.1 ha
    exact List.mem_flatMap.2 ⟨e, he, Expr.mem_ids_iff.2 ⟨_, hsub, a.column, rfl, rfl⟩⟩

/-- A definition produces a column of the repetition, or a new one. -/
lemma produced_cases {b : Binding} (hb : b ∈ (r.bindingsAt next).toList) :
    b.definition.produced ∈ r.producedColumns ∨
      Definition.existing? r.outputAliases b.source = none ∧
        ∃ k, next ≤ k ∧ b.definition.produced.id = ⟨k⟩ := by
  rcases definition_occurs_or_new hb with ⟨e, he, hsub⟩ | ⟨k, hle, -, hnone, hd⟩
  · left
    cases hd : b.definition with
    | column c =>
      rw [hd] at hsub
      exact mem_producedColumns_of_columns he (Expr.mem_columns_iff.2 hsub)
    | named a =>
      rw [hd] at hsub
      exact List.mem_append_right _ (List.mem_map_of_mem (mem_aliases_iff.2 ⟨e, he, hsub⟩))
  · exact Or.inr ⟨hnone, k, hle, by rw [hd]; rfl⟩

namespace Coherent

variable (h : r.Coherent)
include h

lemma leavesAgree {e e' t t' : Expr} (he : e ∈ r.exprs) (ht : t ∈ e.subterms) (he' : e' ∈ r.exprs)
    (ht' : t' ∈ e'.subterms) : t.LeavesAgree t' where
  columns c hc c' hc' hid := by
    have heq := h.equal c (List.mem_flatMap.2 ⟨e, he, Expr.mem_columns_of_subterm hc ht⟩)
      c' (List.mem_flatMap.2 ⟨e', he', Expr.mem_columns_of_subterm hc' ht'⟩) hid
    rw [heq]
    exact ⟨rfl, rfl⟩
  virtuals v hv v' hv' :=
    h.virtuals v (List.mem_flatMap.2 ⟨e, he, Expr.mem_virtuals_of_subterm hv ht⟩)
      v' (List.mem_flatMap.2 ⟨e', he', Expr.mem_virtuals_of_subterm hv' ht'⟩)

/-! ## Rewritten entries -/

/-- A definition has the type and the nullability of what it is the definition of. -/
lemma type_source {b : Binding} (hb : b ∈ (r.bindingsAt next).toList) :
    b.source.type = b.definition.produced.type ∧
      b.source.nullable = b.definition.produced.nullable := by
  rcases definition_cases hb with
    ⟨c, hc, hd⟩ | ⟨a, ha, -, hbeq, hd⟩ | ⟨a, ha, hd⟩ | ⟨k, -, -, -, hd⟩
  · rw [hc, hd]
    exact ⟨rfl, rfl⟩
  · obtain ⟨e, he, hsub⟩ := exists_source_mem_subterms hb
    obtain ⟨e', he', hsub'⟩ := mem_outputAliases_iff.1 ha
    have hchild := Expr.subterms_trans (Definition.named a).expr_mem_subterms hsub'
    rw [hd]
    exact Expr.type_eq_of_beq hbeq
      (h.leavesAgree he hsub (List.mem_append_right _ he') hchild)
  · rw [ha, hd]
    exact ⟨rfl, rfl⟩
  · rw [hd]
    exact ⟨rfl, rfl⟩

/-- The column put in the place of a bound expression conforms to it. -/
lemma conforms_binding {e n : Expr} (he : e ∈ r.exprs) (hn : n ∈ e.subterms) {b : Binding}
    (hget : (r.bindingsAt next).get? n = some b) : n.Conforms (.column b.column) := by
  obtain ⟨hb, hbeq⟩ := Bindings.get?_eq_some hget
  obtain ⟨e', he', hsub⟩ := exists_source_mem_subterms hb
  obtain ⟨htype, hnull⟩ := Expr.type_eq_of_beq hbeq (h.leavesAgree he hn he' hsub)
  obtain ⟨hsource, hsourceNull⟩ := h.type_source hb
  refine ⟨?_, ?_⟩
  · rw [htype, hsource]
    exact b.conforms_column.type
  · rw [hnull, hsourceNull]
    exact b.conforms_column.nullable

/-- Whatever is put in the place of a node of the output conforms to it. -/
lemma conforms_outputRule {e n y : Expr} (he : e ∈ r.output) (hn : n ∈ e.subterms)
    (hy : (r.bindingsAt next).outputRule (r.callColumnsAt next) n = some y) : n.Conforms y := by
  unfold Bindings.outputRule at hy
  split at hy
  · rename_i call hcall
    obtain ⟨v, hv, rfl⟩ := Option.map_eq_some_iff.1 hy
    obtain ⟨k, -, -, call', -, rfl⟩ := mem_callColumnsAt (List.mem_of_find?_eq_some hv)
    rw [Expr.groupingCall?_eq_some_iff.1 hcall]
    exact ⟨rfl, id⟩
  · obtain ⟨b, hget, rfl⟩ := Bindings.replacement?_eq_some hy
    exact h.conforms_binding (List.mem_append_right _ he) hn hget

/-- An entry with a name produces a column that conforms to the one it produced. -/
lemma conforms_entry {e : Expr} (he : e ∈ r.output) {c : Column} (hc : e.produced? = some c) :
    ∃ c', (e.replace ((r.bindingsAt next).outputRule (r.callColumnsAt next))).produced? = some c' ∧
      c.Conforms c' := by
  have hconforms :
      e.Conforms (e.replace ((r.bindingsAt next).outputRule (r.callColumnsAt next))) :=
    Expr.conforms_replace fun n hn y hy => h.conforms_outputRule he hn hy
  rw [Expr.replace_eq] at hconforms ⊢
  rcases outputRule_of_named h.flat hc (r.callColumnsAt next) with
    hrule | ⟨b, hb, hbeq, hsource, hrule⟩
  · rw [hrule, Option.getD_none] at hconforms ⊢
    obtain ⟨c', hc', hid, hname⟩ := Expr.produced?_mapChildren hc _
    exact ⟨c', hc', .of_produced? hc hc' hconforms hid hname⟩
  · rw [hrule, Option.getD_some] at hconforms ⊢
    have hid : b.definition.produced.id = c.id := by
      have hids := Expr.id_produced?_congr hbeq
      rw [hc, hsource] at hids
      exact (Option.some.inj hids).symm
    have hname : b.definition.produced.name = c.name := by
      rcases Expr.name_produced?_congr hbeq hc hsource (isNone_virtual?_source hb) with
        hname | ⟨he', hsource'⟩
      · exact hname
      · obtain ⟨e₀, he₀, hsub⟩ := exists_source_mem_subterms hb
        rw [hsource'] at hsub
        rw [he'] at he
        have heq := h.equal c (List.mem_flatMap.2 ⟨_, List.mem_append_right _ he, by simp⟩)
          b.definition.produced (List.mem_flatMap.2 ⟨e₀, he₀, Expr.mem_columns_iff.2 hsub⟩) hid.symm
        rw [heq]
    exact ⟨b.column, rfl, .of_produced? hc rfl hconforms (b.conforms_column.id.trans hid)
      (b.conforms_column.name.trans hname)⟩

/-! ## Duplicates -/

section Below

variable (below : ∀ i ∈ r.exprs.flatMap Expr.ids, i.number < next)
include below

/-- A definition has the type of any column of the repetition with its id. -/
lemma type_of_producedColumns {b : Binding} (hb : b ∈ (r.bindingsAt next).toList) {c : Column}
    (hc : c ∈ r.producedColumns) (hid : b.definition.produced.id = c.id) :
    b.definition.produced.type = c.type := by
  rcases produced_cases hb with hold | ⟨-, k, hle, hk⟩
  · exact h.types _ hold c hc hid
  · have hlt := number_lt_of_producedColumns below hc
    rw [← hid, hk] at hlt
    exact absurd hlt (Nat.not_lt.2 hle)

/-- Definitions of one id have one type. -/
lemma type_of_definition {b b' : Binding} (hb : b ∈ (r.bindingsAt next).toList)
    (hb' : b' ∈ (r.bindingsAt next).toList)
    (hid : b.definition.produced.id = b'.definition.produced.id) :
    b.definition.produced.type = b'.definition.produced.type := by
  rcases produced_cases hb' with hold | ⟨hnone', k, -, hk⟩
  · exact h.type_of_producedColumns below hb hold hid
  · rcases produced_cases hb with hold | ⟨hnone, -⟩
    · exact (h.type_of_producedColumns below hb' hold hid.symm).symm
    · rw [Bindings.eq_of_new_id hb hb' hnone hnone' (hid.trans hk) hk]

/-- Below the repetition the columns of its new output are exposed with the types they have
there. -/
theorem type_of_child (x : Stacked r next) {e : Expr} (he : e ∈ r.outputAt next) {c c' : Column}
    (hc : c ∈ e.columns) {cs : List Column} (hcs : x.repetition.child.schema = .ok cs)
    (hc' : c' ∈ cs) (hid : c'.id = c.id) : c'.type = c.type := by
  have exposed : ∀ {e₀ : Expr} {c₀ c₁ : Column}, e₀ ∈ r.exprs → c₀ ∈ e₀.columns → c₁ ∈ x.schema →
      c₁.id = c₀.id → c₁.type = c₀.type := fun he₀ hc₀ hc₁ hid₀ =>
    (h.exposed _ x.schema_eq _ (List.mem_flatMap.2 ⟨_, he₀, hc₀⟩) _ hc₁ hid₀).2
  rcases Repetition.mem_columns_outputAt he hc with ⟨b, hb, rfl⟩ | ⟨e₀, he₀, hc₀⟩
  · rw [b.conforms_column.type]
    rw [Binding.id_column] at hid
    rcases x.schema_child_cases with hput | ⟨hkept, hcolumns⟩
    · obtain rfl := Except.ok.inj (hput.symm.trans hcs)
      obtain ⟨d, hd, rfl⟩ := List.mem_map.1 hc'
      rcases x.entry_cases hd with ⟨b', hb', rfl⟩ | ⟨c₁, -, rfl, missing⟩
      · exact h.type_of_definition below hb' hb hid
      · exact absurd hid.symm (missing b hb)
    · -- The entry of the column hands it on, so the expression bound to it is a column.
      obtain rfl := Except.ok.inj (hkept.symm.trans hcs)
      obtain ⟨b', hb', hentry, hid'⟩ := x.exists_entry_of_binding hb
      rw [Binding.id_column] at hid'
      obtain ⟨c₁, hd, -⟩ := hcolumns _ hentry
      obtain ⟨e₁, he₁, hexpr⟩ := exists_mem_subterms_of_binding hb'
      rw [← h.type_of_definition below hb' hb hid']
      rw [hd] at hexpr hid' ⊢
      exact exposed he₁ (Expr.mem_columns_iff.2 hexpr) hc' (hid.trans hid'.symm)
  · replace he₀ := List.mem_append_right r.sets.flatten he₀
    rcases x.schema_child_cases with hput | ⟨hkept, -⟩
    · obtain rfl := Except.ok.inj (hput.symm.trans hcs)
      obtain ⟨d, hd, rfl⟩ := List.mem_map.1 hc'
      rcases x.entry_cases hd with ⟨b', hb', rfl⟩ | ⟨c₁, hc₁, rfl, -⟩
      · exact h.type_of_producedColumns below hb' (mem_producedColumns_of_columns he₀ hc₀) hid
      · exact exposed he₀ hc₀ hc₁ hid
    · obtain rfl := Except.ok.inj (hkept.symm.trans hcs)
      exact exposed he₀ hc₀ hc' hid

/-- A duplicate has the type of the column that it is read for. -/
lemma type_copyOf? (x : Stacked r next) {g : Ground} {conflicts : List Column}
    (hg : Ground.forColumns x.repetition.child conflicts = .ok g) {ds : List Duplicate}
    (sources : ∀ d ∈ ds, g.source? d.column = some d.definition.child) {e : Expr}
    (he : e ∈ r.outputAt next) {c : Column} (hc : c ∈ e.columns) :
    ((Duplicate.copyOf? ds c).getD c).type = c.type := by
  cases hcopy : Duplicate.copyOf? ds c with
  | none => rfl
  | some c' =>
    obtain ⟨d, hd, hbeq, rfl⟩ := Duplicate.copyOf?_eq_some hcopy
    obtain ⟨entry, hentry, hid, hexpr⟩ := definingExpr?_eq_some (sources d hd)
    obtain ⟨cs, hcs, -⟩ := x.exists_schema_child
    have hput : entry.produced ∈ cs := (Plan.mem_columnsOf_iff (Ground.columnsOf_list hg hcs)).2
      ⟨_, hentry, Definition.produced?_toExpr entry⟩
    have hchild : d.copy.type = entry.produced.type := by
      rw [entry.type_produced, hexpr]
      rfl
    rw [Option.getD_some, hchild]
    exact h.type_of_child below x he hc hcs hput (hid.trans ((Column.beq_iff _ _).1 hbeq).symm)

end Below

/-- A lowered repetition exposes columns that conform to those it exposed. -/
theorem keepsSchema_of_lower {settings : Settings} {s s' : Session} {a : Aggregation}
    (below : ∀ i ∈ r.exprs.flatMap Expr.ids, i.number < s.nextId)
    (run : (r.lower settings).runIn s = (.ok a, s')) :
    r.toPlan.KeepsSchema Column.Conforms a.toPlan := by
  obtain ⟨-, -, x, s₁, -, run⟩ := lower_eq_ok run
  have stacked : r.toPlan.KeepsSchema Column.Conforms x.aggregation.toPlan := fun cs hcs =>
    Plan.exists_columnsOf_map hcs fun e he c hc => h.conforms_entry he hc
  rcases Aggregation.separate_eq_ok rfl run with ⟨-, rfl, -⟩ | ⟨g, -, hg, -, -, rfl⟩
  · exact stacked
  · refine stacked.trans (fun _ _ _ => .trans) fun cs hcs =>
      Plan.exists_columnsOf_map hcs fun e he c hc => ?_
    obtain ⟨c', hc', hid, hname⟩ := Expr.produced?_mapAggregateArguments hc
    refine ⟨c', hc', .of_produced? hc hc' ?_ hid hname⟩
    refine Expr.conforms_mapAggregateArguments fun call hcall arg harg => ?_
    refine Expr.type_replaceColumns fun d hd => ?_
    exact h.type_copyOf? below x hg (fun d hd => Ground.source_duplicatesFrom hd) he
      (Expr.mem_columns_of_subterm hd (Expr.mem_subterms_of_mem_args hcall harg))

/-- A repetition stays coherent over a child that exposes columns that conform. -/
lemma of_keepsSchema {child : Plan} (keeps : r.child.KeepsSchema Column.Conforms child) :
    Coherent { r with child := child } where
  flat := h.flat
  equal := h.equal
  exposed cs' hcs' c hc c' hc' hid := by
    obtain ⟨cs, hcs⟩ := h.child
    obtain ⟨cs'', hcs'', hrel⟩ := keeps cs hcs
    obtain rfl := Except.ok.inj (hcs'.symm.trans hcs'')
    obtain ⟨c₀, hc₀, hconforms⟩ := exists_of_forall₂ hrel.flip hc'
    obtain ⟨hname, htype⟩ := h.exposed cs hcs c hc c₀ hc₀ (hconforms.id.symm.trans hid)
    exact ⟨hconforms.name.trans hname, hconforms.type.trans htype⟩
  types := h.types
  virtuals := h.virtuals
  child := by
    obtain ⟨cs, hcs⟩ := h.child
    obtain ⟨cs', hcs', -⟩ := keeps cs hcs
    exact ⟨cs', hcs'⟩

end Coherent
end Repetition

/-! ## Whole plans -/

namespace Plan

/-- Lowering node by node keeps the schema of a plan, if its repetitions are coherent. -/
theorem Lowers.keepsSchema {p p' : Plan} {settings : Settings} {s s' : Session}
    (lowers : p.Lowers settings s p' s') (below : p.IdsBelow s.nextId)
    (coherent : p.EveryRepetition Repetition.Coherent) : p.KeepsSchema Column.Conforms p' := by
  induction lowers with
  | scan relation columns s => exact .of_eq _ .refl rfl
  | projection list _ ih | aggregation groupBy output _ ih => exact .of_eq _ .refl rfl
  | repetition sets output lowersBelow run ih =>
    have keeps := ih (fun i hi => below i (List.mem_append_right _ hi)) coherent.2
    refine (coherent.1.of_keepsSchema keeps).keepsSchema_of_lower (fun i hi => ?_) run
    exact lt_of_lt_of_le (below i (List.mem_append_left _ hi)) lowersBelow.nextId_le

/-- Lowering keeps the schema of a plan, up to columns that admit null, if its ids are below the
first one that is free and its repetitions are coherent. -/
theorem keepsSchema_lower {p p' : Plan} {settings : Settings} {s s' : Session}
    (below : p.IdsBelow s.nextId) (coherent : p.EveryRepetition Repetition.Coherent)
    (run : (p.lower settings).runIn s = (.ok p', s')) : p.KeepsSchema Column.Conforms p' := by
  obtain ⟨-, s₁, lowers, -⟩ := lower_eq_ok run
  exact lowers.keepsSchema below coherent

theorem keepsSchema_lower_nestedMarks :
    nestedMarks.IdsBelow 7 ∧ nestedMarks.EveryRepetition Repetition.Coherent ∧
      ∃ p' s', (nestedMarks.lower {}).runIn { nextId := 7 } = (.ok p', s') ∧
        nestedMarks.KeepsSchema Column.Conforms p' := by
  have below : nestedMarks.IdsBelow 7 := by decide
  have coherent : nestedMarks.EveryRepetition Repetition.Coherent := by
    refine ⟨⟨.of_schema rfl ?_ ?_ ?_, ?_, ?_, _, rfl⟩, ⟨.of_schema rfl ?_ ?_ ?_, ?_, ?_, _, rfl⟩,
      trivial⟩ <;> decide
  obtain ⟨p', s', run⟩ : ∃ p' s', (nestedMarks.lower {}).runIn { nextId := 7 } = (.ok p', s') :=
    ⟨_, _, rfl⟩
  exact ⟨below, coherent, p', s', run, keepsSchema_lower below coherent run⟩

/-! ## Records that do not agree -/

/-- A plan whose schema lowering does not keep, although the ids are below `next` and the columns of
every repetition agree. -/
def Degrades (p : Plan) (next : Nat) : Prop :=
  p.IdsBelow next ∧ p.EveryRepetition Repetition.ColumnsAgree ∧
    ∃ p' s', (p.lower {}).runIn { nextId := next } = (.ok p', s') ∧
      ¬ p.KeepsSchema Column.Conforms p'

lemma Degrades.of_schemas {p p' : Plan} {next : Nat} {s' : Session} {cs cs' : List Column}
    (below : p.IdsBelow next) (agree : p.EveryRepetition Repetition.ColumnsAgree)
    (run : (p.lower {}).runIn { nextId := next } = (.ok p', s')) (hcs : p.schema = .ok cs)
    (hcs' : p'.schema = .ok cs') (other : ¬ List.Forall₂ Column.Conforms cs cs') :
    p.Degrades next := by
  refine ⟨below, agree, p', s', run, fun keeps => other ?_⟩
  obtain ⟨cs'', hcs'', hrel⟩ := keeps cs hcs
  rwa [Except.ok.inj (hcs'.symm.trans hcs'')]

/-- `select a + 1 as x, min(t) as m … group by grouping sets ((a + 1))`, where `x` has the id of the
column `t`. -/
def aliasedAsColumn : Plan :=
  let a : Expr := .column ⟨⟨0⟩, "a", .integer, true⟩
  let t : Column := ⟨⟨1⟩, "t", .text, true⟩
  let key : Expr := .arith .add a (.literal (.integer 1))
  .repetition [[key]]
    [.named ⟨1⟩ "x" key, .named ⟨2⟩ "m" (.aggregate .minimum [.column t] false)]
    (.scan "t" [⟨⟨0⟩, "a", .integer, true⟩, t])

/-- `select a + 1 as x, upper(t) as y, min(upper(t)) as m … group by grouping sets ((a + 1),
(upper(t)))`, where `x` and `y` have one id. -/
def aliasedAlike : Plan :=
  let a : Expr := .column ⟨⟨0⟩, "a", .integer, true⟩
  let t : Column := ⟨⟨1⟩, "t", .text, true⟩
  let key : Expr := .arith .add a (.literal (.integer 1))
  let upper : Expr := .call "upper" [.column t] .text
  .repetition [[key], [upper]]
    [.named ⟨2⟩ "x" key, .named ⟨2⟩ "y" upper, .named ⟨3⟩ "m" (.aggregate .minimum [upper] false)]
    (.scan "t" [⟨⟨0⟩, "a", .integer, true⟩, t])

/-- `select min(x) as m … group by grouping sets ((x, g))` over a query that has no schema until its
first entry `a + 1` is read from `x`, and `x` is recorded as a text above. -/
def unnamedBelow : Plan :=
  let a : Column := ⟨⟨0⟩, "a", .integer, true⟩
  let key : Expr := .arith .add (.column a) (.literal (.integer 1))
  let x : Expr := .column ⟨⟨1⟩, "x", .text, true⟩
  .repetition [[x, .column ⟨⟨2⟩, "g", .integer, false⟩]]
    [.named ⟨3⟩ "m" (.aggregate .minimum [x] false)] <|
    .repetition [[key]]
      [key, .named ⟨2⟩ "g" (.grouping .grouping [.named ⟨1⟩ "x" key])] (.scan "t" [a])

/-- `select v + 1 as y, v + 1 as z, sum(v + 1) as s … group by grouping sets (())`, where `v` is
recorded in two ways. -/
def recordedTwice (type type' : ScalarType) (nullable : Bool) : Plan :=
  let v : Expr := .groupingIdColumn ⟨⟨1⟩, "v", type, false⟩
  let v' : Expr := .groupingIdColumn ⟨⟨1⟩, "v", type', nullable⟩
  let one : Expr := .literal (.integer 1)
  .repetition [[]]
    [.named ⟨2⟩ "y" (.arith .add v one), .named ⟨3⟩ "z" (.arith .add v' one),
      .named ⟨4⟩ "s" (.aggregate .sum [.arith .add v one] false)]
    (.scan "t" [⟨⟨0⟩, "a", .integer, true⟩])

/-- Schemas are not kept whenever the columns of repetitions agree.  The types of what has one id,
the records of virtual columns and the schema of the child matter as well. -/
theorem columnsAgree_insufficient :
    aliasedAsColumn.Degrades 3 ∧ aliasedAlike.Degrades 4 ∧ unnamedBelow.Degrades 4 ∧
      (recordedTwice .integer .double false).Degrades 5 ∧
      (recordedTwice .integer .integer true).Degrades 5 := by
  refine ⟨.of_schemas ?_ ⟨.of_schema rfl ?_ ?_ ?_, trivial⟩ rfl rfl rfl ?_,
    .of_schemas ?_ ⟨.of_schema rfl ?_ ?_ ?_, trivial⟩ rfl rfl rfl ?_,
    .of_schemas ?_ ⟨⟨?_, ?_, nofun⟩, .of_schema rfl ?_ ?_ ?_, trivial⟩ rfl rfl rfl ?_,
    .of_schemas ?_ ⟨.of_schema rfl ?_ ?_ ?_, trivial⟩ rfl rfl rfl ?_,
    .of_schemas ?_ ⟨.of_schema rfl ?_ ?_ ?_, trivial⟩ rfl rfl rfl ?_⟩ <;> decide

end Plan

end GroupingPlanner

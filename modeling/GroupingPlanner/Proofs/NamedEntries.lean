import GroupingPlanner.Proofs.PlanRuns
/-!
# What becomes of named entries

A plan exposes one column for each entry of its output, and lowering rewrites the entries one by
one.  An entry with a name is either let be, and then it is its parts that change, or it is bound as
a whole, and a column takes its place.  That column is the one of the entry itself, unless the query
puts an alias directly over an alias: then the outer alias may define the inner one.

* `Plan.KeepsSchema`: schemas related column by column.
* `Plan.exists_columnsOf_map`: the columns of rewritten entries.
* `Repetition.FlatAliases`: no alias over an alias.
* `Repetition.toExpr_definition_of_named`, `Repetition.outputRule_of_named`: what becomes of an
  entry with a name.
* `Repetition.id_produced?_replace`: it keeps its id.
-/

namespace GroupingPlanner

/-! ## Schemas, column by column -/

namespace Plan

/-- If a plan has a schema, then so has another one, and the columns are related one by one. -/
def KeepsSchema (R : Column → Column → Prop) (p p' : Plan) : Prop :=
  ∀ cs, p.schema = .ok cs → ∃ cs', p'.schema = .ok cs' ∧ List.Forall₂ R cs cs'

lemma KeepsSchema.trans {R : Column → Column → Prop} (htrans : ∀ a b c, R a b → R b c → R a c)
    {p p' p'' : Plan} (h : p.KeepsSchema R p') (h' : p'.KeepsSchema R p'') :
    p.KeepsSchema R p'' := by
  intro cs hcs
  obtain ⟨cs', hcs', hrel⟩ := h cs hcs
  obtain ⟨cs'', hcs'', hrel'⟩ := h' cs' hcs'
  exact ⟨cs'', hcs'', forall₂_trans htrans hrel hrel'⟩

lemma KeepsSchema.of_eq (R : Column → Column → Prop) (hrefl : ∀ c, R c c) {p p' : Plan}
    (h : p'.schema = p.schema) : p.KeepsSchema R p' := by
  intro cs hcs
  exact ⟨cs, h.trans hcs, List.forall₂_same.2 fun c _ => hrefl c⟩

lemma mem_columnsOf_iff {owner : Entity} {es : List Expr} {cs : List Column}
    (h : columnsOf owner es = .ok cs) {c : Column} :
    c ∈ cs ↔ ∃ e ∈ es, e.produced? = some c := by
  rw [columnsOf_eq_ok_iff] at h
  have same : some c ∈ cs.map some ↔ some c ∈ es.map Expr.produced? := by rw [h]
  simpa using same

/-- A list has columns as soon as every entry has a name. -/
lemma exists_columnsOf {owner : Entity} {es : List Expr}
    (named : ∀ e ∈ es, e.produced?.isSome) : ∃ cs, columnsOf owner es = .ok cs := by
  induction es with
  | nil => exact ⟨[], rfl⟩
  | cons e es ih =>
    obtain ⟨c, hc⟩ := Option.isSome_iff_exists.1 (named e List.mem_cons_self)
    obtain ⟨cs, hcs⟩ := ih fun e he => named e (List.mem_cons_of_mem _ he)
    exact ⟨c :: cs, by rw [columnsOf, hc, hcs]; rfl⟩

lemma produced?_isSome_of_columnsOf {owner : Entity} {es : List Expr} {cs : List Column}
    (h : columnsOf owner es = .ok cs) {e : Expr} (he : e ∈ es) : e.produced?.isSome := by
  rw [columnsOf_eq_ok_iff] at h
  have hmem : e.produced? ∈ cs.map some := by
    rw [← h]
    exact List.mem_map_of_mem he
  obtain ⟨c, -, hc⟩ := List.mem_map.1 hmem
  rw [← hc]
  rfl

/-- Lists of named entries are compared entry by entry. -/
lemma exists_columnsOf_map {R : Column → Column → Prop} {owner owner' : Entity} {es : List Expr}
    {f : Expr → Expr} {cs : List Column} (h : columnsOf owner es = .ok cs)
    (entry : ∀ e ∈ es, ∀ c, e.produced? = some c → ∃ c', (f e).produced? = some c' ∧ R c c') :
    ∃ cs', columnsOf owner' (es.map f) = .ok cs' ∧ List.Forall₂ R cs cs' := by
  rw [columnsOf_eq_ok_iff] at h
  simp only [columnsOf_eq_ok_iff]
  induction es generalizing cs with
  | nil =>
    obtain rfl : cs = [] := by simpa using h.symm
    exact ⟨[], rfl, .nil⟩
  | cons e es ih =>
    cases cs with
    | nil => simp at h
    | cons c cs =>
      rw [List.map_cons, List.map_cons, List.cons.injEq] at h
      obtain ⟨c', hc', hR⟩ := entry e List.mem_cons_self c h.1
      obtain ⟨cs', hcs', hRs⟩ := ih h.2 fun e he => entry e (List.mem_cons_of_mem _ he)
      refine ⟨c' :: cs', ?_, .cons hR hRs⟩
      rw [List.map_cons, List.map_cons, List.map_cons, hc', hcs']

end Plan

/-! ## Named entries -/

namespace Expr

/-- Equal expressions are named alike. -/
lemma id_produced?_congr {e e' : Expr} (h : e == e') :
    e.produced?.map (·.id) = e'.produced?.map (·.id) := by
  replace h : e.same e' = true := h
  cases e <;> cases e' <;> simp_all [same, produced?, Column.beq_def]

/-- Equal expressions with names have one name, unless they are columns. -/
lemma name_produced?_congr {e e' : Expr} {c c' : Column} (h : e == e')
    (hc : e.produced? = some c) (hc' : e'.produced? = some c') (plain : e'.virtual?.isNone) :
    c'.name = c.name ∨ e = column c ∧ e' = column c' := by
  replace h : e.same e' = true := h
  cases e <;> cases hc <;> cases e' <;> cases hc' <;> simp_all [same, virtual?]

lemma isSome_alias?_congr {e e' : Expr} (h : e == e') : e.alias?.isSome = e'.alias?.isSome := by
  replace h : e.same e' = true := h
  cases e <;> cases e' <;> simp_all [same, alias?]

/-- A node over other children has the name it had. -/
lemma produced?_mapChildren {e : Expr} {c : Column} (hc : e.produced? = some c)
    (f : Expr → Expr) :
    ∃ c', (e.mapChildren f).produced? = some c' ∧ c'.id = c.id ∧ c'.name = c.name := by
  cases e <;> cases hc <;> exact ⟨_, rfl, rfl, rfl⟩

lemma produced?_mapAggregateArguments {F : Expr → Expr} {e : Expr} {c : Column}
    (hc : e.produced? = some c) :
    ∃ c', (e.mapAggregateArguments F).produced? = some c' ∧ c'.id = c.id ∧ c'.name = c.name := by
  cases e <;> cases hc <;> exact ⟨_, rfl, rfl, rfl⟩

end Expr

namespace Repetition

variable {r : Repetition} {next : Nat}

/-- The output puts no alias directly over an alias. -/
def FlatAliases (r : Repetition) : Prop := ∀ a ∈ r.outputAliases, a.child.alias?.isNone

instance (r : Repetition) : Decidable r.FlatAliases :=
  inferInstanceAs (Decidable (∀ a ∈ r.outputAliases, a.child.alias?.isNone))

/-- A named expression that is bound defines itself. -/
lemma toExpr_definition_of_named (flat : r.FlatAliases) {b : Binding}
    (hb : b ∈ (r.bindingsAt next).toList) (named : b.source.produced?.isSome) :
    b.definition.toExpr = b.source := by
  have plain := isNone_virtual?_source hb
  rcases definition_cases hb with
    ⟨c, hc, hd⟩ | ⟨a, ha, hcolumn, hbeq, -⟩ | ⟨a, ha, hd⟩ | ⟨k, -, -, hnone, -⟩
  · rw [hc, hd]
    rfl
  · -- What is left is an alias, and it would be the child of another one.
    have halias : b.source.alias?.isSome := by
      cases hsource : b.source <;>
        simp_all [Expr.produced?, Expr.virtual?, Expr.column?, Expr.alias?]
    rw [Expr.isSome_alias?_congr hbeq, Option.isNone_iff_eq_none.1 (flat a ha)] at halias
    exact absurd halias Bool.false_ne_true
  · rw [ha, hd]
    rfl
  · cases hsource : b.source <;>
      simp_all [Expr.produced?, Expr.virtual?, Definition.existing?, Expr.alias?]

/-- An entry with a name is let be, or it is bound as a whole and then defines itself. -/
lemma outputRule_of_named (flat : r.FlatAliases) {e : Expr} {c : Column}
    (hc : e.produced? = some c) (columns : List VirtualColumn) :
    (r.bindingsAt next).outputRule columns e = none ∨
      ∃ b ∈ (r.bindingsAt next).toList, e == b.source ∧
        b.source.produced? = some b.definition.produced ∧
        (r.bindingsAt next).outputRule columns e = some (.column b.column) := by
  have plain : e.groupingCall? = none := by
    cases e <;> first | rfl | cases hc
  rw [Bindings.outputRule, plain]
  cases hget : (r.bindingsAt next).get? e with
  | none =>
    left
    rw [Bindings.replacement?, hget, Option.map_none]
  | some b =>
    right
    obtain ⟨hb, hbeq⟩ := Bindings.get?_eq_some hget
    have named : b.source.produced?.isSome := by
      rw [← Option.isSome_map, ← Expr.id_produced?_congr hbeq, hc]
      rfl
    refine ⟨b, hb, hbeq, ?_, by rw [Bindings.replacement?, hget, Option.map_some]⟩
    rw [← toExpr_definition_of_named flat hb named, Definition.produced?_toExpr]

/-- An entry with a name keeps its id. -/
lemma id_produced?_replace (flat : r.FlatAliases) {e : Expr} {c : Column}
    (hc : e.produced? = some c) (columns : List VirtualColumn) :
    ∃ c', (e.replace ((r.bindingsAt next).outputRule columns)).produced? = some c' ∧
      c'.id = c.id := by
  rw [Expr.replace_eq]
  rcases outputRule_of_named flat hc columns with hrule | ⟨b, -, hbeq, hsource, hrule⟩
  · obtain ⟨c', hc', hid, -⟩ := Expr.produced?_mapChildren hc
      (Expr.replace ((r.bindingsAt next).outputRule columns))
    rw [hrule, Option.getD_none]
    exact ⟨c', hc', hid⟩
  · have hid := Expr.id_produced?_congr hbeq
    rw [hc, hsource, Option.map_some, Option.map_some, Option.some.injEq] at hid
    rw [hrule, Option.getD_some]
    exact ⟨b.column, rfl, by rw [Binding.id_column, hid]⟩

end Repetition

end GroupingPlanner

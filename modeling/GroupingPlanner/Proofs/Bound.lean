import GroupingPlanner.Proofs.Renaming
import GroupingPlanner.Proofs.Runs
/-!
# What expressions are bound to

A repetition binds every expression that is evaluated below it to a column.  For the column to
stand for the expression, two things have to hold: the definition of the column evaluates the
expression, and no two different expressions share a column.  Neither holds of every repetition,
since the query itself may carry aliases whose ids clash with each other or with columns.  The
repetitions for which both hold are called hygienic here.

* `Definition.expr`: the expression that an entry of a projection evaluates.
* `Repetition.definition_cases`, `Repetition.definition_occurs_or_new`: where the definition of a
  bound expression comes from.
* `Repetition.Hygienic`: no virtual columns, no clashing ids, no bound alias.
* `Hygienic.source_beq_expr`, `Hygienic.source_beq_source`: definitions evaluate what they are
  bound to, and columns tell bound expressions apart.
-/

namespace GroupingPlanner

/-! ## Where definitions come from -/

instance : EquivBEq Definition where
  rfl {d} := (BEq.rfl : d.produced == d.produced)
  symm {d d'} h := (BEq.symm h : d'.produced == d.produced)
  trans {d _ d''} h h' := (BEq.trans h h' : d.produced == d''.produced)

namespace Definition

/-- The expression that an entry evaluates. -/
def expr : Definition → Expr
  | column c => .column c
  | named a => a.child

lemma type_produced (d : Definition) : d.produced.type = d.expr.type := by
  cases d <;> rfl

lemma expr_mem_subterms (d : Definition) : d.expr ∈ d.toExpr.subterms := by
  cases d with
  | column c => exact Expr.self_mem_subterms _
  | named a =>
    exact Expr.mem_subterms_of_child (List.mem_singleton_self _) (Expr.self_mem_subterms _)

lemma existing?_eq_some {aliases : List Alias} {e : Expr} {d : Definition}
    (h : existing? aliases e = some d) :
    (∃ c, e = .column c ∧ d = column c) ∨
      (∃ a ∈ aliases, e.column? = none ∧ e == a.child ∧ d = named a) ∨
      ∃ a, e.alias? = some a ∧ d = named a := by
  unfold existing? at h
  split at h
  · exact Or.inl ⟨_, rfl, (Option.some.inj h).symm⟩
  · rename_i hother
    obtain ⟨a, ha, rfl⟩ := Option.map_eq_some_iff.1 h
    rcases Option.or_eq_some_iff.1 ha with hfind | ⟨-, halias⟩
    · have hbeq : e == a.child := by simpa using List.find?_some hfind
      have hcolumn : e.column? = none :=
        Option.eq_none_iff_forall_ne_some.2 fun c hc => hother c (Expr.column?_eq_some_iff.1 hc)
      exact Or.inr (Or.inl ⟨a, List.mem_of_find?_eq_some hfind, hcolumn, hbeq, rfl⟩)
    · exact Or.inr (Or.inr ⟨a, halias, rfl⟩)

end Definition

namespace Bindings

variable {aliases : List Alias} {grouped : Expr → Bool}

/-- The definition of a bound expression exists already, or it is an alias with an id of its
own. -/
lemma mem_bindFrom {b : Binding} {next : Nat} {es : List Expr}
    (h : b ∈ bindFrom aliases grouped next es) :
    b.source ∈ es ∧ b.grouped = grouped b.source ∧
      (Definition.existing? aliases b.source = some b.definition ∨
        Definition.existing? aliases b.source = none ∧ ∃ k, next ≤ k ∧
          k < next + es.countP (fun e => (Definition.existing? aliases e).isNone) ∧
          b.definition = .named (.ofExpr ⟨k⟩ b.source)) := by
  induction es generalizing next with
  | nil => exact absurd h List.not_mem_nil
  | cons e es ih =>
    unfold bindFrom at h
    cases hd : Definition.existing? aliases e with
    | some d =>
      have hcount : (e :: es).countP (fun e => (Definition.existing? aliases e).isNone) =
          es.countP fun e => (Definition.existing? aliases e).isNone := by
        rw [List.countP_cons_of_neg]
        simp [hd]
      rw [hd] at h
      rw [hcount]
      rcases List.mem_cons.1 h with rfl | h
      · exact ⟨List.mem_cons_self, rfl, Or.inl hd⟩
      · obtain ⟨hmem, hgrouped, hdef⟩ := ih h
        exact ⟨List.mem_cons_of_mem _ hmem, hgrouped, hdef⟩
    | none =>
      have hcount : (e :: es).countP (fun e => (Definition.existing? aliases e).isNone) =
          es.countP (fun e => (Definition.existing? aliases e).isNone) + 1 := by
        rw [List.countP_cons_of_pos]
        simp [hd]
      rw [hd] at h
      rw [hcount]
      rcases List.mem_cons.1 h with rfl | h
      · exact ⟨List.mem_cons_self, rfl, Or.inr ⟨hd, next, le_rfl, by omega, rfl⟩⟩
      · obtain ⟨hmem, hgrouped, hdef⟩ := ih h
        refine ⟨List.mem_cons_of_mem _ hmem, hgrouped, hdef.imp_right ?_⟩
        rintro ⟨hnone, k, hle, hlt, hk⟩
        exact ⟨hnone, k, by omega, by omega, hk⟩

/-- Two bound expressions with new aliases of one id are the same binding. -/
lemma eq_of_new_id {b b' : Binding} {next k : Nat} {es : List Expr}
    (hb : b ∈ bindFrom aliases grouped next es) (hb' : b' ∈ bindFrom aliases grouped next es)
    (new : Definition.existing? aliases b.source = none)
    (new' : Definition.existing? aliases b'.source = none)
    (hk : b.definition.produced.id = ⟨k⟩) (hk' : b'.definition.produced.id = ⟨k⟩) : b = b' := by
  -- New aliases further down the list have larger ids.
  have above : ∀ {c : Binding} {n : Nat} {es : List Expr}, c ∈ bindFrom aliases grouped n es →
      Definition.existing? aliases c.source = none → n ≤ c.definition.produced.id.number := by
    intro c n es hc hnone
    obtain ⟨-, -, hsome | ⟨-, m, hle, -, hm⟩⟩ := mem_bindFrom hc
    · rw [hnone] at hsome
      simp at hsome
    · rw [hm]
      exact hle
  induction es generalizing next with
  | nil => exact absurd hb List.not_mem_nil
  | cons e es ih =>
    unfold bindFrom at hb hb'
    cases hd : Definition.existing? aliases e with
    | some d =>
      rw [hd] at hb hb'
      rcases List.mem_cons.1 hb with rfl | hb
      · rw [hd] at new
        cases new
      · rcases List.mem_cons.1 hb' with rfl | hb'
        · rw [hd] at new'
          cases new'
        · exact ih hb hb'
    | none =>
      rw [hd] at hb hb'
      rcases List.mem_cons.1 hb with rfl | hb <;> rcases List.mem_cons.1 hb' with rfl | hb'
      · rfl
      · have hle := above hb' new'
        rw [hk', ← hk] at hle
        exact absurd hle (Nat.not_succ_le_self next)
      · have hle := above hb new
        rw [hk, ← hk'] at hle
        exact absurd hle (Nat.not_succ_le_self next)
      · exact ih hb hb'

variable {b : Bindings} {e : Expr} {x : Binding}

lemma get?_eq_some (h : b.get? e = some x) : x ∈ b.toList ∧ e == x.source := by
  have hbeq : e == x.source := by simpa using List.find?_some h
  exact ⟨List.mem_of_find?_eq_some h, hbeq⟩

lemma get?_isSome_iff : (b.get? e).isSome ↔ ∃ x ∈ b.toList, e == x.source := by
  simp [get?]

lemma get?_congr {e' : Expr} (h : e == e') : b.get? e = b.get? e' := by
  unfold get?
  congr 1
  funext x
  rw [Bool.eq_iff_iff]
  exact ⟨fun hx => BEq.trans (BEq.symm h) hx, fun hx => BEq.trans h hx⟩

lemma replacement?_eq_some {y : Expr} (h : b.replacement? e = some y) :
    ∃ x, b.get? e = some x ∧ y = .column x.column := by
  obtain ⟨x, hx, rfl⟩ := Option.map_eq_some_iff.1 h
  exact ⟨x, hx, rfl⟩

end Bindings

/-! ## What is bound -/

namespace Repetition

variable {r : Repetition} {next : Nat}

/-- The expressions of the repetition itself. -/
def exprs (r : Repetition) : List Expr := r.sets.flatten ++ r.output

/-- All aliases in these expressions. -/
def aliases (r : Repetition) : List Alias := (r.exprs.flatMap Expr.subterms).filterMap Expr.alias?

lemma mem_early {e : Expr} (h : e ∈ r.early.toList) : ∃ x ∈ r.exprs, e ∈ x.subterms := by
  rcases Roster.mem_insertAll h with h | h
  · rcases Roster.mem_insertAll h with h | h
    · exact ⟨e, List.mem_append_left _ (Roster.mem_ofList h), e.self_mem_subterms⟩
    · obtain ⟨x, hx, he⟩ := List.mem_flatMap.1 h
      obtain ⟨call, hcall, he⟩ := List.mem_flatMap.1 he
      obtain ⟨t, ht, hcall⟩ := List.mem_filterMap.1 hcall
      obtain rfl := Expr.groupingCall?_eq_some_iff.1 hcall
      refine ⟨x, List.mem_append_right _ hx, Expr.subterms_trans ?_ ht⟩
      exact Expr.mem_subterms_of_child he e.self_mem_subterms
  · obtain ⟨x, hx, he⟩ := List.mem_flatMap.1 h
    obtain ⟨call, hcall, he⟩ := List.mem_flatMap.1 he
    obtain ⟨arg, harg, rfl⟩ := List.mem_map.1 he
    refine ⟨x, List.mem_append_right _ hx, Expr.subterms_trans ?_
      (Expr.mem_subterms_of_mem_args hcall harg)⟩
    cases arg with
    | ordered child direction =>
      exact Expr.mem_subterms_of_child (List.mem_singleton_self child) child.self_mem_subterms
    | _ => exact Expr.self_mem_subterms _

lemma mem_aliases_iff {a : Alias} : a ∈ r.aliases ↔ ∃ e ∈ r.exprs, a.toExpr ∈ e.subterms := by
  simp [aliases, Expr.alias?_eq_some_iff]

lemma mem_outputAliases_iff {a : Alias} :
    a ∈ r.outputAliases ↔ ∃ e ∈ r.output, a.toExpr ∈ e.subterms := by
  simp [outputAliases, Expr.alias?_eq_some_iff]

/-- What is bound stands in an expression of the repetition. -/
lemma exists_source_mem_subterms {b : Binding} (hb : b ∈ (r.bindingsAt next).toList) :
    ∃ e ∈ r.exprs, b.source ∈ e.subterms :=
  mem_early (List.mem_of_mem_filter (Bindings.mem_bindFrom hb).1)

/-- Virtual columns are not bound. -/
lemma isNone_virtual?_source {b : Binding} (hb : b ∈ (r.bindingsAt next).toList) :
    b.source.virtual?.isNone :=
  (List.mem_filter.1 (Bindings.mem_bindFrom hb).1).2

/-- Equal expressions are bound once. -/
lemma eq_of_source_beq {sources : Roster Expr} {b b' : Binding}
    (hb : b ∈ (r.bindingsFrom next sources.toList).toList)
    (hb' : b' ∈ (r.bindingsFrom next sources.toList).toList) (hsource : b.source == b'.source) :
    b = b' := by
  have sources_eq : (r.bindingsFrom next sources.toList).toList.map (·.source) =
      bindable sources.toList := Bindings.source_bindFrom _ _ _ _
  have nodup : ((r.bindingsFrom next sources.toList).toList.map (·.source)).Nodup := by
    rw [sources_eq]
    refine List.Nodup.filter _ (sources.distinct.imp fun {e e'} hne heq => ?_)
    rw [heq, BEq.rfl] at hne
    simp at hne
  have listed : ∀ {c : Binding}, c ∈ (r.bindingsFrom next sources.toList).toList →
      c.source ∈ sources.toList :=
    fun hc => List.mem_of_mem_filter (Bindings.mem_bindFrom hc).1
  exact List.inj_on_of_nodup_map nodup hb hb'
    (Roster.eq_of_beq_of_mem (listed hb) (listed hb') hsource)

/-- A column is bound to itself, and anything else to an alias of the output over an equal
expression, to itself if it is an alias, or to a new alias. -/
theorem definition_cases {b : Binding} (hb : b ∈ (r.bindingsAt next).toList) :
    (∃ c, b.source = .column c ∧ b.definition = .column c) ∨
      (∃ a ∈ r.outputAliases, b.source.column? = none ∧ b.source == a.child ∧
        b.definition = .named a) ∨
      (∃ a : Alias, b.source = a.toExpr ∧ b.definition = .named a) ∨
      ∃ k, next ≤ k ∧ k < r.firstCall next ∧
        Definition.existing? r.outputAliases b.source = none ∧
        b.definition = .named (.ofExpr ⟨k⟩ b.source) := by
  obtain ⟨-, -, hexists | ⟨hnone, k, hle, hlt, hk⟩⟩ := Bindings.mem_bindFrom hb
  · rcases Definition.existing?_eq_some hexists with hcolumn | hover | ⟨a, ha, hd⟩
    · exact Or.inl hcolumn
    · exact Or.inr (Or.inl hover)
    · exact Or.inr (Or.inr (Or.inl ⟨a, Expr.alias?_eq_some_iff.1 ha, hd⟩))
  · exact Or.inr (Or.inr (Or.inr ⟨k, hle, hlt, hnone, hk⟩))

/-- A definition stands in an expression of the repetition, or it is a new alias. -/
theorem definition_occurs_or_new {b : Binding} (hb : b ∈ (r.bindingsAt next).toList) :
    (∃ e ∈ r.exprs, b.definition.toExpr ∈ e.subterms) ∨
      ∃ k, next ≤ k ∧ k < r.firstCall next ∧
        Definition.existing? r.outputAliases b.source = none ∧
        b.definition = .named (.ofExpr ⟨k⟩ b.source) := by
  obtain ⟨e, he, hsub⟩ := exists_source_mem_subterms hb
  rcases definition_cases hb with ⟨c, hc, hd⟩ | ⟨a, ha, -, -, hd⟩ | ⟨a, ha, hd⟩ | hnew
  · rw [hc] at hsub
    rw [hd]
    exact Or.inl ⟨e, he, hsub⟩
  · rw [hd]
    obtain ⟨e', he', hsub'⟩ := mem_outputAliases_iff.1 ha
    exact Or.inl ⟨e', List.mem_append_right _ he', hsub'⟩
  · rw [ha] at hsub
    rw [hd]
    exact Or.inl ⟨e, he, hsub⟩
  · exact Or.inr hnew

/-- What a definition evaluates is part of an expression of the repetition. -/
lemma exists_mem_subterms_of_binding {b : Binding} (hb : b ∈ (r.bindingsAt next).toList) :
    ∃ e ∈ r.exprs, b.definition.expr ∈ e.subterms := by
  rcases definition_occurs_or_new hb with ⟨e, he, hsub⟩ | ⟨k, -, -, -, hd⟩
  · exact ⟨e, he, Expr.subterms_trans b.definition.expr_mem_subterms hsub⟩
  · rw [hd]
    exact exists_source_mem_subterms hb

lemma contains_items_iff {e : Expr} : r.items.contains e ↔ ∃ item ∈ r.sets.flatten, e == item := by
  rw [items, Roster.contains_ofList, List.contains_iff_exists_mem_beq]

lemma contains_items_of_mem {item : Expr} (h : item ∈ r.sets.flatten) : r.items.contains item :=
  Roster.contains_ofList_of_mem h

lemma early_of_item {e : Expr} (h : r.items.contains e) : r.early.contains e := by
  rw [early, Roster.contains_insertAll, Roster.contains_insertAll, h, Bool.true_or, Bool.true_or]

lemma early_of_groupingArgument {x e : Expr} {call : GroupingCall} (hx : x ∈ r.output)
    (hcall : call.toExpr ∈ x.subterms) (he : e ∈ call.args) : r.early.contains e := by
  have hmem : e ∈ r.output.flatMap Expr.groupingArguments :=
    List.mem_flatMap.2 ⟨x, hx, List.mem_flatMap.2
      ⟨call, List.mem_filterMap.2 ⟨call.toExpr, hcall, rfl⟩, he⟩⟩
  have hcontains : (r.output.flatMap Expr.groupingArguments).contains e :=
    List.elem_eq_true_of_mem hmem
  rw [early, Roster.contains_insertAll, Roster.contains_insertAll, hcontains, Bool.or_true,
    Bool.true_or]

lemma early_of_aggregateArgument {x e : Expr} {call : AggregateCall} (hx : x ∈ r.output)
    (hcall : call ∈ x.plainAggregates) (he : e ∈ call.args) :
    r.early.contains e.withoutDirection := by
  have hmem : e.withoutDirection ∈ r.output.flatMap Expr.aggregateArguments :=
    List.mem_flatMap.2 ⟨x, hx, List.mem_flatMap.2 ⟨call, hcall, List.mem_map_of_mem he⟩⟩
  have hcontains : (r.output.flatMap Expr.aggregateArguments).contains e.withoutDirection :=
    List.elem_eq_true_of_mem hmem
  rw [early, Roster.contains_insertAll, hcontains, Bool.or_true]

/-- Exactly the early expressions are bound, except for virtual columns. -/
theorem get?_isSome_iff (e : Expr) :
    ((r.bindingsAt next).get? e).isSome ↔ r.early.contains e ∧ e.virtual?.isNone := by
  have virtual_congr : ∀ {y : Expr}, e == y → e.virtual?.isNone = y.virtual?.isNone := by
    intro y hbeq
    replace hbeq : e.same y = true := hbeq
    cases e <;> cases y <;> simp_all [Expr.same, Expr.virtual?]
  have sources : (r.bindingsAt next).toList.map (·.source) = bindable r.early.toList :=
    Bindings.source_bindFrom _ _ _ _
  have bound : ((r.bindingsAt next).get? e).isSome ↔ ∃ y ∈ bindable r.early.toList, e == y := by
    rw [Bindings.get?_isSome_iff, ← sources]
    simp only [List.mem_map, exists_exists_and_eq_and]
  rw [bound, Roster.contains_iff]
  constructor
  · rintro ⟨y, hy, hbeq⟩
    obtain ⟨hmem, hvirtual⟩ := List.mem_filter.1 hy
    rw [virtual_congr hbeq]
    exact ⟨⟨y, hmem, hbeq⟩, hvirtual⟩
  · rintro ⟨⟨y, hmem, hbeq⟩, hvirtual⟩
    rw [virtual_congr hbeq] at hvirtual
    exact ⟨y, List.mem_filter.2 ⟨hmem, hvirtual⟩, hbeq⟩

/-- The repetitions in which ids mean what they should: there are no virtual columns, aliases with
equal ids are equal, no column carries the id of an alias, and all ids are below `next`.  Moreover
no alias is itself evaluated early. -/
structure Hygienic (r : Repetition) (next : Nat) : Prop where
  no_virtual : ∀ e ∈ r.exprs, ∀ t ∈ e.subterms, t.virtual?.isNone
  no_early_alias : ∀ e ∈ r.early.toList, e.alias?.isNone
  aliases_agree : ∀ a ∈ r.aliases, ∀ a' ∈ r.aliases, a.id = a'.id → a == a'
  columns_apart : ∀ e ∈ r.exprs, ∀ c ∈ e.columns, ∀ a ∈ r.aliases, c.id ≠ a.id
  below : r.toPlan.IdsBelow next

namespace Hygienic

lemma virtual?_eq_none (h : r.Hygienic next) {x e : Expr} (hx : x ∈ r.exprs)
    (he : e ∈ x.subterms) : e.virtual? = none :=
  Option.isNone_iff_eq_none.1 (h.no_virtual x hx e he)

lemma bindable_early (h : r.Hygienic next) : bindable r.early.toList = r.early.toList := by
  apply List.filter_eq_self.2
  intro e he
  obtain ⟨x, hx, hex⟩ := mem_early he
  exact h.no_virtual x hx e hex

lemma isSome_iff_early (h : r.Hygienic next) {e x : Expr} (hx : x ∈ r.exprs)
    (he : e ∈ x.subterms) : ((r.bindingsAt next).get? e).isSome ↔ r.early.contains e := by
  rw [get?_isSome_iff]
  exact and_iff_left (h.no_virtual x hx e he)

/-- Rewriting the output replaces the grouping calls and the early expressions. -/
lemma replaces_eq (h : r.Hygienic next) {e x : Expr} (hx : x ∈ r.exprs) (he : e ∈ x.subterms) :
    (r.bindingsAt next).replaces e = (e.groupingCall?.isSome || r.early.contains e) := by
  rw [Bindings.replaces, Bool.eq_iff_iff.2 (h.isSome_iff_early hx he)]

lemma mem_early_of_binding (h : r.Hygienic next) {b : Binding}
    (hb : b ∈ (r.bindingsAt next).toList) : b.source ∈ r.early.toList := by
  have hmem := (Bindings.mem_bindFrom hb).1
  rwa [h.bindable_early] at hmem

lemma below_alias (h : r.Hygienic next) {a : Alias} (ha : a ∈ r.aliases) : a.id.number < next := by
  obtain ⟨e, he, hsub⟩ := mem_aliases_iff.1 ha
  exact h.below _ (List.mem_append_left _ (List.mem_flatMap.2
    ⟨e, he, Expr.mem_ids_iff.2 ⟨_, hsub, a.column, rfl, rfl⟩⟩))

lemma below_column (h : r.Hygienic next) {e : Expr} (he : e ∈ r.exprs) {c : Column}
    (hc : c ∈ e.columns) : c.id.number < next :=
  h.below _ (List.mem_append_left _ (List.mem_flatMap.2
    ⟨e, he, Expr.id_mem_ids_of_mem_columns hc⟩))

lemma mem_aliases_of_outputAliases {a : Alias} (ha : a ∈ r.outputAliases) : a ∈ r.aliases := by
  obtain ⟨e, he, hsub⟩ := mem_outputAliases_iff.1 ha
  exact mem_aliases_iff.2 ⟨e, List.mem_append_right _ he, hsub⟩

/-- An early expression is bound to its own column, to an alias of the query over an equal
expression, or to a new alias over it. -/
lemma binding_cases (h : r.Hygienic next) {b : Binding} (hb : b ∈ (r.bindingsAt next).toList) :
    (∃ c, b.source = .column c ∧ b.definition = .column c) ∨
      (∃ a ∈ r.aliases, b.source == a.child ∧ b.definition = .named a) ∨
      ∃ k, next ≤ k ∧ k < r.firstCall next ∧
        Definition.existing? r.outputAliases b.source = none ∧
        b.definition = .named (.ofExpr ⟨k⟩ b.source) := by
  rcases definition_cases hb with hcolumn | ⟨a, ha, -, hbeq, hd⟩ | ⟨a, hsource, -⟩ | hnew
  · exact Or.inl hcolumn
  · exact Or.inr (Or.inl ⟨a, mem_aliases_of_outputAliases ha, hbeq, hd⟩)
  · have hnone := h.no_early_alias _ (h.mem_early_of_binding hb)
    rw [hsource] at hnone
    exact absurd hnone Bool.false_ne_true
  · exact Or.inr (Or.inr hnew)

/-- The definition of a bound expression evaluates it. -/
theorem source_beq_expr (h : r.Hygienic next) {b : Binding}
    (hb : b ∈ (r.bindingsAt next).toList) : b.source == b.definition.expr := by
  rcases h.binding_cases hb with ⟨c, hsource, hdef⟩ | ⟨a, -, hbeq, hdef⟩ | ⟨k, -, -, -, hdef⟩
  · rw [hsource, hdef]
    exact BEq.rfl
  · rw [hdef]
    exact hbeq
  · rw [hdef]
    exact BEq.rfl

/-- Only a column is bound to a column of the repetition. -/
lemma column_of_definition (h : r.Hygienic next) {b : Binding}
    (hb : b ∈ (r.bindingsAt next).toList) {c : Column} (hdef : b.definition = .column c) :
    b.source = .column c ∧ ∃ e ∈ r.exprs, c ∈ e.columns := by
  rcases h.binding_cases hb with ⟨c', hsource, hd⟩ | ⟨a, -, -, hd⟩ | ⟨k, -, -, -, hd⟩
  · rw [hdef] at hd
    cases hd
    obtain ⟨e, he, hsub⟩ := mem_early (h.mem_early_of_binding hb)
    rw [hsource] at hsub
    exact ⟨hsource, e, he, Expr.mem_columns_iff.2 hsub⟩
  all_goals
    rw [hdef] at hd
    simp at hd

/-- An alias that defines a bound column is no column of the repetition. -/
lemma alias_id_ne (h : r.Hygienic next) {b : Binding} (hb : b ∈ (r.bindingsAt next).toList)
    {a : Alias} (hdef : b.definition = .named a) {e : Expr} (he : e ∈ r.exprs) {c : Column}
    (hc : c ∈ e.columns) : a.id ≠ c.id := by
  rcases h.binding_cases hb with ⟨c', -, hd⟩ | ⟨a', ha', -, hd⟩ | ⟨k, hle, -, -, hd⟩
  all_goals
    rw [hdef] at hd
    cases hd
  · exact fun hid => h.columns_apart e he c hc a ha' hid.symm
  · intro hid
    have hlt := h.below_column he hc
    have hnum : k = c.id.number := congrArg ColumnId.number hid
    omega

/-- A column of the repetition that is not early shares its id with no bound column. -/
lemma id_ne_of_not_early (h : r.Hygienic next) {e : Expr} (he : e ∈ r.exprs) {c : Column}
    (hc : c ∈ e.columns) (hearly : ¬ r.early.contains (.column c)) {b : Binding}
    (hb : b ∈ (r.bindingsAt next).toList) : b.column.id ≠ c.id := by
  intro hid
  rw [Binding.id_column] at hid
  cases hdef : b.definition with
  | column c' =>
    have hsource := (h.column_of_definition hb hdef).1
    have hbeq : Expr.column c == b.source := by
      rw [hdef] at hid
      rw [hsource]
      exact (Column.beq_iff c c').2 hid.symm
    rw [Roster.contains_congr _ hbeq] at hearly
    exact hearly (Roster.contains_of_mem (h.mem_early_of_binding hb))
  | named a =>
    rw [hdef] at hid
    exact h.alias_id_ne hb hdef he hc hid

/-- The columns of bindings tell bound expressions apart. -/
theorem source_beq_source (h : r.Hygienic next) {b b' : Binding}
    (hb : b ∈ (r.bindingsAt next).toList) (hb' : b' ∈ (r.bindingsAt next).toList)
    (hid : b.definition.produced.id = b'.definition.produced.id) : b.source == b'.source := by
  cases hd : b.definition with
  | column c =>
    obtain ⟨hc, e, he, hce⟩ := h.column_of_definition hb hd
    cases hd' : b'.definition with
    | column c' =>
      obtain ⟨hc', -⟩ := h.column_of_definition hb' hd'
      rw [hd, hd'] at hid
      rw [hc, hc']
      exact (Column.beq_iff c c').2 hid
    | named a' =>
      rw [hd, hd'] at hid
      exact absurd hid.symm (h.alias_id_ne hb' hd' he hce)
  | named a =>
    cases hd' : b'.definition with
    | column c' =>
      obtain ⟨-, e, he, hce⟩ := h.column_of_definition hb' hd'
      rw [hd, hd'] at hid
      exact absurd hid (h.alias_id_ne hb hd he hce)
    | named a' =>
      -- Two aliases of the query agree, two new ones are one, and old ids are not new.
      rcases h.binding_cases hb with ⟨c, -, hx⟩ | ⟨a₀, ha, hbeq, hx⟩ | ⟨k, hle, -, hnone, hx⟩
      · rw [hd] at hx
        simp at hx
      · rcases h.binding_cases hb' with ⟨c, -, hx'⟩ | ⟨a₁, ha', hbeq', hx'⟩ | ⟨k', hle', -, -, hx'⟩
        · rw [hd'] at hx'
          cases hx'
        · rw [hx, hx'] at hid
          have hsame : a₀.toExpr.same a₁.toExpr = true := h.aliases_agree a₀ ha a₁ ha' hid
          simp only [Alias.toExpr, Expr.same, Bool.and_eq_true] at hsame
          have hchild : a₀.child == a₁.child := hsame.2
          exact BEq.trans hbeq (BEq.trans hchild (BEq.symm hbeq'))
        · have hlt := h.below_alias ha
          rw [hx, hx'] at hid
          have hnum : a₀.id.number = k' := congrArg ColumnId.number hid
          omega
      · rcases h.binding_cases hb' with ⟨c, -, hx'⟩ | ⟨a₁, ha', -, hx'⟩ | ⟨k', -, -, hnone', hx'⟩
        · rw [hd'] at hx'
          cases hx'
        · have hlt := h.below_alias ha'
          rw [hx, hx'] at hid
          have hnum : k = a₁.id.number := congrArg ColumnId.number hid
          omega
        · have hk : b.definition.produced.id = ⟨k⟩ := by rw [hx]; rfl
          have hk' : b'.definition.produced.id = ⟨k⟩ := by rw [← hid, hk]
          rw [Bindings.eq_of_new_id hb hb' hnone hnone' hk hk']
          exact BEq.rfl

end Hygienic

/-- `select a + 1 as x, grouping(a + 1) as g, sum(b) as s … group by grouping sets ((a + 1), (b))`,
a hygienic repetition with one binding of each kind. -/
def markedSums : Repetition :=
  let a : Expr := .column ⟨⟨0⟩, "a", .integer, true⟩
  let b : Expr := .column ⟨⟨1⟩, "b", .integer, true⟩
  let key : Expr := .arith .add a (.literal (.integer 1))
  { sets := [[key], [b]]
    output := [.named ⟨2⟩ "x" key, .named ⟨3⟩ "g" (.grouping .grouping [key]),
      .named ⟨4⟩ "s" (.aggregate .sum [b, .arith .multiply a a] false)]
    child := .scan "t" [⟨⟨0⟩, "a", .integer, true⟩, ⟨⟨1⟩, "b", .integer, true⟩] }

lemma markedSums_hygienic : markedSums.Hygienic 5 where
  no_virtual := by decide
  no_early_alias := by decide
  aliases_agree := by decide
  columns_apart := by decide
  below := by
    unfold Plan.IdsBelow
    decide

end Repetition
end GroupingPlanner

import GroupingPlanner.Proofs.Bound
/-!
# Binding a roster of expressions

Any roster of expressions can be bound to columns, whatever aliases a query carries and whether or
not their ids clash.  This module says what the bindings are: there is one for each expression that
is no virtual column, in order, and it is found under the expression.  How the column is defined
depends on the expression, and on the first alias of the output that stands directly over it.

Bindings are found by comparing columns by their ids.  So an expression is bound to an alias over an
equal expression, which may show a column under another name.  Where columns with one id are one
column, equal trees are the same (`Expr.eq_of_beq`), and the definition evaluates the expression
itself, with the type that it has.

* `Expr.mentions`, `Column.Coincide`, `Expr.eq_of_beq`: trees over the same columns.
* `Binding.DefinedBy`: the definition of a column, case by case.
* `Bindings.Binds`: all that holds of the bindings for a roster.
* `Repetition.bindAll_binds`: they are what `bindAll` returns, which never fails.
-/

namespace GroupingPlanner

/-! ## Trees over the same columns -/

namespace Expr

mutual

/-- All columns in a tree, those recorded in virtual columns included. -/
def mentions : Expr → List Column
  | column c | groupingIdColumn c => [c]
  | callColumn c _ args => c :: mentionsOfAll args
  | literal _ => []
  | named _ _ child | ordered child _ => mentions child
  | arith _ left right => mentions left ++ mentions right
  | call _ args _ | aggregate _ args _ | grouping _ args => mentionsOfAll args
  | window function partitionBy orderBy _ =>
    mentions function ++ (mentionsOfAll partitionBy ++ mentionsOfAll orderBy)

/-- The same for a list of trees. -/
def mentionsOfAll : List Expr → List Column
  | [] => []
  | e :: es => mentions e ++ mentionsOfAll es

end

@[simp] lemma mentionsOfAll_eq_flatMap (es : List Expr) :
    mentionsOfAll es = es.flatMap mentions := by
  induction es with
  | nil => rfl
  | cons e es ih => rw [mentionsOfAll, ih, List.flatMap_cons]

lemma mentions_subset_of_child {c e : Expr} (hc : c ∈ e.children) : c.mentions ⊆ e.mentions := by
  intro d hd
  cases e <;> simp only [children, List.mem_cons, List.mem_append, List.not_mem_nil, or_false] at hc
  case named => exact hc ▸ hd
  case ordered => exact hc ▸ hd
  case arith =>
    rw [mentions, List.mem_append]
    rcases hc with rfl | rfl
    · exact Or.inl hd
    · exact Or.inr hd
  case window =>
    rw [mentions, mentionsOfAll_eq_flatMap, mentionsOfAll_eq_flatMap, ← List.flatMap_append,
      List.mem_append]
    rcases hc with rfl | hc
    · exact Or.inl hd
    · exact Or.inr (List.mem_flatMap.2 ⟨c, List.mem_append.2 hc, hd⟩)
  all_goals
    rw [mentions, mentionsOfAll_eq_flatMap]
    exact List.mem_flatMap.2 ⟨c, hc, hd⟩

lemma mentions_subset {t e : Expr} (ht : t ∈ e.subterms) : t.mentions ⊆ e.mentions := by
  induction e using childrenInduction with
  | step e ih =>
    rcases mem_subterms_iff.1 ht with rfl | ⟨c, hc, htc⟩
    · exact List.Subset.refl _
    · exact List.Subset.trans (ih c hc htc) (mentions_subset_of_child hc)

end Expr

/-- A column of one list and one of the other are the same as soon as they have one id. -/
def Column.Coincide (cs cs' : List Column) : Prop := ∀ c ∈ cs, ∀ c' ∈ cs', c == c' → c = c'

instance (cs cs' : List Column) : Decidable (Column.Coincide cs cs') :=
  inferInstanceAs (Decidable (∀ c ∈ cs, ∀ c' ∈ cs', c == c' → c = c'))

lemma Column.Coincide.mono {cs cs' ds ds' : List Column} (h : Column.Coincide cs cs')
    (hds : ds ⊆ cs) (hds' : ds' ⊆ cs') : Column.Coincide ds ds' :=
  fun c hc c' hc' => h c (hds hc) c' (hds' hc')

namespace Expr

open List in
mutual

/-- Trees that agree but for names, types and nullability of columns are the same if their columns
coincide. -/
theorem eq_of_same (a b : Expr) (h : a.same b = true)
    (agree : Column.Coincide a.mentions b.mentions) : a = b := by
  cases a <;> cases b <;>
    simp only [same, Bool.and_eq_true, Bool.false_eq_true, decide_eq_true_eq] at h <;>
    simp only [mentions] at agree
  case column => exact congrArg column (agree _ mem_cons_self _ mem_cons_self h)
  case groupingIdColumn =>
    exact congrArg groupingIdColumn (agree _ mem_cons_self _ mem_cons_self h)
  case callColumn args _ _ args' =>
    obtain ⟨⟨hc, rfl⟩, hargs⟩ := h
    rw [agree _ mem_cons_self _ mem_cons_self hc,
      eqAll_of_sameAll args args' hargs (agree.mono (subset_cons_self _ _) (subset_cons_self _ _))]
  case literal => rw [h]
  case named child _ _ child' =>
    obtain ⟨⟨rfl, rfl⟩, hchild⟩ := h
    rw [eq_of_same child child' hchild agree]
  case ordered child _ child' _ =>
    obtain ⟨hchild, rfl⟩ := h
    rw [eq_of_same child child' hchild agree]
  case arith left right _ left' right' =>
    obtain ⟨⟨rfl, hleft⟩, hright⟩ := h
    rw [eq_of_same left left' hleft
        (agree.mono (subset_append_left _ _) (subset_append_left _ _)),
      eq_of_same right right' hright
        (agree.mono (subset_append_right _ _) (subset_append_right _ _))]
  case call args _ _ args' _ =>
    obtain ⟨⟨rfl, hargs⟩, rfl⟩ := h
    rw [eqAll_of_sameAll args args' hargs agree]
  case aggregate args _ _ args' _ =>
    obtain ⟨⟨rfl, hargs⟩, rfl⟩ := h
    rw [eqAll_of_sameAll args args' hargs agree]
  case grouping args _ args' =>
    obtain ⟨rfl, hargs⟩ := h
    rw [eqAll_of_sameAll args args' hargs agree]
  case window function partitionBy orderBy _ function' partitionBy' orderBy' _ =>
    obtain ⟨⟨⟨hfunction, hpartition⟩, horder⟩, rfl⟩ := h
    have keys := agree.mono (subset_append_right _ _) (subset_append_right _ _)
    rw [eq_of_same function function' hfunction
        (agree.mono (subset_append_left _ _) (subset_append_left _ _)),
      eqAll_of_sameAll partitionBy partitionBy' hpartition
        (keys.mono (subset_append_left _ _) (subset_append_left _ _)),
      eqAll_of_sameAll orderBy orderBy' horder
        (keys.mono (subset_append_right _ _) (subset_append_right _ _))]

theorem eqAll_of_sameAll (as bs : List Expr) (h : sameAll as bs = true)
    (agree : Column.Coincide (mentionsOfAll as) (mentionsOfAll bs)) : as = bs := by
  cases as <;> cases bs <;> simp only [sameAll, Bool.and_eq_true, Bool.false_eq_true] at h
  case nil => rfl
  case cons e es e' es' =>
    simp only [mentionsOfAll] at agree
    rw [eq_of_same e e' h.1 (agree.mono (subset_append_left _ _) (subset_append_left _ _)),
      eqAll_of_sameAll es es' h.2
        (agree.mono (subset_append_right _ _) (subset_append_right _ _))]

end

lemma eq_of_beq {e e' : Expr} (h : e == e') (agree : Column.Coincide e.mentions e'.mentions) :
    e = e' := eq_of_same e e' h agree

end Expr

/-! ## How a column is defined -/

lemma Definition.existing?_eq (aliases : List Alias) {e : Expr} (h : e.column? = none) :
    existing? aliases e = ((aliases.find? (e == ·.child)).or e.alias?).map named := by
  cases e with
  | column c => cases h
  | _ => rfl

namespace Binding

/-- How a bound expression is defined.  The aliases given are those that are there to be used. -/
structure DefinedBy (aliases : List Alias) (x : Binding) : Prop where
  /-- A column is handed on. -/
  column : ∀ c, x.source = .column c → x.definition = .column c
  /-- Anything else is evaluated under the first alias that stands directly over it, -/
  reused : ∀ a, x.source.column? = none → aliases.find? (x.source == ·.child) = some a →
    x.definition = .named a
  /-- or, without such an alias, as it is, if it is an alias itself, -/
  kept : ∀ a : Alias, x.source = a.toExpr → aliases.find? (x.source == ·.child) = none →
    x.definition = .named a
  /-- or else under a new alias. -/
  new : x.source.column? = none → x.source.alias? = none →
    aliases.find? (x.source == ·.child) = none → ∃ i, x.definition = .named (.ofExpr i x.source)

namespace DefinedBy

variable {aliases : List Alias} {x : Binding} (h : x.DefinedBy aliases)
include h

/-- The definition evaluates the bound expression, or an equal one that an alias stands over, or it
is the bound expression as it is. -/
lemma expr_cases : x.definition.expr = x.source ∨
    (∃ a ∈ aliases, x.source == a.child ∧ x.definition.expr = a.child) ∨
    (∀ a ∈ aliases, ¬ x.source == a.child) ∧ ∃ a : Alias, x.source = a.toExpr ∧
      x.definition = .named a := by
  cases hcolumn : x.source.column? with
  | some c =>
    have hsource := Expr.column?_eq_some_iff.1 hcolumn
    rw [h.column c hsource, hsource]
    exact Or.inl rfl
  | none =>
    cases hfind : aliases.find? (x.source == ·.child) with
    | some a =>
      have hbeq : x.source == a.child := by simpa using List.find?_some hfind
      rw [h.reused a hcolumn hfind]
      exact Or.inr (Or.inl ⟨a, List.mem_of_find?_eq_some hfind, hbeq, rfl⟩)
    | none =>
      cases halias : x.source.alias? with
      | some a =>
        have hsource := Expr.alias?_eq_some_iff.1 halias
        exact Or.inr (Or.inr ⟨List.find?_eq_none.1 hfind, a, hsource, h.kept a hsource hfind⟩)
      | none =>
        obtain ⟨i, hi⟩ := h.new hcolumn halias hfind
        rw [hi]
        exact Or.inl rfl

end DefinedBy
end Binding

namespace Bindings

/-! ## All bindings -/

lemma definedBy_of_mem_bindFrom {aliases : List Alias} {grouped : Expr → Bool} {next : Nat}
    {es : List Expr} {x : Binding} (hx : x ∈ bindFrom aliases grouped next es) :
    x.DefinedBy aliases := by
  obtain ⟨-, -, hdefined⟩ := mem_bindFrom hx
  -- An expression that has a definition keeps it.
  have keeps {d : Definition} (hd : Definition.existing? aliases x.source = some d) :
      x.definition = d := by
    rw [hd] at hdefined
    rcases hdefined with hdefined | ⟨hnone, -⟩
    · exact (Option.some.inj hdefined).symm
    · cases hnone
  constructor
  case column =>
    intro c hsource
    refine keeps ?_
    rw [hsource]
    rfl
  case reused =>
    intro a hcolumn hfind
    refine keeps ?_
    rw [Definition.existing?_eq aliases hcolumn, hfind]
    rfl
  case kept =>
    intro a hsource hfind
    refine keeps ?_
    rw [Definition.existing?_eq aliases (by rw [hsource]; rfl), hfind, hsource]
    rfl
  case new =>
    intro hcolumn halias hfind
    rw [Definition.existing?_eq aliases hcolumn, hfind, halias] at hdefined
    rcases hdefined with hdefined | ⟨-, k, -, -, hdef⟩
    · cases hdefined
    · exact ⟨⟨k⟩, hdef⟩

/-- What the bindings `b` are that a repetition makes for a roster of expressions. -/
structure Binds (r : Repetition) (sources : Roster Expr) (b : Bindings) : Prop where
  /-- Each expression that is no virtual column is bound once, in order, -/
  sources_eq : b.toList.map (·.source) = sources.toList.filter fun e => e.virtual?.isNone
  /-- and its binding is what is found under it, and under equal expressions. -/
  get?_iff : ∀ e x, b.get? e = some x ↔ x ∈ b.toList ∧ e == x.source
  defined : ∀ x ∈ b.toList, x.DefinedBy r.outputAliases
  /-- The column read is the one that is produced, except that it admits null if the expression
  belongs to the grouping sets. -/
  column_eq : ∀ x ∈ b.toList, x.column = { x.definition.produced with
    nullable := r.items.contains x.source || x.definition.produced.nullable }
  /-- What is evaluated is the bound expression, unless it is an alias as it is. -/
  evaluates : ∀ x ∈ b.toList,
    (x.source.alias?.isSome → ∃ a ∈ r.outputAliases, x.source == a.child) →
      x.source == x.definition.expr
  /-- Of the definitions that produce one column one is kept, in order, -/
  ordered : b.definitions.Sublist (b.toList.map (·.definition))
  nodup : (b.definitions.map (·.produced.id)).Nodup
  /-- so that every column that is read is produced. -/
  covers : ∀ x ∈ b.toList, ∃ d ∈ b.definitions, d.produced.id = x.column.id

end Bindings

namespace Repetition

variable {r : Repetition} {sources : Roster Expr} {next : Nat}

/-- The bindings that start with an id are right, whatever is bound. -/
theorem binds_bindingsFrom : Bindings.Binds r sources (r.bindingsFrom next sources.toList) := by
  have defined : ∀ x ∈ (r.bindingsFrom next sources.toList).toList, x.DefinedBy r.outputAliases :=
    fun x hx => Bindings.definedBy_of_mem_bindFrom hx
  constructor
  case sources_eq => exact Bindings.source_bindFrom _ _ _ _
  case get?_iff =>
    intro e x
    refine ⟨Bindings.get?_eq_some, fun ⟨hx, hbeq⟩ => ?_⟩
    obtain ⟨y, hget⟩ := Option.isSome_iff_exists.1 (Bindings.get?_isSome_iff.2 ⟨x, hx, hbeq⟩)
    obtain ⟨hy, hbeq'⟩ := Bindings.get?_eq_some hget
    rw [hget, eq_of_source_beq hy hx (BEq.trans (BEq.symm hbeq') hbeq)]
  case defined => exact defined
  case column_eq =>
    intro x hx
    rw [Binding.column, (Bindings.mem_bindFrom hx).2.1]
    cases r.items.contains x.source <;> rfl
  case evaluates =>
    intro x hx wrapped
    rcases (defined x hx).expr_cases with hsame | ⟨a, -, hbeq, hexpr⟩ | ⟨unwrapped, a, hsource, -⟩
    · rw [hsame]
      exact BEq.rfl
    · rw [hexpr]
      exact hbeq
    · obtain ⟨a', ha', hbeq⟩ := wrapped (by rw [hsource]; rfl)
      exact absurd hbeq (unwrapped a' ha')
  case ordered => exact Roster.sublist_ofList _
  case nodup =>
    exact Roster.nodup_map fun d _ d' _ hid => (Column.beq_iff d.produced d'.produced).2 hid
  case covers =>
    intro x hx
    obtain ⟨d, hd, hbeq⟩ := Roster.exists_mem_ofList
      (List.mem_map_of_mem (f := Binding.definition) hx)
    exact ⟨d, hd, by rw [Binding.id_column, (Column.beq_iff _ _).1 hbeq]⟩

/-- Where columns with one id are one column, the definition evaluates the bound expression itself,
and the column has its type. -/
lemma exact_of_coincide {all : List Column} (agree : Column.Coincide all all)
    (output : r.output.flatMap Expr.mentions ⊆ all)
    (bound : sources.toList.flatMap Expr.mentions ⊆ all) {x : Binding}
    (hx : x ∈ (r.bindingsFrom next sources.toList).toList) :
    x.column.type = x.source.type ∧
      ((x.source.alias?.isSome → ∃ a ∈ r.outputAliases, x.source == a.child) →
        x.definition.expr = x.source) := by
  have type : x.column.type = x.definition.expr.type := by
    rw [← x.definition.type_produced, Binding.column]
    split <;> rfl
  rcases (Bindings.definedBy_of_mem_bindFrom hx).expr_cases with
    hsame | ⟨a, ha, hbeq, hexpr⟩ | ⟨unwrapped, a, hsource, hdef⟩
  · rw [type, hsame]
    exact ⟨rfl, fun _ => rfl⟩
  · obtain ⟨e, he, hsub⟩ := mem_outputAliases_iff.1 ha
    have hchild := Expr.subterms_trans (Definition.named a).expr_mem_subterms hsub
    have same : x.source = a.child := by
      refine Expr.eq_of_beq hbeq (agree.mono (fun c hc => bound ?_) fun c hc => output ?_)
      · exact List.mem_flatMap.2 ⟨_, List.mem_of_mem_filter (Bindings.mem_bindFrom hx).1, hc⟩
      · exact List.mem_flatMap.2 ⟨e, he, Expr.mentions_subset hchild hc⟩
    rw [type, hexpr, same]
    exact ⟨rfl, fun _ => rfl⟩
  · rw [type, hdef, hsource]
    refine ⟨rfl, fun wrapped => ?_⟩
    obtain ⟨a', ha', hbeq⟩ := wrapped rfl
    rw [← hsource] at hbeq
    exact absurd hbeq (unwrapped a' ha')

/-- Binding never fails, and the bindings are right whatever roster of expressions is bound.  If
columns with one id are one column, in the output and in what is bound, then the columns read have
the types of the expressions, and these expressions themselves are what is evaluated. -/
theorem bindAll_binds (r : Repetition) (sources : Roster Expr) (s : Session) :
    ∃ b s', (r.bindAll sources).runIn s = (.ok b, s') ∧ Bindings.Binds r sources b ∧
      (Column.Coincide ((r.output ++ sources.toList).flatMap Expr.mentions)
          ((r.output ++ sources.toList).flatMap Expr.mentions) →
        ∀ x ∈ b.toList, x.column.type = x.source.type ∧
          ((x.source.alias?.isSome → ∃ a ∈ r.outputAliases, x.source == a.child) →
            x.definition.expr = x.source)) := by
  refine ⟨_, _, rfl, binds_bindingsFrom, fun agree x hx => exact_of_coincide agree ?_ ?_ hx⟩
  · rw [List.flatMap_append]
    exact List.subset_append_left _ _
  · rw [List.flatMap_append]
    exact List.subset_append_right _ _

/-- Early expressions and entries of the output together are bound in each of the ways there
are. -/
theorem bindAll_binds_markedSums :
    ∃ b s', (markedSums.bindAll (markedSums.early.insertAll markedSums.output)).runIn
        { nextId := 5 } = (.ok b, s') ∧
      Bindings.Binds markedSums (markedSums.early.insertAll markedSums.output) b ∧
      ∀ x ∈ b.toList, x.column.type = x.source.type ∧
        ((x.source.alias?.isSome → ∃ a ∈ markedSums.outputAliases, x.source == a.child) →
          x.definition.expr = x.source) := by
  obtain ⟨b, s', run, binds, same⟩ :=
    bindAll_binds markedSums (markedSums.early.insertAll markedSums.output) { nextId := 5 }
  exact ⟨b, s', run, binds, same (by decide)⟩

end Repetition

end GroupingPlanner

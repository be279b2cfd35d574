import GroupingPlanner.Proofs.NamedEntries
/-!
# Lowering keeps plans well scoped

In a well-scoped plan every node reads only what the node below exposes, by id.  A repetition makes
its virtual columns itself, so below it they are not asked for.  Lowering replaces a repetition by
three nodes and may change the node below once more, when duplicates are defined; each of them has
to find what it reads.  Whatever stood above the repetition has to find what it read before, so the
ids that a repetition exposes have to be kept as well.

* `Plan.WellScoped`: every node reads what the node below exposes.
* `Plan.KeepsSchema`, at `Plan.SameId`: the ids a plan exposes are kept.
* `Aggregation.wellScoped_separate`, `Stacked.wellScoped`, `Repetition.wellScoped_of_lower`: one
  node.
* `Plan.Lowers.wellScoped`, `Plan.wellScoped_lower`: whole plans.
-/

namespace GroupingPlanner

/-! ## Scopes -/

/-- The columns an expression reads from below, the virtual ones included.  What is recorded in a
virtual column is not read. -/
def Expr.reads (e : Expr) : List Column := e.columns ++ e.virtuals.map (·.column)

namespace Plan

/-- A plan has a schema, and the schema has the ids of some columns. -/
def Exposes (p : Plan) (wanted : List Column) : Prop :=
  ∃ cs, p.schema = .ok cs ∧ ∀ c ∈ wanted, ∃ c' ∈ cs, c'.id = c.id

/-- Every node reads what the node below exposes. -/
def WellScoped : Plan → Prop
  | scan .. => True
  | projection list child => child.Exposes (list.flatMap Expr.reads) ∧ child.WellScoped
  | repetition sets output child =>
    child.Exposes ((sets.flatten ++ output).flatMap Expr.columns) ∧ child.WellScoped
  | aggregation groupBy output child =>
    child.Exposes ((groupBy ++ output).flatMap Expr.reads) ∧ child.WellScoped

/-- The ids of two columns are the same. -/
abbrev SameId (c c' : Column) : Prop := c'.id = c.id

lemma Exposes.of_keepsSchema {p p' : Plan} {wanted : List Column} (h : p.Exposes wanted)
    (keeps : p.KeepsSchema SameId p') : p'.Exposes wanted := by
  obtain ⟨cs, hcs, hwanted⟩ := h
  obtain ⟨cs', hcs', hrel⟩ := keeps cs hcs
  refine ⟨cs', hcs', fun c hc => ?_⟩
  obtain ⟨d, hd, hid⟩ := hwanted c hc
  obtain ⟨d', hd', hid'⟩ := exists_of_forall₂ hrel hd
  exact ⟨d', hd', hid'.trans hid⟩

end Plan

/-! ## What is read -/

namespace Expr

/-- What a part of an expression reads, the expression reads. -/
lemma reads_subset {t e : Expr} (ht : t ∈ e.subterms) : t.reads ⊆ e.reads := by
  intro c hc
  rcases List.mem_append.1 hc with hc | hc
  · exact List.mem_append_left _ (mem_columns_of_subterm hc ht)
  · obtain ⟨v, hv, rfl⟩ := List.mem_map.1 hc
    exact List.mem_append_right _ (List.mem_map_of_mem (mem_virtuals_of_subterm hv ht))

@[simp] lemma reads_column (c : Column) : (column c).reads = [c] := by
  simp [reads, columns_eq, virtuals_eq, column?, virtual?, children]

@[simp] lemma reads_virtual (v : VirtualColumn) : v.toExpr.reads = [v.column] := by
  obtain ⟨c, _ | call⟩ := v <;>
    simp [VirtualColumn.toExpr, reads, columns_eq, virtuals_eq, column?, virtual?, children]

end Expr

/-- An entry of a projection reads what the expression reads that it evaluates. -/
lemma Definition.reads_toExpr (d : Definition) : d.toExpr.reads = d.expr.reads := by
  cases d with
  | column c => rfl
  | named a =>
    simp [toExpr, expr, Alias.toExpr, Expr.reads, Expr.columns_eq (.named _ _ _),
      Expr.virtuals_eq (.named _ _ _), Expr.column?, Expr.virtual?, Expr.children]

/-! ## Duplicates -/

/-- With duplicates a repetition puts out what it put out before, and the duplicates. -/
lemma Repetition.mem_output_duplicating {r : Repetition} (g : Ground) {ds : List Duplicate}
    {e : Expr} :
    e ∈ (r.duplicating g ds).output ↔ e ∈ r.output ∨ ∃ d ∈ ds, e = .column d.copy := by
  simp only [duplicating, List.mem_append, List.mem_filter, List.mem_map]
  constructor
  · rintro ((⟨h, -⟩ | ⟨d, hd, rfl⟩) | ⟨h, -⟩)
    · exact Or.inl h
    · exact Or.inr ⟨d, hd, rfl⟩
    · exact Or.inl h
  · rintro (h | ⟨d, hd, rfl⟩)
    · cases hvirtual : e.virtual? with
      | none => exact Or.inl (Or.inl ⟨h, rfl⟩)
      | some v => exact Or.inr ⟨h, rfl⟩
    · exact Or.inl (Or.inr ⟨d, hd, rfl⟩)

namespace Aggregation

variable {a b : Aggregation} {r : Repetition} {s s' : Session}

/-- The ground for duplicates is well scoped. -/
lemma wellScoped_forColumns {child : Plan} {columns : List Column} {g : Ground}
    (hg : Ground.forColumns child columns = .ok g) (hchild : child.WellScoped) :
    g.input.Exposes (g.list.flatMap Expr.reads) ∧ g.input.WellScoped := by
  rcases Ground.forColumns_cases hg with heq | ⟨hinput, ⟨schema, hschema, hlist⟩, -⟩
  · rwa [heq] at hchild
  · rw [hinput, hlist]
    refine ⟨⟨schema, hschema, fun c hc => ?_⟩, hchild⟩
    simp only [List.flatMap_map, Expr.reads_column, List.flatMap_singleton'] at hc
    exact ⟨c, hc, rfl⟩

/-- What an aggregation over duplicates reads, it read before, or it is a duplicate. -/
lemma mem_reads_renamed {ds : List Duplicate} {e : Expr} {c : Column}
    (hc : c ∈ (e.mapAggregateArguments (Expr.replaceColumns (Duplicate.copyOf? ds))).reads) :
    c ∈ e.reads ∨ ∃ d ∈ ds, c = d.copy := by
  rcases List.mem_append.1 hc with hc | hc
  · exact (Duplicate.mem_columns_renamed hc).imp_left (List.mem_append_left _)
  · rw [Expr.virtuals_mapAggregateArguments (Expr.virtuals_replaceColumns _)] at hc
    exact Or.inl (List.mem_append_right _ hc)

/-- Reading duplicates keeps an aggregation well scoped. -/
lemma wellScoped_reading {g : Ground} {ds : List Duplicate} {columns : List Column}
    (hchild : a.child = r.toPlan) (h : a.toPlan.WellScoped)
    (hg : Ground.forColumns r.child columns = .ok g)
    (sources : ∀ d ∈ ds, g.source? d.column = some d.definition.child) :
    (a.reading r g ds).toPlan.WellScoped := by
  obtain ⟨exposed, below⟩ := h
  rw [hchild] at exposed below
  obtain ⟨cs, hcs, hreads⟩ := exposed
  obtain ⟨⟨schema, hschema, hcolumns⟩, hbelow⟩ := below
  have hlist := Ground.columnsOf_list hg hschema
  obtain ⟨⟨inputs, hinputs, hinput⟩, hground⟩ := wellScoped_forColumns hg hbelow
  refine ⟨?_, ⟨schema ++ ds.map (·.copy), ?_, ?_⟩, ⟨inputs, hinputs, ?_⟩, hground⟩
  · -- The aggregation reads what the repetition puts out: as before, and duplicates.
    obtain ⟨cs', hcs'⟩ :
        ∃ cs', Plan.columnsOf .repetition (r.duplicating g ds).output = .ok cs' := by
      refine Plan.exists_columnsOf fun e he => ?_
      rcases (Repetition.mem_output_duplicating g).1 he with he | ⟨d, -, rfl⟩
      · exact Plan.produced?_isSome_of_columnsOf hcs he
      · rfl
    have old : ∀ e ∈ a.groupBy ++ a.output, ∀ c ∈ e.reads, ∃ c' ∈ cs', c'.id = c.id := by
      intro e he c hc
      obtain ⟨c', hc', hid⟩ := hreads c (List.mem_flatMap.2 ⟨e, he, hc⟩)
      obtain ⟨e', he', hproduced⟩ := (Plan.mem_columnsOf_iff hcs).1 hc'
      have hstill : e' ∈ (r.duplicating g ds).output :=
        (Repetition.mem_output_duplicating g).2 (Or.inl he')
      exact ⟨c', (Plan.mem_columnsOf_iff hcs').2 ⟨e', hstill, hproduced⟩, hid⟩
    refine ⟨cs', hcs', fun c hc => ?_⟩
    obtain ⟨e, he, hce⟩ := List.mem_flatMap.1 hc
    rcases List.mem_append.1 he with he | he
    · exact old e (List.mem_append_left _ he) c hce
    · obtain ⟨e₀, he₀, rfl⟩ := List.mem_map.1 he
      rcases mem_reads_renamed hce with hce | ⟨d, hd, rfl⟩
      · exact old e₀ (List.mem_append_right _ he₀) c hce
      · have hput : .column d.copy ∈ (r.duplicating g ds).output :=
          (Repetition.mem_output_duplicating g).2 (Or.inr ⟨d, hd, rfl⟩)
        exact ⟨d.copy, (Plan.mem_columnsOf_iff hcs').2 ⟨_, hput, rfl⟩, rfl⟩
  · rw [Plan.columnsOf_eq_ok_iff] at hlist
    rw [Plan.schema, Plan.columnsOf_eq_ok_iff, List.map_append, List.map_append, hlist,
      List.map_map, List.map_map]
    rfl
  · -- The repetition reads what the projection produces: as before, and duplicates.
    intro c hc
    have old : ∀ e ∈ r.sets.flatten ++ r.output, c ∈ e.columns →
        ∃ c' ∈ schema ++ ds.map (·.copy), c'.id = c.id := by
      intro e he hce
      obtain ⟨c', hc', hid⟩ := hcolumns c (List.mem_flatMap.2 ⟨e, he, hce⟩)
      exact ⟨c', List.mem_append_left _ hc', hid⟩
    obtain ⟨e, he, hce⟩ := List.mem_flatMap.1 hc
    rcases List.mem_append.1 he with he | he
    · exact old e (List.mem_append_left _ he) hce
    · rcases (Repetition.mem_output_duplicating g).1 he with he | ⟨d, hd, rfl⟩
      · exact old e (List.mem_append_right _ he) hce
      · rw [Expr.columns_column, List.mem_singleton] at hce
        exact ⟨d.copy, List.mem_append_right _ (List.mem_map_of_mem hd), by rw [hce]⟩
  · -- A duplicate is evaluated by what evaluates its column, so nothing new is read there.
    intro c hc
    rw [List.flatMap_append] at hc
    rcases List.mem_append.1 hc with hc | hc
    · exact hinput c hc
    · obtain ⟨e, he, hce⟩ := List.mem_flatMap.1 hc
      obtain ⟨d, hd, rfl⟩ := List.mem_map.1 he
      obtain ⟨entry, hentry, -, hexpr⟩ := definingExpr?_eq_some (sources d hd)
      refine hinput c (List.mem_flatMap.2 ⟨entry.toExpr, hentry, ?_⟩)
      rw [Definition.reads_toExpr, hexpr]
      have reads : d.definition.toExpr.reads = d.definition.child.reads :=
        Definition.reads_toExpr (.named d.definition)
      rwa [reads] at hce

/-- Separation keeps an aggregation well scoped, and the ids of its columns. -/
theorem wellScoped_separate (hchild : a.child = r.toPlan) (h : a.toPlan.WellScoped)
    (run : a.separate.runIn s = (.ok b, s')) :
    b.toPlan.WellScoped ∧ a.toPlan.KeepsSchema Plan.SameId b.toPlan := by
  rcases separate_eq_ok hchild run with ⟨-, rfl, -⟩ | ⟨g, -, hg, -, -, rfl⟩
  · exact ⟨h, .of_eq Plan.SameId (fun _ => rfl) rfl⟩
  · refine ⟨wellScoped_reading hchild h hg fun d hd => Ground.source_duplicatesFrom hd, ?_⟩
    refine fun cs hcs => Plan.exists_columnsOf_map hcs fun e _ c hc => ?_
    obtain ⟨c', hc', hid, -⟩ := Expr.produced?_mapAggregateArguments hc
    exact ⟨c', hc', hid⟩

end Aggregation

/-! ## The stack -/

namespace Repetition

variable {r : Repetition} {next : Nat}

lemma virtuals_eq_nil (free : r.VirtualFree) {e : Expr} (he : e ∈ r.exprs) : e.virtuals = [] := by
  apply List.eq_nil_iff_forall_not_mem.2
  intro v hv
  have plain := free e he _ (Expr.mem_virtuals_iff.1 hv)
  rw [Expr.virtual?_toExpr] at plain
  simp at plain

end Repetition

namespace Stacked

variable {r : Repetition} {next : Nat} (x : Stacked r next) (h : r.toPlan.WellScoped)

/-- The child exposes what the repetition reads. -/
lemma exists_schema_of_wellScoped (h : r.toPlan.WellScoped) {e : Expr} (he : e ∈ r.exprs)
    {c : Column} (hc : c ∈ e.columns) : ∃ c' ∈ x.schema, c'.id = c.id := by
  obtain ⟨⟨cs, hcs, exposed⟩, -⟩ := h
  obtain rfl : x.schema = cs := Except.ok.inj (x.schema_eq.symm.trans hcs)
  exact exposed c (List.mem_flatMap.2 ⟨e, he, hc⟩)

include h

/-- Every column that the stack reads or groups by has an entry. -/
lemma exists_entry_of_readColumn {c : Column} (hc : c ∈ x.readColumns) :
    ∃ d ∈ x.entries, d.produced.id = c.id := by
  rcases List.mem_append.1 hc with hkey | hother
  · rw [← x.setColumns_eq] at hkey
    exact x.exists_entry_of_grouped (Roster.contains_of_mem hkey)
  · obtain ⟨e, he, hce⟩ := List.mem_flatMap.1 (List.mem_of_mem_filter (Roster.mem_ofList hother))
    rcases Repetition.mem_columns_outputAt he hce with ⟨b, hb, rfl⟩ | ⟨e₀, he₀, hc₀⟩
    · obtain ⟨b', -, hentry, hid⟩ := x.exists_entry_of_binding hb
      exact ⟨_, hentry, hid⟩
    · exact x.exists_entry_of_otherColumn hother
        (x.exists_schema_of_wellScoped h (List.mem_append_right _ he₀) hc₀)

/-- The entries read what the repetition read, and nothing else. -/
lemma exposes_entries (free : r.VirtualFree) :
    r.child.Exposes ((x.entries.map Definition.toExpr).flatMap Expr.reads) := by
  refine ⟨x.schema, x.schema_eq, fun c hc => ?_⟩
  obtain ⟨e, he, hce⟩ := List.mem_flatMap.1 hc
  obtain ⟨d, hd, rfl⟩ := List.mem_map.1 he
  rcases List.mem_append.1 hd with hd | hd
  · obtain ⟨b, hb, rfl⟩ := mem_definitions hd
    obtain ⟨e₀, he₀, hsub⟩ := Repetition.exists_mem_subterms_of_binding hb
    rw [Definition.reads_toExpr] at hce
    have hread := Expr.reads_subset hsub hce
    rw [Expr.reads, Repetition.virtuals_eq_nil free he₀, List.map_nil, List.append_nil] at hread
    exact x.exists_schema_of_wellScoped h he₀ hread
  · obtain ⟨c', hc', rfl⟩ := List.mem_map.1 hd
    obtain ⟨wanted, -, hfind⟩ := List.mem_filterMap.1 hc'
    rw [Definition.toExpr, Expr.reads_column, List.mem_singleton] at hce
    exact ⟨c', List.mem_of_find?_eq_some hfind, by rw [hce]⟩

omit h in
lemma schema_repetition : x.repetition.toPlan.schema = .ok (x.readColumns ++
    (x.substituted.virtualColumns x.groupingId).map (·.column)) := by
  have output : x.repetition.output = x.readColumns.map Expr.column ++
      (x.substituted.virtualColumns x.groupingId).map VirtualColumn.toExpr := rfl
  rw [Repetition.toPlan, Plan.schema, Plan.columnsOf_eq_ok_iff, output, List.map_append,
    List.map_append, List.map_map, List.map_map, List.map_map]
  refine congrArg₂ _ rfl (List.map_congr_left fun v _ => ?_)
  exact VirtualColumn.produced?_toExpr v

/-- The stack of a well-scoped repetition is well scoped. -/
theorem wellScoped (free : r.VirtualFree) : x.aggregation.toPlan.WellScoped := by
  obtain ⟨below, hbelow, exposed⟩ := x.exists_schema_child
  refine ⟨⟨_, x.schema_repetition, fun c hc => ?_⟩, ⟨below, hbelow, fun c hc => ?_⟩, ?_⟩
  · -- The aggregation reads the columns and the virtual columns that the repetition puts out.
    have of_column : (∃ c' ∈ x.readColumns, c'.id = c.id) → ∃ c' ∈ x.readColumns ++
        (x.substituted.virtualColumns x.groupingId).map (·.column), c'.id = c.id :=
      fun ⟨c', hc', hid⟩ => ⟨c', List.mem_append_left _ hc', hid⟩
    have of_virtual : ∀ v ∈ x.substituted.virtualColumns x.groupingId, v.column = c →
        ∃ c' ∈ x.readColumns ++ (x.substituted.virtualColumns x.groupingId).map (·.column),
          c'.id = c.id := by
      rintro v hv rfl
      exact ⟨v.column, List.mem_append_right _ (List.mem_map_of_mem hv), rfl⟩
    obtain ⟨e, he, hce⟩ := List.mem_flatMap.1 hc
    rcases List.mem_append.1 he with he | he
    · rcases List.mem_append.1 he with he | he
      · obtain ⟨key, hkey, rfl⟩ := List.mem_map.1 he
        rw [Expr.reads_column, List.mem_singleton] at hce
        exact of_column ⟨key, List.mem_append_left _ hkey, by rw [hce]⟩
      · obtain ⟨v, hv, rfl⟩ := List.mem_map.1 he
        rw [Expr.reads_virtual, List.mem_singleton] at hce
        exact of_virtual v hv hce.symm
    · rcases List.mem_append.1 hce with hce | hce
      · exact of_column (x.exists_readColumn he hce)
      · obtain ⟨v, hv, hvc⟩ := List.mem_map.1 hce
        exact of_virtual v (x.mem_virtualColumns free he (Expr.mem_virtuals_iff.1 hv)) hvc
  · -- The repetition reads columns that have entries.
    suffices hentry : ∃ d ∈ x.entries, d.produced.id = c.id by
      obtain ⟨d, hd, hid⟩ := hentry
      obtain ⟨c', hc', hid'⟩ := exposed d hd
      exact ⟨c', hc', hid'.trans hid⟩
    obtain ⟨e, he, hce⟩ := List.mem_flatMap.1 hc
    rcases List.mem_append.1 he with he | he
    · exact x.exists_entry_of_grouped
        (Roster.contains_ofList_of_mem (List.mem_flatMap.2 ⟨e, he, hce⟩))
    · rcases List.mem_append.1 he with he | he
      · obtain ⟨c', hc', rfl⟩ := List.mem_map.1 he
        rw [Expr.columns_column, List.mem_singleton] at hce
        rw [hce]
        exact x.exists_entry_of_readColumn h hc'
      · obtain ⟨v, -, rfl⟩ := List.mem_map.1 he
        rw [Expr.columns_virtual] at hce
        exact absurd hce List.not_mem_nil
  · rcases x.child_cases with hput | ⟨hkept, -⟩
    · rw [hput]
      exact ⟨x.exposes_entries h free, h.2⟩
    · rw [hkept]
      exact h.2

end Stacked

/-! ## Lowering -/

/-- A lowered repetition is well scoped, and exposes columns of the same ids. -/
theorem Repetition.wellScoped_of_lower {r : Repetition} {settings : Settings} {s s' : Session}
    {a : Aggregation} (free : r.VirtualFree) (flat : r.FlatAliases) (h : r.toPlan.WellScoped)
    (run : (r.lower settings).runIn s = (.ok a, s')) :
    a.toPlan.WellScoped ∧ r.toPlan.KeepsSchema Plan.SameId a.toPlan := by
  obtain ⟨-, -, x, s₁, -, run⟩ := lower_eq_ok run
  have stacked : r.toPlan.KeepsSchema Plan.SameId x.aggregation.toPlan := fun cs hcs =>
    Plan.exists_columnsOf_map hcs fun e _ c hc => id_produced?_replace flat hc _
  obtain ⟨separated, keeps⟩ := Aggregation.wellScoped_separate rfl (x.wellScoped h free) run
  exact ⟨separated, stacked.trans (fun _ _ _ hab hbc => hbc.trans hab) keeps⟩

namespace Plan

/-- Lowering node by node keeps a plan well scoped, and the ids of its columns. -/
theorem Lowers.wellScoped {p p' : Plan} {settings : Settings} {s s' : Session}
    (lowers : p.Lowers settings s p' s') (h : p.WellScoped)
    (clean : p.EveryRepetition fun r => r.VirtualFree ∧ r.FlatAliases) :
    p'.WellScoped ∧ p.KeepsSchema SameId p' := by
  induction lowers with
  | scan relation columns s => exact ⟨h, .of_eq SameId (fun _ => rfl) rfl⟩
  | projection list below ih | aggregation groupBy output below ih =>
    obtain ⟨hchild, keeps⟩ := ih h.2 clean
    exact ⟨⟨h.1.of_keepsSchema keeps, hchild⟩, .of_eq SameId (fun _ => rfl) rfl⟩
  | @repetition sets output child child' s s₁ s' a below run ih =>
    obtain ⟨hchild, keeps⟩ := ih h.2 clean.2
    have exposed : child'.Exposes ((sets.flatten ++ output).flatMap Expr.columns) :=
      h.1.of_keepsSchema keeps
    -- Neither condition looks at the child, so both still hold over the new one.
    have free : (Repetition.mk sets output child').VirtualFree := clean.1.1
    have flat : (Repetition.mk sets output child').FlatAliases := clean.1.2
    obtain ⟨lowered, keeps'⟩ := Repetition.wellScoped_of_lower free flat ⟨exposed, hchild⟩ run
    exact ⟨lowered, keeps'⟩

/-- Lowering keeps a plan well scoped, if no repetition has virtual columns in it or puts an alias
directly over an alias.  Nothing is asked of the ids in use. -/
theorem wellScoped_lower {p p' : Plan} {settings : Settings} {s s' : Session} (h : p.WellScoped)
    (clean : p.EveryRepetition fun r => r.VirtualFree ∧ r.FlatAliases)
    (run : (p.lower settings).runIn s = (.ok p', s')) : p'.WellScoped := by
  obtain ⟨-, s₁, lowers, -⟩ := lower_eq_ok run
  exact (lowers.wellScoped h clean).1

theorem wellScoped_lower_nestedMarks :
    nestedMarks.WellScoped ∧ (nestedMarks.EveryRepetition fun r => r.VirtualFree ∧ r.FlatAliases) ∧
      ∃ p' s', (nestedMarks.lower {}).runIn { nextId := 7 } = (.ok p', s') ∧ p'.WellScoped := by
  have h : nestedMarks.WellScoped :=
    ⟨⟨_, rfl, by decide⟩, ⟨_, rfl, by decide⟩, ⟨_, rfl, by decide⟩, trivial⟩
  have clean : nestedMarks.EveryRepetition fun r => r.VirtualFree ∧ r.FlatAliases := by
    unfold Repetition.VirtualFree Repetition.FlatAliases
    exact ⟨⟨by decide, by decide⟩, ⟨by decide, by decide⟩, trivial⟩
  obtain ⟨p', s', run⟩ : ∃ p' s', (nestedMarks.lower {}).runIn { nextId := 7 } = (.ok p', s') :=
    ⟨_, _, rfl⟩
  exact ⟨h, clean, p', s', run, wellScoped_lower h clean run⟩

end Plan

end GroupingPlanner

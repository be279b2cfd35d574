import GroupingPlanner.Proofs.Additions
import GroupingPlanner.Proofs.ColumnRepetitions
/-!
# Names below a lowered repetition

A projection should expose columns with different names.  Only the names of duplicates are chosen so
that they differ from those taken.  All other entries bring names along: an early expression is
called as the alias of the query that is reused for it, or by its text, and a column that the query
reads as it stands keeps the name it has below.  In

    select b + 1 as a, sum(a) as s … group by grouping sets ((b + 1))

the alias `a` is put below, and so is the column `a`, which `sum` reads.

* `Repetition.label`, `Repetition.handedOn`: the names that early expressions get, and the columns
  that are handed on.
* `Repetition.LabelsApart`: the condition on a query under which no two of these names are equal.
* `Stacked.Lowered.nodup_names_iff`: duplicates add no clash.
* `Stacked.nodup_names_entries_iff`: in a hygienic repetition the entries are named as above.
* `Repetition.lower_distinctNames_iff`: when the names below a lowered repetition are different.
* `Repetition.reusedName_not_distinct`: the query above.
-/

namespace GroupingPlanner

/-! ## Names in the query -/

namespace Repetition

/-- The name that an early expression gets below: that of the column or alias that defines it, or
else its text. -/
def label (r : Repetition) (e : Expr) : String :=
  ((Definition.existing? r.outputAliases e).map (·.produced.name)).getD e.text

/-- The columns that the output reads as they stand: inside no grouping call and no early
expression. -/
def looseColumns (r : Repetition) : List Column :=
  ((r.output.flatMap
    (Expr.nodesUntil fun n => n.groupingCall?.isSome || r.early.contains n)).filter
      fun n => !r.early.contains n).filterMap Expr.column?

/-- The columns of a schema that are handed on for the output to read. -/
def handedOn (r : Repetition) (schema : List Column) : List Column :=
  r.looseColumns.filterMap fun c => schema.find? (· == c)

/-- No two early expressions get one name, and none gets that of a column handed on. -/
structure LabelsApart (r : Repetition) (schema : List Column) : Prop where
  nodup : (r.early.toList.map r.label).Nodup
  apart : ∀ p ∈ r.handedOn schema, p.name ∉ r.early.toList.map r.label

instance (r : Repetition) (schema : List Column) : Decidable (r.LabelsApart schema) :=
  decidable_of_iff ((r.early.toList.map r.label).Nodup ∧
      ∀ p ∈ r.handedOn schema, p.name ∉ r.early.toList.map r.label)
    ⟨fun h => ⟨h.1, h.2⟩, fun h => ⟨h.nodup, h.apart⟩⟩

/-- The query calls columns as a schema does. -/
def NamesAgree (r : Repetition) (schema : List Column) : Prop :=
  ∀ e ∈ r.exprs, ∀ c ∈ e.columns, ∀ p ∈ schema, p == c → p.name = c.name

instance (r : Repetition) (schema : List Column) : Decidable (r.NamesAgree schema) :=
  inferInstanceAs <| Decidable <|
    ∀ e ∈ r.exprs, ∀ c ∈ e.columns, ∀ p ∈ schema, p == c → p.name = c.name

variable {r : Repetition} {next : Nat}

lemma mem_looseColumns_iff {c : Column} : c ∈ r.looseColumns ↔ ∃ e ∈ r.output,
    .column c ∈ e.nodesUntil (fun n => n.groupingCall?.isSome || r.early.contains n) ∧
      ¬ r.early.contains (.column c) := by
  simp only [looseColumns, List.mem_filterMap, List.mem_filter, List.mem_flatMap,
    Expr.column?_eq_some_iff, exists_eq_right, Bool.not_eq_true', Bool.not_eq_true]
  constructor
  · rintro ⟨⟨e, he, hn⟩, hearly⟩
    exact ⟨e, he, hn, hearly⟩
  · rintro ⟨e, he, hn, hearly⟩
    exact ⟨⟨e, he, hn⟩, hearly⟩

end Repetition

/-! ## Names of entries -/

lemma Bindings.names_bindFrom (aliases : List Alias) (grouped : Expr → Bool) (next : Nat)
    (es : List Expr) : (bindFrom aliases grouped next es).map (·.definition.produced.name) =
      es.map fun e => ((Definition.existing? aliases e).map (·.produced.name)).getD e.text := by
  induction es generalizing next with
  | nil => rfl
  | cons e es ih =>
    unfold bindFrom
    cases hd : Definition.existing? aliases e with
    | some d => rw [List.map_cons, List.map_cons, ih, hd, Option.map_some, Option.getD_some]
    | none =>
      rw [List.map_cons, List.map_cons, ih, hd, Option.map_none, Option.getD_none]
      rfl

namespace Repetition.Hygienic

variable {r : Repetition} {next : Nat} (h : r.Hygienic next)
include h

/-- No definition is left out, since bound expressions do not share columns. -/
lemma definitions_eq : (r.bindingsAt next).definitions =
    (r.bindingsAt next).toList.map (·.definition) := by
  refine Roster.toList_ofList_of_pairwise (List.pairwise_map.2 ?_)
  have sources : ((r.bindingsAt next).toList.map (·.source)).Pairwise
      fun earlier later => (later == earlier) = false := by
    have bound : (r.bindingsAt next).toList.map (·.source) = bindable r.early.toList :=
      Bindings.source_bindFrom _ _ _ _
    rw [bound, h.bindable_early]
    exact r.early.distinct
  refine (List.pairwise_map.1 sources).imp_of_mem fun {b b'} hb hb' hne => ?_
  rw [← Bool.not_eq_true, Definition.beq_def, Column.beq_iff]
  intro hid
  rw [h.source_beq_source hb' hb hid] at hne
  exact Bool.noConfusion hne

/-- Definitions are named by the labels of the early expressions. -/
lemma names_definitions : (r.bindingsAt next).definitions.map (·.produced.name) =
    r.early.toList.map r.label := by
  rw [h.definitions_eq, List.map_map]
  refine (Bindings.names_bindFrom _ _ _ _).trans ?_
  rw [h.bindable_early]
  rfl

/-- The walk over the output stops at grouping calls and at early expressions. -/
lemma nodesUntil_replaces {e : Expr} (he : e ∈ r.output) :
    e.nodesUntil (r.bindingsAt next).replaces =
      e.nodesUntil fun n => n.groupingCall?.isSome || r.early.contains n :=
  Expr.nodesUntil_congr fun _ hn =>
    h.replaces_eq (List.mem_append_right _ he) (Expr.mem_subterms_of_mem_nodesUntil hn)

/-- The columns that the projection has to hand on are those that the output reads as they
stand. -/
lemma exists_missing_iff (x : Stacked r next) (p : Column) :
    (∃ c ∈ x.substituted.otherColumns.toList,
      (r.bindingsAt next).definitions.any (·.produced == c) = false ∧ p == c) ↔
      ∃ c ∈ r.looseColumns, p == c := by
  have undefined_iff (c : Column) :
      (r.bindingsAt next).definitions.any (·.produced == c) = false ↔
        ∀ b ∈ (r.bindingsAt next).toList, b.column.id ≠ c.id := by
    rw [h.definitions_eq, List.any_map, List.any_eq_false]
    simp [Column.beq_def]
  simp only [undefined_iff]
  constructor
  · rintro ⟨c, hc, hfree, hbeq⟩
    obtain ⟨e', he', hce⟩ := List.mem_flatMap.1 (List.mem_of_mem_filter (Roster.mem_ofList hc))
    obtain ⟨e, he, rfl⟩ := List.mem_map.1 he'
    obtain ⟨n, hn, ⟨rfl, hpassed⟩ | ⟨-, b, hget, rfl⟩⟩ :=
      (Bindings.mem_columns_substituted he).1 hce
    · refine ⟨c, mem_looseColumns_iff.2 ⟨e, he, h.nodesUntil_replaces he ▸ hn, ?_⟩, hbeq⟩
      rw [h.replaces_eq (List.mem_append_right _ he) (Expr.mem_subterms_of_mem_nodesUntil hn),
        Bool.or_eq_false_iff] at hpassed
      rw [hpassed.2]
      exact Bool.false_ne_true
    · exact absurd rfl (hfree b (Bindings.get?_eq_some hget).1)
  · rintro ⟨c, hc, hbeq⟩
    obtain ⟨e, he, hwalk, hearly⟩ := mem_looseColumns_iff.1 hc
    have hsub := Expr.mem_subterms_of_mem_nodesUntil hwalk
    have hexprs : e ∈ r.exprs := List.mem_append_right _ he
    have unbound : ∀ b ∈ (r.bindingsAt next).toList, b.column.id ≠ c.id := fun b hb =>
      h.id_ne_of_not_early hexprs (Expr.mem_columns_iff.2 hsub) hearly hb
    have passed : (r.bindingsAt next).replaces (.column c) = false := by
      rw [h.replaces_eq hexprs hsub, Bool.or_eq_false_iff]
      exact ⟨rfl, Bool.eq_false_iff.2 hearly⟩
    rw [← h.nodesUntil_replaces he] at hwalk
    obtain ⟨c', hc', hbeq'⟩ := x.exists_otherColumn_of_unbound he hwalk unbound passed
    exact ⟨c', hc', fun b hb => (Column.beq_iff _ _).1 hbeq' ▸ unbound b hb, BEq.trans hbeq hbeq'⟩

end Repetition.Hygienic

namespace Stacked

variable {r : Repetition} {next : Nat} (x : Stacked r next)

/-- The entries of a hygienic repetition have different names exactly if the labels are apart. -/
theorem nodup_names_entries_iff (h : r.Hygienic next) (distinct : (x.schema.map (·.name)).Nodup) :
    (x.entries.map (·.produced.name)).Nodup ↔ r.LabelsApart x.schema := by
  generalize hmissing : (x.substituted.otherColumns.toList.filter fun c =>
    !(r.bindingsAt next).definitions.any (·.produced == c)) = missing
  generalize hhanded : (missing.filterMap fun c => x.schema.find? (· == c)) = handed
  have entries : x.entries = (r.bindingsAt next).definitions ++ handed.map Definition.column := by
    rw [← hhanded, ← hmissing]
    rfl
  have mem_handed (p : Column) : p ∈ handed ↔ p ∈ r.handedOn x.schema := by
    rw [← hhanded, Repetition.handedOn, Column.mem_filterMap_find?_iff,
      Column.mem_filterMap_find?_iff, ← h.exists_missing_iff x p, ← hmissing]
    simp only [List.mem_filter, Bool.not_eq_true', and_assoc]
  have nodup : (handed.map (·.name)).Nodup := by
    have ids := x.nodup_ids_entries
    rw [entries, List.map_append, List.map_map] at ids
    refine (List.Nodup.of_map _ ids.of_append_right).map_on fun p hp p' hp' hname => ?_
    have listed {p : Column} (hp : p ∈ handed) : p ∈ x.schema := by
      rw [← hhanded, Column.mem_filterMap_find?_iff] at hp
      exact List.mem_of_find?_eq_some hp.1
    exact List.inj_on_of_nodup_map distinct (listed hp) (listed hp') hname
  have names : x.entries.map (·.produced.name) =
      r.early.toList.map r.label ++ handed.map (·.name) := by
    rw [entries, List.map_append, h.names_definitions, List.map_map]
    rfl
  rw [names, List.nodup_append']
  constructor
  · rintro ⟨labels, -, disjoint⟩
    refine ⟨labels, fun p hp hlabel => disjoint hlabel (List.mem_map_of_mem ?_)⟩
    exact (mem_handed p).2 hp
  · rintro ⟨labels, apart⟩
    refine ⟨labels, nodup, fun name hlabel hname => ?_⟩
    obtain ⟨p, hp, rfl⟩ := List.mem_map.1 hname
    exact apart p ((mem_handed p).1 hp) hlabel

/-- Where the child is left as it is, the entries only restate it. -/
lemma nodup_names_entries_of_kept (h : r.Hygienic next) (agree : r.NamesAgree x.schema)
    (distinct : (x.schema.map (·.name)).Nodup)
    (columns : ∀ d ∈ x.entries, ∃ c, d = .column c ∧ x.schema.contains c) :
    (x.entries.map (·.produced.name)).Nodup := by
  -- Every entry has the name of an exposed column with its id.
  have exposed : ∀ d ∈ x.entries, ∃ p ∈ x.schema, p.id = d.produced.id ∧
      p.name = d.produced.name := by
    intro d hd
    obtain ⟨c, rfl, hc⟩ := columns d hd
    rcases x.entry_cases hd with ⟨b, hb, hdef⟩ | ⟨c', hc', hcolumn, -⟩
    · obtain ⟨-, e, he, hce⟩ := h.column_of_definition hb hdef
      obtain ⟨p, hp, hbeq⟩ := List.contains_iff_exists_mem_beq.1 hc
      have hid : p == c := BEq.symm hbeq
      exact ⟨p, hp, (Column.beq_iff _ _).1 hid, agree e he c hce p hp hid⟩
    · obtain rfl := Definition.column.inj hcolumn
      exact ⟨c, hc', rfl, rfl⟩
  refine List.pairwise_map.2 ((List.pairwise_map.1 x.nodup_ids_entries).imp_of_mem ?_)
  intro d d' hd hd' hne hname
  obtain ⟨p, hp, hid, hpname⟩ := exposed d hd
  obtain ⟨p', hp', hid', hpname'⟩ := exposed d' hd'
  have hsame : p = p' := List.inj_on_of_nodup_map distinct hp hp' (by rw [hpname, hpname', hname])
  exact hne (by rw [← hid, ← hid', hsame])

/-- Duplicates add no clash of names, and nor does a child that is left as it is. -/
theorem Lowered.nodup_names_iff {x : Stacked r next} {a : Aggregation} {copies : List Column}
    {child : Plan} (lowered : x.Lowered a copies child)
    (distinct : (x.schema.map (·.name)).Nodup) :
    ∃ cs, child.schema = .ok cs ∧ ((cs.map (·.name)).Nodup ↔
      x.repetition.child = r.child ∨ (x.entries.map (·.produced.name)).Nodup) := by
  have with_copies {cs : List Column} (hcs : x.repetition.child.schema = .ok cs) :
      ((cs ++ copies).map (·.name)).Nodup ↔ (cs.map (·.name)).Nodup := by
    obtain ⟨nodup, apart⟩ := lowered.names cs hcs
    rw [List.map_append, List.nodup_append']
    refine ⟨fun h => h.1, fun h => ⟨h, nodup, fun name hname hcopy => ?_⟩⟩
    obtain ⟨c, hc, rfl⟩ := List.mem_map.1 hcopy
    exact apart c hc hname
  rcases x.child_cases with hput | ⟨hkept, -⟩
  · have hcs : x.repetition.child.schema = .ok (x.entries.map Definition.produced) := by
      rw [hput, Plan.schema, Definition.columnsOf_toExpr]
    have put : x.repetition.child ≠ r.child := by
      rw [hput]
      exact Plan.projection_ne_self _ _
    refine ⟨_, lowered.schema _ hcs, ?_⟩
    rw [with_copies hcs, List.map_map, or_iff_right put]
    rfl
  · have hcs : x.repetition.child.schema = .ok x.schema := by
      rw [hkept]
      exact x.schema_eq
    exact ⟨_, lowered.schema _ hcs, iff_of_true ((with_copies hcs).2 distinct) (Or.inl hkept)⟩

end Stacked

/-! ## Names below a lowered repetition -/

namespace Repetition

variable {r : Repetition} {settings : Settings} {s s' : Session} {a : Aggregation}
  {schema : List Column}

/-- Over a child with different names, the names below a lowered repetition are different unless
two entries of the projection put there share a name.  In a hygienic repetition that calls columns
as the child does, they are different exactly if the labels are apart. -/
theorem lower_distinctNames_iff (run : (r.lower settings).runIn s = (.ok a, s'))
    (hschema : r.child.schema = .ok schema) (distinct : (schema.map (·.name)).Nodup) :
    ∃ (x : Stacked r s.nextId) (r' : Repetition) (cs : List Column), a.child = r'.toPlan ∧
      r'.child.schema = .ok cs ∧
      ((cs.map (·.name)).Nodup ↔
        x.repetition.child = r.child ∨ (x.entries.map (·.produced.name)).Nodup) ∧
      (r.Hygienic s.nextId → r.NamesAgree schema →
        ((cs.map (·.name)).Nodup ↔ r.LabelsApart schema)) := by
  obtain ⟨-, -, x, s₁, hnext, separated⟩ := lower_eq_ok run
  obtain ⟨copies, child, lowered⟩ := x.lowered_of_separate hnext separated
  obtain rfl : x.schema = schema := Except.ok.inj (x.schema_eq.symm.trans hschema)
  obtain ⟨cs, hcs, hiff⟩ := lowered.nodup_names_iff distinct
  refine ⟨x, _, cs, lowered.child_eq, hcs, hiff, fun h agree => ?_⟩
  rw [hiff, ← x.nodup_names_entries_iff h distinct]
  refine or_iff_right_of_imp fun hkept => ?_
  rcases x.child_cases with hput | ⟨-, columns⟩
  · exact absurd (hput.symm.trans hkept) (Plan.projection_ne_self _ _)
  · exact x.nodup_names_entries_of_kept h agree distinct columns

theorem lower_distinctNames_iff_markedSums :
    ∃ schema a s', (markedSums.lower {}).runIn { nextId := 5 } = (.ok a, s') ∧
      markedSums.child.schema = .ok schema ∧ (schema.map (·.name)).Nodup ∧
      ∃ (r' : Repetition) (cs : List Column), a.child = r'.toPlan ∧ r'.child.schema = .ok cs ∧
        (cs.map (·.name)).Nodup := by
  obtain ⟨a, s', run⟩ : ∃ a s', (markedSums.lower {}).runIn { nextId := 5 } = (.ok a, s') :=
    ⟨_, _, rfl⟩
  obtain ⟨schema, hschema, distinct, agree, apart⟩ : ∃ schema,
      markedSums.child.schema = .ok schema ∧ (schema.map (·.name)).Nodup ∧
        markedSums.NamesAgree schema ∧ markedSums.LabelsApart schema :=
    ⟨_, rfl, by decide, by decide, by decide⟩
  obtain ⟨-, r', cs, hchild, hcs, -, hiff⟩ := lower_distinctNames_iff run hschema distinct
  exact ⟨schema, a, s', run, hschema, distinct, r', cs, hchild, hcs,
    (hiff markedSums_hygienic agree).2 apart⟩

/-- `select b + 1 as a, sum(a) as s … group by grouping sets ((b + 1))`. -/
def reusedName : Repetition :=
  let a : Column := ⟨⟨0⟩, "a", .integer, true⟩
  let b : Column := ⟨⟨1⟩, "b", .integer, true⟩
  let key : Expr := .arith .add (.column b) (.literal (.integer 1))
  { sets := [[key]]
    output := [.named ⟨2⟩ "a" key, .named ⟨3⟩ "s" (.aggregate .sum [.column a] false)]
    child := .scan "t" [a, b] }

/-- The names of the child are different and so are those of the aliases, and yet the projection
exposes two columns of one name. -/
theorem reusedName_not_distinct : (∃ schema, reusedName.child.schema = .ok schema ∧
      (schema.map (·.name)).Nodup) ∧
    (reusedName.outputAliases.map (·.name)).Nodup ∧
    ∃ a s', (reusedName.lower {}).runIn { nextId := 4 } = (.ok a, s') ∧
      ∃ (r' : Repetition) (cs : List Column), a.child = r'.toPlan ∧ r'.child.schema = .ok cs ∧
        ¬ (cs.map (·.name)).Nodup :=
  ⟨⟨_, rfl, by decide⟩, by decide, _, _, rfl, ⟨_, _, _⟩, _, rfl, rfl, by decide⟩

end Repetition
end GroupingPlanner

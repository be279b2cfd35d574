import GroupingPlanner.Proofs.Duplication
import GroupingPlanner.Proofs.Entries
import GroupingPlanner.Proofs.Meaning
/-!
# The rows below a lowered repetition

A lowered repetition reads other rows than the repetition it came from: the projection may be new,
and it may define duplicates.  But there is one row for each row that was there, and whatever the
nodes above read in it has the value it should have.

* `projectRow_eq_value`, `projectRow_append`: what projections make of a row.
* `Plan.undefined_of_rows`: a row has no values beyond the columns exposed.
* `Stacked.RowBelow`, `Stacked.rows_below`: the rows below, one for each row of the child.
-/

namespace GroupingPlanner

variable {V : Type} {I : Interpretation V}

/-! ## Equal expressions -/

namespace Expr

lemma value_skeleton (row : Row V) (e : Expr) :
    e.skeleton.value I I.noCalls row = e.value I I.noCalls row := by
  induction e using childrenInduction with
  | step e ih =>
    cases e with
    | call name args type =>
      have hargs : args.map (fun x => x.skeleton.value I I.noCalls row) =
          args.map (value I I.noCalls row) := List.map_congr_left fun x hx => ih x hx
      simp [skeleton, value, Function.comp_def, hargs]
    | _ => simp_all [skeleton, value, children, Column.skeleton, Interpretation.noCalls]

/-- Equal expressions have equal values. -/
lemma value_congr {e e' : Expr} (h : e == e') (row : Row V) :
    e.value I I.noCalls row = e'.value I I.noCalls row := by
  rw [← value_skeleton row e, (beq_iff e e').1 h, value_skeleton]

end Expr

/-! ## Projections -/

lemma projectRow_eq_value {list : List Expr} {c : Column} {e : Expr}
    (h : definingExpr? list c = some e) (row : Row V) :
    projectRow I list row c.id = e.value I I.noCalls row := by
  have hskeleton : definingExpr? list ⟨c.id, "", .unknown, false⟩ = some e := by
    rw [← h]
    exact definingExpr?_congr ((Column.beq_iff _ _).2 rfl)
  rw [projectRow, hskeleton]

/-- Entries that do not produce an id do not matter to it. -/
lemma projectRow_append {list list' : List Expr} {i : ColumnId}
    (h : ∀ e ∈ list', ∀ p, e.produced? = some p → p.id ≠ i) (row : Row V) :
    projectRow I (list ++ list') row i = projectRow I list row i := by
  have none_defines : definingExpr? list' ⟨i, "", .unknown, false⟩ = none :=
    definingExpr?_eq_none h
  have defining : definingExpr? (list ++ list') ⟨i, "", .unknown, false⟩ =
      definingExpr? list ⟨i, "", .unknown, false⟩ := by
    unfold definingExpr? at none_defines ⊢
    rw [List.findSome?_append, none_defines, Option.or_none]
  have none_virtual : (list'.filterMap Expr.virtual?).any (·.column.id == i) = false := by
    rw [List.any_eq_false]
    intro v hv hid
    obtain ⟨e, he, hev⟩ := List.mem_filterMap.1 hv
    obtain rfl := Expr.virtual?_eq_some_iff.1 hev
    exact h _ he _ (VirtualColumn.produced?_toExpr v) (beq_iff_eq.1 hid)
  rw [projectRow, projectRow, defining, List.filterMap_append, List.any_append, none_virtual,
    Bool.or_false]

/-- An id that no entry produces has no value. -/
lemma projectRow_of_absent {list : List Expr} {i : ColumnId}
    (h : ∀ e ∈ list, ∀ p, e.produced? = some p → p.id ≠ i) (row : Row V) :
    projectRow I list row i = I.undefined := by
  have nothing : projectRow I ([] ++ list) row i = projectRow I [] row i := projectRow_append h row
  rw [List.nil_append] at nothing
  rw [nothing]
  rfl

lemma projectRow_columns {cs : List Column} {i : ColumnId} (row : Row V) :
    projectRow I (cs.map Expr.column) row i =
      if cs.any (·.id == i) then row i else I.undefined := by
  by_cases hany : cs.any (·.id == i)
  · rw [if_pos hany]
    obtain ⟨c, hc, hid⟩ := List.any_eq_true.1 hany
    have hid := beq_iff_eq.1 hid
    subst hid
    have found : (definingExpr? (cs.map Expr.column) c).isSome := by
      rw [definingExpr?, List.findSome?_isSome_iff]
      exact ⟨.column c, List.mem_map_of_mem hc, by simp⟩
    obtain ⟨e, he⟩ := Option.isSome_iff_exists.1 found
    rw [projectRow_eq_value he]
    rw [definingExpr?] at he
    obtain ⟨e', he', hsome⟩ := List.exists_of_findSome?_eq_some he
    obtain ⟨c', -, rfl⟩ := List.mem_map.1 he'
    simp only [Option.ite_none_right_eq_some, Option.some.injEq] at hsome
    obtain ⟨hbeq, rfl⟩ := hsome
    rw [Expr.value, (Column.beq_iff _ _).1 hbeq]
  · rw [if_neg hany]
    have none_defines : definingExpr? (cs.map Expr.column) ⟨i, "", .unknown, false⟩ = none := by
      refine definingExpr?_eq_none fun e he p hp hid => hany ?_
      obtain ⟨c, hc, rfl⟩ := List.mem_map.1 he
      obtain rfl : c = p := Option.some.inj hp
      exact List.any_eq_true.2 ⟨c, hc, beq_iff_eq.2 hid⟩
    have no_virtual : (cs.map Expr.column).filterMap Expr.virtual? = [] := by
      rw [List.filterMap_map, List.filterMap_eq_nil_iff]
      exact fun c _ => rfl
    rw [projectRow, none_defines, no_virtual]
    simp

/-- A row of a plan has no values beyond the columns exposed. -/
theorem Plan.undefined_of_rows {p : Plan} {base : Plan → List (Row V)} {cs : List Column}
    (hschema : p.schema = .ok cs) {i : ColumnId} (hi : ∀ c ∈ cs, c.id ≠ i) {row : Row V}
    (hrow : row ∈ p.rows I base) : row i = I.undefined := by
  have not_exposed : p.exposes i = false := by
    rw [exposes, hschema]
    exact List.any_eq_false.2 fun c hc hid => hi c hc (beq_iff_eq.1 hid)
  cases p with
  | projection list child =>
    obtain ⟨row, -, rfl⟩ := List.mem_map.1 hrow
    have hproduced := (columnsOf_eq_ok_iff _ _ _).1 hschema
    have absent : ∀ e ∈ list, ∀ p, e.produced? = some p → p.id ≠ i := by
      intro e he p hp
      have hmem : e.produced? ∈ list.map Expr.produced? := List.mem_map_of_mem he
      rw [hproduced, hp] at hmem
      obtain ⟨c, hc, heq⟩ := List.mem_map.1 hmem
      rw [← Option.some.inj heq]
      exact hi c hc
    exact projectRow_of_absent absent row
  | scan | repetition | aggregation =>
    obtain ⟨row, -, rfl⟩ := List.mem_map.1 hrow
    simp [not_exposed]

/-! ## The rows below -/

namespace Stacked

variable {r : Repetition} {next : Nat} (x : Stacked r next)

/-- What a row below a lowered repetition has, for a row of the child of the repetition. -/
structure RowBelow (I : Interpretation V) (ds : List Duplicate) (row row' : Row V) : Prop where
  /-- A bound column has the value of what is bound to it. -/
  bound : ∀ b ∈ (r.bindingsAt next).toList,
    row' b.column.id = b.source.value I I.noCalls row
  /-- A duplicate has the value of its column. -/
  duplicate : ∀ d ∈ ds, row' d.copy.id = row' d.column.id
  /-- Any other column that the output reads is handed on. -/
  handed : ∀ c ∈ x.substituted.otherColumns.toList,
    (∀ b ∈ (r.bindingsAt next).toList, b.column.id ≠ c.id) → row' c.id = row c.id

variable {base : Plan → List (Row V)}

/-- The projection evaluates what is bound, and hands on what the output reads besides. -/
lemma rowBelow_put (h : r.Hygienic next) {row : Row V} (hrow : row ∈ r.child.rows I base) :
    x.RowBelow I [] row (projectRow I (x.entries.map Definition.toExpr) row) where
  bound := by
    intro b hb
    obtain ⟨b', -, hfind, -, hsource⟩ := x.find?_entry h hb
    have hdef : definingExpr? (x.entries.map Definition.toExpr) b.column =
        some b'.definition.expr := by
      rw [definingExpr?_toExpr, hfind]
      simp
    rw [projectRow_eq_value hdef, Expr.value_congr hsource]
  duplicate d hd := absurd hd List.not_mem_nil
  handed := by
    intro c hc unbound
    have undefined : ∀ d ∈ (r.bindingsAt next).definitions, (d.produced == c) = false := by
      intro d hd
      obtain ⟨b, hb, rfl⟩ := mem_definitions hd
      rw [Column.beq_def, beq_eq_false_iff_ne, ← Binding.id_column]
      exact unbound b hb
    cases hfind : x.entries.find? (·.produced == c) with
    | some d =>
      -- Only an entry that hands on a column can produce this one.
      have hbeq : d.produced == c := by simpa using List.find?_some hfind
      rcases List.mem_append.1 (List.mem_of_find?_eq_some hfind) with hd | hd
      · rw [undefined d hd] at hbeq
        simp at hbeq
      · obtain ⟨c', -, rfl⟩ := List.mem_map.1 hd
        have hdef : definingExpr? (x.entries.map Definition.toExpr) c = some (.column c') := by
          rw [definingExpr?_toExpr, hfind]
          rfl
        have hid : c'.id = c.id := (Column.beq_iff _ _).1 hbeq
        rw [projectRow_eq_value hdef, Expr.value, hid]
    | none =>
      -- Then the child does not expose it either.
      have absent : ∀ e ∈ x.entries.map Definition.toExpr, ∀ p, e.produced? = some p →
          p.id ≠ c.id := by
        intro e he p hp hid
        obtain ⟨d, hd, rfl⟩ := List.mem_map.1 he
        rw [Definition.produced?_toExpr, Option.some.injEq] at hp
        refine List.find?_eq_none.1 hfind d hd ?_
        rw [hp]
        exact (Column.beq_iff _ _).2 hid
      have not_exposed : ∀ c' ∈ x.schema, c'.id ≠ c.id := by
        intro c' hc' hid
        have found : (x.schema.find? (· == c)).isSome :=
          List.find?_isSome.2 ⟨c', hc', (Column.beq_iff _ _).2 hid⟩
        obtain ⟨c'', hc''⟩ := Option.isSome_iff_exists.1 found
        have hbeq : c'' == c := by simpa using List.find?_some hc''
        have missing : c ∈ x.substituted.otherColumns.toList.filter fun c =>
            !(r.bindingsAt next).definitions.any (·.produced == c) := by
          refine List.mem_filter.2 ⟨hc, ?_⟩
          rw [Bool.not_eq_true', List.any_eq_false]
          exact fun d hd htrue => by rw [undefined d hd] at htrue; cases htrue
        have hentry : Definition.column c'' ∈ x.entries :=
          List.mem_append_right _ (List.mem_map_of_mem (List.mem_filterMap.2 ⟨c, missing, hc''⟩))
        exact absent _ (List.mem_map_of_mem hentry) c'' rfl ((Column.beq_iff _ _).1 hbeq)
      rw [projectRow_of_absent absent, Plan.undefined_of_rows x.schema_eq not_exposed hrow]

/-- A child that produces the columns already has the same rows. -/
lemma rowBelow_kept (h : r.Hygienic next)
    (hcolumns : ∀ d ∈ x.entries, ∃ c, d = .column c ∧ x.schema.contains c) (row : Row V) :
    x.RowBelow I [] row row where
  bound := by
    intro b hb
    obtain ⟨b', hb', hfind, hid, hsource⟩ := x.find?_entry h hb
    obtain ⟨c, hc, -⟩ := hcolumns _ (List.mem_of_find?_eq_some hfind)
    rw [hc] at hid hsource
    rw [Expr.value_congr hsource, ← hid]
    rfl
  duplicate d hd := absurd hd List.not_mem_nil
  handed _ _ _ := rfl

lemma rows_stack (h : r.Hygienic next) :
    List.Forall₂ (x.RowBelow I []) (r.child.rows I base) (x.repetition.child.rows I base) := by
  rcases x.child_cases with hput | ⟨hkept, hcolumns⟩
  · rw [hput, Plan.rows, List.forall₂_map_right_iff, List.forall₂_same]
    exact fun row hrow => x.rowBelow_put h hrow
  · rw [hkept, List.forall₂_same]
    exact fun row _ => x.rowBelow_kept h hcolumns row

end Stacked

/-- Separation keeps the rows, gives each duplicate the value of its column, and changes nothing
else that was there. -/
lemma Separation.rows {a b : Aggregation} {r r' : Repetition} {ds : List Duplicate} {n : Nat}
    (promise : Separation a b r r' ds n) (base : Plan → List (Row V)) :
    List.Forall₂ (fun row row' : Row V =>
      (∀ d ∈ ds, row' d.copy.id = row' d.column.id) ∧ ∀ i : ColumnId, i.number < n → row' i = row i)
      (r.child.rows I base) (r'.child.rows I base) := by
  by_cases hds : ds = []
  · obtain ⟨-, rfl⟩ := promise.unchanged hds
    rw [List.forall₂_same, hds]
    exact fun row _ => ⟨fun d hd => absurd hd List.not_mem_nil, fun _ _ => rfl⟩
  · obtain ⟨list, input, hchild, hground, hdefs⟩ := promise.defined hds
    have copies : ∀ d ∈ ds, ∀ row : Row V,
        projectRow I (list ++ ds.map (·.definition.toExpr)) row d.copy.id =
          projectRow I (list ++ ds.map (·.definition.toExpr)) row d.column.id := by
      intro d hd row
      obtain ⟨source, -, hcolumn, hcopy⟩ := hdefs d hd
      rw [projectRow_eq_value hcopy, projectRow_eq_value hcolumn]
    have old : ∀ (row : Row V) (i : ColumnId), i.number < n →
        projectRow I (list ++ ds.map (·.definition.toExpr)) row i = projectRow I list row i := by
      intro row i hi
      refine projectRow_append (fun e he p hp hid => ?_) row
      obtain ⟨d, hd, rfl⟩ := List.mem_map.1 he
      have hle := Duplicate.le_number_copy promise.fresh hd
      rw [Alias.produced?_toExpr, Option.some.injEq] at hp
      rw [← hid, ← hp] at hi
      exact absurd hi (Nat.not_lt.2 hle)
    rw [hchild, Plan.rows]
    rcases hground with hextended | ⟨hinput, ⟨schema, hschema, hlist⟩, -⟩
    · rw [hextended, Plan.rows, List.forall₂_map_left_iff, List.forall₂_map_right_iff,
        List.forall₂_same]
      exact fun row _ => ⟨fun d hd => copies d hd row, old row⟩
    · rw [hinput, List.forall₂_map_right_iff, List.forall₂_same]
      refine fun row hrow => ⟨fun d hd => copies d hd row, fun i hi => ?_⟩
      rw [old row i hi, hlist, projectRow_columns]
      by_cases hany : schema.any (·.id == i)
      · rw [if_pos hany]
      · rw [if_neg hany]
        refine (Plan.undefined_of_rows hschema (fun c hc hid => hany ?_) hrow).symm
        exact List.any_eq_true.2 ⟨c, hc, beq_iff_eq.2 hid⟩

/-- Below a lowered repetition there is one row for each row of the child, with the values that the
nodes above count on. -/
theorem Stacked.rows_below {r r' : Repetition} {next : Nat} (x : Stacked r next)
    (h : r.Hygienic next) {a : Aggregation} {ds : List Duplicate}
    (promise : Separation x.aggregation a x.repetition r' ds x.nextId)
    (base : Plan → List (Row V)) :
    List.Forall₂ (x.RowBelow I ds) (r.child.rows I base) (r'.child.rows I base) := by
  have hle := x.firstCall_le_nextId
  refine forall₂_trans (fun row row₁ row' below same => ?_) (x.rows_stack h) (promise.rows base)
  obtain ⟨copies, old⟩ := same
  refine ⟨fun b hb => ?_, copies, fun c hc unbound => ?_⟩
  · rw [old _ (lt_of_lt_of_le (Repetition.number_lt_of_binding h.below hb) hle), below.bound b hb]
  · rw [old _ (lt_of_lt_of_le (x.number_lt_of_otherColumn h.below hc) hle),
      below.handed c hc unbound]

end GroupingPlanner

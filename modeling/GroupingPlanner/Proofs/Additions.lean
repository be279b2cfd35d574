import GroupingPlanner.Proofs.PlanRuns
/-!
# What lowering adds below a repetition

Below a repetition lowering either changes nothing, or it puts one projection over the child, or it
adds duplicates to the projection that the child is.  What is added are entries of three kinds: the
definitions of bound expressions together with columns handed on, columns that a new projection for
duplicates hands on, and duplicates.

* `Plan.Extends`: a plan and the entries added to it.
* `Stacked.Adds`: which entries lowering adds.
* `Stacked.exists_additions`: a successful run adds them.
-/

namespace GroupingPlanner

namespace Plan

/-- The entries of a projection. -/
def listed : Plan → List Expr
  | projection list _ => list
  | _ => []

/-- `p.Extends added p'` says that `p'` is `p` with entries added: by a projection over `p`, or
after the entries of the projection that `p` is. -/
inductive Extends : Plan → List Expr → Plan → Prop
  | kept (p : Plan) : Extends p [] p
  | put (added : List Expr) (p : Plan) : Extends p added (.projection added p)
  | extended (list added : List Expr) (input : Plan) :
    Extends (.projection list input) added (.projection (list ++ added) input)

/-- No projection stands over itself. -/
lemma projection_ne_self (list : List Expr) (p : Plan) : Plan.projection list p ≠ p := by
  intro h
  have size := congrArg sizeOf h
  simp at size

end Plan

/-! ## Additions of lowering -/

/-- What evaluates a column in the ground comes from the child, or it is a column. -/
lemma Ground.source_cases {g : Ground} {child : Plan} {cs : List Column}
    (hg : forColumns child cs = .ok g) {c : Column} {source : Expr}
    (hsource : g.source? c = some source) :
    (∃ c', source = .column c') ∨ ∃ d : Definition, d.toExpr ∈ child.listed ∧ d.expr = source := by
  obtain ⟨d, hd, -, hexpr⟩ := definingExpr?_eq_some hsource
  rcases forColumns_cases hg with hchild | ⟨-, ⟨schema, -, hlist⟩, -⟩
  · right
    rw [hchild]
    exact ⟨d, hd, hexpr⟩
  · left
    rw [hlist] at hd
    obtain ⟨c', -, hc'⟩ := List.mem_map.1 hd
    cases d with
    | column c'' => exact ⟨c'', hexpr.symm⟩
    | named a => cases hc'

/-- The ground and the duplicates on it are additions to the child. -/
lemma Ground.extends_of_forColumns {g : Ground} {child : Plan} {cs : List Column}
    (hg : forColumns child cs = .ok g) (extra : List Expr) :
    ∃ handed : List Column, child.Extends (handed.map Expr.column ++ extra)
      (.projection (g.list ++ extra) g.input) := by
  rcases forColumns_cases hg with hchild | ⟨hinput, ⟨schema, -, hlist⟩, -⟩
  · rw [hchild]
    exact ⟨[], .extended g.list extra g.input⟩
  · rw [hinput, hlist]
    exact ⟨schema, .put _ child⟩

namespace Stacked

variable {r : Repetition} {next : Nat} (x : Stacked r next)

/-- The entries that lowering adds below the repetition. -/
structure Adds (added : List Expr) (ds : List Duplicate) : Prop where
  /-- All entries of the stack are among them, unless they only hand on columns. -/
  entries : (∀ d ∈ x.entries, d.toExpr ∈ added) ∨ ∀ d ∈ x.entries, ∃ c, d = .column c
  /-- Besides them columns may be handed on, and duplicates defined. -/
  cases : ∀ e ∈ added, (∃ d ∈ x.entries, e = d.toExpr) ∨ (∃ c, e = .column c) ∨
    ∃ d ∈ ds, e = d.definition.toExpr
  /-- A duplicate is evaluated by what evaluates an entry, be it one of the stack or of the child,
  or it is a column. -/
  sources : ∀ d ∈ ds, (∃ c, d.definition.child = .column c) ∨
    ∃ e : Definition, (e ∈ x.entries ∨ e.toExpr ∈ r.child.listed) ∧ e.expr = d.definition.child

variable {s s' : Session} {a : Aggregation}

/-- The projection of the stack is the one that duplicates are added to. -/
lemma ground_eq_of_put (hput : x.repetition.child =
      .projection (x.entries.map Definition.toExpr) r.child) {g : Ground}
    (hg : Ground.forColumns x.repetition.child (x.aggregation.conflicts x.repetition) = .ok g) :
    g = ⟨x.entries.map Definition.toExpr, r.child⟩ := by
  have all_defined : (x.aggregation.conflicts x.repetition).all (fun c =>
      (definingExpr? (x.entries.map Definition.toExpr) c).isSome) := by
    refine List.all_eq_true.2 fun c hc => x.definingExpr?_isSome ?_
    exact Roster.contains_of_mem (List.mem_filter.1 hc).1
  rw [hput, Ground.forColumns, if_pos all_defined] at hg
  exact (Except.ok.inj hg).symm

/-- The ground is the projection below, or else it hands on what the child of the query exposes. -/
lemma ground_cases {g : Ground}
    (hg : Ground.forColumns x.repetition.child (x.aggregation.conflicts x.repetition) = .ok g) :
    x.repetition.child = .projection g.list g.input ∨
      x.repetition.child = r.child ∧ g.input = r.child ∧ g.list = x.schema.map Expr.column := by
  refine (Ground.forColumns_cases hg).imp_right fun ⟨hinput, ⟨schema, hschema, hlist⟩, other⟩ => ?_
  rcases x.child_cases with hput | ⟨hkept, -⟩
  · obtain ⟨c, hc, absent⟩ := other _ _ hput
    have defined := x.definingExpr?_isSome (Roster.contains_of_mem (List.mem_filter.1 hc).1)
    rw [absent] at defined
    exact Bool.noConfusion defined
  · rw [hkept, x.schema_eq, Except.ok.injEq] at hschema
    exact ⟨hkept, hinput.trans hkept, by rw [hlist, hschema]⟩

/-- A successful run adds these entries to the child. -/
theorem exists_additions (run : x.aggregation.separate.runIn s = (.ok a, s')) :
    ∃ (r' : Repetition) (added : List Expr) (ds : List Duplicate), a.child = r'.toPlan ∧
      r.child.Extends added r'.child ∧ x.Adds added ds := by
  rcases Aggregation.separate_eq_ok rfl run with ⟨-, rfl, -⟩ | ⟨g, -, hg, found, -, rfl⟩
  · rcases x.child_cases with hput | ⟨hkept, hcolumns⟩
    · refine ⟨x.repetition, x.entries.map Definition.toExpr, [], rfl, ?_, ?_⟩
      · rw [hput]
        exact .put _ r.child
      · refine ⟨Or.inl fun d hd => List.mem_map_of_mem hd, fun e he => Or.inl ?_, by simp⟩
        obtain ⟨d, hd, rfl⟩ := List.mem_map.1 he
        exact ⟨d, hd, rfl⟩
    · refine ⟨x.repetition, [], [], rfl, ?_, ?_⟩
      · rw [hkept]
        exact .kept r.child
      · refine ⟨Or.inr fun d hd => ?_, by simp, by simp⟩
        obtain ⟨c, hc, -⟩ := hcolumns d hd
        exact ⟨c, hc⟩
  · generalize hds : g.duplicatesFrom s.nextId (namesOf x.repetition.output ++ namesOf g.list)
      (x.aggregation.conflicts x.repetition) = ds
    have source : ∀ d ∈ ds, g.source? d.column = some d.definition.child := by
      intro d hd
      rw [← hds] at hd
      exact Ground.source_duplicatesFrom hd
    rcases x.child_cases with hput | ⟨hkept, hcolumns⟩
    · obtain rfl := x.ground_eq_of_put hput hg
      refine ⟨x.repetition.duplicating _ ds, x.entries.map Definition.toExpr ++
        ds.map (·.definition.toExpr), ds, Aggregation.child_reading _ _ _ _, .put _ r.child, ?_⟩
      refine ⟨Or.inl fun d hd => List.mem_append_left _ (List.mem_map_of_mem hd),
        fun e he => ?_, fun d hd => Or.inr ?_⟩
      · rcases List.mem_append.1 he with he | he
        · obtain ⟨d, hd, rfl⟩ := List.mem_map.1 he
          exact Or.inl ⟨d, hd, rfl⟩
        · obtain ⟨d, hd, rfl⟩ := List.mem_map.1 he
          exact Or.inr (Or.inr ⟨d, hd, rfl⟩)
      · have hfind := source d hd
        rw [Ground.source?, definingExpr?_toExpr] at hfind
        obtain ⟨e, he, hexpr⟩ := Option.map_eq_some_iff.1 hfind
        exact ⟨e, Or.inl (List.mem_of_find?_eq_some he), hexpr⟩
    · obtain ⟨handed, extends_child⟩ :=
        Ground.extends_of_forColumns hg (ds.map (·.definition.toExpr))
      rw [hkept] at extends_child
      refine ⟨x.repetition.duplicating g ds, _, ds, Aggregation.child_reading _ _ _ _,
        extends_child, ?_⟩
      refine ⟨Or.inr fun d hd => ?_, fun e he => ?_, fun d hd => ?_⟩
      · obtain ⟨c, hc, -⟩ := hcolumns d hd
        exact ⟨c, hc⟩
      · rcases List.mem_append.1 he with he | he
        · obtain ⟨c, -, rfl⟩ := List.mem_map.1 he
          exact Or.inr (Or.inl ⟨c, rfl⟩)
        · obtain ⟨d, hd, rfl⟩ := List.mem_map.1 he
          exact Or.inr (Or.inr ⟨d, hd, rfl⟩)
      · rw [hkept] at hg
        refine (Ground.source_cases hg (source d hd)).imp_right fun ⟨e, he, hexpr⟩ => ?_
        exact ⟨e, Or.inr he, hexpr⟩

end Stacked
end GroupingPlanner

import GroupingPlanner.Proofs.Additions
import GroupingPlanner.Proofs.Bound
import GroupingPlanner.Proofs.ColumnRepetitions
import GroupingPlanner.Proofs.StackColumns
/-!
# Grouping calls after lowering

A grouping call is computed from the grouping set that a row was made for, and no node but a
repetition knows the set.  Lowering therefore reads grouping calls from virtual columns.  It does so
wherever the rewriting of the output comes to a call, and leaves none above the projection.  But
what is evaluated early is not rewritten.  In

    select sum(grouping(a)) … group by grouping sets ((a), ())

the argument of `sum` is bound to a column as a whole, and the projection that defines the column is
left to evaluate `grouping(a)`, which has no value there.

* `Expr.GroupingFree`: trees without grouping calls.
* `Expr.groupingFree_replace`, `Repetition.groupingFree_outputAt`: what rewriting leaves.
* `Repetition.groupingFree_definition`: what is bound is evaluated as it stands.
* `Repetition.lower_groupingFree_iff`: which lowered repetitions have no grouping call left.
* `Repetition.summedMark_not_groupingFree`: the query above.
-/

namespace GroupingPlanner

/-! ## Expressions without grouping calls -/

namespace Expr

/-- No grouping call occurs in a tree. -/
def GroupingFree (e : Expr) : Prop := ∀ t ∈ e.subterms, t.groupingCall? = none

instance (e : Expr) : Decidable e.GroupingFree :=
  decidable_of_iff (∀ t ∈ e.subterms, t.groupingCall?.isNone) <|
    forall₂_congr fun _ _ => Option.isNone_iff_eq_none

lemma groupingFree_iff {e : Expr} :
    e.GroupingFree ↔ e.groupingCall? = none ∧ ∀ c ∈ e.children, c.GroupingFree := by
  constructor
  · intro h
    exact ⟨h e e.self_mem_subterms, fun c hc t ht => h t (mem_subterms_of_child hc ht)⟩
  · rintro ⟨hself, hchildren⟩ t ht
    rcases mem_subterms_iff.1 ht with rfl | ⟨c, hc, htc⟩
    · exact hself
    · exact hchildren c hc t htc

lemma groupingFree_congr {e e' : Expr} (h : e == e') : e.GroupingFree ↔ e'.GroupingFree := by
  have transfer : ∀ {x y : Expr}, x == y → y.GroupingFree → x.GroupingFree := by
    intro x y hxy hy t ht
    obtain ⟨t', ht', hbeq⟩ := exists_subterm_beq hxy ht
    have hcall := isSome_groupingCall?_congr hbeq
    rw [hy t' ht'] at hcall
    exact Option.isNone_iff_eq_none.1 (by simpa using hcall)
  exact ⟨transfer (BEq.symm h), transfer h⟩

@[simp] lemma groupingFree_column (c : Column) : (column c).GroupingFree := by
  intro t ht
  rw [subterms_column, List.mem_singleton] at ht
  rw [ht]
  rfl

@[simp] lemma groupingFree_virtual (v : VirtualColumn) : v.toExpr.GroupingFree := by
  intro t ht
  rw [subterms_virtual, List.mem_singleton] at ht
  rw [ht]
  obtain ⟨c, _ | call⟩ := v <;> rfl

@[simp] lemma groupingFree_alias (a : Alias) : a.toExpr.GroupingFree ↔ a.child.GroupingFree := by
  rw [groupingFree_iff]
  simp [Alias.toExpr, groupingCall?, children]

lemma groupingFree_mapChildren {f : Expr → Expr} {e : Expr} (hcall : e.groupingCall? = none)
    (h : ∀ c ∈ e.children, (f c).GroupingFree) : (e.mapChildren f).GroupingFree := by
  refine groupingFree_iff.2 ⟨groupingCall?_mapChildren hcall, fun c hc => ?_⟩
  rw [children_mapChildren] at hc
  obtain ⟨d, hd, rfl⟩ := List.mem_map.1 hc
  exact h d hd

/-- Rewriting leaves no grouping call if the rule answers at those that it comes to, and no answer
has one. -/
theorem groupingFree_replace {rule : Expr → Option Expr} {stop : Expr → Bool} {e : Expr}
    (answers : ∀ n ∈ e.nodesUntil stop, (rule n).isSome = stop n)
    (stops : ∀ n, n.groupingCall?.isSome → stop n = true)
    (free : ∀ n y, rule n = some y → y.GroupingFree) : (e.replace rule).GroupingFree := by
  induction e using childrenInduction with
  | step e ih =>
    have here : (rule e).isSome = stop e := answers e (nodesUntil_eq stop e ▸ List.mem_cons_self)
    rw [replace_eq]
    cases hrule : rule e with
    | some y => exact free e y hrule
    | none =>
      have passed : stop e = false := by rw [← here, hrule]; rfl
      rw [Option.getD_none]
      refine groupingFree_mapChildren ?_ fun c hc => ih c hc fun n hn => answers n ?_
      · by_contra hcall
        rw [stops e (Option.isSome_iff_ne_none.2 hcall)] at passed
        exact Bool.noConfusion passed
      · rw [nodesUntil_eq, passed]
        exact List.mem_cons_of_mem _ (List.mem_flatMap.2 ⟨c, hc, hn⟩)

lemma groupingFree_replaceColumns {f : Column → Option Column} {e : Expr} (h : e.GroupingFree) :
    (e.replaceColumns f).GroupingFree := by
  induction e using childrenInduction with
  | step e ih =>
    obtain ⟨hcall, hchildren⟩ := groupingFree_iff.1 h
    cases hc : e.column? with
    | some c =>
      obtain rfl := column?_eq_some_iff.1 hc
      rw [replaceColumns_column]
      exact groupingFree_column _
    | none =>
      rw [replaceColumns_eq_mapChildren hc]
      exact groupingFree_mapChildren hcall fun c hc => ih c hc (hchildren c hc)

lemma groupingFree_mapAggregateArguments {F : Expr → Expr}
    (hF : ∀ x : Expr, x.GroupingFree → (F x).GroupingFree) {e : Expr} (h : e.GroupingFree) :
    (e.mapAggregateArguments F).GroupingFree := by
  induction e using scopeInduction with
  | aggregate fn args distinct =>
    obtain ⟨-, hchildren⟩ := groupingFree_iff.1 h
    rw [mapAggregateArguments_aggregate]
    exact groupingFree_mapChildren rfl fun c hc => hF c (hchildren c hc)
  | window function partitionBy orderBy frame ihFunction ihPartition ihOrder =>
    obtain ⟨-, hchildren⟩ := groupingFree_iff.1 h
    rw [mapAggregateArguments_window]
    refine groupingFree_iff.2 ⟨rfl, fun c hc => ?_⟩
    simp only [children, List.mem_cons, List.mem_append] at hc
    rcases hc with rfl | hc | hc
    · obtain ⟨hcall, hbelow⟩ := groupingFree_iff.1 (hchildren function (by simp [children]))
      exact groupingFree_mapChildren hcall fun d hd => ihFunction d hd (hbelow d hd)
    · obtain ⟨k, hk, rfl⟩ := List.mem_map.1 hc
      exact ihPartition k hk (hchildren k (by simp [children, hk]))
    · obtain ⟨k, hk, rfl⟩ := List.mem_map.1 hc
      exact ihOrder k hk (hchildren k (by simp [children, hk]))
  | other e haggregate hwindow ih =>
    obtain ⟨hcall, hchildren⟩ := groupingFree_iff.1 h
    rw [mapAggregateArguments_eq haggregate hwindow]
    exact groupingFree_mapChildren hcall fun c hc => ih c hc (hchildren c hc)

end Expr

/-! ## What lowering leaves -/

namespace Repetition

variable {r : Repetition} {next : Nat}

/-- Grouping calls are replaced wherever the rewriting of the output comes to them. -/
theorem groupingFree_outputAt {e : Expr} (he : e ∈ r.outputAt next) : e.GroupingFree := by
  obtain ⟨e₀, he₀, rfl⟩ := List.mem_map.1 he
  refine Expr.groupingFree_replace (fun n hn => Bindings.outputRule_isSome he₀ hn)
    (fun n hcall => by rw [Bindings.replaces, hcall, Bool.true_or]) fun n y hy => ?_
  unfold Bindings.outputRule at hy
  split at hy
  · obtain ⟨v, -, rfl⟩ := Option.map_eq_some_iff.1 hy
    exact Expr.groupingFree_virtual v
  · obtain ⟨b, -, rfl⟩ := Bindings.replacement?_eq_some hy
    exact Expr.groupingFree_column _

/-- A definition has grouping calls inside exactly if the expression bound to it has. -/
theorem groupingFree_definition {b : Binding} (hb : b ∈ (r.bindingsAt next).toList) :
    b.definition.toExpr.GroupingFree ↔ b.source.GroupingFree := by
  rcases definition_cases hb with ⟨c, hc, hd⟩ | ⟨a, -, -, hbeq, hd⟩ | ⟨a, ha, hd⟩ | ⟨k, -, -, -, hd⟩
  · rw [hc, hd]
    exact Iff.rfl
  · rw [hd, Expr.groupingFree_congr hbeq]
    exact Expr.groupingFree_alias a
  · rw [ha, hd]
    exact Iff.rfl
  · rw [hd]
    exact Expr.groupingFree_alias _

end Repetition

lemma Definition.groupingFree_expr {d : Definition} :
    d.expr.GroupingFree ↔ d.toExpr.GroupingFree := by
  cases d with
  | column c => exact Iff.rfl
  | named a => exact (Expr.groupingFree_alias a).symm

namespace Stacked

variable {r : Repetition} {next : Nat} {x : Stacked r next} {a : Aggregation}
  {copies : List Column} {child : Plan}

lemma groupingFree_entry (early : ∀ e ∈ r.early.toList, e.GroupingFree) {d : Definition}
    (hd : d ∈ x.entries) : d.toExpr.GroupingFree := by
  rcases x.entry_cases hd with ⟨b, hb, rfl⟩ | ⟨c, -, rfl, -⟩
  · rw [Repetition.groupingFree_definition hb]
    exact early _ (List.mem_of_mem_filter (Bindings.mem_bindFrom hb).1)
  · exact Expr.groupingFree_column c

/-- Nothing that is added has grouping calls inside if no early expression has, and no entry that
was there before. -/
lemma Adds.groupingFree {added : List Expr} {ds : List Duplicate} (adds : x.Adds added ds)
    (listed : ∀ e ∈ r.child.listed, e.GroupingFree)
    (early : ∀ e ∈ r.early.toList, e.GroupingFree) {e : Expr} (he : e ∈ added) :
    e.GroupingFree := by
  rcases adds.cases e he with ⟨d, hd, rfl⟩ | ⟨c, rfl⟩ | ⟨d, hd, rfl⟩
  · exact groupingFree_entry early hd
  · exact Expr.groupingFree_column c
  · rw [Expr.groupingFree_alias]
    rcases adds.sources d hd with ⟨c, hc⟩ | ⟨source, hsource, hexpr⟩
    · rw [hc]
      exact Expr.groupingFree_column c
    · rw [← hexpr, Definition.groupingFree_expr]
      rcases hsource with hentry | hlisted
      · exact groupingFree_entry early hentry
      · exact listed _ hlisted

/-- In a hygienic repetition every early expression is evaluated by some entry, and an early
expression with a grouping call inside makes an entry with one. -/
lemma Adds.groupingFree_early {added : List Expr} {ds : List Duplicate} (adds : x.Adds added ds)
    (h : r.Hygienic next) (free : ∀ e ∈ added, e.GroupingFree) {e : Expr}
    (he : e ∈ r.early.toList) : e.GroupingFree := by
  obtain ⟨y, hy, hsub⟩ := Repetition.mem_early he
  obtain ⟨b, hget⟩ := Option.isSome_iff_exists.1
    ((h.isSome_iff_early hy hsub).2 (Roster.contains_of_mem he))
  obtain ⟨hb, hbeq⟩ := Bindings.get?_eq_some hget
  obtain ⟨b', hb', hentry, hid⟩ := x.exists_entry_of_binding hb
  rw [Binding.id_column] at hid
  rw [Expr.groupingFree_congr hbeq, Expr.groupingFree_congr (h.source_beq_source hb hb' hid.symm),
    ← Repetition.groupingFree_definition hb']
  rcases adds.entries with hall | hcolumns
  · exact free _ (hall _ hentry)
  · obtain ⟨c, hc⟩ := hcolumns _ hentry
    rw [hc]
    exact Expr.groupingFree_column c

end Stacked

lemma ColumnRepetition.groupingFree_groupBy (n : ColumnRepetition) {e : Expr}
    (he : e ∈ n.groupBy) : e.GroupingFree := by
  rcases List.mem_append.1 he with he | he
  · obtain ⟨c, -, rfl⟩ := List.mem_map.1 he
    exact Expr.groupingFree_column c
  · obtain ⟨v, -, rfl⟩ := List.mem_map.1 he
    exact Expr.groupingFree_virtual v

lemma ColumnRepetition.groupingFree (n : ColumnRepetition) {e : Expr}
    (he : e ∈ n.toRepetition.sets.flatten ++ n.toRepetition.output) : e.GroupingFree := by
  rcases List.mem_append.1 he with he | he
  · rw [n.flatten_sets] at he
    obtain ⟨c, -, rfl⟩ := List.mem_map.1 he
    exact Expr.groupingFree_column c
  · rcases n.mem_output he with ⟨c, rfl⟩ | ⟨v, rfl⟩
    · exact Expr.groupingFree_column c
    · exact Expr.groupingFree_virtual v

namespace Repetition

variable {r : Repetition} {settings : Settings} {s s' : Session} {a : Aggregation}

/-- Lowering leaves no grouping call in what is grouped by, in the output, or in the repetition.
What it adds below has none if no early expression has one, and in a hygienic repetition only then,
provided that the child came without. -/
theorem lower_groupingFree_iff (run : (r.lower settings).runIn s = (.ok a, s')) :
    ∃ (r' : Repetition) (added : List Expr), a.child = r'.toPlan ∧
      r.child.Extends added r'.child ∧
      (∀ e ∈ (a.groupBy ++ a.output) ++ (r'.sets.flatten ++ r'.output), e.GroupingFree) ∧
      ((∀ e ∈ r.child.listed, e.GroupingFree) →
        ((∀ e ∈ r.early.toList, e.GroupingFree) → ∀ e ∈ added, e.GroupingFree) ∧
        (r.Hygienic s.nextId →
          ((∀ e ∈ added, e.GroupingFree) ↔ ∀ e ∈ r.early.toList, e.GroupingFree))) := by
  obtain ⟨-, -, x, s₁, hnext, separated⟩ := lower_eq_ok run
  obtain ⟨r', added, ds, hchild, extends_child, adds⟩ := x.exists_additions separated
  obtain ⟨copies, child, lowered⟩ := x.lowered_of_separate hnext separated
  obtain rfl : r' = (x.withCopies copies child).toRepetition :=
    Repetition.toPlan_inj (hchild.symm.trans lowered.child_eq)
  refine ⟨_, added, hchild, extends_child, fun e he => ?_, fun listed =>
    ⟨fun early e he => adds.groupingFree listed early he, fun h => ⟨fun free e he =>
      adds.groupingFree_early h free he, fun early e he => adds.groupingFree listed early he⟩⟩⟩
  rcases List.mem_append.1 he with he | he
  · rcases List.mem_append.1 he with hkey | houtput
    · rw [lowered.groupBy_eq] at hkey
      exact (x.withCopies copies child).groupingFree_groupBy hkey
    · obtain ⟨f, renamed⟩ := lowered.renamed
      rw [renamed] at houtput
      obtain ⟨e₀, he₀, rfl⟩ := List.mem_map.1 houtput
      exact Expr.groupingFree_mapAggregateArguments
        (fun _ => Expr.groupingFree_replaceColumns) (groupingFree_outputAt he₀)
  · exact (x.withCopies copies child).groupingFree he

theorem lower_groupingFree_iff_markedSums :
    ∃ a s', (markedSums.lower {}).runIn { nextId := 5 } = (.ok a, s') ∧
      ∃ (r' : Repetition) (added : List Expr), a.child = r'.toPlan ∧
        markedSums.child.Extends added r'.child ∧ ∀ e ∈ added, e.GroupingFree := by
  obtain ⟨a, s', run⟩ : ∃ a s', (markedSums.lower {}).runIn { nextId := 5 } = (.ok a, s') :=
    ⟨_, _, rfl⟩
  obtain ⟨r', added, hchild, extends_child, -, free⟩ := lower_groupingFree_iff run
  have below := ((free (by decide)).2 markedSums_hygienic).2 (by decide)
  exact ⟨a, s', run, r', added, hchild, extends_child, below⟩

/-- `select sum(grouping(a)) as s … group by grouping sets ((a), ())`. -/
def summedMark : Repetition :=
  let a : Column := ⟨⟨0⟩, "a", .integer, true⟩
  { sets := [[.column a], []]
    output := [.named ⟨1⟩ "s" (.aggregate .sum [.grouping .grouping [.column a]] false)]
    child := .scan "t" [a] }

/-- The grouping sets are free of grouping calls, and yet the projection evaluates one. -/
theorem summedMark_not_groupingFree : (∀ e ∈ summedMark.sets.flatten, e.GroupingFree) ∧
    ∃ a s', (summedMark.lower {}).runIn { nextId := 2 } = (.ok a, s') ∧
      ∃ (r' : Repetition) (added : List Expr), a.child = r'.toPlan ∧
        summedMark.child.Extends added r'.child ∧ ¬ ∀ e ∈ added, e.GroupingFree :=
  ⟨by decide, _, _, rfl, ⟨_, _, _⟩, _, rfl, .put _ _, by decide⟩

end Repetition
end GroupingPlanner

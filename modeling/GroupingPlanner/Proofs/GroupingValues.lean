import GroupingPlanner.Proofs.Masks
import GroupingPlanner.Proofs.PlanRuns
/-!
# The values of grouping functions after lowering

The value of a grouping call and the grouping id are masks: a bit tells whether a grouping set holds
an expression.  Lowering puts columns in the place of the expressions, in the sets and in the
arguments of calls alike, so a bit is kept as long as equal columns stand for equal expressions.  In
a hygienic query they do, for the expressions of the sets as well as for the arguments of grouping
calls.  Duplicates are never members of a set and change nothing here.

* `Hygienic.substitute_beq_iff`: bound columns tell early expressions apart.
* `Hygienic.items_substitute`: the expressions of the sets become the columns of the sets.
* `Hygienic.groupingIds_eq`, `Hygienic.callValues_eq`: masks over columns are those over
  expressions.
* `Repetition.lower_groupingValues`: what a lowered repetition computes for its sets is what the
  query computes.
-/

namespace GroupingPlanner

/-! ## Columns in the place of expressions -/

/-- Calls are compared by their functions and, entry by entry, by their arguments. -/
lemma GroupingCall.beq_iff (a b : GroupingCall) : a == b ↔ a.fn = b.fn ∧ a.args == b.args := by
  rw [Expr.list_beq_iff, ← Expr.skeletons_eq_map, ← Expr.skeletons_eq_map, ← Expr.sameAll_iff,
    ← decide_eq_true_iff (p := a.fn = b.fn), ← Bool.and_eq_true]
  rfl

namespace Repetition.Hygienic

variable {r : Repetition} {next : Nat} (h : r.Hygienic next)
include h

/-- Bound columns tell early expressions apart. -/
lemma substitute_beq_iff (x : Stacked r next) {item e : Expr} (hitem : item ∈ r.sets.flatten)
    (he : r.early.contains e) :
    (r.bindingsAt next).substitute e == (r.bindingsAt next).substitute item ↔ e == item := by
  obtain ⟨y, hy, hbeq⟩ := (Roster.contains_iff _ _).1 he
  obtain ⟨b', hget', hsub'⟩ := x.item_bound hitem
  obtain ⟨hb', hsource'⟩ := Bindings.get?_eq_some hget'
  have bound : ((r.bindingsAt next).get? e).isSome := by
    obtain ⟨z, hz, hyz⟩ := Repetition.mem_early hy
    rw [Bindings.get?_congr hbeq]
    exact (h.isSome_iff_early hz hyz).2 (Roster.contains_of_mem hy)
  obtain ⟨b, hget⟩ := Option.isSome_iff_exists.1 bound
  obtain ⟨hb, hsource⟩ := Bindings.get?_eq_some hget
  have hsub : (r.bindingsAt next).substitute e = .column b.column := by
    rw [Bindings.substitute, Expr.replace_eq, Bindings.replacement?, hget]
    simp
  rw [hsub, hsub']
  constructor
  · intro hcolumns
    have hid : b.column.id = b'.column.id := (Column.beq_iff _ _).1 hcolumns
    rw [Binding.id_column, Binding.id_column] at hid
    exact BEq.trans hsource (BEq.trans (h.source_beq_source hb hb' hid) (BEq.symm hsource'))
  · intro hsame
    rw [Repetition.eq_of_source_beq hb hb'
      (BEq.trans (BEq.symm hsource) (BEq.trans hsame hsource'))]
    exact BEq.rfl

lemma contains_substitute (x : Stacked r next) {set : List Expr} (hset : set ∈ r.sets) {e : Expr}
    (he : r.early.contains e) : (set.map (r.bindingsAt next).substitute).contains
      ((r.bindingsAt next).substitute e) = set.contains e := by
  have items : ∀ item ∈ set, item ∈ r.sets.flatten := fun item hitem =>
    List.mem_flatten.2 ⟨set, hset, hitem⟩
  rw [Bool.eq_iff_iff, List.contains_iff_exists_mem_beq, List.contains_iff_exists_mem_beq]
  constructor
  · rintro ⟨c, hc, hbeq⟩
    obtain ⟨item, hitem, rfl⟩ := List.mem_map.1 hc
    exact ⟨item, hitem, (h.substitute_beq_iff x (items item hitem) he).1 hbeq⟩
  · rintro ⟨item, hitem, hbeq⟩
    exact ⟨_, List.mem_map_of_mem hitem, (h.substitute_beq_iff x (items item hitem) he).2 hbeq⟩

/-- A set and expressions have the mask that they have over bound columns. -/
lemma absenceMask_substitute (x : Stacked r next) {set : List Expr} (hset : set ∈ r.sets)
    {es : List Expr} (hes : ∀ e ∈ es, r.early.contains e) :
    absenceMask (set.map (r.bindingsAt next).substitute) (es.map (r.bindingsAt next).substitute) =
      absenceMask set es :=
  absenceMask_map fun e he => h.contains_substitute x hset (hes e he)

/-- The expressions of the sets, each once, become the columns of the sets, each once. -/
lemma items_substitute (x : Stacked r next) :
    x.repetition.items.toList = r.items.toList.map (r.bindingsAt next).substitute := by
  rw [Repetition.items, Repetition.items, x.flatten_sets]
  apply Roster.toList_ofList_map
  intro e he item hitem
  rw [Bool.eq_iff_iff]
  exact h.substitute_beq_iff x hitem
    (Repetition.early_of_item (Repetition.contains_items_of_mem he))

/-! ## Masks over columns -/

section Masks

variable {r' : Repetition} (x : Stacked r next) (sets : r'.sets = x.repetition.sets)
include sets

/-- The grouping sets over columns have the grouping ids that they have over expressions. -/
theorem groupingIds_eq : r'.groupingIds = r.groupingIds := by
  have items : r'.items.toList = r.items.toList.map (r.bindingsAt next).substitute := by
    rw [← h.items_substitute x, items, items, sets]
  rw [groupingIds, groupingIds, items, sets, Stacked.repetition, x.setExprs_eq, List.map_map]
  refine List.map_congr_left fun set hset => h.absenceMask_substitute x hset fun e he => ?_
  exact early_of_item (Roster.contains_of_mem he)

/-- A call over columns has the values that it has over expressions. -/
theorem callValues_eq {call call' : GroupingCall} (hargs : ∀ e ∈ call.args, r.early.contains e)
    (same : (r.bindingsAt next).signature call == call') :
    r'.callValues call' = r.callValues call := by
  rw [callValues, callValues, sets, Stacked.repetition, x.setExprs_eq, List.map_map]
  refine List.map_congr_left fun set hset => ?_
  rw [Function.comp_apply, ← absenceMask_congr ((GroupingCall.beq_iff _ _).1 same).2]
  exact h.absenceMask_substitute x hset hargs

end Masks

end Repetition.Hygienic

/-! ## Lowered repetitions -/

namespace Repetition

variable {r : Repetition} {next : Nat}

/-- A grouping call that the walk over the output reaches is replaced by a virtual column for its
signature, and the repetition puts that column out. -/
lemma exists_virtualColumn (x : Stacked r next) (free : r.VirtualFree) {e : Expr}
    (he : e ∈ r.output) {call : GroupingCall} (hcall : call ∈ (r.bindingsAt next).replacedCalls e) :
    ∃ v ∈ x.substituted.virtualColumns x.groupingId,
      (r.bindingsAt next).outputRule (r.callColumnsAt next) call.toExpr = some v.toExpr ∧
      v.isFor ((r.bindingsAt next).signature call) := by
  obtain ⟨n, hn, hnc⟩ := List.mem_filterMap.1 hcall
  obtain rfl := Expr.groupingCall?_eq_some_iff.1 hnc
  have answers : ∀ n ∈ e.nodesUntil (r.bindingsAt next).replaces,
      ((r.bindingsAt next).outputRule (r.callColumnsAt next) n).isSome =
        (r.bindingsAt next).replaces n := fun n hn => Bindings.outputRule_isSome he hn
  have found :
      ((r.callColumnsAt next).find? (·.isFor ((r.bindingsAt next).signature call))).isSome := by
    have answered := answers _ hn
    rw [Bindings.outputRule, Bindings.replaces, hnc] at answered
    simpa using answered
  obtain ⟨v, hv⟩ := Option.isSome_iff_exists.1 found
  have hrule : (r.bindingsAt next).outputRule (r.callColumnsAt next) call.toExpr =
      some v.toExpr := by
    rw [Bindings.outputRule, hnc]
    exact congrArg (Option.map VirtualColumn.toExpr) hv
  have stands := Expr.mem_subterms_replace_of_walk answers hn hrule
  refine ⟨v, x.mem_virtualColumns free (List.mem_map_of_mem he) stands, hrule, ?_⟩
  simpa using List.find?_some hv

/-- Grouping values survive lowering.  The sets of the new repetition hold the columns that stand
for the expressions of the sets, in the same order; the grouping ids are what they were; and every
grouping call that is replaced has the values of the virtual column read in its place. -/
theorem lower_groupingValues {settings : Settings} {s s' : Session} {a : Aggregation}
    (h : r.Hygienic s.nextId) (run : (r.lower settings).runIn s = (.ok a, s')) :
    ∃ (x : Stacked r s.nextId) (r' : Repetition) (ds : List Duplicate), a.child = r'.toPlan ∧
      Separation x.aggregation a x.repetition r' ds x.nextId ∧
      r'.items.toList.map some = r.items.toList.map (r.bindingsAt s.nextId).replacement? ∧
      r'.groupingIds = r.groupingIds ∧
      ∀ e ∈ r.output, ∀ call ∈ (r.bindingsAt s.nextId).replacedCalls e, ∃ v : VirtualColumn,
        (r.bindingsAt s.nextId).outputRule (r.callColumnsAt s.nextId) call.toExpr =
          some v.toExpr ∧
        v.toExpr ∈ r'.output ∧ r'.virtualValues v = r.callValues call := by
  obtain ⟨x, r', ds, hchild, promise⟩ := separation_of_lower h.below run
  refine ⟨x, r', ds, hchild, promise, ?_, h.groupingIds_eq x promise.sets, ?_⟩
  · have items : r'.items.toList = r.items.toList.map (r.bindingsAt s.nextId).substitute := by
      rw [← h.items_substitute x, items, items, promise.sets]
    rw [items, List.map_map]
    refine List.map_congr_left fun item hitem => ?_
    obtain ⟨b, hget, hsub⟩ := x.item_bound (Roster.mem_ofList hitem)
    rw [Function.comp_apply, hsub, Bindings.replacement?, hget, Option.map_some]
  · intro e he call hcall
    obtain ⟨v, hv, hrule, hfor⟩ := exists_virtualColumn x h.no_virtual he hcall
    refine ⟨v, hrule, ?_, ?_⟩
    · rw [promise.output_eq]
      exact List.mem_append_right _ (List.mem_map_of_mem hv)
    · obtain ⟨n, hn, hnc⟩ := List.mem_filterMap.1 hcall
      obtain rfl := Expr.groupingCall?_eq_some_iff.1 hnc
      have hargs : ∀ arg ∈ call.args, r.early.contains arg := fun arg harg =>
        early_of_groupingArgument he (Expr.mem_subterms_of_mem_nodesUntil hn) harg
      obtain ⟨c, _ | call'⟩ := v
      · cases hfor
      · exact h.callValues_eq x promise.sets hargs hfor

theorem lower_groupingValues_markedSums :
    markedSums.Hygienic 5 ∧ ∃ a s', (markedSums.lower {}).runIn { nextId := 5 } = (.ok a, s') ∧
      ∃ (x : Stacked markedSums 5) (r' : Repetition) (ds : List Duplicate), a.child = r'.toPlan ∧
        Separation x.aggregation a x.repetition r' ds x.nextId ∧
        r'.items.toList.map some =
          markedSums.items.toList.map (markedSums.bindingsAt 5).replacement? ∧
        r'.groupingIds = markedSums.groupingIds ∧ markedSums.groupingIds = [1, 2] ∧
        ∀ e ∈ markedSums.output, ∀ call ∈ (markedSums.bindingsAt 5).replacedCalls e,
          ∃ v : VirtualColumn,
            (markedSums.bindingsAt 5).outputRule (markedSums.callColumnsAt 5) call.toExpr =
              some v.toExpr ∧
            v.toExpr ∈ r'.output ∧ r'.virtualValues v = markedSums.callValues call := by
  obtain ⟨a, s', run⟩ : ∃ a s', (markedSums.lower {}).runIn { nextId := 5 } = (.ok a, s') :=
    ⟨_, _, rfl⟩
  obtain ⟨x, r', ds, hchild, promise, items, ids, calls⟩ :=
    lower_groupingValues markedSums_hygienic run
  exact ⟨markedSums_hygienic, a, s', run, x, r', ds, hchild, promise, items, ids, by decide, calls⟩

end Repetition

end GroupingPlanner

import GroupingPlanner.Proofs.Scope
import GroupingPlanner.Proofs.StackColumns
/-!
# What the output reads outside aggregates

Outside aggregates an output may read grouping columns only: any other column has no one value in a
group.  A query says so by putting every column outside aggregates inside an expression that it
groups by.  Lowering does not keep this up in general.  Aggregate arguments and the arguments of
grouping functions are bound to columns by the same table as grouping expressions, and the table is
consulted wherever an expression occurs.  So in

    select a + 1, sum(a + 1) … group by grouping sets ((a), ())

the `a + 1` outside the aggregate is read from the column that was made for the argument of `sum`,
a column that is neither grouped by nor nulled.  The argument has *captured* the other occurrence.

* `Repetition.Covered`: the columns outside aggregates stand inside grouping expressions.
* `Repetition.CaptureFree`: no occurrence outside aggregates is captured.
* `Repetition.captureFree_iff`: for a hygienic repetition, the same without the table.
* `Aggregation.ReadsKeysOnly`: outside aggregates only grouping columns are read.
* `Repetition.lower_readsKeysOnly_iff`: for a covered output the last two come to the same.
* `Repetition.capturing_not_readsKeysOnly`: the query above, which is covered.
-/

namespace GroupingPlanner

/-! ## The rule for the output -/

namespace Bindings

variable {b : Bindings} {first : Nat} {output : List Expr}

lemma children_outputRule {columns : List VirtualColumn} {n y : Expr}
    (h : b.outputRule columns n = some y) : y.children = [] := by
  unfold outputRule at h
  split at h
  · obtain ⟨v, -, rfl⟩ := Option.map_eq_some_iff.1 h
    obtain ⟨c, _ | call⟩ := v <;> rfl
  · obtain ⟨x, -, rfl⟩ := replacement?_eq_some h
    rfl

/-- A node becomes a plain column if it is bound to that column, or if it is the column and not
bound at all. -/
lemma column?_outputRule {columns : List VirtualColumn} {n : Expr} {c : Column}
    (h : ((b.outputRule columns n).getD n).column? = some c) : n.groupingCall? = none ∧
      ((∃ x, b.get? n = some x ∧ c = x.column) ∨ b.get? n = none ∧ n = .column c) := by
  unfold outputRule at h
  cases hcall : n.groupingCall? with
  | some call =>
    exfalso
    rw [hcall] at h
    cases hfind : columns.find? (·.isFor (b.signature call)) with
    | some v =>
      simp only [hfind] at h
      obtain ⟨c', _ | call'⟩ := v <;> cases h
    | none =>
      simp only [hfind] at h
      obtain rfl := Expr.groupingCall?_eq_some_iff.1 hcall
      cases h
  | none =>
    rw [hcall, replacement?] at h
    refine ⟨rfl, ?_⟩
    cases hget : b.get? n with
    | some x =>
      rw [hget] at h
      exact Or.inl ⟨x, rfl, (Option.some.inj h).symm⟩
    | none =>
      rw [hget] at h
      exact Or.inr ⟨rfl, Expr.column?_eq_some_iff.1 h⟩

/-- The columns outside of a rewritten entry are those that the nodes outside become. -/
lemma outerColumns_output {e : Expr} (he : e ∈ output) :
    (e.replace (b.outputRule (b.callColumns first output))).outerColumns false =
      (e.outerNodesUntil b.replaces false).filterMap fun n =>
        ((b.outputRule (b.callColumns first output) n).getD n).column? := by
  rw [Expr.outerColumns_replace (fun _ _ => children_outputRule)]
  congr 1
  symm
  apply Expr.outerNodesUntil_congr
  intro n hn
  exact (outputRule_isSome he (Expr.mem_nodesUntil_of_outer hn)).symm

end Bindings

/-! ## Capture -/

/-- Outside aggregates over a group, an aggregation reads only columns that the repetition below
groups by, and groups by them itself. -/
def Aggregation.ReadsKeysOnly (a : Aggregation) (r : Repetition) : Prop :=
  ∀ e ∈ a.output, ∀ c ∈ e.outerColumns false,
    r.setColumns.contains c ∧ a.groupBy.contains (.column c)

namespace Repetition

variable {r : Repetition} {next : Nat}

/-- Every plain column of the output outside aggregates and grouping calls stands inside an
expression of a grouping set. -/
def Covered (r : Repetition) : Prop :=
  ∀ e ∈ r.output,
    ∀ n ∈ e.outerNodesUntil (fun n => n.groupingCall?.isSome || r.items.contains n) false,
      n.column?.isSome → r.items.contains n

/-- Outside aggregates and grouping calls, an expression is read only from a column that an
expression of a grouping set is bound to. -/
def CaptureFree (r : Repetition) (next : Nat) : Prop :=
  ∀ e ∈ r.output, ∀ n ∈ e.outerNodesUntil (r.bindingsAt next).replaces false,
    n.groupingCall? = none → ∀ b, (r.bindingsAt next).get? n = some b →
    ∃ item ∈ r.sets.flatten, ∃ b', (r.bindingsAt next).get? item = some b' ∧ b.column == b'.column

/-- Outside aggregates and grouping calls, what is evaluated early is in a grouping set. -/
def EarlyGrouped (r : Repetition) : Prop :=
  ∀ e ∈ r.output,
    ∀ n ∈ e.outerNodesUntil (fun n => n.groupingCall?.isSome || r.early.contains n) false,
      n.groupingCall? = none → r.early.contains n → r.items.contains n

/-- What covers a column is replaced as a whole, if it is more than a leaf. -/
lemma replaces_of_items (n : Expr) (h : (n.groupingCall?.isSome || r.items.contains n) = true) :
    (r.bindingsAt next).replaces n = true ∨ n.children = [] := by
  rw [Bool.or_eq_true] at h
  rw [Bindings.replaces, Bool.or_eq_true]
  rcases h with hgrouping | hitem
  · exact Or.inl (Or.inl hgrouping)
  · by_cases hvirtual : n.virtual?.isNone
    · exact Or.inl (Or.inr ((get?_isSome_iff n).2 ⟨early_of_item hitem, hvirtual⟩))
    · right
      cases n <;> first | rfl | exact absurd rfl hvirtual

/-- In a hygienic repetition an expression is captured if it is early and in no grouping set. -/
theorem captureFree_iff (h : r.Hygienic next) : r.CaptureFree next ↔ r.EarlyGrouped := by
  have bound : ∀ e ∈ r.output, ∀ n ∈ e.outerNodesUntil (r.bindingsAt next).replaces false,
      (((r.bindingsAt next).get? n).isSome ↔ r.early.contains n) := by
    intro e he n hn
    exact h.isSome_iff_early (List.mem_append_right _ he)
      (Expr.mem_subterms_of_mem_nodesUntil (Expr.mem_nodesUntil_of_outer hn))
  have walks : ∀ e ∈ r.output, e.outerNodesUntil (r.bindingsAt next).replaces false =
      e.outerNodesUntil (fun n => n.groupingCall?.isSome || r.early.contains n) false := by
    intro e he
    apply Expr.outerNodesUntil_congr
    intro n hn
    exact h.replaces_eq (List.mem_append_right _ he)
      (Expr.mem_subterms_of_mem_nodesUntil (Expr.mem_nodesUntil_of_outer hn))
  constructor
  · intro free e he n hn hcall hearly
    rw [← walks e he] at hn
    obtain ⟨b, hb⟩ := Option.isSome_iff_exists.1 ((bound e he n hn).2 hearly)
    obtain ⟨item, hitem, b', hb', hbeq⟩ := free e he n hn hcall b hb
    obtain ⟨hmem, hsource⟩ := Bindings.get?_eq_some hb
    obtain ⟨hmem', hsource'⟩ := Bindings.get?_eq_some hb'
    rw [Column.beq_iff, Binding.id_column, Binding.id_column] at hbeq
    have hsame := h.source_beq_source hmem hmem' hbeq
    exact contains_items_iff.2
      ⟨item, hitem, BEq.trans hsource (BEq.trans hsame (BEq.symm hsource'))⟩
  · intro free e he n hn hcall b hb
    have hearly : r.early.contains n := (bound e he n hn).1 (by rw [hb]; rfl)
    have hitem := free e he n (by rw [← walks e he]; exact hn) hcall hearly
    obtain ⟨item, hmem, hbeq⟩ := contains_items_iff.1 hitem
    refine ⟨item, hmem, b, ?_, BEq.rfl⟩
    rw [← Bindings.get?_congr hbeq, hb]

end Repetition

/-! ## What is read in the end -/

/-- Separation changes nothing outside aggregates, nor what is grouped by. -/
lemma Aggregation.separate_frame {a b : Aggregation} {r : Repetition} {s s' : Session}
    (hchild : a.child = r.toPlan) (run : a.separate.runIn s = (.ok b, s')) :
    ∃ (r' : Repetition) (F : Expr → Expr), b.child = r'.toPlan ∧ r'.sets = r.sets ∧
      b.groupBy = a.groupBy ∧ b.output = a.output.map (Expr.mapAggregateArguments F) := by
  rcases separate_eq_ok hchild run with ⟨-, rfl, -⟩ | ⟨g, -, -, -, -, rfl⟩
  · refine ⟨r, fun x => x, hchild, rfl, rfl, ?_⟩
    rw [List.map_congr_left fun e _ => Expr.mapAggregateArguments_id e, List.map_id']
  · exact ⟨r.duplicating g _, _, rfl, rfl, rfl, rfl⟩

namespace Repetition

variable {r : Repetition} {settings : Settings} {s s' : Session} {a : Aggregation}

/-- Lowering keeps to grouping columns outside aggregates exactly if nothing is captured there.  In
a hygienic repetition that is so exactly if what is evaluated early stands there only where it is
grouped by. -/
theorem lower_readsKeysOnly_iff (covered : r.Covered)
    (run : (r.lower settings).runIn s = (.ok a, s')) :
    ∃ r', a.child = r'.toPlan ∧ (a.ReadsKeysOnly r' ↔ r.CaptureFree s.nextId) ∧
      (r.Hygienic s.nextId → (a.ReadsKeysOnly r' ↔ r.EarlyGrouped)) := by
  obtain ⟨-, -, x, s₁, -, run⟩ := lower_eq_ok run
  obtain ⟨r', F, hchild, hsets, hgroup, houtput⟩ := Aggregation.separate_frame rfl run
  suffices keys : a.ReadsKeysOnly r' ↔ r.CaptureFree s.nextId from
    ⟨r', hchild, keys, fun h => keys.trans (captureFree_iff h)⟩
  have setColumns_eq : r'.setColumns = x.repetition.setColumns := by
    rw [setColumns, setColumns, hsets]
  have grouped : ∀ {c}, r'.setColumns.contains c → a.groupBy.contains (.column c) := by
    intro c hc
    rw [setColumns_eq, x.setColumns_eq] at hc
    obtain ⟨c', hc', hbeq⟩ := (Roster.contains_iff _ _).1 hc
    rw [hgroup, List.contains_iff_exists_mem_beq]
    exact ⟨.column c', List.mem_append_left _ (List.mem_map_of_mem hc'), hbeq⟩
  -- The columns read outside are those that the nodes outside become.
  have outer : ∀ {c}, (∃ e ∈ a.output, c ∈ e.outerColumns false) ↔
      ∃ e ∈ r.output, ∃ n ∈ e.outerNodesUntil (r.bindingsAt s.nextId).replaces false,
        (((r.bindingsAt s.nextId).outputRule (r.callColumnsAt s.nextId) n).getD n).column? =
          some c := by
    intro c
    have houter : a.output.map (Expr.outerColumns false) = r.output.map fun e =>
        (e.outerNodesUntil (r.bindingsAt s.nextId).replaces false).filterMap fun n =>
          (((r.bindingsAt s.nextId).outputRule (r.callColumnsAt s.nextId) n).getD n).column? := by
      rw [houtput, List.map_map]
      simp only [Stacked.aggregation, Stacked.substituted, outputAt, Bindings.substituteOutput,
        List.map_map]
      apply List.map_congr_left
      intro e he
      rw [Function.comp_apply, Function.comp_apply, Expr.outerColumns_mapAggregateArguments]
      exact Bindings.outerColumns_output he
    have hflat := congrArg (fun lists => c ∈ lists.flatten) houter
    simpa [List.mem_flatten, List.mem_filterMap] using hflat
  constructor
  · intro keys e he n hn hcall b hb
    have hrule : (r.bindingsAt s.nextId).outputRule (r.callColumnsAt s.nextId) n =
        some (.column b.column) := by
      rw [Bindings.outputRule, hcall, Bindings.replacement?, hb]
      simp
    obtain ⟨e', he', hc⟩ := outer.2 ⟨e, he, n, hn, by rw [hrule]; rfl⟩
    have hkey := (keys e' he' b.column hc).1
    rwa [setColumns_eq, x.contains_setColumns] at hkey
  · intro free e' he' c hc
    obtain ⟨e, he, n, hn, hcol⟩ := outer.1 ⟨e', he', hc⟩
    have hkey : r'.setColumns.contains c := by
      rw [setColumns_eq, x.contains_setColumns]
      obtain ⟨hcall, ⟨b, hb, rfl⟩ | ⟨hnone, rfl⟩⟩ := Bindings.column?_outputRule hcol
      · exact free e he n hn hcall b hb
      · -- A column that is left as it was is covered, and what covers it is bound.
        exfalso
        have hitem := covered e he _ (Expr.outerNodesUntil_mono replaces_of_items hn) rfl
        have hsome : ((r.bindingsAt s.nextId).get? (.column c)).isSome :=
          (get?_isSome_iff _).2 ⟨early_of_item hitem, rfl⟩
        rw [hnone] at hsome
        simp at hsome
    exact ⟨hkey, grouped hkey⟩

theorem lower_readsKeysOnly_iff_markedSums : markedSums.Covered ∧ markedSums.Hygienic 5 ∧
    ∃ a s', (markedSums.lower {}).runIn { nextId := 5 } = (.ok a, s') ∧
      ∃ r', a.child = r'.toPlan ∧ (a.ReadsKeysOnly r' ↔ markedSums.CaptureFree 5) ∧
        (a.ReadsKeysOnly r' ↔ markedSums.EarlyGrouped) := by
  have covered : markedSums.Covered := by
    unfold Covered
    decide
  obtain ⟨a, s', run⟩ : ∃ a s', (markedSums.lower {}).runIn { nextId := 5 } = (.ok a, s') :=
    ⟨_, _, rfl⟩
  obtain ⟨r', hchild, keys, grouped⟩ := lower_readsKeysOnly_iff covered run
  exact ⟨covered, markedSums_hygienic, a, s', run, r', hchild, keys, grouped markedSums_hygienic⟩

/-- `select a + 1 as x, sum(a + 1) as s … group by grouping sets ((a), ())`. -/
def capturing : Repetition :=
  let a : Column := ⟨⟨0⟩, "a", .integer, true⟩
  let next : Expr := .arith .add (.column a) (.literal (.integer 1))
  { sets := [[.column a], []]
    output := [.named ⟨1⟩ "x" next, .named ⟨2⟩ "s" (.aggregate .sum [next] false)]
    child := .scan "t" [a] }

/-- The column read in the place of `a + 1` is not grouped by. -/
theorem capturing_not_readsKeysOnly : capturing.Covered ∧
    ∃ a s', (capturing.lower {}).runIn { nextId := 3 } = (.ok a, s') ∧
      ∀ r', a.child = Repetition.toPlan r' → ¬ a.ReadsKeysOnly r' := by
  refine ⟨?_, _, _, rfl, fun r' _ keys => ?_⟩
  · unfold Covered
    decide
  · have grouped := fun e he c hc => (keys e he c hc).2
    revert grouped
    decide

end Repetition
end GroupingPlanner

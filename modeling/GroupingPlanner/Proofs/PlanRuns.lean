import GroupingPlanner.Proofs.Duplication
import GroupingPlanner.Proofs.StackColumns
/-!
# What lowering a plan returns

Lowering a plan goes up from its lowest node and lowers every repetition over the child that has
been lowered before.  A successful run is therefore a chain of successful runs of
`Repetition.lower`, one for each repetition, each in the session that the one below left.
`Plan.Lowers` is that chain, and what a lowered plan keeps is shown by induction on it.

* `Plan.EveryRepetition`: what holds of all repetitions of a plan.
* `Plan.Lowers`, `Plan.lower_eq_ok`: successful runs, node by node.
* `Repetition.separation_of_lower`: a lowered repetition is the stack, separated.
* `Stacked.output_duplicating`, `Separation.output_eq`: what it puts out.
* `Plan.Lowers.nextId_le`: ids are taken and never given back.
-/

namespace GroupingPlanner

/-! ## Runs, node by node -/

namespace Plan

/-- A claim about repetitions holds of all those in a plan. -/
def EveryRepetition (claim : Repetition → Prop) : Plan → Prop
  | scan .. => True
  | projection _ child | aggregation _ _ child => child.EveryRepetition claim
  | repetition sets output child => claim ⟨sets, output, child⟩ ∧ child.EveryRepetition claim

/-- `p.Lowers settings s p' s'` says that lowering `p` in the session `s` returns `p'` and leaves
the session `s'`. -/
inductive Lowers (settings : Settings) : Plan → Session → Plan → Session → Prop
  | scan (relation : String) (columns : List Column) (s : Session) :
    Lowers settings (.scan relation columns) s (.scan relation columns) s
  | projection (list : List Expr) {child child' : Plan} {s s' : Session}
    (below : Lowers settings child s child' s') :
    Lowers settings (.projection list child) s (.projection list child') s'
  | aggregation (groupBy output : List Expr) {child child' : Plan} {s s' : Session}
    (below : Lowers settings child s child' s') :
    Lowers settings (.aggregation groupBy output child) s (.aggregation groupBy output child') s'
  | repetition (sets : List (List Expr)) (output : List Expr) {child child' : Plan}
    {s s₁ s' : Session} {a : Aggregation} (below : Lowers settings child s child' s₁)
    (run : ((Repetition.mk sets output child').lower settings).runIn s₁ = (.ok a, s')) :
    Lowers settings (.repetition sets output child) s a.toPlan s'

/-- A node that is no repetition stays as it is. -/
lemma runIn_lowerTop_of_other {p : Plan} (other : p.repetition? = none) (settings : Settings)
    (s : Session) : (p.lowerTop settings).runIn s = (.ok p, s) := by
  rw [lowerTop, other, PlanM.runIn_pure]

lemma lowerTop_repetition (sets : List (List Expr)) (output : List Expr) (child : Plan)
    (settings : Settings) : (repetition sets output child).lowerTop settings =
      (Repetition.mk sets output child).lower settings >>= fun a => pure a.toPlan := by
  rw [← map_eq_pure_bind]
  rfl

lemma lowers_of_mapUpM {p p' : Plan} {settings : Settings} {s s' : Session}
    (run : (p.mapUpM (lowerTop settings)).runIn s = (.ok p', s')) : p.Lowers settings s p' s' := by
  induction p generalizing p' s' with
  | scan relation columns =>
    rw [mapUpM, runIn_lowerTop_of_other rfl] at run
    cases run
    exact .scan relation columns s
  | projection list child ih =>
    obtain ⟨child', s₁, hchild, run⟩ := PlanM.runIn_bind_eq_ok.1 run
    rw [runIn_lowerTop_of_other rfl] at run
    cases run
    exact .projection list (ih hchild)
  | aggregation groupBy output child ih =>
    obtain ⟨child', s₁, hchild, run⟩ := PlanM.runIn_bind_eq_ok.1 run
    rw [runIn_lowerTop_of_other rfl] at run
    cases run
    exact .aggregation groupBy output (ih hchild)
  | repetition sets output child ih =>
    obtain ⟨child', s₁, hchild, run⟩ := PlanM.runIn_bind_eq_ok.1 run
    rw [lowerTop_repetition] at run
    obtain ⟨a, s₂, hlower, run⟩ := PlanM.runIn_bind_eq_ok.1 run
    rw [PlanM.runIn_pure] at run
    cases run
    exact .repetition sets output (ih hchild) hlower

/-- A successful run of `lower` lowers the plan node by node, and then takes no more ids. -/
theorem lower_eq_ok {p p' : Plan} {settings : Settings} {s s' : Session}
    (run : (p.lower settings).runIn s = (.ok p', s')) :
    settings.check = .ok () ∧ ∃ s₁, p.Lowers settings s p' s₁ ∧ s'.nextId = s₁.nextId := by
  unfold lower at run
  obtain ⟨_, hcheck, run⟩ := PlanM.runIn_ofExcept_bind_eq_ok.1 run
  obtain ⟨lowered, s₁, hlowered, run⟩ := PlanM.runIn_bind_eq_ok.1 run
  refine ⟨hcheck, s₁, ?_⟩
  split at run
  · rw [PlanM.runIn_report_bind, PlanM.runIn_pure, Prod.mk.injEq, Except.ok.injEq] at run
    obtain ⟨rfl, rfl⟩ := run
    exact ⟨lowers_of_mapUpM hlowered, rfl⟩
  · dsimp only at run
    rw [PlanM.runIn_pure, Prod.mk.injEq, Except.ok.injEq] at run
    obtain ⟨rfl, rfl⟩ := run
    exact ⟨lowers_of_mapUpM hlowered, rfl⟩

end Plan

/-! ## One repetition -/

namespace Repetition

variable {r : Repetition} {settings : Settings} {s s' : Session} {a : Aggregation}

/-- What a successful run of `lower` returns is the stack of the repetition, separated. -/
theorem separation_of_lower (below : r.toPlan.IdsBelow s.nextId)
    (run : (r.lower settings).runIn s = (.ok a, s')) :
    ∃ (x : Stacked r s.nextId) (r' : Repetition) (ds : List Duplicate), a.child = r'.toPlan ∧
      Separation x.aggregation a x.repetition r' ds x.nextId := by
  obtain ⟨-, -, x, s₁, hnext, run⟩ := lower_eq_ok run
  have ids := x.idsBelow below
  rcases Aggregation.separate_eq_ok rfl run with ⟨hnone, rfl, -⟩ | ⟨g, hsome, hg, found, -, rfl⟩
  · exact ⟨x, _, [], rfl, Aggregation.separation_refl hnone _⟩
  · rw [hnext]
    exact ⟨x, _, _, rfl, Aggregation.separation_reading rfl ids hsome hg found rfl⟩

/-- Lowering gives no id back. -/
lemma nextId_le_of_lower (run : (r.lower settings).runIn s = (.ok a, s')) :
    s.nextId ≤ s'.nextId := by
  obtain ⟨-, -, x, s₁, hnext, run⟩ := lower_eq_ok run
  have taken : s.nextId ≤ s₁.nextId := by
    rw [hnext]
    exact x.le_nextId
  rcases Aggregation.separate_eq_ok rfl run with ⟨-, -, rfl⟩ | ⟨g, -, -, -, hnext', -⟩
  · exact taken
  · omega

end Repetition

/-- With duplicates the repetition puts out the columns read, the duplicates and the virtual
columns. -/
lemma Stacked.output_duplicating {r : Repetition} {next : Nat} (x : Stacked r next) (g : Ground)
    (ds : List Duplicate) : (x.repetition.duplicating g ds).output =
      (x.readColumns ++ ds.map (·.copy)).map Expr.column ++
        (x.substituted.virtualColumns x.groupingId).map VirtualColumn.toExpr := by
  have stack : x.repetition.output = x.readColumns.map Expr.column ++
      (x.substituted.virtualColumns x.groupingId).map VirtualColumn.toExpr := rfl
  have columns : ∀ cs : List Column,
      (cs.map Expr.column).filter (fun e => e.virtual?.isNone) = cs.map Expr.column ∧
        (cs.map Expr.column).filter (fun e => e.virtual?.isSome) = [] := by
    intro cs
    constructor
    · apply List.filter_eq_self.2
      intro e he
      obtain ⟨c, -, rfl⟩ := List.mem_map.1 he
      rfl
    · apply List.filter_eq_nil_iff.2
      intro e he
      obtain ⟨c, -, rfl⟩ := List.mem_map.1 he
      exact Bool.false_ne_true
  have virtuals : ∀ vs : List VirtualColumn,
      (vs.map VirtualColumn.toExpr).filter (fun e => e.virtual?.isSome) =
          vs.map VirtualColumn.toExpr ∧
        (vs.map VirtualColumn.toExpr).filter (fun e => e.virtual?.isNone) = [] := by
    intro vs
    constructor
    · apply List.filter_eq_self.2
      intro e he
      obtain ⟨v, -, rfl⟩ := List.mem_map.1 he
      rw [Expr.virtual?_toExpr]
      simp
    · apply List.filter_eq_nil_iff.2
      intro e he
      obtain ⟨v, -, rfl⟩ := List.mem_map.1 he
      rw [Expr.virtual?_toExpr]
      exact Bool.false_ne_true
  rw [Repetition.duplicating, stack, List.filter_append, List.filter_append, (columns _).1,
    (columns _).2, (virtuals _).1, (virtuals _).2, List.append_nil, List.nil_append,
    List.map_append, List.map_map]
  simp

/-- After separation the repetition puts out the columns read, the duplicates and the virtual
columns. -/
lemma Separation.output_eq {r r' : Repetition} {next : Nat} {x : Stacked r next} {a : Aggregation}
    {ds : List Duplicate} (promise : Separation x.aggregation a x.repetition r' ds x.nextId) :
    r'.output = (x.readColumns ++ ds.map (·.copy)).map Expr.column ++
      (x.substituted.virtualColumns x.groupingId).map VirtualColumn.toExpr := by
  by_cases hds : ds = []
  · rw [(promise.unchanged hds).2, hds, List.map_nil, List.append_nil]
    rfl
  · obtain ⟨list, input, -⟩ := promise.defined hds
    rw [promise.output hds]
    exact x.output_duplicating ⟨list, input⟩ ds

lemma Plan.Lowers.nextId_le {p p' : Plan} {settings : Settings} {s s' : Session}
    (h : p.Lowers settings s p' s') : s.nextId ≤ s'.nextId := by
  induction h with
  | scan => exact le_rfl
  | projection _ _ ih | aggregation _ _ _ ih => exact ih
  | repetition sets output _ run ih => exact ih.trans (Repetition.nextId_le_of_lower run)

/-- `select t from (select x, sum(x) as t from … group by grouping sets ((x), ()))` over the query
`markedSums`. -/
def Plan.nestedMarks : Plan :=
  let x : Expr := .column ⟨⟨2⟩, "x", .integer, true⟩
  .projection [.column ⟨⟨6⟩, "t", .numeric, true⟩] <|
    .repetition [[x], []] [x, .named ⟨6⟩ "t" (.aggregate .sum [x] false)]
      Repetition.markedSums.toPlan

end GroupingPlanner

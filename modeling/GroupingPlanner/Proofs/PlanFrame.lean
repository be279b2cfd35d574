import GroupingPlanner.Proofs.Additions
/-!
# What lowering may change in a plan

Lowering puts new repetitions into a plan while it takes the old ones out, and both of its passes
may touch the projection below a repetition.  Nevertheless every repetition of the plan is lowered
once, over a child that has been lowered already, and nothing else happens: the other nodes keep
their expressions, and a child is found again below the stack, at most with a projection put over
it or with aliases after the entries of the projection that it is.  If a repetition fails, those
below have been lowered and those above are never looked at.

* `Plan.Supports`: what may stand below a stack in the place of a child.
* `Plan.Restacked`: a plan and what becomes of it, node by node.
* `Plan.Restacked.repetitionCount_eq`, `Plan.Restacked.aggregationCount_eq`,
  `Plan.Restacked.underAggregations`: how many nodes there are, and where repetitions stand.
* `Plan.Fails`: runs that fail, node by node.
* `Plan.lower_frame`: a run of `lower` returns a plan like this, or it fails like this.
-/

namespace GroupingPlanner

/-! ## Below one stack -/

/-- `child.Supports lowest` says that `lowest` is the child itself, the child with a projection put
over it, or the projection that the child is with aliases after its entries. -/
def Plan.Supports (child lowest : Plan) : Prop :=
  ∃ added, child.Extends added lowest ∧
    (lowest = .projection added child ∨ ∀ e ∈ added, e.alias?.isSome)

/-- The ground together with the duplicates on it is such a plan. -/
lemma Ground.supports_of_forColumns {g : Ground} {child : Plan} {cs : List Column}
    (hg : forColumns child cs = .ok g) (ds : List Duplicate) :
    child.Supports (.projection (g.list ++ ds.map (·.definition.toExpr)) g.input) := by
  rcases forColumns_cases hg with hchild | ⟨hinput, -, -⟩
  · rw [hchild]
    refine ⟨_, .extended g.list _ g.input, Or.inr fun e he => ?_⟩
    obtain ⟨d, -, rfl⟩ := List.mem_map.1 he
    rfl
  · rw [hinput]
    exact ⟨_, .put _ child, Or.inl rfl⟩

/-- A repetition that is lowered becomes an aggregation over a repetition over such a plan. -/
theorem Repetition.supports_of_lower {r : Repetition} {settings : Settings} {s s' : Session}
    {a : Aggregation} (run : (r.lower settings).runIn s = (.ok a, s')) :
    ∃ r' : Repetition, a.child = r'.toPlan ∧ r.child.Supports r'.child := by
  obtain ⟨-, -, x, s₁, -, run⟩ := lower_eq_ok run
  have stack : r.child.Supports x.repetition.child := by
    rcases x.child_cases with hput | ⟨hkept, -⟩
    · rw [hput]
      exact ⟨_, .put _ r.child, Or.inl rfl⟩
    · rw [hkept]
      exact ⟨[], .kept r.child, Or.inr fun e he => absurd he List.not_mem_nil⟩
  rcases Aggregation.separate_eq_ok rfl run with ⟨-, rfl, -⟩ | ⟨g, -, hg, -, -, rfl⟩
  · exact ⟨x.repetition, rfl, stack⟩
  · refine ⟨_, Aggregation.child_reading _ _ _ _, ?_⟩
    rcases x.child_cases with hput | ⟨hkept, -⟩
    · -- The projection of the stack defines all of the columns, so that there is no second one.
      obtain rfl := x.ground_eq_of_put hput hg
      exact ⟨_, .put _ r.child, Or.inl rfl⟩
    · rw [hkept] at hg
      exact Ground.supports_of_forColumns hg _

namespace Plan

/-! ## The whole plan -/

/-- The number of aggregations in a plan. -/
def aggregationCount : Plan → Nat
  | scan .. => 0
  | projection _ child | repetition _ _ child => child.aggregationCount
  | aggregation _ _ child => child.aggregationCount + 1

/-- Every repetition of a plan stands directly under an aggregation. -/
def UnderAggregations : Plan → Prop
  | scan .. => True
  | projection _ child => child.UnderAggregations
  | aggregation _ _ (repetition _ _ child) => child.UnderAggregations
  | aggregation _ _ child => child.UnderAggregations
  | repetition .. => False

/-- `p.Restacked p'` says that `p'` is `p` with an aggregation over a repetition in the place of
each repetition, and otherwise with the same nodes. -/
inductive Restacked : Plan → Plan → Prop
  | scan (relation : String) (columns : List Column) :
    Restacked (.scan relation columns) (.scan relation columns)
  | projection (list : List Expr) {child child' : Plan} (below : Restacked child child') :
    Restacked (.projection list child) (.projection list child')
  | aggregation (groupBy output : List Expr) {child child' : Plan}
    (below : Restacked child child') :
    Restacked (.aggregation groupBy output child) (.aggregation groupBy output child')
  | repetition (sets : List (List Expr)) (output : List Expr) {child child' : Plan}
    (below : Restacked child child') (groupBy output' : List Expr) (r' : Repetition)
    (support : child'.Supports r'.child) :
    Restacked (.repetition sets output child) (.aggregation groupBy output' r'.toPlan)

lemma Lowers.restacked {p p' : Plan} {settings : Settings} {s s' : Session}
    (h : p.Lowers settings s p' s') : p.Restacked p' := by
  induction h with
  | scan relation columns => exact .scan relation columns
  | projection list _ ih => exact .projection list ih
  | aggregation groupBy output _ ih => exact .aggregation groupBy output ih
  | repetition sets output _ run ih =>
    rename_i a _
    obtain ⟨r', hchild, support⟩ := Repetition.supports_of_lower run
    rw [Aggregation.toPlan, hchild]
    exact .repetition sets output ih a.groupBy a.output r' support

/-! ## Nodes are counted and told apart -/

lemma Extends.repetitionCount_eq {p p' : Plan} {added : List Expr} (h : p.Extends added p') :
    p'.repetitionCount = p.repetitionCount := by
  cases h <;> rfl

lemma Extends.aggregationCount_eq {p p' : Plan} {added : List Expr} (h : p.Extends added p') :
    p'.aggregationCount = p.aggregationCount := by
  cases h <;> rfl

lemma Extends.underAggregations_iff {p p' : Plan} {added : List Expr} (h : p.Extends added p') :
    p'.UnderAggregations ↔ p.UnderAggregations := by
  cases h <;> exact Iff.rfl

lemma underAggregations_aggregation {groupBy output : List Expr} {child : Plan}
    (h : child.UnderAggregations) : (aggregation groupBy output child).UnderAggregations := by
  cases child with
  | repetition => exact h.elim
  | _ => exact h

namespace Restacked

variable {p p' : Plan} (h : p.Restacked p')
include h

/-- There are as many repetitions as before. -/
theorem repetitionCount_eq : p'.repetitionCount = p.repetitionCount := by
  induction h with
  | scan => rfl
  | projection _ _ ih | aggregation _ _ _ ih => exact ih
  | repetition sets output _ groupBy output' r' support ih =>
    obtain ⟨added, extends_child, -⟩ := support
    exact congrArg (· + 1) (extends_child.repetitionCount_eq.trans ih)

/-- Each repetition brings one aggregation along. -/
theorem aggregationCount_eq : p'.aggregationCount = p.aggregationCount + p.repetitionCount := by
  induction h with
  | scan => rfl
  | projection _ _ ih => exact ih
  | aggregation groupBy output _ ih =>
    simp only [aggregationCount, repetitionCount, ih]
    omega
  | repetition sets output _ groupBy output' r' support ih =>
    obtain ⟨added, extends_child, -⟩ := support
    have below := extends_child.aggregationCount_eq.trans ih
    simp only [Repetition.toPlan, aggregationCount, repetitionCount, below]
    omega

/-- A repetition stands under the aggregation that came with it, and nowhere else. -/
theorem underAggregations : p'.UnderAggregations := by
  induction h with
  | scan => trivial
  | projection _ _ ih => exact ih
  | aggregation groupBy output _ ih => exact underAggregations_aggregation ih
  | repetition sets output _ groupBy output' r' support ih =>
    obtain ⟨added, extends_child, -⟩ := support
    exact extends_child.underAggregations_iff.2 ih

end Restacked

/-! ## Runs that fail -/

/-- `p.Fails settings s f s'` says that lowering `p` in the session `s` fails with `f` and leaves
the session `s'`: all repetitions below some one are lowered, that one fails, and for the nodes
above nothing more is done. -/
inductive Fails (settings : Settings) : Plan → Session → Fault → Session → Prop
  | here (sets : List (List Expr)) (output : List Expr) {child child' : Plan} {s s₁ s' : Session}
    {f : Fault} (below : child.Lowers settings s child' s₁)
    (run : ((Repetition.mk sets output child').lower settings).runIn s₁ = (.error f, s')) :
    Fails settings (.repetition sets output child) s f s'
  | underProjection (list : List Expr) {child : Plan} {s s' : Session} {f : Fault}
    (below : Fails settings child s f s') : Fails settings (.projection list child) s f s'
  | underAggregation (groupBy output : List Expr) {child : Plan} {s s' : Session} {f : Fault}
    (below : Fails settings child s f s') :
    Fails settings (.aggregation groupBy output child) s f s'
  | underRepetition (sets : List (List Expr)) (output : List Expr) {child : Plan}
    {s s' : Session} {f : Fault} (below : Fails settings child s f s') :
    Fails settings (.repetition sets output child) s f s'

end Plan

lemma PlanM.runIn_bind_eq_error {α β : Type} {x : PlanM α} {k : α → PlanM β} {s s' : Session}
    {f : Fault} : (x >>= k).runIn s = (.error f, s') ↔ x.runIn s = (.error f, s') ∨
      ∃ a s₁, x.runIn s = (.ok a, s₁) ∧ (k a).runIn s₁ = (.error f, s') := by
  rw [runIn_bind]
  rcases x.runIn s with ⟨g | a, s₁⟩
  · simp
  · simp only [Prod.mk.injEq, reduceCtorEq, false_and, false_or, Except.ok.injEq]
    constructor
    · intro hk
      exact ⟨a, s₁, ⟨rfl, rfl⟩, hk⟩
    · rintro ⟨_, _, ⟨rfl, rfl⟩, hk⟩
      exact hk

namespace Plan

variable {p : Plan} {settings : Settings} {s s' : Session}

lemma Lowers.runIn_mapUpM {p' : Plan} (h : p.Lowers settings s p' s') :
    (p.mapUpM (lowerTop settings)).runIn s = (.ok p', s') := by
  induction h with
  | scan => rfl
  | projection list _ ih | aggregation groupBy output _ ih =>
    exact PlanM.runIn_bind_eq_ok.2 ⟨_, _, ih, runIn_lowerTop_of_other rfl _ _⟩
  | repetition sets output _ run ih =>
    refine PlanM.runIn_bind_eq_ok.2 ⟨_, _, ih, ?_⟩
    rw [lowerTop_repetition]
    exact PlanM.runIn_bind_eq_ok.2 ⟨_, _, run, rfl⟩

/-- Going up fails where a repetition does, the lowest first. -/
lemma runIn_mapUpM_eq_error {f : Fault} :
    (p.mapUpM (lowerTop settings)).runIn s = (.error f, s') ↔ p.Fails settings s f s' := by
  -- A node that is no repetition does not fail by itself.
  have other {child : Plan} {node : Plan → Plan} (hnode : ∀ q, (node q).repetition? = none) :
      (child.mapUpM (lowerTop settings) >>= fun q => (node q).lowerTop settings).runIn s =
        (.error f, s') ↔ (child.mapUpM (lowerTop settings)).runIn s = (.error f, s') := by
    rw [PlanM.runIn_bind_eq_error]
    refine or_iff_left ?_
    rintro ⟨q, s₁, -, run⟩
    rw [runIn_lowerTop_of_other (hnode q)] at run
    cases run
  induction p with
  | scan relation columns =>
    refine iff_of_false (fun run => ?_) (fun fails => by cases fails)
    cases run
  | projection list child ih =>
    refine (other fun _ => rfl).trans (ih.trans ⟨.underProjection list, fun fails => ?_⟩)
    cases fails with
    | underProjection _ below => exact below
  | aggregation groupBy output child ih =>
    refine (other fun _ => rfl).trans (ih.trans ⟨.underAggregation groupBy output, fun fails => ?_⟩)
    cases fails with
    | underAggregation _ _ below => exact below
  | repetition sets output child ih =>
    refine PlanM.runIn_bind_eq_error.trans ⟨?_, fun fails => ?_⟩
    · rintro (run | ⟨child', s₁, hchild, run⟩)
      · exact .underRepetition sets output (ih.1 run)
      · rw [lowerTop_repetition, PlanM.runIn_bind_eq_error] at run
        rcases run with run | ⟨a, s₂, -, run⟩
        · exact .here sets output (lowers_of_mapUpM hchild) run
        · cases run
    · cases fails with
      | here _ _ below run =>
        refine Or.inr ⟨_, _, below.runIn_mapUpM, ?_⟩
        rw [lowerTop_repetition]
        exact PlanM.runIn_bind_eq_error.2 (Or.inl run)
      | underRepetition _ _ below => exact Or.inl (ih.2 below)

lemma runIn_lower_eq_error {f : Fault} (valid : settings.check = .ok ()) :
    (p.lower settings).runIn s = (.error f, s') ↔ p.Fails settings s f s' := by
  rw [← runIn_mapUpM_eq_error, lower, PlanM.runIn_bind, PlanM.runIn_ofExcept, valid]
  refine PlanM.runIn_bind_eq_error.trans (or_iff_left ?_)
  -- What follows only reports.
  rintro ⟨lowered, s₁, -, run⟩
  split at run <;> cases run

/-- Without repetitions there is nothing to do. -/
lemma runIn_lower_of_none (valid : settings.check = .ok ()) (none : p.repetitionCount = 0)
    (s : Session) : (p.lower settings).runIn s = (.ok p, s) := by
  have unchanged : p.Lowers settings s p s := by
    induction p with
    | scan relation columns => exact .scan relation columns s
    | projection list child ih => exact .projection list (ih none)
    | aggregation groupBy output child ih => exact .aggregation groupBy output (ih none)
    | repetition => exact absurd none (Nat.succ_ne_zero _)
  rw [lower, PlanM.runIn_bind, PlanM.runIn_ofExcept, valid]
  refine PlanM.runIn_bind_eq_ok.2 ⟨p, s, unchanged.runIn_mapUpM, ?_⟩
  rw [none]
  rfl

/-- With valid settings a successful run lowers every repetition once, from the bottom up, and
leaves all other nodes as they are; a plan without repetitions is returned as it is; and a run
fails exactly as its lowest failing repetition does. -/
theorem lower_frame (p : Plan) {settings : Settings} (valid : settings.check = .ok ())
    (s : Session) :
    (∀ p' s', (p.lower settings).runIn s = (.ok p', s') →
      (∃ s₁, p.Lowers settings s p' s₁ ∧ s'.nextId = s₁.nextId) ∧ p.Restacked p' ∧
        p'.repetitionCount = p.repetitionCount ∧
        p'.aggregationCount = p.aggregationCount + p.repetitionCount ∧ p'.UnderAggregations) ∧
      (p.repetitionCount = 0 → (p.lower settings).runIn s = (.ok p, s)) ∧
      ∀ f s', (p.lower settings).runIn s = (.error f, s') ↔ p.Fails settings s f s' := by
  refine ⟨fun p' s' run => ?_, fun none => runIn_lower_of_none valid none s,
    fun f s' => runIn_lower_eq_error valid⟩
  obtain ⟨-, s₁, lowers, hnext⟩ := lower_eq_ok run
  have restacked := lowers.restacked
  exact ⟨⟨s₁, lowers, hnext⟩, restacked, restacked.repetitionCount_eq,
    restacked.aggregationCount_eq, restacked.underAggregations⟩

/-- A repetition over one over a projection whose entry has no name. -/
def failsBelow : Plan :=
  .repetition [[]] [] (.repetition [[]] [] (.projection [.literal .null] (.scan "t" [])))

theorem lower_frame_nestedMarks :
    ({} : Settings).check = .ok () ∧
      (∃ p' s', (nestedMarks.lower {}).runIn { nextId := 7 } = (.ok p', s') ∧
        nestedMarks.Restacked p' ∧ p'.repetitionCount = 2 ∧ p'.aggregationCount = 2) ∧
      ∃ f s', (failsBelow.lower {}).runIn {} = (.error f, s') ∧
        failsBelow.Fails {} {} f s' := by
  have valid : ({} : Settings).check = .ok () := by decide
  obtain ⟨p', s', run⟩ : ∃ p' s', (nestedMarks.lower {}).runIn { nextId := 7 } = (.ok p', s') :=
    ⟨_, _, rfl⟩
  obtain ⟨f, s₁, failed⟩ : ∃ f s', (failsBelow.lower {}).runIn {} = (.error f, s') :=
    ⟨_, _, rfl⟩
  obtain ⟨-, restacked, repetitions, aggregations, -⟩ :=
    (lower_frame nestedMarks valid { nextId := 7 }).1 p' s' run
  have fails := ((lower_frame failsBelow valid {}).2.2 f s₁).1 failed
  exact ⟨valid, ⟨p', s', run, restacked, repetitions, aggregations⟩, f, s₁, failed, fails⟩

end Plan
end GroupingPlanner

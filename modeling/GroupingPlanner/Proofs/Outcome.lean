import GroupingPlanner.Proofs.Children
import GroupingPlanner.Proofs.PlanRuns
/-!
# When lowering a repetition succeeds

Four things can stand in the way of lowering a repetition, and the first of them is what is
reported: settings out of range, more distinct expressions in the grouping sets than the limit
allows, a virtual column as a member of a grouping set, and a child without a schema.  Whatever else
the passes check holds of every repetition, scoped well or not: the members of the grouping sets
are bound, the child of the stack exposes every grouping column, and so each column that aggregates
read as well is found when its duplicate is to be defined.  Nor can it fail that nodes are put
together again, since a pass gives every node as many children as it took from it.

* `PlanM.fault?`: the fault of a run.
* `Repetition.obstacle?`: what stands in the way, in the order in which it is noticed.
* `Repetition.fault?_stack`, `Stacked.fault?_separate`: what the two passes report.
* `Expr.renaming_iff`: no node is put together over a wrong number of children where aggregates are
  made to read other columns.
* `Repetition.lower_outcome`: when `lower` succeeds, what it reports otherwise, and that the limit
  has no part in what it returns.
-/

namespace GroupingPlanner

/-! ## Faults of runs -/

/-- The fault of a result, if it has one. -/
def faultOf? {α : Type} : Except Fault α → Option Fault
  | .ok _ => none
  | .error f => some f

lemma faultOf?_eq_none_iff {α : Type} {result : Except Fault α} :
    faultOf? result = none ↔ ∃ a, result = .ok a := by
  cases result <;> simp [faultOf?]

lemma faultOf?_eq_some_iff {α : Type} {result : Except Fault α} {f : Fault} :
    faultOf? result = some f ↔ result = .error f := by
  cases result <;> simp [faultOf?]

/-- A list is mapped up to the first entry with a fault. -/
lemma faultOf?_mapM {α β : Type} (f : α → Except Fault β) (xs : List α) :
    faultOf? (xs.mapM f) = xs.findSome? fun x => faultOf? (f x) := by
  induction xs with
  | nil => rfl
  | cons x xs ih =>
    rw [List.mapM_cons, List.findSome?_cons]
    cases hx : f x with
    | error g => rfl
    | ok y =>
      rw [← ih]
      cases hxs : xs.mapM f <;> rfl

namespace PlanM

variable {α β : Type}

/-- The fault of a run in a session. -/
def fault? (x : PlanM α) (s : Session) : Option Fault := faultOf? (x.runIn s).1

lemma fault?_eq_some_iff {x : PlanM α} {s : Session} {f : Fault} :
    x.fault? s = some f ↔ ∃ s', x.runIn s = (.error f, s') := by
  unfold fault?
  rw [faultOf?_eq_some_iff]
  constructor
  · intro h
    exact ⟨(x.runIn s).2, by rw [← h]⟩
  · rintro ⟨s', h⟩
    rw [h]

lemma fault?_eq_none_iff {x : PlanM α} {s : Session} :
    x.fault? s = none ↔ ∃ a s', x.runIn s = (.ok a, s') := by
  unfold fault?
  rw [faultOf?_eq_none_iff]
  constructor
  · rintro ⟨a, h⟩
    exact ⟨a, (x.runIn s).2, by rw [← h]⟩
  · rintro ⟨a, s', h⟩
    exact ⟨a, by rw [h]⟩

@[simp] lemma fault?_takeIds_bind (count : Nat) (k : Nat → PlanM β) (s : Session) :
    (takeIds count >>= k).fault? s =
      (k s.nextId).fault? { s with nextId := s.nextId + count } := rfl

@[simp] lemma fault?_ofExcept_bind_ok (a : α) (k : α → PlanM β) (s : Session) :
    (ofExcept (.ok a) >>= k).fault? s = (k a).fault? s := rfl

/-- A sequence reports the fault of its first part, or else that of the second one. -/
lemma fault?_bind {x : PlanM α} {k : α → PlanM β} {s : Session} {fault : Option Fault}
    (h : ∀ a s', x.runIn s = (.ok a, s') → (k a).fault? s' = fault) :
    (x >>= k).fault? s = (x.fault? s).or fault := by
  rw [fault?, runIn_bind, fault?]
  rcases hx : x.runIn s with ⟨f | a, s'⟩
  · rfl
  · exact h a s' hx

end PlanM

/-! ## What stands in the way -/

/-- The fault of a grouping set with a member that no column can stand for. -/
def Expr.notAColumn (e : Expr) : Fault :=
  .invalid .groupingSet (some ("grouping expression " ++ e.text ++
    " was normalized to " ++ e.text ++ " instead of a column"))

/-- What stands in the way of lowering a repetition, if anything does: the settings, the number of
expressions in the grouping sets, the first virtual column among them, the schema of the child. -/
def Repetition.obstacle? (r : Repetition) (settings : Settings) : Option Fault :=
  (faultOf? settings.check).or <|
    (if settings.maxGroupingItems < r.items.size then
      some (.tooManyGroupingItems settings.maxGroupingItems r.items.size) else none).or <|
    ((r.sets.flatten.find? (·.virtual?.isSome)).map Expr.notAColumn).or <|
    faultOf? r.child.schema

/-- A plan without a schema has an entry without a name. -/
lemma Plan.schema_eq_error {p : Plan} {f : Fault} (h : p.schema = .error f) :
    ∃ owner details, f = .invalid owner (some details) := by
  have columnsOf_eq_error : ∀ {owner : Entity} {es : List Expr},
      columnsOf owner es = .error f → ∃ owner details, f = .invalid owner (some details) := by
    intro owner es h
    induction es with
    | nil => simp [columnsOf] at h
    | cons e es ih =>
      unfold columnsOf at h
      split at h
      · cases h
        exact ⟨_, _, rfl⟩
      · cases hes : columnsOf owner es with
        | ok cs => simp [hes, Except.map] at h
        | error f' =>
          rw [hes] at h
          cases h
          exact ih hes
  cases p with
  | scan relation columns => cases h
  | _ => exact columnsOf_eq_error h

/-! ## The stack -/

namespace Repetition

variable {r : Repetition} {next : Nat}

/-- A member of a grouping set becomes a column unless it is a virtual column. -/
lemma faultOf?_boundColumn {item : Expr} (hitem : item ∈ r.sets.flatten) :
    faultOf? ((r.bindingsAt next).boundColumn item) =
      if item.virtual?.isSome then some item.notAColumn else none := by
  have early : r.early.contains item := early_of_item (contains_items_of_mem hitem)
  unfold Bindings.boundColumn
  rw [Bindings.substitute, Expr.replace_eq, Bindings.replacement?]
  cases hget : (r.bindingsAt next).get? item with
  | some b =>
    have hbound : ((r.bindingsAt next).get? item).isSome := by rw [hget]; rfl
    have hplain := ((get?_isSome_iff item).1 hbound).2
    rw [Option.isNone_iff_eq_none] at hplain
    rw [hplain]
    rfl
  | none =>
    have hvirtual : item.virtual?.isSome := by
      by_contra hplain
      have hbound : ((r.bindingsAt next).get? item).isSome :=
        (get?_isSome_iff item).2 ⟨early, by simpa using hplain⟩
      rw [hget] at hbound
      simp at hbound
    obtain ⟨v, hv⟩ := Option.isSome_iff_exists.1 hvirtual
    obtain rfl := Expr.virtual?_eq_some_iff.1 hv
    obtain ⟨c, _ | call⟩ := v <;> rfl

/-- Grouping sets become sets of columns unless they hold a virtual column; the first one is
reported. -/
lemma faultOf?_columnSets : faultOf? ((r.bindingsAt next).columnSets r.sets) =
    (r.sets.flatten.find? (·.virtual?.isSome)).map Expr.notAColumn := by
  have sets (sets : List (List Expr)) : faultOf? ((r.bindingsAt next).columnSets sets) =
      sets.flatten.findSome? fun e => faultOf? ((r.bindingsAt next).boundColumn e) := by
    rw [Bindings.columnSets, faultOf?_mapM]
    induction sets with
    | nil => rfl
    | cons set sets ih =>
      rw [List.findSome?_cons, List.flatten_cons, List.findSome?_append, ih, faultOf?_mapM]
      cases set.findSome? fun e => faultOf? ((r.bindingsAt next).boundColumn e) <;> rfl
  have members (es : List Expr) (hes : ∀ e ∈ es, e ∈ r.sets.flatten) :
      es.findSome? (fun e => faultOf? ((r.bindingsAt next).boundColumn e)) =
        (es.find? (·.virtual?.isSome)).map Expr.notAColumn := by
    induction es with
    | nil => rfl
    | cons e es ih =>
      rw [List.findSome?_cons, List.find?_cons, faultOf?_boundColumn (hes e List.mem_cons_self),
        ih fun e he => hes e (List.mem_cons_of_mem _ he)]
      cases e.virtual?.isSome <;> rfl
  rw [sets, members _ fun _ he => he]

/-- The stack is built unless a grouping set holds a virtual column or the child has no schema. -/
theorem fault?_stack (r : Repetition) (s : Session) : r.stack.fault? s =
    ((r.sets.flatten.find? (·.virtual?.isSome)).map Expr.notAColumn).or
      (faultOf? r.child.schema) := by
  have hsets : faultOf? ((r.bindingsAt s.nextId).columnSets r.sets) = _ := faultOf?_columnSets
  rw [← hsets, bindingsAt]
  simp only [stack, bindAll, bind_assoc, pure_bind, PlanM.fault?_takeIds_bind]
  cases (r.bindingsFrom s.nextId r.early.toList).columnSets r.sets with
  | error f => rfl
  | ok sets =>
    rw [PlanM.fault?_ofExcept_bind_ok, PlanM.fault?_takeIds_bind]
    -- Whether an id is taken for the grouping id or not, what is left to fail is the schema.
    split
    all_goals
      cases r.child.schema <;> rfl

end Repetition

/-! ## Separation -/

/-- Some projection is found for duplicates, and defines them all, if the child exposes the
columns. -/
lemma Ground.exists_forColumns {child : Plan} {schema columns : List Column}
    (hschema : child.schema = .ok schema)
    (exposed : ∀ c ∈ columns, ∃ c' ∈ schema, c'.id = c.id) :
    ∃ g, forColumns child columns = .ok g ∧ ∀ c ∈ columns, (g.source? c).isSome := by
  have handed : ∃ g, handingOn child = .ok g ∧ ∀ c ∈ columns, (g.source? c).isSome := by
    refine ⟨⟨schema.map Expr.column, child⟩, by rw [handingOn, hschema]; rfl, fun c hc => ?_⟩
    obtain ⟨c', hc', hid⟩ := exposed c hc
    rw [source?, definingExpr?, List.findSome?_isSome_iff]
    exact ⟨_, List.mem_map_of_mem hc', by simp [Column.beq_def, hid]⟩
  unfold forColumns
  split
  · split
    · rename_i list input hall
      exact ⟨_, rfl, List.all_eq_true.1 hall⟩
    · exact handed
  · exact handed

/-- Over a repetition whose child exposes the columns to be duplicated, separation succeeds. -/
lemma Aggregation.fault?_separate {a : Aggregation} {r : Repetition} {schema : List Column}
    (hchild : a.child = r.toPlan) (hschema : r.child.schema = .ok schema)
    (exposed : ∀ c ∈ a.conflicts r, ∃ c' ∈ schema, c'.id = c.id) (s : Session) :
    a.separate.fault? s = none := by
  have hr : a.child.repetition? = some r := by rw [hchild]; rfl
  simp only [separate, hr]
  split
  · rfl
  · obtain ⟨g, hg, found⟩ := Ground.exists_forColumns hschema exposed
    have all_found : (a.conflicts r).find? (fun c => (g.source? c).isNone) = none := by
      rw [List.find?_eq_none]
      intro c hc hnone
      have hsome := found c hc
      rw [Option.isNone_iff_eq_none.1 hnone] at hsome
      simp at hsome
    rw [hg, PlanM.fault?_ofExcept_bind_ok, PlanM.fault?_takeIds_bind, all_found]
    rfl

/-- Separation succeeds on every stack. -/
theorem Stacked.fault?_separate {r : Repetition} {next : Nat} (x : Stacked r next) (s : Session) :
    x.aggregation.separate.fault? s = none := by
  obtain ⟨schema, hschema, exposed⟩ := x.exists_schema_child
  refine Aggregation.fault?_separate rfl hschema (fun c hc => ?_) s
  -- A column to be duplicated is grouped by.
  have hgrouped := Roster.contains_of_mem (List.mem_of_mem_filter hc)
  obtain ⟨d, hd, hid⟩ := x.exists_entry_of_grouped hgrouped
  obtain ⟨c', hc', hid'⟩ := exposed d hd
  exact ⟨c', hc', by rw [hid', hid]⟩

/-! ## Putting nodes together again -/

namespace Expr

/-- A node can be put together again over its children once they are rewritten one by one. -/
lemma reassemble_map_children (f : Expr → Expr) (e : Expr) :
    e.reassemble (e.children.map f) = .ok (e.mapChildren f) := by
  rw [reassemble, reassemble?_map_children]

/-- One step of renaming columns: a column that has another one is replaced, and any other node is
put together over its renamed children. -/
def renameStep (other? : Column → Option Column) (rename : Expr → Except Fault Expr) (e : Expr) :
    Except Fault Expr :=
  answerOr (return (e.column?.bind other?).map column) do
    e.reassemble (← e.children.mapM rename)

/-- One step of renaming columns inside aggregates over a group.  In a window the function itself is
passed over, and its children are rewritten. -/
def renameInAggregatesStep (rename rewrite : Expr → Except Fault Expr) : Expr → Except Fault Expr
  | aggregate fn args distinct => rename (aggregate fn args distinct)
  | window function partitionBy orderBy frame => do
    let function ← function.reassemble (← function.children.mapM rewrite)
    let partitionBy ← partitionBy.mapM rewrite
    let orderBy ← orderBy.mapM rewrite
    return window function partitionBy orderBy frame
  | e => do e.reassemble (← e.children.mapM rewrite)

section

variable {other? : Column → Option Column} {rename rewrite f : Expr → Except Fault Expr}
  {g : Expr → Expr} {e : Expr}

lemma mapM_eq_ok {es : List Expr} (h : ∀ e ∈ es, f e = .ok (g e)) :
    es.mapM f = .ok (es.map g) := by
  induction es with
  | nil => rfl
  | cons e es ih =>
    rw [List.mapM_cons, h e List.mem_cons_self, ih fun e' he' => h e' (List.mem_cons_of_mem _ he')]
    rfl

lemma reassemble_mapM (h : ∀ c ∈ e.children, f c = .ok (g c)) :
    (do e.reassemble (← e.children.mapM f)) = .ok (e.mapChildren g) := by
  rw [mapM_eq_ok h]
  exact reassemble_map_children g e

lemma renameStep_eq_ok (below : ∀ c ∈ e.children, rename c = .ok (c.replaceColumns other?)) :
    renameStep other? rename e = .ok (e.replaceColumns other?) := by
  rw [renameStep, reassemble_mapM below, replaceColumns, replace_eq]
  cases e.column?.bind other? <;> rfl

lemma renameInAggregatesStep_eq_ok (renamed : rename e = .ok (e.replaceColumns other?))
    (children : ∀ c ∈ e.children,
      rewrite c = .ok (c.mapAggregateArguments (replaceColumns other?)))
    (grandchildren : ∀ c ∈ e.children, ∀ d ∈ c.children,
      rewrite d = .ok (d.mapAggregateArguments (replaceColumns other?))) :
    renameInAggregatesStep rename rewrite e =
      .ok (e.mapAggregateArguments (replaceColumns other?)) := by
  cases e with
  | aggregate fn args distinct =>
    rw [mapAggregateArguments_aggregate, ← replaceColumns_eq_mapChildren rfl]
    exact renamed
  | window function partitionBy orderBy frame =>
    simp only [Expr.children, List.mem_cons, List.mem_append] at children grandchildren
    have hfunction := reassemble_mapM (grandchildren function (.inl rfl))
    have hpartition := mapM_eq_ok fun k hk => children k (.inr (.inl hk))
    have horder := mapM_eq_ok fun k hk => children k (.inr (.inr hk))
    rw [renameInAggregatesStep, ← bind_assoc, hfunction, hpartition, horder,
      mapAggregateArguments_window]
    rfl
  | _ =>
    rw [mapAggregateArguments_eq rfl rfl]
    exact reassemble_mapM children

/-- Renaming, everywhere and inside aggregates over a group, as recursions that take nodes apart and
put them together again.  There is one function that follows each of them, and it never fails. -/
theorem renaming_iff :
    (∀ e, rename e = renameStep other? rename e ∧
      rewrite e = renameInAggregatesStep rename rewrite e) ↔
      ∀ e, rename e = .ok (e.replaceColumns other?) ∧
        rewrite e = .ok (e.mapAggregateArguments (replaceColumns other?)) := by
  constructor
  · intro h
    have renames (e : Expr) : rename e = .ok (e.replaceColumns other?) := by
      induction e using childrenInduction with
      | step e ih => rw [(h e).1, renameStep_eq_ok ih]
    have rewrites (e : Expr) :
        rewrite e = .ok (e.mapAggregateArguments (replaceColumns other?)) := by
      induction e using deepInduction with
      | step e ih ih₂ => rw [(h e).2, renameInAggregatesStep_eq_ok (renames e) ih ih₂]
    exact fun e => ⟨renames e, rewrites e⟩
  · intro h e
    have rewrites (e : Expr) := (h e).2
    rw [renameStep_eq_ok fun c _ => (h c).1, renameInAggregatesStep_eq_ok (h e).1
      (fun c _ => rewrites c) fun _ _ d _ => rewrites d]
    exact h e

end

end Expr

/-! ## Lowering -/

namespace Repetition

variable {r : Repetition} {settings : Settings} {s s' : Session} {a : Aggregation}

/-- With settings in range and few enough expressions the limit is not looked at any more. -/
lemma runIn_lower (hcheck : settings.check = .ok ())
    (hsize : r.items.size ≤ settings.maxGroupingItems) (s : Session) :
    (r.lower settings).runIn s = (r.stack >>= Aggregation.separate).runIn s := by
  rw [lower, hcheck, checkItems, if_neg (Nat.not_lt.2 hsize)]
  rfl

/-- A run of `lower` reports the first obstacle. -/
theorem fault?_lower (r : Repetition) (settings : Settings) (s : Session) :
    (r.lower settings).fault? s = r.obstacle? settings := by
  unfold obstacle?
  cases hcheck : settings.check with
  | error f =>
    rw [lower, hcheck]
    rfl
  | ok u =>
    by_cases hsize : settings.maxGroupingItems < r.items.size
    · rw [lower, hcheck, checkItems, if_pos hsize, if_pos hsize]
      rfl
    · have separates : ∀ a s', r.stack.runIn s = (.ok a, s') → a.separate.fault? s' = none := by
        intro a s' run
        obtain ⟨x, rfl, -⟩ := stack_eq_ok run
        exact x.fault?_separate s'
      rw [PlanM.fault?, runIn_lower hcheck (Nat.le_of_not_lt hsize), ← PlanM.fault?,
        PlanM.fault?_bind separates, fault?_stack, if_neg hsize, Option.or_none]
      rfl

/-- The settings are in range exactly if they are accepted. -/
lemma faultOf?_check (settings : Settings) : faultOf? settings.check = none ↔
    1 ≤ settings.maxGroupingItems ∧ settings.maxGroupingItems ≤ groupingIdBits := by
  unfold Settings.check
  split
  · simp only [faultOf?, reduceCtorEq, false_iff]
    omega
  · simp only [faultOf?, true_iff]
    omega

lemma obstacle?_eq_none_iff (r : Repetition) (settings : Settings) :
    r.obstacle? settings = none ↔
      (1 ≤ settings.maxGroupingItems ∧ settings.maxGroupingItems ≤ groupingIdBits) ∧
      r.items.size ≤ settings.maxGroupingItems ∧
      (∀ e ∈ r.sets.flatten, e.virtual? = none) ∧ ∃ schema, r.child.schema = .ok schema := by
  unfold obstacle?
  rw [Option.or_eq_none_iff, Option.or_eq_none_iff, Option.or_eq_none_iff, faultOf?_check,
    faultOf?_eq_none_iff, Option.map_eq_none_iff, List.find?_eq_none]
  simp

/-- An obstacle is a limit exceeded or an object that breaks a rule. -/
lemma obstacle?_cases {f : Fault} (h : r.obstacle? settings = some f) :
    f = .tooManyGroupingItems settings.maxGroupingItems r.items.size ∨
      ∃ what details, f = .invalid what (some details) := by
  unfold obstacle? at h
  rw [Option.or_eq_some_iff, Option.or_eq_some_iff, Option.or_eq_some_iff] at h
  rcases h with hcheck | ⟨-, hsize | ⟨-, hmember | ⟨-, hschema⟩⟩⟩
  · right
    rw [faultOf?_eq_some_iff, Settings.check] at hcheck
    split at hcheck
    · cases hcheck
      exact ⟨_, _, rfl⟩
    · simp at hcheck
  · left
    split at hsize
    · exact (Option.some.inj hsize).symm
    · simp at hsize
  · right
    obtain ⟨e, -, rfl⟩ := Option.map_eq_some_iff.1 hmember
    exact ⟨_, _, rfl⟩
  · exact Or.inr (Plan.schema_eq_error (faultOf?_eq_some_iff.1 hschema))

/-- Lowering a repetition fails exactly if something stands in its way, and reports what is noticed
first.  So it succeeds if the limit is in range and kept, no member of a grouping set is a virtual
column and the child has a schema.  Nothing is ever looked for in vain, and no node is put together
over a wrong number of children: a pass rewrites the children of a node one by one.  What a
successful run returns, and the session it leaves, are the same for all limits. -/
theorem lower_outcome (r : Repetition) (settings : Settings) (s : Session) :
    (∀ f, (∃ s', (r.lower settings).runIn s = (.error f, s')) ↔ r.obstacle? settings = some f) ∧
    ((∃ a s', (r.lower settings).runIn s = (.ok a, s')) ↔
      (1 ≤ settings.maxGroupingItems ∧ settings.maxGroupingItems ≤ 64) ∧
      r.items.size ≤ settings.maxGroupingItems ∧
      (∀ e ∈ r.sets.flatten, e.virtual? = none) ∧ ∃ schema, r.child.schema = .ok schema) ∧
    (∀ f s', (r.lower settings).runIn s = (.error f, s') →
      (∀ what name, f ≠ .notFound what name) ∧ ∀ details, f ≠ .unexpectedCount details) ∧
    (∀ (e : Expr) (f : Expr → Expr), e.reassemble (e.children.map f) = .ok (e.mapChildren f)) ∧
    ∀ settings' a a' s₁ s₂, (r.lower settings).runIn s = (.ok a, s₁) →
      (r.lower settings').runIn s = (.ok a', s₂) → a' = a ∧ s₂ = s₁ := by
  refine ⟨fun f => ?_, ?_, fun f s' run => ?_, fun e f => Expr.reassemble_map_children f e,
    fun settings' a a' s₁ s₂ run run' => ?_⟩
  · rw [← fault?_lower r settings s, PlanM.fault?_eq_some_iff]
  · rw [← PlanM.fault?_eq_none_iff, fault?_lower, obstacle?_eq_none_iff]
    rfl
  · have obstacle : r.obstacle? settings = some f := by
      rw [← fault?_lower r settings s]
      exact PlanM.fault?_eq_some_iff.2 ⟨s', run⟩
    rcases obstacle?_cases obstacle with rfl | ⟨what, details, rfl⟩
    · simp
    · simp
  · obtain ⟨hcheck, hsize, -⟩ := lower_eq_ok run
    obtain ⟨hcheck', hsize', -⟩ := lower_eq_ok run'
    rw [runIn_lower hcheck hsize] at run
    rw [runIn_lower hcheck' hsize', run] at run'
    cases run'
    exact ⟨rfl, rfl⟩

theorem lower_outcome_markedSums :
    (∃ a s', (markedSums.lower ⟨64⟩).runIn { nextId := 5 } = (.ok a, s') ∧
      (markedSums.lower ⟨2⟩).runIn { nextId := 5 } = (.ok a, s')) ∧
    ∃ s', (markedSums.lower ⟨1⟩).runIn { nextId := 5 } =
      (.error (.tooManyGroupingItems 1 2), s') := by
  obtain ⟨reports, -⟩ := lower_outcome markedSums ⟨1⟩ { nextId := 5 }
  obtain ⟨-, succeeds, -⟩ := lower_outcome markedSums ⟨2⟩ { nextId := 5 }
  obtain ⟨-, -, -, -, alike⟩ := lower_outcome markedSums ⟨64⟩ { nextId := 5 }
  obtain ⟨a, s', run⟩ : ∃ a s', (markedSums.lower ⟨64⟩).runIn { nextId := 5 } = (.ok a, s') :=
    ⟨_, _, rfl⟩
  obtain ⟨a', s'', run'⟩ := succeeds.2 ⟨by decide, by decide, by decide, ⟨_, rfl⟩⟩
  obtain ⟨rfl, rfl⟩ := alike _ _ _ _ _ run run'
  exact ⟨⟨a', s'', run, run'⟩, (reports _).2 (by decide)⟩

end Repetition

end GroupingPlanner

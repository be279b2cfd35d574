import GroupingPlanner.Lowering.Plan
import GroupingPlanner.Proofs.Rosters
import Mathlib.Data.List.Forall2
import Mathlib.Data.List.TakeWhile
/-!
# What successful runs return

The passes take ids, report and may fail.  A run that succeeds returns a value that can be written
down without any of this: everything in it is a function of the node that was lowered and of the
first id that was free.  The lemmas here say so once for each pass, and later ones about the passes
start from them.

* `PlanM.runIn_bind_eq_ok`: a sequence succeeds if both parts do.
* `Stacked`, `Repetition.stack_eq_ok`: the stack that a repetition becomes.
* `Aggregation.separate_eq_ok`: the aggregation over duplicates.
* `Repetition.lower_eq_ok`: both passes.
-/

namespace GroupingPlanner

/-! ## Runs in sequence -/

namespace PlanM

variable {α β : Type}

@[simp] lemma runIn_takeIds_bind (count : Nat) (k : Nat → PlanM β) (s : Session) :
    (takeIds count >>= k).runIn s =
      (k s.nextId).runIn { s with nextId := s.nextId + count } := rfl

@[simp] lemma runIn_report_bind (record : Record) (k : Unit → PlanM β) (s : Session) :
    (report record >>= k).runIn s = (k ()).runIn { s with journal := s.journal.write record } := rfl

lemma runIn_ofExcept_bind_eq_ok {result : Except Fault α} {k : α → PlanM β} {s s' : Session}
    {b : β} :
    (ofExcept result >>= k).runIn s = (.ok b, s') ↔
      ∃ a, result = .ok a ∧ (k a).runIn s = (.ok b, s') := by
  rw [runIn_bind, runIn_ofExcept]
  cases result with
  | error f => simp
  | ok a => simp

lemma runIn_bind_eq_ok {x : PlanM α} {k : α → PlanM β} {s s' : Session} {b : β} :
    (x >>= k).runIn s = (.ok b, s') ↔
      ∃ a s₁, x.runIn s = (.ok a, s₁) ∧ (k a).runIn s₁ = (.ok b, s') := by
  rw [runIn_bind]
  rcases x.runIn s with ⟨f | a, s₁⟩
  · simp
  · constructor
    · intro hk
      exact ⟨a, s₁, rfl, hk⟩
    · rintro ⟨a', s₁', heq, hk⟩
      cases heq
      exact hk

end PlanM

/-! ## Lists, entry by entry -/

lemma forall₂_trans {α β γ : Type} {R : α → β → Prop} {S : β → γ → Prop} {T : α → γ → Prop}
    (h : ∀ a b c, R a b → S b c → T a c) {as : List α} {bs : List β} {cs : List γ}
    (hab : List.Forall₂ R as bs) (hbc : List.Forall₂ S bs cs) : List.Forall₂ T as cs := by
  induction hab generalizing cs with
  | nil =>
    cases hbc
    exact List.Forall₂.nil
  | cons ha _ ih =>
    cases hbc with
    | cons hb hbs => exact List.Forall₂.cons (h _ _ _ ha hb) (ih hbs)

lemma exists_of_forall₂ {α β : Type} {R : α → β → Prop} {as : List α} {bs : List β}
    (h : List.Forall₂ R as bs) {a : α} (ha : a ∈ as) : ∃ b ∈ bs, R a b := by
  induction h with
  | nil => exact absurd ha List.not_mem_nil
  | cons hab _ ih =>
    rcases List.mem_cons.1 ha with rfl | ha
    · exact ⟨_, List.mem_cons_self, hab⟩
    · obtain ⟨b, hb, hR⟩ := ih ha
      exact ⟨b, List.mem_cons_of_mem _ hb, hR⟩

/-- What holds of each entry of a list that is mapped successfully. -/
lemma map_eq_map_of_mapM_eq_ok {α β γ ε : Type} {f : α → Except ε β} {g : α → γ} {k : β → γ}
    (hf : ∀ x y, f x = .ok y → g x = k y) {xs : List α} {ys : List β} (h : xs.mapM f = .ok ys) :
    xs.map g = ys.map k := by
  induction xs generalizing ys with
  | nil =>
    rw [List.mapM_nil] at h
    cases h
    rfl
  | cons x xs ih =>
    rw [List.mapM_cons] at h
    cases hx : f x with
    | error e => simp [hx, bind, Except.bind] at h
    | ok y =>
      cases hxs : xs.mapM f with
      | error e => simp [hx, hxs, bind, Except.bind] at h
      | ok ys' =>
        simp only [hx, hxs, bind, Except.bind, pure, Except.pure, Except.ok.injEq] at h
        rw [← h, List.map_cons, List.map_cons, hf x y hx, ih hxs]

/-! ## The stack -/

namespace Repetition

/-- The bindings of a repetition, if `next` is the first free id. -/
def bindingsAt (r : Repetition) (next : Nat) : Bindings := r.bindingsFrom next r.early.toList

/-- The id of the first call column. -/
def firstCall (r : Repetition) (next : Nat) : Nat := next + r.newAliasCount r.early.toList

/-- The call columns of a repetition. -/
def callColumnsAt (r : Repetition) (next : Nat) : List VirtualColumn :=
  (r.bindingsAt next).callColumns (r.firstCall next) r.output

/-- The first id that neither an alias nor a call column takes. -/
def afterCalls (r : Repetition) (next : Nat) : Nat :=
  r.firstCall next + ((r.bindingsAt next).signatures r.output).size

/-- The output of a repetition over bound columns and virtual columns. -/
def outputAt (r : Repetition) (next : Nat) : List Expr :=
  (r.bindingsAt next).substituteOutput (r.callColumnsAt next) r.output

end Repetition

/-- A repetition that can be turned into a stack: its grouping sets over columns, and the columns
its child exposes. -/
structure Stacked (r : Repetition) (next : Nat) where
  sets : List (List Column)
  schema : List Column
  sets_eq : (r.bindingsAt next).columnSets r.sets = .ok sets
  schema_eq : r.child.schema = .ok schema

namespace Stacked

variable {r : Repetition} {next : Nat}

/-- Sets and output over columns. -/
def substituted (x : Stacked r next) : Substituted := ⟨x.sets, r.outputAt next⟩

/-- The grouping-id column: the first one in the output, or else a new one. -/
def groupingId (x : Stacked r next) : VirtualColumn :=
  x.substituted.groupingIdColumn?.getD (.ofGroupingId ⟨r.afterCalls next⟩)

/-- The first id that is still free. -/
def nextId (x : Stacked r next) : Nat :=
  if x.substituted.groupingIdColumn?.isSome then r.afterCalls next else r.afterCalls next + 1

/-- The entries of the projection. -/
def entries (x : Stacked r next) : List Definition :=
  projectionEntries (r.bindingsAt next).definitions x.substituted.otherColumns.toList x.schema

/-- The repetition over columns. -/
def repetition (x : Stacked r next) : Repetition where
  sets := x.substituted.setExprs
  output := x.substituted.repeatedColumns x.groupingId
  child := defineBelow r.child x.schema x.entries

/-- The aggregation on top. -/
def aggregation (x : Stacked r next) : Aggregation where
  groupBy := x.substituted.groupBy x.groupingId
  output := x.substituted.output
  child := x.repetition.toPlan

end Stacked

/-- A successful run of `stack` returns the stack of the repetition. -/
theorem Repetition.stack_eq_ok {r : Repetition} {s s' : Session} {a : Aggregation}
    (run : r.stack.runIn s = (.ok a, s')) :
    ∃ x : Stacked r s.nextId, a = x.aggregation ∧ s'.nextId = x.nextId := by
  simp only [stack, bindAll, bind_assoc, pure_bind, PlanM.runIn_takeIds_bind] at run
  obtain ⟨sets, hsets, run⟩ := PlanM.runIn_ofExcept_bind_eq_ok.1 run
  rw [PlanM.runIn_takeIds_bind] at run
  -- Either the output brings a grouping-id column along or one more id is taken.
  cases hgid : (Substituted.mk sets (r.outputAt s.nextId)).groupingIdColumn? with
  | some v =>
    have hgid' := hgid
    simp only [outputAt, callColumnsAt, firstCall, bindingsAt] at hgid'
    simp only [hgid'] at run
    obtain ⟨schema, hschema, run⟩ := PlanM.runIn_ofExcept_bind_eq_ok.1 run
    rw [PlanM.runIn_report_bind, PlanM.runIn_pure] at run
    obtain ⟨ha, rfl⟩ := Prod.mk.inj run
    refine ⟨⟨sets, schema, hsets, hschema⟩, ?_, ?_⟩
    · rw [← Except.ok.inj ha]
      simp only [Stacked.aggregation, Stacked.repetition, Stacked.groupingId, Stacked.entries,
        Stacked.substituted, hgid, Option.getD_some]
      rfl
    · simp only [Stacked.nextId, Stacked.substituted, hgid, Option.isSome_some, if_true]
      rfl
  | none =>
    have hgid' := hgid
    simp only [outputAt, callColumnsAt, firstCall, bindingsAt] at hgid'
    simp only [hgid', PlanM.freshId, map_eq_pure_bind, bind_assoc, pure_bind] at run
    rw [PlanM.runIn_takeIds_bind] at run
    obtain ⟨schema, hschema, run⟩ := PlanM.runIn_ofExcept_bind_eq_ok.1 run
    rw [PlanM.runIn_report_bind, PlanM.runIn_pure] at run
    obtain ⟨ha, rfl⟩ := Prod.mk.inj run
    refine ⟨⟨sets, schema, hsets, hschema⟩, ?_, ?_⟩
    · rw [← Except.ok.inj ha]
      simp only [Stacked.aggregation, Stacked.repetition, Stacked.groupingId, Stacked.entries,
        Stacked.substituted, hgid, Option.getD_none]
      rfl
    · simp only [Stacked.nextId, Stacked.substituted, hgid, Option.isSome_none]
      rfl

/-! ## Duplicates -/

/-- The repetition that puts out duplicates as well, over the projection that defines them. -/
def Repetition.duplicating (r : Repetition) (g : Ground) (ds : List Duplicate) : Repetition where
  sets := r.sets
  output := (r.output.filter fun e => e.virtual?.isNone) ++
    ds.map (fun d => .column d.copy) ++ r.output.filter fun e => e.virtual?.isSome
  child := .projection (g.list ++ ds.map (·.definition.toExpr)) g.input

lemma Aggregation.child_reading (a : Aggregation) (r : Repetition) (g : Ground)
    (ds : List Duplicate) : (a.reading r g ds).child = (r.duplicating g ds).toPlan := rfl

/-- A successful run of `separate` either finds nothing to do or defines a duplicate for each
conflict. -/
theorem Aggregation.separate_eq_ok {a b : Aggregation} {r : Repetition} {s s' : Session}
    (hchild : a.child = r.toPlan) (run : a.separate.runIn s = (.ok b, s')) :
    (a.conflicts r = [] ∧ b = a ∧ s' = s) ∨
      ∃ g, a.conflicts r ≠ [] ∧ Ground.forColumns r.child (a.conflicts r) = .ok g ∧
        (∀ c ∈ a.conflicts r, (g.source? c).isSome) ∧
        s'.nextId = s.nextId + (a.conflicts r).length ∧
        b = a.reading r g (g.duplicatesFrom s.nextId (namesOf r.output ++ namesOf g.list)
          (a.conflicts r)) := by
  have hr : a.child.repetition? = some r := by rw [hchild]; rfl
  simp only [separate, hr] at run
  split at run
  · rename_i hempty
    rw [PlanM.runIn_pure, Prod.mk.injEq, Except.ok.injEq] at run
    exact Or.inl ⟨List.isEmpty_iff.1 hempty, run.1.symm, run.2.symm⟩
  · rename_i hempty
    obtain ⟨g, hg, run⟩ := PlanM.runIn_ofExcept_bind_eq_ok.1 run
    rw [PlanM.runIn_takeIds_bind] at run
    split at run
    · rw [PlanM.runIn_throw] at run
      cases run
    · rename_i hfound
      rw [PlanM.runIn_report_bind, PlanM.runIn_pure] at run
      obtain ⟨hb, rfl⟩ := Prod.mk.inj run
      have sources : ∀ c ∈ a.conflicts r, (g.source? c).isSome := by
        intro c hc
        have some_source := List.find?_eq_none.1 hfound c hc
        rwa [Option.isNone_iff_eq_none, ← ne_eq, Option.ne_none_iff_isSome] at some_source
      have all_found : (a.conflicts r).takeWhile (fun c => (g.source? c).isSome) =
          a.conflicts r := List.takeWhile_eq_self_iff.2 sources
      refine Or.inr ⟨g, fun hnil => hempty (List.isEmpty_iff.2 hnil), hg, sources, ?_,
        (Except.ok.inj hb).symm⟩
      simp only [all_found]

/-! ## Both passes -/

/-- A successful run of `lower` builds the stack and then separates what its aggregates read. -/
theorem Repetition.lower_eq_ok {r : Repetition} {settings : Settings} {s s' : Session}
    {a : Aggregation} (run : (r.lower settings).runIn s = (.ok a, s')) :
    settings.check = .ok () ∧ r.items.size ≤ settings.maxGroupingItems ∧
      ∃ (x : Stacked r s.nextId) (s₁ : Session), s₁.nextId = x.nextId ∧
        x.aggregation.separate.runIn s₁ = (.ok a, s') := by
  unfold lower at run
  obtain ⟨_, hcheck, run⟩ := PlanM.runIn_ofExcept_bind_eq_ok.1 run
  obtain ⟨_, s₀, hitems, run⟩ := PlanM.runIn_bind_eq_ok.1 run
  obtain ⟨stack, s₁, hstack, run⟩ := PlanM.runIn_bind_eq_ok.1 run
  simp only [checkItems] at hitems
  split at hitems
  · rw [PlanM.runIn_report_bind, PlanM.runIn_throw] at hitems
    simp at hitems
  · rename_i hsize
    cases hitems
    obtain ⟨x, rfl, hnext⟩ := stack_eq_ok hstack
    exact ⟨hcheck, Nat.le_of_not_lt hsize, x, s₁, hnext, run⟩

/-- A repetition that is lowered has no more grouping expressions than the grouping id has bits. -/
lemma Repetition.size_le_of_check {r : Repetition} {settings : Settings}
    (hcheck : settings.check = .ok ()) (hsize : r.items.size ≤ settings.maxGroupingItems) :
    r.items.size ≤ groupingIdBits := by
  unfold Settings.check at hcheck
  split at hcheck
  · simp at hcheck
  · omega

end GroupingPlanner

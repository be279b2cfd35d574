import GroupingPlanner.Proofs.Faithfulness
import GroupingPlanner.Proofs.PlanRuns
/-!
# When lowering preserves meaning

Lowering preserves the meaning of a query, for every interpretation and over all rows, exactly if
the grouping sets are distinct and each is read faithfully.  One direction holds for each
interpretation.  For the other one interpretation is enough.  It counts what an execution may
overlook: nulls, grouping calls, aggregates and sort directions are positive, everything else is
zero, and operations add up.  On a row of zeros an execution never finds more than the query means,
and where it finds as much, it overlooks nothing.

* `Interpretation.counting`: the interpretation that counts.
* `Repetition.executedCount_le`, `Repetition.faithful_of_sum_eq`: an execution in this
  interpretation.
* `Repetition.lower_preserves_iff`: when lowering preserves meaning.
* `Repetition.capturing_not_preserved`: a query whose meaning it does not preserve.
-/

namespace GroupingPlanner

/-! ## Counting -/

namespace Interpretation

/-- One for a sort direction. -/
def directionWeight (d : Option Direction) : Nat := if d.isSome then 1 else 0

/-- Numbers that count nulls, grouping calls, aggregates and sort directions. -/
def counting : Interpretation Nat where
  null := 1
  undefined := 0
  literal _ := 0
  arith _ a b := a + b
  call _ _ values := values.sum
  aggregate _ _ directions tuples :=
    1 + (directions.map directionWeight).sum + (tuples.map List.sum).sum
  mask m := m.toNat + 1
  mask_injective _ _ h := UInt64.toNat_inj.1 (Nat.succ_injective h)

/-- The row of zeros. -/
def zeros : Row Nat := fun _ => 0

lemma zeros_apply (i : ColumnId) : zeros i = 0 := rfl

/-- Every relation has one row, of zeros. -/
def zeroRows (_ : Plan) : List (Row Nat) := [zeros]

end Interpretation

open Interpretation

lemma sum_map_le {α : Type} {f g : α → Nat} {xs : List α} (h : ∀ x ∈ xs, f x ≤ g x) :
    (xs.map f).sum ≤ (xs.map g).sum := by
  induction xs with
  | nil => exact le_rfl
  | cons x xs ih =>
    have hx := h x List.mem_cons_self
    have hxs := ih fun y hy => h y (List.mem_cons_of_mem _ hy)
    rw [List.map_cons, List.map_cons, List.sum_cons, List.sum_cons]
    omega

/-- Sums of numbers that are no larger are equal only if all numbers are. -/
lemma eq_of_sum_map_eq {α : Type} {f g : α → Nat} {xs : List α} (h : ∀ x ∈ xs, f x ≤ g x)
    (hsum : (xs.map f).sum = (xs.map g).sum) : ∀ x ∈ xs, f x = g x := by
  induction xs with
  | nil => exact fun x hx => absurd hx List.not_mem_nil
  | cons x xs ih =>
    have hx := h x List.mem_cons_self
    have tail : ∀ y ∈ xs, f y ≤ g y := fun y hy => h y (List.mem_cons_of_mem _ hy)
    have hxs := sum_map_le tail
    rw [List.map_cons, List.map_cons, List.sum_cons, List.sum_cons] at hsum
    intro y hy
    rcases List.mem_cons.1 hy with rfl | hy
    · omega
    · exact ih tail (by omega) y hy

lemma eq_zero_of_sum_map_eq_zero {α : Type} {g : α → Nat} {xs : List α}
    (hsum : (xs.map g).sum = 0) : ∀ x ∈ xs, g x = 0 := by
  intro x hx
  have hle := List.single_le_sum (fun _ _ => Nat.zero_le _) _ (List.mem_map_of_mem (f := g) hx)
  omega

namespace Expr

/-- The value of a node is the sum of the values of its children. -/
lemma scalarValue_counting {column : ColumnId → Nat} (hcolumn : ∀ i, column i = 0)
    {child : Expr → Nat} {e : Expr} (hcall : e.groupingCall? = none)
    (haggregate : e.aggregateCall? = none) (hwindow : e.isWindow = false) :
    e.scalarValue counting column child = (e.children.map child).sum := by
  cases e with
  | grouping => cases hcall
  | aggregate => cases haggregate
  | window => cases hwindow
  | _ => simp [scalarValue, counting, children, hcolumn]

lemma value_counting (e : Expr) : e.value counting counting.noCalls zeros = 0 := by
  induction e using childrenInduction with
  | step e ih =>
    rw [value_eq]
    cases hcall : e.groupingCall? with
    | some call => rfl
    | none =>
      rw [Option.map_none, Option.getD_none]
      by_cases hopaque : e.aggregateCall?.isSome ∨ e.isWindow = true
      · cases e <;> simp_all [aggregateCall?, isWindow, scalarValue, counting]
      · rw [not_or, Bool.not_eq_true, Bool.not_eq_true, Option.isSome_eq_false_iff,
          Option.isNone_iff_eq_none] at hopaque
        rw [scalarValue_counting zeros_apply hcall hopaque.1 hopaque.2, List.map_congr_left ih]
        simp

/-- Where nothing is counted there is no grouping call. -/
lemma callFree_of_value_eq_zero {set : List Expr} {e : Expr}
    (hwindow : ∀ t ∈ e.subterms, t.isWindow = false)
    (h : e.value counting (Repetition.callValue counting set) zeros = 0) : e.CallFree := by
  induction e using childrenInduction with
  | step e ih =>
    rw [value_eq] at h
    cases hcall : e.groupingCall? with
    | some call =>
      rw [hcall] at h
      exact absurd h (Nat.succ_ne_zero _)
    | none =>
      rw [hcall, Option.map_none, Option.getD_none] at h
      intro t ht
      have no_window := hwindow e e.self_mem_subterms
      rcases mem_outerNodesUntil_iff.1 ht with rfl | ⟨-, p, hp, htp⟩
      · exact hcall
      · cases haggregate : e.aggregateCall? with
        | some call =>
          obtain rfl := aggregateCall?_eq_some_iff.1 haggregate
          exact absurd hp List.not_mem_nil
        | none =>
          rw [outerChildren_eq haggregate no_window] at hp
          obtain ⟨c, hc, rfl⟩ := List.mem_map.1 hp
          rw [scalarValue_counting zeros_apply hcall haggregate no_window] at h
          refine ih c hc (fun t ht => hwindow t (mem_subterms_of_child hc ht)) ?_ t htp
          exact eq_zero_of_sum_map_eq_zero h c hc

end Expr

/-! ## Executions that count -/

namespace Repetition

variable {r : Repetition} {set : List Expr}

lemma first_zeros (i : ColumnId) : counting.first [zeros] i = 0 := rfl

lemma headValue_zeros (e : Expr) : headValue counting [zeros] e = 0 := e.value_counting

/-- Where nothing is counted, a row determines the value. -/
lemma rowDetermined_of_eq_zero {n : Expr} (hwindow : ∀ t ∈ n.subterms, t.isWindow = false)
    (h : n.groupValue counting (r.ownValue counting set [zeros]) (callValue counting set)
      (Expr.reading counting (callValue counting set)) [zeros] = 0) : r.RowDetermined set n := by
  induction n using Expr.childrenInduction with
  | step n ih =>
    have no_window : n.isWindow = false := hwindow n n.self_mem_subterms
    cases hcall : n.groupingCall? with
    | some call =>
      rw [Expr.groupValue_of_groupingCall hcall] at h
      exact absurd h (Nat.succ_ne_zero _)
    | none =>
      by_cases hitem : r.items.contains n
      · rw [Expr.groupValue_of_own hcall (ownValue_of_item hitem), keyValue] at h
        intro t ht
        rcases Expr.mem_outerNodesUntil_iff.1 ht with rfl | ⟨hstop, -⟩
        · rw [if_pos hitem]
          refine ⟨hcall, ?_⟩
          by_contra hset
          rw [if_neg hset] at h
          exact absurd h Nat.one_ne_zero
        · rw [hitem, Bool.or_true] at hstop
          simp at hstop
      · have own : r.ownValue counting set [zeros] n = none := ownValue_of_not_item hitem
        cases haggregate : n.aggregateCall? with
        | some call =>
          obtain rfl : n = .aggregate call.fn call.args call.distinct :=
            Expr.aggregateCall?_eq_some_iff.1 haggregate
          rw [Expr.groupValue_of_aggregate own] at h
          simp only [counting] at h
          omega
        | none =>
          rw [Expr.groupValue_of_none hcall own haggregate,
            Expr.scalarValue_counting first_zeros hcall haggregate no_window] at h
          intro t ht
          rcases Expr.mem_outerNodesUntil_iff.1 ht with rfl | ⟨-, p, hp, htp⟩
          · rw [if_neg hitem]
            exact ⟨hcall, haggregate⟩
          · rw [Expr.outerChildren_eq haggregate no_window] at hp
            obtain ⟨c, hc, rfl⟩ := List.mem_map.1 hp
            exact ih c hc (fun t ht => hwindow t (Expr.mem_subterms_of_child hc ht))
              (eq_zero_of_sum_map_eq_zero h c hc) t htp

/-- What an execution counts for an argument of an aggregate. -/
def executedWeight (r : Repetition) (set : List Expr) (arg : Expr) : Nat :=
  directionWeight (r.executedReading counting set arg).direction +
    (r.executedReading counting set arg).value zeros

/-- What there is to count for an argument of an aggregate. -/
def argumentWeight (set : List Expr) (arg : Expr) : Nat :=
  directionWeight arg.direction? + arg.value counting (callValue counting set) zeros

lemma earlyValue_le (e : Expr) : earlyValue counting set e zeros ≤
    e.value counting (callValue counting set) zeros := by
  rw [earlyValue]
  cases hcall : e.groupingCall? with
  | some call =>
    rw [Expr.value_eq counting (callValue counting set), hcall]
    exact le_rfl
  | none =>
    rw [Option.map_none, Option.getD_none, Expr.value_counting]
    exact Nat.zero_le _

lemma executedWeight_le (arg : Expr) : r.executedWeight set arg ≤ argumentWeight set arg := by
  rw [executedWeight, argumentWeight, executedReading]
  by_cases hearly : r.early.contains arg
  · rw [if_pos hearly]
    have hvalue : earlyValue counting set arg zeros ≤
        arg.value counting (callValue counting set) zeros := earlyValue_le arg
    show 0 + earlyValue counting set arg zeros ≤ _
    omega
  · rw [if_neg hearly, ← Expr.value_withoutDirection arg]
    exact Nat.add_le_add_left (earlyValue_le _) _

lemma callFree_of_earlyValue_eq {e : Expr} (hwindow : ∀ t ∈ e.subterms, t.isWindow = false)
    (h : earlyValue counting set e zeros = e.value counting (callValue counting set) zeros) :
    e.groupingCall?.isSome ∨ e.CallFree := by
  cases hcall : e.groupingCall? with
  | some call => exact Or.inl rfl
  | none =>
    rw [earlyValue, hcall, Option.map_none, Option.getD_none, Expr.value_counting] at h
    exact Or.inr (Expr.callFree_of_value_eq_zero hwindow h.symm)

/-- Where as much is counted as there is, the argument is read alike. -/
lemma readAlike_of_eq {arg : Expr} (hwindow : ∀ t ∈ arg.subterms, t.isWindow = false)
    (h : r.executedWeight set arg = argumentWeight set arg) : r.ReadAlike arg := by
  rw [executedWeight, argumentWeight, executedReading] at h
  by_cases hearly : r.early.contains arg
  · rw [if_pos hearly] at h
    replace h : 0 + earlyValue counting set arg zeros =
      directionWeight arg.direction? + arg.value counting (callValue counting set) zeros := h
    have hvalue : earlyValue counting set arg zeros ≤
        arg.value counting (callValue counting set) zeros := earlyValue_le arg
    have hdirection : arg.direction? = none := by
      by_contra hsome
      have hweight : directionWeight arg.direction? = 1 :=
        if_pos (Option.isSome_iff_ne_none.2 hsome)
      omega
    have hequal : earlyValue counting set arg zeros =
        arg.value counting (callValue counting set) zeros := by omega
    refine ⟨fun _ => hdirection, ?_⟩
    rw [Expr.withoutDirection_eq_self hdirection]
    exact callFree_of_earlyValue_eq hwindow hequal
  · rw [if_neg hearly, ← Expr.value_withoutDirection arg] at h
    refine ⟨fun h => absurd h hearly, ?_⟩
    have hsub : arg.withoutDirection ∈ arg.subterms := by
      cases arg with
      | ordered child direction =>
        exact Expr.mem_subterms_of_child (List.mem_singleton_self child) child.self_mem_subterms
      | _ => exact Expr.self_mem_subterms _
    exact callFree_of_earlyValue_eq (fun t ht => hwindow t (Expr.subterms_trans ht hsub))
      (Nat.add_left_cancel h)

/-- What an aggregate over the row of zeros counts. -/
lemma aggregate_counting {fn : AggregateFn} {args : List Expr} {distinct : Bool}
    (read : Expr → Reading Nat) :
    counting.aggregate fn distinct (args.map fun x => (read x).direction)
        ([zeros].map fun row => args.map fun x => (read x).value row) =
      1 + (args.map fun x => directionWeight (read x).direction + (read x).value zeros).sum := by
  have hsum : (args.map fun x => directionWeight (read x).direction + (read x).value zeros).sum =
      (args.map fun x => directionWeight (read x).direction).sum +
        (args.map fun x => (read x).value zeros).sum := by
    induction args with
    | nil => rfl
    | cons arg args ih =>
      simp only [List.map_cons, List.sum_cons, ih]
      omega
  rw [hsum]
  simp only [counting, List.map_map, List.map_cons, List.map_nil, List.sum_cons, List.sum_nil,
    Function.comp_def]
  omega

/-- What an execution for a grouping set counts in an expression. -/
def executedCount (r : Repetition) (set : List Expr) (n : Expr) : Nat :=
  n.groupValue counting (r.executedValue counting set [zeros]) (callValue counting set)
    (r.executedReading counting set) [zeros]

/-- What there is to count in an expression. -/
def count (r : Repetition) (set : List Expr) (n : Expr) : Nat :=
  n.groupValue counting (r.ownValue counting set [zeros]) (callValue counting set)
    (Expr.reading counting (callValue counting set)) [zeros]

/-- Where an execution stops, it counts no more than there is. -/
lemma executedCount_le_of_stop {n : Expr} (hwindow : ∀ t ∈ n.subterms, t.isWindow = false)
    (hstop : (n.groupingCall?.isSome || r.early.contains n) = true) :
    r.executedCount set n ≤ r.count set n ∧
      (r.executedCount set n = r.count set n → r.FaithfulAt set n) := by
  unfold executedCount count
  cases hcall : n.groupingCall? with
  | some call =>
    rw [Expr.groupValue_of_groupingCall hcall, Expr.groupValue_of_groupingCall hcall]
    refine ⟨le_rfl, fun _ => ⟨fun hnone => ?_, fun _ call' h' => ?_⟩⟩
    · rw [hcall] at hnone
      simp at hnone
    · obtain rfl := Expr.groupingCall?_eq_some_iff.1 hcall
      cases h'
  | none =>
    rw [hcall] at hstop
    have hearly : r.early.contains n := hstop
    by_cases hitem : r.items.contains n
    · rw [Expr.groupValue_of_own hcall (executedValue_of_item hitem),
        Expr.groupValue_of_own hcall (ownValue_of_item hitem)]
      exact ⟨le_rfl, fun _ => ⟨fun _ _ hnot => absurd hitem hnot, fun hnot => absurd hearly hnot⟩⟩
    · rw [Expr.groupValue_of_own hcall (executedValue_of_early hitem hearly), headValue_zeros]
      refine ⟨Nat.zero_le _, fun heq => ⟨fun _ _ _ => ?_, fun hnot => absurd hearly hnot⟩⟩
      exact rowDetermined_of_eq_zero hwindow heq.symm

section Onwards

variable {n : Expr} (hcall : n.groupingCall? = none) (hearly : ¬ r.early.contains n)
include hcall hearly

/-- An aggregate counts one, and what is counted in its arguments. -/
lemma executedCount_le_of_aggregate (hwindow : ∀ t ∈ n.subterms, t.isWindow = false)
    {call : AggregateCall} (haggregate : n.aggregateCall? = some call) :
    r.executedCount set n ≤ r.count set n ∧
      (r.executedCount set n = r.count set n → r.FaithfulAt set n) := by
  have executed : r.executedValue counting set [zeros] n = none := executedValue_of_not_early hearly
  have own : r.ownValue counting set [zeros] n = none :=
    ownValue_of_not_item fun hitem => hearly (early_of_item hitem)
  obtain rfl : n = .aggregate call.fn call.args call.distinct :=
    Expr.aggregateCall?_eq_some_iff.1 haggregate
  rw [executedCount, count, Expr.groupValue_of_aggregate executed,
    Expr.groupValue_of_aggregate own, aggregate_counting, aggregate_counting]
  have le : ∀ arg ∈ call.args, r.executedWeight set arg ≤ argumentWeight set arg :=
    fun arg _ => executedWeight_le arg
  refine ⟨Nat.add_le_add_left (sum_map_le le) 1, fun heq => ?_⟩
  have weights := eq_of_sum_map_eq le (Nat.add_left_cancel heq)
  refine ⟨fun _ h => absurd h hearly, fun _ call' hcall' arg harg => ?_⟩
  obtain rfl : call = call' := Option.some.inj hcall'
  refine readAlike_of_eq (fun t ht => hwindow t ?_) (weights arg harg)
  exact Expr.mem_subterms_of_child harg ht

lemma executedCount_of_children (haggregate : n.aggregateCall? = none)
    (hwindow : n.isWindow = false) :
    r.executedCount set n = (n.children.map (r.executedCount set)).sum ∧
      r.count set n = (n.children.map (r.count set)).sum := by
  have executed : r.executedValue counting set [zeros] n = none := executedValue_of_not_early hearly
  have own : r.ownValue counting set [zeros] n = none :=
    ownValue_of_not_item fun hitem => hearly (early_of_item hitem)
  constructor
  · rw [executedCount, Expr.groupValue_of_none hcall executed haggregate,
      Expr.scalarValue_counting first_zeros hcall haggregate hwindow]
    rfl
  · rw [count, Expr.groupValue_of_none hcall own haggregate,
      Expr.scalarValue_counting first_zeros hcall haggregate hwindow]
    rfl

end Onwards

/-- An execution never counts more than there is, and what it counts completely, it reads
faithfully. -/
theorem executedCount_le {n : Expr} (hwindow : ∀ t ∈ n.subterms, t.isWindow = false) :
    r.executedCount set n ≤ r.count set n ∧
      (r.executedCount set n = r.count set n → ∀ m ∈ r.outerNodes n, r.FaithfulAt set m) := by
  induction n using Expr.childrenInduction with
  | step n ih =>
    by_cases hstop : (n.groupingCall?.isSome || r.early.contains n) = true
    · obtain ⟨le, here⟩ : r.executedCount set n ≤ r.count set n ∧
          (r.executedCount set n = r.count set n → r.FaithfulAt set n) :=
        executedCount_le_of_stop hwindow hstop
      refine ⟨le, fun heq m hm => ?_⟩
      rcases Expr.mem_outerNodesUntil_iff.1 hm with rfl | ⟨hgo, -⟩
      · exact here heq
      · rw [hstop] at hgo
        simp at hgo
    · rw [Bool.or_eq_true, not_or, Bool.not_eq_true, Option.isSome_eq_false_iff,
        Option.isNone_iff_eq_none] at hstop
      obtain ⟨hcall, hearly⟩ := hstop
      cases haggregate : n.aggregateCall? with
      | some call =>
        obtain ⟨le, here⟩ : r.executedCount set n ≤ r.count set n ∧
            (r.executedCount set n = r.count set n → r.FaithfulAt set n) :=
          executedCount_le_of_aggregate hcall hearly hwindow haggregate
        refine ⟨le, fun heq m hm => ?_⟩
        obtain rfl := Expr.aggregateCall?_eq_some_iff.1 haggregate
        rcases Expr.mem_outerNodesUntil_iff.1 hm with rfl | ⟨-, p, hp, -⟩
        · exact here heq
        · exact absurd hp List.not_mem_nil
      | none =>
        have no_window : n.isWindow = false := hwindow n n.self_mem_subterms
        have executed : r.executedCount set n = (n.children.map (r.executedCount set)).sum :=
          (executedCount_of_children hcall hearly haggregate no_window).1
        have meant : r.count set n = (n.children.map (r.count set)).sum :=
          (executedCount_of_children hcall hearly haggregate no_window).2
        have below : ∀ c ∈ n.children, ∀ t ∈ c.subterms, t.isWindow = false := fun c hc t ht =>
          hwindow t (Expr.mem_subterms_of_child hc ht)
        have le : ∀ c ∈ n.children, r.executedCount set c ≤ r.count set c :=
          fun c hc => (ih c hc (below c hc)).1
        rw [executed, meant]
        refine ⟨sum_map_le le, fun heq m hm => ?_⟩
        have counts := eq_of_sum_map_eq le heq
        rcases Expr.mem_outerNodesUntil_iff.1 hm with rfl | ⟨-, p, hp, hmp⟩
        · refine ⟨fun _ h => absurd h hearly, fun _ call' hcall' => ?_⟩
          rw [haggregate] at hcall'
          cases hcall'
        · rw [Expr.outerChildren_eq haggregate no_window] at hp
          obtain ⟨c, hc, rfl⟩ := List.mem_map.1 hp
          exact (ih c hc (below c hc)).2 (counts c hc) m hmp

/-- For a grouping set, what an execution counts. -/
lemma sum_executedResult_le (windowFree : r.WindowFree) :
    (r.executedResult counting set [zeros]).sum ≤ (r.result counting set [zeros]).sum :=
  sum_map_le fun e he => (executedCount_le (windowFree e he)).1

lemma faithful_of_sum_eq (windowFree : r.WindowFree)
    (h : (r.executedResult counting set [zeros]).sum = (r.result counting set [zeros]).sum) :
    r.Faithful set := by
  intro e he
  refine (executedCount_le (windowFree e he)).2 ?_
  exact eq_of_sum_map_eq (fun e he => (executedCount_le (windowFree e he)).1) h e he

end Repetition

lemma Plan.rows_counting (p : Plan) : p.rows counting zeroRows = [zeros] := by
  induction p with
  | projection list child ih =>
    rw [rows, ih, List.map_singleton]
    congr 1
    funext i
    unfold projectRow
    split
    · exact Expr.value_counting _
    · exact ite_self _
  | _ =>
    simp only [rows, zeroRows, List.map_singleton]
    congr 1
    funext i
    exact ite_self _

/-! ## Preservation -/

namespace Repetition

variable {r : Repetition} {settings : Settings} {s s' : Session} {a : Aggregation}

/-- Lowering preserves the meaning of a hygienic query without windows exactly if the grouping sets
are distinct and an execution reads each of them faithfully. -/
theorem lower_preserves_iff (windowFree : r.WindowFree) (h : r.Hygienic s.nextId)
    (run : (r.lower settings).runIn s = (.ok a, s')) :
    (∀ (V : Type) [DecidableEq V] (I : Interpretation V) (base : Plan → List (Row V)),
      (a.meaning I base).Perm (r.meaning I base)) ↔
        r.Distinct ∧ ∀ set ∈ r.sets, r.Faithful set := by
  obtain ⟨hcheck, hitems, -⟩ := lower_eq_ok run
  have size := size_le_of_check hcheck hitems
  obtain ⟨x, r', ds, hchild, promise⟩ := separation_of_lower h.below run
  constructor
  · intro preserved
    have perm := preserved Nat counting zeroRows
    have meaning_eq : r.meaning counting zeroRows =
        r.sets.map fun set => r.result counting set [zeros] := by
      rw [meaning, Plan.rows_counting]
      simp only [groups_singleton, List.map_singleton]
      exact List.map_eq_flatMap.symm
    have distinct : r.Distinct := by
      apply x.distinct_of_length h promise size hchild (Plan.rows_counting r.child)
      rw [perm.length_eq, meaning_eq, List.length_map]
    refine ⟨distinct, fun set hset => faithful_of_sum_eq windowFree ?_⟩
    -- What is counted over all grouping sets is as much as there is.
    have executed_eq : (r.sets.flatMap fun set =>
        (groups (setKey counting set) (r.child.rows counting zeroRows)).map
          (r.executedResult counting set)) =
            r.sets.map fun set => r.executedResult counting set [zeros] := by
      rw [Plan.rows_counting]
      simp only [groups_singleton, List.map_singleton]
      exact List.map_eq_flatMap.symm
    have executed := (x.meaning_perm h promise size windowFree hchild distinct).symm.trans perm
    rw [executed_eq, meaning_eq] at executed
    have totals := (executed.map List.sum).sum_eq
    rw [List.map_map, List.map_map] at totals
    exact eq_of_sum_map_eq (fun set _ => sum_executedResult_le windowFree) totals set hset
  · rintro ⟨distinct, faithful⟩ V _ I base
    refine (x.meaning_perm h promise size windowFree hchild distinct).trans (List.Perm.of_eq ?_)
    rw [meaning]
    refine List.flatMap_congr fun set hset => List.map_congr_left fun g hg => ?_
    obtain ⟨row, rows, rfl⟩ := List.exists_cons_of_ne_nil (ne_nil_of_mem_groups hg)
    exact executedResult_eq windowFree (faithful set hset)

theorem lower_preserves_iff_markedSums : markedSums.WindowFree ∧ markedSums.Hygienic 5 ∧
    ∃ a s', (markedSums.lower {}).runIn { nextId := 5 } = (.ok a, s') ∧
      ∀ (V : Type) [DecidableEq V] (I : Interpretation V) (base : Plan → List (Row V)),
        (a.meaning I base).Perm (markedSums.meaning I base) := by
  have windowFree : markedSums.WindowFree := by
    unfold WindowFree
    decide
  obtain ⟨a, s', run⟩ : ∃ a s', (markedSums.lower {}).runIn { nextId := 5 } = (.ok a, s') :=
    ⟨_, _, rfl⟩
  refine ⟨windowFree, markedSums_hygienic, a, s', run, ?_⟩
  exact (lower_preserves_iff windowFree markedSums_hygienic run).2 ⟨by decide, by decide⟩

/-- In `capturing` a row made for the empty set should have null for `a + 1`, and it does not. -/
theorem capturing_not_preserved : ∃ a s', (capturing.lower {}).runIn { nextId := 3 } = (.ok a, s') ∧
    ¬ (a.meaning counting zeroRows).Perm (capturing.meaning counting zeroRows) := by
  refine ⟨_, _, rfl, ?_⟩
  decide

end Repetition
end GroupingPlanner

import GroupingPlanner.Proofs.Regrouping
/-!
# Queries that an execution reads faithfully

An execution reads everything that was evaluated early from a column.  For an expression of the
grouping sets this is right: the column is null where it has to be.  For any other early expression
outside aggregates it is right only if the value on a row is the value over the group, that is, if
inside the expression there is nothing that a group gives another value than a row does: neither an
aggregate, nor a grouping call, nor an expression of the grouping sets that is null for the set at
hand.  For an argument of an aggregate, grouping calls are what has to be absent, unless it is one,
and an argument evaluated early must not be one with a sort direction, since that would be lost.

* `Repetition.Faithful`: the condition, for a grouping set.
* `Repetition.executedResult_eq`: under the condition an execution finds what the query means.
-/

namespace GroupingPlanner

variable {V : Type} {I : Interpretation V}

/-! ## The condition -/

/-- No grouping call occurs outside aggregates. -/
def Expr.CallFree (e : Expr) : Prop :=
  ∀ t ∈ e.outerNodesUntil (fun _ => false) false, t.groupingCall? = none

namespace Repetition

variable (r : Repetition)

/-- The nodes of a tree outside aggregates, down to grouping calls and early expressions. -/
def outerNodes (e : Expr) : List Expr :=
  e.outerNodesUntil (fun n => n.groupingCall?.isSome || r.early.contains n) false

/-- Over a group for a grouping set, an expression has the value that it has on a row. -/
def RowDetermined (set : List Expr) (n : Expr) : Prop :=
  ∀ t ∈ n.outerNodesUntil (fun t => t.groupingCall?.isSome || r.items.contains t) false,
    t.groupingCall? = none ∧
      if r.items.contains t then set.contains t = true else t.aggregateCall? = none

/-- An argument of an aggregate has the value that it has below the repetition, and keeps its sort
direction. -/
def ReadAlike (arg : Expr) : Prop :=
  (r.early.contains arg → arg.direction? = none) ∧
    (arg.withoutDirection.groupingCall?.isSome ∨ arg.withoutDirection.CallFree)

/-- At a node outside aggregates, an execution for a grouping set reads what it should. -/
structure FaithfulAt (set : List Expr) (n : Expr) : Prop where
  captured : n.groupingCall? = none → r.early.contains n → ¬ r.items.contains n →
    r.RowDetermined set n
  arguments : ¬ r.early.contains n → ∀ call ∈ n.aggregateCall?, ∀ arg ∈ call.args, r.ReadAlike arg

/-- An execution for a grouping set reads what it should. -/
def Faithful (set : List Expr) : Prop :=
  ∀ e ∈ r.output, ∀ n ∈ r.outerNodes e, r.FaithfulAt set n

instance (set : List Expr) (n : Expr) : Decidable (r.RowDetermined set n) :=
  inferInstanceAs (Decidable (∀ t ∈ n.outerNodesUntil _ false, _ ∧ _))

instance (arg : Expr) : Decidable (r.ReadAlike arg) :=
  inferInstanceAs (Decidable
    ((_ → _) ∧ (_ ∨ ∀ t ∈ arg.withoutDirection.outerNodesUntil _ false, _)))

instance (set : List Expr) (n : Expr) : Decidable (r.FaithfulAt set n) :=
  decidable_of_iff ((n.groupingCall? = none → r.early.contains n → ¬ r.items.contains n →
      r.RowDetermined set n) ∧
    (¬ r.early.contains n → ∀ call ∈ n.aggregateCall?, ∀ arg ∈ call.args, r.ReadAlike arg))
    ⟨fun ⟨captured, arguments⟩ => ⟨captured, arguments⟩, fun h => ⟨h.captured, h.arguments⟩⟩

instance (set : List Expr) : Decidable (r.Faithful set) :=
  inferInstanceAs (Decidable (∀ e ∈ r.output, ∀ n ∈ r.outerNodes e, _))

end Repetition

/-! ## Values on a row and over a group -/

namespace Expr

/-- Below a node that is neither an aggregate nor a window, everything outside stays outside. -/
lemma outerChildren_eq {e : Expr} (haggregate : e.aggregateCall? = none)
    (hwindow : e.isWindow = false) : e.outerChildren false = e.children.map (false, ·) := by
  cases e with
  | aggregate => cases haggregate
  | window => cases hwindow
  | _ => rfl

lemma mem_outerNodesUntil_of_child {stop : Expr → Bool} {c n e : Expr} (hstop : stop e = false)
    (haggregate : e.aggregateCall? = none) (hwindow : e.isWindow = false) (hc : c ∈ e.children)
    (hn : n ∈ c.outerNodesUntil stop false) : n ∈ e.outerNodesUntil stop false := by
  refine mem_outerNodesUntil_iff.2 (Or.inr ⟨hstop, (false, c), ?_, hn⟩)
  rw [outerChildren_eq haggregate hwindow]
  exact List.mem_map_of_mem hc

lemma self_mem_outerNodesUntil {stop : Expr → Bool} {e : Expr} :
    e ∈ e.outerNodesUntil stop false :=
  mem_outerNodesUntil_iff.2 (Or.inl rfl)

lemma scalarValue_of_aggregate {column column' : ColumnId → V} {child child' : Expr → V} {e : Expr}
    (h : e.aggregateCall?.isSome ∨ e.isWindow = true) :
    e.scalarValue I column child = e.scalarValue I column' child' := by
  cases e <;> simp_all [aggregateCall?, isWindow, scalarValue]

/-- Without grouping calls their values do not matter. -/
lemma value_of_callFree {calls : GroupingCall → V} {row : Row V} {e : Expr} (h : e.CallFree) :
    e.value I calls row = e.value I I.noCalls row := by
  induction e using childrenInduction with
  | step e ih =>
    have hcall : e.groupingCall? = none := h e self_mem_outerNodesUntil
    rw [value_eq, value_eq I I.noCalls, hcall, Option.map_none, Option.getD_none, Option.map_none,
      Option.getD_none]
    by_cases hopaque : e.aggregateCall?.isSome ∨ e.isWindow = true
    · exact scalarValue_of_aggregate hopaque
    · rw [not_or, Bool.not_eq_true, Bool.not_eq_true] at hopaque
      obtain ⟨haggregate, hwindow⟩ := hopaque
      rw [Option.isSome_eq_false_iff, Option.isNone_iff_eq_none] at haggregate
      refine scalarValue_congr I (fun _ _ => rfl) (fun _ _ => rfl) fun c hc => ?_
      exact ih c hc fun t ht => h t (mem_outerNodesUntil_of_child rfl haggregate hwindow hc ht)

lemma value_withoutDirection {calls : GroupingCall → V} {row : Row V} (e : Expr) :
    e.withoutDirection.value I calls row = e.value I calls row := by
  cases e with
  | ordered child direction => rfl
  | _ => rfl

lemma withoutDirection_eq_self {e : Expr} (h : e.direction? = none) : e.withoutDirection = e := by
  cases e with
  | ordered child direction => cases h
  | _ => rfl

end Expr

namespace Repetition

variable {r : Repetition} {set : List Expr} {row : Row V} {rows : List (Row V)}

/-- An expression that a row determines has the value on the first row. -/
lemma groupValue_of_rowDetermined {n : Expr} (hn : r.RowDetermined set n)
    (hwindow : ∀ t ∈ n.subterms, t.isWindow = false) :
    n.groupValue I (r.ownValue I set (row :: rows)) (callValue I set)
      (Expr.reading I (callValue I set)) (row :: rows) = headValue I (row :: rows) n := by
  induction n using Expr.childrenInduction with
  | step n ih =>
    obtain ⟨hcall, hself⟩ := hn n Expr.self_mem_outerNodesUntil
    by_cases hitem : r.items.contains n
    · rw [if_pos hitem] at hself
      have own : r.ownValue I set (row :: rows) n = some (headValue I (row :: rows) n) := by
        rw [ownValue, if_pos hitem, keyValue, if_pos hself]
      exact Expr.groupValue_of_own hcall own
    · rw [if_neg hitem] at hself
      have no_window : n.isWindow = false := hwindow n n.self_mem_subterms
      have stop : (n.groupingCall?.isSome || r.items.contains n) = false := by
        rw [hcall, Bool.eq_false_of_not_eq_true hitem]
        simp
      have own : r.ownValue I set (row :: rows) n = none := ownValue_of_not_item hitem
      have head : headValue I (row :: rows) n = n.value I I.noCalls row := rfl
      rw [Expr.groupValue_of_none hcall own hself, head, Expr.value_eq, hcall, Option.map_none,
        Option.getD_none]
      refine Expr.scalarValue_congr I (fun _ _ => rfl) (fun _ _ => rfl) fun c hc => ?_
      refine ih c hc (fun t ht => hn t ?_) fun t ht => hwindow t (Expr.mem_subterms_of_child hc ht)
      exact Expr.mem_outerNodesUntil_of_child stop hself no_window hc ht

/-- An argument that is read alike is read as it stands. -/
lemma executedReading_eq {arg : Expr} (h : r.ReadAlike arg) :
    r.executedReading I set arg = Expr.reading I (callValue I set) arg := by
  have value : earlyValue I set arg.withoutDirection =
      fun row => arg.value I (callValue I set) row := by
    funext row
    rw [← Expr.value_withoutDirection, earlyValue]
    rcases h.2 with hcall | hfree
    · obtain ⟨call, hcall⟩ := Option.isSome_iff_exists.1 hcall
      rw [Expr.value_eq I (callValue I set), hcall]
      simp
    · have same : arg.withoutDirection.value I (callValue I set) row =
          arg.withoutDirection.value I I.noCalls row := Expr.value_of_callFree hfree
      rw [same, hfree _ Expr.self_mem_outerNodesUntil]
      simp
  by_cases hearly : r.early.contains arg
  · rw [executedReading, if_pos hearly, Expr.reading, h.1 hearly, ← value,
      Expr.withoutDirection_eq_self (h.1 hearly)]
  · rw [executedReading, if_neg hearly, Expr.reading, value]

/-- Where an execution reads what it should, it finds the value over the group. -/
theorem groupValue_of_faithful {n : Expr} (hn : ∀ m ∈ r.outerNodes n, r.FaithfulAt set m)
    (hwindow : ∀ t ∈ n.subterms, t.isWindow = false) :
    n.groupValue I (r.executedValue I set (row :: rows)) (callValue I set)
        (r.executedReading I set) (row :: rows) =
      n.groupValue I (r.ownValue I set (row :: rows)) (callValue I set)
        (Expr.reading I (callValue I set)) (row :: rows) := by
  induction n using Expr.childrenInduction with
  | step n ih =>
    have here : r.FaithfulAt set n := hn n Expr.self_mem_outerNodesUntil
    cases hcall : n.groupingCall? with
    | some call => rw [Expr.groupValue_of_groupingCall hcall, Expr.groupValue_of_groupingCall hcall]
    | none =>
      by_cases hitem : r.items.contains n
      · rw [Expr.groupValue_of_own hcall (executedValue_of_item hitem),
          Expr.groupValue_of_own hcall (ownValue_of_item hitem)]
      · have own : r.ownValue I set (row :: rows) n = none := ownValue_of_not_item hitem
        by_cases hearly : r.early.contains n
        · rw [Expr.groupValue_of_own hcall (executedValue_of_early hitem hearly),
            groupValue_of_rowDetermined (here.captured hcall hearly hitem) hwindow]
        · have executed : r.executedValue I set (row :: rows) n = none :=
            executedValue_of_not_early hearly
          cases haggregate : n.aggregateCall? with
          | some call =>
            have alike := here.arguments hearly call haggregate
            obtain rfl : n = .aggregate call.fn call.args call.distinct :=
              Expr.aggregateCall?_eq_some_iff.1 haggregate
            have readings : ∀ {β : Type} (g : Reading V → β),
                call.args.map (fun arg => g (r.executedReading I set arg)) =
                  call.args.map fun arg => g (Expr.reading I (callValue I set) arg) := fun g =>
              List.map_congr_left fun arg harg => by rw [executedReading_eq (alike arg harg)]
            rw [Expr.groupValue_of_aggregate executed, Expr.groupValue_of_aggregate own,
              readings (·.direction)]
            congr 1
            exact List.map_congr_left fun row _ => readings fun reading => reading.value row
          | none =>
            have no_window : n.isWindow = false := hwindow n n.self_mem_subterms
            have stop : (n.groupingCall?.isSome || r.early.contains n) = false := by
              rw [hcall, Bool.eq_false_of_not_eq_true hearly]
              simp
            rw [Expr.groupValue_of_none hcall executed haggregate,
              Expr.groupValue_of_none hcall own haggregate]
            refine Expr.scalarValue_congr I (fun _ _ => rfl) (fun _ _ => rfl) fun c hc => ?_
            refine ih c hc (fun m hm => hn m ?_) fun t ht =>
              hwindow t (Expr.mem_subterms_of_child hc ht)
            exact Expr.mem_outerNodesUntil_of_child stop haggregate no_window hc hm

/-- For a faithful query an execution finds what the query means. -/
theorem executedResult_eq (windowFree : r.WindowFree) (faithful : r.Faithful set) :
    r.executedResult I set (row :: rows) = r.result I set (row :: rows) :=
  List.map_congr_left fun e he => groupValue_of_faithful (faithful e he) (windowFree e he)

end Repetition
end GroupingPlanner

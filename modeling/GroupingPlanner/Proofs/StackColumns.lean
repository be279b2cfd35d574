import GroupingPlanner.Proofs.Entries
/-!
# The columns of the stack

Between its three nodes the stack hands on columns of three kinds: those bound to expressions, those
that the output reads besides, and virtual columns.  Each kind has ids of its own as long as the
query brings no virtual columns along, and whatever the output reads is among the columns that the
repetition puts out.

* `Repetition.VirtualFree`: queries without virtual columns.
* `Stacked.virtualColumn_cases`: the virtual columns are those of grouping calls, and the grouping
  id.
* `Bindings.mem_columns_substituted`: the plain columns of the output.
* `Stacked.readColumns`, `Stacked.exists_readColumn`, `Stacked.mem_virtualColumns`: what the output
  reads is put out.
-/

namespace GroupingPlanner

/-! ## Virtual columns of the stack -/

/-- Equal virtual columns have one id. -/
lemma VirtualColumn.id_eq_of_beq {v w : VirtualColumn} (h : v == w) :
    v.column.id = w.column.id := by
  have hsame : v.toExpr.same w.toExpr = true := h
  obtain ⟨c, _ | call⟩ := v <;> obtain ⟨c', _ | call'⟩ := w <;>
    simp_all [toExpr, Expr.same, Column.beq_def]

/-- The signatures of the calls replaced are numbered. -/
lemma Bindings.exists_signature {b : Bindings} {output : List Expr} {signature : GroupingCall}
    (h : signature ∈ (output.flatMap b.replacedCalls).map b.signature) :
    ∃ (i : Nat) (hi : i < (b.signatures output).toList.length),
      signature == (b.signatures output).toList[i] := by
  obtain ⟨kept, hkept, hbeq⟩ := Roster.exists_mem_ofList h
  obtain ⟨i, hi, rfl⟩ := List.mem_iff_getElem.1 hkept
  exact ⟨i, hi, hbeq⟩

/-- Every grouping call that the walk reaches has a column. -/
lemma Bindings.outputRule_isSome {b : Bindings} {first : Nat} {output : List Expr} {e n : Expr}
    (he : e ∈ output) (hn : n ∈ e.nodesUntil b.replaces) :
    (b.outputRule (b.callColumns first output) n).isSome = b.replaces n := by
  unfold outputRule replaces
  cases hcall : n.groupingCall? with
  | none => simp [replacement?]
  | some call =>
    have hmem : b.signature call ∈ (output.flatMap b.replacedCalls).map b.signature :=
      List.mem_map_of_mem (List.mem_flatMap.2 ⟨e, he, List.mem_filterMap.2 ⟨n, hn, hcall⟩⟩)
    obtain ⟨i, hi, hbeq⟩ := exists_signature hmem
    simp only [Option.isSome_map, Option.isSome_some, Bool.true_or]
    rw [List.find?_isSome]
    exact ⟨_, List.mem_mapIdx.2 ⟨i, hi, rfl⟩, hbeq⟩

/-- The column found for a call is that of its signature, since no other signature is equal. -/
lemma Bindings.find?_callColumns {b : Bindings} {first : Nat} {output : List Expr}
    {call : GroupingCall} {i : Nat} (hi : i < (b.signatures output).toList.length)
    (hbeq : call == (b.signatures output).toList[i]) :
    (b.callColumns first output).find? (·.isFor call) =
      some (.ofCall ⟨first + i⟩ (b.signatures output).toList[i]) := by
  obtain ⟨w, hw⟩ : ∃ w, (b.callColumns first output).find? (·.isFor call) = some w :=
    Option.isSome_iff_exists.1 (List.find?_isSome.2 ⟨_, List.mem_mapIdx.2 ⟨i, hi, rfl⟩, hbeq⟩)
  obtain ⟨j, hj, rfl⟩ := List.mem_mapIdx.1 (List.mem_of_find?_eq_some hw)
  have hbeq' := List.find?_some hw
  have same : (b.signatures output).toList[i] == (b.signatures output).toList[j] :=
    BEq.trans (BEq.symm hbeq) hbeq'
  have distinct := List.pairwise_iff_getElem.1 (b.signatures output).distinct
  rcases Nat.lt_trichotomy i j with hlt | rfl | hlt
  · have hne := distinct i j hi hj hlt
    rw [BEq.symm same] at hne
    exact Bool.noConfusion hne
  · exact hw
  · have hne := distinct j i hj hi hlt
    rw [same] at hne
    exact Bool.noConfusion hne

/-- The columns of the substituted output: those that the walk passes, and those bound to the
expressions at which it stops. -/
lemma Bindings.mem_columns_substituted {b : Bindings} {first : Nat} {output : List Expr} {e : Expr}
    (he : e ∈ output) {c : Column} :
    c ∈ (e.replace (b.outputRule (b.callColumns first output))).columns ↔
      ∃ n ∈ e.nodesUntil b.replaces, (n = .column c ∧ b.replaces n = false) ∨
        n.groupingCall? = none ∧ ∃ x, b.get? n = some x ∧ x.column = c := by
  have walk : (e.nodesUntil fun n => (b.outputRule (b.callColumns first output) n).isSome) =
      e.nodesUntil b.replaces := Expr.nodesUntil_congr fun n hn => outputRule_isSome he hn
  rw [Expr.mem_columns_iff, Expr.mem_subterms_replace_iff, walk]
  refine exists_congr fun n => and_congr_right fun hn => or_congr ?_ ?_
  · rw [← outputRule_isSome he hn, ← Bool.not_eq_true, Option.not_isSome_iff_eq_none, and_comm]
    refine and_congr_left fun _ => ⟨fun heq => ?_, fun heq => by rw [heq]; rfl⟩
    have hcolumn := congrArg Expr.column? heq
    rw [Expr.column?_mapChildren] at hcolumn
    exact Expr.column?_eq_some_iff.1 hcolumn.symm
  · unfold outputRule
    cases hcall : n.groupingCall? with
    | some call =>
      refine iff_of_false ?_ (by simp)
      rintro ⟨_, hv, hc⟩
      obtain ⟨v, -, rfl⟩ := Option.map_eq_some_iff.1 hv
      rw [← Expr.mem_columns_iff, Expr.columns_virtual] at hc
      exact List.not_mem_nil hc
    | none =>
      simp only [replacement?, Option.map_eq_some_iff, true_and]
      constructor
      · rintro ⟨_, ⟨x, hx, rfl⟩, hc⟩
        rw [Expr.subterms_column, List.mem_singleton, Expr.column.injEq] at hc
        exact ⟨x, hx, hc.symm⟩
      · rintro ⟨x, hx, rfl⟩
        exact ⟨_, ⟨x, hx, rfl⟩, Expr.self_mem_subterms _⟩

namespace Repetition

variable {r : Repetition} {next : Nat}

/-- No expression of the repetition has a virtual column in it. -/
def VirtualFree (r : Repetition) : Prop := ∀ e ∈ r.exprs, ∀ t ∈ e.subterms, t.virtual?.isNone

/-- No column and no alias has the id of a virtual column. -/
def VirtualsApart (r : Repetition) : Prop :=
  ∀ e ∈ r.exprs, ∀ t ∈ e.subterms, t.virtual?.isNone → ∀ c, t.produced? = some c →
    ∀ e' ∈ r.exprs, ∀ v ∈ e'.virtuals, c.id ≠ v.column.id

lemma VirtualFree.virtualsApart {r : Repetition} (free : r.VirtualFree) : r.VirtualsApart := by
  intro e he t ht _ c hc e' he' v hv
  have plain := free e' he' _ (Expr.mem_virtuals_iff.1 hv)
  rw [Expr.virtual?_toExpr] at plain
  exact Bool.noConfusion plain

/-- A call column is made for a grouping call of the output whose arguments are all bound. -/
lemma mem_callColumnsAt {v : VirtualColumn} (hv : v ∈ r.callColumnsAt next) :
    ∃ k, k < ((r.bindingsAt next).signatures r.output).size ∧
      v.column.id = ⟨r.firstCall next + k⟩ ∧ ∃ call, (∀ e ∈ call.args, r.early.contains e) ∧
        v = .ofCall ⟨r.firstCall next + k⟩ ((r.bindingsAt next).signature call) := by
  obtain ⟨k, hk, rfl⟩ := List.mem_mapIdx.1 hv
  refine ⟨k, hk, rfl, ?_⟩
  have hsignature := Roster.mem_ofList (List.getElem_mem hk)
  obtain ⟨call, hcall, heq⟩ := List.mem_map.1 hsignature
  obtain ⟨e, he, hcall⟩ := List.mem_flatMap.1 hcall
  obtain ⟨n, hn, hnc⟩ := List.mem_filterMap.1 hcall
  obtain rfl := Expr.groupingCall?_eq_some_iff.1 hnc
  refine ⟨call, fun arg harg => ?_, ?_⟩
  · exact early_of_groupingArgument he (Expr.mem_subterms_of_mem_nodesUntil hn) harg
  · rw [heq]

/-- Call columns are told apart by their ids. -/
lemma eq_of_callColumn_id {v v' : VirtualColumn} (hv : v ∈ r.callColumnsAt next)
    (hv' : v' ∈ r.callColumnsAt next) (hid : v.column.id = v'.column.id) : v = v' := by
  obtain ⟨k, hk, rfl⟩ := List.mem_mapIdx.1 hv
  obtain ⟨k', hk', rfl⟩ := List.mem_mapIdx.1 hv'
  have hnum : r.firstCall next + k = r.firstCall next + k' := congrArg ColumnId.number hid
  obtain rfl : k = k' := by omega
  rfl

end Repetition

namespace Stacked

variable {r : Repetition} {next : Nat} (x : Stacked r next)

/-- A virtual column of the new output was in the output before, or it is one for a call. -/
lemma virtualOccurrence_cases {v : VirtualColumn} (hv : v ∈ x.substituted.virtualOccurrences) :
    (∃ e ∈ r.output, v ∈ e.virtuals) ∨ v ∈ r.callColumnsAt next := by
  obtain ⟨t, ht, hvt⟩ := List.mem_filterMap.1 hv
  obtain ⟨e', he', ht⟩ := List.mem_flatMap.1 ht
  obtain ⟨e, he, rfl⟩ := List.mem_map.1 he'
  rcases Expr.mem_subterms_replace ht with ⟨n, hn, -, rfl⟩ | ⟨n, hn, y, hy, hty⟩
  · left
    rw [Expr.virtual?_mapChildren] at hvt
    exact ⟨e, he, List.mem_filterMap.2 ⟨n, hn, hvt⟩⟩
  · right
    unfold Bindings.outputRule at hy
    split at hy
    · obtain ⟨w, hw, rfl⟩ := Option.map_eq_some_iff.1 hy
      rw [Expr.subterms_virtual, List.mem_singleton] at hty
      rw [hty, Expr.virtual?_toExpr, Option.some.injEq] at hvt
      rw [← hvt]
      exact List.mem_of_find?_eq_some hw
    · obtain ⟨b, -, rfl⟩ := Bindings.replacement?_eq_some hy
      rw [Expr.subterms_column, List.mem_singleton] at hty
      rw [hty] at hvt
      cases hvt

/-- The grouping-id column was in the output before, or it takes the last id. -/
lemma groupingId_cases : (∃ e ∈ r.output, x.groupingId ∈ e.virtuals) ∨
    x.groupingId.column.id = ⟨r.afterCalls next⟩ ∧ x.nextId = r.afterCalls next + 1 := by
  unfold groupingId nextId
  cases hfind : x.substituted.groupingIdColumn? with
  | none => exact Or.inr ⟨rfl, rfl⟩
  | some v =>
    refine Or.inl ((x.virtualOccurrence_cases (List.mem_of_find?_eq_some hfind)).resolve_right ?_)
    intro hcall
    obtain ⟨k, -, -, call, -, rfl⟩ := Repetition.mem_callColumnsAt hcall
    exact Bool.noConfusion (List.find?_some hfind)

variable (free : r.VirtualFree)
include free

/-- A query without virtual columns gets no others than call columns. -/
lemma mem_virtualOccurrences {v : VirtualColumn} (hv : v ∈ x.substituted.virtualOccurrences) :
    v ∈ r.callColumnsAt next := by
  refine (x.virtualOccurrence_cases hv).resolve_left fun ⟨e, he, hve⟩ => ?_
  have plain := free e (List.mem_append_right _ he) _ (Expr.mem_virtuals_iff.1 hve)
  rw [Expr.virtual?_toExpr] at plain
  exact Bool.noConfusion plain

lemma groupingIdColumn?_eq_none : x.substituted.groupingIdColumn? = none := by
  apply List.find?_eq_none.2
  intro v hv hid
  obtain ⟨k, -, -, call, -, rfl⟩ := Repetition.mem_callColumnsAt (x.mem_virtualOccurrences free hv)
  cases hid

lemma groupingId_eq : x.groupingId = .ofGroupingId ⟨r.afterCalls next⟩ := by
  rw [groupingId, x.groupingIdColumn?_eq_none free]
  simp

/-- A virtual column is that of the grouping id or that of a call. -/
lemma virtualColumn_cases {v : VirtualColumn}
    (hv : v ∈ x.substituted.virtualColumns x.groupingId) :
    v = .ofGroupingId ⟨r.afterCalls next⟩ ∨ v ∈ r.callColumnsAt next := by
  rcases List.mem_cons.1 hv with rfl | hv
  · exact Or.inl (x.groupingId_eq free)
  · exact Or.inr (x.mem_virtualOccurrences free (List.mem_of_mem_filter (Roster.mem_ofList hv)))

/-- The ids of virtual columns lie between those of bound columns and those of duplicates. -/
lemma number_virtualColumn (below : r.toPlan.IdsBelow next) {v : VirtualColumn}
    (hv : v ∈ x.substituted.virtualColumns x.groupingId) :
    r.firstCall next ≤ v.column.id.number ∧ v.column.id.number < x.nextId := by
  refine ⟨?_, x.number_lt_of_virtual below hv⟩
  rcases x.virtualColumn_cases free hv with rfl | hv
  · exact Nat.le_add_right _ _
  · obtain ⟨k, -, hid, -⟩ := Repetition.mem_callColumnsAt hv
    rw [hid]
    exact Nat.le_add_right _ _

/-- Virtual columns are told apart by their ids. -/
lemma eq_of_virtualColumn_id {v v' : VirtualColumn}
    (hv : v ∈ x.substituted.virtualColumns x.groupingId)
    (hv' : v' ∈ x.substituted.virtualColumns x.groupingId) (hid : v.column.id = v'.column.id) :
    v = v' := by
  -- The id of the grouping id comes after those of the calls.
  have later : ∀ {w : VirtualColumn}, w ∈ r.callColumnsAt next →
      w.column.id.number < r.afterCalls next := by
    intro w hw
    obtain ⟨k, hk, hid, -⟩ := Repetition.mem_callColumnsAt hw
    rw [hid]
    exact Nat.add_lt_add_left hk _
  rcases x.virtualColumn_cases free hv with rfl | hv <;>
    rcases x.virtualColumn_cases free hv' with rfl | hv'
  · rfl
  · have hlt := later hv'
    rw [← hid] at hlt
    exact absurd hlt (Nat.lt_irrefl _)
  · have hlt := later hv
    rw [hid] at hlt
    exact absurd hlt (Nat.lt_irrefl _)
  · exact Repetition.eq_of_callColumn_id hv hv' hid

/-- The virtual columns of the output are among those put out. -/
lemma mem_virtualColumns {e : Expr} (he : e ∈ r.outputAt next) {v : VirtualColumn}
    (hv : v.toExpr ∈ e.subterms) : v ∈ x.substituted.virtualColumns x.groupingId := by
  have hoccurs : v ∈ x.substituted.virtualOccurrences :=
    List.mem_filterMap.2 ⟨_, List.mem_flatMap.2 ⟨e, he, hv⟩, Expr.virtual?_toExpr v⟩
  have hcall := x.mem_virtualOccurrences free hoccurs
  have hplain : v.standsForId = false := by
    obtain ⟨k, -, -, call, -, rfl⟩ := Repetition.mem_callColumnsAt hcall
    rfl
  have hlisted : v ∈ x.substituted.virtualOccurrences.filter fun v => !v.standsForId :=
    List.mem_filter.2 ⟨hoccurs, by rw [hplain]; rfl⟩
  obtain ⟨w, hw, hbeq⟩ := Roster.exists_mem_ofList hlisted
  have hwcall := x.mem_virtualOccurrences free (List.mem_of_mem_filter (Roster.mem_ofList hw))
  rw [Repetition.eq_of_callColumn_id hcall hwcall (VirtualColumn.id_eq_of_beq hbeq)]
  exact List.mem_cons_of_mem _ hw

end Stacked

/-! ## Plain columns of the stack -/

namespace Stacked

variable {r : Repetition} {next : Nat} (x : Stacked r next)

/-- The columns that the stack reads or groups by. -/
def readColumns : List Column :=
  x.substituted.keyColumns.toList ++ x.substituted.otherColumns.toList

/-- What the output reads besides grouping columns. -/
lemma exists_otherColumn {e : Expr} (he : e ∈ r.outputAt next) {c : Column} (hc : c ∈ e.columns)
    (hkey : ¬ x.substituted.keyColumns.contains c) :
    ∃ c' ∈ x.substituted.otherColumns.toList, c == c' := by
  refine Roster.exists_mem_ofList (List.mem_filter.2 ⟨?_, ?_⟩)
  · exact List.mem_flatMap.2 ⟨e, he, hc⟩
  · rw [Bool.not_eq_true', ← Bool.not_eq_true]
    exact hkey

/-- The id of a column read is that of a column or alias of the query, or of a new alias. -/
lemma readColumn_cases {c : Column} (hc : c ∈ x.readColumns) :
    (∃ e ∈ r.exprs, ∃ t ∈ e.subterms, t.virtual?.isNone ∧
      ∃ p, t.produced? = some p ∧ p.id = c.id) ∨
        next ≤ c.id.number ∧ c.id.number < r.firstCall next := by
  have bound {b : Binding} (hb : b ∈ (r.bindingsAt next).toList) (hid : b.column.id = c.id) :
      (∃ e ∈ r.exprs, ∃ t ∈ e.subterms, t.virtual?.isNone ∧
        ∃ p, t.produced? = some p ∧ p.id = c.id) ∨
          next ≤ c.id.number ∧ c.id.number < r.firstCall next := by
    rw [Binding.id_column] at hid
    rcases Repetition.definition_occurs_or_new hb with ⟨e, he, hsub⟩ | ⟨k, hle, hlt, -, hd⟩
    · refine Or.inl ⟨e, he, _, hsub, ?_, _, Definition.produced?_toExpr _, hid⟩
      cases b.definition <;> rfl
    · rw [hd] at hid
      rw [← hid]
      exact Or.inr ⟨hle, hlt⟩
  rcases List.mem_append.1 hc with hc | hc
  · have hkey : x.repetition.setColumns.contains c := by
      rw [x.setColumns_eq]
      exact Roster.contains_of_mem hc
    obtain ⟨item, -, b, hget, hbeq⟩ := x.contains_setColumns.1 hkey
    exact bound (Bindings.get?_eq_some hget).1 ((Column.beq_iff _ _).1 hbeq).symm
  · obtain ⟨e, he, hce⟩ := List.mem_flatMap.1 (List.mem_of_mem_filter (Roster.mem_ofList hc))
    rcases Repetition.mem_columns_outputAt he hce with ⟨b, hb, rfl⟩ | ⟨e₀, he₀, hc₀⟩
    · exact bound hb rfl
    · exact Or.inl ⟨e₀, List.mem_append_right _ he₀, _, Expr.mem_columns_iff.1 hc₀, rfl, c, rfl,
        rfl⟩

lemma not_grouped_of_unbound {c : Column}
    (unbound : ∀ b ∈ (r.bindingsAt next).toList, b.column.id ≠ c.id) :
    x.repetition.setColumns.contains c = false := by
  by_contra hkey
  rw [Bool.not_eq_false, x.contains_setColumns] at hkey
  obtain ⟨item, -, b, hget, hbeq⟩ := hkey
  exact unbound b (Bindings.get?_eq_some hget).1 ((Column.beq_iff _ _).1 hbeq).symm

/-- A column that the output reads as it is. -/
lemma exists_otherColumn_of_unbound {e : Expr} (he : e ∈ r.output) {c : Column}
    (hc : .column c ∈ e.nodesUntil (r.bindingsAt next).replaces)
    (unbound : ∀ b ∈ (r.bindingsAt next).toList, b.column.id ≠ c.id)
    (passed : (r.bindingsAt next).replaces (.column c) = false) :
    ∃ c' ∈ x.substituted.otherColumns.toList, c == c' := by
  refine x.exists_otherColumn (List.mem_map_of_mem he)
    ((Bindings.mem_columns_substituted he).2 ⟨_, hc, Or.inl ⟨rfl, passed⟩⟩) ?_
  rw [← x.setColumns_eq, x.not_grouped_of_unbound unbound]
  exact Bool.false_ne_true

/-- The columns of the output are among the columns read. -/
lemma exists_readColumn {e : Expr} (he : e ∈ r.outputAt next) {c : Column} (hc : c ∈ e.columns) :
    ∃ c' ∈ x.readColumns, c'.id = c.id := by
  by_cases hkey : x.substituted.keyColumns.contains c
  · obtain ⟨c', hc', hbeq⟩ := (Roster.contains_iff _ _).1 hkey
    exact ⟨c', List.mem_append_left _ hc', ((Column.beq_iff _ _).1 hbeq).symm⟩
  · obtain ⟨c', hc', hbeq⟩ := x.exists_otherColumn he hc hkey
    exact ⟨c', List.mem_append_right _ hc', ((Column.beq_iff _ _).1 hbeq).symm⟩

/-- Columns read, columns with fresh ids and virtual columns have different ids. -/
lemma id_ne_of_virtualColumn (free : r.VirtualFree) (below : r.toPlan.IdsBelow next)
    {copies : List Column} (fresh : ∀ c ∈ copies, x.nextId ≤ c.id.number) {v : VirtualColumn}
    (hv : v ∈ x.substituted.virtualColumns x.groupingId) :
    ∀ c ∈ x.readColumns ++ copies, c.id ≠ v.column.id := by
  obtain ⟨hle, hlt⟩ := x.number_virtualColumn free below hv
  intro c hc hid
  rw [← hid] at hle hlt
  rcases List.mem_append.1 hc with hc | hc
  · have hread : c.id.number < r.firstCall next := by
      rcases List.mem_append.1 hc with hc | hc
      · exact x.number_lt_of_keyColumn below hc
      · exact x.number_lt_of_otherColumn below hc
    omega
  · have hnew := fresh c hc
    omega

end Stacked
end GroupingPlanner

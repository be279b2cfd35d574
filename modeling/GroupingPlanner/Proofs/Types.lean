import GroupingPlanner.Proofs.Renaming
/-!
# Types of rewritten expressions

The type of an expression is computed from the types of its parts, and so is its nullability.  A
rewritten tree therefore has the type it had if every replacement has the type of what it replaces,
and it may still be null if replacements may be null wherever what they replace may be.  Inside an
aggregate only the types matter: whether a call may be null depends on its function alone.

Equal expressions need not have equal types, since `==` looks at the ids of columns only.  They have
if columns of equal ids agree.

* `Expr.Conforms`: one expression has the type of another one, and may be null if that may be.
* `Expr.conforms_replace`, `Expr.conforms_mapAggregateArguments`: rewritten trees conform.
* `Expr.LeavesAgree`, `Expr.type_eq_of_beq`: equal trees have equal types if their leaves agree.
-/

namespace GroupingPlanner
namespace Expr

/-! ## Conforming trees -/

/-- An expression has the type of another one, and it may be null if the other one may be. -/
structure Conforms (e e' : Expr) : Prop where
  type : e'.type = e.type
  nullable : e.nullable → e'.nullable

/-- The column an expression produces has its type. -/
lemma type_of_produced? {e : Expr} {c : Column} (h : e.produced? = some c) :
    c.type = e.type ∧ c.nullable = e.nullable := by
  cases e <;> cases h <;> simp [type, nullable]

lemma type_mapChildren {f : Expr → Expr} {e : Expr} (h : ∀ c ∈ e.children, (f c).type = c.type) :
    (e.mapChildren f).type = e.type := by
  cases e with
  | aggregate fn args distinct =>
    have types : (args.map f).map type = args.map type := by
      rw [List.map_map]
      exact List.map_congr_left h
    rw [mapChildren, type, type, types_eq_map, types_eq_map, types]
  | _ => simp_all [mapChildren, children, type]

/-- Over children that conform a node conforms. -/
lemma conforms_mapChildren {f : Expr → Expr} {e : Expr} (h : ∀ c ∈ e.children, c.Conforms (f c)) :
    e.Conforms (e.mapChildren f) := by
  refine ⟨type_mapChildren fun c hc => (h c hc).type, ?_⟩
  replace h : ∀ c ∈ e.children, c.nullable → (f c).nullable := fun c hc => (h c hc).nullable
  cases e with
  | call name args type =>
    simp only [mapChildren, nullable, anyNullable_eq_any, List.any_eq_true]
    rintro ⟨c, hc, hnull⟩
    exact ⟨f c, List.mem_map_of_mem hc, h c hc hnull⟩
  | arith op left right =>
    simp only [mapChildren, nullable, Bool.or_eq_true]
    exact Or.imp (h left (by simp [children])) (h right (by simp [children]))
  | _ => simp_all [mapChildren, children, nullable]

/-- A tree conforms once it is rewritten, if every replacement conforms. -/
theorem conforms_replace {rule : Expr → Option Expr} {e : Expr}
    (h : ∀ n ∈ e.subterms, ∀ y, rule n = some y → n.Conforms y) : e.Conforms (e.replace rule) := by
  induction e using childrenInduction with
  | step e ih =>
    rw [replace_eq]
    cases hrule : rule e with
    | some y => exact h e e.self_mem_subterms y hrule
    | none =>
      exact conforms_mapChildren fun c hc =>
        ih c hc fun n hn => h n (mem_subterms_of_child hc hn)

/-- Renaming columns keeps the type of a tree if it keeps the types of columns. -/
theorem type_replaceColumns {f : Column → Option Column} {e : Expr}
    (h : ∀ c ∈ e.columns, ((f c).getD c).type = c.type) : (e.replaceColumns f).type = e.type := by
  induction e using childrenInduction with
  | step e ih =>
    cases hc : e.column? with
    | some c =>
      obtain rfl := column?_eq_some_iff.1 hc
      rw [replaceColumns_column]
      exact h c (mem_columns_iff.2 (self_mem_subterms _))
    | none =>
      rw [replaceColumns_eq_mapChildren hc]
      exact type_mapChildren fun d hd => ih d hd fun c hcd =>
        h c (mem_columns_of_subterm hcd (mem_subterms_of_child hd d.self_mem_subterms))

/-- A tree conforms to what it was if the arguments of its aggregates have the types they had. -/
theorem conforms_mapAggregateArguments {F : Expr → Expr} {e : Expr}
    (h : ∀ call ∈ e.plainAggregates, ∀ x ∈ call.args, (F x).type = x.type) :
    e.Conforms (e.mapAggregateArguments F) := by
  induction e using scopeInduction with
  | aggregate fn args distinct =>
    refine ⟨?_, id⟩
    rw [mapAggregateArguments_aggregate]
    exact type_mapChildren (h ⟨fn, args, distinct⟩ (List.mem_singleton_self _))
  | window function partitionBy orderBy frame ihFunction ihPartition ihOrder =>
    have below : function.Conforms (function.mapChildren (mapAggregateArguments F)) := by
      refine conforms_mapChildren fun d hd => ihFunction d hd fun call hcall => h call ?_
      rw [plainAggregates_window]
      exact List.mem_flatMap.2 ⟨d, List.mem_append_left _ hd, hcall⟩
    rw [mapAggregateArguments_window]
    exact ⟨below.type, below.nullable⟩
  | other e haggregate hwindow ih =>
    rw [mapAggregateArguments_eq haggregate hwindow]
    refine conforms_mapChildren fun c hc => ih c hc fun call hcall => h call ?_
    rw [plainAggregates_eq haggregate hwindow]
    exact List.mem_flatMap.2 ⟨c, hc, hcall⟩

/-! ## Equal trees -/

/-- Columns of one tree have the types and the nullability of those with the same ids in another
one, and so have virtual columns. -/
structure LeavesAgree (e e' : Expr) : Prop where
  columns : ∀ c ∈ e.columns, ∀ c' ∈ e'.columns, c.id = c'.id →
    c.type = c'.type ∧ c.nullable = c'.nullable
  virtuals : ∀ v ∈ e.virtuals, ∀ v' ∈ e'.virtuals, v.column.id = v'.column.id →
    v.column.type = v'.column.type ∧ v.column.nullable = v'.column.nullable

lemma sameAll_map_eq {β : Type} {f : Expr → β} {es es' : List Expr} (h : sameAll es es' = true)
    (hf : ∀ e ∈ es, ∀ e' ∈ es', e == e' → f e = f e') : es.map f = es'.map f := by
  induction es generalizing es' with
  | nil =>
    cases es' with
    | nil => rfl
    | cons e' es' => simp [sameAll] at h
  | cons e es ih =>
    cases es' with
    | nil => simp [sameAll] at h
    | cons e' es' =>
      rw [sameAll, Bool.and_eq_true] at h
      rw [List.map_cons, List.map_cons,
        hf e List.mem_cons_self e' List.mem_cons_self h.1,
        ih h.2 fun d hd d' hd' => hf d (List.mem_cons_of_mem _ hd) d' (List.mem_cons_of_mem _ hd')]

/-- Equal expressions whose leaves agree have one type, and are null alike. -/
theorem type_eq_of_beq {e e' : Expr} (h : e == e') (agree : e.LeavesAgree e') :
    e.type = e'.type ∧ e.nullable = e'.nullable := by
  induction e using childrenInduction generalizing e' with
  | step e ih =>
    have below : ∀ c ∈ e.children, ∀ c' ∈ e'.children, c == c' →
        c.type = c'.type ∧ c.nullable = c'.nullable := by
      intro c hc c' hc' hbeq
      have hsub := mem_subterms_of_child hc c.self_mem_subterms
      have hsub' := mem_subterms_of_child hc' c'.self_mem_subterms
      refine ih c hc hbeq ⟨fun d hd d' hd' => ?_, fun v hv v' hv' => ?_⟩
      · exact agree.columns d (mem_columns_of_subterm hd hsub) d' (mem_columns_of_subterm hd' hsub')
      · exact agree.virtuals v (mem_virtuals_of_subterm hv hsub) v'
          (mem_virtuals_of_subterm hv' hsub')
    replace h : e.same e' = true := h
    cases e with
    | column c =>
      cases e' <;> simp only [same, Bool.false_eq_true] at h
      exact agree.columns c (mem_columns_iff.2 (self_mem_subterms _)) _
        (mem_columns_iff.2 (self_mem_subterms _)) ((Column.beq_iff _ _).1 h)
    | groupingIdColumn c =>
      cases e' <;> simp only [same, Bool.false_eq_true] at h
      exact agree.virtuals ⟨c, .groupingId⟩ (mem_virtuals_iff.2 (self_mem_subterms _))
        ⟨_, .groupingId⟩ (mem_virtuals_iff.2 (self_mem_subterms _)) ((Column.beq_iff _ _).1 h)
    | callColumn c fn args =>
      cases e' <;> simp only [same, Bool.and_eq_true, Bool.false_eq_true] at h
      exact agree.virtuals ⟨c, .call ⟨fn, args⟩⟩ (mem_virtuals_iff.2 (self_mem_subterms _))
        ⟨_, .call ⟨_, _⟩⟩ (mem_virtuals_iff.2 (self_mem_subterms _)) ((Column.beq_iff _ _).1 h.1.1)
    | literal v =>
      cases e' <;> simp only [same, Bool.false_eq_true] at h
      rw [of_decide_eq_true h]
      exact ⟨rfl, rfl⟩
    | grouping fn args =>
      cases e' <;> simp only [same, Bool.false_eq_true] at h
      exact ⟨rfl, rfl⟩
    | named id name child =>
      cases e' <;> simp only [same, Bool.and_eq_true, Bool.false_eq_true] at h
      rename_i child'
      exact below child (List.mem_singleton_self _) child' (List.mem_singleton_self _) h.2
    | ordered child direction =>
      cases e' <;> simp only [same, Bool.and_eq_true, Bool.false_eq_true] at h
      rename_i child' _
      exact below child (List.mem_singleton_self _) child' (List.mem_singleton_self _) h.1
    | window function partitionBy orderBy frame =>
      cases e' <;> simp only [same, Bool.and_eq_true, Bool.false_eq_true] at h
      rename_i function' _ _ _
      exact below function List.mem_cons_self function' List.mem_cons_self h.1.1.1
    | arith op left right =>
      cases e' <;> simp only [same, Bool.and_eq_true, Bool.false_eq_true] at h
      rename_i left' right'
      have hleft := below left List.mem_cons_self left' List.mem_cons_self h.1.2
      have hright := below right (List.mem_cons_of_mem _ (List.mem_singleton_self _)) right'
        (List.mem_cons_of_mem _ (List.mem_singleton_self _)) h.2
      simp only [type, nullable, hleft, hright, and_self]
    | call name args type =>
      cases e' <;> simp only [same, Bool.and_eq_true, Bool.false_eq_true, decide_eq_true_eq] at h
      have hargs := sameAll_map_eq (f := nullable) h.1.2 fun c hc c' hc' hbeq =>
        (below c hc c' hc' hbeq).2
      have hany := congrArg (List.any · id) hargs
      simp only [List.any_map] at hany
      rw [Expr.type, Expr.type, nullable, nullable, anyNullable_eq_any, anyNullable_eq_any]
      exact ⟨h.2, hany⟩
    | aggregate fn args distinct =>
      cases e' <;> simp only [same, Bool.and_eq_true, Bool.false_eq_true, decide_eq_true_eq] at h
      have hargs := sameAll_map_eq (f := type) h.1.2 fun c hc c' hc' hbeq =>
        (below c hc c' hc' hbeq).1
      rw [type, type, nullable, nullable, types_eq_map, types_eq_map, hargs, h.1.1]
      exact ⟨rfl, rfl⟩

end Expr
end GroupingPlanner

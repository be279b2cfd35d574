import GroupingPlanner.Expr.Replace
import GroupingPlanner.Proofs.Occurrences
/-!
# Renaming columns

Duplicates come and go by renaming columns: `Expr.replaceColumns` renames them everywhere in a tree,
and `Expr.mapAggregateArguments` confines a change to what aggregates over a group read.  The laws
of the two say what a renaming does to the columns of a tree, to its virtual columns and to its
aggregates, and when a second renaming undoes the first.

* `Expr.columns_replaceColumns`, `Expr.replaceColumns_replaceColumns`.
* `Expr.plainAggregates_mapAggregateArguments`: the aggregates, and which columns they read.
* `Expr.replaceColumns_mapAggregateArguments`: renaming back what was renamed inside aggregates.
* `Expr.filter_columns_mapAggregateArguments`: columns that are not touched.
* `Expr.virtuals_replaceColumns`, `Expr.virtuals_mapAggregateArguments`, `Expr.aliasIds_renamed`:
  what renaming columns leaves alone.
-/

namespace GroupingPlanner
namespace Expr

variable {f g : Column → Option Column}

/-! ## Renaming everywhere -/

@[simp] lemma replaceColumns_column (f : Column → Option Column) (c : Column) :
    (column c).replaceColumns f = column ((f c).getD c) := by
  rw [replaceColumns, replace_eq]
  cases h : f c <;> simp [column?, h, mapChildren]

lemma replaceColumns_eq_mapChildren {e : Expr} (h : e.column? = none) :
    e.replaceColumns f = e.mapChildren (replaceColumns f) := by
  rw [replaceColumns, replace_eq, h]
  rfl

@[simp] lemma column?_replaceColumns (f : Column → Option Column) (e : Expr) :
    (e.replaceColumns f).column? = e.column?.map fun c => (f c).getD c := by
  cases h : e.column? with
  | some c =>
    rw [column?_eq_some_iff.1 h, replaceColumns_column]
    simp
  | none =>
    rw [replaceColumns_eq_mapChildren h, column?_mapChildren, h]
    simp

/-- Renaming renames the columns of a tree one by one. -/
theorem columns_replaceColumns (f : Column → Option Column) (e : Expr) :
    (e.replaceColumns f).columns = e.columns.map fun c => (f c).getD c := by
  induction e using childrenInduction with
  | step e ih =>
    rw [columns_eq, columns_eq e, column?_replaceColumns, List.map_append, List.map_flatMap]
    cases h : e.column? with
    | some c =>
      rw [column?_eq_some_iff.1 h, replaceColumns_column]
      rfl
    | none =>
      rw [replaceColumns_eq_mapChildren h, children_mapChildren, List.flatMap_map]
      exact congrArg _ (List.flatMap_congr ih)

/-- Renaming twice is renaming once. -/
theorem replaceColumns_replaceColumns (f g : Column → Option Column) (e : Expr) :
    (e.replaceColumns f).replaceColumns g =
      e.replaceColumns fun c => some ((g ((f c).getD c)).getD ((f c).getD c)) := by
  induction e using childrenInduction with
  | step e ih =>
    cases h : e.column? with
    | some c => simp [column?_eq_some_iff.1 h]
    | none =>
      have h' : (e.mapChildren (replaceColumns f)).column? = none := by
        rw [column?_mapChildren, h]
      rw [replaceColumns_eq_mapChildren h, replaceColumns_eq_mapChildren h',
        replaceColumns_eq_mapChildren h, mapChildren_mapChildren]
      exact mapChildren_congr ih

/-- A renaming that fixes the columns of a tree leaves the tree as it is. -/
theorem replaceColumns_eq_self {e : Expr} (h : ∀ c ∈ e.columns, (f c).getD c = c) :
    e.replaceColumns f = e := by
  induction e using childrenInduction with
  | step e ih =>
    cases hc : e.column? with
    | some c =>
      rw [column?_eq_some_iff.1 hc, replaceColumns_column, h c (mem_columns_iff.2 ?_)]
      rw [column?_eq_some_iff.1 hc]
      exact self_mem_subterms _
    | none =>
      rw [replaceColumns_eq_mapChildren hc]
      refine mapChildren_eq_self fun d hd => ih d hd fun c hcd => h c ?_
      rw [columns_eq]
      exact List.mem_append_right _ (List.mem_flatMap.2 ⟨d, hd, hcd⟩)

/-- A renaming that gives every column of a tree an equal one gives an equal tree. -/
theorem replaceColumns_beq {e : Expr} (h : ∀ c ∈ e.columns, (f c).getD c == c) :
    e.replaceColumns f == e := by
  induction e using childrenInduction with
  | step e ih =>
    cases hc : e.column? with
    | some c =>
      have hmem : c ∈ e.columns := by
        rw [mem_columns_iff, ← column?_eq_some_iff.1 hc]
        exact self_mem_subterms _
      have hbeq := h c hmem
      rw [column?_eq_some_iff.1 hc, replaceColumns_column]
      exact hbeq
    | none =>
      rw [replaceColumns_eq_mapChildren hc]
      refine mapChildren_beq fun d hd => ih d hd fun c hcd => h c ?_
      rw [columns_eq]
      exact List.mem_append_right _ (List.mem_flatMap.2 ⟨d, hd, hcd⟩)

/-! ## Renaming inside aggregates -/

lemma mapAggregateArguments_aggregate (F : Expr → Expr) (fn : AggregateFn) (args : List Expr)
    (distinct : Bool) : (aggregate fn args distinct).mapAggregateArguments F =
      (aggregate fn args distinct).mapChildren F := by
  rw [mapAggregateArguments, mapChildren]

lemma mapAggregateArguments_window (F : Expr → Expr) (function : Expr)
    (partitionBy orderBy : List Expr) (frame : Option Frame) :
    (window function partitionBy orderBy frame).mapAggregateArguments F =
      window (function.mapChildren (mapAggregateArguments F))
        (partitionBy.map (mapAggregateArguments F))
        (orderBy.map (mapAggregateArguments F)) frame := by
  rw [mapAggregateArguments, mapAggregateArgumentsBelow_eq, mapAggregateArgumentsInAll_eq_map,
    mapAggregateArgumentsInAll_eq_map]

lemma plainAggregates_window (function : Expr) (partitionBy orderBy : List Expr)
    (frame : Option Frame) : (window function partitionBy orderBy frame).plainAggregates =
      (function.children ++ (partitionBy ++ orderBy)).flatMap plainAggregates := by
  simp [plainAggregates, plainAggregatesBelow_eq]

/-- The aggregates over a group stay where they are; only their arguments change. -/
theorem plainAggregates_mapAggregateArguments (F : Expr → Expr) (e : Expr) :
    (e.mapAggregateArguments F).plainAggregates =
      e.plainAggregates.map fun call => { call with args := call.args.map F } := by
  induction e using scopeInduction with
  | aggregate fn args distinct => rfl
  | window function partitionBy orderBy frame ihFunction ihPartition ihOrder =>
    rw [mapAggregateArguments_window, plainAggregates_window, plainAggregates_window,
      children_mapChildren, ← List.map_append, ← List.map_append, List.flatMap_map,
      List.map_flatMap]
    apply List.flatMap_congr
    intro d hd
    rcases List.mem_append.1 hd with hd | hd
    · exact ihFunction d hd
    · exact (List.mem_append.1 hd).elim (ihPartition d) (ihOrder d)
  | other e haggregate hwindow ih =>
    rw [mapAggregateArguments_eq haggregate hwindow, plainAggregates_eq haggregate hwindow,
      plainAggregates_eq (aggregateCall?_mapChildren haggregate)
        ((isWindow_mapChildren _ _).trans hwindow), children_mapChildren, List.flatMap_map,
      List.map_flatMap]
    exact List.flatMap_congr ih

/-- A change of all aggregate arguments into equal ones changes a tree into an equal one. -/
theorem mapAggregateArguments_beq {F : Expr → Expr} {e : Expr} (h : ∀ x ∈ e.subterms, F x == x) :
    e.mapAggregateArguments F == e := by
  induction e using scopeInduction with
  | aggregate fn args distinct =>
    rw [mapAggregateArguments_aggregate]
    exact mapChildren_beq fun c hc => h c (mem_subterms_of_child hc (self_mem_subterms c))
  | window function partitionBy orderBy frame ihFunction ihPartition ihOrder =>
    have within : ∀ {c : Expr}, c ∈ (window function partitionBy orderBy frame).children →
        ∀ x ∈ c.subterms, F x == x := fun hc x hx => h x (mem_subterms_of_child hc hx)
    have hfunction : function.mapChildren (mapAggregateArguments F) == function :=
      mapChildren_beq fun d hd => ihFunction d hd fun x hx =>
        within (by simp [children]) x (mem_subterms_of_child hd hx)
    have hpartition : partitionBy.map (mapAggregateArguments F) == partitionBy :=
      map_beq_self fun k hk => ihPartition k hk (within (by simp [children, hk]))
    have horder : orderBy.map (mapAggregateArguments F) == orderBy :=
      map_beq_self fun k hk => ihOrder k hk (within (by simp [children, hk]))
    rw [list_beq_iff] at hpartition horder
    rw [mapAggregateArguments_window, beq_iff]
    simp only [skeleton, skeletons_eq_map, (beq_iff _ _).1 hfunction, hpartition, horder]
  | other e haggregate hwindow ih =>
    rw [mapAggregateArguments_eq haggregate hwindow]
    exact mapChildren_beq fun c hc => ih c hc fun x hx => h x (mem_subterms_of_child hc hx)

/-- Only the arguments of the aggregates over a group matter. -/
theorem mapAggregateArguments_congr {F G : Expr → Expr} {e : Expr}
    (h : ∀ call ∈ e.plainAggregates, ∀ x ∈ call.args, F x = G x) :
    e.mapAggregateArguments F = e.mapAggregateArguments G := by
  induction e using scopeInduction with
  | aggregate fn args distinct =>
    rw [mapAggregateArguments, mapAggregateArguments,
      List.map_congr_left (h ⟨fn, args, distinct⟩ (List.mem_singleton_self _))]
  | window function partitionBy orderBy frame ihFunction ihPartition ihOrder =>
    rw [plainAggregates_window] at h
    have within : ∀ d ∈ function.children ++ (partitionBy ++ orderBy),
        ∀ call ∈ d.plainAggregates, ∀ x ∈ call.args, F x = G x := fun d hd call hcall =>
      h call (List.mem_flatMap.2 ⟨d, hd, hcall⟩)
    rw [mapAggregateArguments_window, mapAggregateArguments_window,
      mapChildren_congr fun d hd => ihFunction d hd (within d (by simp [hd])),
      List.map_congr_left fun k hk => ihPartition k hk (within k (by simp [hk])),
      List.map_congr_left fun k hk => ihOrder k hk (within k (by simp [hk]))]
  | other e haggregate hwindow ih =>
    rw [mapAggregateArguments_eq haggregate hwindow, mapAggregateArguments_eq haggregate hwindow]
    rw [plainAggregates_eq haggregate hwindow] at h
    exact mapChildren_congr fun c hc => ih c hc fun call hcall =>
      h call (List.mem_flatMap.2 ⟨c, hc, hcall⟩)

@[simp] lemma mapAggregateArguments_id (e : Expr) : e.mapAggregateArguments (fun x => x) = e := by
  induction e using scopeInduction with
  | aggregate fn args distinct => rw [mapAggregateArguments, List.map_id']
  | window function partitionBy orderBy frame ihFunction ihPartition ihOrder =>
    rw [mapAggregateArguments_window, mapChildren_eq_self ihFunction,
      List.map_congr_left ihPartition, List.map_congr_left ihOrder, List.map_id', List.map_id']
  | other e haggregate hwindow ih =>
    rw [mapAggregateArguments_eq haggregate hwindow]
    exact mapChildren_eq_self ih

/-- Changing aggregate arguments twice is changing them once. -/
theorem mapAggregateArguments_mapAggregateArguments (F G : Expr → Expr) (e : Expr) :
    (e.mapAggregateArguments F).mapAggregateArguments G =
      e.mapAggregateArguments fun x => G (F x) := by
  induction e using scopeInduction with
  | aggregate fn args distinct =>
    rw [mapAggregateArguments_aggregate, mapAggregateArguments_aggregate, mapChildren,
      mapAggregateArguments, List.map_map]
    rfl
  | window function partitionBy orderBy frame ihFunction ihPartition ihOrder =>
    rw [mapAggregateArguments_window, mapAggregateArguments_window, mapAggregateArguments_window,
      mapChildren_mapChildren, mapChildren_congr ihFunction, List.map_map, List.map_map]
    congr 1
    · exact List.map_congr_left ihPartition
    · exact List.map_congr_left ihOrder
  | other e haggregate hwindow ih =>
    rw [mapAggregateArguments_eq haggregate hwindow,
      mapAggregateArguments_eq (aggregateCall?_mapChildren haggregate)
        ((isWindow_mapChildren _ _).trans hwindow),
      mapAggregateArguments_eq haggregate hwindow, mapChildren_mapChildren]
    exact mapChildren_congr ih

/-- A renaming that leaves the columns of a tree alone acts on the children as it acts on the
tree. -/
lemma replaceColumns_mapChildren {H : Expr → Expr} {e : Expr} (h : ∀ c ∈ e.columns, g c = none) :
    (e.mapChildren H).replaceColumns g = e.mapChildren fun d => (H d).replaceColumns g := by
  cases hcol : e.column? with
  | some c =>
    obtain rfl := column?_eq_some_iff.1 hcol
    have hc : g c = none := h c (mem_columns_iff.2 (self_mem_subterms _))
    simp [mapChildren, hc]
  | none =>
    have hcol' : (e.mapChildren H).column? = none := by
      rw [column?_mapChildren, hcol]
    rw [replaceColumns_eq_mapChildren hcol', mapChildren_mapChildren]

/-- A renaming that leaves the columns of a tree alone acts on what has been put inside aggregates
and nowhere else. -/
theorem replaceColumns_mapAggregateArguments {F : Expr → Expr} {e : Expr}
    (h : ∀ c ∈ e.columns, g c = none) :
    (e.mapAggregateArguments F).replaceColumns g =
      e.mapAggregateArguments fun x => (F x).replaceColumns g := by
  have below : ∀ {e c : Expr}, (∀ d ∈ e.columns, g d = none) → c ∈ e.children →
      ∀ d ∈ c.columns, g d = none := by
    intro e c h hc d hd
    refine h d ?_
    rw [columns_eq]
    exact List.mem_append_right _ (List.mem_flatMap.2 ⟨c, hc, hd⟩)
  induction e using scopeInduction with
  | aggregate fn args distinct =>
    rw [mapAggregateArguments_aggregate, mapAggregateArguments_aggregate]
    exact replaceColumns_mapChildren h
  | window function partitionBy orderBy frame ihFunction ihPartition ihOrder =>
    have hfunction := below (c := function) h (by simp [children])
    have renamed : ∀ f' p o, (window f' p o frame).replaceColumns g =
        window (f'.replaceColumns g) (p.map (replaceColumns g)) (o.map (replaceColumns g)) frame :=
      fun f' p o => replaceColumns_eq_mapChildren rfl
    rw [mapAggregateArguments_window, mapAggregateArguments_window, renamed,
      replaceColumns_mapChildren hfunction, List.map_map, List.map_map,
      mapChildren_congr fun d hd => ihFunction d hd (below hfunction hd)]
    congr 1
    · exact List.map_congr_left fun k hk => ihPartition k hk (below h (by simp [children, hk]))
    · exact List.map_congr_left fun k hk => ihOrder k hk (below h (by simp [children, hk]))
  | other e haggregate hwindow ih =>
    rw [mapAggregateArguments_eq haggregate hwindow, mapAggregateArguments_eq haggregate hwindow,
      replaceColumns_mapChildren h]
    exact mapChildren_congr fun c hc => ih c hc (below h hc)

/-! ## What is collected along a tree -/

section Collected

variable {α : Type} {own collected : Expr → List α}
  (collected_eq : ∀ e, collected e = own e ++ e.children.flatMap collected)
  (own_mapChildren : ∀ H e, own (e.mapChildren H) = own e)
include collected_eq own_mapChildren

lemma collected_mapChildren {H : Expr → Expr} {e : Expr}
    (h : ∀ c ∈ e.children, collected (H c) = collected c) :
    collected (e.mapChildren H) = collected e := by
  rw [collected_eq, collected_eq e, own_mapChildren, children_mapChildren, List.flatMap_map]
  exact congrArg _ (List.flatMap_congr h)

/-- What is collected along a tree stays, if it stays in the arguments of aggregates. -/
lemma collected_mapAggregateArguments
    (own_window : ∀ function partitionBy orderBy frame,
      own (window function partitionBy orderBy frame) = [])
    {F : Expr → Expr} (h : ∀ x, collected (F x) = collected x) (e : Expr) :
    collected (e.mapAggregateArguments F) = collected e := by
  induction e using scopeInduction with
  | aggregate fn args distinct =>
    rw [mapAggregateArguments_aggregate]
    exact collected_mapChildren collected_eq own_mapChildren fun x _ => h x
  | window function partitionBy orderBy frame ihFunction ihPartition ihOrder =>
    rw [mapAggregateArguments_window, collected_eq,
      collected_eq (window function partitionBy orderBy frame), own_window, own_window]
    simp only [children, List.flatMap_cons, List.flatMap_append, List.flatMap_map]
    rw [collected_mapChildren collected_eq own_mapChildren ihFunction,
      List.flatMap_congr ihPartition, List.flatMap_congr ihOrder]
  | other e haggregate hwindow ih =>
    rw [mapAggregateArguments_eq haggregate hwindow]
    exact collected_mapChildren collected_eq own_mapChildren ih

/-- What is collected along a tree stays, if columns are renamed and nothing is collected from
them. -/
lemma collected_replaceColumns (own_column : ∀ c, own (column c) = [])
    (f : Column → Option Column) (e : Expr) : collected (e.replaceColumns f) = collected e := by
  induction e using childrenInduction with
  | step e ih =>
    cases h : e.column? with
    | some c =>
      rw [column?_eq_some_iff.1 h, replaceColumns_column, collected_eq, collected_eq (column c),
        own_column, own_column]
      rfl
    | none =>
      rw [replaceColumns_eq_mapChildren h]
      exact collected_mapChildren collected_eq own_mapChildren ih

end Collected

/-! ## Plain columns -/

/-- The columns of a node over other children are its own, or they come with a child. -/
lemma mem_columns_mapChildren {H : Expr → Expr} {e : Expr} {c : Column}
    (h : c ∈ (e.mapChildren H).columns) : c ∈ e.columns ∨ ∃ d ∈ e.children, c ∈ (H d).columns := by
  rw [columns_eq, column?_mapChildren, children_mapChildren, List.flatMap_map] at h
  rcases List.mem_append.1 h with h | h
  · left
    rw [columns_eq]
    exact List.mem_append_left _ h
  · exact Or.inr (List.mem_flatMap.1 h)

/-- Inside aggregates a tree reads what has been put there, and elsewhere what it read before. -/
lemma mem_columns_mapAggregateArguments {F : Expr → Expr} {e : Expr} {c : Column}
    (h : c ∈ (e.mapAggregateArguments F).columns) :
    c ∈ e.columns ∨ ∃ x ∈ e.subterms, c ∈ (F x).columns := by
  have lift : ∀ {d e : Expr}, d ∈ e.subterms →
      (c ∈ d.columns ∨ ∃ x ∈ d.subterms, c ∈ (F x).columns) →
      c ∈ e.columns ∨ ∃ x ∈ e.subterms, c ∈ (F x).columns := by
    intro d e hd h
    rcases h with h | ⟨x, hx, h⟩
    · exact Or.inl (mem_columns_of_subterm h hd)
    · exact Or.inr ⟨x, subterms_trans hx hd, h⟩
  have child : ∀ {d e : Expr}, d ∈ e.children → d ∈ e.subterms := fun hd =>
    mem_subterms_of_child hd (self_mem_subterms _)
  induction e using scopeInduction with
  | aggregate fn args distinct =>
    rw [mapAggregateArguments_aggregate] at h
    exact (mem_columns_mapChildren h).imp_right fun ⟨d, hd, hcd⟩ => ⟨d, child hd, hcd⟩
  | window function partitionBy orderBy frame ihFunction ihPartition ihOrder =>
    rw [mapAggregateArguments_window, columns_eq] at h
    simp only [column?, Option.toList_none, List.nil_append, children, List.flatMap_cons,
      List.flatMap_append, List.flatMap_map, List.mem_append, List.mem_flatMap] at h
    have hfunction : function ∈ (window function partitionBy orderBy frame).subterms :=
      child (by simp [children])
    rcases h with h | ⟨k, hk, h⟩ | ⟨k, hk, h⟩
    · rcases mem_columns_mapChildren h with h | ⟨d, hd, h⟩
      · exact lift hfunction (Or.inl h)
      · exact lift (subterms_trans (child hd) hfunction) (ihFunction d hd h)
    · exact lift (child (by simp [children, hk])) (ihPartition k hk h)
    · exact lift (child (by simp [children, hk])) (ihOrder k hk h)
  | other e haggregate hwindow ih =>
    rw [mapAggregateArguments_eq haggregate hwindow] at h
    rcases mem_columns_mapChildren h with h | ⟨d, hd, h⟩
    · exact Or.inl h
    · exact lift (child hd) (ih d hd h)

/-- A selection of columns stays, if it stays in the arguments of aggregates. -/
lemma filter_columns_mapAggregateArguments {keep : Column → Bool} {F : Expr → Expr}
    (h : ∀ x, (F x).columns.filter keep = x.columns.filter keep) (e : Expr) :
    (e.mapAggregateArguments F).columns.filter keep = e.columns.filter keep := by
  have columns_filter (e : Expr) : e.columns.filter keep =
      e.column?.toList.filter keep ++ e.children.flatMap fun d => d.columns.filter keep := by
    rw [columns_eq, List.filter_append, List.filter_flatMap]
  exact collected_mapAggregateArguments columns_filter
    (fun H e => by rw [column?_mapChildren]) (fun _ _ _ _ => rfl) h e

/-! ## Virtual columns -/

/-- The virtual columns of a tree, in pre-order and with repetitions. -/
def virtuals (e : Expr) : List VirtualColumn := e.subterms.filterMap virtual?

lemma mem_virtuals_iff {e : Expr} {v : VirtualColumn} : v ∈ e.virtuals ↔ v.toExpr ∈ e.subterms := by
  rw [virtuals, List.mem_filterMap]
  constructor
  · rintro ⟨t, ht, hv⟩
    rwa [← virtual?_eq_some_iff.1 hv]
  · intro h
    exact ⟨_, h, virtual?_toExpr v⟩

lemma mem_virtuals_of_subterm {v : VirtualColumn} {t e : Expr} (hv : v ∈ t.virtuals)
    (ht : t ∈ e.subterms) : v ∈ e.virtuals :=
  mem_virtuals_iff.2 (subterms_trans (mem_virtuals_iff.1 hv) ht)

lemma virtuals_eq (e : Expr) : e.virtuals = e.virtual?.toList ++ e.children.flatMap virtuals := by
  rw [virtuals, subterms_eq]
  cases h : e.virtual? <;> simp only [h, List.filterMap_cons, List.filterMap_flatMap] <;> rfl

/-- Renaming columns leaves virtual columns alone, with all that is recorded in them. -/
theorem virtuals_replaceColumns (f : Column → Option Column) (e : Expr) :
    (e.replaceColumns f).virtuals = e.virtuals :=
  collected_replaceColumns virtuals_eq (fun H e => by rw [virtual?_mapChildren])
    (fun _ => rfl) f e

theorem virtuals_mapAggregateArguments {F : Expr → Expr} (h : ∀ x, (F x).virtuals = x.virtuals)
    (e : Expr) : (e.mapAggregateArguments F).virtuals = e.virtuals :=
  collected_mapAggregateArguments virtuals_eq (fun H e => by rw [virtual?_mapChildren])
    (fun _ _ _ _ => rfl) h e

/-! ## Ids of aliases -/

/-- The ids of the aliases in a tree, in pre-order and with repetitions. -/
def aliasIds (e : Expr) : List ColumnId := e.subterms.filterMap fun t => t.alias?.map (·.id)

lemma aliasIds_eq (e : Expr) :
    e.aliasIds = (e.alias?.map (·.id)).toList ++ e.children.flatMap aliasIds := by
  rw [aliasIds, subterms_eq]
  cases h : e.alias? <;> simp only [h, Option.map_none, Option.map_some, List.filterMap_cons,
    List.filterMap_flatMap] <;> rfl

lemma id_alias?_mapChildren (H : Expr → Expr) (e : Expr) :
    (e.mapChildren H).alias?.map (·.id) = e.alias?.map (·.id) := by
  cases e <;> rfl

/-- Renaming inside aggregates leaves the ids of aliases alone. -/
lemma aliasIds_renamed (f : Column → Option Column) (e : Expr) :
    (e.mapAggregateArguments (replaceColumns f)).aliasIds = e.aliasIds :=
  have own (H : Expr → Expr) (e : Expr) : ((e.mapChildren H).alias?.map (·.id)).toList =
      (e.alias?.map (·.id)).toList := by rw [id_alias?_mapChildren]
  collected_mapAggregateArguments aliasIds_eq own (fun _ _ _ _ => rfl)
    (collected_replaceColumns aliasIds_eq own (fun _ => rfl) f) e

end Expr
end GroupingPlanner

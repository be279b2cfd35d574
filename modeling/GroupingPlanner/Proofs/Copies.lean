import GroupingPlanner.Proofs.Below
import GroupingPlanner.Proofs.GroupingValues
/-!
# What the copies of a row hold

An execution of a lowered repetition copies every row below it once per grouping set.  Nothing of
the stack has to be known to say what such a copy holds: it is determined by the grouping set of
the query and by the row of the child that the copied row was made from.

* `Repetition.copyRow_column`, `Repetition.copyRow_virtual`: the values of a copy, column by column.
* `Stacked.CopyOf`, `Stacked.copyOf_copyRow`: what a copy holds, in terms of the query.
-/

namespace GroupingPlanner

/-! ## Copies, column by column -/

namespace Repetition

variable {V : Type} {I : Interpretation V} {r : Repetition} {cols : List Column}
  {vs : List VirtualColumn}
  (houtput : r.output = cols.map Expr.column ++ vs.map VirtualColumn.toExpr)
include houtput

/-- A plain column is copied, or it is null. -/
lemma copyRow_column {c : Column} (hc : ∃ c' ∈ cols, c'.id = c.id) (set : List Expr) (k : Nat)
    (row : Row V) : r.copyRow I set k row c.id =
      if r.setColumns.contains c && !(set.flatMap Expr.columns).contains c then I.null
      else row c.id := by
  have found : ∃ c' ∈ cols, c'.id = c.id ∧
      r.output.find? (fun e => e.produced?.any (·.id == c.id)) = some (.column c') := by
    obtain ⟨c', hc', hid⟩ := hc
    have hsome : (cols.find? fun c' => c'.id == c.id).isSome :=
      List.find?_isSome.2 ⟨c', hc', beq_iff_eq.2 hid⟩
    obtain ⟨c₀, hc₀⟩ := Option.isSome_iff_exists.1 hsome
    have hid₀ : c₀.id = c.id := by simpa using List.find?_some hc₀
    refine ⟨c₀, List.mem_of_find?_eq_some hc₀, hid₀, ?_⟩
    rw [houtput, List.find?_append, List.find?_map]
    have same : ((fun e : Expr => e.produced?.any (·.id == c.id)) ∘ Expr.column) =
        fun c' => c'.id == c.id := by
      funext c'
      rfl
    rw [same, hc₀]
    simp
  obtain ⟨c', -, hid, hfind⟩ := found
  have hbeq : c' == c := (Column.beq_iff _ _).2 hid
  have hset : (set.flatMap Expr.columns).contains c' = (set.flatMap Expr.columns).contains c := by
    rw [Bool.eq_iff_iff, List.contains_iff_exists_mem_beq, List.contains_iff_exists_mem_beq]
    exact ⟨fun ⟨y, hy, hyc⟩ => ⟨y, hy, BEq.trans (BEq.symm hbeq) hyc⟩,
      fun ⟨y, hy, hyc⟩ => ⟨y, hy, BEq.trans hbeq hyc⟩⟩
  simp only [copyRow, hfind]
  rw [Roster.contains_congr _ hbeq, hset]

/-- The first virtual column with its id has the value computed for the grouping set. -/
lemma copyRow_virtual_of_first {v : VirtualColumn}
    (first : vs.find? (fun w => w.column.id == v.column.id) = some v)
    (apart : ∀ c ∈ cols, c.id ≠ v.column.id) (set : List Expr) (k : Nat) (row : Row V) :
    r.copyRow I set k row v.column.id = I.mask ((r.virtualValues v).getD k 0) := by
  have hfind : r.output.find? (fun e => e.produced?.any (·.id == v.column.id)) =
      some v.toExpr := by
    have no_column : (cols.map Expr.column).find? (fun e => e.produced?.any (·.id == v.column.id))
        = none := by
      apply List.find?_eq_none.2
      intro e he
      obtain ⟨c, hc, rfl⟩ := List.mem_map.1 he
      simpa [Expr.produced?] using apart c hc
    have same : ((fun e : Expr => e.produced?.any (·.id == v.column.id)) ∘ VirtualColumn.toExpr) =
        fun w => w.column.id == v.column.id := by
      funext w
      rw [Function.comp_apply, VirtualColumn.produced?_toExpr]
      simp
    rw [houtput, List.find?_append, no_column, List.find?_map, same, first]
    simp
  rw [copyRow, hfind]
  obtain ⟨c, _ | call⟩ := v <;> rfl

/-- A virtual column has the value computed for the grouping set. -/
lemma copyRow_virtual {v : VirtualColumn} (hv : v ∈ vs) (apart : ∀ c ∈ cols, c.id ≠ v.column.id)
    (unique : ∀ w ∈ vs, w.column.id = v.column.id → w = v) (set : List Expr) (k : Nat)
    (row : Row V) : r.copyRow I set k row v.column.id = I.mask ((r.virtualValues v).getD k 0) := by
  obtain ⟨w, hw⟩ := Option.isSome_iff_exists.1 <|
    List.find?_isSome (p := fun w => w.column.id == v.column.id).2 ⟨v, hv, beq_iff_eq.2 rfl⟩
  obtain rfl := unique w (List.mem_of_find?_eq_some hw) (by simpa using List.find?_some hw)
  exact copyRow_virtual_of_first houtput hw apart set k row

end Repetition

/-! ## Columns in the place of expressions -/

namespace Repetition.Hygienic

variable {r : Repetition} {next : Nat} (h : r.Hygienic next)
include h

/-- A bound column occurs in substituted expressions exactly if its expression is among them. -/
lemma contains_columns_substitute (x : Stacked r next) {es : List Expr}
    (hes : ∀ e ∈ es, e ∈ r.sets.flatten) {b : Binding} (hb : b ∈ (r.bindingsAt next).toList) :
    ((es.map (r.bindingsAt next).substitute).flatMap Expr.columns).contains b.column =
      es.contains b.source := by
  rw [Bool.eq_iff_iff, List.contains_iff_exists_mem_beq, List.contains_iff_exists_mem_beq,
    List.flatMap_map]
  constructor
  · rintro ⟨c, hc, hbeq⟩
    obtain ⟨e, he, hce⟩ := List.mem_flatMap.1 hc
    obtain ⟨b', hget, hsub⟩ := x.item_bound (hes e he)
    rw [hsub, Expr.columns_column] at hce
    obtain rfl := List.mem_singleton.1 hce
    obtain ⟨hb', hsource⟩ := Bindings.get?_eq_some hget
    rw [Column.beq_iff, Binding.id_column, Binding.id_column] at hbeq
    exact ⟨e, he, BEq.trans (h.source_beq_source hb hb' hbeq) (BEq.symm hsource)⟩
  · rintro ⟨e, he, hbeq⟩
    obtain ⟨b', hget, hsub⟩ := x.item_bound (hes e he)
    obtain ⟨hb', hsource⟩ := Bindings.get?_eq_some hget
    refine ⟨b'.column, List.mem_flatMap.2 ⟨e, he, ?_⟩, ?_⟩
    · rw [hsub]
      exact Expr.mem_columns_iff.2 (Expr.self_mem_subterms _)
    · rw [Repetition.eq_of_source_beq hb hb' (BEq.trans hbeq hsource)]
      exact BEq.rfl

lemma contains_setColumns_binding (x : Stacked r next) {b : Binding}
    (hb : b ∈ (r.bindingsAt next).toList) :
    x.repetition.setColumns.contains b.column = r.items.contains b.source := by
  rw [Repetition.setColumns, Roster.contains_ofList, x.flatten_sets,
    h.contains_columns_substitute x (fun _ he => he) hb, Repetition.items, Roster.contains_ofList]

end Repetition.Hygienic

/-! ## What a copy holds -/

namespace Stacked

variable {V : Type} {I : Interpretation V} {r r' : Repetition} {next : Nat} (x : Stacked r next)
  {a : Aggregation} {ds : List Duplicate}

/-- What the copy of a row for a grouping set holds: `row` is the row of the child. -/
structure CopyOf (I : Interpretation V) (ds : List Duplicate) (set : List Expr)
    (row copy : Row V) : Prop where
  /-- A bound column has the value of its expression, or it is null, if the expression is one of
  the grouping sets but not of this one. -/
  bound : ∀ b ∈ (r.bindingsAt next).toList, (∃ c ∈ x.readColumns, c.id = b.column.id) →
    copy b.column.id = if r.items.contains b.source && !set.contains b.source then I.null
      else b.source.value I I.noCalls row
  /-- Any other column is handed on. -/
  handed : ∀ c ∈ x.substituted.otherColumns.toList,
    (∀ b ∈ (r.bindingsAt next).toList, b.column.id ≠ c.id) → copy c.id = row c.id
  /-- A duplicate is never null. -/
  duplicate : ∀ d ∈ ds, ∀ b ∈ (r.bindingsAt next).toList, b.column.id = d.column.id →
    copy d.copy.id = b.source.value I I.noCalls row
  /-- The column of a grouping call has the mask of the set for it. -/
  call : ∀ v ∈ x.substituted.virtualColumns x.groupingId, ∀ call : GroupingCall,
    (∀ e ∈ call.args, r.early.contains e) → v.isFor ((r.bindingsAt next).signature call) →
    copy v.column.id = I.mask (absenceMask set call.args)
  /-- The grouping id is the mask of the set for all expressions of the sets. -/
  groupingId : copy x.groupingId.column.id = I.mask (absenceMask set r.items.toList)

end Stacked

namespace Stacked

variable {V : Type} {I : Interpretation V} {r r' : Repetition} {next : Nat} (x : Stacked r next)
  (h : r.Hygienic next) {a : Aggregation} {ds : List Duplicate}
  (promise : Separation x.aggregation a x.repetition r' ds x.nextId)
include h promise

/-- A duplicate is not grouped by. -/
lemma not_grouped_of_duplicate {d : Duplicate} (hd : d ∈ ds) :
    x.repetition.setColumns.contains d.copy = false := by
  by_contra hkey
  rw [Bool.not_eq_false, x.setColumns_eq] at hkey
  obtain ⟨c, hc, hbeq⟩ := (Roster.contains_iff _ _).1 hkey
  have hlt := x.number_lt_of_keyColumn h.below hc
  have hle := Duplicate.le_number_copy promise.fresh hd
  have hfirst := x.firstCall_le_nextId
  rw [(Column.beq_iff _ _).1 hbeq] at hle
  omega

/-- The copy that an execution makes for a grouping set holds what a copy should hold. -/
theorem copyOf_copyRow {set : List Expr} {k : Nat} (hset : (set, k) ∈ r.sets.zipIdx)
    {row row' : Row V} (below : x.RowBelow I ds row row') :
    x.CopyOf I ds set row
      (r'.copyRow I (set.map (r.bindingsAt next).substitute) k row') := by
  have hmem : set ∈ r.sets := List.fst_mem_of_mem_zipIdx hset
  have items : ∀ e ∈ set, e ∈ r.sets.flatten := fun e he => List.mem_flatten.2 ⟨set, hmem, he⟩
  have setColumns_eq : r'.setColumns = x.repetition.setColumns := by
    rw [Repetition.setColumns, Repetition.setColumns, promise.sets]
  have value : ∀ c : Column, (∃ c' ∈ x.readColumns ++ ds.map (·.copy), c'.id = c.id) →
      r'.copyRow I (set.map (r.bindingsAt next).substitute) k row' c.id =
        if x.repetition.setColumns.contains c &&
          !((set.map (r.bindingsAt next).substitute).flatMap Expr.columns).contains c then I.null
        else row' c.id := by
    intro c hc
    rw [Repetition.copyRow_column promise.output_eq hc, setColumns_eq]
  have mask : ∀ v ∈ x.substituted.virtualColumns x.groupingId,
      r'.copyRow I (set.map (r.bindingsAt next).substitute) k row' v.column.id =
        I.mask ((r'.virtualValues v).getD k 0) := by
    intro v hv
    have fresh : ∀ c ∈ ds.map (·.copy), x.nextId ≤ c.id.number := by
      intro c hc
      obtain ⟨d, hd, rfl⟩ := List.mem_map.1 hc
      exact Duplicate.le_number_copy promise.fresh hd
    refine Repetition.copyRow_virtual promise.output_eq hv
      (x.id_ne_of_virtualColumn h.no_virtual h.below fresh hv) (fun w hw hid => ?_) _ _ _
    exact x.eq_of_virtualColumn_id h.no_virtual hw hv hid
  have at_set : ∀ f : List Expr → UInt64, (r.sets.map f).getD k 0 = f set := by
    intro f
    obtain ⟨hk, hget⟩ := List.mem_zipIdx' hset
    rw [List.getD_eq_getElem?_getD, List.getElem?_map, List.getElem?_eq_getElem hk, ← hget]
    rfl
  constructor
  case bound =>
    intro b hb hread
    obtain ⟨c, hc, hid⟩ := hread
    rw [value b.column ⟨c, List.mem_append_left _ hc, hid⟩, h.contains_setColumns_binding x hb,
      h.contains_columns_substitute x items hb, below.bound b hb]
  case handed =>
    intro c hc unbound
    rw [value c ⟨c, List.mem_append_left _ (List.mem_append_right _ hc), rfl⟩,
      x.not_grouped_of_unbound unbound, below.handed c hc unbound]
    rfl
  case duplicate =>
    intro d hd b hb hid
    rw [value d.copy ⟨d.copy, List.mem_append_right _ (List.mem_map_of_mem hd), rfl⟩,
      x.not_grouped_of_duplicate h promise hd, below.duplicate d hd, ← hid, below.bound b hb]
    rfl
  case call =>
    intro v hv call hargs hfor
    rw [mask v hv]
    obtain ⟨c, _ | call'⟩ := v
    · cases hfor
    · show I.mask ((r'.callValues call').getD k 0) = I.mask (absenceMask set call.args)
      rw [h.callValues_eq x promise.sets hargs hfor, Repetition.callValues, at_set]
  case groupingId =>
    have hgid : x.groupingId ∈ x.substituted.virtualColumns x.groupingId := List.mem_cons_self
    have hvalues : r'.virtualValues x.groupingId = r'.groupingIds := by
      rw [x.groupingId_eq h.no_virtual]
      rfl
    rw [mask _ hgid, hvalues, h.groupingIds_eq x promise.sets, Repetition.groupingIds, at_set]

end Stacked
end GroupingPlanner

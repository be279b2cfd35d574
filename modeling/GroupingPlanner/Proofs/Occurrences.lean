import GroupingPlanner.Plan.Basic
import Mathlib.Tactic
/-!
# Where columns and ids occur

Passes take ids that nobody uses yet.  What "nobody" means is fixed here: the ids of a tree are
those that its nodes carry (columns, virtual columns and aliases), and the ids of a plan are those
of all its expressions and of the columns its scans expose.

* `Expr.ids`, `Plan.ids`, `Plan.IdsBelow`: the ids in use.
* `Expr.mem_subterms_iff`, `Expr.subterms_trans`: the nodes of a tree, through children.
* `Expr.mem_nodesUntil_of_mem_subterms`, `Expr.nodesUntil_congr`: which of them a walk visits.
* `Expr.mapChildren_beq`: changing the children of a node into equal ones.
* `Expr.deepInduction`: induction where the claim may be assumed of children and of theirs.
* `Expr.scopeInduction`: induction where aggregates, windows and other nodes are told apart.
* `Expr.mem_subterms_of_mem_plainAggregates`: aggregates over a group are nodes.
-/

namespace GroupingPlanner
namespace Expr

/-! ## Nodes and columns -/

lemma mem_subterms_iff {t e : Expr} :
    t ∈ e.subterms ↔ t = e ∨ ∃ c ∈ e.children, t ∈ c.subterms := by
  rw [subterms_eq, List.mem_cons, List.mem_flatMap]

lemma mem_subterms_of_child {t c e : Expr} (hc : c ∈ e.children) (ht : t ∈ c.subterms) :
    t ∈ e.subterms :=
  mem_subterms_iff.2 (Or.inr ⟨c, hc, ht⟩)

/-- The nodes of a node are nodes of the tree. -/
lemma subterms_trans {s t e : Expr} (hs : s ∈ t.subterms) (ht : t ∈ e.subterms) :
    s ∈ e.subterms := by
  induction e using childrenInduction with
  | step e ih =>
    rcases mem_subterms_iff.1 ht with rfl | ⟨c, hc, htc⟩
    · exact hs
    · exact mem_subterms_of_child hc (ih c hc htc)

lemma mem_subterms_of_mem_nodesUntil {stop : Expr → Bool} {n e : Expr}
    (h : n ∈ e.nodesUntil stop) : n ∈ e.subterms := by
  induction e using childrenInduction with
  | step e ih =>
    rw [nodesUntil_eq] at h
    rcases List.mem_cons.1 h with rfl | h
    · exact n.self_mem_subterms
    · split at h
      · exact absurd h List.not_mem_nil
      · obtain ⟨c, hc, hn⟩ := List.mem_flatMap.1 h
        exact mem_subterms_of_child hc (ih c hc hn)

/-- Where a walk does not stop it goes on to the children. -/
lemma mem_nodesUntil_of_child {stop : Expr → Bool} {c n e : Expr} (hn : n ∈ e.nodesUntil stop)
    (hstop : stop n = false) (hc : c ∈ n.children) : c ∈ e.nodesUntil stop := by
  induction e using childrenInduction with
  | step e ih =>
    rw [nodesUntil_eq] at hn ⊢
    by_cases hself : n = e
    · subst hself
      rw [hstop]
      refine List.mem_cons_of_mem _ (List.mem_flatMap.2 ⟨c, hc, ?_⟩)
      rw [nodesUntil_eq]
      exact List.mem_cons_self
    · have hbelow := (List.mem_cons.1 hn).resolve_left hself
      by_cases hse : stop e
      · rw [if_pos hse] at hbelow
        exact absurd hbelow List.not_mem_nil
      · rw [if_neg hse] at hbelow ⊢
        obtain ⟨d, hd, hnd⟩ := List.mem_flatMap.1 hbelow
        exact List.mem_cons_of_mem _ (List.mem_flatMap.2 ⟨d, hd, ih d hd hnd⟩)

/-- A walk visits every node that stands in none at which it stops. -/
lemma mem_nodesUntil_of_mem_subterms {stop : Expr → Bool} {t e : Expr} (ht : t ∈ e.subterms)
    (free : ∀ n ∈ e.subterms, stop n = true → t ∉ n.subterms) : t ∈ e.nodesUntil stop := by
  induction e using childrenInduction with
  | step e ih =>
    rw [nodesUntil_eq]
    rcases mem_subterms_iff.1 ht with rfl | ⟨c, hc, htc⟩
    · exact List.mem_cons_self
    · cases hstop : stop e with
      | true => exact absurd ht (free e e.self_mem_subterms hstop)
      | false =>
        refine List.mem_cons_of_mem _ (List.mem_flatMap.2 ⟨c, hc, ih c hc htc fun n hn => ?_⟩)
        exact free n (mem_subterms_of_child hc hn)

/-- Walks that stop at the same nodes are the same. -/
lemma nodesUntil_congr {stop stop' : Expr → Bool} {e : Expr}
    (h : ∀ n ∈ e.nodesUntil stop, stop' n = stop n) : e.nodesUntil stop' = e.nodesUntil stop := by
  induction e using childrenInduction with
  | step e ih =>
    rw [nodesUntil_eq] at h
    rw [nodesUntil_eq, nodesUntil_eq, h e List.mem_cons_self]
    cases hstop : stop e with
    | true => rfl
    | false =>
      have below : ∀ c ∈ e.children, c.nodesUntil stop' = c.nodesUntil stop := by
        intro c hc
        refine ih c hc fun n hn => h n ?_
        rw [hstop]
        exact List.mem_cons_of_mem _ (List.mem_flatMap.2 ⟨c, hc, hn⟩)
      simp only [Bool.false_eq_true, if_false]
      rw [List.flatMap_congr below]

@[simp] lemma column?_eq_some_iff {e : Expr} {c : Column} : e.column? = some c ↔ e = column c := by
  cases e <;> simp [column?]

lemma groupingCall?_eq_some_iff {e : Expr} {call : GroupingCall} :
    e.groupingCall? = some call ↔ e = call.toExpr := by
  constructor
  · intro h
    cases e <;> cases h
    rfl
  · rintro rfl
    rfl

lemma alias?_eq_some_iff {e : Expr} {a : Alias} : e.alias? = some a ↔ e = a.toExpr := by
  constructor
  · intro h
    cases e <;> cases h
    rfl
  · rintro rfl
    rfl

lemma virtual?_eq_some_iff {e : Expr} {v : VirtualColumn} : e.virtual? = some v ↔ e = v.toExpr := by
  constructor
  · intro h
    cases e <;> cases h <;> rfl
  · rintro rfl
    exact virtual?_toExpr v

@[simp] lemma subterms_column (c : Column) : (column c).subterms = [column c] := rfl

@[simp] lemma subterms_virtual (v : VirtualColumn) : v.toExpr.subterms = [v.toExpr] := by
  obtain ⟨c, _ | call⟩ := v <;> rfl

lemma mem_columns_iff {e : Expr} {c : Column} : c ∈ e.columns ↔ column c ∈ e.subterms := by
  simp [columns, List.mem_filterMap]

lemma columns_eq (e : Expr) : e.columns = e.column?.toList ++ e.children.flatMap columns := by
  rw [columns, subterms_eq]
  cases h : e.column? <;> simp only [h, List.filterMap_cons, List.filterMap_flatMap] <;> rfl

@[simp] lemma columns_column (c : Column) : (column c).columns = [c] := by
  simp [columns_eq, column?, children]

@[simp] lemma columns_virtual (v : VirtualColumn) : v.toExpr.columns = [] := by
  obtain ⟨c, _ | call⟩ := v <;> simp [VirtualColumn.toExpr, columns_eq, column?, children]

lemma mem_columns_of_subterm {c : Column} {t e : Expr} (hc : c ∈ t.columns)
    (ht : t ∈ e.subterms) : c ∈ e.columns :=
  mem_columns_iff.2 (subterms_trans (mem_columns_iff.1 hc) ht)

/-! ## Ids -/

/-- The ids that the nodes of a tree carry. -/
def ids (e : Expr) : List ColumnId := e.subterms.filterMap fun t => t.produced?.map (·.id)

lemma mem_ids_iff {e : Expr} {i : ColumnId} :
    i ∈ e.ids ↔ ∃ t ∈ e.subterms, ∃ c, t.produced? = some c ∧ c.id = i := by
  simp [ids, List.mem_filterMap]

lemma id_mem_ids_of_mem_columns {e : Expr} {c : Column} (h : c ∈ e.columns) : c.id ∈ e.ids :=
  mem_ids_iff.2 ⟨_, mem_columns_iff.1 h, c, rfl, rfl⟩

lemma mem_ids_of_subterm {t e : Expr} {i : ColumnId} (ht : t ∈ e.subterms) (hi : i ∈ t.ids) :
    i ∈ e.ids := by
  obtain ⟨s, hs, c, hc⟩ := mem_ids_iff.1 hi
  exact mem_ids_iff.2 ⟨s, subterms_trans hs ht, c, hc⟩

/-! ## Changing children -/

@[simp] lemma skeletons_eq_map (es : List Expr) : skeletons es = es.map skeleton := by
  induction es with
  | nil => rfl
  | cons e es ih => rw [skeletons, ih, List.map_cons]

lemma children_skeleton (e : Expr) : e.skeleton.children = e.children.map skeleton := by
  cases e <;> simp [skeleton, children]

lemma subterms_skeleton (e : Expr) : e.skeleton.subterms = e.subterms.map skeleton := by
  induction e using childrenInduction with
  | step e ih =>
    rw [subterms_eq, subterms_eq, children_skeleton, List.flatMap_map, List.map_cons,
      List.map_flatMap, List.flatMap_congr ih]

/-- Equal trees have equal nodes. -/
lemma exists_subterm_beq {e e' t : Expr} (h : e == e') (ht : t ∈ e.subterms) :
    ∃ t' ∈ e'.subterms, t == t' := by
  have hmem : t.skeleton ∈ e'.subterms.map skeleton := by
    rw [← subterms_skeleton, ← (beq_iff _ _).1 h, subterms_skeleton]
    exact List.mem_map_of_mem ht
  obtain ⟨t', ht', hskeleton⟩ := List.mem_map.1 hmem
  exact ⟨t', ht', (beq_iff _ _).2 hskeleton.symm⟩

lemma isSome_groupingCall?_congr {e e' : Expr} (h : e == e') :
    e.groupingCall?.isSome = e'.groupingCall?.isSome := by
  replace h : e.same e' = true := h
  cases e <;> cases e' <;> simp_all [same, groupingCall?]

@[simp] lemma column?_mapChildren (f : Expr → Expr) (e : Expr) :
    (e.mapChildren f).column? = e.column? := by
  cases e <;> rfl

@[simp] lemma virtual?_mapChildren (f : Expr → Expr) (e : Expr) :
    (e.mapChildren f).virtual? = e.virtual? := by
  cases e <;> rfl

lemma groupingCall?_mapChildren {f : Expr → Expr} {e : Expr} (h : e.groupingCall? = none) :
    (e.mapChildren f).groupingCall? = none := by
  cases e <;> first | rfl | cases h

lemma mapChildren_mapChildren (f g : Expr → Expr) (e : Expr) :
    (e.mapChildren f).mapChildren g = e.mapChildren fun c => g (f c) := by
  cases e <;> simp [mapChildren]

/-- Equal children make equal nodes. -/
lemma mapChildren_beq_mapChildren {f g : Expr → Expr} {e : Expr}
    (h : ∀ c ∈ e.children, f c == g c) : e.mapChildren f == e.mapChildren g := by
  rw [beq_iff]
  replace h : ∀ c ∈ e.children, (f c).skeleton = (g c).skeleton :=
    fun c hc => (beq_iff _ _).1 (h c hc)
  cases e <;> simp_all [mapChildren, children, skeleton]

lemma mapChildren_beq {f : Expr → Expr} {e : Expr} (h : ∀ c ∈ e.children, f c == c) :
    e.mapChildren f == e := by
  have same : e.mapChildren (fun c => c) = e := mapChildren_eq_self fun _ _ => rfl
  have congr : e.mapChildren f == e.mapChildren fun c => c := mapChildren_beq_mapChildren h
  rwa [same] at congr

/-- A claim holds of every expression if it holds of each node as soon as it holds of its children
and of their children.  The function of a window is looked at only through its children. -/
theorem deepInduction {motive : Expr → Prop}
    (step : ∀ e : Expr, (∀ c ∈ e.children, motive c) →
      (∀ c ∈ e.children, ∀ d ∈ c.children, motive d) → motive e) (e : Expr) : motive e := by
  have both : motive e ∧ ∀ c ∈ e.children, motive c := by
    induction e using childrenInduction with
    | step e ih =>
      have below : ∀ c ∈ e.children, motive c := fun c hc => (ih c hc).1
      exact ⟨step e below fun c hc => (ih c hc).2, below⟩
  exact both.1

/-! ## Aggregates, windows and other nodes -/

/-- The aggregate call at the root, if there is one. -/
def aggregateCall? : Expr → Option AggregateCall
  | aggregate fn args distinct => some ⟨fn, args, distinct⟩
  | _ => none

/-- Whether there is a window at the root. -/
def isWindow : Expr → Bool
  | window .. => true
  | _ => false

lemma aggregateCall?_eq_some_iff {e : Expr} {call : AggregateCall} :
    e.aggregateCall? = some call ↔ e = call.toExpr := by
  constructor
  · intro h
    cases e <;> cases h
    rfl
  · rintro rfl
    rfl

lemma aggregateCall?_mapChildren {f : Expr → Expr} {e : Expr} (h : e.aggregateCall? = none) :
    (e.mapChildren f).aggregateCall? = none := by
  cases e <;> first | rfl | cases h

lemma isWindow_mapChildren (f : Expr → Expr) (e : Expr) :
    (e.mapChildren f).isWindow = e.isWindow := by
  cases e <;> rfl

lemma plainAggregates_eq {e : Expr} (haggregate : e.aggregateCall? = none)
    (hwindow : e.isWindow = false) : e.plainAggregates = e.children.flatMap plainAggregates := by
  cases e with
  | aggregate => cases haggregate
  | window => cases hwindow
  | _ => simp [plainAggregates, children]

lemma mapAggregateArguments_eq {f : Expr → Expr} {e : Expr} (haggregate : e.aggregateCall? = none)
    (hwindow : e.isWindow = false) :
    e.mapAggregateArguments f = e.mapChildren (mapAggregateArguments f) := by
  cases e with
  | aggregate => cases haggregate
  | window => cases hwindow
  | _ => simp [mapAggregateArguments, mapChildren]

/-- Induction along the scope of aggregates over a group: nothing is assumed of the arguments of an
aggregate, the function of a window is looked at only through its children, and of any other node
all children are. -/
theorem scopeInduction {motive : Expr → Prop}
    (aggregate : ∀ fn args distinct, motive (aggregate fn args distinct))
    (window : ∀ function partitionBy orderBy frame, (∀ d ∈ function.children, motive d) →
      (∀ k ∈ partitionBy, motive k) → (∀ k ∈ orderBy, motive k) →
        motive (window function partitionBy orderBy frame))
    (other : ∀ e : Expr, e.aggregateCall? = none → e.isWindow = false →
      (∀ c ∈ e.children, motive c) → motive e) (e : Expr) : motive e := by
  induction e using deepInduction with
  | step e ih ih₂ =>
    cases e with
    | aggregate fn args distinct => exact aggregate fn args distinct
    | window function partitionBy orderBy frame =>
      refine window function partitionBy orderBy frame (ih₂ function (by simp [children]))
        (fun k hk => ih k ?_) fun k hk => ih k ?_
      · simp [children, hk]
      · simp [children, hk]
    | _ => exact other _ rfl rfl ih

/-- The aggregates over a group are nodes of the tree. -/
lemma mem_subterms_of_mem_plainAggregates {call : AggregateCall} {e : Expr}
    (h : call ∈ e.plainAggregates) : call.toExpr ∈ e.subterms := by
  induction e using scopeInduction with
  | aggregate fn args distinct =>
    rw [plainAggregates, List.mem_singleton] at h
    rw [h]
    exact self_mem_subterms _
  | window function partitionBy orderBy frame ihFunction ihPartition ihOrder =>
    simp only [plainAggregates, plainAggregatesOfAll_eq_flatMap, plainAggregatesBelow_eq,
      List.mem_append, List.mem_flatMap] at h
    rcases h with ⟨d, hd, hcall⟩ | ⟨k, hk, hcall⟩ | ⟨k, hk, hcall⟩
    · refine mem_subterms_of_child ?_ (mem_subterms_of_child hd (ihFunction d hd hcall))
      simp [children]
    · refine mem_subterms_of_child ?_ (ihPartition k hk hcall)
      simp [children, hk]
    · refine mem_subterms_of_child ?_ (ihOrder k hk hcall)
      simp [children, hk]
  | other e haggregate hwindow ih =>
    rw [plainAggregates_eq haggregate hwindow] at h
    obtain ⟨c, hc, hcall⟩ := List.mem_flatMap.1 h
    exact mem_subterms_of_child hc (ih c hc hcall)

lemma mem_subterms_of_mem_args {call : AggregateCall} {e x : Expr} (h : call ∈ e.plainAggregates)
    (hx : x ∈ call.args) : x ∈ e.subterms :=
  subterms_trans (mem_subterms_of_child hx (self_mem_subterms x))
    (mem_subterms_of_mem_plainAggregates h)

end Expr

/-- Changing the entries of a list into equal ones. -/
lemma map_beq_self {α : Type} [BEq α] {f : α → α} {xs : List α} (h : ∀ x ∈ xs, f x == x) :
    xs.map f == xs := by
  induction xs with
  | nil => rfl
  | cons x xs ih =>
    rw [List.map_cons, List.cons_beq_cons, Bool.and_eq_true]
    exact ⟨h x List.mem_cons_self, ih fun y hy => h y (List.mem_cons_of_mem _ hy)⟩

lemma Expr.list_beq_iff {es es' : List Expr} :
    es == es' ↔ es.map skeleton = es'.map skeleton := by
  induction es generalizing es' with
  | nil => cases es' <;> simp
  | cons e es ih =>
    cases es' with
    | nil => simp
    | cons e' es' => rw [List.cons_beq_cons, Bool.and_eq_true, ih, beq_iff, List.map_cons,
        List.map_cons, List.cons.injEq]

instance : EquivBEq (List Expr) where
  rfl := Expr.list_beq_iff.2 rfl
  symm h := Expr.list_beq_iff.2 (Expr.list_beq_iff.1 h).symm
  trans h h' := Expr.list_beq_iff.2 ((Expr.list_beq_iff.1 h).trans (Expr.list_beq_iff.1 h'))

lemma map_beq_map {f : Expr → Expr} (hf : ∀ e e', e == e' → f e == f e') {es es' : List Expr}
    (h : es == es') : es.map f == es'.map f := by
  induction es generalizing es' with
  | nil =>
    cases es' with
    | nil => rfl
    | cons e' es' => cases h
  | cons e es ih =>
    cases es' with
    | nil => cases h
    | cons e' es' =>
      rw [List.cons_beq_cons, Bool.and_eq_true] at h
      rw [List.map_cons, List.map_cons, List.cons_beq_cons, Bool.and_eq_true]
      exact ⟨hf e e' h.1, ih h.2⟩

/-! ## The ids of a plan -/

namespace Plan

/-- The ids in use in a plan. -/
def ids : Plan → List ColumnId
  | scan _ columns => columns.map (·.id)
  | projection list child => list.flatMap Expr.ids ++ ids child
  | repetition sets output child => (sets.flatten ++ output).flatMap Expr.ids ++ ids child
  | aggregation groupBy output child => (groupBy ++ output).flatMap Expr.ids ++ ids child

/-- All ids of a plan are smaller than a number. -/
def IdsBelow (p : Plan) (n : Nat) : Prop := ∀ i ∈ p.ids, i.number < n

instance (p : Plan) (n : Nat) : Decidable (p.IdsBelow n) :=
  inferInstanceAs (Decidable (∀ i ∈ p.ids, i.number < n))

lemma id_mem_ids_of_columnsOf {owner : Entity} {es : List Expr} {cs : List Column} {c : Column}
    (h : columnsOf owner es = .ok cs) (hc : c ∈ cs) : c.id ∈ es.flatMap Expr.ids := by
  rw [columnsOf_eq_ok_iff] at h
  have hmem : some c ∈ es.map Expr.produced? := by
    rw [h]
    exact List.mem_map_of_mem hc
  obtain ⟨e, he, hprod⟩ := List.mem_map.1 hmem
  exact List.mem_flatMap.2 ⟨e, he, Expr.mem_ids_iff.2 ⟨e, e.self_mem_subterms, c, hprod, rfl⟩⟩

/-- The columns that a plan exposes carry ids of the plan. -/
lemma id_mem_ids_of_schema {p : Plan} {cs : List Column} {c : Column} (h : p.schema = .ok cs)
    (hc : c ∈ cs) : c.id ∈ p.ids := by
  cases p with
  | scan relation columns =>
    cases h
    exact List.mem_map_of_mem hc
  | projection list child => exact List.mem_append_left _ (id_mem_ids_of_columnsOf h hc)
  | repetition sets output child =>
    refine List.mem_append_left _ ?_
    rw [List.flatMap_append]
    exact List.mem_append_right _ (id_mem_ids_of_columnsOf h hc)
  | aggregation groupBy output child =>
    refine List.mem_append_left _ ?_
    rw [List.flatMap_append]
    exact List.mem_append_right _ (id_mem_ids_of_columnsOf h hc)

end Plan

end GroupingPlanner

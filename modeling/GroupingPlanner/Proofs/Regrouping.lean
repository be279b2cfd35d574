import GroupingPlanner.Proofs.Simulation
/-!
# Grouping copies

An execution groups the copies for all grouping sets at once.  The columns it groups by tell copies
apart that were made for grouping sets with different expressions in them, since the grouping id is
one of these columns, and within one grouping set they tell apart what the expressions of the set
tell apart.  Two grouping sets with the same expressions are not told apart: their copies end up in
the same groups, and the groups of one of the two are lost.

* `Stacked.groupKey_eq_iff`: when two copies are grouped together.
* `Repetition.Distinct`: no two grouping sets hold the same expressions.
* `Stacked.meaning_perm`: what an execution computes for distinct grouping sets.
* `Stacked.distinct_of_length`: on a single row there are too few groups for other ones.
-/

namespace GroupingPlanner

/-- Two lists hold equal expressions. -/
def SameMembers (set set' : List Expr) : Prop := ∀ e, set.contains e = set'.contains e

lemma sameMembers_iff {set set' : List Expr} : SameMembers set set' ↔
    (∀ e ∈ set, set'.contains e) ∧ ∀ e ∈ set', set.contains e := by
  have subset : ∀ es es' : List Expr, (∀ e ∈ es, es'.contains e) →
      ∀ e, es.contains e → es'.contains e := by
    intro es es' h e he
    obtain ⟨y, hy, hbeq⟩ := List.contains_iff_exists_mem_beq.1 he
    rw [contains_congr_of_beq hbeq]
    exact h y hy
  constructor
  · intro same
    refine ⟨fun e he => ?_, fun e he => ?_⟩
    · rw [← same]
      exact List.elem_eq_true_of_mem he
    · rw [same]
      exact List.elem_eq_true_of_mem he
  · rintro ⟨hle, hge⟩ e
    rw [Bool.eq_iff_iff]
    exact ⟨subset set set' hle e, subset set' set hge e⟩

instance (set set' : List Expr) : Decidable (SameMembers set set') :=
  decidable_of_iff _ sameMembers_iff.symm

lemma absenceMask_eq_of_sameMembers {set set' : List Expr} (same : SameMembers set set')
    (es : List Expr) : absenceMask set es = absenceMask set' es := by
  have congr : absenceMask set' (es.map fun e => e) = absenceMask set es :=
    absenceMask_map fun e _ => (same e).symm
  rw [List.map_id'] at congr
  exact congr.symm

namespace Repetition

variable {r : Repetition}

/-- No two grouping sets hold the same expressions. -/
def Distinct (r : Repetition) : Prop := r.sets.Pairwise fun set set' => ¬ SameMembers set set'

instance : Decidable r.Distinct :=
  inferInstanceAs (Decidable (r.sets.Pairwise fun set set' => ¬ SameMembers set set'))

lemma Distinct.eq_of_sameMembers (distinct : r.Distinct) {i j : List Expr × Nat}
    (hi : i ∈ r.sets.zipIdx) (hj : j ∈ r.sets.zipIdx) (same : SameMembers i.1 j.1) : i = j := by
  obtain ⟨hk, hset⟩ := List.mem_zipIdx' hi
  obtain ⟨hk', hset'⟩ := List.mem_zipIdx' hj
  rw [hset, hset'] at same
  have apart := List.pairwise_iff_getElem.1 distinct
  by_cases hlt : i.2 < j.2
  · exact absurd same (apart i.2 j.2 hk hk' hlt)
  · by_cases hgt : j.2 < i.2
    · exact absurd (fun e => (same e).symm) (apart j.2 i.2 hk' hk hgt)
    · have hindex : i.2 = j.2 := by omega
      refine Prod.ext ?_ hindex
      rw [hset, hset']
      simp only [hindex]

lemma contains_items_of_contains {set : List Expr} (hset : set ∈ r.sets) {e : Expr}
    (he : set.contains e) : r.items.contains e := by
  obtain ⟨item, hitem, hbeq⟩ := List.contains_iff_exists_mem_beq.1 he
  exact contains_items_iff.2 ⟨item, List.mem_flatten.2 ⟨set, hset, hitem⟩, hbeq⟩

/-- Grouping sets are told apart by the expressions of all grouping sets. -/
lemma sameMembers_of_items {set set' : List Expr} (hset : set ∈ r.sets) (hset' : set' ∈ r.sets)
    (same : ∀ e ∈ r.items.toList, set.contains e = set'.contains e) : SameMembers set set' := by
  intro e
  by_cases hitem : r.items.contains e
  · obtain ⟨e', he', hbeq⟩ := (Roster.contains_iff _ _).1 hitem
    have same_there : set'.contains e = set'.contains e' := contains_congr_of_beq hbeq
    rw [contains_congr_of_beq hbeq, same_there, same e' he']
  · rw [Bool.eq_false_of_not_eq_true (mt (contains_items_of_contains hset) hitem),
      Bool.eq_false_of_not_eq_true (mt (contains_items_of_contains hset') hitem)]

end Repetition

namespace Stacked

variable {V : Type} {I : Interpretation V} {r r' : Repetition} {next : Nat} (x : Stacked r next)
  (h : r.Hygienic next) {a : Aggregation} {ds : List Duplicate}
  (promise : Separation x.aggregation a x.repetition r' ds x.nextId)
  (size : r.items.size ≤ groupingIdBits)

/-! ## Keys -/

include promise in
lemma groupKey_eq_iff_columns {copy copy' : Row V} : a.groupKey I copy = a.groupKey I copy' ↔
    (∀ c ∈ x.substituted.keyColumns.toList, copy c.id = copy' c.id) ∧
      ∀ v ∈ x.substituted.virtualColumns x.groupingId, copy v.column.id = copy' v.column.id := by
  have groupBy : a.groupBy = x.substituted.keyColumns.toList.map Expr.column ++
      (x.substituted.virtualColumns x.groupingId).map VirtualColumn.toExpr := promise.groupBy
  rw [Aggregation.groupKey, Aggregation.groupKey, groupBy, List.map_inj_left]
  simp only [List.mem_append, List.mem_map]
  constructor
  · intro hall
    refine ⟨fun c hc => hall _ (Or.inl ⟨c, hc, rfl⟩), fun v hv => ?_⟩
    have hvalue := hall _ (Or.inr ⟨v, hv, rfl⟩)
    rwa [Expr.value_virtual, Expr.value_virtual] at hvalue
  · rintro ⟨hkeys, hvirtuals⟩ e (⟨c, hc, rfl⟩ | ⟨v, hv, rfl⟩)
    · exact hkeys c hc
    · rw [Expr.value_virtual, Expr.value_virtual]
      exact hvirtuals v hv

/-- An expression of a grouping set has its column among the columns grouped by. -/
lemma exists_keyColumn {item : Expr} (hitem : r.items.contains item) :
    ∃ b ∈ (r.bindingsAt next).toList, item == b.source ∧
      ∃ c ∈ x.substituted.keyColumns.toList, c.id = b.column.id := by
  obtain ⟨item', hitem', hbeq⟩ := Repetition.contains_items_iff.1 hitem
  obtain ⟨b, hget, -⟩ := x.item_bound hitem'
  obtain ⟨hb, hsource⟩ := Bindings.get?_eq_some hget
  refine ⟨b, hb, BEq.trans hbeq hsource, ?_⟩
  have hkey := x.contains_setColumns.2 ⟨item', hitem', b, hget, BEq.rfl⟩
  rw [x.setColumns_eq] at hkey
  obtain ⟨c, hc, hid⟩ := (Roster.contains_iff _ _).1 hkey
  exact ⟨c, hc, ((Column.beq_iff _ _).1 hid).symm⟩

include h promise size

/-- Two copies are grouped together exactly if they were made for the same expressions and these
have the same values. -/
theorem groupKey_eq_iff {set set' : List Expr} (hset : set ∈ r.sets) (hset' : set' ∈ r.sets)
    {row row' copy copy' : Row V} (hcopy : x.CopyOf I ds set row copy)
    (hcopy' : x.CopyOf I ds set' row' copy') : a.groupKey I copy = a.groupKey I copy' ↔
      SameMembers set set' ∧ Repetition.setKey I set row = Repetition.setKey I set row' := by
  have value : ∀ b ∈ (r.bindingsAt next).toList,
      (∃ c ∈ x.substituted.keyColumns.toList, c.id = b.column.id) → ∃ c ∈ x.readColumns,
        c.id = b.column.id := fun b _ ⟨c, hc, hid⟩ => ⟨c, List.mem_append_left _ hc, hid⟩
  rw [x.groupKey_eq_iff_columns promise]
  constructor
  · rintro ⟨hkeys, hvirtuals⟩
    have same : SameMembers set set' := by
      have hgid := hvirtuals x.groupingId List.mem_cons_self
      rw [hcopy.groupingId, hcopy'.groupingId] at hgid
      apply Repetition.sameMembers_of_items hset hset'
      exact contains_eq_of_absenceMask_eq size (I.mask_injective hgid)
    refine ⟨same, List.map_congr_left fun e he => ?_⟩
    have hcontains : set.contains e := List.elem_eq_true_of_mem he
    have hitem := Repetition.contains_items_of_contains hset hcontains
    obtain ⟨b, hb, hbeq, c, hc, hid⟩ := x.exists_keyColumn hitem
    have hkey := hkeys c hc
    rw [hid, hcopy.bound b hb (value b hb ⟨c, hc, hid⟩),
      hcopy'.bound b hb (value b hb ⟨c, hc, hid⟩), ← same, ← contains_congr_of_beq hbeq, hcontains,
      ← Expr.value_congr hbeq, ← Expr.value_congr hbeq] at hkey
    simpa using hkey
  · rintro ⟨same, hvalues⟩
    constructor
    · intro c hc
      have hkey : x.repetition.setColumns.contains c := by
        rw [x.setColumns_eq]
        exact Roster.contains_of_mem hc
      obtain ⟨item, hitem, b, hget, hbeq⟩ := x.contains_setColumns.1 hkey
      obtain ⟨hb, hsource⟩ := Bindings.get?_eq_some hget
      have hid : c.id = b.column.id := (Column.beq_iff _ _).1 hbeq
      have hread := value b hb ⟨c, hc, hid⟩
      have hcontains : r.items.contains b.source :=
        Repetition.contains_items_iff.2 ⟨item, hitem, BEq.symm hsource⟩
      rw [hid, hcopy.bound b hb hread, hcopy'.bound b hb hread, ← same, hcontains, Bool.true_and]
      by_cases hin : set.contains b.source
      · obtain ⟨e, he, hbe⟩ := List.contains_iff_exists_mem_beq.1 hin
        rw [hin, Expr.value_congr hbe, Expr.value_congr hbe]
        exact List.map_inj_left.1 hvalues e he
      · rw [Bool.eq_false_of_not_eq_true hin]
        rfl
    · intro v hv
      rcases x.virtualColumn_cases h.no_virtual hv with hgid | hcall
      · rw [hgid, ← x.groupingId_eq h.no_virtual, hcopy.groupingId, hcopy'.groupingId,
          absenceMask_eq_of_sameMembers same]
      · obtain ⟨k, -, -, call, hargs, heq⟩ := Repetition.mem_callColumnsAt hcall
        have hfor : v.isFor ((r.bindingsAt next).signature call) := by
          rw [heq]
          exact BEq.rfl
        rw [hcopy.call v hv call hargs hfor, hcopy'.call v hv call hargs hfor,
          absenceMask_eq_of_sameMembers same]

/-! ## Groups of copies -/

omit size in
/-- The rows of the child and those below the stack, paired, and what the copies are made of. -/
lemma exists_pairs (I : Interpretation V) (base : Plan → List (Row V)) :
    ∃ pairs : List (Row V × Row V), r.child.rows I base = pairs.map Prod.fst ∧
      (∀ p ∈ pairs, x.RowBelow I ds p.1 p.2) ∧ r'.copies I base = pairs.flatMap fun p =>
        r.sets.zipIdx.map fun i =>
          r'.copyRow I (i.1.map (r.bindingsAt next).substitute) i.2 p.2 := by
  have below := x.rows_below (I := I) h promise base
  obtain ⟨hlength, hzip⟩ := List.forall₂_iff_zip.1 below
  refine ⟨(r.child.rows I base).zip (r'.child.rows I base), ?_, fun p hp => hzip hp, ?_⟩
  · rw [List.map_fst_zip (Nat.le_of_eq hlength)]
  · have sets_eq : r'.sets.zipIdx = r.sets.zipIdx.map
        (Prod.map (List.map (r.bindingsAt next).substitute) id) := by
      rw [promise.sets, repetition, x.setExprs_eq, List.zipIdx_map]
    have rows_eq : r'.child.rows I base =
        ((r.child.rows I base).zip (r'.child.rows I base)).map Prod.snd := by
      rw [List.map_snd_zip (Nat.le_of_eq hlength.symm)]
    rw [Repetition.copies, sets_eq]
    conv_lhs => rw [rows_eq]
    rw [List.flatMap_map]
    apply List.flatMap_congr
    intro p _
    rw [List.map_map]
    simp

variable {base : Plan → List (Row V)} [DecidableEq V] (windowFree : r.WindowFree)
  (hchild : a.child = r'.toPlan)
include hchild

omit h promise size in
lemma meaning_eq : a.meaning I base =
    (groups (a.groupKey I) (r'.copies I base)).map (a.result I) := by
  have hrepetition : a.child.repetition? = some r' := by
    rw [hchild]
    rfl
  rw [Aggregation.meaning, hrepetition]

/-- If each grouping set gives a row of results on a single row, the grouping sets are distinct. -/
theorem distinct_of_length {row : Row V} (hrow : r.child.rows I base = [row])
    (hlength : (a.meaning I base).length = r.sets.length) : r.Distinct := by
  obtain ⟨pairs, hrows, below, hcopies⟩ := x.exists_pairs h promise I base
  obtain ⟨p, rfl⟩ : ∃ p, pairs = [p] := by
    rw [← List.length_eq_one_iff, ← List.length_map Prod.fst, ← hrows, hrow]
    simp
  have copyOf : ∀ i ∈ r.sets.zipIdx, x.CopyOf I ds i.1 p.1
      (r'.copyRow I (i.1.map (r.bindingsAt next).substitute) i.2 p.2) := fun i hi =>
    x.copyOf_copyRow h promise hi (below p (List.mem_singleton_self p))
  rw [List.flatMap_singleton] at hcopies
  -- As many groups as copies means that all keys are different.
  have nodup : (r.sets.zipIdx.map fun i => a.groupKey I
      (r'.copyRow I (i.1.map (r.bindingsAt next).substitute) i.2 p.2)).Nodup := by
    rw [meaning_eq hchild, hcopies, List.length_map, groups, List.length_map, List.map_map]
      at hlength
    refine List.dedup_eq_self.1 ((List.dedup_sublist _).eq_of_length ?_)
    rw [List.length_map, List.length_zipIdx]
    exact hlength
  apply List.pairwise_iff_getElem.2
  intro k k' hk hk' hlt same
  have hi : (r.sets[k], k) ∈ r.sets.zipIdx := List.mk_mem_zipIdx_iff_getElem?.2 (by simp)
  have hj : (r.sets[k'], k') ∈ r.sets.zipIdx := List.mk_mem_zipIdx_iff_getElem?.2 (by simp)
  have hkey := (x.groupKey_eq_iff h promise size (List.getElem_mem hk) (List.getElem_mem hk')
    (copyOf _ hi) (copyOf _ hj)).2 ⟨same, rfl⟩
  have heq := congrArg Prod.snd (List.inj_on_of_nodup_map nodup hi hj hkey)
  exact absurd heq (Nat.ne_of_lt hlt)

include windowFree

/-- For distinct grouping sets, an execution computes a row of results for each group of each
grouping set. -/
theorem meaning_perm (distinct : r.Distinct) : (a.meaning I base).Perm
    (r.sets.flatMap fun set => (groups (Repetition.setKey I set) (r.child.rows I base)).map
      (r.executedResult I set)) := by
  obtain ⟨pairs, hrows, below, hcopies⟩ := x.exists_pairs h promise I base
  have copyOf : ∀ i ∈ r.sets.zipIdx, ∀ p ∈ pairs, x.CopyOf I ds i.1 p.1
      (r'.copyRow I (i.1.map (r.bindingsAt next).substitute) i.2 p.2) := fun i hi p hp =>
    x.copyOf_copyRow h promise hi (below p hp)
  have mem_sets : ∀ i ∈ r.sets.zipIdx, i.1 ∈ r.sets := fun i hi => List.fst_mem_of_mem_zipIdx hi
  -- The key of a copy determines the set it was made for.
  have apart : ∀ i ∈ r.sets.zipIdx, ∀ j ∈ r.sets.zipIdx, ∀ p ∈ pairs, ∀ q ∈ pairs,
      a.groupKey I (r'.copyRow I (j.1.map (r.bindingsAt next).substitute) j.2 q.2) =
          a.groupKey I (r'.copyRow I (i.1.map (r.bindingsAt next).substitute) i.2 p.2) ↔
        j = i ∧ Repetition.setKey I i.1 q.1 = Repetition.setKey I i.1 p.1 := by
    intro i hi j hj p hp q hq
    rw [x.groupKey_eq_iff h promise size (mem_sets j hj) (mem_sets i hi) (copyOf j hj q hq)
      (copyOf i hi p hp)]
    constructor
    · rintro ⟨same, hkey⟩
      obtain rfl := distinct.eq_of_sameMembers hj hi same
      exact ⟨rfl, hkey⟩
    · rintro ⟨rfl, hkey⟩
      exact ⟨fun _ => rfl, hkey⟩
  have nodup : r.sets.zipIdx.Nodup :=
    List.Nodup.of_map Prod.snd (by rw [List.zipIdx_map_snd]; exact List.nodup_range')
  have regrouped := (groups_copies_perm nodup apart).map (a.result I)
  rw [meaning_eq hchild, hcopies]
  refine regrouped.trans (List.Perm.of_eq ?_)
  -- Within a set the copies of a group give the row that the rows of the group give.
  have within : ∀ i ∈ r.sets.zipIdx,
      ((groups (fun p : Row V × Row V => Repetition.setKey I i.1 p.1) pairs).map (List.map fun p =>
          r'.copyRow I (i.1.map (r.bindingsAt next).substitute) i.2 p.2)).map (a.result I) =
        (groups (Repetition.setKey I i.1) (r.child.rows I base)).map (r.executedResult I i.1) := by
    intro i hi
    rw [hrows, groups_map, List.map_map, List.map_map]
    apply List.map_congr_left
    intro g hg
    obtain ⟨p, g', rfl⟩ := List.exists_cons_of_ne_nil (ne_nil_of_mem_groups hg)
    have copied : List.Forall₂ (x.CopyOf I ds i.1) ((p :: g').map Prod.fst) ((p :: g').map fun p =>
        r'.copyRow I (i.1.map (r.bindingsAt next).substitute) i.2 p.2) := by
      rw [List.forall₂_map_left_iff, List.forall₂_map_right_iff, List.forall₂_same]
      exact fun q hq => copyOf i hi q (subset_of_mem_groups hg hq)
    exact x.result_eq h promise copied windowFree
  rw [List.map_flatMap, List.flatMap_congr within]
  have sets_eq : r.sets = r.sets.zipIdx.map Prod.fst := (List.zipIdx_map_fst 0 r.sets).symm
  conv_rhs => rw [sets_eq]
  rw [List.flatMap_map]

end Stacked
end GroupingPlanner

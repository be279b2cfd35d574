import Mathlib.Data.List.Dedup
import Mathlib.Data.List.Sigma
import Mathlib.Tactic
/-!
# Groups of rows

To group rows is to collect, for each value that a key takes, the rows with that value.  The order
among the groups means nothing; within a group the rows keep their order.

An execution of grouping sets copies every row once per set and groups all copies at once, while
the meaning of grouping sets is to group the rows for each set by itself.  The two agree if the key
of a copy determines the set it was made for, and then the key of the row for that set.

* `groups`, `mem_groups_iff`: the groups of a list of rows.
* `groups_map`: groups of mapped rows.
* `groups_copies_perm`: groups of copies are copies of groups.
-/

namespace GroupingPlanner

variable {α β ι K L : Type} [DecidableEq K] [DecidableEq L]

/-- The groups of a list: for each value of the key, the entries with that value. -/
def groups (key : α → K) (xs : List α) : List (List α) :=
  (xs.map key).dedup.map fun k => xs.filter fun x => key x = k

lemma mem_groups_iff {key : α → K} {xs g : List α} :
    g ∈ groups key xs ↔ ∃ x ∈ xs, g = xs.filter fun y => key y = key x := by
  simp only [groups, List.mem_map, List.mem_dedup]
  constructor
  · rintro ⟨k, ⟨x, hx, rfl⟩, rfl⟩
    exact ⟨x, hx, rfl⟩
  · rintro ⟨x, hx, rfl⟩
    exact ⟨key x, ⟨x, hx, rfl⟩, rfl⟩

lemma subset_of_mem_groups {key : α → K} {xs g : List α} (hg : g ∈ groups key xs) : g ⊆ xs := by
  obtain ⟨x, -, rfl⟩ := mem_groups_iff.1 hg
  exact List.filter_subset_self xs

lemma ne_nil_of_mem_groups {key : α → K} {xs g : List α} (hg : g ∈ groups key xs) : g ≠ [] := by
  obtain ⟨x, hx, rfl⟩ := mem_groups_iff.1 hg
  exact List.ne_nil_of_mem (List.mem_filter.2 ⟨hx, by simp⟩)

lemma groups_map (f : α → β) (key : β → K) (xs : List α) :
    groups key (xs.map f) = (groups (fun x => key (f x)) xs).map (List.map f) := by
  unfold groups
  rw [List.map_map, List.map_map]
  apply List.map_congr_left
  intro k _
  rw [Function.comp_apply, List.filter_map]
  rfl

@[simp] lemma groups_singleton (key : α → K) (x : α) : groups key [x] = [[x]] := by
  simp [groups]

/-- Different groups have different keys, and no group is empty. -/
lemma nodup_groups (key : α → K) (xs : List α) : (groups key xs).Nodup := by
  refine List.Nodup.map_on ?_ (List.nodup_dedup _)
  intro k hk k' hk' heq
  obtain ⟨x, hx, rfl⟩ := List.mem_map.1 (List.mem_dedup.1 hk)
  have hmem : x ∈ xs.filter fun y => key y = key x := List.mem_filter.2 ⟨hx, by simp⟩
  rw [heq] at hmem
  simpa using (List.mem_filter.1 hmem).2

/-! ## Groups of copies -/

section Copies

variable {key : β → K} {copy : ι → α → β} {own : ι → α → L} {idx : List ι} {xs : List α}
  (nodup : idx.Nodup)
  (apart : ∀ i ∈ idx, ∀ j ∈ idx, ∀ x ∈ xs, ∀ y ∈ xs,
    key (copy j y) = key (copy i x) ↔ j = i ∧ own i y = own i x)
include apart

include nodup in
/-- Of the copies of one row, at most the one for `i` has the key of a copy for `i`. -/
lemma filter_copies_of_row {i : ι} (hi : i ∈ idx) {x y : α} (hx : x ∈ xs) (hy : y ∈ xs) :
    (idx.map fun j => copy j y).filter (fun z => key z = key (copy i x)) =
      if own i y = own i x then [copy i y] else [] := by
  classical
  have same : idx.filter (fun j => key (copy j y) = key (copy i x)) =
      idx.filter fun j => decide (j = i) && decide (own i y = own i x) := by
    apply List.filter_congr
    intro j hj
    rw [← Bool.decide_and, decide_eq_decide]
    exact apart i hi j hj x hx y hy
  rw [List.filter_map, Function.comp_def, same]
  by_cases hown : own i y = own i x
  · rw [if_pos hown]
    simp only [hown, decide_true, Bool.and_true]
    rw [List.filter_eq, List.count_eq_one_of_mem nodup hi, List.replicate_one, List.map_singleton]
  · simp [hown]

include nodup in
/-- The group of a copy for `i` holds the copies for `i` of the rows in its group. -/
lemma filter_copies {i : ι} (hi : i ∈ idx) {x : α} (hx : x ∈ xs) :
    (xs.flatMap fun y => idx.map fun j => copy j y).filter (fun z => key z = key (copy i x)) =
      (xs.filter fun y => own i y = own i x).map (copy i) := by
  have split : ∀ ys ⊆ xs,
      (ys.flatMap fun y => idx.map fun j => copy j y).filter (fun z => key z = key (copy i x)) =
        (ys.filter fun y => own i y = own i x).map (copy i) := by
    intro ys hys
    induction ys with
    | nil => rfl
    | cons y ys ih =>
      rw [List.flatMap_cons, List.filter_append, List.filter_cons,
        ih fun z hz => hys (List.mem_cons_of_mem _ hz),
        filter_copies_of_row nodup apart hi hx (hys List.mem_cons_self)]
      by_cases hown : own i y = own i x <;> simp [hown]
  exact split xs (List.Subset.refl _)

omit [DecidableEq K] in
include nodup in
lemma nodup_copied_groups :
    (idx.flatMap fun i => (groups (own i) xs).map (List.map (copy i))).Nodup := by
  -- Groups are told apart by the key of their first row.
  have head_key : ∀ i ∈ idx, ∀ g ∈ groups (own i) xs, ∃ x ∈ xs, x ∈ g ∧
      ((g.map (copy i)).head?).map key = some (key (copy i x)) := by
    intro i _ g hg
    obtain ⟨x, hx⟩ := List.exists_mem_of_ne_nil g (ne_nil_of_mem_groups hg)
    obtain ⟨y, ys, rfl⟩ := List.exists_cons_of_ne_nil (ne_nil_of_mem_groups hg)
    exact ⟨y, subset_of_mem_groups hg List.mem_cons_self, List.mem_cons_self, rfl⟩
  refine List.nodup_flatMap.2 ⟨fun i hi => ?_, ?_⟩
  · refine List.Nodup.map_on ?_ (nodup_groups _ _)
    intro g hg g' hg' heq
    obtain ⟨x, hx, hxg, hkey⟩ := head_key i hi g hg
    obtain ⟨x', hx', hxg', hkey'⟩ := head_key i hi g' hg'
    rw [heq, hkey'] at hkey
    have hown := ((apart i hi i hi x hx x' hx').1 (Option.some.inj hkey)).2
    obtain ⟨z, -, rfl⟩ := mem_groups_iff.1 hg
    obtain ⟨z', -, rfl⟩ := mem_groups_iff.1 hg'
    have hz : own i x = own i z := by simpa using (List.mem_filter.1 hxg).2
    have hz' : own i x' = own i z' := by simpa using (List.mem_filter.1 hxg').2
    rw [← hz, ← hz', hown]
  · refine List.Nodup.pairwise_of_forall_ne nodup fun i hi j hj hij => ?_
    rw [Function.onFun, List.disjoint_left]
    intro g hg hg'
    obtain ⟨g₁, hg₁, rfl⟩ := List.mem_map.1 hg
    obtain ⟨g₂, hg₂, heq⟩ := List.mem_map.1 hg'
    obtain ⟨x, hx, -, hkey⟩ := head_key i hi g₁ hg₁
    obtain ⟨y, hy, -, hkey'⟩ := head_key j hj g₂ hg₂
    rw [heq, hkey] at hkey'
    exact hij ((apart j hj i hi y hy x hx).1 (Option.some.inj hkey')).1

include nodup in
/-- If the key of a copy determines what it was made for, and then the key of the row, the groups
of all copies are the copied groups. -/
theorem groups_copies_perm :
    (groups key (xs.flatMap fun x => idx.map fun i => copy i x)).Perm
      (idx.flatMap fun i => (groups (own i) xs).map (List.map (copy i))) := by
  refine (List.perm_ext_iff_of_nodup (nodup_groups _ _) (nodup_copied_groups nodup apart)).2
    fun g => ?_
  rw [mem_groups_iff, List.mem_flatMap]
  constructor
  · rintro ⟨z, hz, rfl⟩
    obtain ⟨x, hx, hz⟩ := List.mem_flatMap.1 hz
    obtain ⟨i, hi, rfl⟩ := List.mem_map.1 hz
    refine ⟨i, hi, List.mem_map.2 ⟨_, mem_groups_iff.2 ⟨x, hx, rfl⟩, ?_⟩⟩
    exact (filter_copies nodup apart hi hx).symm
  · rintro ⟨i, hi, hg⟩
    obtain ⟨g₀, hg₀, rfl⟩ := List.mem_map.1 hg
    obtain ⟨x, hx, rfl⟩ := mem_groups_iff.1 hg₀
    refine ⟨copy i x, List.mem_flatMap.2 ⟨x, hx, List.mem_map_of_mem hi⟩, ?_⟩
    exact (filter_copies nodup apart hi hx).symm

end Copies

end GroupingPlanner

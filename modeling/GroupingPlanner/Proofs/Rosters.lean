import GroupingPlanner.Roster
import Mathlib.Tactic
/-!
# What a roster holds

Whatever is collected into a roster is found there, and nothing else: membership in
`Roster.ofList xs` is membership in `xs`, up to `==`.  The representatives kept are elements of
`xs`, and no two of them are equal.

* `Roster.contains_insertAll`, `Roster.contains_ofList`: which elements are found.
* `Roster.mem_ofList`, `Roster.sublist_ofList`, `Roster.prefix_ofList`: where the representatives
  come from, and their order, which stays when more is collected.
* `Roster.eq_of_beq_of_mem`, `Roster.find?_ofList`: a roster keeps one representative for each
  element, and that is the first one.
* `Roster.toList_ofList_map`: rosters of mapped lists.
* `Roster.toList_ofList_eq_eraseDups`, `Roster.toList_ofList_of_pairwise`,
  `Roster.ofList_filter_eq_self`: a roster as a list rid of repetitions, rosters of lists without
  any, and of lists with elements left out.
* `Roster.nodup_map`, `Roster.size_ofList_map_le`: how many elements a mapped roster has.
-/

namespace GroupingPlanner
namespace Roster

universe u

variable {α : Type u} [BEq α]

/-! ## Representatives -/

/-- An element that is new comes last. -/
lemma toList_insert_of_new {r : Roster α} {x : α} (new : r.contains x = false) :
    (r.insert x).toList = r.toList ++ [x] := by
  rw [toList_insert, new]
  rfl

lemma mem_insert {r : Roster α} {x y : α} (h : y ∈ (r.insert x).toList) : y ∈ r.toList ∨ y = x := by
  rw [toList_insert] at h
  split at h
  · exact Or.inl h
  · simpa using h

lemma mem_insertAll_of_mem {r : Roster α} {xs : List α} {y : α} (h : y ∈ r.toList) :
    y ∈ (r.insertAll xs).toList := by
  induction xs generalizing r with
  | nil => exact h
  | cons x xs ih =>
    refine ih ?_
    rw [toList_insert]
    split
    · exact h
    · exact List.mem_append_left _ h

lemma mem_insertAll {r : Roster α} {xs : List α} {y : α} (h : y ∈ (r.insertAll xs).toList) :
    y ∈ r.toList ∨ y ∈ xs := by
  induction xs generalizing r with
  | nil => exact Or.inl h
  | cons x xs ih =>
    rcases ih h with hr | hxs
    · rcases mem_insert hr with hr | rfl
      · exact Or.inl hr
      · exact Or.inr List.mem_cons_self
    · exact Or.inr (List.mem_cons_of_mem _ hxs)

/-- A representative is one of the elements collected. -/
lemma mem_ofList {xs : List α} {y : α} (h : y ∈ (ofList xs).toList) : y ∈ xs := by
  rcases mem_insertAll h with h | h
  · simp at h
  · exact h

/-- Insertions append some of the elements, in order. -/
lemma exists_sublist_insertAll (r : Roster α) (xs : List α) :
    ∃ ys, ys.Sublist xs ∧ (r.insertAll xs).toList = r.toList ++ ys := by
  induction xs generalizing r with
  | nil => exact ⟨[], List.Sublist.refl _, (List.append_nil _).symm⟩
  | cons x xs ih =>
    obtain ⟨ys, hsub, hlist⟩ := ih (r.insert x)
    rw [insertAll_cons, hlist, toList_insert]
    split
    · exact ⟨ys, hsub.cons x, rfl⟩
    · exact ⟨x :: ys, hsub.cons_cons x, by rw [List.append_assoc, List.singleton_append]⟩

lemma sublist_ofList (xs : List α) : (ofList xs).toList.Sublist xs := by
  obtain ⟨ys, hsub, hlist⟩ := exists_sublist_insertAll empty xs
  rw [ofList, hlist]
  exact hsub

lemma ofList_append (xs ys : List α) : ofList (xs ++ ys) = (ofList xs).insertAll ys :=
  insertAll_append empty xs ys

/-- More elements change nothing in the place of earlier ones. -/
lemma prefix_ofList {xs ys : List α} (h : xs <+: ys) :
    (ofList xs).toList <+: (ofList ys).toList := by
  obtain ⟨zs, rfl⟩ := h
  obtain ⟨added, -, hlist⟩ := exists_sublist_insertAll (ofList xs) zs
  rw [ofList_append, hlist]
  exact List.prefix_append _ _

/-! ## Mapped elements -/

lemma toList_insertAll_map {β : Type*} [BEq β] {f : α → β} {r : Roster α} {r' : Roster β}
    {xs : List α} (hr : r'.toList = r.toList.map f)
    (hf : ∀ x ∈ xs, ∀ y, y ∈ r.toList ∨ y ∈ xs → (f x == f y) = (x == y)) :
    (r'.insertAll (xs.map f)).toList = (r.insertAll xs).toList.map f := by
  induction xs generalizing r r' with
  | nil => exact hr
  | cons x xs ih =>
    have same : r'.contains (f x) = r.contains x := by
      rw [Bool.eq_iff_iff, contains_iff, contains_iff, hr]
      constructor
      · rintro ⟨z, hz, hbeq⟩
        obtain ⟨y, hy, rfl⟩ := List.mem_map.1 hz
        rw [hf x List.mem_cons_self y (Or.inl hy)] at hbeq
        exact ⟨y, hy, hbeq⟩
      · rintro ⟨y, hy, hbeq⟩
        rw [← hf x List.mem_cons_self y (Or.inl hy)] at hbeq
        exact ⟨f y, List.mem_map_of_mem hy, hbeq⟩
    rw [List.map_cons, insertAll_cons, insertAll_cons]
    refine ih ?_ fun y hy z hz => hf y (List.mem_cons_of_mem _ hy) z ?_
    · rw [toList_insert, toList_insert, same, hr]
      split
      · rfl
      · rw [List.map_append, List.map_singleton]
    · rcases hz with hz | hz
      · rcases mem_insert hz with hz | rfl
        · exact Or.inl hz
        · exact Or.inr List.mem_cons_self
      · exact Or.inr (List.mem_cons_of_mem _ hz)

/-- A function that keeps different elements different maps the roster of a list to that of the
mapped list. -/
lemma toList_ofList_map {β : Type*} [BEq β] {f : α → β} {xs : List α}
    (hf : ∀ x ∈ xs, ∀ y ∈ xs, (f x == f y) = (x == y)) :
    (ofList (xs.map f)).toList = (ofList xs).toList.map f := by
  refine toList_insertAll_map rfl fun x hx y hy => hf x hx y ?_
  rcases hy with hy | hy
  · exact absurd hy List.not_mem_nil
  · exact hy

/-! ## Lists without repetition, and lists with elements left out -/

lemma toList_insertAll_eq_loop (r : Roster α) (xs : List α) :
    (r.insertAll xs).toList = List.eraseDupsBy.loop (· == ·) xs r.toList.reverse := by
  induction xs generalizing r with
  | nil => simp [List.eraseDupsBy.loop]
  | cons x xs ih =>
    have hany : r.toList.reverse.any (x == ·) = r.contains x := by
      rw [List.any_reverse, contains, List.contains_eq_any_beq]
    rw [insertAll_cons, ih, toList_insert, List.eraseDupsBy.loop, hany]
    cases r.contains x <;> simp

/-- A roster lists the elements it was made from, each where it appears first. -/
theorem toList_ofList_eq_eraseDups (xs : List α) : (ofList xs).toList = xs.eraseDups :=
  toList_insertAll_eq_loop empty xs

lemma toList_insertAll_of_pairwise {r : Roster α} {xs : List α}
    (h : (r.toList ++ xs).Pairwise fun earlier later => (later == earlier) = false) :
    (r.insertAll xs).toList = r.toList ++ xs := by
  induction xs generalizing r with
  | nil => rw [insertAll_nil, List.append_nil]
  | cons x xs ih =>
    have absent : ¬ r.contains x := by
      rw [contains_iff]
      rintro ⟨y, hy, hbeq⟩
      have hne := (List.pairwise_append.1 h).2.2 y hy x List.mem_cons_self
      rw [hbeq] at hne
      exact Bool.noConfusion hne
    have inserted := toList_insert_of_new (eq_false_of_ne_true absent)
    rw [insertAll_cons, ih, inserted, List.append_assoc, List.singleton_append]
    rwa [inserted, List.append_assoc]

/-- A list without repetition is its own roster. -/
lemma toList_ofList_of_pairwise {xs : List α}
    (h : xs.Pairwise fun earlier later => (later == earlier) = false) : (ofList xs).toList = xs :=
  toList_insertAll_of_pairwise h

/-- Elements that become no representatives can be left out. -/
lemma insertAll_filter_eq_self {p : α → Bool} {r : Roster α} {xs : List α}
    (kept : ∀ x ∈ (r.insertAll xs).toList, p x = true) :
    r.insertAll (xs.filter p) = r.insertAll xs := by
  induction xs generalizing r with
  | nil => rfl
  | cons x xs ih =>
    by_cases hx : p x = true
    · rw [List.filter_cons_of_pos hx]
      exact ih kept
    · rw [insertAll_cons] at kept
      -- What is dropped was represented already.
      have represented : r.contains x = true := by
        by_contra new
        have enrolled : x ∈ (r.insert x).toList := by
          rw [toList_insert_of_new (eq_false_of_ne_true new)]
          exact List.mem_append_right _ (List.mem_singleton_self x)
        exact hx (kept x (mem_insertAll_of_mem enrolled))
      rw [List.filter_cons_of_neg hx, insertAll_cons, insert_of_contains represented]
      rw [insert_of_contains represented] at kept
      exact ih kept

lemma ofList_filter_eq_self {p : α → Bool} {xs : List α}
    (kept : ∀ x ∈ (ofList xs).toList, p x = true) : ofList (xs.filter p) = ofList xs :=
  insertAll_filter_eq_self kept

/-- A function that keeps different elements apart maps a roster to a list without repetition. -/
lemma nodup_map {β : Type*} {f : α → β} {r : Roster α}
    (hf : ∀ x ∈ r.toList, ∀ y ∈ r.toList, f x = f y → x == y) : (r.toList.map f).Nodup := by
  refine List.pairwise_map.2 (r.distinct.imp_of_mem fun {x y} hx hy hne heq => ?_)
  rw [hf y hy x hx heq.symm] at hne
  exact Bool.noConfusion hne

/-! ## Membership -/

variable [EquivBEq α]

lemma contains_of_mem {r : Roster α} {x : α} (h : x ∈ r.toList) : r.contains x = true :=
  (contains_iff r x).2 ⟨x, h, BEq.rfl⟩

lemma contains_congr (r : Roster α) {x y : α} (h : x == y) : r.contains x = r.contains y := by
  rw [Bool.eq_iff_iff, contains_iff, contains_iff]
  exact ⟨fun ⟨z, hz, hxz⟩ => ⟨z, hz, BEq.trans (BEq.symm h) hxz⟩,
    fun ⟨z, hz, hyz⟩ => ⟨z, hz, BEq.trans h hyz⟩⟩

lemma contains_insert (r : Roster α) (x y : α) :
    (r.insert x).contains y = (r.contains y || y == x) := by
  cases hx : r.contains x with
  | true =>
    rw [insert_of_contains hx]
    cases hyx : y == x with
    | true => rw [contains_congr r hyx, hx, Bool.or_true]
    | false => rw [Bool.or_false]
  | false =>
    rw [contains, toList_insert_of_new hx, List.contains_append]
    simp [contains]

lemma contains_insertAll (r : Roster α) (xs : List α) (y : α) :
    (r.insertAll xs).contains y = (r.contains y || xs.contains y) := by
  induction xs generalizing r with
  | nil => simp
  | cons x xs ih => rw [insertAll_cons, ih, contains_insert, List.contains_cons, Bool.or_assoc]

/-- A roster holds exactly the elements that were collected. -/
lemma contains_ofList (xs : List α) (y : α) : (ofList xs).contains y = xs.contains y := by
  rw [ofList, contains_insertAll]
  simp [contains]

lemma contains_ofList_of_mem {xs : List α} {x : α} (h : x ∈ xs) : (ofList xs).contains x := by
  rw [contains_ofList]
  exact List.elem_eq_true_of_mem h

/-- Every element collected has a representative. -/
lemma exists_mem_ofList {xs : List α} {x : α} (h : x ∈ xs) : ∃ y ∈ (ofList xs).toList, x == y :=
  (contains_iff _ _).1 (contains_ofList_of_mem h)

/-- Of the elements equal to each other one is kept. -/
lemma eq_of_beq_of_mem {r : Roster α} {x y : α} (hx : x ∈ r.toList) (hy : y ∈ r.toList)
    (h : x == y) : x = y := by
  have apart : r.toList.Pairwise fun a b => (a == b) = false := by
    refine r.distinct.imp fun {a b} hba => ?_
    rw [BEq.comm]
    exact hba
  by_contra hne
  have : Std.Symm fun a b : α => (a == b) = false :=
    ⟨fun a b hab => by rw [BEq.comm]; exact hab⟩
  have hfalse := apart.forall hx hy hne
  rw [h] at hfalse
  exact Bool.noConfusion hfalse

lemma find?_insert (r : Roster α) (x y : α) :
    (r.insert y).toList.find? (x == ·) = (r.toList ++ [y]).find? (x == ·) := by
  rw [toList_insert]
  split
  · rename_i hy
    rw [List.find?_append]
    by_cases hxy : x == y
    · -- An earlier element equals both.
      obtain ⟨z, hz, hyz⟩ := (contains_iff r y).1 hy
      have hfound : (r.toList.find? (x == ·)).isSome :=
        List.find?_isSome.2 ⟨z, hz, BEq.trans hxy hyz⟩
      exact (Option.or_of_isSome hfound).symm
    · rw [List.find?_singleton, if_neg hxy, Option.or_none]
  · rfl

/-- An element is represented by the first one equal to it that was collected. -/
lemma find?_ofList (xs : List α) (x : α) :
    (ofList xs).toList.find? (x == ·) = xs.find? (x == ·) := by
  induction xs using List.reverseRecOn with
  | nil => rfl
  | append_singleton xs y ih =>
    rw [ofList_append, insertAll_cons, insertAll_nil, find?_insert, List.find?_append, ih,
      List.find?_append]

/-- A function that keeps equal elements equal makes no more of them. -/
lemma size_ofList_map_le {β : Type*} [BEq β] [EquivBEq β] {f : α → β} {xs : List α}
    (hf : ∀ x ∈ xs, ∀ y ∈ xs, x == y → f x == f y) :
    (ofList (xs.map f)).size ≤ (ofList xs).size := by
  -- Each element of the mapped list comes from a representative.
  have preimage : ∀ b ∈ (ofList (xs.map f)).toList, ∃ a ∈ (ofList xs).toList, b == f a := by
    intro b hb
    obtain ⟨x, hx, rfl⟩ := List.mem_map.1 (mem_ofList hb)
    obtain ⟨a, ha, hbeq⟩ := exists_mem_ofList hx
    exact ⟨a, ha, hf x hx a (mem_ofList ha) hbeq⟩
  rcases isEmpty_or_nonempty α with empty | nonempty
  · rw [List.eq_nil_iff_forall_not_mem.2 fun x (_ : x ∈ xs) => empty.elim x]
    exact le_rfl
  choose! g hg hbeq using preimage
  have nodup : ((ofList (xs.map f)).toList.map g).Nodup := nodup_map fun b hb b' hb' heq => by
    have hsame : b == f (g b') := by
      rw [← heq]
      exact hbeq b hb
    exact BEq.trans hsame (BEq.symm (hbeq b' hb'))
  have subset : (ofList (xs.map f)).toList.map g ⊆ (ofList xs).toList := by
    intro a ha
    obtain ⟨b, hb, rfl⟩ := List.mem_map.1 ha
    exact hg b hb
  have length := (nodup.subperm subset).length_le
  rwa [List.length_map] at length

end Roster
end GroupingPlanner

import GroupingPlanner.Proofs.Children
import Mathlib.Data.List.Lex
/-!
# Visits in pre-order

A rewriting goes through a tree from the root down and from left to right, and leaves out what
stands in a node that it has replaced.  This module says what such a walk is without saying how it
is made.  A node is known by its position: one tree may stand in another one several times, and may
be replaced in one place and kept in another.  The lexicographic order of positions is the order in
which a walk comes to the nodes, since a node precedes what is below it and a left child what is to
its right.

A list of visits covers a tree if its positions ascend and are those that no replaced node is above.
These two facts leave no choice.  Of two walks that agree up to some visit, each has the same node
next, for whatever is above this node was visited before (`Covers.next_eq`).  In the same way a
result is determined by what was replaced, and by the other nodes being what they were
(`Exchanged.unique`).

* `Expr.Position`, `Expr.at?`: places in a tree, and what stands there.
* `Visit`, `Stands`, `Covers`: visits, and when they are all there are.
* `Exchanged`: what becomes of a tree.
* `Covers.replaced`, `Covers.kept`, `Covers.concat`: the visits of a tree from those of its
  children.
* `Covers.next_eq`, `Exchanged.unique`: there is no choice.
-/

namespace GroupingPlanner
namespace Expr

/-! ## Positions -/

/-- A place in a tree: the children to go to, one after the other, on the way down from the root. -/
abbrev Position := List Nat

/-- The node at a position. -/
def at? : Expr → Position → Option Expr
  | e, [] => some e
  | e, i :: p => e.children[i]?.bind fun c => c.at? p

/-- The node at a position in one of several trees, which the first step chooses. -/
def atAll? (es : List Expr) : Position → Option Expr
  | [] => none
  | i :: p => es[i]?.bind fun c => c.at? p

lemma at?_append (e : Expr) (p q : Position) : e.at? (p ++ q) = (e.at? p).bind (·.at? q) := by
  induction p generalizing e with
  | nil => rfl
  | cons i p ih =>
    rw [List.cons_append, at?, at?]
    cases e.children[i]? with
    | none => rfl
    | some c => exact ih c

section

variable {es : List Expr} {e t : Expr} {i : Nat} {p : Position}

lemma exists_cons_of_atAll? (h : atAll? es p = some t) : ∃ i q, p = i :: q ∧ i < es.length := by
  cases p with
  | nil => cases h
  | cons i q =>
    rw [atAll?] at h
    obtain ⟨c, hc, -⟩ := Option.bind_eq_some_iff.1 h
    exact ⟨i, q, rfl, (List.getElem?_eq_some_iff.1 hc).1⟩

lemma at?_of_atAll?_children (h : atAll? e.children p = some t) : e.at? p = some t := by
  obtain ⟨i, q, rfl, -⟩ := exists_cons_of_atAll? h
  exact h

lemma atAll?_concat_of_lt (hi : i < es.length) :
    atAll? (es ++ [e]) (i :: p) = atAll? es (i :: p) := by
  rw [atAll?, atAll?, List.getElem?_append_left hi]

lemma atAll?_concat_length : atAll? (es ++ [e]) (es.length :: p) = e.at? p := by
  simp [atAll?]

lemma atAll?_concat (h : atAll? es p = some t) : atAll? (es ++ [e]) p = some t := by
  obtain ⟨i, q, rfl, hi⟩ := exists_cons_of_atAll? h
  rwa [atAll?_concat_of_lt hi]

end

/-! ## Visits -/

/-- A node that a rule was asked about, and what the rule would have in its place. -/
structure Visit where
  position : Position
  node : Expr
  answer : Option Expr

/-- A visit in a tree, seen from a node of which the tree is a child. -/
def Visit.below (i : Nat) (v : Visit) : Visit := { v with position := i :: v.position }

/-- None of the nodes above a position was replaced. -/
def Stands (visits : List Visit) (p : Position) : Prop :=
  ∀ v ∈ visits, v.answer.isSome → v.position <+: p → v.position = p

/-- The visits of a walk through a tree from the root down and from left to right.  What stands
where in the tree is told by `look`. -/
structure Covers (look : Position → Option Expr) (visits : List Visit) : Prop where
  node : ∀ v ∈ visits, look v.position = some v.node
  /-- No node is visited twice, and none before a node that precedes it. -/
  order : visits.Pairwise fun v w => v.position < w.position
  /-- The nodes visited are those that stand in no replaced one. -/
  mem_iff : ∀ p, (∃ v ∈ visits, v.position = p) ↔ (look p).isSome ∧ Stands visits p

/-- What a tree has become after some visits.  What stands where in the new tree is told by
`look`. -/
structure Exchanged (look : Position → Option Expr) (visits : List Visit) : Prop where
  /-- Replacements stand where the nodes stood that they replace. -/
  replaced : ∀ v ∈ visits, ∀ t, v.answer = some t → look v.position = some t
  /-- Any other node is what it was, over as many children. -/
  kept : ∀ v ∈ visits, v.answer = none → ∃ e, look v.position = some e ∧ v.node.SameNode e

namespace Stands

variable {visits more : List Visit} {i : Nat} {p : Position}

lemma append_iff : Stands (visits ++ more) p ↔ Stands visits p ∧ Stands more p := by
  simp only [Stands, List.mem_append, or_imp, forall_and]

lemma map_below_iff : Stands (visits.map (Visit.below i)) (i :: p) ↔ Stands visits p := by
  simp [Stands, Visit.below]

end Stands

/-- Visits in other trees have nothing to do with a position. -/
lemma stands_of_apart {visits : List Visit} {i : Nat} {p : Position}
    (apart : ∀ v ∈ visits, ∃ j q, v.position = j :: q ∧ j ≠ i) :
    Stands visits (i :: p) ∧ ¬ ∃ v ∈ visits, v.position = i :: p := by
  constructor
  · intro v hv _ hprefix
    obtain ⟨j, q, hp, hne⟩ := apart v hv
    rw [hp, List.cons_prefix_cons] at hprefix
    exact absurd hprefix.1 hne
  · rintro ⟨v, hv, hp⟩
    obtain ⟨j, q, hq, hne⟩ := apart v hv
    rw [hp] at hq
    exact hne (List.cons.inj hq).1.symm

/-! ## The visits of a tree -/

namespace Covers

variable {es : List Expr} {e : Expr} {visits below : List Visit}

/-- If the root is replaced nothing else is visited. -/
lemma replaced (e t : Expr) : Covers e.at? [⟨[], e, some t⟩] where
  node v hv := by
    rw [List.mem_singleton.1 hv]
    rfl
  order := List.pairwise_singleton _ _
  mem_iff p := by
    constructor
    · rintro ⟨v, hv, rfl⟩
      rw [List.mem_singleton.1 hv]
      exact ⟨rfl, fun w hw _ _ => by rw [List.mem_singleton.1 hw]⟩
    · rintro ⟨-, stands⟩
      exact ⟨_, List.mem_singleton_self _,
        stands _ (List.mem_singleton_self _) rfl List.nil_prefix⟩

/-- If it is not, the visits of the children follow. -/
lemma kept (h : Covers (atAll? e.children) visits) :
    Covers e.at? (⟨[], e, none⟩ :: visits) := by
  constructor
  case node =>
    intro v hv
    rcases List.mem_cons.1 hv with rfl | hv
    · rfl
    · exact at?_of_atAll?_children (h.node v hv)
  case order =>
    refine List.pairwise_cons.2 ⟨fun v hv => ?_, h.order⟩
    obtain ⟨i, q, hp, -⟩ := exists_cons_of_atAll? (h.node v hv)
    rw [hp]
    exact List.nil_lt_cons i q
  case mem_iff =>
    intro p
    have stands : Stands (⟨[], e, none⟩ :: visits) p ↔ Stands visits p := by simp [Stands]
    rw [stands]
    cases p with
    | nil =>
      refine iff_of_true ⟨_, List.mem_cons_self, rfl⟩ ⟨rfl, fun v hv _ hprefix => ?_⟩
      exact List.prefix_nil.1 hprefix
    | cons i q =>
      have look : e.at? (i :: q) = atAll? e.children (i :: q) := rfl
      rw [look, ← h.mem_iff (i :: q)]
      simp

lemma nil : Covers (atAll? []) [] where
  node _ hv := absurd hv List.not_mem_nil
  order := List.Pairwise.nil
  mem_iff p := by cases p <;> simp [atAll?]

/-- Several trees are visited one after the other. -/
lemma concat (h : Covers (atAll? es) visits) (h' : Covers e.at? below) :
    Covers (atAll? (es ++ [e])) (visits ++ below.map (Visit.below es.length)) := by
  have earlier : ∀ v ∈ visits, ∃ i q, v.position = i :: q ∧ i < es.length :=
    fun v hv => exists_cons_of_atAll? (h.node v hv)
  have last : ∀ w ∈ below.map (Visit.below es.length), ∃ q, w.position = es.length :: q := by
    intro w hw
    obtain ⟨w, hw, rfl⟩ := List.mem_map.1 hw
    exact ⟨w.position, rfl⟩
  constructor
  case node =>
    intro v hv
    rcases List.mem_append.1 hv with hv | hv
    · exact atAll?_concat (h.node v hv)
    · obtain ⟨w, hw, rfl⟩ := List.mem_map.1 hv
      exact atAll?_concat_length.trans (h'.node w hw)
  case order =>
    refine List.pairwise_append.2 ⟨h.order, List.pairwise_map.2 (h'.order.imp ?_), ?_⟩
    · intro v w hvw
      exact List.cons_lt_cons_iff.2 (Or.inr ⟨rfl, hvw⟩)
    · intro v hv w hw
      obtain ⟨i, p, hp, hi⟩ := earlier v hv
      obtain ⟨q, hq⟩ := last w hw
      rw [hp, hq]
      exact List.cons_lt_cons_iff.2 (Or.inl hi)
  case mem_iff =>
    intro p
    rw [Stands.append_iff]
    simp only [List.mem_append, or_and_right, exists_or]
    cases p with
    | nil =>
      refine iff_of_false ?_ fun h => Bool.noConfusion h.1
      rintro (⟨v, hv, hp⟩ | ⟨w, hw, hp⟩)
      · obtain ⟨i, q, hq, -⟩ := earlier v hv
        exact absurd (hp.symm.trans hq) (List.cons_ne_nil _ _).symm
      · obtain ⟨q, hq⟩ := last w hw
        exact absurd (hp.symm.trans hq) (List.cons_ne_nil _ _).symm
    | cons i q =>
      -- Either the position is in the last tree or it is not, and visits elsewhere do not matter.
      have notLast (hi : i ≠ es.length) := stands_of_apart (p := q) (i := i) fun w hw => by
        obtain ⟨q', hq'⟩ := last w hw
        exact ⟨_, q', hq', hi.symm⟩
      have notEarlier (hi : es.length ≤ i) := stands_of_apart (p := q) (i := i) fun v hv => by
        obtain ⟨j, q', hq', hj⟩ := earlier v hv
        exact ⟨j, q', hq', by omega⟩
      rcases lt_trichotomy i es.length with hi | rfl | hi
      · obtain ⟨stands, absent⟩ := notLast hi.ne
        simp only [atAll?_concat_of_lt hi, h.mem_iff (i :: q), stands, absent, or_false, and_true]
      · obtain ⟨stands, absent⟩ := notEarlier le_rfl
        rw [atAll?_concat_length, Stands.map_below_iff, and_iff_right stands, ← h'.mem_iff q,
          or_iff_right absent]
        simp [Visit.below]
      · obtain ⟨-, absent⟩ := notLast hi.ne'
        obtain ⟨-, absent'⟩ := notEarlier hi.le
        have outside : atAll? (es ++ [e]) (i :: q) = none := by
          rw [atAll?, List.getElem?_eq_none (by simp; omega)]
          rfl
        rw [outside]
        exact iff_of_false (fun h => h.elim absent' absent) fun h => Bool.noConfusion h.1

end Covers

namespace Exchanged

variable {es : List Expr} {e e' : Expr} {visits below : List Visit}

lemma replaced_root (e t : Expr) : Exchanged t.at? [⟨[], e, some t⟩] where
  replaced v hv t' ht' := by
    rw [List.mem_singleton.1 hv] at ht' ⊢
    exact ht'
  kept v hv hnone := by
    rw [List.mem_singleton.1 hv] at hnone
    cases hnone

lemma kept_root (same : e.SameNode e') (h : Exchanged (atAll? e'.children) visits) :
    Exchanged e'.at? (⟨[], e, none⟩ :: visits) := by
  constructor
  case replaced =>
    intro v hv t ht
    rcases List.mem_cons.1 hv with rfl | hv
    · cases ht
    · exact at?_of_atAll?_children (h.replaced v hv t ht)
  case kept =>
    intro v hv hnone
    rcases List.mem_cons.1 hv with rfl | hv
    · exact ⟨e', rfl, same⟩
    · obtain ⟨t, ht, hsame⟩ := h.kept v hv hnone
      exact ⟨t, at?_of_atAll?_children ht, hsame⟩

lemma concat (h : Exchanged (atAll? es) visits) (h' : Exchanged e.at? below) :
    Exchanged (atAll? (es ++ [e])) (visits ++ below.map (Visit.below es.length)) := by
  constructor
  case replaced =>
    intro v hv t ht
    rcases List.mem_append.1 hv with hv | hv
    · exact atAll?_concat (h.replaced v hv t ht)
    · obtain ⟨w, hw, rfl⟩ := List.mem_map.1 hv
      exact atAll?_concat_length.trans (h'.replaced w hw t ht)
  case kept =>
    intro v hv hnone
    rcases List.mem_append.1 hv with hv | hv
    · obtain ⟨t, ht, same⟩ := h.kept v hv hnone
      exact ⟨t, atAll?_concat ht, same⟩
    · obtain ⟨w, hw, rfl⟩ := List.mem_map.1 hv
      obtain ⟨t, ht, same⟩ := h'.kept w hw hnone
      exact ⟨t, atAll?_concat_length.trans ht, same⟩

end Exchanged

/-! ## There is no choice -/

namespace Covers

variable {look : Position → Option Expr} {before visits visits' : List Visit} {v w : Visit}

lemma eq_of_position (h : Covers look visits) (hv : v ∈ visits) (hw : w ∈ visits)
    (hp : v.position = w.position) : v = w := by
  have nodup : (visits.map (·.position)).Nodup :=
    List.pairwise_map.2 (h.order.imp fun hlt => ne_of_lt hlt)
  exact List.inj_on_of_nodup_map nodup hv hw hp

/-- Where one walk goes on, any other one that agrees so far goes on as well, and not later. -/
lemma exists_le (h : Covers look (before ++ visits)) (h' : Covers look (before ++ w :: visits')) :
    ∃ v rest, visits = v :: rest ∧ v.position ≤ w.position := by
  have hw : w ∈ before ++ w :: visits' := List.mem_append_right _ List.mem_cons_self
  have hbefore : ∀ u ∈ before, u.position < w.position := fun u hu =>
    (List.pairwise_append.1 h'.order).2.2 u hu w List.mem_cons_self
  by_contra none
  -- Otherwise `w` would be passed over, though nothing above it was replaced.
  have later : ∀ u ∈ visits, w.position < u.position := by
    cases visits with
    | nil => exact fun u hu => absurd hu List.not_mem_nil
    | cons v rest =>
      have hlt : w.position < v.position := by
        by_contra hle
        exact none ⟨v, rest, rfl, not_lt.1 hle⟩
      intro u hu
      rcases List.mem_cons.1 hu with rfl | hu
      · exact hlt
      · exact hlt.trans (List.rel_of_pairwise_cons (List.pairwise_append.1 h.order).2.1 hu)
  obtain ⟨found, stands⟩ := (h'.mem_iff w.position).1 ⟨w, hw, rfl⟩
  have stands' : Stands (before ++ visits) w.position := by
    intro u hu hreplaced hprefix
    rcases List.mem_append.1 hu with hu | hu
    · exact stands u (List.mem_append_left _ hu) hreplaced hprefix
    · obtain ⟨q, hq⟩ := hprefix
      exact absurd (later u hu) (by rw [← hq]; exact List.le_append_left)
  obtain ⟨u, hu, hp⟩ := (h.mem_iff w.position).2 ⟨found, stands'⟩
  rcases List.mem_append.1 hu with hu | hu
  · exact absurd (hbefore u hu) (by rw [hp]; exact lt_irrefl _)
  · exact absurd (later u hu) (by rw [hp]; exact lt_irrefl _)

/-- Two walks that agree so far have the same node next. -/
lemma next_eq (h : Covers look (before ++ v :: visits))
    (h' : Covers look (before ++ w :: visits')) : v.position = w.position ∧ v.node = w.node := by
  obtain ⟨_, _, heq, hle⟩ := h.exists_le h'
  obtain ⟨_, _, heq', hle'⟩ := h'.exists_le h
  cases heq
  cases heq'
  have hp := le_antisymm hle hle'
  have hv := h.node v (List.mem_append_right _ List.mem_cons_self)
  have hw := h'.node w (List.mem_append_right _ List.mem_cons_self)
  rw [← hp, hv] at hw
  exact ⟨hp, Option.some.inj hw⟩

/-- The children of a node that is not replaced are visited. -/
lemma exists_visit_child {e c : Expr} {i : Nat} (h : Covers e.at? visits) (hv : v ∈ visits)
    (hanswer : v.answer = none) (hc : v.node.children[i]? = some c) :
    ∃ w ∈ visits, w.position = v.position ++ [i] ∧ w.node = c := by
  have found : e.at? (v.position ++ [i]) = some c := by
    rw [at?_append, h.node v hv]
    simp [at?, hc]
  have stands : Stands visits (v.position ++ [i]) := by
    intro u hu hreplaced hprefix
    rcases List.prefix_concat_iff.1 hprefix with hp | hp
    · exact hp
    · have above := ((h.mem_iff v.position).1 ⟨v, hv, rfl⟩).2 u hu hreplaced hp
      rw [h.eq_of_position hu hv above, hanswer] at hreplaced
      cases hreplaced
  obtain ⟨w, hw, hp⟩ := (h.mem_iff _).2 ⟨by rw [found]; rfl, stands⟩
  have hlook := h.node w hw
  rw [hp, found] at hlook
  exact ⟨w, hw, hp, (Option.some.inj hlook).symm⟩

end Covers

/-- Visits that cover a tree leave one result. -/
theorem Exchanged.unique {e a b : Expr} {visits : List Visit} (covers : Covers e.at? visits)
    (ha : Exchanged a.at? visits) (hb : Exchanged b.at? visits) : a = b := by
  have agree (node : Expr) :
      ∀ v ∈ visits, v.node = node → a.at? v.position = b.at? v.position := by
    induction node using childrenInduction with
    | step node ih =>
      rintro v hv rfl
      cases hanswer : v.answer with
      | some t => rw [ha.replaced v hv t hanswer, hb.replaced v hv t hanswer]
      | none =>
        obtain ⟨a', hat, sameA⟩ := ha.kept v hv hanswer
        obtain ⟨b', hbt, sameB⟩ := hb.kept v hv hanswer
        have children : a'.children = b'.children := by
          refine List.ext_getElem? fun i => ?_
          cases hc : v.node.children[i]? with
          | none =>
            have length := List.getElem?_eq_none_iff.1 hc
            rw [List.getElem?_eq_none (by rw [sameA.length_children]; exact length),
              List.getElem?_eq_none (by rw [sameB.length_children]; exact length)]
          | some c =>
            obtain ⟨w, hw, hp, hnode⟩ := covers.exists_visit_child hv hanswer hc
            have below := ih c (List.mem_of_getElem? hc) w hw hnode
            rw [hp, at?_append, at?_append, hat, hbt] at below
            simpa [at?] using below
        rw [hat, hbt, (sameB.symm.trans sameA).eq_of_children children]
  -- The root is visited.
  obtain ⟨v, hv, hp⟩ := (covers.mem_iff []).2 ⟨rfl, fun u _ _ h => List.prefix_nil.1 h⟩
  have root := agree v.node v hv rfl
  rw [hp] at root
  exact Option.some.inj root

end Expr
end GroupingPlanner

import GroupingPlanner.Proofs.ColumnRepetitions
import GroupingPlanner.Proofs.Regrouping
/-!
# Which grouping sets are told apart

Copies of a row for different grouping sets must not end up in one group, and it is the virtual
columns that keep them apart.  The grouping id has a bit for each expression of the grouping sets.
It tells apart sets with different members, and no virtual column tells apart sets with the same
members: all of them are masks.  So nothing distinguishes the two sets of

    select a, sum(b) as s … group by grouping sets ((a), (a))

The copies made for the second one are added to the groups of the first, and `sum` counts every row
twice.

* `Repetition.groupingIds_eq_iff`: what the grouping id tells.
* `Repetition.copyAt`, `Repetition.copyAt_eq_of_sameMembers`: copies for positions.
* `Aggregation.TellsApart`, `Aggregation.Merges`, `Aggregation.Separates`: what becomes of the
  copies for two positions.
* `Repetition.lower_tellsApart_iff`: which positions are told apart.
* `Repetition.repeatedSet_not_tellsApart`: the query above.
-/

namespace GroupingPlanner

/-! ## Masks of two positions -/

namespace Repetition

variable {r : Repetition} {i j : Nat}

/-- Every virtual column is a mask for some expressions. -/
lemma exists_virtualValues_eq (r : Repetition) (v : VirtualColumn) :
    ∃ es, r.virtualValues v = r.sets.map fun set => absenceMask set es := by
  unfold virtualValues
  cases v.quantity with
  | groupingId => exact ⟨r.items.toList, rfl⟩
  | call call => exact ⟨call.args, rfl⟩

lemma virtualValues_of_standsForId {v : VirtualColumn} (hv : v.standsForId = true) :
    r.virtualValues v = r.groupingIds := by
  obtain ⟨c, _ | call⟩ := v
  · rfl
  · cases hv

variable (hi : i < r.sets.length) (hj : j < r.sets.length)

/-- No virtual column tells apart grouping sets with the same members. -/
lemma virtualValues_eq_of_sameMembers (same : SameMembers r.sets[i] r.sets[j])
    (v : VirtualColumn) : (r.virtualValues v)[i]? = (r.virtualValues v)[j]? := by
  obtain ⟨es, hvalues⟩ := r.exists_virtualValues_eq v
  rw [hvalues, List.getElem?_map, List.getElem?_map, List.getElem?_eq_getElem hi,
    List.getElem?_eq_getElem hj, Option.map_some, Option.map_some,
    absenceMask_eq_of_sameMembers same]

/-- The grouping id tells apart grouping sets with different members. -/
theorem groupingIds_eq_iff (size : r.items.size ≤ groupingIdBits) :
    r.groupingIds[i]? = r.groupingIds[j]? ↔ SameMembers r.sets[i] r.sets[j] := by
  rw [groupingIds, List.getElem?_map, List.getElem?_map, List.getElem?_eq_getElem hi,
    List.getElem?_eq_getElem hj, Option.map_some, Option.map_some, Option.some.injEq]
  constructor
  · intro hmask
    exact sameMembers_of_items (List.getElem_mem hi) (List.getElem_mem hj)
      (contains_eq_of_absenceMask_eq size hmask)
  · intro same
    exact absenceMask_eq_of_sameMembers same _

/-! ## Copies for two positions -/

variable {V : Type} (I : Interpretation V)

/-- The copy of a row for the grouping set at a position. -/
def copyAt (r : Repetition) (i : Nat) (row : Row V) : Row V :=
  r.copyRow I (r.sets.getD i []) i row

/-- Sets with the same members read the same columns. -/
lemma contains_columns_of_sameMembers {set set' : List Expr} (same : SameMembers set set')
    (c : Column) : (set.flatMap Expr.columns).contains c =
      (set'.flatMap Expr.columns).contains c := by
  have transfer : ∀ {es es' : List Expr}, SameMembers es es' →
      (es.flatMap Expr.columns).contains c → (es'.flatMap Expr.columns).contains c := by
    intro es es' same hc
    obtain ⟨c', hc', hbeq⟩ := List.contains_iff_exists_mem_beq.1 hc
    obtain ⟨e, he, hsub⟩ := List.mem_flatMap.1 hc'
    obtain ⟨e', he', hee'⟩ := List.contains_iff_exists_mem_beq.1 ((sameMembers_iff.1 same).1 e he)
    obtain ⟨t, ht, hct⟩ := Expr.exists_subterm_beq hee' (Expr.mem_columns_iff.1 hsub)
    obtain ⟨c'', rfl, hcc⟩ : ∃ c'', t = .column c'' ∧ c' == c'' := by
      replace hct : (Expr.column c').same t = true := hct
      cases t <;> simp_all [Expr.same]
    exact List.contains_iff_exists_mem_beq.2
      ⟨c'', List.mem_flatMap.2 ⟨e', he', Expr.mem_columns_iff.2 ht⟩, BEq.trans hbeq hcc⟩
  rw [Bool.eq_iff_iff]
  exact ⟨transfer same, transfer fun e => (same e).symm⟩

/-- For sets with the same members the copies of a row are the same. -/
theorem copyAt_eq_of_sameMembers (same : SameMembers r.sets[i] r.sets[j]) (row : Row V) :
    r.copyAt I i row = r.copyAt I j row := by
  have column := contains_columns_of_sameMembers same
  have virtual := virtualValues_eq_of_sameMembers hi hj same
  funext id
  simp only [copyAt, copyRow, List.getD_eq_getElem?_getD, List.getElem?_eq_getElem hi,
    List.getElem?_eq_getElem hj, Option.getD_some, column, virtual]

end Repetition

/-! ## What an aggregation makes of two positions -/

namespace Aggregation

/-- Some virtual column that the aggregation groups by has different values for the grouping sets at
two positions. -/
def TellsApart (a : Aggregation) (r : Repetition) (i j : Nat) : Prop :=
  ∃ v ∈ a.groupBy.filterMap Expr.virtual?, (r.virtualValues v)[i]? ≠ (r.virtualValues v)[j]?

instance (a : Aggregation) (r : Repetition) (i j : Nat) : Decidable (a.TellsApart r i j) :=
  inferInstanceAs <| Decidable <|
    ∃ v ∈ a.groupBy.filterMap Expr.virtual?, (r.virtualValues v)[i]? ≠ (r.virtualValues v)[j]?

/-- The copies of any row for the grouping sets at two positions are put into one group. -/
def Merges (a : Aggregation) (r : Repetition) (i j : Nat) : Prop :=
  ∀ (V : Type) (I : Interpretation V) (row : Row V),
    a.groupKey I (r.copyAt I i row) = a.groupKey I (r.copyAt I j row)

/-- Copies for the grouping sets at two positions are never put into one group, whichever rows they
are made of. -/
def Separates (a : Aggregation) (r : Repetition) (i j : Nat) : Prop :=
  ∀ (V : Type) (I : Interpretation V) (row row' : Row V),
    a.groupKey I (r.copyAt I i row) ≠ a.groupKey I (r.copyAt I j row')

end Aggregation

namespace ColumnRepetition

variable (n : ColumnRepetition) {a : Aggregation} (groupBy : a.groupBy = n.groupBy) {i j : Nat}
include groupBy

lemma filterMap_virtual?_groupBy : a.groupBy.filterMap Expr.virtual? = n.virtuals := by
  have columns : (n.keys.toList.map Expr.column).filterMap Expr.virtual? = [] := by
    rw [List.filterMap_map]
    exact List.filterMap_eq_nil_iff.2 fun c _ => rfl
  have virtuals : (n.virtuals.map VirtualColumn.toExpr).filterMap Expr.virtual? = n.virtuals := by
    rw [List.filterMap_map]
    exact (List.filterMap_congr fun v _ => Expr.virtual?_toExpr v).trans List.filterMap_some
  rw [groupBy, ColumnRepetition.groupBy, List.filterMap_append, columns, virtuals, List.nil_append]

/-- An aggregation over a repetition over columns tells apart sets with different members. -/
theorem tellsApart_iff (size : n.toRepetition.items.size ≤ groupingIdBits)
    (hi : i < n.toRepetition.sets.length) (hj : j < n.toRepetition.sets.length) :
    a.TellsApart n.toRepetition i j ↔
      ¬ SameMembers n.toRepetition.sets[i] n.toRepetition.sets[j] := by
  rw [Aggregation.TellsApart, n.filterMap_virtual?_groupBy groupBy]
  constructor
  · rintro ⟨v, -, hne⟩ same
    exact hne (Repetition.virtualValues_eq_of_sameMembers hi hj same v)
  · intro apart
    refine ⟨n.groupingId, List.mem_cons_self, fun heq => apart ?_⟩
    rw [Repetition.virtualValues_of_standsForId n.standsForId] at heq
    exact (Repetition.groupingIds_eq_iff hi hj size).1 heq

/-- Copies with the same key have the same grouping id. -/
lemma groupingId_eq_of_groupKey_eq {V : Type} {I : Interpretation V} {copy copy' : Row V}
    (hkey : a.groupKey I copy = a.groupKey I copy') :
    copy n.groupingId.column.id = copy' n.groupingId.column.id := by
  have hmem : n.groupingId.toExpr ∈ a.groupBy := by
    rw [groupBy]
    exact List.mem_append_right _ (List.mem_map_of_mem List.mem_cons_self)
  have hvalue := List.map_inj_left.1 hkey _ hmem
  rwa [Expr.value_virtual, Expr.value_virtual] at hvalue

end ColumnRepetition

/-! ## Lowered repetitions -/

namespace Stacked.Lowered

variable {r : Repetition} {next : Nat} {x : Stacked r next} {a : Aggregation}
  {copies : List Column} {child : Plan} (lowered : x.Lowered a copies child)
  (below : r.toPlan.IdsBelow next) (virtuals : r.VirtualsApart)
include lowered below virtuals

/-- No other column that is put out has the id of the grouping id. -/
lemma id_ne_groupingId : ∀ c ∈ x.readColumns ++ copies, c.id ≠ x.groupingId.column.id := by
  intro c hc hid
  have hcalls := x.afterCalls_le_nextId
  have hfirst := r.firstCall_le_afterCalls next
  have hnext := r.le_firstCall next
  have old {e : Expr} (he : e ∈ r.exprs) {i : ColumnId} (hi : i ∈ e.ids) : i.number < next :=
    Repetition.number_lt_of_exprs below he hi
  rcases x.groupingId_cases with ⟨e, he, hv⟩ | ⟨hgid, hlast⟩
  · -- The grouping id comes from the query.
    have hexprs : e ∈ r.exprs := List.mem_append_right _ he
    have hlt := old hexprs (Expr.id_mem_ids_of_virtual (Expr.mem_virtuals_iff.1 hv))
    rw [← hid] at hlt
    rcases List.mem_append.1 hc with hc | hc
    · rcases x.readColumn_cases hc with ⟨e', he', t, ht, hplain, p, hp, hpid⟩ | ⟨hle, -⟩
      · exact virtuals e' he' t ht hplain p hp e hexprs _ hv (hpid.trans hid)
      · omega
    · have hnew := lowered.le_number_copy hc
      omega
  · -- The grouping id is new.
    rw [hgid] at hid
    have hnumber : c.id.number = r.afterCalls next := congrArg ColumnId.number hid
    rcases List.mem_append.1 hc with hc | hc
    · rcases x.readColumn_cases hc with ⟨e', he', t, ht, -, p, hp, hpid⟩ | ⟨-, hlt⟩
      · have hlt := old he' (Expr.mem_ids_iff.2 ⟨t, ht, p, hp, hpid⟩)
        omega
      · omega
    · have hnew := lowered.le_number_copy hc
      omega

/-- The copies that a lowered repetition makes carry the grouping id of their set. -/
lemma copyAt_groupingId {V : Type} (I : Interpretation V) (k : Nat) (row : Row V) :
    (x.withCopies copies child).toRepetition.copyAt I k row x.groupingId.column.id =
      I.mask ((x.withCopies copies child).toRepetition.groupingIds.getD k 0) := by
  have houtput : (x.withCopies copies child).toRepetition.output =
      (x.readColumns ++ copies).map Expr.column ++
        (x.substituted.virtualColumns x.groupingId).map VirtualColumn.toExpr := by
    rw [readColumns, List.append_assoc]
    rfl
  rw [← Repetition.virtualValues_of_standsForId (x.withCopies copies child).standsForId]
  exact Repetition.copyRow_virtual_of_first houtput (List.find?_cons_of_pos (by simp))
    (lowered.id_ne_groupingId below virtuals) _ k row

/-- What is told apart is kept apart. -/
theorem separates_of_tellsApart {i j : Nat}
    (size : (x.withCopies copies child).toRepetition.items.size ≤ groupingIdBits)
    (hi : i < (x.withCopies copies child).toRepetition.sets.length)
    (hj : j < (x.withCopies copies child).toRepetition.sets.length)
    (apart : a.TellsApart (x.withCopies copies child).toRepetition i j) :
    a.Separates (x.withCopies copies child).toRepetition i j := by
  intro V I row row' hkey
  rw [(x.withCopies copies child).tellsApart_iff lowered.groupBy_eq size hi hj,
    ← Repetition.groupingIds_eq_iff hi hj size] at apart
  have hgid := (x.withCopies copies child).groupingId_eq_of_groupKey_eq lowered.groupBy_eq hkey
  have hmask := (lowered.copyAt_groupingId below virtuals I i row).symm.trans
    (hgid.trans (lowered.copyAt_groupingId below virtuals I j row'))
  have ids {k : Nat} (hk : k < (x.withCopies copies child).toRepetition.sets.length) :
      (x.withCopies copies child).toRepetition.groupingIds[k]? =
        some ((x.withCopies copies child).toRepetition.groupingIds.getD k 0) := by
    rw [Repetition.groupingIds, List.getD_eq_getElem?_getD, List.getElem?_map,
      List.getElem?_eq_getElem hk]
    rfl
  exact apart (by rw [ids hi, ids hj, I.mask_injective hmask])

end Stacked.Lowered

namespace Repetition

variable {r : Repetition} {settings : Settings} {s s' : Session} {a : Aggregation}

/-- In a hygienic repetition grouping sets have the same members exactly if the columns that stand
for their members are the same. -/
lemma Hygienic.sameMembers_substitute {next : Nat} (h : r.Hygienic next) (x : Stacked r next)
    {set set' : List Expr} (hset : set ∈ r.sets) (hset' : set' ∈ r.sets) :
    SameMembers (set.map (r.bindingsAt next).substitute)
      (set'.map (r.bindingsAt next).substitute) ↔ SameMembers set set' := by
  have early {set : List Expr} (hset : set ∈ r.sets) {e : Expr} (he : e ∈ set) :
      r.early.contains e :=
    early_of_item (contains_items_of_mem (List.mem_flatten.2 ⟨set, hset, he⟩))
  rw [sameMembers_iff, sameMembers_iff]
  simp only [List.forall_mem_map]
  refine and_congr (forall₂_congr fun e he => ?_) (forall₂_congr fun e he => ?_)
  · rw [h.contains_substitute x hset' (early hset he)]
  · rw [h.contains_substitute x hset (early hset' he)]

/-- The virtual columns of a lowered repetition tell apart the grouping sets with different members.
The copies of a row for sets that are not told apart are merged, and copies for sets that are told
apart are not, provided that virtual columns have ids of their own.  In a hygienic repetition it is
the sets of the query that have different members. -/
theorem lower_tellsApart_iff (run : (r.lower settings).runIn s = (.ok a, s')) :
    ∃ r' : Repetition, a.child = r'.toPlan ∧ r'.sets.length = r.sets.length ∧
      (∀ (i j : Nat) (hi : i < r'.sets.length) (hj : j < r'.sets.length),
        (a.TellsApart r' i j ↔ ¬ SameMembers r'.sets[i] r'.sets[j]) ∧
          (¬ a.TellsApart r' i j → a.Merges r' i j) ∧
            (r.toPlan.IdsBelow s.nextId → r.VirtualsApart →
              a.TellsApart r' i j → a.Separates r' i j)) ∧
      (r.Hygienic s.nextId → ∀ (i j : Nat) (hi : i < r.sets.length) (hj : j < r.sets.length),
        (a.TellsApart r' i j ↔ ¬ SameMembers r.sets[i] r.sets[j])) := by
  obtain ⟨hcheck, hitems, x, s₁, hnext, separated⟩ := lower_eq_ok run
  obtain ⟨copies, child, lowered⟩ := x.lowered_of_separate hnext separated
  have size : (x.withCopies copies child).toRepetition.items.size ≤ groupingIdBits :=
    x.size_items_le.trans (size_le_of_check hcheck hitems)
  have sets : (x.withCopies copies child).toRepetition.sets =
      r.sets.map (·.map (r.bindingsAt s.nextId).substitute) := x.setExprs_eq
  have apart_iff {i j : Nat} (hi : i < (x.withCopies copies child).toRepetition.sets.length)
      (hj : j < (x.withCopies copies child).toRepetition.sets.length) :=
    (x.withCopies copies child).tellsApart_iff lowered.groupBy_eq size hi hj
  refine ⟨_, lowered.child_eq, by rw [sets, List.length_map],
    fun i j hi hj => ⟨apart_iff hi hj, ?_, fun below virtuals =>
      lowered.separates_of_tellsApart below virtuals size hi hj⟩, fun h i j hi hj => ?_⟩
  · intro merged V I row
    rw [apart_iff hi hj, not_not] at merged
    rw [copyAt_eq_of_sameMembers hi hj I merged]
  · have hi' : i < (x.withCopies copies child).toRepetition.sets.length := by
      rwa [sets, List.length_map]
    have hj' : j < (x.withCopies copies child).toRepetition.sets.length := by
      rwa [sets, List.length_map]
    refine (apart_iff hi' hj').trans (not_congr ?_)
    simp only [sets, List.getElem_map]
    exact h.sameMembers_substitute x (List.getElem_mem hi) (List.getElem_mem hj)

theorem lower_tellsApart_iff_markedSums :
    ∃ a s', (markedSums.lower {}).runIn { nextId := 5 } = (.ok a, s') ∧
      ∃ r' : Repetition, a.child = r'.toPlan ∧ r'.sets.length = 2 ∧ a.TellsApart r' 0 1 ∧
        a.Separates r' 0 1 := by
  obtain ⟨a, s', run⟩ : ∃ a s', (markedSums.lower {}).runIn { nextId := 5 } = (.ok a, s') :=
    ⟨_, _, rfl⟩
  obtain ⟨r', hchild, hlength, positions, hygienic⟩ := lower_tellsApart_iff run
  have two : r'.sets.length = 2 := hlength
  have apart := (hygienic markedSums_hygienic 0 1 (by decide) (by decide)).2 (by decide)
  obtain ⟨-, -, separates⟩ := positions 0 1 (by omega) (by omega)
  exact ⟨a, s', run, r', hchild, two, apart, separates markedSums_hygienic.below
    (VirtualFree.virtualsApart markedSums_hygienic.no_virtual) apart⟩

/-- `select a, sum(b) as s … group by grouping sets ((a), (a))`. -/
def repeatedSet : Repetition :=
  let a : Column := ⟨⟨0⟩, "a", .integer, true⟩
  let b : Column := ⟨⟨1⟩, "b", .integer, true⟩
  { sets := [[.column a], [.column a]]
    output := [.column a, .named ⟨2⟩ "s" (.aggregate .sum [.column b] false)]
    child := .scan "t" [a, b] }

/-- No virtual column tells the two grouping sets apart, and every row is put into one group
twice. -/
theorem repeatedSet_not_tellsApart :
    ∃ a s', (repeatedSet.lower {}).runIn { nextId := 3 } = (.ok a, s') ∧
      ∃ r' : Repetition, a.child = r'.toPlan ∧ r'.sets.length = 2 ∧ ¬ a.TellsApart r' 0 1 ∧
        a.Merges r' 0 1 := by
  refine ⟨_, _, rfl, ⟨_, _, _⟩, rfl, rfl, by decide, fun V I row => ?_⟩
  exact congrArg _ (copyAt_eq_of_sameMembers (i := 0) (j := 1) (by decide) (by decide) I
    (by decide) row)

end Repetition
end GroupingPlanner

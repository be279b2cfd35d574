import GroupingPlanner.Proofs.Duplication
import Mathlib.Order.Bounds.Basic
/-!
# The names of duplicates

A duplicate is called as the column it stands for, with apostrophes after the name.  How many there
are depends on what is taken: the names that the repetition puts out, those of the plan below it,
and those of the duplicates that came before.  As few are put as make the name new.

The name can be searched for one apostrophe at a time (`Search`).  Nothing in the loop gets smaller,
but every name it passes is taken, and these names are different, since each is longer than the one
before.  So the loop ends after one more step than there are names taken at most.

* `LeastPrimed`: the least number of apostrophes that makes a name new.
* `Search`, `Search.unique`: the loop, and that it has one outcome.
* `unusedName_leastPrimed`, `LeastPrimed.search`: the name chosen is the least one, and the loop
  finds it in time.
* `Plan.names`, `Ground.namesOf_list_eq`: the names that the plan below the repetition exposes, read
  off in one way although there are two ways to define duplicates.
* `Ground.leastPrimed_duplicatesFrom`: what holds of each duplicate in turn.
* `Aggregation.separate_duplicateNames`: what the duplicates in a result are called.
-/

namespace GroupingPlanner

/-! ## The least name -/

/-- A name is the original with apostrophes after it, at least one and as few as make it new. -/
def LeastPrimed (taken : List String) (original name : String) : Prop :=
  ∃ count, IsLeast {count | 1 ≤ count ∧ primed original count ∉ taken} count ∧
    name = primed original count

lemma primed_one (name : String) : primed name 1 = name ++ "'" := by
  rw [primed, List.replicate_one]
  simp [String.join]

lemma primed_succ (name : String) (count : Nat) :
    primed name (count + 1) = primed name count ++ "'" := by
  rw [primed, primed, List.replicate_succ', String.append_assoc]
  simp [String.join]

lemma primed_injective (name : String) : Function.Injective (primed name) := by
  intro count count' heq
  have hlength := congrArg String.length heq
  rw [length_primed, length_primed] at hlength
  omega

/-- The name chosen has as few apostrophes as possible. -/
theorem unusedName_leastPrimed (taken : List String) (name : String) :
    LeastPrimed taken name (unusedName taken name) := by
  have free := unusedName_not_mem taken name
  unfold unusedName at free ⊢
  dsimp only at free ⊢
  rw [List.find?_map] at free ⊢
  cases hfind : (List.range (taken.length + 1)).find?
      ((fun candidate => !taken.contains candidate) ∘ fun i => primed name (i + 1)) with
  | none =>
    -- The first name tried would be taken, and it would be the one chosen.
    rw [hfind, Option.map_none, Option.getD_none] at free
    have first := List.find?_eq_none.1 hfind 0 (List.mem_range.2 (Nat.succ_pos _))
    exact absurd (by simpa using first) free
  | some i =>
    rw [hfind, Option.map_some, Option.getD_some] at free
    obtain ⟨-, -, before⟩ := List.find?_range_eq_some.1 hfind
    refine ⟨i + 1, ⟨⟨Nat.succ_pos i, free⟩, ?_⟩, rfl⟩
    rintro (_ | count) ⟨hpos, hcount⟩
    · exact absurd hpos (Nat.not_succ_le_zero 0)
    · by_contra hlt
      have hbefore := before count (by omega)
      exact hcount (by simpa using hbefore)

/-! ## The search -/

/-- Trying names one by one: a name that is taken gets one more apostrophe, and the first name that
is not taken is the result.  The number counts the names tried. -/
inductive Search (taken : List String) : (candidate : String) → (tries : Nat) → String → Prop
  | found {name : String} (free : name ∉ taken) : Search taken name 1 name
  | again {name result : String} {tries : Nat} (hit : name ∈ taken)
      (rest : Search taken (name ++ "'") tries result) : Search taken name (tries + 1) result

/-- A search has one outcome. -/
theorem Search.unique {taken : List String} {name result result' : String} {tries tries' : Nat}
    (h : Search taken name tries result) (h' : Search taken name tries' result') :
    tries' = tries ∧ result' = result := by
  induction h generalizing tries' with
  | found free =>
    cases h' with
    | found => exact ⟨rfl, rfl⟩
    | again hit => exact absurd hit free
  | again hit _ ih =>
    cases h' with
    | found free => exact absurd hit free
    | again _ rest' =>
      obtain ⟨rfl, rfl⟩ := ih rest'
      exact ⟨rfl, rfl⟩

namespace LeastPrimed

variable {taken taken' : List String} {original name name' : String}

lemma congr (same : ∀ n, n ∈ taken ↔ n ∈ taken') (h : LeastPrimed taken original name) :
    LeastPrimed taken' original name := by
  unfold LeastPrimed at h ⊢
  simpa only [same] using h

/-- There is one least name. -/
lemma unique (h : LeastPrimed taken original name) (h' : LeastPrimed taken original name') :
    name = name' := by
  obtain ⟨count, least, rfl⟩ := h
  obtain ⟨count', least', rfl⟩ := h'
  rw [least.unique least']

/-- A search passes the taken names and ends with the least one that is not taken.  It tries no more
names than there are names taken, and one more. -/
theorem search (h : LeastPrimed taken original name) :
    ∃ tries, tries ≤ taken.toFinset.card + 1 ∧ Search taken (original ++ "'") tries name := by
  obtain ⟨count, ⟨⟨hpos, free⟩, least⟩, rfl⟩ := h
  have passed : ∀ k, 1 ≤ k → k < count → primed original k ∈ taken := by
    intro k hk hlt
    by_contra hfree
    exact absurd (least ⟨hk, hfree⟩) (Nat.not_le.2 hlt)
  -- The induction is on how many names are still to be passed.
  have from_name : ∀ left k, 1 ≤ k → k + left = count →
      Search taken (primed original k) (left + 1) (primed original count) := by
    intro left
    induction left with
    | zero =>
      rintro k - rfl
      exact .found free
    | succ left ih =>
      intro k hk hsum
      refine .again (passed k hk (by omega)) ?_
      rw [← primed_succ]
      exact ih (k + 1) (by omega) (by omega)
  have different : (Finset.Ico 1 count).card ≤ taken.toFinset.card := by
    refine Finset.card_le_card_of_injOn (primed original) (fun k hk => ?_)
      (primed_injective original).injOn
    obtain ⟨hk, hlt⟩ := Finset.mem_Ico.1 (Finset.mem_coe.1 hk)
    exact Finset.mem_coe.2 (List.mem_toFinset.2 (passed k hk hlt))
  rw [Nat.card_Ico] at different
  have whole := from_name (count - 1) 1 le_rfl (by omega)
  rw [primed_one] at whole
  exact ⟨count - 1 + 1, by omega, whole⟩

end LeastPrimed

/-- Whatever is taken, a search ends in time, and with the name chosen. -/
theorem search_unusedName (taken : List String) (name : String) :
    ∃ tries, tries ≤ taken.toFinset.card + 1 ∧
      Search taken (name ++ "'") tries (unusedName taken name) :=
  (unusedName_leastPrimed taken name).search

/-! ## The names below a repetition -/

namespace Plan

/-- The names of the columns that a plan exposes; entries without a name are passed over. -/
def names : Plan → List String
  | scan _ columns => columns.map (·.name)
  | projection list _ => namesOf list
  | repetition _ output _ => namesOf output
  | aggregation _ output _ => namesOf output

lemma names_of_schema {p : Plan} {cs : List Column} (h : p.schema = .ok cs) :
    p.names = cs.map (·.name) := by
  cases p with
  | scan relation columns =>
    cases h
    rfl
  | _ => exact namesOf_of_columnsOf h

end Plan

namespace Ground

variable {g : Ground} {cs : List Column}

/-- Whichever projection duplicates are added to, its names are those of the plan below. -/
lemma namesOf_list_eq {child : Plan} (hg : forColumns child cs = .ok g) :
    namesOf g.list = child.names := by
  rcases forColumns_cases hg with hchild | ⟨-, ⟨schema, hschema, -⟩, -⟩
  · rw [hchild]
    rfl
  · rw [namesOf_list hg hschema, Plan.names_of_schema hschema]

/-- Each duplicate has the least name that is new at its turn. -/
theorem leastPrimed_duplicatesFrom {next : Nat} {taken : List String}
    {earlier later : List Duplicate} {d : Duplicate}
    (h : g.duplicatesFrom next taken cs = earlier ++ d :: later) :
    LeastPrimed (taken ++ earlier.map (·.copy.name)) d.column.name d.copy.name := by
  induction cs generalizing next taken earlier with
  | nil => simp [duplicatesFrom] at h
  | cons c cs ih =>
    unfold duplicatesFrom at h
    cases hsource : g.source? c with
    | none =>
      rw [hsource] at h
      exact ih h
    | some source =>
      rw [hsource] at h
      cases earlier with
      | nil =>
        rw [List.nil_append, List.cons.injEq] at h
        rw [← h.1, List.map_nil, List.append_nil]
        exact unusedName_leastPrimed taken c.name
      | cons first earlier =>
        rw [List.cons_append, List.cons.injEq] at h
        -- Further down the name of the first duplicate is taken as well.
        refine (ih h.2).congr fun n => ?_
        have name : first.copy.name = unusedName taken c.name := by
          rw [← h.1]
          rfl
        rw [List.map_cons, name, List.mem_append, List.mem_append, List.mem_cons, List.mem_cons]
        exact or_assoc.trans or_left_comm

end Ground

/-! ## Duplicates in a result -/

/-- The duplicates that an aggregation `b` over a repetition `r'` was made to read, where it was an
aggregation `a` over a repetition `r`, and their names. -/
structure DuplicateNames (a b : Aggregation) (r r' : Repetition) (ds : List Duplicate) :
    Prop where
  /-- There is one duplicate for each grouping column that an aggregate reads, in order. -/
  columns : ds.map (·.column) = a.conflicts r
  unchanged : ds = [] → b = a ∧ r' = r
  /-- Aggregates read the duplicates, -/
  renamed : b.output = a.output.map
    (Expr.mapAggregateArguments (Expr.replaceColumns (Duplicate.copyOf? ds)))
  /-- the repetition puts them out, -/
  output : ds ≠ [] → r'.output = (r.output.filter fun e => e.virtual?.isNone) ++
    ds.map (fun d => .column d.copy) ++ r.output.filter fun e => e.virtual?.isSome
  /-- and the projection below defines them, after entries with the names that were there. -/
  defined : ds ≠ [] → ∃ list input, namesOf list = r.child.names ∧
    r'.child = .projection (list ++ ds.map (·.definition.toExpr)) input
  /-- A duplicate has as few apostrophes as the names around it and those before it admit. -/
  least : ∀ earlier d later, ds = earlier ++ d :: later →
    LeastPrimed (namesOf r.output ++ r.child.names ++ earlier.map (·.copy.name)) d.column.name
      d.copy.name
  nodup : (ds.map (·.copy.name)).Nodup
  free : ∀ d ∈ ds, d.copy.name ∉ namesOf r.output ∧ d.copy.name ∉ r.child.names

namespace Aggregation

variable {a b : Aggregation} {r : Repetition}

lemma duplicateNames_refl (none : a.conflicts r = []) : DuplicateNames a a r r [] where
  columns := none.symm
  unchanged _ := ⟨rfl, rfl⟩
  renamed := (separation_refl none 0).renamed
  output h := absurd rfl h
  defined h := absurd rfl h
  least earlier d later h := by simp at h
  nodup := List.nodup_nil
  free d hd := absurd hd List.not_mem_nil

lemma duplicateNames_reading {g : Ground} {ds : List Duplicate} {next : Nat}
    (some_conflict : a.conflicts r ≠ [])
    (hg : Ground.forColumns r.child (a.conflicts r) = .ok g)
    (found : ∀ c ∈ a.conflicts r, (g.source? c).isSome)
    (hds : ds = g.duplicatesFrom next (namesOf r.output ++ namesOf g.list) (a.conflicts r)) :
    DuplicateNames a (a.reading r g ds) r (r.duplicating g ds) ds := by
  have columns : ds.map (·.column) = a.conflicts r := by
    rw [hds]
    exact Ground.columns_duplicatesFrom found _ _
  have names := Ground.namesOf_list_eq hg
  rw [names] at hds
  obtain ⟨nodup, free⟩ : (ds.map (·.copy.name)).Nodup ∧
      ∀ d ∈ ds, d.copy.name ∉ namesOf r.output ++ r.child.names := by
    rw [hds]
    exact Ground.names_duplicatesFrom _ _
  constructor
  case columns => exact columns
  case unchanged =>
    rintro rfl
    exact absurd columns.symm some_conflict
  case renamed => rfl
  case output => exact fun _ => rfl
  case defined => exact fun _ => ⟨g.list, g.input, names, rfl⟩
  case least =>
    intro earlier d later hsplit
    rw [hds] at hsplit
    exact Ground.leastPrimed_duplicatesFrom hsplit
  case nodup => exact nodup
  case free => exact fun d hd => not_or.1 (mt List.mem_append.2 (free d hd))

/-- Whatever names are taken, the search for a new one ends, after one more step than there are
names at most, and always with the name that is chosen.  And in every result the duplicates have
the least names that are new at their turn, so that they are different from each other and from all
names around them. -/
theorem separate_duplicateNames :
    (∀ (taken : List String) (name : String), ∃ tries, tries ≤ taken.toFinset.card + 1 ∧
      Search taken (name ++ "'") tries (unusedName taken name) ∧
      ∀ tries' result, Search taken (name ++ "'") tries' result →
        tries' = tries ∧ result = unusedName taken name) ∧
    ∀ (a b : Aggregation) (r : Repetition) (s s' : Session), a.child = r.toPlan →
      a.separate.runIn s = (.ok b, s') →
        ∃ r' ds, b.child = Repetition.toPlan r' ∧ DuplicateNames a b r r' ds := by
  constructor
  · intro taken name
    obtain ⟨tries, hle, search⟩ := search_unusedName taken name
    exact ⟨tries, hle, search, fun tries' result other => search.unique other⟩
  · intro a b r s s' hchild run
    rcases separate_eq_ok hchild run with ⟨hnone, rfl, -⟩ | ⟨g, hsome, hg, found, -, rfl⟩
    · exact ⟨r, [], hchild, duplicateNames_refl hnone⟩
    · exact ⟨_, _, child_reading a r g _, duplicateNames_reading hsome hg found rfl⟩

/-- `select a, sum(a) … group by grouping sets ((a), ())` over columns `a` and `a'`, and what it
reads. -/
def primedKey : Repetition :=
  let a : Column := ⟨⟨0⟩, "a", .integer, true⟩
  ⟨[[.column a], []], [.column a, .groupingIdColumn ⟨⟨1⟩, "GROUPING_ID", .integer, false⟩],
    .scan "t" [a, ⟨⟨2⟩, "a'", .integer, true⟩]⟩

/-- The aggregation over `primedKey`. -/
def summedPrimedKey : Aggregation :=
  let a : Column := ⟨⟨0⟩, "a", .integer, true⟩
  { groupBy := primedKey.output
    output := [.column a, .named ⟨3⟩ "s" (.aggregate .sum [.column a] false)]
    child := primedKey.toPlan }

theorem separate_duplicateNames_summedPrimedKey :
    (∃ tries, tries ≤ ["a'"].toFinset.card + 1 ∧ Search ["a'"] "a'" tries "a''") ∧
    ∃ b s' r' ds, summedPrimedKey.separate.runIn { nextId := 4 } = (.ok b, s') ∧
      b.child = Repetition.toPlan r' ∧ DuplicateNames summedPrimedKey b primedKey r' ds ∧
      ds.map (·.copy.name) = ["a''"] := by
  constructor
  · obtain ⟨tries, hle, search, -⟩ := separate_duplicateNames.1 ["a'"] "a"
    exact ⟨tries, hle, search⟩
  · obtain ⟨b, s', run⟩ : ∃ b s', summedPrimedKey.separate.runIn { nextId := 4 } = (.ok b, s') :=
      ⟨_, _, rfl⟩
    obtain ⟨r', ds, hchild, names⟩ := separate_duplicateNames.2 _ b primedKey _ s' rfl run
    refine ⟨b, s', r', ds, run, hchild, names, ?_⟩
    -- There is one duplicate, that of `a`.
    obtain ⟨d, rfl, hcolumn⟩ : ∃ d, ds = [d] ∧ d.column = ⟨⟨0⟩, "a", .integer, true⟩ :=
      List.map_eq_singleton_iff.1 names.columns
    have least := names.least [] d [] rfl
    rw [hcolumn] at least
    have name : d.copy.name = unusedName ["a", "GROUPING_ID", "a", "a'"] "a" :=
      least.unique (unusedName_leastPrimed _ _)
    rw [List.map_singleton, name]
    decide

end Aggregation
end GroupingPlanner

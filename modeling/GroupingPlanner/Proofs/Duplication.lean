import GroupingPlanner.Proofs.Renaming
import GroupingPlanner.Proofs.Runs
import GroupingPlanner.Proofs.Scope
/-!
# Duplicates keep aggregates apart from what is nulled

A repetition nulls the columns it groups by.  `Aggregation.separate` lets aggregates read duplicates
of such columns instead, and this module says what it may change and what it may not.  The argument
rests on two facts about `Ground.duplicatesFrom`: the duplicates stand for the conflicting columns
in order, and their ids are the free ones in order.  So a duplicate is never mistaken for a column
that was there before, and renaming the duplicates back is well defined.

* `unusedName_not_mem`: the name found for a duplicate is not taken.
* `Ground.columns_duplicatesFrom`, `Ground.numbers_duplicatesFrom`, `Ground.source_duplicatesFrom`,
  `Ground.names_duplicatesFrom`: what duplicates stand for, their ids, what evaluates them, and
  their names.
* `Separation`: all that `separate` promises.
* `Aggregation.separation_of_separate`: a successful run keeps the promise.
-/

namespace GroupingPlanner

/-! ## Names that are not taken -/

lemma length_primed (name : String) (count : Nat) :
    (primed name count).length = name.length + count := by
  have single : "'".length = 1 := rfl
  rw [primed, String.length_append, String.length_join, List.map_replicate, List.sum_replicate,
    single, smul_eq_mul, Nat.mul_one]

/-- Some of the names tried is not taken: they have different lengths, and there are more of them
than names taken. -/
theorem unusedName_not_mem (taken : List String) (name : String) :
    unusedName taken name ∉ taken := by
  generalize hcandidates : ((List.range (taken.length + 1)).map fun i => primed name (i + 1)) =
    candidates
  have length : candidates.length = taken.length + 1 := by
    rw [← hcandidates, List.length_map, List.length_range]
  have nodup : candidates.Nodup := by
    rw [← hcandidates]
    refine List.Nodup.map_on (fun i _ j _ heq => ?_) List.nodup_range
    have hlength := congrArg String.length heq
    rw [length_primed, length_primed] at hlength
    omega
  obtain ⟨candidate, hcandidate, hfree⟩ : ∃ candidate ∈ candidates, candidate ∉ taken := by
    by_contra all_taken
    push Not at all_taken
    have hle := (nodup.subperm all_taken).length_le
    omega
  obtain ⟨unused, hunused⟩ := Option.isSome_iff_exists.1 <|
    List.find?_isSome (p := fun candidate => !taken.contains candidate).2
      ⟨candidate, hcandidate, by simpa using hfree⟩
  have free := List.find?_some hunused
  rw [unusedName, hcandidates, hunused, Option.getD_some]
  simpa using free

/-- Named entries have the names of the columns they produce. -/
lemma namesOf_of_columnsOf {owner : Entity} {es : List Expr} {cs : List Column}
    (h : Plan.columnsOf owner es = .ok cs) : namesOf es = cs.map (·.name) := by
  rw [Plan.columnsOf_eq_ok_iff] at h
  have produced : es.filterMap Expr.produced? = cs := by
    have listed := congrArg (List.filterMap id) h
    rw [List.filterMap_map, List.filterMap_map] at listed
    exact listed.trans List.filterMap_some
  rw [namesOf, produced]

/-! ## The duplicates -/

namespace Ground

variable {g : Ground} {cs : List Column}

/-- Each column gets one duplicate, in order. -/
lemma columns_duplicatesFrom (found : ∀ c ∈ cs, (g.source? c).isSome) (next : Nat)
    (taken : List String) : (g.duplicatesFrom next taken cs).map (·.column) = cs := by
  induction cs generalizing next taken with
  | nil => rfl
  | cons c cs ih =>
    obtain ⟨source, hsource⟩ := Option.isSome_iff_exists.1 (found c List.mem_cons_self)
    simp only [duplicatesFrom, hsource, List.map_cons]
    rw [ih fun d hd => found d (List.mem_cons_of_mem _ hd)]

/-- The ids of duplicates are consecutive. -/
lemma numbers_duplicatesFrom (found : ∀ c ∈ cs, (g.source? c).isSome) (next : Nat)
    (taken : List String) :
    (g.duplicatesFrom next taken cs).map (·.copy.id.number) = List.range' next cs.length := by
  induction cs generalizing next taken with
  | nil => rfl
  | cons c cs ih =>
    obtain ⟨source, hsource⟩ := Option.isSome_iff_exists.1 (found c List.mem_cons_self)
    simp only [duplicatesFrom, hsource, List.map_cons, List.length_cons, List.range'_succ]
    rw [ih fun d hd => found d (List.mem_cons_of_mem _ hd)]
    rfl

/-- A duplicate is evaluated by what evaluates the column it stands for. -/
lemma source_duplicatesFrom {next : Nat} {taken : List String} {d : Duplicate}
    (h : d ∈ g.duplicatesFrom next taken cs) : g.source? d.column = some d.definition.child := by
  induction cs generalizing next taken with
  | nil => exact absurd h List.not_mem_nil
  | cons c cs ih =>
    unfold duplicatesFrom at h
    cases hsource : g.source? c with
    | none =>
      rw [hsource] at h
      exact ih h
    | some source =>
      rw [hsource] at h
      rcases List.mem_cons.1 h with rfl | h
      · exact hsource
      · exact ih h

/-- The names of duplicates differ from each other and from those taken. -/
theorem names_duplicatesFrom (next : Nat) (taken : List String) :
    ((g.duplicatesFrom next taken cs).map (·.copy.name)).Nodup ∧
      ∀ d ∈ g.duplicatesFrom next taken cs, d.copy.name ∉ taken := by
  induction cs generalizing next taken with
  | nil => exact ⟨List.nodup_nil, fun d hd => absurd hd List.not_mem_nil⟩
  | cons c cs ih =>
    unfold duplicatesFrom
    cases hsource : g.source? c with
    | none => exact ih next taken
    | some source =>
      obtain ⟨nodup, free⟩ := ih (next + 1) (unusedName taken c.name :: taken)
      dsimp only
      refine ⟨?_, fun d hd => ?_⟩
      · rw [List.map_cons, List.nodup_cons]
        refine ⟨fun hmem => ?_, nodup⟩
        obtain ⟨d, hd, hname⟩ := List.mem_map.1 hmem
        exact free d hd (hname ▸ List.mem_cons_self)
      · rcases List.mem_cons.1 hd with rfl | hd
        · exact unusedName_not_mem taken c.name
        · exact fun hmem => free d hd (List.mem_cons_of_mem _ hmem)

lemma forColumns_cases {child : Plan} (hg : forColumns child cs = .ok g) :
    child = .projection g.list g.input ∨
      g.input = child ∧ (∃ schema, child.schema = .ok schema ∧ g.list = schema.map Expr.column) ∧
        ∀ list input, child = .projection list input → ∃ c ∈ cs, definingExpr? list c = none := by
  have handed {p : Plan} (h : handingOn p = .ok g) :
      g.input = p ∧ ∃ schema, p.schema = .ok schema ∧ g.list = schema.map Expr.column := by
    unfold handingOn at h
    cases hschema : p.schema with
    | error f => simp [hschema, Except.map] at h
    | ok schema =>
      simp only [hschema, Except.map, Except.ok.injEq] at h
      subst h
      exact ⟨rfl, schema, rfl, rfl⟩
  unfold forColumns at hg
  split at hg
  · rename_i list input
    split at hg
    · cases hg
      exact Or.inl rfl
    · rename_i hsome
      refine Or.inr ⟨(handed hg).1, (handed hg).2, fun list' input' heq => ?_⟩
      cases heq
      simpa using hsome
  · rename_i hother
    exact Or.inr ⟨(handed hg).1, (handed hg).2,
      fun list input heq => absurd heq (hother list input)⟩

/-- The ground exposes what the child exposes. -/
lemma columnsOf_list {child : Plan} {schema : List Column} (hg : forColumns child cs = .ok g)
    (hschema : child.schema = .ok schema) : Plan.columnsOf .projection g.list = .ok schema := by
  rcases forColumns_cases hg with heq | ⟨-, ⟨schema', hschema', hlist⟩, -⟩
  · rwa [heq] at hschema
  · rw [hschema, Except.ok.injEq] at hschema'
    rw [hlist, Plan.columnsOf_eq_ok_iff, List.map_map, hschema']
    rfl

/-- The names taken in the ground are those of the columns that the child exposes. -/
lemma namesOf_list {child : Plan} {schema : List Column} (hg : forColumns child cs = .ok g)
    (hschema : child.schema = .ok schema) : namesOf g.list = schema.map (·.name) :=
  namesOf_of_columnsOf (columnsOf_list hg hschema)

lemma ids_forColumns {child : Plan} (hg : forColumns child cs = .ok g) {i : ColumnId}
    (hi : i ∈ g.list.flatMap Expr.ids) : i ∈ child.ids := by
  rcases forColumns_cases hg with hchild | ⟨-, ⟨schema, hschema, hlist⟩, -⟩
  · rw [hchild]
    exact List.mem_append_left _ hi
  · rw [hlist, List.flatMap_map] at hi
    obtain ⟨c, hc, hic⟩ := List.mem_flatMap.1 hi
    obtain ⟨t, ht, p, hp, rfl⟩ := Expr.mem_ids_iff.1 hic
    rw [Expr.subterms_column] at ht
    obtain rfl := List.mem_singleton.1 ht
    cases hp
    exact Plan.id_mem_ids_of_schema hschema hc

end Ground

/-! ## What evaluates a column -/

lemma definingExpr?_append {list list' : List Expr} {c : Column} {source : Expr}
    (h : definingExpr? list c = some source) : definingExpr? (list ++ list') c = some source := by
  unfold definingExpr? at h ⊢
  rw [List.findSome?_append, h]
  simp

lemma definingExpr?_eq_none {list : List Expr} {c : Column}
    (h : ∀ e ∈ list, ∀ p, e.produced? = some p → p.id ≠ c.id) : definingExpr? list c = none := by
  apply List.findSome?_eq_none_iff.2
  intro e he
  have absent := h e he
  cases e with
  | column p =>
    have hne := absent p rfl
    simp [Column.beq_def, hne]
  | named id name child =>
    have hne := absent _ rfl
    exact if_neg hne
  | _ => rfl

lemma definingExpr?_congr {list : List Expr} {c c' : Column} (h : c == c') :
    definingExpr? list c = definingExpr? list c' := by
  have hid := (Column.beq_iff _ _).1 h
  unfold definingExpr?
  congr 1
  funext e
  cases e <;> simp [Column.beq_def, hid]

namespace Duplicate

/-- The duplicate of a column, if it has one. -/
def copyOf? (ds : List Duplicate) (c : Column) : Option Column :=
  (ds.find? (c == ·.column)).map copy

/-- The column that a duplicate stands for. -/
def originalOf? (ds : List Duplicate) (c : Column) : Option Column :=
  (ds.find? (c == ·.copy)).map column

variable {ds : List Duplicate} {n : Nat} {c : Column}

lemma copyOf?_eq_some {c' : Column} (h : copyOf? ds c = some c') :
    ∃ d ∈ ds, c == d.column ∧ c' = d.copy := by
  obtain ⟨d, hd, rfl⟩ := Option.map_eq_some_iff.1 h
  have hbeq : c == d.column := by simpa using List.find?_some hd
  exact ⟨d, List.mem_of_find?_eq_some hd, hbeq, rfl⟩

lemma copyOf?_isSome_iff : (copyOf? ds c).isSome ↔ ∃ d ∈ ds, c == d.column := by
  simp [copyOf?]

/-- What a tree reads once its aggregates read duplicates, it read before, or it is a duplicate. -/
lemma mem_columns_renamed {e : Expr}
    (hc : c ∈ (e.mapAggregateArguments (Expr.replaceColumns (copyOf? ds))).columns) :
    c ∈ e.columns ∨ ∃ d ∈ ds, c = d.copy := by
  rcases Expr.mem_columns_mapAggregateArguments hc with hc | ⟨x, hx, hc⟩
  · exact Or.inl hc
  · rw [Expr.columns_replaceColumns] at hc
    obtain ⟨c₀, hc₀, rfl⟩ := List.mem_map.1 hc
    cases hcopy : copyOf? ds c₀ with
    | none => exact Or.inl (Expr.mem_columns_of_subterm hc₀ hx)
    | some c' =>
      obtain ⟨d, hd, -, rfl⟩ := copyOf?_eq_some hcopy
      exact Or.inr ⟨d, hd, rfl⟩

section Fresh

variable (fresh : ds.map (·.copy.id.number) = List.range' n ds.length)
include fresh

lemma le_number_copy {d : Duplicate} (hd : d ∈ ds) : n ≤ d.copy.id.number := by
  have hmem : d.copy.id.number ∈ List.range' n ds.length := by
    rw [← fresh]
    exact List.mem_map_of_mem hd
  exact (List.mem_range'_1.1 hmem).1

lemma originalOf?_eq_none (hc : c.id.number < n) : originalOf? ds c = none := by
  rw [originalOf?, Option.map_eq_none_iff, List.find?_eq_none]
  intro d hd heq
  have hid := (Column.beq_iff _ _).1 heq
  have hle := le_number_copy fresh hd
  rw [← hid] at hle
  omega

lemma eq_of_copy_beq {d d' : Duplicate} (hd : d ∈ ds) (hd' : d' ∈ ds) (h : d.copy == d'.copy) :
    d = d' := by
  have nodup : (ds.map (·.copy.id.number)).Nodup := by
    rw [fresh]
    exact List.nodup_range'
  refine List.inj_on_of_nodup_map nodup hd hd' ?_
  rw [(Column.beq_iff _ _).1 h]

lemma originalOf?_copy {d : Duplicate} (hd : d ∈ ds) :
    originalOf? ds d.copy = some d.column := by
  have found : (ds.find? (d.copy == ·.copy)).isSome :=
    List.find?_isSome.2 ⟨d, hd, BEq.rfl⟩
  obtain ⟨d', hd'⟩ := Option.isSome_iff_exists.1 found
  have hbeq : d.copy == d'.copy := by simpa using List.find?_some hd'
  have heq : d = d' := eq_of_copy_beq fresh hd (List.mem_of_find?_eq_some hd') hbeq
  rw [originalOf?, hd', heq]
  simp

lemma definingExpr?_copy {d : Duplicate} (hd : d ∈ ds) :
    definingExpr? (ds.map (·.definition.toExpr)) d.copy = some d.definition.child := by
  have unique : ∀ d' ∈ ds, d'.copy.id = d.copy.id → d' = d := fun d' hd' hid =>
    eq_of_copy_beq fresh hd' hd ((Column.beq_iff _ _).2 hid)
  -- The first duplicate with the id is the only one.
  have first : ∀ ds' ⊆ ds, d ∈ ds' →
      definingExpr? (ds'.map (·.definition.toExpr)) d.copy = some d.definition.child := by
    intro ds' hsub hmem
    unfold definingExpr?
    induction ds' with
    | nil => exact absurd hmem List.not_mem_nil
    | cons d' ds' ih =>
      rw [List.map_cons, List.findSome?_cons]
      by_cases hid : d'.copy.id = d.copy.id
      · obtain rfl := unique d' (hsub List.mem_cons_self) hid
        simp [Alias.toExpr, copy, Alias.column]
      · have htail : d ∈ ds' := by
          rcases List.mem_cons.1 hmem with rfl | htail
          · exact absurd rfl hid
          · exact htail
        have hskip : ¬ d'.definition.id = d.copy.id := hid
        simp only [Alias.toExpr, if_neg hskip]
        exact ih (fun x hx => hsub (List.mem_cons_of_mem _ hx)) htail
  exact first ds (List.Subset.refl ds) hd

end Fresh

end Duplicate

/-! ## What separation promises -/

/-- What becomes of an aggregation `a` over a repetition `r` if its aggregates are made to read
duplicates: an aggregation `b` over a repetition `r'`, where `n` is the first id that was free. -/
structure Separation (a b : Aggregation) (r r' : Repetition) (ds : List Duplicate) (n : Nat) :
    Prop where
  /-- No aggregate over a group reads a grouping column. -/
  unread : ∀ e ∈ b.output, ∀ call ∈ e.plainAggregates, ∀ x ∈ call.args, ∀ c ∈ x.columns,
    r.setColumns.contains c = false
  /-- With the grouping columns in the place of their duplicates the output is what it was. -/
  undone : b.output.map (Expr.replaceColumns (Duplicate.originalOf? ds)) == a.output
  /-- It is so in every field, if grouping columns occur inside aggregates as they do in the
  grouping sets. -/
  undone_eq : (∀ c ∈ a.readByAggregates, ∀ d ∈ ds, c == d.column → c = d.column) →
    b.output.map (Expr.replaceColumns (Duplicate.originalOf? ds)) = a.output
  /-- The output is renamed inside aggregates over a group. -/
  renamed : b.output = a.output.map
    (Expr.mapAggregateArguments (Expr.replaceColumns (Duplicate.copyOf? ds)))
  /-- Outside the arguments of aggregates over a group nothing changes, field by field. -/
  outside : ∀ blank : Expr, b.output.map (Expr.mapAggregateArguments fun _ => blank) =
    a.output.map (Expr.mapAggregateArguments fun _ => blank)
  /-- In particular the columns there stay. -/
  outerColumns : b.output.map (Expr.outerColumns false) = a.output.map (Expr.outerColumns false)
  /-- All virtual columns stay, with what is recorded in them. -/
  virtuals : b.output.map Expr.virtuals = a.output.map Expr.virtuals
  groupBy : b.groupBy = a.groupBy
  sets : r'.sets = r.sets
  /-- Without a conflict nothing happens. -/
  unchanged : ds = [] → b = a ∧ r' = r
  /-- The duplicates come after the columns that the repetition puts out, and before the virtual
  columns. -/
  output : ds ≠ [] → r'.output = (r.output.filter fun e => e.virtual?.isNone) ++
    ds.map (fun d => Expr.column d.copy) ++ r.output.filter fun e => e.virtual?.isSome
  /-- There is one duplicate for each grouping column that an aggregate over a group reads. -/
  columns : ds.map (·.column) = r.setColumns.toList.filter a.readByAggregates.contains
  /-- The ids of the duplicates are the first free ones. -/
  fresh : ds.map (·.copy.id.number) = List.range' n ds.length
  /-- A projection below the repetition evaluates every duplicate by the expression by which it
  evaluates the column.  It extends the projection that was there, if that evaluates all of the
  columns, and else is a new one that hands on all columns. -/
  defined : ds ≠ [] → ∃ list input,
    r'.child = .projection (list ++ ds.map (·.definition.toExpr)) input ∧
    (r.child = .projection list input ∨
      input = r.child ∧ (∃ schema, r.child.schema = .ok schema ∧ list = schema.map Expr.column) ∧
        ∀ list' input', r.child = .projection list' input' →
          ∃ d ∈ ds, definingExpr? list' d.column = none) ∧
    ∀ d ∈ ds, ∃ source, definingExpr? list d.column = some source ∧
      definingExpr? (list ++ ds.map (·.definition.toExpr)) d.column = some source ∧
      definingExpr? (list ++ ds.map (·.definition.toExpr)) d.copy = some source

namespace Aggregation

variable {a : Aggregation} {r : Repetition}

lemma separation_refl (none : a.conflicts r = []) (n : Nat) :
    Separation a a r r [] n where
  unread := by
    intro e he call hcall x hx c hc
    by_contra hgrouped
    rw [Bool.not_eq_false, Roster.contains_iff] at hgrouped
    obtain ⟨c', hc', hcc'⟩ := hgrouped
    have hread : c ∈ a.readByAggregates :=
      List.mem_flatMap.2 ⟨call, List.mem_flatMap.2 ⟨e, he, hcall⟩, List.mem_flatMap.2 ⟨x, hx, hc⟩⟩
    have hconflict : c' ∈ a.conflicts r :=
      List.mem_filter.2 ⟨hc', List.contains_iff_exists_mem_beq.2 ⟨c, hread, BEq.symm hcc'⟩⟩
    rw [none] at hconflict
    exact List.not_mem_nil hconflict
  undone := map_beq_self fun e _ => by
    rw [Expr.replaceColumns_eq_self fun c _ => rfl]
    exact BEq.rfl
  undone_eq _ := List.map_id'' (fun e => Expr.replaceColumns_eq_self fun c _ => rfl) _
  renamed := by
    have same : ∀ e : Expr,
        e.mapAggregateArguments (Expr.replaceColumns (Duplicate.copyOf? [])) = e := by
      intro e
      refine (Expr.mapAggregateArguments_congr fun call _ x _ => ?_).trans
        (Expr.mapAggregateArguments_id e)
      exact Expr.replaceColumns_eq_self fun c _ => rfl
    rw [List.map_congr_left fun e _ => same e, List.map_id']
  outside _ := rfl
  outerColumns := rfl
  virtuals := rfl
  groupBy := rfl
  sets := rfl
  unchanged _ := ⟨rfl, rfl⟩
  output h := absurd rfl h
  columns := none.symm
  fresh := rfl
  defined h := absurd rfl h

section Reading

variable {g : Ground} {ds : List Duplicate} {n : Nat}
  (columns : ds.map (·.column) = a.conflicts r)
include columns

lemma copyOf?_isSome_of_read {c : Column} (hread : c ∈ a.readByAggregates)
    (hgrouped : r.setColumns.contains c) : (Duplicate.copyOf? ds c).isSome := by
  obtain ⟨c', hc', hbeq⟩ := (Roster.contains_iff _ _).1 hgrouped
  have hmem : c' ∈ ds.map (·.column) := by
    rw [columns]
    exact List.mem_filter.2 ⟨hc', List.contains_iff_exists_mem_beq.2 ⟨c, hread, BEq.symm hbeq⟩⟩
  obtain ⟨d, hd, rfl⟩ := List.mem_map.1 hmem
  exact Duplicate.copyOf?_isSome_iff.2 ⟨d, hd, hbeq⟩

/-- What an aggregate reads is no grouping column, once every conflicting column is renamed. -/
lemma unread_of_reading (below : ∀ c ∈ r.setColumns.toList, c.id.number < n)
    (fresh : ds.map (·.copy.id.number) = List.range' n ds.length) {c : Column}
    (hread : c ∈ a.readByAggregates) :
    r.setColumns.contains ((Duplicate.copyOf? ds c).getD c) = false := by
  cases hcopy : Duplicate.copyOf? ds c with
  | none =>
    by_contra hgrouped
    rw [Option.getD_none, Bool.not_eq_false] at hgrouped
    have hsome := copyOf?_isSome_of_read columns hread hgrouped
    rw [hcopy] at hsome
    exact Bool.noConfusion hsome
  | some c' =>
    obtain ⟨d, hd, -, rfl⟩ := Duplicate.copyOf?_eq_some hcopy
    by_contra hgrouped
    rw [Option.getD_some, Bool.not_eq_false, Roster.contains_iff] at hgrouped
    obtain ⟨c', hc', hbeq⟩ := hgrouped
    have hlt := below c' hc'
    have hle := Duplicate.le_number_copy fresh hd
    rw [(Column.beq_iff _ _).1 hbeq] at hle
    omega

end Reading

/-- Renaming forth and back, column by column. -/
lemma renamed_back {ds : List Duplicate} {n : Nat} {c : Column}
    (fresh : ds.map (·.copy.id.number) = List.range' n ds.length) (below : c.id.number < n) :
    (Duplicate.originalOf? ds ((Duplicate.copyOf? ds c).getD c)).getD
        ((Duplicate.copyOf? ds c).getD c) = c ∨
      ∃ d ∈ ds, c == d.column ∧ (Duplicate.originalOf? ds ((Duplicate.copyOf? ds c).getD c)).getD
        ((Duplicate.copyOf? ds c).getD c) = d.column := by
  cases hcopy : Duplicate.copyOf? ds c with
  | none =>
    left
    rw [Option.getD_none, Duplicate.originalOf?_eq_none fresh below, Option.getD_none]
  | some c' =>
    right
    obtain ⟨d, hd, hbeq, rfl⟩ := Duplicate.copyOf?_eq_some hcopy
    refine ⟨d, hd, hbeq, ?_⟩
    rw [Option.getD_some, Duplicate.originalOf?_copy fresh hd, Option.getD_some]

/-- Renaming forth and back within a tree is renaming inside its aggregates. -/
lemma replaceColumns_back {ds : List Duplicate} {n : Nat} {e : Expr}
    (fresh : ds.map (·.copy.id.number) = List.range' n ds.length)
    (below : ∀ c ∈ e.columns, c.id.number < n) :
    (e.mapAggregateArguments (Expr.replaceColumns (Duplicate.copyOf? ds))).replaceColumns
        (Duplicate.originalOf? ds) =
      e.mapAggregateArguments (Expr.replaceColumns fun c =>
        some ((Duplicate.originalOf? ds ((Duplicate.copyOf? ds c).getD c)).getD
          ((Duplicate.copyOf? ds c).getD c))) := by
  rw [Expr.replaceColumns_mapAggregateArguments fun c hc =>
    Duplicate.originalOf?_eq_none fresh (below c hc)]
  exact Expr.mapAggregateArguments_congr fun call _ x _ => Expr.replaceColumns_replaceColumns _ _ x

section Renamed

variable {b : Aggregation} {ds : List Duplicate} {n : Nat}
  (renamed : b.output = a.output.map
    (Expr.mapAggregateArguments (Expr.replaceColumns (Duplicate.copyOf? ds))))
  (fresh : ds.map (·.copy.id.number) = List.range' n ds.length)
include renamed fresh

lemma unread_of_renamed (columns : ds.map (·.column) = a.conflicts r)
    (below : ∀ c ∈ r.setColumns.toList, c.id.number < n) :
    ∀ e ∈ b.output, ∀ call ∈ e.plainAggregates, ∀ x ∈ call.args, ∀ c ∈ x.columns,
      r.setColumns.contains c = false := by
  intro e he call hcall x hx c hc
  rw [renamed] at he
  obtain ⟨e₀, he₀, rfl⟩ := List.mem_map.1 he
  rw [Expr.plainAggregates_mapAggregateArguments] at hcall
  obtain ⟨call₀, hcall₀, rfl⟩ := List.mem_map.1 hcall
  obtain ⟨x₀, hx₀, rfl⟩ := List.mem_map.1 hx
  rw [Expr.columns_replaceColumns] at hc
  obtain ⟨c₀, hc₀, rfl⟩ := List.mem_map.1 hc
  refine unread_of_reading columns below fresh ?_
  exact List.mem_flatMap.2
    ⟨call₀, List.mem_flatMap.2 ⟨e₀, he₀, hcall₀⟩, List.mem_flatMap.2 ⟨x₀, hx₀, hc₀⟩⟩

variable (below : ∀ e ∈ a.output, ∀ c ∈ e.columns, c.id.number < n)
include below

lemma undone_of_renamed :
    b.output.map (Expr.replaceColumns (Duplicate.originalOf? ds)) == a.output := by
  rw [renamed, List.map_map]
  apply map_beq_self
  intro e he
  rw [Function.comp_apply, replaceColumns_back fresh (below e he)]
  refine Expr.mapAggregateArguments_beq fun x hx => Expr.replaceColumns_beq fun c hc => ?_
  rw [Option.getD_some]
  have hlt := below e he c (Expr.mem_columns_of_subterm hc hx)
  rcases renamed_back fresh hlt with hsame | ⟨d, -, hbeq, heq⟩
  · rw [hsame]
    exact BEq.rfl
  · rw [heq]
    exact BEq.symm hbeq

lemma undone_eq_of_renamed
    (same : ∀ c ∈ a.readByAggregates, ∀ d ∈ ds, c == d.column → c = d.column) :
    b.output.map (Expr.replaceColumns (Duplicate.originalOf? ds)) = a.output := by
  rw [renamed, List.map_map]
  refine (List.map_congr_left fun e he => ?_).trans (List.map_id a.output)
  rw [Function.comp_apply, replaceColumns_back fresh (below e he), id_eq]
  refine (Expr.mapAggregateArguments_congr fun call hcall x hx => ?_).trans
    (Expr.mapAggregateArguments_id e)
  apply Expr.replaceColumns_eq_self
  intro c hc
  have hread : c ∈ a.readByAggregates := List.mem_flatMap.2
    ⟨call, List.mem_flatMap.2 ⟨e, he, hcall⟩, List.mem_flatMap.2 ⟨x, hx, hc⟩⟩
  have hlt := below e he c
    (Expr.mem_columns_of_subterm hc (Expr.mem_subterms_of_mem_args hcall hx))
  rw [Option.getD_some]
  rcases renamed_back fresh hlt with hsame | ⟨d, hd, hbeq, heq⟩
  · exact hsame
  · rw [heq, same c hread d hd hbeq]

end Renamed

/-- Entries and duplicates together evaluate a column and its duplicate alike. -/
lemma definingExpr?_with_duplicates {list : List Expr} {ds : List Duplicate} {n : Nat}
    (fresh : ds.map (·.copy.id.number) = List.range' n ds.length)
    (below : ∀ i ∈ list.flatMap Expr.ids, i.number < n) {d : Duplicate} (hd : d ∈ ds)
    (source : definingExpr? list d.column = some d.definition.child) :
    definingExpr? (list ++ ds.map (·.definition.toExpr)) d.column = some d.definition.child ∧
      definingExpr? (list ++ ds.map (·.definition.toExpr)) d.copy = some d.definition.child := by
  have unknown : definingExpr? list d.copy = none := by
    apply definingExpr?_eq_none
    intro e he p hp hid
    have hlt := below p.id (List.mem_flatMap.2
      ⟨e, he, Expr.mem_ids_iff.2 ⟨e, e.self_mem_subterms, p, hp, rfl⟩⟩)
    have hle := Duplicate.le_number_copy fresh hd
    rw [← hid] at hle
    omega
  refine ⟨definingExpr?_append source, ?_⟩
  rw [definingExpr?, List.findSome?_append]
  rw [definingExpr?] at unknown
  rw [unknown, Option.none_or]
  exact Duplicate.definingExpr?_copy fresh hd

/-- With all ids of the aggregation taken, reading duplicates of all conflicting columns keeps every
promise of `Separation`. -/
lemma separation_reading {a : Aggregation} {r : Repetition} {g : Ground} {ds : List Duplicate}
    {n : Nat} (hchild : a.child = r.toPlan) (below : a.toPlan.IdsBelow n)
    (some_conflict : a.conflicts r ≠ [])
    (hg : Ground.forColumns r.child (a.conflicts r) = .ok g)
    (found : ∀ c ∈ a.conflicts r, (g.source? c).isSome)
    (hds : ds = g.duplicatesFrom n (namesOf r.output ++ namesOf g.list) (a.conflicts r)) :
    Separation a (a.reading r g ds) r (r.duplicating g ds) ds n := by
  have columns : ds.map (·.column) = a.conflicts r := by
    rw [hds]
    exact Ground.columns_duplicatesFrom found _ _
  have fresh : ds.map (·.copy.id.number) = List.range' n ds.length := by
    have hlength : ds.length = (a.conflicts r).length := by rw [← columns, List.length_map]
    rw [hlength, hds]
    exact Ground.numbers_duplicatesFrom found _ _
  have source : ∀ d ∈ ds, definingExpr? g.list d.column = some d.definition.child := by
    intro d hd
    rw [hds] at hd
    exact Ground.source_duplicatesFrom hd
  have houtput : (a.reading r g ds).output = a.output.map
      (Expr.mapAggregateArguments (Expr.replaceColumns (Duplicate.copyOf? ds))) := rfl
  -- Every id of the aggregation is taken, those of the output and those below.
  have below_output : ∀ e ∈ a.output, ∀ c ∈ e.columns, c.id.number < n := by
    intro e he c hc
    refine below _ (List.mem_append_left _ (List.mem_flatMap.2 ⟨e, ?_, ?_⟩))
    · exact List.mem_append_right _ he
    · exact Expr.id_mem_ids_of_mem_columns hc
  have below_child : ∀ i ∈ r.toPlan.ids, i.number < n := by
    intro i hi
    rw [← hchild] at hi
    exact below i (List.mem_append_right _ hi)
  have below_sets : ∀ c ∈ r.setColumns.toList, c.id.number < n := by
    intro c hc
    obtain ⟨e, he, hce⟩ := List.mem_flatMap.1 (Roster.mem_ofList hc)
    refine below_child _ (List.mem_append_left _ (List.mem_flatMap.2 ⟨e, ?_, ?_⟩))
    · exact List.mem_append_left _ he
    · exact Expr.id_mem_ids_of_mem_columns hce
  have below_ground : ∀ i ∈ g.list.flatMap Expr.ids, i.number < n := fun i hi =>
    below_child i (List.mem_append_right _ (Ground.ids_forColumns hg hi))
  constructor
  case unread => exact unread_of_renamed houtput fresh columns below_sets
  case undone => exact undone_of_renamed houtput fresh below_output
  case undone_eq => exact undone_eq_of_renamed houtput fresh below_output
  case renamed => exact houtput
  case outside =>
    intro blank
    rw [houtput, List.map_map]
    apply List.map_congr_left
    intro e _
    exact Expr.mapAggregateArguments_mapAggregateArguments _ _ e
  case outerColumns =>
    rw [houtput, List.map_map]
    exact List.map_congr_left fun e _ => Expr.outerColumns_mapAggregateArguments _ e
  case virtuals =>
    rw [houtput, List.map_map]
    exact List.map_congr_left fun e _ =>
      Expr.virtuals_mapAggregateArguments (Expr.virtuals_replaceColumns _) e
  case groupBy => rfl
  case sets => rfl
  case unchanged =>
    intro hnil
    rw [hnil] at columns
    exact absurd columns.symm some_conflict
  case output => exact fun _ => rfl
  case columns => exact columns
  case fresh => exact fresh
  case defined =>
    intro _
    refine ⟨g.list, g.input, rfl, ?_, fun d hd =>
      ⟨_, source d hd, definingExpr?_with_duplicates fresh below_ground hd (source d hd)⟩⟩
    refine (Ground.forColumns_cases hg).imp_right fun ⟨hinput, hschema, hother⟩ =>
      ⟨hinput, hschema, fun list input heq => ?_⟩
    obtain ⟨c, hc, hnone⟩ := hother list input heq
    rw [← columns] at hc
    obtain ⟨d, hd, rfl⟩ := List.mem_map.1 hc
    exact ⟨d, hd, hnone⟩

/-- With all ids of the aggregation taken, a successful run of `separate` keeps every promise of
`Separation`. -/
theorem separation_of_separate {a b : Aggregation} {r : Repetition} {s s' : Session}
    (hchild : a.child = r.toPlan) (below : a.toPlan.IdsBelow s.nextId)
    (run : a.separate.runIn s = (.ok b, s')) :
    ∃ (r' : Repetition) (ds : List Duplicate),
      b.child = r'.toPlan ∧ Separation a b r r' ds s.nextId := by
  rcases separate_eq_ok hchild run with ⟨hnone, rfl, -⟩ | ⟨g, hsome, hg, found, -, rfl⟩
  · exact ⟨r, [], hchild, separation_refl hnone _⟩
  · exact ⟨_, _, child_reading a r g _, separation_reading hchild below hsome hg found rfl⟩

/-- `select a, sum(a) … group by grouping sets ((a), ())` over columns, and what it reads. -/
def repeatedKey : Repetition :=
  let a : Column := ⟨⟨0⟩, "a", .integer, true⟩
  ⟨[[.column a], []], [.column a, .groupingIdColumn ⟨⟨1⟩, "GROUPING_ID", .integer, false⟩],
    .scan "t" [a]⟩

/-- The aggregation over `repeatedKey`. -/
def summedKey : Aggregation :=
  let a : Column := ⟨⟨0⟩, "a", .integer, true⟩
  { groupBy := repeatedKey.output
    output := [.column a, .named ⟨2⟩ "s" (.aggregate .sum [.column a] false)]
    child := repeatedKey.toPlan }

theorem separation_of_summedKey :
    summedKey.toPlan.IdsBelow 3 ∧ ∃ b s' r' ds,
      summedKey.separate.runIn { nextId := 3 } = (.ok b, s') ∧ b.child = Repetition.toPlan r' ∧
      Separation summedKey b repeatedKey r' ds 3 ∧ ds ≠ [] := by
  have below : summedKey.toPlan.IdsBelow 3 := by
    unfold Plan.IdsBelow
    decide
  obtain ⟨b, s', run⟩ : ∃ b s', summedKey.separate.runIn { nextId := 3 } = (.ok b, s') :=
    ⟨_, _, rfl⟩
  obtain ⟨r', ds, hchild, promise⟩ := separation_of_separate rfl below run
  refine ⟨below, b, s', r', ds, run, hchild, promise, ?_⟩
  rintro rfl
  have hcolumns := promise.columns
  revert hcolumns
  decide

end Aggregation
end GroupingPlanner

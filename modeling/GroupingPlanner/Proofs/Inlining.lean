import GroupingPlanner.Proofs.PlanRuns
/-!
# Inlining undoes lowering

Lowering puts columns in the place of expressions and virtual columns in the place of grouping
calls.  Nothing is lost on the way: the aliases of the new projection say which expressions the
columns stand for, and virtual columns record their calls.  Reading both back gives the output and
the grouping sets that the repetition had.

Inlining looks up ids only, so it respects `==`, and it is enough to know what it does to the
replacements and to the columns that were left as they were (`Expr.inline_replace_beq`).

* `Expr.inline`, `Expr.restore`: inlining, and undoing duplicates first.
* `Plan.aliasesOver`: the aliases that are inlined.
* `Expr.inline_beq`, `Expr.inline_replace_beq`: inlining and `==`, inlining after replacing.
* `Stacked.inline_column_beq`: a bound column is inlined to what it stands for.
* `Repetition.inline_lower`: inlining undoes a successful lowering.
-/

namespace GroupingPlanner

/-! ## Inlining -/

namespace Expr

mutual

/-- Puts the child of an alias in the place of the column with its id, and calls in the place of
their columns.  What is put in is not looked at again, except for the arguments of calls. -/
def inline (aliases : List Alias) : Expr → Expr
  | column c => ((aliases.find? (·.id == c.id)).map (·.child)).getD (column c)
  | groupingIdColumn c => groupingIdColumn c
  | callColumn _ fn args => grouping fn (inlineAll aliases args)
  | named id name child => named id name (inline aliases child)
  | literal v => literal v
  | arith op left right => arith op (inline aliases left) (inline aliases right)
  | call name args type => call name (inlineAll aliases args) type
  | aggregate fn args distinct => aggregate fn (inlineAll aliases args) distinct
  | grouping fn args => grouping fn (inlineAll aliases args)
  | window function partitionBy orderBy frame =>
    window (inline aliases function) (inlineAll aliases partitionBy) (inlineAll aliases orderBy)
      frame
  | ordered child direction => ordered (inline aliases child) direction

/-- The same for a list of trees. -/
def inlineAll (aliases : List Alias) : List Expr → List Expr
  | [] => []
  | e :: es => inline aliases e :: inlineAll aliases es

end

variable {aliases : List Alias}

@[simp] lemma inlineAll_eq_map (es : List Expr) :
    inlineAll aliases es = es.map (inline aliases) := by
  induction es with
  | nil => rfl
  | cons e es ih => rw [inlineAll, ih, List.map_cons]

lemma inline_eq_mapChildren {e : Expr} (hcolumn : e.column? = none) (hvirtual : e.virtual? = none) :
    e.inline aliases = e.mapChildren (inline aliases) := by
  cases e <;> simp_all [inline, mapChildren, column?, virtual?]

mutual

lemma skeleton_inline_skeleton (aliases : List Alias) (e : Expr) :
    (e.skeleton.inline aliases).skeleton = (e.inline aliases).skeleton := by
  cases e with
  | column c =>
    have hid : c.skeleton.id = c.id := rfl
    simp only [skeleton, inline, hid]
    cases aliases.find? (·.id == c.id) with
    | none => rfl
    | some a => rfl
  | groupingIdColumn c | literal v => rfl
  | named id name child | ordered child direction =>
    simp only [skeleton, inline, skeleton_inline_skeleton aliases child]
  | arith op left right =>
    simp only [skeleton, inline, skeleton_inline_skeleton aliases left,
      skeleton_inline_skeleton aliases right]
  | callColumn c fn args | call name args type | aggregate fn args distinct | grouping fn args =>
    simp only [skeleton, inline, skeletons_inlineAll_skeletons aliases args]
  | window function partitionBy orderBy frame =>
    simp only [skeleton, inline, skeleton_inline_skeleton aliases function,
      skeletons_inlineAll_skeletons aliases partitionBy,
      skeletons_inlineAll_skeletons aliases orderBy]

lemma skeletons_inlineAll_skeletons (aliases : List Alias) (es : List Expr) :
    skeletons (inlineAll aliases (skeletons es)) = skeletons (inlineAll aliases es) := by
  cases es with
  | nil => rfl
  | cons e es =>
    simp only [skeletons, inlineAll, skeleton_inline_skeleton aliases e]
    rw [skeletons_inlineAll_skeletons aliases es]

end

/-- Inlining looks up ids only. -/
theorem inline_beq {e e' : Expr} (h : e == e') : e.inline aliases == e'.inline aliases := by
  rw [beq_iff] at h ⊢
  rw [← skeleton_inline_skeleton, h, skeleton_inline_skeleton]

/-- Inlining undoes a rule if it undoes each replacement and leaves alone the columns that the rule
lets be. -/
theorem inline_replace_beq {rule : Expr → Option Expr} {e : Expr}
    (bound : ∀ n ∈ e.subterms, ∀ y, rule n = some y → y.inline aliases == n)
    (free : ∀ n ∈ e.subterms, rule n = none →
      n.virtual? = none ∧ ∀ c, n = column c → (column c).inline aliases == column c) :
    (e.replace rule).inline aliases == e := by
  induction e using childrenInduction with
  | step e ih =>
    rw [replace_eq]
    cases hrule : rule e with
    | some y => exact bound e e.self_mem_subterms y hrule
    | none =>
      obtain ⟨hvirtual, hcolumn⟩ := free e e.self_mem_subterms hrule
      cases hc : e.column? with
      | some c =>
        rw [column?_eq_some_iff] at hc
        rw [hc]
        exact hcolumn c hc
      | none =>
        rw [Option.getD_none, inline_eq_mapChildren (by rw [column?_mapChildren, hc])
          (by rw [virtual?_mapChildren, hvirtual]), mapChildren_mapChildren]
        exact mapChildren_beq fun c hc => ih c hc
          (fun n hn => bound n (mem_subterms_of_child hc hn))
          (fun n hn => free n (mem_subterms_of_child hc hn))

end Expr

/-- Undoes duplicates and then inlines. -/
def Expr.restore (ds : List Duplicate) (aliases : List Alias) (e : Expr) : Expr :=
  (e.replaceColumns (Duplicate.originalOf? ds)).inline aliases

/-! ## The aliases that are inlined -/

namespace Plan

/-- The aliases of a projection that stands directly over a plan. -/
def aliasesOver (below : Plan) : Plan → List Alias
  | projection list input => if input == below then list.filterMap Expr.alias? else []
  | _ => []

/-- The number of nodes. -/
def height : Plan → Nat
  | scan .. => 1
  | projection _ child | repetition _ _ child | aggregation _ _ child => height child + 1

lemma beq_self (p : Plan) : p == p := by
  have same_self : p.same p = true := by
    induction p with
    | scan relation columns => simp [same]
    | projection list child ih | repetition sets output child ih
    | aggregation groupBy output child ih => simp [same, ih]
  exact same_self

lemma height_eq_of_beq {p q : Plan} (h : p == q) : p.height = q.height := by
  replace h : p.same q = true := h
  induction p generalizing q with
  | scan relation columns => cases q <;> simp_all [same, height]
  | projection list child ih | repetition sets output child ih
  | aggregation groupBy output child ih =>
    cases q <;> simp only [same, Bool.and_eq_true, Bool.false_eq_true] at h
    rw [height, height, ih h.2]

/-- Nothing stands over itself. -/
lemma input_beq_eq_false {p input : Plan} {list : List Expr} (h : p = .projection list input) :
    (input == p) = false := by
  by_contra hbeq
  rw [Bool.not_eq_false] at hbeq
  have hheight := height_eq_of_beq hbeq
  rw [h, height] at hheight
  omega

/-- Over itself a plan has no aliases. -/
lemma aliasesOver_self (p : Plan) : p.aliasesOver p = [] := by
  cases hp : p with
  | projection list input =>
    have hnot := input_beq_eq_false hp
    rw [hp] at hnot
    rw [aliasesOver, hnot]
    simp
  | scan | repetition | aggregation => rfl

end Plan

/-! ## Inlining the stack -/

namespace Stacked

variable {r : Repetition} {next : Nat} (x : Stacked r next)

/-- The aliases among the entries of the projection. -/
def aliases : List Alias := (x.entries.map Definition.toExpr).filterMap Expr.alias?

lemma mem_aliases {a : Alias} : a ∈ x.aliases ↔ .named a ∈ x.entries := by
  unfold aliases
  rw [List.filterMap_map, List.mem_filterMap]
  constructor
  · rintro ⟨d, hd, ha⟩
    cases d with
    | column c => cases ha
    | named a' =>
      cases ha
      exact hd
  · intro ha
    exact ⟨_, ha, rfl⟩

/-- If all entries are columns, there are no aliases. -/
lemma aliases_eq_nil (h : ∀ d ∈ x.entries, ∃ c, d = .column c ∧ x.schema.contains c) :
    x.aliases = [] := by
  rw [List.eq_nil_iff_forall_not_mem]
  intro a ha
  obtain ⟨c, hc, -⟩ := h _ (x.mem_aliases.1 ha)
  simp at hc

variable {extra : List Alias}

section Hygienic

variable (h : r.Hygienic next) (new : ∀ a ∈ extra, next ≤ a.id.number)
include h new

/-- A column of the repetition itself is no alias of the projection. -/
lemma find?_aliases_eq_none {e : Expr} (he : e ∈ r.exprs) {c : Column} (hc : c ∈ e.columns) :
    (x.aliases ++ extra).find? (·.id == c.id) = none := by
  rw [List.find?_eq_none]
  intro a ha hid
  rw [beq_iff_eq] at hid
  rcases List.mem_append.1 ha with ha | ha
  · obtain ⟨b, hb, hdef⟩ := x.mem_entries_named (x.mem_aliases.1 ha)
    exact h.alias_id_ne hb hdef he hc hid
  · have hle := new a ha
    have hlt := h.below_column he hc
    rw [hid] at hle
    omega

/-- Inlining puts the bound expression in the place of its column. -/
theorem inline_column_beq {b : Binding} (hb : b ∈ (r.bindingsAt next).toList) :
    (Expr.column b.column).inline (x.aliases ++ extra) == b.source := by
  rw [Expr.inline, Binding.id_column]
  cases hdef : b.definition with
  | column c =>
    obtain ⟨hsource, e, he, hc⟩ := h.column_of_definition hb hdef
    rw [Definition.produced, x.find?_aliases_eq_none h new he hc, hsource]
    refine (Column.beq_iff _ _).2 ?_
    rw [Binding.id_column, hdef]
    rfl
  | named a =>
    -- The projection lists an alias with this id, and all such aliases evaluate the same.
    obtain ⟨b', hb', hfind, hid, -⟩ := x.find?_entry h hb
    have hid' : b'.definition.produced.id = a.id := by
      rw [hid, Binding.id_column, hdef]
      rfl
    have listed : ∃ a' ∈ x.aliases, a'.id = a.id := by
      cases hdef' : b'.definition with
      | column c =>
        rw [hdef'] at hid'
        obtain ⟨-, e, he, hc⟩ := h.column_of_definition hb' hdef'
        exact absurd hid'.symm (h.alias_id_ne hb hdef he hc)
      | named a' =>
        refine ⟨a', x.mem_aliases.2 ?_, ?_⟩
        · rw [← hdef']
          exact List.mem_of_find?_eq_some hfind
        · rw [hdef'] at hid'
          exact hid'
    obtain ⟨a₁, ha₁, hid₁⟩ := listed
    have found : (x.aliases.find? (·.id == a.id)).isSome :=
      List.find?_isSome.2 ⟨a₁, ha₁, beq_iff_eq.2 hid₁⟩
    obtain ⟨a₂, hfind₂⟩ := Option.isSome_iff_exists.1 found
    have hid₂ : a₂.id = a.id := by simpa using List.find?_some hfind₂
    obtain ⟨b₂, hb₂, hdef₂⟩ :=
      x.mem_entries_named (x.mem_aliases.1 (List.mem_of_find?_eq_some hfind₂))
    have hsource : b.source == b₂.source := by
      refine h.source_beq_source hb hb₂ ?_
      rw [hdef, hdef₂]
      exact hid₂.symm
    have hexpr := h.source_beq_expr hb₂
    rw [hdef₂] at hexpr
    have hproduced : (Definition.named a).produced.id = a.id := rfl
    rw [List.find?_append, hproduced, hfind₂]
    exact BEq.symm (BEq.trans hsource hexpr)

/-- Inlining undoes the substitution of bound columns. -/
lemma inline_substitute_beq {e t : Expr} (he : e ∈ r.exprs) (ht : t ∈ e.subterms) :
    ((r.bindingsAt next).substitute t).inline (x.aliases ++ extra) == t := by
  refine Expr.inline_replace_beq (fun n hn y hy => ?_) fun n hn hnone => ⟨?_, ?_⟩
  · obtain ⟨b, hb, rfl⟩ := Bindings.replacement?_eq_some hy
    obtain ⟨hmem, hbeq⟩ := Bindings.get?_eq_some hb
    exact BEq.trans (x.inline_column_beq h new hmem) (BEq.symm hbeq)
  · exact h.virtual?_eq_none he (Expr.subterms_trans hn ht)
  · rintro c rfl
    have hc : c ∈ e.columns := Expr.mem_columns_iff.2 (Expr.subterms_trans hn ht)
    rw [Expr.inline, x.find?_aliases_eq_none h new he hc]
    exact BEq.rfl

/-- Inlining undoes the rule for the output: it finds the calls in their columns. -/
lemma inline_output_beq {e : Expr} (he : e ∈ r.output) :
    (e.replace ((r.bindingsAt next).outputRule (r.callColumnsAt next))).inline
      (x.aliases ++ extra) == e := by
  have hexprs : e ∈ r.exprs := List.mem_append_right _ he
  refine Expr.inline_replace_beq (fun n hn y hy => ?_) fun n hn hnone => ⟨?_, ?_⟩
  · unfold Bindings.outputRule at hy
    cases hcall : n.groupingCall? with
    | none =>
      rw [hcall] at hy
      obtain ⟨b, hb, rfl⟩ := Bindings.replacement?_eq_some hy
      obtain ⟨hmem, hbeq⟩ := Bindings.get?_eq_some hb
      exact BEq.trans (x.inline_column_beq h new hmem) (BEq.symm hbeq)
    | some call =>
      obtain rfl := Expr.groupingCall?_eq_some_iff.1 hcall
      rw [hcall] at hy
      obtain ⟨v, hv, rfl⟩ := Option.map_eq_some_iff.1 hy
      have hfor : v.isFor ((r.bindingsAt next).signature call) := by
        simpa using List.find?_some hv
      obtain ⟨c, _ | call'⟩ := v
      · cases hfor
      · -- The column records a call equal to the signature, and its arguments are inlined.
        have hsame : ((r.bindingsAt next).signature call).toExpr == call'.toExpr := hfor
        have hinline : ((r.bindingsAt next).signature call).toExpr.inline (x.aliases ++ extra) ==
            call'.toExpr.inline (x.aliases ++ extra) := Expr.inline_beq hsame
        refine BEq.trans (BEq.symm hinline) ?_
        have hargs : ∀ arg ∈ call.toExpr.children,
            ((r.bindingsAt next).substitute arg).inline (x.aliases ++ extra) == arg := fun arg ha =>
          x.inline_substitute_beq h new hexprs
            (Expr.subterms_trans (Expr.mem_subterms_of_child ha arg.self_mem_subterms) hn)
        have hchildren := Expr.mapChildren_beq hargs
        simpa [GroupingCall.toExpr, Bindings.signature, Expr.inline, Expr.mapChildren,
          Function.comp_def] using hchildren
  · exact h.virtual?_eq_none hexprs hn
  · rintro c rfl
    have hc : c ∈ e.columns := Expr.mem_columns_iff.2 hn
    rw [Expr.inline, x.find?_aliases_eq_none h new hexprs hc]
    exact BEq.rfl

end Hygienic

/-- The aliases of what stands newly over the child are those of the projection, and after them
those of duplicates. -/
lemma aliasesOver_cases {a : Aggregation} {r' : Repetition} {ds : List Duplicate}
    (promise : Separation x.aggregation a x.repetition r' ds x.nextId) :
    ∃ extra, r.child.aliasesOver r'.child = x.aliases ++ extra ∧
      ∀ a ∈ extra, next ≤ a.id.number := by
  have new : ∀ a ∈ ds.map (·.definition), next ≤ a.id.number := by
    intro a ha
    obtain ⟨d, hd, rfl⟩ := List.mem_map.1 ha
    exact Nat.le_trans x.le_nextId (Duplicate.le_number_copy promise.fresh hd)
  have aliases_of_duplicates : (ds.map (·.definition.toExpr)).filterMap Expr.alias? =
      ds.map (·.definition) := by
    rw [List.filterMap_map, ← List.filterMap_eq_map]
    rfl
  by_cases hds : ds = []
  · obtain ⟨-, rfl⟩ := promise.unchanged hds
    refine ⟨[], ?_, fun a ha => absurd ha List.not_mem_nil⟩
    rw [List.append_nil]
    rcases x.child_cases with hput | ⟨hkept, hcolumns⟩
    · rw [hput, Plan.aliasesOver, if_pos r.child.beq_self]
      rfl
    · rw [hkept, x.aliases_eq_nil hcolumns, Plan.aliasesOver_self]
  · obtain ⟨list, input, hchild, hground, -⟩ := promise.defined hds
    rw [hchild, Plan.aliasesOver, List.filterMap_append, aliases_of_duplicates]
    rcases x.child_cases with hput | ⟨hkept, hcolumns⟩
    · rcases hground with hextended | ⟨-, -, hundefined⟩
      · rw [hput] at hextended
        cases hextended
        rw [if_pos r.child.beq_self]
        exact ⟨_, rfl, new⟩
      · -- The projection defines all grouping columns, so that it is the one extended.
        obtain ⟨d, hd, hnone⟩ := hundefined _ _ hput
        exfalso
        have hmem : d.column ∈ ds.map (·.column) := List.mem_map_of_mem hd
        rw [promise.columns] at hmem
        have hgrouped := Roster.contains_of_mem (List.mem_filter.1 hmem).1
        have hdefined := x.definingExpr?_isSome hgrouped
        rw [hnone] at hdefined
        simp at hdefined
    · rw [x.aliases_eq_nil hcolumns]
      rcases hground with hextended | ⟨hinput, ⟨schema, -, hlist⟩, -⟩
      · rw [hkept] at hextended
        rw [Plan.input_beq_eq_false hextended]
        exact ⟨[], rfl, fun a ha => absurd ha List.not_mem_nil⟩
      · have no_column_alias : (schema.map Expr.column).filterMap Expr.alias? = [] := by
          rw [List.filterMap_map, List.filterMap_eq_nil_iff]
          intro c _
          rfl
        rw [hinput, hkept, if_pos r.child.beq_self, hlist, no_column_alias]
        exact ⟨_, rfl, new⟩

end Stacked

/-! ## Inlining a lowered repetition -/

namespace Repetition

/-- Inlining undoes lowering: with grouping columns in the place of their duplicates, and then the
aliases of what stands newly over the child inlined, output and grouping sets are what they
were. -/
theorem inline_lower {r : Repetition} {settings : Settings} {s s' : Session} {a : Aggregation}
    (h : r.Hygienic s.nextId) (run : (r.lower settings).runIn s = (.ok a, s')) :
    ∃ (x : Stacked r s.nextId) (r' : Repetition) (ds : List Duplicate), a.child = r'.toPlan ∧
      Separation x.aggregation a x.repetition r' ds x.nextId ∧
      a.output.map (Expr.restore ds (r.child.aliasesOver r'.child)) == r.output ∧
      r'.sets.map (·.map (Expr.restore ds (r.child.aliasesOver r'.child))) == r.sets := by
  obtain ⟨x, r', ds, hchild, promise⟩ := separation_of_lower h.below run
  obtain ⟨extra, haliases, new⟩ := x.aliasesOver_cases promise
  refine ⟨x, r', ds, hchild, promise, ?_, ?_⟩
  · have inline : ∀ e e' : Expr, e == e' → e.inline (x.aliases ++ extra) ==
        e'.inline (x.aliases ++ extra) := fun _ _ => Expr.inline_beq
    have hundone := map_beq_map inline promise.undone
    rw [List.map_map] at hundone
    rw [haliases]
    refine BEq.trans hundone ?_
    simp only [Stacked.aggregation, Stacked.substituted, outputAt, Bindings.substituteOutput,
      List.map_map]
    exact map_beq_self fun e he => x.inline_output_beq h new he
  · -- No duplicate stands in a grouping set.
    have undone : ∀ e ∈ r.exprs,
        ((r.bindingsAt s.nextId).substitute e).replaceColumns (Duplicate.originalOf? ds) =
          (r.bindingsAt s.nextId).substitute e := by
      intro e he
      apply Expr.replaceColumns_eq_self
      intro c hc
      have hlt : c.id.number < x.nextId :=
        lt_of_lt_of_le (number_lt_of_substitute h.below he (Expr.id_mem_ids_of_mem_columns hc))
          (Nat.le_trans (Nat.le_add_right _ _) x.afterCalls_le_nextId)
      rw [Duplicate.originalOf?_eq_none promise.fresh hlt]
      simp
    rw [promise.sets, haliases]
    simp only [Stacked.repetition, Stacked.setExprs_eq, List.map_map]
    apply map_beq_self
    intro set hset
    rw [Function.comp_apply, List.map_map]
    apply map_beq_self
    intro e he
    have hexprs : e ∈ r.exprs :=
      List.mem_append_left _ (List.mem_flatten.2 ⟨set, hset, he⟩)
    rw [Function.comp_apply, Expr.restore, undone e hexprs]
    exact x.inline_substitute_beq h new hexprs e.self_mem_subterms

theorem inline_lower_markedSums :
    markedSums.Hygienic 5 ∧ ∃ a s', (markedSums.lower {}).runIn { nextId := 5 } = (.ok a, s') ∧
      ∃ (x : Stacked markedSums 5) (r' : Repetition) (ds : List Duplicate), a.child = r'.toPlan ∧
        Separation x.aggregation a x.repetition r' ds x.nextId ∧
        a.output.map (Expr.restore ds (markedSums.child.aliasesOver r'.child)) ==
          markedSums.output ∧
        r'.sets.map (·.map (Expr.restore ds (markedSums.child.aliasesOver r'.child))) ==
          markedSums.sets := by
  obtain ⟨a, s', run⟩ : ∃ a s', (markedSums.lower {}).runIn { nextId := 5 } = (.ok a, s') :=
    ⟨_, _, rfl⟩
  exact ⟨markedSums_hygienic, a, s', run, inline_lower markedSums_hygienic run⟩

end Repetition
end GroupingPlanner

import GroupingPlanner.Proofs.ColumnOrder
/-!
# Grouping calls that share a column

Grouping calls are read from virtual columns, one for each signature.  The signatures are collected
from the whole output before any call is replaced, and when all calls are replaced the columns are
collected from the output once more.  Both collections leave out what was met before, but the first
one compares calls and the second one compares columns.  They agree since columns of different
signatures have different ids: a column is met for the first time where its signature is.
That calls may as well be replaced while signatures are collected is `Bindings.rewriteOutput_eq`.

* `Expr.replace_congr`, `Expr.virtuals_replace`: what stands in a rewritten tree, read off the walk.
* `Repetition.columnFor`, `Repetition.columnFor_eq`: the column of a signature.
* `Repetition.callColumn_eq_iff`: calls share a column exactly if they have one signature.
* `Repetition.virtuals_outputAt`, `Stacked.callColumns_eq`: the virtual columns in each entry of the
  output, and all of them together.
* `SharesCalls`, `Repetition.lower_sharesCalls`: what holds of a lowered repetition.
-/

namespace GroupingPlanner

/-! ## Rewritten trees along the walk -/

namespace Expr

/-- Rules that answer alike wherever the walk comes do the same. -/
theorem replace_congr {rule rule' : Expr → Option Expr} {e : Expr}
    (h : ∀ n ∈ e.nodesUntil fun n => (rule n).isSome, rule' n = rule n) :
    e.replace rule' = e.replace rule := by
  induction e using childrenInduction with
  | step e ih =>
    rw [nodesUntil_eq] at h
    rw [replace_eq, replace_eq, h e List.mem_cons_self]
    cases hrule : rule e with
    | some y => rfl
    | none =>
      refine mapChildren_congr fun c hc => ih c hc fun n hn => h n ?_
      rw [hrule]
      exact List.mem_cons_of_mem _ (List.mem_flatMap.2 ⟨c, hc, hn⟩)

/-- The virtual columns of a rewritten tree come in the order of the walk: those of the answers, and
nodes that the rule lets be. -/
theorem virtuals_replace (rule : Expr → Option Expr) (e : Expr) : (e.replace rule).virtuals =
    (e.nodesUntil fun n => (rule n).isSome).flatMap fun n =>
      ((rule n).map virtuals).getD n.virtual?.toList := by
  induction e using childrenInduction with
  | step e ih =>
    rw [replace_eq, nodesUntil_eq, List.flatMap_cons]
    cases hrule : rule e with
    | some y => simp
    | none =>
      rw [Option.getD_none, virtuals_eq, virtual?_mapChildren, children_mapChildren,
        List.flatMap_map, List.flatMap_congr ih]
      simp [List.flatMap_assoc]

end Expr

/-! ## Signatures and their columns -/

namespace Bindings

variable {b : Bindings}

/-- What replaces a node of the output if each grouping call has a column. -/
def ruleOver (b : Bindings) (column : GroupingCall → VirtualColumn) (node : Expr) : Option Expr :=
  match node.groupingCall? with
  | some call => some (column call).toExpr
  | none => b.replacement? node

lemma isSome_ruleOver (column : GroupingCall → VirtualColumn) (n : Expr) :
    (b.ruleOver column n).isSome = b.replaces n := by
  rw [ruleOver, replaces]
  cases n.groupingCall? with
  | some call => rfl
  | none => simp [replacement?]

/-- In a tree without virtual columns those of the calls replaced are put, in order. -/
theorem virtuals_ruleOver (column : GroupingCall → VirtualColumn) {e : Expr}
    (free : ∀ t ∈ e.subterms, t.virtual? = none) :
    (e.replace (b.ruleOver column)).virtuals = (b.replacedCalls e).map column := by
  have own : ∀ n ∈ e.nodesUntil b.replaces,
      ((b.ruleOver column n).map Expr.virtuals).getD n.virtual?.toList =
        (n.groupingCall?.map column).toList := by
    intro n hn
    rw [ruleOver, free n (Expr.mem_subterms_of_mem_nodesUntil hn)]
    cases n.groupingCall? with
    | some call => simp [Expr.virtuals]
    | none =>
      cases hreplaced : b.replacement? n with
      | none => rfl
      | some y =>
        obtain ⟨x, -, rfl⟩ := replacement?_eq_some hreplaced
        rfl
  rw [Expr.virtuals_replace, replacedCalls, List.map_filterMap,
    List.filterMap_eq_flatMap_toList]
  simp only [isSome_ruleOver]
  exact List.flatMap_congr own

end Bindings

namespace Repetition

variable {r : Repetition} {next : Nat}

/-- The grouping calls of the output that are replaced, in the order in which they are visited. -/
def replacedCalls (r : Repetition) (next : Nat) : List GroupingCall :=
  r.output.flatMap (r.bindingsAt next).replacedCalls

/-- Their signatures. -/
def callSignatures (r : Repetition) (next : Nat) : List GroupingCall :=
  (r.replacedCalls next).map (r.bindingsAt next).signature

/-- The column of a signature. -/
def columnFor (r : Repetition) (next : Nat) (signature : GroupingCall) : VirtualColumn :=
  ((r.callColumnsAt next).find? (·.isFor signature)).getD (.ofCall ⟨r.firstCall next⟩ signature)

/-- The column of a call. -/
def callColumn (r : Repetition) (next : Nat) (call : GroupingCall) : VirtualColumn :=
  r.columnFor next ((r.bindingsAt next).signature call)

lemma signature_mem {call : GroupingCall} (hcall : call ∈ r.replacedCalls next) :
    (r.bindingsAt next).signature call ∈ r.callSignatures next := List.mem_map_of_mem hcall

section Signatures

variable {signature signature' : GroupingCall}

/-- Signatures are numbered in order of first visit, and so are their columns. -/
lemma columnFor_eq {i : Nat} (hi : i < ((r.bindingsAt next).signatures r.output).toList.length)
    (hbeq : signature == ((r.bindingsAt next).signatures r.output).toList[i]) :
    r.columnFor next signature = .ofCall ⟨r.firstCall next + i⟩
      ((r.bindingsAt next).signatures r.output).toList[i] := by
  rw [columnFor, callColumnsAt, Bindings.find?_callColumns hi hbeq, Option.getD_some]

/-- The column of a signature records it. -/
lemma exists_quantity_columnFor (h : signature ∈ r.callSignatures next) :
    ∃ source, (r.columnFor next signature).quantity = .call source ∧ source == signature := by
  obtain ⟨i, hi, hbeq⟩ := Bindings.exists_signature h
  rw [columnFor_eq hi hbeq]
  exact ⟨_, rfl, BEq.symm hbeq⟩

lemma columnFor_congr (h' : signature' ∈ r.callSignatures next) (hbeq : signature == signature') :
    r.columnFor next signature = r.columnFor next signature' := by
  obtain ⟨i, hi, hbeq'⟩ := Bindings.exists_signature h'
  rw [columnFor_eq hi hbeq', columnFor_eq hi (BEq.trans hbeq hbeq')]

/-- Columns tell signatures apart. -/
lemma columnFor_beq_columnFor (h : signature ∈ r.callSignatures next)
    (h' : signature' ∈ r.callSignatures next) :
    (r.columnFor next signature == r.columnFor next signature') = (signature == signature') := by
  rw [Bool.eq_iff_iff]
  constructor
  · intro hcolumns
    obtain ⟨i, hi, hbeq⟩ := Bindings.exists_signature h
    obtain ⟨j, hj, hbeq'⟩ := Bindings.exists_signature h'
    have hid := VirtualColumn.id_eq_of_beq hcolumns
    rw [columnFor_eq hi hbeq, columnFor_eq hj hbeq'] at hid
    have hnumber : r.firstCall next + i = r.firstCall next + j := congrArg ColumnId.number hid
    obtain rfl : i = j := by omega
    exact BEq.trans hbeq (BEq.symm hbeq')
  · intro hbeq
    rw [columnFor_congr h' hbeq]
    exact BEq.rfl

end Signatures

/-- Calls share a column exactly if their signatures are equal. -/
theorem callColumn_eq_iff {call call' : GroupingCall} (hcall : call ∈ r.replacedCalls next)
    (hcall' : call' ∈ r.replacedCalls next) :
    r.callColumn next call = r.callColumn next call' ↔
      call.fn = call'.fn ∧ call.args.map (r.bindingsAt next).substitute ==
        call'.args.map (r.bindingsAt next).substitute := by
  refine Iff.trans ⟨fun heq => ?_, columnFor_congr (signature_mem hcall')⟩
    (GroupingCall.beq_iff _ _)
  rw [← columnFor_beq_columnFor (signature_mem hcall) (signature_mem hcall')]
  exact beq_of_eq heq

/-! ## The output -/

/-- Each call of the output that is replaced is replaced by its column. -/
lemma outputAt_eq_ruleOver (r : Repetition) (next : Nat) : r.outputAt next =
    r.output.map (Expr.replace ((r.bindingsAt next).ruleOver (r.callColumn next))) := by
  refine List.map_congr_left fun e he => (Expr.replace_congr fun n hn => ?_).symm
  have answers : ∀ n ∈ e.nodesUntil (r.bindingsAt next).replaces,
      ((r.bindingsAt next).outputRule (r.callColumnsAt next) n).isSome =
        (r.bindingsAt next).replaces n := fun n hn => Bindings.outputRule_isSome he hn
  rw [Expr.nodesUntil_congr answers] at hn
  rw [Bindings.ruleOver, Bindings.outputRule]
  cases hcall : n.groupingCall? with
  | none => rfl
  | some call =>
    have replaced : call ∈ r.replacedCalls next :=
      List.mem_flatMap.2 ⟨e, he, List.mem_filterMap.2 ⟨n, hn, hcall⟩⟩
    obtain ⟨i, hi, hbeq⟩ := Bindings.exists_signature (signature_mem replaced)
    dsimp only
    rw [callColumn, columnFor_eq hi hbeq, callColumnsAt, Bindings.find?_callColumns hi hbeq,
      Option.map_some]

lemma virtuals_outputAt (free : r.VirtualFree) : (r.outputAt next).map Expr.virtuals =
    r.output.map fun e => ((r.bindingsAt next).replacedCalls e).map (r.callColumn next) := by
  rw [outputAt_eq_ruleOver, List.map_map]
  refine List.map_congr_left fun e he => Bindings.virtuals_ruleOver _ fun t ht => ?_
  exact Option.isNone_iff_eq_none.1 (free e (List.mem_append_right _ he) t ht)

end Repetition

namespace Stacked

variable {r : Repetition} {next : Nat} (x : Stacked r next) (free : r.VirtualFree)
include free

lemma virtualOccurrences_eq_map :
    x.substituted.virtualOccurrences = (r.replacedCalls next).map (r.callColumn next) := by
  rw [Substituted.virtualOccurrences, List.filterMap_flatMap, Repetition.replacedCalls,
    List.map_flatMap, List.flatMap_def, List.flatMap_def]
  exact congrArg List.flatten (Repetition.virtuals_outputAt free)

/-- The columns of calls are those of the signatures, in order of first visit. -/
theorem callColumns_eq : x.substituted.callColumns.toList =
    ((r.bindingsAt next).signatures r.output).toList.map (r.columnFor next) := by
  have calls : (x.substituted.virtualOccurrences.filter fun v => !v.standsForId) =
      (r.callSignatures next).map (r.columnFor next) := by
    rw [x.virtualOccurrences_eq_map free, Repetition.callSignatures, List.map_map]
    refine List.filter_eq_self.2 fun v hv => ?_
    obtain ⟨call, hcall, rfl⟩ := List.mem_map.1 hv
    obtain ⟨source, hsource, -⟩ := Repetition.exists_quantity_columnFor
      (Repetition.signature_mem hcall)
    rw [Repetition.callColumn, VirtualColumn.standsForId, hsource]
    rfl
  rw [Substituted.callColumns, calls]
  exact Roster.toList_ofList_map fun signature h signature' h' =>
    Repetition.columnFor_beq_columnFor h h'

end Stacked

/-! ## Lowered repetitions -/

/-- How an aggregation `a` over a repetition `r'` reads the grouping calls that were replaced in the
output of a repetition `r` with the bindings `b`: each has a `column`.  The virtual columns are that
of the grouping id and those `marked`. -/
structure SharesCalls (r : Repetition) (b : Bindings) (a : Aggregation) (r' : Repetition)
    (column : GroupingCall → VirtualColumn) (groupingId : VirtualColumn)
    (marked : List VirtualColumn) : Prop where
  /-- Calls are replaced by their columns, and other expressions by what they are bound to.  After
  that only plain columns are renamed, inside aggregates. -/
  output : ∃ f, a.output = r.output.map fun e =>
    (e.replace (b.ruleOver column)).mapAggregateArguments (Expr.replaceColumns f)
  /-- In each entry there are the columns of the calls replaced, in order, and no other virtual
  columns. -/
  virtuals : a.output.map Expr.virtuals = r.output.map fun e => (b.replacedCalls e).map column
  /-- Calls share a column exactly if they have one function and equal arguments, once columns are
  substituted. -/
  shared : ∀ call ∈ r.output.flatMap b.replacedCalls, ∀ call' ∈ r.output.flatMap b.replacedCalls,
    column call = column call' ↔
      call.fn = call'.fn ∧ call.args.map b.substitute == call'.args.map b.substitute
  /-- A column records the function and these arguments. -/
  source : ∀ call ∈ r.output.flatMap b.replacedCalls, ∃ source,
    (column call).quantity = .call source ∧ source.fn = call.fn ∧
      source.args == call.args.map b.substitute
  /-- There is one column for each signature, in order of first visit. -/
  signatures : marked.map (·.quantity) = (b.signatures r.output).toList.map .call
  listed : ∀ call ∈ r.output.flatMap b.replacedCalls, column call ∈ marked
  standsForId : groupingId.standsForId = true
  nodup : ((groupingId :: marked).map (·.column.id)).Nodup
  /-- The repetition puts these out and the aggregation groups by them, after plain columns. -/
  putOut : ∃ columns : List Column, r'.output =
    columns.map Expr.column ++ (groupingId :: marked).map VirtualColumn.toExpr
  groupedBy : ∃ keys : List Column, a.groupBy =
    keys.map Expr.column ++ (groupingId :: marked).map VirtualColumn.toExpr

/-- In a lowered query without virtual columns, grouping calls share columns exactly as their
signatures are equal, and there is one column for each signature. -/
theorem Repetition.lower_sharesCalls {r : Repetition} {settings : Settings} {s s' : Session}
    {a : Aggregation} (free : r.VirtualFree) (run : (r.lower settings).runIn s = (.ok a, s')) :
    ∃ (b : Bindings) (s₁ : Session) (r' : Repetition) (column : GroupingCall → VirtualColumn)
      (groupingId : VirtualColumn) (marked : List VirtualColumn),
        (r.bindAll r.early).runIn s = (.ok b, s₁) ∧ a.child = r'.toPlan ∧
        SharesCalls r b a r' column groupingId marked := by
  obtain ⟨-, -, x, s₁, hnext, run⟩ := lower_eq_ok run
  obtain ⟨ds, child, lowered, duplicated, -⟩ := x.duplicated_of_separate hnext run
  have signatures := x.callColumns_eq free
  refine ⟨r.bindingsAt s.nextId, _, _, r.callColumn s.nextId, x.groupingId,
    x.substituted.callColumns.toList, rfl, lowered.child_eq, ?_⟩
  constructor
  case output =>
    refine ⟨Duplicate.copyOf? ds, ?_⟩
    rw [duplicated.output, Stacked.substituted, outputAt_eq_ruleOver, List.map_map]
    rfl
  case virtuals =>
    rw [← virtuals_outputAt free, duplicated.output, List.map_map]
    exact List.map_congr_left fun e _ =>
      Expr.virtuals_mapAggregateArguments (Expr.virtuals_replaceColumns _) e
  case shared => exact fun call hcall call' hcall' => callColumn_eq_iff hcall hcall'
  case source =>
    intro call hcall
    obtain ⟨source, hsource, hbeq⟩ := exists_quantity_columnFor (signature_mem hcall)
    exact ⟨source, hsource, (GroupingCall.beq_iff _ _).1 hbeq⟩
  case signatures =>
    rw [signatures, List.map_map]
    refine List.map_congr_left fun signature h => ?_
    obtain ⟨i, hi, rfl⟩ := List.mem_iff_getElem.1 h
    rw [Function.comp_apply, columnFor_eq hi BEq.rfl]
    rfl
  case listed =>
    intro call hcall
    obtain ⟨i, hi, hbeq⟩ := Bindings.exists_signature (signature_mem hcall)
    rw [signatures, callColumn, columnFor_eq hi hbeq, ← columnFor_eq hi BEq.rfl]
    exact List.mem_map_of_mem (List.getElem_mem hi)
  case standsForId => exact (x.withCopies [] child).standsForId
  case nodup => exact x.nodup_ids_virtualColumns free
  case putOut => exact ⟨_, rfl⟩
  case groupedBy => exact ⟨_, lowered.groupBy_eq⟩

/-- `select grouping(a) as g, grouping(a) + grouping(b) as h … group by grouping sets ((a), (b))`,
with three calls for two signatures. -/
def Repetition.addedMarks : Repetition :=
  let a : Column := ⟨⟨0⟩, "a", .integer, true⟩
  let b : Column := ⟨⟨1⟩, "b", .integer, true⟩
  let mark (c : Column) : Expr := .grouping .grouping [.column c]
  { sets := [[.column a], [.column b]]
    output := [.named ⟨2⟩ "g" (mark a), .named ⟨3⟩ "h" (.arith .add (mark a) (mark b))]
    child := .scan "t" [a, b] }

theorem Repetition.lower_sharesCalls_addedMarks :
    addedMarks.VirtualFree ∧ ∃ a s', (addedMarks.lower {}).runIn { nextId := 4 } = (.ok a, s') ∧
      ∃ (b : Bindings) (r' : Repetition) (column : GroupingCall → VirtualColumn)
        (groupingId : VirtualColumn) (marked : List VirtualColumn), a.child = r'.toPlan ∧
          SharesCalls addedMarks b a r' column groupingId marked ∧
          (addedMarks.output.flatMap b.replacedCalls).length = 3 ∧ marked.length = 2 := by
  have free : addedMarks.VirtualFree := by
    unfold VirtualFree
    decide
  obtain ⟨a, s', run⟩ : ∃ a s', (addedMarks.lower {}).runIn { nextId := 4 } = (.ok a, s') :=
    ⟨_, _, rfl⟩
  obtain ⟨b, s₁, r', column, groupingId, marked, bound, hchild, shares⟩ :=
    lower_sharesCalls free run
  obtain rfl : addedMarks.bindingsAt 4 = b := Except.ok.inj (Prod.mk.inj bound).1
  have length := congrArg List.length shares.signatures
  rw [List.length_map, List.length_map] at length
  refine ⟨free, a, s', run, _, r', column, groupingId, marked, hchild, shares, by decide, ?_⟩
  rw [length]
  decide

end GroupingPlanner

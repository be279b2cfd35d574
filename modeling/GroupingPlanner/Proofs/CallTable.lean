import GroupingPlanner.Proofs.Registries
import GroupingPlanner.Proofs.StackColumns
import GroupingPlanner.Proofs.TopDown
/-!
# Grouping calls replaced in one pass

The output of a repetition can also be rewritten in one pass, with a table of the columns given out
so far.  At a grouping call the table is asked for the signature.  If it has a column that one is
put there, and if it has none the next id is taken for a new one, which is entered.

That is the same as collecting all signatures first, taking ids for all of them at once, and
replacing the calls after that.  For at any time the table is what the signatures met so far
determine: the column of a signature depends on its place among them alone, and this place stays
what it is when others follow.  So what the pass reads from its table is what it would read from
the table at the end.

* `Bindings.callRule`, `Bindings.rewriteOutput`: the pass.
* `Bindings.tableOf`: the table for some signatures.
* `Bindings.rewriteOutput_eq`: what the pass returns, with which table, and which ids it takes.
* `Bindings.values_tableOf`: the columns in that table.
-/

namespace GroupingPlanner

/-- Passes that keep a table of the columns given to signatures. -/
abbrev CallM := StateT (Registry GroupingCall VirtualColumn) PlanM

namespace Bindings

variable {b : Bindings} {first : Nat}

/-! ## The pass -/

/-- Replaces a grouping call by the column of its signature.  A signature that is new is given a
column with the next id. -/
def callRule (b : Bindings) (node : Expr) : CallM (Option Expr) := do
  match node.groupingCall? with
  | none => return none
  | some call =>
    match (← get).get? (b.signature call) with
    | some column => return some column.toExpr
    | none =>
      let column := VirtualColumn.ofCall (← PlanM.freshId) (b.signature call)
      modify (·.insert (b.signature call) column)
      return some column.toExpr

/-- The output over bound columns and virtual columns, in one pass. -/
def rewriteOutput (b : Bindings) (output : List Expr) : CallM (List Expr) :=
  output.mapM (b.substituteM b.callRule)

/-! ## The table -/

lemma map_fst_mapIdx {α β : Type} (f : Nat → α → β) (xs : List α) :
    (xs.mapIdx fun i x => (x, f i x)).map (·.1) = xs := by
  refine List.ext_getElem (by simp) fun i hi hi' => ?_
  simp

/-- The table that gives consecutive ids to the signatures of a roster. -/
def tableOf (first : Nat) (signatures : Roster GroupingCall) :
    Registry GroupingCall VirtualColumn where
  entries := signatures.toList.mapIdx fun i call => (call, .ofCall ⟨first + i⟩ call)
  distinct := by
    rw [map_fst_mapIdx]
    exact signatures.distinct

@[simp] lemma keys_tableOf (signatures : Roster GroupingCall) :
    (tableOf first signatures).keys = signatures.toList := map_fst_mapIdx ..

lemma get?_tableOf {signatures : Roster GroupingCall} {call : GroupingCall} {i : Nat}
    (hi : i < signatures.toList.length) (hbeq : call == signatures.toList[i]) :
    (tableOf first signatures).get? call =
      some (.ofCall ⟨first + i⟩ signatures.toList[i]) := by
  rw [Registry.get?_congr _ hbeq]
  exact Registry.get?_of_mem (List.mem_mapIdx.2 ⟨i, hi, rfl⟩)

/-- A signature that is new comes last and has the next id. -/
lemma insert_tableOf {signatures : Roster GroupingCall} {call : GroupingCall}
    (new : signatures.contains call = false) :
    (tableOf first signatures).insert call (.ofCall ⟨first + signatures.size⟩ call) =
      tableOf first (signatures.insert call) := by
  refine Registry.eq_of_entries ?_
  have hkeys : (tableOf first signatures).contains call = false := by
    rw [Registry.contains, keys_tableOf]
    exact new
  rw [Registry.entries_insert_of_new hkeys]
  simp [tableOf, Roster.toList_insert_of_new new, Roster.size, List.mapIdx_append]

/-! ## What the pass has done at any time -/

/-- The signatures of the grouping calls among some nodes. -/
def signaturesOf (b : Bindings) (seen : List Expr) : Roster GroupingCall :=
  .ofList ((seen.filterMap Expr.groupingCall?).map b.signature)

lemma signatures_eq (b : Bindings) (output : List Expr) :
    b.signatures output = b.signaturesOf (output.flatMap (Expr.nodesUntil b.replaces)) := by
  rw [signatures, signaturesOf, List.filterMap_flatMap]
  rfl

lemma signaturesOf_concat_of_call {node : Expr} {call : GroupingCall}
    (h : node.groupingCall? = some call) (seen : List Expr) :
    b.signaturesOf (seen ++ [node]) = (b.signaturesOf seen).insert (b.signature call) := by
  rw [signaturesOf, List.filterMap_append, List.map_append, Roster.ofList_append]
  simp [h, signaturesOf]

lemma signaturesOf_concat_of_none {node : Expr} (h : node.groupingCall? = none)
    (seen : List Expr) : b.signaturesOf (seen ++ [node]) = b.signaturesOf seen := by
  simp [signaturesOf, h]

/-- Puts table and session in the state that they are in after some nodes. -/
def visitLog (b : Bindings) (first : Nat) (seen : List Expr) : CallM Unit := do
  set (tableOf first (b.signaturesOf seen))
  modifyThe Session fun s => { s with nextId := first + (b.signaturesOf seen).size }

lemma visitLog_bind {α : Type} (seen : List Expr) (k : Unit → CallM α)
    (table : Registry GroupingCall VirtualColumn) (s : Session) :
    (b.visitLog first seen >>= k) table s = k () (tableOf first (b.signaturesOf seen))
      { s with nextId := first + (b.signaturesOf seen).size } := rfl

lemma callRule_of_none {node : Expr} (h : node.groupingCall? = none) :
    b.callRule node = return none := by
  rw [callRule, h]

/-- At a grouping call the pass goes by the table for what it has met so far. -/
lemma visitLog_callRule {node : Expr} {call : GroupingCall} (h : node.groupingCall? = some call)
    (seen : List Expr) :
    (do b.visitLog first seen; b.callRule node) = do
      b.visitLog first seen
      match (tableOf first (b.signaturesOf seen)).get? (b.signature call) with
      | some column => return some column.toExpr
      | none =>
        let column := VirtualColumn.ofCall (← PlanM.freshId) (b.signature call)
        modify (·.insert (b.signature call) column)
        return some column.toExpr := by
  simp only [callRule, h]
  rfl

/-- A column for a signature that is new brings the table to what it is to be next. -/
lemma visitLog_insert {node : Expr} {call : GroupingCall} (h : node.groupingCall? = some call)
    {seen : List Expr} (new : (b.signaturesOf seen).contains (b.signature call) = false) :
    (do
      b.visitLog first seen
      let column := VirtualColumn.ofCall (← PlanM.freshId) (b.signature call)
      modify (·.insert (b.signature call) column)
      return some column.toExpr) = do
      b.visitLog first (seen ++ [node])
      return some (VirtualColumn.ofCall ⟨first + (b.signaturesOf seen).size⟩
        (b.signature call)).toExpr := by
  have size : ((b.signaturesOf seen).insert (b.signature call)).size =
      (b.signaturesOf seen).size + 1 := by
    rw [Roster.size, Roster.toList_insert_of_new new, List.length_append, List.length_singleton,
      Roster.size]
  rw [visitLog, visitLog, signaturesOf_concat_of_call h, ← insert_tableOf new, size]
  rfl

/-! ## The whole pass -/

section

variable {output seen : List Expr} {node : Expr} {signature : GroupingCall}

/-- Signatures keep their places, and so their columns are those of all signatures. -/
lemma find?_callColumns_of_prefix
    (within : seen <+: output.flatMap (Expr.nodesUntil b.replaces)) {i : Nat}
    (hi : i < (b.signaturesOf seen).toList.length)
    (hbeq : signature == (b.signaturesOf seen).toList[i]) :
    (b.callColumns first output).find? (·.isFor signature) =
      some (.ofCall ⟨first + i⟩ (b.signaturesOf seen).toList[i]) := by
  have later : (b.signaturesOf seen).toList <+: (b.signatures output).toList := by
    rw [signatures_eq]
    exact Roster.prefix_ofList ((within.filterMap Expr.groupingCall?).map b.signature)
  have place := later.getElem hi
  rw [place] at hbeq ⊢
  exact find?_callColumns (later.length_le.trans_lt' hi) hbeq

/-- The column that the pass finds in the table for a call, or puts there, is the one that the call
has in the end. -/
lemma visitLog_callRule_of_call (first : Nat) {call : GroupingCall}
    (h : node.groupingCall? = some call)
    (within : seen ++ [node] <+: output.flatMap (Expr.nodesUntil b.replaces)) :
    ∃ column, (b.callColumns first output).find? (·.isFor (b.signature call)) = some column ∧
      (do b.visitLog first seen; b.callRule node) = do
        b.visitLog first (seen ++ [node])
        return some column.toExpr := by
  rw [visitLog_callRule h]
  cases met : (b.signaturesOf seen).contains (b.signature call) with
  | true =>
    obtain ⟨kept, hkept, hbeq⟩ := (Roster.contains_iff _ _).1 met
    obtain ⟨i, hi, rfl⟩ := List.mem_iff_getElem.1 hkept
    have unchanged : b.visitLog first (seen ++ [node]) = b.visitLog first seen := by
      rw [visitLog, signaturesOf_concat_of_call h, Roster.insert_of_contains met]
      rfl
    refine ⟨_, find?_callColumns_of_prefix ((List.prefix_append _ _).trans within) hi hbeq, ?_⟩
    rw [get?_tableOf hi hbeq, unchanged]
  | false =>
    have miss : (tableOf first (b.signaturesOf seen)).get? (b.signature call) = none := by
      rw [Registry.get?_eq_none_iff, Registry.contains, keys_tableOf]
      exact met
    have hlist : (b.signaturesOf (seen ++ [node])).toList =
        (b.signaturesOf seen).toList ++ [b.signature call] := by
      rw [signaturesOf_concat_of_call h, Roster.toList_insert_of_new met]
    have last : (b.signaturesOf seen).size < (b.signaturesOf (seen ++ [node])).toList.length := by
      simp [hlist, Roster.size]
    have own : (b.signaturesOf (seen ++ [node])).toList[(b.signaturesOf seen).size] =
        b.signature call := by
      simp [hlist, Roster.size]
    refine ⟨_, find?_callColumns_of_prefix within last (beq_of_eq own.symm), ?_⟩
    rw [miss, own]
    exact visitLog_insert h met

/-- At every node it comes to, the pass answers as if it knew all columns. -/
lemma visitLog_step (within : seen ++ [node] <+: output.flatMap (Expr.nodesUntil b.replaces)) :
    (do
      b.visitLog first seen
      match ← b.callRule node with
      | some replacement => return some replacement
      | none => return b.replacement? node) = do
      b.visitLog first (seen ++ [node])
      return b.outputRule (b.callColumns first output) node := by
  cases h : node.groupingCall? with
  | none =>
    rw [callRule_of_none h, visitLog, visitLog, signaturesOf_concat_of_none h, outputRule, h]
    rfl
  | some call =>
    obtain ⟨column, found, asked⟩ := visitLog_callRule_of_call first h within
    have known : b.outputRule (b.callColumns first output) node = some column.toExpr := by
      simp only [outputRule, h, found, Option.map_some]
    rw [← bind_assoc, asked, known]
    rfl

end

/-- The pass from the state it starts in to the one it ends in. -/
lemma visitLog_rewriteOutput (b : Bindings) (first : Nat) (output : List Expr) :
    (do b.visitLog first []; b.rewriteOutput output) = do
      b.visitLog first (output.flatMap (Expr.nodesUntil b.replaces))
      return b.substituteOutput (b.callColumns first output) output := by
  refine Expr.mapM_of_log (fun e he seen within => ?_) [] List.prefix_rfl
  have walk : e.nodesUntil b.replaces =
      e.nodesUntil fun n => (b.outputRule (b.callColumns first output) n).isSome :=
    (Expr.nodesUntil_congr fun n hn => outputRule_isSome he hn).symm
  rw [walk] at within ⊢
  exact Expr.replaceM_of_log (fun _ _ => visitLog_step) within

/-- One pass over the output with a table replaces the grouping calls as they are replaced once all
signatures are collected.  It takes as many ids, gives the same ones to the same signatures, and
leaves the table of all of them. -/
theorem rewriteOutput_eq (b : Bindings) (output : List Expr) :
    (b.rewriteOutput output).run .empty = do
      let first ← PlanM.takeIds (b.signatures output).size
      return (b.substituteOutput (b.callColumns first output) output,
        tableOf first (b.signatures output)) := by
  funext s
  have pass := congrFun (congrFun (b.visitLog_rewriteOutput s.nextId output) .empty) s
  rw [visitLog_bind, visitLog_bind, ← signatures_eq] at pass
  exact pass

/-- The table has the columns of calls, in order. -/
lemma values_tableOf (b : Bindings) (first : Nat) (output : List Expr) :
    (tableOf first (b.signatures output)).values = b.callColumns first output := by
  refine List.ext_getElem (by simp [Registry.values, tableOf, callColumns]) fun i hi hi' => ?_
  simp [Registry.values, tableOf, callColumns]

end Bindings

end GroupingPlanner

import GroupingPlanner.Lowering.Bindings
import GroupingPlanner.Proofs.Visits
/-!
# Rules applied from the root down

A rule may look at more than the node it is asked about, take ids, write a journal, or fail.  So it
matters which nodes it is asked about, and in which order: the ids of virtual columns, say, are
numbered in the order in which calls are met.  What can be relied on is that a rule is asked about
the nodes that stand in no replaced one, about each of them once, in pre-order, and about none after
it has failed.  What it leaves alone stays as it is.

The recursion that does this is over the constructors of expressions.  It is first brought into a
form that goes through `children` and `reassemble` and so is the same for all of them
(`replaceM_eq`).  Then the visits are put together along the tree (`exists_topDown`).  Since they
are determined by what the rule answers, this is all that a run can do.

* `replaceM_eq`, `replaceM_eq_reassemble`: the recursion through children.
* `replaceM_forM`: rules whose answers depend on the node alone.
* `replaceM_of_log`: rules that keep a log of what they were asked.
* `RuleM`, `Rule`: rules with a state of their own that may fail.
* `Asked`, `TopDown`: what a rule is asked, and what becomes of a tree.
* `exists_topDown`, `runIn_replaceM_iff`: what a run does.
* `replaceM_topDown`: the same with all that follows, also for substitution.
-/

namespace GroupingPlanner
namespace Expr

/-! ## The recursion through children -/

section Equations

variable {m : Type → Type} [Monad m] [LawfulMonad m]

/-- What comes after a list has been mapped may rely on the length of the new one. -/
lemma mapM_bind_congr {α β γ : Type} {f : α → m β} {xs : List α} {k k' : List β → m γ}
    (h : ∀ ys : List β, ys.length = xs.length → k ys = k' ys) :
    (xs.mapM f >>= k) = (xs.mapM f >>= k') := by
  induction xs generalizing k k' with
  | nil => simpa using h [] rfl
  | cons x xs ih =>
    simp only [List.mapM_cons, bind_assoc, pure_bind]
    refine bind_congr fun y => ih fun ys length => h _ ?_
    simp [length]

lemma mapM_concat {α β : Type} (f : α → m β) (xs : List α) (x : α) :
    (xs ++ [x]).mapM f = do
      let ys ← xs.mapM f
      let y ← f x
      return ys ++ [y] := by
  simp [List.mapM_append]

/-- Effects can be separated from values where the values do not depend on them. -/
lemma mapM_eq_forM {α β : Type} {f : α → m β} {effect : α → m Unit} {g : α → β} {xs : List α}
    (h : ∀ x ∈ xs, f x = do effect x; return g x) :
    xs.mapM f = do forM xs effect; return xs.map g := by
  induction xs with
  | nil => simp
  | cons x xs ih =>
    rw [List.mapM_cons, ih fun y hy => h y (List.mem_cons_of_mem _ hy), h x List.mem_cons_self]
    simp

lemma forM_flatMap {α β : Type} (f : β → m Unit) (g : α → List β) (xs : List α) :
    forM (xs.flatMap g) f = forM xs fun x => forM (g x) f := by
  induction xs with
  | nil => rfl
  | cons x xs ih => simp [List.flatMap_cons, ih]

lemma replaceAllM_eq_mapM (rule : Expr → m (Option Expr)) (es : List Expr) :
    replaceAllM rule es = es.mapM (replaceM rule) := by
  induction es with
  | nil => simp [replaceAllM]
  | cons e es ih => simp [replaceAllM, ih]

/-- A node that is not replaced is put together over what its children have become. -/
theorem replaceM_eq (rule : Expr → m (Option Expr)) (e : Expr) :
    e.replaceM rule = answerOr (rule e) do
      let cs ← e.children.mapM (replaceM rule)
      return (e.reassemble? cs).getD e := by
  have put {e' : Expr} (same : e.SameNode e') : e' = (e.reassemble? e'.children).getD e := by
    rw [reassemble?_eq_some_iff.2 ⟨same, rfl⟩, Option.getD_some]
  cases e with
  | window function partitionBy orderBy frame =>
    rw [replaceM, children]
    simp only [replaceAllM_eq_mapM, List.mapM_cons, List.mapM_append, bind_assoc, pure_bind]
    refine congrArg _ (bind_congr fun function' => ?_)
    refine mapM_bind_congr fun partitionBy' hp => mapM_bind_congr fun orderBy' ho => ?_
    exact congrArg pure (put (.window function function' frame hp ho))
  | call name args type =>
    rw [replaceM, children, replaceAllM_eq_mapM]
    exact congrArg _
      (mapM_bind_congr fun args' length => congrArg pure (put (.call name type length)))
  | aggregate fn args distinct =>
    rw [replaceM, children, replaceAllM_eq_mapM]
    exact congrArg _
      (mapM_bind_congr fun args' length => congrArg pure (put (.aggregate fn distinct length)))
  | grouping fn args =>
    rw [replaceM, children, replaceAllM_eq_mapM]
    exact congrArg _ (mapM_bind_congr fun args' length => congrArg pure (put (.grouping fn length)))
  | _ => simp [replaceM, children, reassemble?]

/-- A rule whose answers depend on the node alone is asked about the nodes of the walk that stops at
what it replaces. -/
theorem replaceM_forM (effect : Expr → m Unit) (answer : Expr → Option Expr) (e : Expr) :
    (e.replaceM fun node => do effect node; return answer node) = do
      forM (e.nodesUntil fun node => (answer node).isSome) effect
      return e.replace answer := by
  induction e using childrenInduction with
  | step e ih =>
    rw [replaceM_eq, nodesUntil_eq, mapM_eq_forM ih, replace_eq]
    cases h : answer e with
    | some t => simp [answerOr]
    | none => simp [answerOr, reassemble?_map_children, forM_flatMap]

/-- Where each entry of a list adds to a log and is mapped to what is known beforehand, so is the
list.  A log that is part of `all` has room for what is added. -/
lemma mapM_of_log {α β γ : Type} {f : α → m β} {g : α → β} {visits : α → List γ}
    {log : List γ → m Unit} {all : List γ} {xs : List α}
    (step : ∀ x ∈ xs, ∀ seen, seen ++ visits x <+: all →
      (do log seen; f x) = do log (seen ++ visits x); return g x)
    (seen : List γ) (within : seen ++ xs.flatMap visits <+: all) :
    (do log seen; xs.mapM f) = do log (seen ++ xs.flatMap visits); return xs.map g := by
  induction xs generalizing seen with
  | nil => simp
  | cons x xs ih =>
    rw [List.flatMap_cons, ← List.append_assoc] at within
    have first := step x List.mem_cons_self seen ((List.prefix_append _ _).trans within)
    have rest := ih (fun y hy => step y (List.mem_cons_of_mem _ hy)) _ within
    calc (do log seen; (x :: xs).mapM f)
      _ = (do log seen; f x) >>= fun y => do let ys ← xs.mapM f; return y :: ys := by
        rw [List.mapM_cons, bind_assoc]
      _ = (do log (seen ++ visits x); xs.mapM f) >>= fun ys => return g x :: ys := by
        rw [first]
        simp only [bind_assoc, pure_bind]
      _ = do log (seen ++ (x :: xs).flatMap visits); return (x :: xs).map g := by
        rw [rest]
        simp

/-- What a rule answers may depend on what it was asked before, on the nodes `seen`.  If it keeps
them in a log and its answers along a walk are those of a plain rule, then the tree becomes what it
becomes under the plain rule, and the log is the walk. -/
theorem replaceM_of_log {rule : Expr → m (Option Expr)} {answer : Expr → Option Expr}
    {log : List Expr → m Unit} {walk : List Expr}
    (step : ∀ seen node, seen ++ [node] <+: walk →
      (do log seen; rule node) = do log (seen ++ [node]); return answer node)
    {e : Expr} {seen : List Expr}
    (within : seen ++ e.nodesUntil (fun node => (answer node).isSome) <+: walk) :
    (do log seen; e.replaceM rule) = do
      log (seen ++ e.nodesUntil fun node => (answer node).isSome)
      return e.replace answer := by
  induction e using childrenInduction generalizing seen with
  | step e ih =>
    rw [nodesUntil_eq, List.append_cons] at within
    have asked := step seen e ((List.prefix_append _ _).trans within)
    rw [replaceM_eq, nodesUntil_eq, replace_eq, List.append_cons]
    have unfolded (otherwise : m Expr) : (do log seen; answerOr (rule e) otherwise) =
        (do log seen; rule e) >>= fun reply => answerOr (pure reply) otherwise := by
      simp [answerOr]
    rw [unfolded, asked]
    cases h : answer e with
    | some t => simp [answerOr]
    | none =>
      rw [h] at within
      have children := mapM_of_log (fun c hc seen' within' => ih c hc within') _ within
      have rebuilt : ((do log (seen ++ [e]); return none) >>= fun reply =>
          answerOr (pure reply) do
            let cs ← e.children.mapM (replaceM rule)
            return (e.reassemble? cs).getD e) =
          (do log (seen ++ [e]); e.children.mapM (replaceM rule)) >>= fun cs =>
            return (e.reassemble? cs).getD e := by
        simp [answerOr]
      rw [rebuilt, children]
      simp [reassemble?_map_children]

end Equations

/-! ## Rules with a state -/

/-- Computations with a state `σ` that may fail for a reason in `ε`.  What they did to the state
before they failed stays done. -/
abbrev RuleM (ε σ : Type) := ExceptT ε (StateM σ)

/-- Rules: what to put in the place of a node, if it is to be replaced. -/
abbrev Rule (ε σ : Type) := Expr → RuleM ε σ (Option Expr)

variable {ε σ : Type}

namespace RuleM

variable {α β : Type}

/-- Runs a computation from a state. -/
def runIn (x : RuleM ε σ α) (s : σ) : Except ε α × σ := x.run.run s

/-- A result that was computed without the state. -/
def ofExcept (result : Except ε α) : RuleM ε σ α := ExceptT.mk (pure result)

@[simp] lemma runIn_pure (a : α) (s : σ) : runIn (pure a : RuleM ε σ α) s = (.ok a, s) := rfl

lemma runIn_bind (x : RuleM ε σ α) (k : α → RuleM ε σ β) (s : σ) :
    runIn (x >>= k) s =
      match runIn x s with
      | (.ok a, s') => runIn (k a) s'
      | (.error f, s') => (.error f, s') := by
  simp only [runIn, ExceptT.run_bind, StateT.run_bind]
  generalize x.run.run s = outcome
  rcases outcome with ⟨_ | _, _⟩ <;> rfl

end RuleM

namespace Rule

/-- A rule that is asked first, and what replaces a node that it lets be. -/
def withFallback (rule : Rule ε σ) (fallback : Expr → Option Expr) : Rule ε σ := fun node => do
  match ← rule node with
  | some replacement => return some replacement
  | none => return fallback node

lemma runIn_withFallback (rule : Rule ε σ) (fallback : Expr → Option Expr) (node : Expr) (s : σ) :
    (rule.withFallback fallback node).runIn s =
      match (rule node).runIn s with
      | (.ok reply, s') => (.ok (reply.or (fallback node)), s')
      | (.error f, s') => (.error f, s') := by
  rw [withFallback, RuleM.runIn_bind]
  rcases (rule node).runIn s with ⟨_ | _ | t, s'⟩ <;> rfl

lemma withFallback_none (rule : Rule ε σ) : rule.withFallback (fun _ => none) = rule := by
  funext node
  refine (bind_congr fun reply => ?_).trans (bind_pure (rule node))
  cases reply <;> rfl

end Rule

/-- In the recursion no node is ever put together over a wrong number of children. -/
theorem replaceM_eq_reassemble (rule : Rule Fault σ) (e : Expr) :
    e.replaceM rule = answerOr (rule e)
      (do RuleM.ofExcept (e.reassemble (← e.children.mapM (replaceM rule)))) := by
  rw [replaceM_eq]
  refine congrArg _ (mapM_bind_congr fun cs length => ?_)
  obtain ⟨e', he'⟩ := Option.isSome_iff_exists.1 (isSome_reassemble?_iff.2 length)
  rw [reassemble, he']
  rfl

/-! ## What a rule is asked -/

/-- From a state on, the rule is asked about the nodes visited, one after the other, until it fails.
A node is replaced by what the rule has for it, or by the `fallback` if it has nothing. -/
inductive Asked (rule : Rule ε σ) (fallback : Expr → Option Expr) :
    σ → List Visit → Except ε Unit → σ → Prop
  | done (s : σ) : Asked rule fallback s [] (.ok ()) s
  | answered {s s₁ s' : σ} {v : Visit} {visits : List Visit} {result : Except ε Unit}
    {reply : Option Expr} (run : (rule v.node).runIn s = (.ok reply, s₁))
    (answer : v.answer = reply.or (fallback v.node))
    (rest : Asked rule fallback s₁ visits result s') :
    Asked rule fallback s (v :: visits) result s'
  | failed {s s' : σ} {v : Visit} {visits : List Visit} {f : ε}
    (run : (rule v.node).runIn s = (.error f, s')) :
    Asked rule fallback s (v :: visits) (.error f) s'

/-- How a rule with a fallback rewrites a tree `e` from a state `s` on.  If it fails, what the
visits have as answers from there on is of no account. -/
structure TopDown (rule : Rule ε σ) (fallback : Expr → Option Expr) (e : Expr) (s : σ)
    (visits : List Visit) (result : Except ε Expr) (s' : σ) : Prop where
  covers : Covers e.at? visits
  asked : Asked rule fallback s visits (result.map fun _ => ()) s'
  exchanged : ∀ e', result = .ok e' → Exchanged e'.at? visits

/-- The same for several trees. -/
structure TopDownAll (rule : Rule ε σ) (fallback : Expr → Option Expr) (es : List Expr) (s : σ)
    (visits : List Visit) (result : Except ε (List Expr)) (s' : σ) : Prop where
  covers : Covers (atAll? es) visits
  asked : Asked rule fallback s visits (result.map fun _ => ()) s'
  exchanged : ∀ es', result = .ok es' →
    es'.length = es.length ∧ Exchanged (atAll? es') visits

variable {rule : Rule ε σ} {fallback : Expr → Option Expr} {s s₁ s' : σ}

namespace Asked

variable {visits more : List Visit} {result : Except ε Unit} {f : ε}

lemma append (h : Asked rule fallback s visits (.ok ()) s₁)
    (h' : Asked rule fallback s₁ more result s') :
    Asked rule fallback s (visits ++ more) result s' := by
  generalize hr : (Except.ok () : Except ε Unit) = r at h
  induction h with
  | done => exact h'
  | answered run answer _ ih => exact .answered run answer (ih h' hr)
  | failed => cases hr

lemma append_of_error (h : Asked rule fallback s visits (.error f) s') :
    Asked rule fallback s (visits ++ more) (.error f) s' := by
  generalize hr : (Except.error f : Except ε Unit) = r at h
  induction h with
  | done => cases hr
  | answered run answer _ ih => exact .answered run answer (ih hr)
  | failed run =>
    cases hr
    exact .failed run

lemma map_below (h : Asked rule fallback s visits result s') (i : Nat) :
    Asked rule fallback s (visits.map (Visit.below i)) result s' := by
  induction h with
  | done s => exact .done s
  | answered run answer _ ih => exact .answered run answer ih
  | failed run => exact .failed run

/-- Two walks that agree so far end in the same way. -/
lemma unique {look : Position → Option Expr} (before : List Visit) {visits' : List Visit} {s₂ : σ}
    {result' : Except ε Unit} (h : Asked rule fallback s visits result s₁)
    (h' : Asked rule fallback s visits' result' s₂) (covers : Covers look (before ++ visits))
    (covers' : Covers look (before ++ visits')) :
    result = result' ∧ s₁ = s₂ ∧ (result = .ok () → visits = visits') := by
  induction h generalizing before visits' with
  | done =>
    cases h' with
    | done => exact ⟨rfl, rfl, fun _ => rfl⟩
    | answered | failed =>
      obtain ⟨_, _, h, -⟩ := covers.exists_le covers'
      cases h
  | @answered _ _ _ v visits _ _ run answer rest ih =>
    cases h' with
    | done =>
      obtain ⟨_, _, h, -⟩ := covers'.exists_le covers
      cases h
    | @answered _ _ _ w visits' _ _ run' answer' rest' =>
      obtain ⟨hposition, hnode⟩ := covers.next_eq covers'
      rw [← hnode, run] at run'
      cases run'
      have hanswer : v.answer = w.answer := by rw [answer, answer', hnode]
      have same : v = w := by
        cases v
        cases w
        cases hposition
        cases hnode
        cases hanswer
        rfl
      subst same
      rw [List.append_cons] at covers covers'
      obtain ⟨hresult, hs, hvisits⟩ := ih _ rest' covers covers'
      exact ⟨hresult, hs, fun hok => by rw [hvisits hok]⟩
    | failed run' =>
      rw [← (covers.next_eq covers').2, run] at run'
      cases run'
  | failed run =>
    cases h' with
    | done =>
      obtain ⟨_, _, h, -⟩ := covers'.exists_le covers
      cases h
    | answered run' =>
      rw [← (covers.next_eq covers').2, run] at run'
      cases run'
    | failed run' =>
      rw [← (covers.next_eq covers').2, run] at run'
      cases run'
      exact ⟨rfl, rfl, fun h => by cases h⟩

end Asked

/-! ## What a run does -/

/-- Trees are rewritten one after the other. -/
lemma exists_topDownAll {es : List Expr}
    (trees : ∀ e ∈ es, ∀ s, ∃ visits result s',
      (e.replaceM (rule.withFallback fallback)).runIn s = (result, s') ∧
        TopDown rule fallback e s visits result s') (s : σ) :
    ∃ visits result s',
      RuleM.runIn (es.mapM (replaceM (rule.withFallback fallback))) s = (result, s') ∧
        TopDownAll rule fallback es s visits result s' := by
  induction es using List.reverseRecOn with
  | nil =>
    refine ⟨[], .ok [], s, rfl, .nil, .done s, ?_⟩
    rintro _ ⟨⟩
    exact ⟨rfl, fun _ h => absurd h List.not_mem_nil, fun _ h => absurd h List.not_mem_nil⟩
  | append_singleton es e ih =>
    obtain ⟨visits, result, s₁, run, all⟩ := ih fun c hc => trees c (List.mem_append_left _ hc)
    rw [mapM_concat, RuleM.runIn_bind, run]
    cases result with
    | error f =>
      -- The last tree is not looked at any more.
      refine ⟨_, .error f, s₁, rfl, all.covers.concat (.replaced e e),
        all.asked.append_of_error, ?_⟩
      rintro _ ⟨⟩
    | ok es' =>
      obtain ⟨below, result, s', run', tree⟩ := trees e (by simp) s₁
      obtain ⟨length, exchanged⟩ := all.exchanged es' rfl
      have covers := all.covers.concat tree.covers
      have asked := all.asked.append (tree.asked.map_below es.length)
      simp only [RuleM.runIn_bind, run']
      cases result with
      | error f =>
        refine ⟨_, .error f, s', rfl, covers, asked, ?_⟩
        rintro _ ⟨⟩
      | ok e' =>
        refine ⟨_, .ok (es' ++ [e']), s', rfl, covers, asked, ?_⟩
        rintro _ ⟨⟩
        refine ⟨by simp [length], ?_⟩
        rw [← length]
        exact exchanged.concat (tree.exchanged e' rfl)

/-- A run asks about the nodes of a walk, and returns the tree with what was replaced exchanged, or
the fault of the rule. -/
theorem exists_topDown (rule : Rule ε σ) (fallback : Expr → Option Expr) (e : Expr) (s : σ) :
    ∃ visits result s', (e.replaceM (rule.withFallback fallback)).runIn s = (result, s') ∧
      TopDown rule fallback e s visits result s' := by
  induction e using childrenInduction generalizing s with
  | step e ih =>
    rw [replaceM_eq, answerOr, RuleM.runIn_bind, Rule.runIn_withFallback]
    rcases run : (rule e).runIn s with ⟨f | reply, s₁⟩
    · refine ⟨[⟨[], e, some e⟩], .error f, s₁, rfl, .replaced e e, .failed run, ?_⟩
      rintro _ ⟨⟩
    · cases answer : reply.or (fallback e) with
      | some t =>
        refine ⟨[⟨[], e, some t⟩], .ok t, s₁, by simp only [answer]; rfl, .replaced e t,
          .answered run answer.symm (.done s₁), ?_⟩
        rintro _ ⟨⟩
        exact Exchanged.replaced_root e t
      | none =>
        obtain ⟨visits, result, s', run', all⟩ := exists_topDownAll ih s₁
        simp only [answer, RuleM.runIn_bind, run']
        have covers := all.covers.kept
        have asked := Asked.answered (v := ⟨[], e, none⟩) run answer.symm all.asked
        cases result with
        | error f =>
          refine ⟨_, .error f, s', rfl, covers, asked, ?_⟩
          rintro _ ⟨⟩
        | ok cs =>
          obtain ⟨length, exchanged⟩ := all.exchanged cs rfl
          obtain ⟨e', put⟩ := Option.isSome_iff_exists.1 (isSome_reassemble?_iff.2 length)
          obtain ⟨same, rfl⟩ := reassemble?_eq_some_iff.1 put
          refine ⟨_, .ok e', s', by simp [put], covers, asked, ?_⟩
          rintro _ ⟨⟩
          exact Exchanged.kept_root same exchanged

/-- There is one way to go through a tree with a rule, and a run goes it. -/
theorem runIn_replaceM_iff {e : Expr} {result : Except ε Expr} :
    (e.replaceM (rule.withFallback fallback)).runIn s = (result, s') ↔
      ∃ visits, TopDown rule fallback e s visits result s' := by
  obtain ⟨visits₀, result₀, s₀, run, topDown₀⟩ := exists_topDown rule fallback e s
  rw [run]
  constructor
  · rintro ⟨⟩
    exact ⟨visits₀, topDown₀⟩
  · rintro ⟨visits, topDown⟩
    obtain ⟨hresult, rfl, hvisits⟩ :=
      topDown₀.asked.unique [] topDown.asked topDown₀.covers topDown.covers
    cases result₀ with
    | error f =>
      cases result with
      | error f' =>
        cases hresult
        rfl
      | ok e' => cases hresult
    | ok e₀ =>
      cases result with
      | error f' => cases hresult
      | ok e' =>
        cases hvisits rfl
        rw [Exchanged.unique topDown.covers (topDown₀.exchanged e₀ rfl) (topDown.exchanged e' rfl)]

/-- **Rewriting from the root down.**  A rule is asked about the nodes that stand in no replaced
one, each once and in pre-order, until it fails.  Its fault is then the result, and there is no
other one, although nodes are put together again over their new children.  Otherwise the result is
the tree with the outermost replaced nodes exchanged.  In a substitution bound expressions are
replaced besides what a rule replaces, and the rule comes first.  A rule that replaces nothing is
asked about all nodes and changes none. -/
theorem replaceM_topDown (rule : Rule ε σ) (b : Bindings) (e : Expr) (s s' : σ)
    (result : Except ε Expr) :
    ((e.replaceM rule).runIn s = (result, s') ↔
      ∃ visits, TopDown rule (fun _ => none) e s visits result s') ∧
    (RuleM.runIn (b.substituteM rule e) s = (result, s') ↔
      ∃ visits, TopDown rule b.replacement? e s visits result s') ∧
    (∀ effect : Expr → RuleM ε σ Unit,
      (e.replaceM fun node => do effect node; return none) =
        do forM e.subterms effect; return e) ∧
    ∀ rule : Rule Fault σ, e.replaceM rule = answerOr (rule e)
      (do RuleM.ofExcept (e.reassemble (← e.children.mapM (replaceM rule)))) := by
  refine ⟨?_, runIn_replaceM_iff, fun effect => ?_, fun rule => replaceM_eq_reassemble rule e⟩
  · rw [← runIn_replaceM_iff, Rule.withFallback_none]
  · rw [replaceM_forM effect fun _ => none, replace_none]
    rfl

/-- In `sum((a + 1) + a)` the rule that puts `b` in the place of `a + 1` is asked about four nodes:
`a + 1` is not entered. -/
example (a b : Column) :
    let inner := arith .add (column a) (literal (.integer 1))
    let rule : Rule Fault (List Expr) := fun node => do
      modify (· ++ [node])
      return if node matches arith _ _ (literal _) then some (column b) else none
    RuleM.runIn ((aggregate .sum [arith .add inner (column a)] false).replaceM rule) [] =
      (.ok (aggregate .sum [arith .add (column b) (column a)] false),
        [aggregate .sum [arith .add inner (column a)] false, arith .add inner (column a), inner,
          column a]) := rfl

end Expr
end GroupingPlanner

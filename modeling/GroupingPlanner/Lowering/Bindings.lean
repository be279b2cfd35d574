import GroupingPlanner.Expr.Replace
import GroupingPlanner.Lowering.Early
import GroupingPlanner.Session
/-!
# Bindings: columns in the place of expressions

Every expression that is evaluated below a repetition is *bound* to the column that the nodes above
read in its place.  The column comes from a *definition*, an entry of the projection below:

* a column is bound to itself;
* an expression that the output names by an alias is bound to the column of that alias, so that it
  is not evaluated twice under two names;
* an alias is bound to its own column;
* anything else is bound to a new alias, called by the text of the expression.

Virtual columns have no values below the repetition and are not bound.

A column bound to an expression of the grouping sets may be null, whatever the expression: rows
made for a set without the expression have null there.

* `Definition`, `Binding`, `Bindings`: definitions, bound expressions, and all of a repetition.
* `Repetition.bindAll`: the bindings for a roster of expressions; it takes the ids for new aliases.
* `Bindings.substitute`, `Bindings.substituteM`: put the bound columns in the place of the
  outermost bound expressions of a tree.
* `Bindings.definitions`: what the projection has to define, each column once.
-/

namespace GroupingPlanner

/-! ## Definitions -/

/-- An entry of a projection: a column handed on, or an alias evaluated there. -/
inductive Definition where
  | column (c : Column)
  | named (a : Alias)

namespace Definition

/-- The column that an entry produces. -/
def produced : Definition → Column
  | column c => c
  | named a => a.column

/-- An entry as an expression. -/
def toExpr : Definition → Expr
  | column c => .column c
  | named a => a.toExpr

/-- Two entries count as one as soon as they produce the same column. -/
instance : BEq Definition := ⟨fun a b => a.produced == b.produced⟩

theorem beq_def (a b : Definition) : (a == b) = (a.produced == b.produced) := rfl

@[simp] theorem produced?_toExpr (d : Definition) : d.toExpr.produced? = some d.produced := by
  cases d <;> rfl

/-- The definition of an expression that needs no new alias.  The aliases given are those the
output puts over expressions; of several over the same expression the first is taken. -/
def existing? (aliases : List Alias) : Expr → Option Definition
  | .column c => some (column c)
  | e => ((aliases.find? (e == ·.child)).or e.alias?).map named

end Definition

/-! ## Bindings -/

/-- An expression bound to a column. -/
structure Binding where
  /-- The expression that is evaluated below the repetition. -/
  source : Expr
  /-- Where its value comes from. -/
  definition : Definition
  /-- Whether the expression belongs to the grouping sets. -/
  grouped : Bool

/-- The column read in the place of the expression. -/
def Binding.column (b : Binding) : Column :=
  if b.grouped then b.definition.produced.asNullable else b.definition.produced

@[simp] theorem Binding.id_column (b : Binding) : b.column.id = b.definition.produced.id := by
  unfold column
  split <;> rfl

/-- The bindings of a repetition, in the order in which the expressions were collected. -/
structure Bindings where
  toList : List Binding

namespace Bindings

/-- Binds expressions in order; new aliases take their ids one by one, starting with `next`. -/
def bindFrom (aliases : List Alias) (grouped : Expr → Bool) :
    (next : Nat) → List Expr → List Binding
  | _, [] => []
  | next, e :: es =>
    match Definition.existing? aliases e with
    | some d => ⟨e, d, grouped e⟩ :: bindFrom aliases grouped next es
    | none =>
      ⟨e, .named (.ofExpr ⟨next⟩ e), grouped e⟩ :: bindFrom aliases grouped (next + 1) es

theorem source_bindFrom (aliases : List Alias) (grouped : Expr → Bool) (next : Nat)
    (es : List Expr) : (bindFrom aliases grouped next es).map (·.source) = es := by
  induction es generalizing next with
  | nil => rfl
  | cons e es ih =>
    unfold bindFrom
    split <;> simp [ih]

/-- The binding of an expression. -/
def get? (b : Bindings) (e : Expr) : Option Binding := b.toList.find? (e == ·.source)

/-- The column bound to an expression, as an expression. -/
def replacement? (b : Bindings) (e : Expr) : Option Expr :=
  (b.get? e).map fun binding => .column binding.column

/-- Puts the bound columns in the place of the outermost bound expressions of a tree. -/
def substitute (b : Bindings) (e : Expr) : Expr := e.replace b.replacement?

/-- The same, where a rule with effects is asked first at every node. -/
def substituteM {m : Type → Type} [Monad m] (b : Bindings) (rule : Expr → m (Option Expr))
    (e : Expr) : m Expr :=
  e.replaceM fun node => do
    match ← rule node with
    | some replacement => return some replacement
    | none => return b.replacement? node

/-- What the projection has to define, each column once. -/
def definitions (b : Bindings) : List Definition :=
  (Roster.ofList (b.toList.map (·.definition))).toList

end Bindings

namespace Repetition

/-- All aliases in the output, in pre-order. -/
def outputAliases (r : Repetition) : List Alias :=
  (r.output.flatMap Expr.subterms).filterMap Expr.alias?

/-- The expressions of a list that are bound: all but the virtual columns. -/
def bindable (es : List Expr) : List Expr := es.filter fun e => e.virtual?.isNone

/-- How many of the expressions need a new alias. -/
def newAliasCount (r : Repetition) (es : List Expr) : Nat :=
  (bindable es).countP fun e => (Definition.existing? r.outputAliases e).isNone

/-- The bindings for a list of expressions, where the first new alias has the id `first`. -/
def bindingsFrom (r : Repetition) (first : Nat) (es : List Expr) : Bindings :=
  ⟨Bindings.bindFrom r.outputAliases r.items.contains first (bindable es)⟩

/-- Binds the expressions of a roster. -/
def bindAll (r : Repetition) (sources : Roster Expr) : PlanM Bindings := do
  let first ← PlanM.takeIds (r.newAliasCount sources.toList)
  return r.bindingsFrom first sources.toList

end Repetition

end GroupingPlanner

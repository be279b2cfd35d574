import GroupingPlanner.Expr.Basic
import GroupingPlanner.Fault
/-!
# Expressions as text

The text of an expression is what plans show, and it names things: an alias without a name of its
own is called by the text of its child, and the column of a grouping call by the texts of the
arguments.

An aggregate without arguments is shown with a star.  Columns show their names and not their ids,
so that different expressions may have one text.
-/

namespace GroupingPlanner

/-- Texts in a row, separated by commas. -/
def commaSeparated (texts : List String) : String := ", ".intercalate texts

namespace Expr

/-- One clause of a window, left out if it has no keys. -/
def windowClause (words : String) : List String → List String
  | [] => []
  | keys => [words ++ " " ++ commaSeparated keys]

mutual

/-- An expression as it is shown. -/
def text : Expr → String
  | column c | groupingIdColumn c | callColumn c _ _ => c.name
  | named _ name child => text child ++ " -> \"" ++ name ++ "\""
  | literal v => v.render
  | arith op left right => "(" ++ text left ++ " " ++ op.sign ++ " " ++ text right ++ ")"
  | call name args _ => name ++ "(" ++ commaSeparated (texts args) ++ ")"
  | aggregate fn [] _ => fn.name ++ "(*)"
  | aggregate fn (e :: es) distinct =>
    fn.name ++ "(" ++ (if distinct then "distinct " else "") ++
      commaSeparated (text e :: texts es) ++ ")"
  | grouping fn args => fn.name ++ "(" ++ commaSeparated (texts args) ++ ")"
  | window function partitionBy orderBy frame =>
    text function ++ " over (" ++
      " ".intercalate
        (windowClause "partition by" (texts partitionBy) ++
          windowClause "order by" (texts orderBy) ++ (frame.map Frame.text).toList) ++ ")"
  | ordered child direction => text child ++ " " ++ direction.text

/-- The texts of a list of expressions. -/
def texts : List Expr → List String
  | [] => []
  | e :: es => text e :: texts es

end

@[simp] theorem texts_eq_map (es : List Expr) : texts es = es.map text := by
  induction es with
  | nil => rfl
  | cons e es ih => simp [texts, ih]

/-- The node over other children; their number must not change. -/
def reassemble (e : Expr) (cs : List Expr) : Except Fault Expr :=
  match e.reassemble? cs with
  | some e' => .ok e'
  | none => .error (.unexpectedCount ("expression " ++ e.text ++ " expects " ++
      toString e.children.length ++ " children, got " ++ toString cs.length))

end Expr

end GroupingPlanner

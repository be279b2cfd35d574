import GroupingPlanner.Expr.Text
/-!
# The type of an expression, and the column it produces

* `AggregateFn.resultType`: the type of an aggregate call, from the types of its arguments.
* `Expr.type`, `Expr.nullable`: the type of an expression, and whether it may be null.
* `Expr.produced?`: the column a named expression produces.  Columns, virtual columns and aliases
  are named; nothing else is.
-/

namespace GroupingPlanner

/-- The type of an aggregate call.  The least and the greatest value have the type of the first
argument, which must be there. -/
def AggregateFn.resultType (fn : AggregateFn) (argTypes : List ScalarType) :
    Except Fault ScalarType :=
  match fn with
  | .count => .ok .integer
  | .total => .ok .double
  | .concatenation => .ok .text
  | .sum | .average => .ok .numeric
  | .minimum | .maximum =>
    match argTypes with
    | type :: _ => .ok type
    | [] => .error (.unexpectedCount ("expected at least 1 argument for " ++ fn.name ++ ", got 0"))

namespace Expr

mutual

/-- The type of an expression; unknown for an aggregate call that lacks its argument. -/
def type : Expr → ScalarType
  | column c | groupingIdColumn c | callColumn c _ _ => c.type
  | named _ _ child => type child
  | literal v => v.type
  | arith _ left right => (type left).arithmetic (type right)
  | call _ _ type => type
  | aggregate fn args _ => (fn.resultType (types args)).toOption.getD .unknown
  | grouping _ _ => .integer
  | window function _ _ _ => type function
  | ordered child _ => type child

/-- The types of a list of expressions. -/
def types : List Expr → List ScalarType
  | [] => []
  | e :: es => type e :: types es

end

@[simp] theorem types_eq_map (es : List Expr) : types es = es.map type := by
  induction es with
  | nil => rfl
  | cons e es ih => simp [types, ih]

mutual

/-- Whether an expression may be null.  A scalar function may be as soon as an argument may. -/
def nullable : Expr → Bool
  | column c | groupingIdColumn c | callColumn c _ _ => c.nullable
  | named _ _ child => nullable child
  | literal v => v.isNull
  | arith _ left right => nullable left || nullable right
  | call _ args _ => anyNullable args
  | aggregate fn _ _ => fn.nullable
  | grouping _ _ => false
  | window function _ _ _ => nullable function
  | ordered child _ => nullable child

/-- Whether some expression of a list may be null. -/
def anyNullable : List Expr → Bool
  | [] => false
  | e :: es => nullable e || anyNullable es

end

@[simp] theorem anyNullable_eq_any (es : List Expr) : anyNullable es = es.any nullable := by
  induction es with
  | nil => rfl
  | cons e es ih => simp [anyNullable, ih]

end Expr

/-! ## Named expressions -/

/-- The column an alias produces. -/
def Alias.column (a : Alias) : Column := ⟨a.id, a.name, a.child.type, a.child.nullable⟩

/-- The column a named expression produces; nothing for an expression without a name. -/
def Expr.produced? : Expr → Option Column
  | .column c | .groupingIdColumn c | .callColumn c _ _ => some c
  | .named id name child => some ⟨id, name, child.type, child.nullable⟩
  | _ => none

@[simp] theorem Alias.produced?_toExpr (a : Alias) : a.toExpr.produced? = some a.column := rfl

@[simp] theorem VirtualColumn.produced?_toExpr (v : VirtualColumn) :
    v.toExpr.produced? = some v.column := by
  obtain ⟨c, _ | ⟨fn, args⟩⟩ := v <;> rfl

/-- An alias called by the text of the expression it names. -/
def Alias.ofExpr (id : ColumnId) (e : Expr) : Alias := ⟨id, e.text, e⟩

namespace VirtualColumn

/-- The virtual column of the grouping id. -/
def ofGroupingId (id : ColumnId) : VirtualColumn :=
  ⟨⟨id, "GROUPING_ID", .integer, false⟩, .groupingId⟩

/-- The virtual column of a grouping call, called by the texts of the arguments. -/
def ofCall (id : ColumnId) (call : GroupingCall) : VirtualColumn :=
  let name := call.fn.columnNameStart ++ "_".intercalate (call.args.map Expr.text)
  ⟨⟨id, name, .integer, false⟩, .call call⟩

end VirtualColumn

end GroupingPlanner

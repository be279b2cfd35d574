/-!
# Aggregate functions

The aggregate functions a plan may call, their names, and whether a call may give null.
-/

namespace GroupingPlanner

/-- An aggregate function. -/
inductive AggregateFn where
  | count
  | sum
  | average
  | total
  | minimum
  | maximum
  | concatenation
deriving DecidableEq, Repr

namespace AggregateFn

/-- The name under which a call is shown. -/
def name : AggregateFn → String
  | count => "count"
  | sum => "sum"
  | average => "avg"
  | total => "total"
  | minimum => "min"
  | maximum => "max"
  | concatenation => "group_concat"

/-- The aggregate function of a name, in letters of either case. -/
def ofName? (name : String) : Option AggregateFn :=
  match name.toLower with
  | "count" => some count
  | "sum" => some sum
  | "avg" => some average
  | "total" => some total
  | "min" => some minimum
  | "max" => some maximum
  | "group_concat" => some concatenation
  | "string_agg" => some concatenation
  | _ => none

/-- Whether a call may give null.  Only `count` and `total` have a value for a group without
values. -/
def nullable : AggregateFn → Bool
  | count => false
  | total => false
  | _ => true

end AggregateFn

end GroupingPlanner

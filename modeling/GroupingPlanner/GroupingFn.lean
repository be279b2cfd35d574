/-!
# Grouping functions

Grouping functions tell which grouping set a row was made for.  They are computed from the grouping
id of the row and not from its values.
-/

namespace GroupingPlanner

/-- A function of the grouping set a row was made for. -/
inductive GroupingFn where
  /-- `grouping(e)` is 1 if `e` is not in the set. -/
  | grouping
  /-- `grouping_id(e₁, …, eₙ)` is the mask of `grouping` over the arguments, the first argument
  being the most significant bit. -/
  | groupingId
deriving DecidableEq, Repr

namespace GroupingFn

/-- The name under which a call is shown. -/
def name : GroupingFn → String
  | grouping => "grouping"
  | groupingId => "grouping_id"

/-- The grouping function of a name, in letters of either case. -/
def ofName? (name : String) : Option GroupingFn :=
  match name.toLower with
  | "grouping" => some grouping
  | "grouping_id" => some groupingId
  | _ => none

/-- How the name of the column begins that stands for a call. -/
def columnNameStart : GroupingFn → String
  | grouping => "GROUPING_PREFIX_"
  | groupingId => "GROUPING_ID_PREFIX_"

end GroupingFn

end GroupingPlanner

/-!
# What can go wrong

A query may ask for more than the grouping id can number; that is the user's doing and the only
fault a well-formed plan can produce.  Every other fault says that a plan, an expression or a
setting breaks a rule the passes rely on.

* `Entity`: what a fault is about.
* `Fault`: the causes.
* `Fault.message`: their wording, all in one place.
* `Fault.blamesQuery`: whether the query itself is to blame.
-/

namespace GroupingPlanner

/-- The kind of object a fault is about. -/
inductive Entity where
  | aggregate
  | alias
  | column
  | expression
  | groupingSet
  | node
  | option
  | projection
  | relationalNode
  | repetition
  | virtualColumn
deriving DecidableEq, Repr

/-- The word for a kind of object in a message. -/
def Entity.text : Entity → String
  | .aggregate => "aggregate"
  | .alias => "alias"
  | .column => "column"
  | .expression => "expression"
  | .groupingSet => "grouping set"
  | .node => "node"
  | .option => "option"
  | .projection => "projection"
  | .relationalNode => "relational node"
  | .repetition => "repeat"
  | .virtualColumn => "virtual column"

/-- Why an operation failed. -/
inductive Fault where
  /-- The grouping sets hold more distinct expressions than allowed. -/
  | tooManyGroupingItems (limit actual : Nat)
  /-- An object breaks a rule. -/
  | invalid (what : Entity) (details : Option String)
  /-- An object was looked for in vain. -/
  | notFound (what : Entity) (name : String)
  /-- A list has the wrong length. -/
  | unexpectedCount (details : String)
deriving DecidableEq, Repr

namespace Fault

/-- The message shown for a fault. -/
def message : Fault → String
  | tooManyGroupingItems limit actual =>
    "too many sets in GROUP BY clause: " ++ toString actual ++
      " grouping set items, the max grouping sets item is " ++ toString limit
  | invalid what none => "invalid " ++ what.text
  | invalid what (some details) => "invalid " ++ what.text ++ ": " ++ details
  | notFound what name => what.text ++ " not found: " ++ name
  | unexpectedCount details => "unexpected number of values: " ++ details

/-- Whether the query is to blame, and not a broken plan. -/
def blamesQuery : Fault → Bool
  | tooManyGroupingItems .. => true
  | _ => false

end Fault

end GroupingPlanner

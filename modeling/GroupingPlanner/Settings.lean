import GroupingPlanner.Fault
/-!
# Settings

The one setting is how many distinct expressions the grouping sets of one repetition may hold.  The
grouping id spends a bit of its 64 on each, so the limit can be lowered but not raised.

* `Settings`, `Settings.check`: the settings, and when they are acceptable.
* `Overrides`: settings of which some are left open.
-/

namespace GroupingPlanner

/-- The number of bits of a grouping id. -/
def groupingIdBits : Nat := 64

/-- The settings of the planner. -/
structure Settings where
  /-- How many distinct expressions the grouping sets of one repetition may hold. -/
  maxGroupingItems : Nat := groupingIdBits
deriving DecidableEq, Repr

/-- The limit must leave room for one expression and must fit the grouping id. -/
def Settings.check (s : Settings) : Except Fault Unit :=
  if s.maxGroupingItems = 0 ∨ groupingIdBits < s.maxGroupingItems then
    .error (.invalid .option (some ("max_grouping_set_items must be in range 1..=" ++
      toString groupingIdBits ++ ", got " ++ toString s.maxGroupingItems)))
  else .ok ()

/-- Settings of which some are left open. -/
structure Overrides where
  maxGroupingItems : Option Nat := none
deriving DecidableEq, Repr

/-- The settings where what is left open is taken from defaults. -/
def Overrides.withDefaults (o : Overrides) (defaults : Settings) : Settings where
  maxGroupingItems := o.maxGroupingItems.getD defaults.maxGroupingItems

end GroupingPlanner

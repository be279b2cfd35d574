/-!
# Window frames

A frame says which rows around the current one a window function sees.
-/

namespace GroupingPlanner

/-- What the offsets of a frame count. -/
inductive FrameUnit where
  | rows
  | range
deriving DecidableEq, Repr

/-- One end of a frame. -/
inductive FrameBound where
  | unboundedPreceding
  | preceding (offset : UInt64)
  | currentRow
  | following (offset : UInt64)
  | unboundedFollowing
deriving DecidableEq, Repr

/-- The rows a window function sees.  A frame without an end stops at the current row. -/
structure Frame where
  unit : FrameUnit
  start : FrameBound
  stop : Option FrameBound
deriving DecidableEq, Repr

/-- The word for a unit. -/
def FrameUnit.text : FrameUnit → String
  | rows => "rows"
  | range => "range"

/-- One end of a frame as it is shown. -/
def FrameBound.text : FrameBound → String
  | unboundedPreceding => "unbounded preceding"
  | preceding offset => toString offset.toNat ++ " preceding"
  | currentRow => "current row"
  | following offset => toString offset.toNat ++ " following"
  | unboundedFollowing => "unbounded following"

/-- A frame as it is shown. -/
def Frame.text (f : Frame) : String :=
  match f.stop with
  | some stop => f.unit.text ++ " between " ++ f.start.text ++ " and " ++ stop.text
  | none => f.unit.text ++ " " ++ f.start.text

end GroupingPlanner

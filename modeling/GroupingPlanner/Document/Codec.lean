import GroupingPlanner.AggregateFn
import GroupingPlanner.Document.Basic
import GroupingPlanner.Expr.Basic
import GroupingPlanner.Roster
import GroupingPlanner.Settings
/-!
# What is kept in documents

For each type that is kept in documents, what it is written as and which documents it is read from.
Types that only name a case are written as the name.  Reading refuses whatever does not fit:
numbers out of range or written as doubles, cases with the wrong kind of value, objects that lack
a field.  Fields that are not known are passed over.  Frames, settings and overrides are written as
objects and read also from the list of the values of their fields.
-/

namespace GroupingPlanner

/-! ## Types that name a case -/

namespace ScalarType

/-- The types, as listed in documents. -/
def all : List ScalarType :=
  [unsigned, integer, double, numeric, text, boolean, datetime, uuid, unknown]

/-- The name of a type in documents. -/
def tag : ScalarType → String
  | unsigned => "Unsigned"
  | integer => "Integer"
  | double => "Double"
  | numeric => "Numeric"
  | text => "Text"
  | boolean => "Boolean"
  | datetime => "Datetime"
  | uuid => "Uuid"
  | unknown => "Unknown"

/-- A type as a document. -/
def toDocument (t : ScalarType) : Document := .text t.tag

/-- The type a document names. -/
def ofDocument? (d : Document) : Option ScalarType := d.oneOf? all tag

end ScalarType

namespace AggregateFn

/-- The aggregate functions, as listed in documents. -/
def all : List AggregateFn := [count, sum, average, total, minimum, maximum, concatenation]

/-- The name of an aggregate function in documents. -/
def tag : AggregateFn → String
  | count => "COUNT"
  | sum => "SUM"
  | average => "AVG"
  | total => "TOTAL"
  | minimum => "MIN"
  | maximum => "MAX"
  | concatenation => "GRCONCAT"

/-- An aggregate function as a document. -/
def toDocument (k : AggregateFn) : Document := .text k.tag

/-- The aggregate function a document names. -/
def ofDocument? (d : Document) : Option AggregateFn := d.oneOf? all tag

end AggregateFn

namespace GroupingFn

/-- The name of a grouping function in documents. -/
def tag : GroupingFn → String
  | grouping => "Grouping"
  | groupingId => "GroupingId"

/-- A grouping function as a document. -/
def toDocument (k : GroupingFn) : Document := .text k.tag

/-- The grouping function a document names. -/
def ofDocument? (d : Document) : Option GroupingFn := d.oneOf? [grouping, groupingId] tag

end GroupingFn

namespace ArithOp

/-- The name of an arithmetic operation in documents. -/
def tag : ArithOp → String
  | add => "Add"
  | subtract => "Subtract"
  | multiply => "Multiply"
  | divide => "Divide"

/-- An arithmetic operation as a document. -/
def toDocument (op : ArithOp) : Document := .text op.tag

/-- The arithmetic operation a document names. -/
def ofDocument? (d : Document) : Option ArithOp := d.oneOf? [add, subtract, multiply, divide] tag

end ArithOp

namespace Direction

/-- The name of a direction in documents. -/
def tag : Direction → String
  | ascending => "Asc"
  | descending => "Desc"

/-- A direction as a document. -/
def toDocument (d : Direction) : Document := .text d.tag

/-- The direction a document names. -/
def ofDocument? (d : Document) : Option Direction := d.oneOf? [ascending, descending] tag

end Direction

namespace FrameUnit

/-- The name of a unit in documents. -/
def tag : FrameUnit → String
  | rows => "Rows"
  | range => "Range"

/-- A unit as a document. -/
def toDocument (u : FrameUnit) : Document := .text u.tag

/-- The unit a document names. -/
def ofDocument? (d : Document) : Option FrameUnit := d.oneOf? [rows, range] tag

end FrameUnit

/-! ## Frames -/

namespace FrameBound

/-- One end of a frame as a document. -/
def toDocument : FrameBound → Document
  | unboundedPreceding => .text "UnboundedPreceding"
  | preceding offset => .object [("Preceding", .whole offset.toNat)]
  | currentRow => .text "CurrentRow"
  | following offset => .object [("Following", .whole offset.toNat)]
  | unboundedFollowing => .text "UnboundedFollowing"

/-- The end of a frame that a document holds. -/
def ofDocument? (d : Document) : Option FrameBound :=
  match d.bareTag? with
  | some "UnboundedPreceding" => some unboundedPreceding
  | some "CurrentRow" => some currentRow
  | some "UnboundedFollowing" => some unboundedFollowing
  | _ =>
    match d.tagged? with
    | some ("Preceding", some offset) => offset.unsigned?.map fun n => preceding n.toUInt64
    | some ("Following", some offset) => offset.unsigned?.map fun n => following n.toUInt64
    | _ => none

end FrameBound

namespace Frame

/-- A frame as a document. -/
def toDocument (f : Frame) : Document :=
  .object
    [("kind", f.unit.toDocument), ("start", f.start.toDocument),
      ("end", (f.stop.map FrameBound.toDocument).getD .null)]

/-- A bound that may be left open with null. -/
def stopOfDocument? : Document → Option (Option FrameBound)
  | .null => some none
  | d => (FrameBound.ofDocument? d).map some

/-- The frame that a document holds: an object, whose end may be missing, or the list of the three
parts. -/
def ofDocument? (d : Document) : Option Frame :=
  match d with
  | .list [unit, start, stop] => do
    return ⟨← FrameUnit.ofDocument? unit, ← FrameBound.ofDocument? start, ← stopOfDocument? stop⟩
  | d => do
    let unit ← FrameUnit.ofDocument? (← d.field? "kind")
    let start ← FrameBound.ofDocument? (← d.field? "start")
    let stop ← stopOfDocument? ((d.field? "end").getD .null)
    return ⟨unit, start, stop⟩

end Frame

/-! ## Constants and ids -/

namespace Literal

/-- The bits of the double that a number is read as. -/
def doubleBits? : Document → Option UInt64
  | .double bits => some bits
  | .whole i => some (Float.ofInt i).toBits
  | _ => none

/-- A constant as a document. -/
def toDocument : Literal → Document
  | boolean b => .object [("Boolean", .bool b)]
  | double d => .object [("Double", .double d.bits)]
  | integer i => .object [("Integer", .whole i.toInt)]
  | null => .text "Null"
  | text s => .object [("String", .text s)]
  | unsigned n => .object [("Unsigned", .whole n.toNat)]

/-- The constant that a document holds. -/
def ofDocument? (d : Document) : Option Literal :=
  if d.bareTag? = some "Null" then some null
  else
    match d.tagged? with
    | some ("Boolean", some v) => v.bool?.map boolean
    | some ("Double", some v) => (doubleBits? v).map fun bits => double ⟨bits⟩
    | some ("Integer", some v) => v.signed?.map fun i => integer i.toInt64
    | some ("String", some v) => v.text?.map text
    | some ("Unsigned", some v) => v.unsigned?.map fun n => unsigned n.toUInt64
    | _ => none

end Literal

namespace ColumnId

/-- An id as a document. -/
def toDocument (id : ColumnId) : Document := .whole id.number

/-- The id that a document holds. -/
def ofDocument? (d : Document) : Option ColumnId := d.unsigned?.map ColumnId.mk

/-- The list of ids that a document holds. -/
def listOfDocument? (d : Document) : Option (List ColumnId) :=
  d.list?.bind fun ds => ds.mapM ofDocument?

/-- Ids in the order in which they were taken, each once. -/
def ascending (ids : List ColumnId) : List ColumnId := (Roster.ofList ids).toList.mergeSort le

end ColumnId

/-! ## Settings -/

namespace Settings

/-- The name of the one field. -/
def fieldName : String := "max_grouping_set_items"

/-- Settings as a document. -/
def toDocument (s : Settings) : Document := .object [(fieldName, .whole s.maxGroupingItems)]

/-- The settings that a document holds: an object, or the list of the values of its fields.  What
is missing has its default. -/
def ofDocument? : Document → Option Settings
  | .object fields =>
    match fields.lookup fieldName with
    | some v => v.unsigned?.map Settings.mk
    | none => some {}
  | .list [] => some {}
  | .list [v] => v.unsigned?.map Settings.mk
  | _ => none

end Settings

namespace Overrides

/-- Overrides as a document; what is left open is null. -/
def toDocument (o : Overrides) : Document :=
  .object [(Settings.fieldName, (o.maxGroupingItems.map fun n => Document.whole n).getD .null)]

/-- The overrides that give the one field a value; null leaves it open. -/
def ofFieldDocument? : Document → Option Overrides
  | .null => some {}
  | v => v.unsigned?.map fun n => ⟨some n⟩

/-- The overrides that a document holds: an object, where a missing field is left open, or the list
of the values of all fields. -/
def ofDocument? : Document → Option Overrides
  | .object fields => ofFieldDocument? ((fields.lookup Settings.fieldName).getD .null)
  | .list [v] => ofFieldDocument? v
  | _ => none

end Overrides

end GroupingPlanner

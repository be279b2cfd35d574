import GroupingPlanner.Registry
/-!
# Documents

Settings and the small values of a plan are kept in documents: JSON texts, read into a tree.  A
document tells whole numbers from doubles, because a field that wants a whole number does not take
`1.0`.

* `Document`: the trees.
* `Document.object?`, `Document.field?`, …: looking into them.
* `Document.tagged?`: a document that names one of several cases, with or without a value.
-/

namespace GroupingPlanner

/-- A document. -/
inductive Document where
  | null
  | bool (b : Bool)
  /-- A number written without point and exponent that fits 64 bits. -/
  | whole (i : Int)
  /-- Any other number, as the bits of a double. -/
  | double (bits : UInt64)
  | text (s : String)
  | list (items : List Document)
  /-- Named fields; no name occurs twice. -/
  | object (fields : List (String × Document))
deriving Inhabited

namespace Document

/-- The fields of an object. -/
def object? : Document → Option (List (String × Document))
  | object fields => some fields
  | _ => none

/-- The items of a list. -/
def list? : Document → Option (List Document)
  | list items => some items
  | _ => none

/-- The text that a document is. -/
def text? : Document → Option String
  | text s => some s
  | _ => none

/-- The truth value that a document is. -/
def bool? : Document → Option Bool
  | bool b => some b
  | _ => none

/-- The whole number that a document is. -/
def whole? : Document → Option Int
  | whole i => some i
  | _ => none

/-- The field of an object, if the document is an object that has it. -/
def field? (d : Document) (name : String) : Option Document :=
  d.object?.bind fun fields => fields.lookup name

/-- A whole number without sign that fits 64 bits. -/
def unsigned? (d : Document) : Option Nat :=
  d.whole?.bind fun i => if 0 ≤ i ∧ i < UInt64.size then some i.toNat else none

/-- A whole number with sign that fits 64 bits. -/
def signed? (d : Document) : Option Int :=
  d.whole?.bind fun i =>
    if Int64.minValue.toInt ≤ i ∧ i ≤ Int64.maxValue.toInt then some i else none

/-! ## Cases

A case without a value is written as its name, or as an object whose only field has that name and
is null.  A case with a value is written as an object whose only field is named for the case. -/

/-- The case that a document names, and what is written beside it. -/
def tagged? : Document → Option (String × Option Document)
  | text tag => some (tag, none)
  | object [(tag, value)] => some (tag, some value)
  | _ => none

/-- The case without a value that a document names. -/
def bareTag? (d : Document) : Option String :=
  match d.tagged? with
  | some (tag, none) | some (tag, some null) => some tag
  | _ => none

/-- The element of a list whose case a document names. -/
def oneOf? {α : Type} (all : List α) (tag : α → String) (d : Document) : Option α :=
  d.bareTag?.bind fun t => all.find? (tag · == t)

end Document

end GroupingPlanner

import GroupingPlanner.ScalarType
/-!
# Columns and their identity

Every column carries an id, and the id alone decides whether two columns are the same: a pass may
show a column under another nullability, and two columns of one name stay apart.  Accordingly `==`
on `Column` compares ids, while `=` compares all fields.

* `ColumnId`: ids are numbered in the order in which they are taken.
* `Column`, `Column.beq_def`: columns, and what `==` means for them.
-/

namespace GroupingPlanner

/-- The identity of a column. -/
structure ColumnId where
  number : Nat
deriving DecidableEq, Repr

namespace ColumnId

/-- An id as it is shown. -/
def text (id : ColumnId) : String := "#" ++ toString id.number

/-- The order in which ids were taken. -/
def le (a b : ColumnId) : Bool := a.number ≤ b.number

end ColumnId

/-- A reference to a column that some node of a plan produces. -/
structure Column where
  id : ColumnId
  name : String
  type : ScalarType
  nullable : Bool
deriving DecidableEq, Repr

namespace Column

/-- Two columns are the same as soon as their ids are. -/
instance : BEq Column := ⟨fun a b => a.id == b.id⟩

theorem beq_def (a b : Column) : (a == b) = (a.id == b.id) := rfl

theorem beq_iff (a b : Column) : a == b ↔ a.id = b.id := by simp [beq_def]

instance : EquivBEq Column where
  rfl := (beq_iff _ _).2 rfl
  symm h := (beq_iff _ _).2 ((beq_iff _ _).1 h).symm
  trans h₁ h₂ := (beq_iff _ _).2 (((beq_iff _ _).1 h₁).trans ((beq_iff _ _).1 h₂))

/-- A column reduced to its id: equal columns are exactly those with equal skeletons. -/
def skeleton (c : Column) : Column := ⟨c.id, "", .unknown, false⟩

theorem beq_iff_skeleton (a b : Column) : a == b ↔ a.skeleton = b.skeleton := by
  simp [beq_iff, skeleton]

/-- The same column, admitting null. -/
def asNullable (c : Column) : Column := { c with nullable := true }

@[simp] theorem id_asNullable (c : Column) : c.asNullable.id = c.id := rfl

end Column

end GroupingPlanner

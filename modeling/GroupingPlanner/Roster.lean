/-!
# Rosters: lists without repetition, in order of first appearance

The passes of this library collect things (expressions to evaluate early, columns, names) by
walking trees and asking each time whether the thing has been seen.  What later code depends on
is never a hash order but the order of first appearance, so a `Roster` *is* that list.

Equality is the `BEq` of the element type and may be coarser than identity: two columns are equal
as soon as their ids are.  A roster keeps the representative it met first; a later equal element
leaves it untouched.

* `Roster.distinct`: no element equals an earlier one, whatever built the roster.
* `Roster.insert`, `Roster.insertAll`, `Roster.ofList`: the ways to build one.
* `Roster.contains_iff`: membership, through the list.
* `Roster.toList_insert`: what an insertion does to the list.
-/

namespace GroupingPlanner

universe u

/-- A list in which no element equals (`==`) an earlier one. -/
structure Roster (α : Type u) [BEq α] where
  /-- The elements, in order of first appearance. -/
  toList : List α
  /-- No element equals an earlier one. -/
  distinct : toList.Pairwise fun earlier later => (later == earlier) = false

namespace Roster

variable {α : Type u} [BEq α]

theorem distinct_nil : ([] : List α).Pairwise fun earlier later => (later == earlier) = false :=
  List.Pairwise.nil

/-- The roster without elements. -/
def empty : Roster α := ⟨[], distinct_nil⟩

instance : Inhabited (Roster α) := ⟨empty⟩

/-- Whether some element equals `x`. -/
def contains (r : Roster α) (x : α) : Bool := r.toList.contains x

/-- The number of elements. -/
def size (r : Roster α) : Nat := r.toList.length

/-- Whether there is no element. -/
def isEmpty (r : Roster α) : Bool := r.toList.isEmpty

theorem contains_iff (r : Roster α) (x : α) : r.contains x = true ↔ ∃ y ∈ r.toList, x == y := by
  simp [contains, List.contains_iff_exists_mem_beq]

/-- Adds `x` at the end, unless an equal element is there already. -/
def insert (r : Roster α) (x : α) : Roster α :=
  if h : r.contains x then r
  else
    { toList := r.toList ++ [x]
      distinct := by
        refine List.pairwise_append.2 ⟨r.distinct, List.pairwise_singleton _ _, ?_⟩
        intro y hy z hz
        rw [List.mem_singleton.1 hz]
        cases hxy : x == y with
        | false => rfl
        | true => exact absurd ((contains_iff r x).2 ⟨y, hy, hxy⟩) h }

/-- Adds `x` like `insert` and tells whether an equal element was there before. -/
def containsThenInsert (r : Roster α) (x : α) : Bool × Roster α := (r.contains x, r.insert x)

/-- Adds every element of a list, from left to right. -/
def insertAll (r : Roster α) (xs : List α) : Roster α := xs.foldl insert r

/-- The elements of a list, each kept where it appears first. -/
def ofList (xs : List α) : Roster α := empty.insertAll xs

/-! ## The list behind each operation -/

@[simp] theorem toList_empty : (empty : Roster α).toList = [] := rfl

theorem toList_insert (r : Roster α) (x : α) :
    (r.insert x).toList = if r.contains x then r.toList else r.toList ++ [x] := by
  unfold insert
  split <;> simp_all

theorem insert_of_contains {r : Roster α} {x : α} (h : r.contains x = true) : r.insert x = r := by
  simp [insert, h]

@[simp] theorem insertAll_nil (r : Roster α) : r.insertAll [] = r := rfl

@[simp] theorem insertAll_cons (r : Roster α) (x : α) (xs : List α) :
    r.insertAll (x :: xs) = (r.insert x).insertAll xs := rfl

theorem insertAll_append (r : Roster α) (xs ys : List α) :
    r.insertAll (xs ++ ys) = (r.insertAll xs).insertAll ys := by
  simp [insertAll, List.foldl_append]

end Roster

end GroupingPlanner

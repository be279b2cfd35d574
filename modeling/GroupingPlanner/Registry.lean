/-!
# Registries: maps in order of first insertion

A `Registry` maps keys to values and remembers in which order the keys came.  Writing to a key
that is there already replaces the value and nothing else: the entry keeps its place, and it keeps
the key that was written first.  The second point matters because keys are compared by `==`, which
may be coarser than identity.

* `Registry.distinct`: no key equals an earlier one.
* `Registry.insert`, `Registry.getThenInsert`: the ways to write.
* `Registry.keys_insert`: what a write does to the keys.
-/

namespace GroupingPlanner

universe u v

/-- A map whose entries stand in the order in which their keys were first inserted. -/
structure Registry (κ : Type u) (ν : Type v) [BEq κ] where
  /-- Keys and values, oldest key first. -/
  entries : List (κ × ν)
  /-- No key equals an earlier one. -/
  distinct : (entries.map (·.1)).Pairwise fun earlier later => (later == earlier) = false

namespace Registry

variable {κ : Type u} {ν : Type v} [BEq κ]

theorem distinctKeys_nil :
    (([] : List (κ × ν)).map (·.1)).Pairwise fun earlier later => (later == earlier) = false :=
  List.Pairwise.nil

/-- The registry without entries. -/
def empty : Registry κ ν := ⟨[], distinctKeys_nil⟩

instance : Inhabited (Registry κ ν) := ⟨empty⟩

/-- The keys, oldest first. -/
def keys (r : Registry κ ν) : List κ := r.entries.map (·.1)

/-- The values, in the order of their keys. -/
def values (r : Registry κ ν) : List ν := r.entries.map (·.2)

/-- The number of entries. -/
def size (r : Registry κ ν) : Nat := r.entries.length

/-- Whether there is no entry. -/
def isEmpty (r : Registry κ ν) : Bool := r.entries.isEmpty

/-- The value written last to a key equal to `k`. -/
def get? (r : Registry κ ν) (k : κ) : Option ν := r.entries.lookup k

/-- Whether some key equals `k`. -/
def contains (r : Registry κ ν) (k : κ) : Bool := r.keys.contains k

/-- Replaces the value of the entry whose key equals `k`, or appends an entry. -/
def writeEntry (k : κ) (v : ν) : List (κ × ν) → List (κ × ν)
  | [] => [(k, v)]
  | (k', v') :: rest => if k == k' then (k', v) :: rest else (k', v') :: writeEntry k v rest

theorem keys_writeEntry (k : κ) (v : ν) (entries : List (κ × ν)) :
    (writeEntry k v entries).map (·.1) =
      if (entries.map (·.1)).contains k then entries.map (·.1) else entries.map (·.1) ++ [k] := by
  induction entries with
  | nil => rfl
  | cons e rest ih =>
    obtain ⟨k', v'⟩ := e
    cases h : k == k' with
    | true => simp [writeEntry, h]
    | false =>
      simp only [writeEntry, h, Bool.false_eq_true, if_false, List.map_cons, ih,
        List.contains_cons, Bool.false_or]
      split <;> simp

/-- Gives `k` the value `v`.  A key that is there already keeps its place and its own form. -/
def insert (r : Registry κ ν) (k : κ) (v : ν) : Registry κ ν where
  entries := writeEntry k v r.entries
  distinct := by
    rw [keys_writeEntry]
    split
    · exact r.distinct
    · rename_i h
      refine List.pairwise_append.2 ⟨r.distinct, List.pairwise_singleton _ _, ?_⟩
      intro y hy z hz
      rw [List.mem_singleton.1 hz]
      cases hky : k == y with
      | false => rfl
      | true =>
        refine absurd ?_ h
        rw [List.contains_iff_exists_mem_beq]
        exact ⟨y, hy, hky⟩

/-- Writes like `insert` and returns the value that `k` had before. -/
def getThenInsert (r : Registry κ ν) (k : κ) (v : ν) : Option ν × Registry κ ν :=
  (r.get? k, r.insert k v)

/-! ## What each operation does -/

@[simp] theorem entries_empty : (empty : Registry κ ν).entries = [] := rfl

theorem keys_insert (r : Registry κ ν) (k : κ) (v : ν) :
    (r.insert k v).keys = if r.contains k then r.keys else r.keys ++ [k] :=
  keys_writeEntry k v r.entries

theorem get?_eq_none_iff (r : Registry κ ν) (k : κ) : r.get? k = none ↔ r.contains k = false := by
  have aux (entries : List (κ × ν)) :
      entries.lookup k = none ↔ (entries.map (·.1)).contains k = false := by
    induction entries with
    | nil => simp
    | cons e rest ih =>
      obtain ⟨k', v'⟩ := e
      cases h : k == k' <;> simp [List.lookup_cons, h, ih]
  exact aux r.entries

end Registry

end GroupingPlanner

import GroupingPlanner.Registry
import GroupingPlanner.Proofs.Rosters
import Mathlib.Tactic
/-!
# What a registry holds

The keys of a registry are a roster, and a write adds to it as an insertion does.  With each key
stands the value that was written last: a write changes what is found under its key, and under the
keys equal to it, and nothing else.  Every entry is found by its key, and so a registry can be told
from its keys and the values found under these.

* `Registry.keyRoster`, `Registry.keyRoster_insert`: the keys.
* `Registry.entries_insert_of_new`, `Registry.get?_insert`: what is there, and what is found, after
  a write.
* `Registry.mem_entries_iff`, `Registry.filterMap_keys`: the entries, from the keys.
-/

namespace GroupingPlanner
namespace Registry

universe u v

variable {κ : Type u} {ν : Type v} [BEq κ]

/-! ## The keys -/

/-- The keys as a roster. -/
def keyRoster (r : Registry κ ν) : Roster κ := ⟨r.keys, r.distinct⟩

lemma keyRoster_insert (r : Registry κ ν) (k : κ) (v : ν) :
    (r.insert k v).keyRoster = r.keyRoster.insert k := by
  have hlist : (r.insert k v).keys = (r.keyRoster.insert k).toList := by
    rw [Roster.toList_insert]
    exact keys_insert r k v
  simp only [keyRoster, hlist]

lemma isSome_get? (r : Registry κ ν) (k : κ) : (r.get? k).isSome = r.contains k := by
  cases hk : r.contains k with
  | true =>
    rw [Option.isSome_iff_ne_none, Ne, get?_eq_none_iff, hk]
    exact Bool.noConfusion
  | false => rw [(get?_eq_none_iff r k).2 hk, Option.isSome_none]

lemma eq_of_entries {r r' : Registry κ ν} (h : r.entries = r'.entries) : r = r' := by
  cases r
  cases r'
  cases h
  rfl

lemma writeEntry_of_new {k : κ} (v : ν) {entries : List (κ × ν)}
    (new : (entries.map (·.1)).contains k = false) :
    writeEntry k v entries = entries ++ [(k, v)] := by
  induction entries with
  | nil => rfl
  | cons e rest ih =>
    rw [List.map_cons, List.contains_cons, Bool.or_eq_false_iff] at new
    rw [writeEntry, new.1, ih new.2]
    rfl

/-- A write to a key that is new adds an entry at the end. -/
lemma entries_insert_of_new {r : Registry κ ν} {k : κ} {v : ν} (new : r.contains k = false) :
    (r.insert k v).entries = r.entries ++ [(k, v)] :=
  writeEntry_of_new v new

variable [EquivBEq κ]

lemma nodup_keys (r : Registry κ ν) : r.keys.Nodup := by
  refine r.distinct.imp ?_
  rintro k _ hne rfl
  exact Bool.noConfusion (BEq.rfl.symm.trans hne)

/-- A key is found among the keys in the form that stands there. -/
lemma find?_keys_iff {r : Registry κ ν} {k : κ} : r.keys.find? (k == ·) = some k ↔ k ∈ r.keys := by
  refine ⟨List.mem_of_find?_eq_some, fun hk => ?_⟩
  obtain ⟨k', hk'⟩ := Option.isSome_iff_exists.1
    (List.find?_isSome.2 ⟨k, hk, (BEq.rfl : k == k)⟩)
  have hbeq : k == k' := List.find?_some hk'
  rw [hk', Roster.eq_of_beq_of_mem (r := r.keyRoster) hk (List.mem_of_find?_eq_some hk') hbeq]

/-! ## The values -/

lemma get?_congr (r : Registry κ ν) {k k' : κ} (h : k == k') : r.get? k = r.get? k' := by
  have aux (entries : List (κ × ν)) : entries.lookup k = entries.lookup k' := by
    induction entries with
    | nil => rfl
    | cons e rest ih => rw [List.lookup_cons, List.lookup_cons, BEq.congr_left h, ih]
  exact aux r.entries

lemma lookup_writeEntry (k : κ) (v : ν) (entries : List (κ × ν)) (a : κ) :
    (writeEntry k v entries).lookup a = if a == k then some v else entries.lookup a := by
  induction entries with
  | nil => cases h : a == k <;> simp [writeEntry, List.lookup_cons, h]
  | cons e rest ih =>
    obtain ⟨k', v'⟩ := e
    cases hk : k == k' with
    | true =>
      have hak : (a == k') = (a == k) := (BEq.congr_right hk).symm
      simp only [writeEntry, hk, if_true, List.lookup_cons, hak]
      cases a == k <;> rfl
    | false =>
      simp only [writeEntry, hk, Bool.false_eq_true, if_false, List.lookup_cons, ih]
      cases ha : a == k' with
      | true =>
        -- The keys `k'` and `k` are different, and so `a` is not `k`.
        have hak : (a == k) = false := by
          rw [BEq.congr_left ha, BEq.comm]
          exact hk
        rw [hak]
        rfl
      | false => rfl

lemma get?_insert (r : Registry κ ν) (k : κ) (v : ν) (a : κ) :
    (r.insert k v).get? a = if a == k then some v else r.get? a :=
  lookup_writeEntry k v r.entries a

/-! ## The entries -/

lemma lookup_of_mem {entries : List (κ × ν)} {k : κ} {v : ν}
    (distinct : (entries.map (·.1)).Pairwise fun earlier later => (later == earlier) = false)
    (h : (k, v) ∈ entries) : entries.lookup k = some v := by
  induction entries with
  | nil => exact absurd h List.not_mem_nil
  | cons e rest ih =>
    rw [List.map_cons, List.pairwise_cons] at distinct
    rcases List.mem_cons.1 h with rfl | hrest
    · exact List.lookup_cons_self
    · have hne : (k == e.1) = false := distinct.1 k (List.mem_map_of_mem hrest)
      rw [List.lookup_cons, hne]
      exact ih distinct.2 hrest

/-- Every entry is found under its key. -/
lemma get?_of_mem {r : Registry κ ν} {k : κ} {v : ν} (h : (k, v) ∈ r.entries) :
    r.get? k = some v :=
  lookup_of_mem r.distinct h

lemma mem_entries_iff {r : Registry κ ν} {k : κ} {v : ν} :
    (k, v) ∈ r.entries ↔ k ∈ r.keys ∧ r.get? k = some v := by
  constructor
  · intro h
    exact ⟨List.mem_map_of_mem h, get?_of_mem h⟩
  · rintro ⟨hk, hv⟩
    obtain ⟨⟨k', v'⟩, hmem, rfl⟩ := List.mem_map.1 hk
    have hv' : v' = v := Option.some.inj ((get?_of_mem hmem).symm.trans hv)
    exact hv' ▸ hmem

/-- Looking up every key gives back the entries. -/
lemma filterMap_keys (r : Registry κ ν) :
    (r.keys.filterMap fun k => (r.get? k).map fun v => (k, v)) = r.entries := by
  rw [keys, List.filterMap_map]
  calc r.entries.filterMap ((fun k => (r.get? k).map fun v => (k, v)) ∘ (·.1))
    _ = r.entries.filterMap some := List.filterMap_congr fun e he => by
        rw [Function.comp_apply, get?_of_mem (v := e.2) he, Option.map_some]
    _ = r.entries := List.filterMap_some

end Registry
end GroupingPlanner

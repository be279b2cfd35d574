import GroupingPlanner.Column
import GroupingPlanner.Proofs.Registries
/-!
# Rosters and registries with an index

A roster is a list, and to ask it for an element is to walk along that list.  A pass that asks often
keeps a second container beside the list, a hash set or a hash map, and reads the order from the one
and membership from the other.  Then every operation has to write both, and the walk over the
entries of a registry looks each key of the list up in the map and passes over those it does not
find there.  If the two ever differed, it would pass over entries without a word.

They never differ.  A roster with an index answers every sequence of requests as the plain roster
does, and that one answers as the bare list of the elements added so far would: with each element
where it appeared first, in the form it had there.  The form matters as `==` may be coarser than
identity, and of the columns with one id it is the first whose name and nullability are kept.  In a
registry the value, on the other hand, is the one written last.

* `serve`, `serve_simulates`: requests served one after the other, by machines in step.
* `Roster.serve_answer_eq`, `Registry.serve_answer_holds`: what plain rosters and registries reply.
* `IndexedRoster`, `IndexedRegistry`: a list of keys with a hash set, or a hash map, beside it.
* `IndexedRoster.Represents`, `IndexedRegistry.Represents`: both containers hold what the plain
  roster or registry holds.  Every request preserves this.
* `IndexedRoster.InStep`, `IndexedRegistry.InStep`, `indexed_inStep`: what follows for every
  sequence of requests.
-/

namespace GroupingPlanner

universe u v w

/-! ## Machines that serve requests -/

section Machines

variable {σ τ γ ρ : Type*}

/-- What a machine answers to requests, one after the other, and the state it ends in. -/
def serve (answer : σ → γ → ρ × σ) (s : σ) : List γ → List ρ × σ
  | [] => ([], s)
  | request :: requests =>
    let rest := serve answer (answer s request).2 requests
    ((answer s request).1 :: rest.1, rest.2)

/-- Machines whose states stay related while they answer alike answer alike all along. -/
lemma serve_simulates {R : σ → τ → Prop} {f : σ → γ → ρ × σ} {g : τ → γ → ρ × τ}
    (step : ∀ {s t}, R s t → ∀ request,
      (f s request).1 = (g t request).1 ∧ R (f s request).2 (g t request).2)
    {s : σ} {t : τ} (h : R s t) (requests : List γ) :
    (serve f s requests).1 = (serve g t requests).1 ∧
      R (serve f s requests).2 (serve g t requests).2 := by
  induction requests generalizing s t with
  | nil => exact ⟨rfl, h⟩
  | cons request requests ih =>
    obtain ⟨hreply, hnext⟩ := step h request
    obtain ⟨hreplies, hlast⟩ := ih hnext
    exact ⟨congrArg₂ List.cons hreply hreplies, hlast⟩

end Machines

/-! ## Rosters and the elements added to them -/

namespace Roster

variable {α : Type u} [BEq α]

/-- What can be asked of a roster under construction. -/
inductive Request (α : Type u)
  /-- Add an element and say whether it is new. -/
  | insert (x : α)
  /-- Add the elements of a list, from left to right. -/
  | extend (xs : List α)
  /-- Take a roster collected from a list in its place. -/
  | collect (xs : List α)
  /-- Hand out the elements and start over. -/
  | drain

/-- What is replied to a request. -/
inductive Reply (α : Type u)
  /-- To an insertion: whether the element was new. -/
  | inserted (new : Bool)
  /-- To requests that ask for nothing. -/
  | done
  /-- To a request for the elements: these, in order. -/
  | drained (xs : List α)

/-- What a roster replies, and what it is after that. -/
def answer (r : Roster α) : Request α → Reply α × Roster α
  | .insert x => (.inserted (!(r.containsThenInsert x).1), (r.containsThenInsert x).2)
  | .extend xs => (.done, r.insertAll xs)
  | .collect xs => (.done, ofList xs)
  | .drain => (.drained r.toList, empty)

/-- The replies that follow from the elements added so far, with the elements added after that. -/
def Request.answerFrom (added : List α) : Request α → Reply α × List α
  | .insert x => (.inserted (!added.contains x), added ++ [x])
  | .extend xs => (.done, added ++ xs)
  | .collect xs => (.done, xs)
  | .drain => (.drained added.eraseDups, [])

/-- The elements added by some requests since the roster was last made anew. -/
def Request.added (requests : List (Request α)) : List α :=
  (serve Request.answerFrom [] requests).2

variable [EquivBEq α]

lemma ofList_answer (added : List α) (request : Request α) :
    ((ofList added).answer request).1 = (request.answerFrom added).1 ∧
      ((ofList added).answer request).2 = ofList (request.answerFrom added).2 := by
  cases request with
  | insert x =>
    refine ⟨?_, (ofList_append added [x]).symm⟩
    simp only [answer, containsThenInsert, Request.answerFrom, contains_ofList]
  | extend xs => exact ⟨rfl, (ofList_append added xs).symm⟩
  | collect xs => exact ⟨rfl, rfl⟩
  | drain => exact ⟨congrArg Reply.drained (toList_ofList_eq_eraseDups added), rfl⟩

/-- All a roster ever replies, and the roster it becomes, follow from the elements added. -/
theorem serve_answer_eq (requests : List (Request α)) :
    (serve answer empty requests).1 = (serve Request.answerFrom [] requests).1 ∧
      (serve answer empty requests).2 = ofList (Request.added requests) := by
  refine serve_simulates (R := fun r (added : List α) => r = ofList added) (t := []) ?_ rfl requests
  rintro _ added rfl request
  exact ofList_answer added request

end Roster

/-! ## Rosters with an index -/

/-- A list of elements and, beside it, a hash set of them. -/
structure IndexedRoster (α : Type u) [BEq α] [Hashable α] where
  /-- The set that is asked whether an element is there. -/
  index : Std.HashSet α
  /-- The elements, in order of first appearance. -/
  order : List α

namespace IndexedRoster

variable {α : Type u} [BEq α] [Hashable α]

/-- The roster without elements. -/
def empty : IndexedRoster α := ⟨∅, []⟩

/-- Adds an element to both containers, unless the set has it, and tells whether it was new. -/
def insert (r : IndexedRoster α) (x : α) : Bool × IndexedRoster α :=
  if r.index.contains x then (false, r) else (true, ⟨r.index.insert x, r.order ++ [x]⟩)

/-- Adds every element of a list, from left to right. -/
def extend (r : IndexedRoster α) (xs : List α) : IndexedRoster α :=
  xs.foldl (fun r x => (r.insert x).2) r

/-- The elements of a list. -/
def ofList (xs : List α) : IndexedRoster α := empty.extend xs

/-- Whether the set has the element. -/
def contains (r : IndexedRoster α) (x : α) : Bool := r.index.contains x

/-- The number of elements in the list. -/
def size (r : IndexedRoster α) : Nat := r.order.length

/-- What a roster with an index replies, and what it is after that. -/
def answer (r : IndexedRoster α) : Roster.Request α → Roster.Reply α × IndexedRoster α
  | .insert x => (.inserted (r.insert x).1, (r.insert x).2)
  | .extend xs => (.done, r.extend xs)
  | .collect xs => (.done, ofList xs)
  | .drain => (.drained r.order, empty)

/-- The roster after some requests. -/
def after (requests : List (Roster.Request α)) : IndexedRoster α := (serve answer empty requests).2

/-- Both containers hold the elements of a roster: the list in its order, the set in any. -/
structure Represents (i : IndexedRoster α) (r : Roster α) : Prop where
  order : i.order = r.toList
  index : i.index.toList.Perm r.toList

variable {i : IndexedRoster α} {r : Roster α}

lemma represents_empty : (empty : IndexedRoster α).Represents Roster.empty :=
  ⟨rfl, List.Perm.of_eq Std.HashSet.toList_empty⟩

namespace Represents

variable [EquivBEq α] [LawfulHashable α]

lemma contains_eq (h : i.Represents r) (x : α) : i.contains x = r.contains x := by
  rw [IndexedRoster.contains, ← Std.HashSet.contains_toList, h.index.contains_eq, Roster.contains]

lemma insert (h : i.Represents r) (x : α) :
    (i.insert x).1 = !r.contains x ∧ (i.insert x).2.Represents (r.insert x) := by
  have hcontains : i.index.contains x = r.contains x := h.contains_eq x
  rw [IndexedRoster.insert, hcontains]
  cases hx : r.contains x with
  | true => exact ⟨rfl, by rwa [Roster.insert_of_contains hx]⟩
  | false =>
    have hlist := Roster.toList_insert_of_new hx
    have hnew : ¬ x ∈ i.index := by
      rw [← Std.HashSet.contains_iff_mem, hcontains, hx]
      exact Bool.false_ne_true
    -- The set takes the element in anywhere, the list takes it in at its end.
    have hset : (i.index.insert x).toList.Perm (x :: i.index.toList) := by
      simpa only [if_neg hnew] using Std.HashSet.toList_insert_perm (m := i.index) (k := x)
    refine ⟨rfl, ?_, ?_⟩
    · rw [hlist, ← h.order]
      rfl
    · rw [hlist]
      exact (hset.trans (h.index.cons x)).trans (List.perm_append_singleton x r.toList).symm

lemma extend (h : i.Represents r) (xs : List α) : (i.extend xs).Represents (r.insertAll xs) := by
  induction xs generalizing i r with
  | nil => exact h
  | cons x xs ih => exact ih (h.insert x).2

/-- Whatever is asked, the roster with an index replies as the plain one does, and represents it
after that. -/
lemma answer (h : i.Represents r) (request : Roster.Request α) :
    (i.answer request).1 = (r.answer request).1 ∧
      (i.answer request).2.Represents (r.answer request).2 := by
  cases request with
  | insert x => exact ⟨congrArg Roster.Reply.inserted (h.insert x).1, (h.insert x).2⟩
  | extend xs => exact ⟨rfl, h.extend xs⟩
  | collect xs => exact ⟨rfl, represents_empty.extend xs⟩
  | drain => exact ⟨congrArg Roster.Reply.drained h.order, represents_empty⟩

end Represents

/-- The two containers after a sequence of requests. -/
structure InStep (requests : List (Roster.Request α)) : Prop where
  /-- The replies are those of the plain roster. -/
  replies_eq : (serve answer empty requests).1 = (serve Roster.answer Roster.empty requests).1
  /-- They are those that follow from the elements added: an element is new if none before it equals
  it, and what is drained is listed in order of first appearance. -/
  replies : (serve answer empty requests).1 = (serve Roster.Request.answerFrom [] requests).1
  /-- The list is that of the plain roster. -/
  order_eq : (after requests).order = (serve Roster.answer Roster.empty requests).2.toList
  /-- The list is that of the elements added, each where it appeared first. -/
  order : (after requests).order = (Roster.Request.added requests).eraseDups
  /-- No element of the list equals an earlier one. -/
  distinct : (after requests).order.Pairwise fun earlier later => (later == earlier) = false
  /-- An element is represented in the list by the first one equal to it that was added. -/
  first : ∀ x, (after requests).order.find? (x == ·) =
    (Roster.Request.added requests).find? (x == ·)
  /-- The set has the elements of the list, in whatever order, and no others. -/
  index : (after requests).index.toList.Perm (after requests).order
  /-- The set and the list have as many elements. -/
  size : (after requests).size = (after requests).index.size
  /-- The set has an element if the list does. -/
  contains : ∀ x, (after requests).contains x = (after requests).order.contains x
  /-- That is so if it was added. -/
  contains_added : ∀ x, (after requests).contains x = (Roster.Request.added requests).contains x

variable [EquivBEq α] [LawfulHashable α]

/-- The replies are the plain roster's all along, and the two containers represent it at the end. -/
theorem represents_after (requests : List (Roster.Request α)) :
    (serve answer empty requests).1 = (serve Roster.answer Roster.empty requests).1 ∧
      (after requests).Represents (serve Roster.answer Roster.empty requests).2 :=
  serve_simulates (R := Represents) (fun h request => h.answer request) represents_empty requests

theorem inStep (requests : List (Roster.Request α)) : InStep requests := by
  obtain ⟨hreplies, hrep⟩ := represents_after requests
  obtain ⟨hadded, hroster⟩ := Roster.serve_answer_eq requests
  have horder : (after requests).order =
      (Roster.ofList (Roster.Request.added requests)).toList := by
    rw [← hroster]
    exact hrep.order
  have hindex : (after requests).index.toList.Perm (after requests).order := by
    rw [hrep.order]
    exact hrep.index
  have hcontains (x : α) : (after requests).contains x = (after requests).order.contains x := by
    rw [hrep.order]
    exact hrep.contains_eq x
  exact {
    replies_eq := hreplies
    replies := hreplies.trans hadded
    order_eq := hrep.order
    order := horder.trans (Roster.toList_ofList_eq_eraseDups _)
    distinct := horder ▸ Roster.distinct _
    first := fun x => horder ▸ Roster.find?_ofList _ x
    index := hindex
    size := hindex.length_eq.symm.trans Std.HashSet.length_toList
    contains := hcontains
    contains_added := fun x => by
      rw [hcontains, horder]
      exact Roster.contains_ofList _ x }

end IndexedRoster

/-! ## Registries and the entries written to them -/

namespace Registry

variable {κ : Type u} {ν : Type v} [BEq κ]

/-- What a registry replies to a write, and what it is after that. -/
def answer (r : Registry κ ν) (entry : κ × ν) : Option ν × Registry κ ν :=
  r.getThenInsert entry.1 entry.2

/-- The value that `k` was given last. -/
def lastWritten (written : List (κ × ν)) (k : κ) : Option ν := written.reverse.lookup k

/-- The reply that follows from the entries written so far, with those written after that. -/
def answerFrom (written : List (κ × ν)) (entry : κ × ν) : Option ν × List (κ × ν) :=
  (lastWritten written entry.1, written ++ [entry])

lemma serve_answerFrom (before written : List (κ × ν)) :
    (serve answerFrom before written).2 = before ++ written := by
  induction written generalizing before with
  | nil => exact (List.append_nil before).symm
  | cons entry written ih => exact (ih (before ++ [entry])).trans (List.append_cons ..).symm

variable [EquivBEq κ]

/-- What a registry holds after some writes: the keys in order of first appearance, each with the
value written last. -/
structure Holds (r : Registry κ ν) (written : List (κ × ν)) : Prop where
  keys : r.keyRoster = Roster.ofList (written.map (·.1))
  values : ∀ k, r.get? k = lastWritten written k

lemma Holds.answer {r : Registry κ ν} {written : List (κ × ν)} (h : r.Holds written)
    (entry : κ × ν) :
    (r.answer entry).1 = (answerFrom written entry).1 ∧
      (r.answer entry).2.Holds (answerFrom written entry).2 := by
  obtain ⟨k, v⟩ := entry
  refine ⟨h.values k, ?_, fun a => ?_⟩
  · rw [answerFrom, List.map_append, List.map_singleton, Roster.ofList_append, ← h.keys]
    exact keyRoster_insert r k v
  · change (r.insert k v).get? a = lastWritten (written ++ [(k, v)]) a
    rw [get?_insert, h.values, lastWritten, lastWritten, List.reverse_append,
      List.reverse_singleton, List.singleton_append, List.lookup_cons]
    cases a == k <;> rfl

/-- All a registry ever replies, and what it holds, follow from the entries written. -/
theorem serve_answer_holds (written : List (κ × ν)) :
    (serve answer empty written).1 = (serve answerFrom [] written).1 ∧
      (serve answer empty written).2.Holds written := by
  have h := serve_simulates (R := Holds) (fun h entry => h.answer entry)
    (s := (empty : Registry κ ν)) (t := []) ⟨rfl, fun _ => rfl⟩ written
  rwa [serve_answerFrom, List.nil_append] at h

end Registry

/-! ## Registries with an index -/

/-- A list of keys and, beside it, a hash map from these to values. -/
structure IndexedRegistry (κ : Type u) (ν : Type v) [BEq κ] [Hashable κ] where
  /-- The map that is asked for values. -/
  index : Std.HashMap κ ν
  /-- The keys, in the order of their first insertion. -/
  order : List κ

namespace IndexedRegistry

variable {κ : Type u} {ν : Type v} [BEq κ] [Hashable κ]

/-- The registry without entries. -/
def empty : IndexedRegistry κ ν := ⟨∅, []⟩

/-- Gives `k` the value `v` and returns the value it had before.  The map keeps the form of a key
that is there already, and only a key that was not there is added to the list. -/
def insert (r : IndexedRegistry κ ν) (k : κ) (v : ν) : Option ν × IndexedRegistry κ ν :=
  let old := r.index[k]?
  (old, {
    index := r.index.insert (r.index.getKeyD k k) v
    order := if old.isNone then r.order ++ [k] else r.order })

/-- The value in the map. -/
def get? (r : IndexedRegistry κ ν) (k : κ) : Option ν := r.index[k]?

/-- Whether the map has the key. -/
def contains (r : IndexedRegistry κ ν) (k : κ) : Bool := r.index.contains k

/-- The number of keys in the list. -/
def size (r : IndexedRegistry κ ν) : Nat := r.order.length

/-- The keys of the list with their values in the map, without the keys that the map has not. -/
def entries (r : IndexedRegistry κ ν) : List (κ × ν) :=
  r.order.filterMap fun k => r.index[k]?.map fun v => (k, v)

/-- The values of these entries. -/
def values (r : IndexedRegistry κ ν) : List ν := r.entries.map (·.2)

/-- What a registry with an index replies to a write, and what it is after that. -/
def answer (r : IndexedRegistry κ ν) (entry : κ × ν) : Option ν × IndexedRegistry κ ν :=
  r.insert entry.1 entry.2

/-- The registry after some writes. -/
def after (written : List (κ × ν)) : IndexedRegistry κ ν := (serve answer empty written).2

/-- Both containers hold the entries of a registry.  The list has its keys in order, the map has
them in the same form and with the same values. -/
structure Represents (i : IndexedRegistry κ ν) (r : Registry κ ν) : Prop where
  order : i.order = r.keys
  keys : ∀ k, i.index.getKey? k = r.keys.find? (k == ·)
  values : ∀ k, i.index[k]? = r.get? k

lemma represents_empty : (empty : IndexedRegistry κ ν).Represents Registry.empty where
  order := rfl
  keys := fun _ => Std.HashMap.getKey?_empty
  values := fun _ => Std.HashMap.getElem?_empty

variable [EquivBEq κ] {i : IndexedRegistry κ ν} {r : Registry κ ν}

/-- The walk over the list passes over no key. -/
lemma Represents.entries_eq (h : i.Represents r) : i.entries = r.entries := by
  rw [IndexedRegistry.entries, h.order, ← r.filterMap_keys]
  exact List.filterMap_congr fun k _ => by rw [h.values]

variable [LawfulHashable κ]

/-! A write to the map under the key that is there, or under `k` if there is none. -/

lemma getKeyD_beq (m : Std.HashMap κ ν) (k : κ) : m.getKeyD k k == k := by
  rw [Std.HashMap.getKeyD_eq_getD_getKey?]
  have hbeq := Std.HashMap.getKey?_beq (m := m) (k := k)
  cases hk : m.getKey? k with
  | none => exact BEq.rfl
  | some k' =>
    rw [hk] at hbeq
    exact hbeq

lemma getElem?_insert_getKeyD (m : Std.HashMap κ ν) (k : κ) (v : ν) (a : κ) :
    (m.insert (m.getKeyD k k) v)[a]? = if a == k then some v else m[a]? := by
  rw [Std.HashMap.getElem?_insert, BEq.congr_left (getKeyD_beq m k), BEq.comm]

lemma getKey?_insert_getKeyD (m : Std.HashMap κ ν) (k : κ) (v : ν) (a : κ) :
    (m.insert (m.getKeyD k k) v).getKey? a =
      (m.getKey? a).or (if a == k then some k else none) := by
  rw [Std.HashMap.getKey?_insert, BEq.congr_left (getKeyD_beq m k), BEq.comm,
    Std.HashMap.getKeyD_eq_getD_getKey?]
  cases hak : a == k with
  | true =>
    rw [Std.HashMap.getKey?_congr hak]
    cases m.getKey? k <;> rfl
  | false => exact Option.or_none.symm

namespace Represents

lemma insert (h : i.Represents r) (k : κ) (v : ν) :
    (i.insert k v).1 = r.get? k ∧ (i.insert k v).2.Represents (r.insert k v) := by
  refine ⟨h.values k, ?_, fun a => ?_, fun a => ?_⟩
  · change (if i.index[k]?.isNone then i.order ++ [k] else i.order) = (r.insert k v).keys
    rw [h.values, h.order, Registry.keys_insert, ← Option.not_isSome, Registry.isSome_get?]
    cases r.contains k <;> rfl
  · change (i.index.insert (i.index.getKeyD k k) v).getKey? a = _
    have hkeys : (r.insert k v).keys = (r.keyRoster.insert k).toList :=
      congrArg Roster.toList (Registry.keyRoster_insert r k v)
    rw [getKey?_insert_getKeyD, h.keys, hkeys, Roster.find?_insert, List.find?_append,
      List.find?_singleton]
    rfl
  · exact (getElem?_insert_getKeyD i.index k v a).trans
      ((congrArg _ (h.values a)).trans (Registry.get?_insert r k v a).symm)

lemma contains_eq (h : i.Represents r) (k : κ) : i.contains k = r.contains k := by
  rw [IndexedRegistry.contains, Std.HashMap.contains_eq_isSome_getElem?, h.values,
    Registry.isSome_get?]

/-- The map has no more entries than that. -/
lemma index_perm (h : i.Represents r) : i.index.toList.Perm r.entries := by
  have hindex : i.index.toList.Nodup := by
    refine List.Nodup.of_map Prod.fst ?_
    rw [Std.HashMap.map_fst_toList_eq_keys]
    exact Std.HashMap.nodup_keys
  have hentries : r.entries.Nodup := List.Nodup.of_map Prod.fst r.nodup_keys
  refine (List.perm_ext_iff_of_nodup hindex hentries).2 ?_
  rintro ⟨k, v⟩
  rw [Std.HashMap.mem_toList_iff_getKey?_eq_some_and_getElem?_eq_some, h.keys, h.values,
    Registry.find?_keys_iff, Registry.mem_entries_iff]

end Represents

/-- The two containers after a sequence of writes. -/
structure InStep (written : List (κ × ν)) : Prop where
  /-- The replies are those of the plain registry. -/
  replies_eq : (serve answer empty written).1 = (serve Registry.answer Registry.empty written).1
  /-- They are those that follow from the writes: each returns the value written before it. -/
  replies : (serve answer empty written).1 = (serve Registry.answerFrom [] written).1
  /-- The entries are those of the plain registry. -/
  entries_eq : (after written).entries = (serve Registry.answer Registry.empty written).2.entries
  /-- The list has the keys written to, each where it appeared first. -/
  order : (after written).order = (written.map (·.1)).eraseDups
  /-- No key of the list equals an earlier one. -/
  distinct : (after written).order.Pairwise fun earlier later => (later == earlier) = false
  /-- A key is represented in the list by the first one equal to it that was written to. -/
  first : ∀ k, (after written).order.find? (k == ·) = (written.map (·.1)).find? (k == ·)
  /-- The walk passes over no key of the list. -/
  keys : (after written).entries.map (·.1) = (after written).order
  /-- A key stands with the value that was written last to a key equal to it. -/
  last : ∀ entry ∈ (after written).entries, Registry.lastWritten written entry.1 = some entry.2
  /-- The map has these entries, in whatever order, and no others. -/
  index : (after written).index.toList.Perm (after written).entries
  /-- The list, the map, the walk over the entries and that over their values are of one length. -/
  size : (after written).size = (after written).index.size ∧
    (after written).size = (after written).entries.length ∧
    (after written).size = (after written).values.length
  /-- The map has a key if the list does. -/
  contains : ∀ k, (after written).contains k = (after written).order.contains k
  /-- The value in the map is the one in the entries. -/
  get : ∀ k, (after written).get? k = (after written).entries.lookup k
  /-- It is the value written last. -/
  get_last : ∀ k, (after written).get? k = Registry.lastWritten written k

/-- The replies are the plain registry's all along, and the two containers represent it at the
end. -/
theorem represents_after (written : List (κ × ν)) :
    (serve answer empty written).1 = (serve Registry.answer Registry.empty written).1 ∧
      (after written).Represents (serve Registry.answer Registry.empty written).2 :=
  serve_simulates (R := Represents) (fun h entry => h.insert entry.1 entry.2) represents_empty
    written

theorem inStep (written : List (κ × ν)) : InStep written := by
  obtain ⟨hreplies, hrep⟩ := represents_after written
  obtain ⟨hwritten, hholds⟩ := Registry.serve_answer_holds written
  have horder : (after written).order = (Roster.ofList (written.map (·.1))).toList := by
    rw [hrep.order, ← hholds.keys]
    rfl
  have hkeys : (after written).entries.map (·.1) = (after written).order := by
    rw [hrep.entries_eq, hrep.order]
    rfl
  have hindex : (after written).index.toList.Perm (after written).entries := by
    rw [hrep.entries_eq]
    exact hrep.index_perm
  have hget (k : κ) : (after written).get? k = (after written).entries.lookup k := by
    rw [hrep.entries_eq]
    exact hrep.values k
  have hlast (k : κ) : (after written).get? k = Registry.lastWritten written k :=
    (hrep.values k).trans (hholds.values k)
  have hsize : (after written).size = (after written).entries.length := by
    rw [size, ← hkeys, List.length_map]
  exact {
    replies_eq := hreplies
    replies := hreplies.trans hwritten
    entries_eq := hrep.entries_eq
    order := horder.trans (Roster.toList_ofList_eq_eraseDups _)
    distinct := horder ▸ Roster.distinct _
    first := fun k => horder ▸ Roster.find?_ofList _ k
    keys := hkeys
    last := fun entry hentry => by
      rw [hrep.entries_eq] at hentry
      rw [← hholds.values, Registry.get?_of_mem hentry]
    index := hindex
    size := ⟨hsize.trans (hindex.length_eq.symm.trans Std.HashMap.length_toList), hsize,
      by rw [values, List.length_map, hsize]⟩
    contains := fun k => by
      rw [hrep.contains_eq, hrep.order]
      rfl
    get := hget
    get_last := hlast }

end IndexedRegistry

/-! ## Both at once -/

/-- However a roster or a registry with an index is used, its containers stay in step, and what can
be seen of them is what can be seen of the plain roster or registry: the list of what was added,
each element where it appeared first. -/
theorem indexed_inStep {α : Type w} [BEq α] [EquivBEq α] [Hashable α] [LawfulHashable α]
    {κ : Type u} {ν : Type v} [BEq κ] [EquivBEq κ] [Hashable κ] [LawfulHashable κ]
    (requests : List (Roster.Request α)) (written : List (κ × ν)) :
    IndexedRoster.InStep requests ∧ IndexedRegistry.InStep written :=
  ⟨IndexedRoster.inStep requests, IndexedRegistry.inStep written⟩

/-- Columns are compared by their ids, and hashed by them. -/
instance : Hashable Column := ⟨fun c => hash c.id.number⟩

instance : LawfulHashable Column where
  hash_eq a b h := congrArg (fun id : ColumnId => hash id.number) ((Column.beq_iff a b).1 h)

/-- A column that comes back admitting null is no new one.  It keeps its place and its first form,
and in a registry it gets the new value. -/
theorem indexed_inStep_nullableColumn :
    let a : Column := ⟨⟨0⟩, "a", .integer, false⟩
    let b : Column := ⟨⟨1⟩, "b", .integer, true⟩
    (serve IndexedRoster.answer .empty [.extend [a, b], .insert a.asNullable, .drain]).1 =
        [.done, .inserted false, .drained [a, b]] ∧
      (serve IndexedRegistry.answer .empty [(a, 1), (b, 2), (a.asNullable, 3)]).1 =
        [none, none, some 1] ∧
      (IndexedRegistry.after [(a, 1), (b, 2), (a.asNullable, 3)]).entries = [(a, 3), (b, 2)] ∧
      (IndexedRegistry.after [(a, 1), (b, 2), (a.asNullable, 3)]).get? a = some 3 := by
  intro a b
  obtain ⟨roster, registry⟩ := indexed_inStep
    [.extend [a, b], .insert a.asNullable, .drain] [(a, 1), (b, 2), (a.asNullable, 3)]
  exact ⟨roster.replies, registry.replies, registry.entries_eq, registry.get_last a⟩

end GroupingPlanner

import GroupingPlanner.Proofs.SetsApart
import Mathlib.Algebra.BigOperators.Fin
/-!
# Masks are sums of powers of two

Each argument of a grouping call has a place in the mask, the last one the place 0, and a place `k`
counts `2 ^ k` if the grouping set does not hold the argument.  Masks have 64 bits, so the value is
the sum of these powers modulo `2 ^ 64`.  An argument may be repeated, and then each of its places
counts.

Masks are computed here by doubling.  The other way is to set one bit after the other, each shifted
to its place and dropped if there is no such place (`shiftedMask`).  Both give the same mask, also
for more arguments than there are bits.

The grouping id is the mask for the distinct expressions of all grouping sets.  Lowering admits at
most 64 of them, and it leaves no more than there were, so no bit of a grouping id is ever lost and
the id tells which expressions a set holds.

* `absentWeight`, `toNat_absenceMask_eq`: the sum, and the mask as its remainder.
* `placedBit`, `shiftedMask`, `absenceMask_eq_shiftedMask`: a mask set bit by bit.
* `Repetition.groupingMasks_exact`: what the values of calls and the grouping ids are.
-/

namespace GroupingPlanner

/-! ## The sum of the places -/

/-- The sum of `2 ^ k` over the places `k` of the expressions that the set does not hold; the last
expression has the place 0. -/
def absentWeight (set es : List Expr) : Nat :=
  ∑ i : Fin es.length, if set.contains es[i] then 0 else 2 ^ (es.length - 1 - i)

lemma absentWeight_cons (set : List Expr) (e : Expr) (es : List Expr) :
    absentWeight set (e :: es) =
      (if set.contains e then 0 else 2 ^ es.length) + absentWeight set es := by
  have place (i : Fin es.length) : (e :: es).length - 1 - i.succ = es.length - 1 - i := by
    rw [List.length_cons, Fin.val_succ]
    omega
  unfold absentWeight
  refine (Fin.sum_univ_succ _).trans (congrArg₂ _ rfl (Fintype.sum_congr _ _ fun i => ?_))
  rw [place]
  rfl

/-- Doubling sums up the places. -/
lemma absenceNumber_eq_absentWeight (set es : List Expr) :
    absenceNumber set es = absentWeight set es := by
  -- What has been summed up before moves up by as many places as there are expressions to come.
  have from_start : ∀ start : Nat,
      es.foldl (fun n e => 2 * n + if set.contains e then 0 else 1) start =
        start * 2 ^ es.length + absentWeight set es := by
    induction es with
    | nil => simp [absentWeight]
    | cons e es ih =>
      intro start
      rw [List.foldl_cons, ih, absentWeight_cons, List.length_cons, pow_succ]
      split <;> ring
  rw [absenceNumber, from_start, Nat.zero_mul, Nat.zero_add]

lemma absentWeight_lt (set es : List Expr) : absentWeight set es < 2 ^ es.length := by
  rw [← absenceNumber_eq_absentWeight]
  exact absenceNumber_lt set es

/-- A mask is the sum of the places, cut to the bits there are. -/
theorem toNat_absenceMask_eq (set es : List Expr) :
    (absenceMask set es).toNat = absentWeight set es % 2 ^ groupingIdBits := by
  rw [toNat_absenceMask_mod, absenceNumber_eq_absentWeight]
  rfl

/-! ## Bit by bit -/

/-- The mask with a bit at one place only; without any bit, if masks have no such place. -/
def placedBit (place : Nat) : UInt64 :=
  if place < groupingIdBits then 1 <<< UInt64.ofNat place else 0

/-- The mask of a set, put together from the bits of the expressions that the set does not hold. -/
def shiftedMask (set es : List Expr) : UInt64 :=
  es.zipIdx.foldl (fun mask p =>
    if set.contains p.1 then mask else mask ||| placedBit (es.length - 1 - p.2)) 0

lemma toNat_placedBit (place : Nat) :
    (placedBit place).toNat = 2 ^ place % 2 ^ groupingIdBits := by
  unfold placedBit groupingIdBits
  split
  · have hone : (1 : UInt64).toNat = 1 := rfl
    have hplace : (UInt64.ofNat place).toNat % 64 = place := by
      rw [UInt64.toNat_ofNat']
      omega
    rw [UInt64.toNat_shiftLeft, hplace, hone, Nat.one_shiftLeft]
  · have hdvd : 2 ^ 64 ∣ 2 ^ place := Nat.pow_dvd_pow 2 (by omega)
    rw [Nat.mod_eq_zero_of_dvd hdvd]
    rfl

/-- The bit of the first expression comes before those of the others. -/
lemma absenceMask_cons (set : List Expr) (e : Expr) (es : List Expr) :
    absenceMask set (e :: es) =
      (if set.contains e then 0 else placedBit es.length) ||| absenceMask set es := by
  apply UInt64.toNat.inj
  rw [UInt64.toNat_or, toNat_absenceMask_eq, toNat_absenceMask_eq, absentWeight_cons]
  cases set.contains e with
  | true => simp
  | false =>
    have disjoint := Nat.two_pow_add_eq_or_of_lt (absentWeight_lt set es) 1
    rw [Nat.mul_one] at disjoint
    simp only [Bool.false_eq_true, if_false]
    rw [disjoint, Nat.or_mod_two_pow, toNat_placedBit]

/-- Doubling and setting bits come to the same. -/
theorem absenceMask_eq_shiftedMask (set es : List Expr) :
    absenceMask set es = shiftedMask set es := by
  -- With `k` expressions done, the bits of the others are added to those set so far.
  have from_mask : ∀ (k : Nat) (mask : UInt64),
      (es.zipIdx k).foldl (fun mask p => if set.contains p.1 then mask
        else mask ||| placedBit (k + es.length - 1 - p.2)) mask = mask ||| absenceMask set es := by
    induction es with
    | nil => exact fun k mask => (UInt64.or_zero).symm
    | cons e es ih =>
      intro k mask
      have place : k + (e :: es).length - 1 - k = es.length := by
        rw [List.length_cons]
        omega
      have total : k + (e :: es).length = k + 1 + es.length := by
        rw [List.length_cons]
        omega
      rw [List.zipIdx_cons, List.foldl_cons, place, total, ih, absenceMask_cons]
      cases set.contains e with
      | true => simp
      | false => simp [UInt64.or_assoc]
  have from_zero := from_mask 0 0
  rw [Nat.zero_add, UInt64.zero_or] at from_zero
  exact from_zero.symm

/-! ## Grouping ids and the values of calls -/

namespace Repetition

/-- A repetition whose size has been checked has no more distinct grouping expressions than the
grouping id has bits. -/
lemma size_le_of_checkItems {r : Repetition} {settings : Settings} {s s' : Session}
    (valid : settings.check = .ok ())
    (run : (r.checkItems settings.maxGroupingItems).runIn s = (.ok (), s')) :
    r.items.size ≤ groupingIdBits := by
  simp only [checkItems] at run
  split at run
  · rw [PlanM.runIn_report_bind, PlanM.runIn_throw] at run
    cases run
  · rename_i hsize
    exact size_le_of_check valid (Nat.le_of_not_lt hsize)

/-- The value of a grouping call and the grouping id are exact modulo `2 ^ 64`, whichever way they
are computed.  Up to 64 distinct grouping expressions no bit of the grouping id is lost, the id is
below `2 ^ n`, and it is the same for two grouping sets exactly if they have the same members.  With
valid settings these are all the repetitions that pass the check of their size, and all that
lowering starts from or leaves. -/
theorem groupingMasks_exact (r : Repetition) :
    (∀ set es : List Expr, absenceMask set es = shiftedMask set es) ∧
    (∀ call : GroupingCall, (r.callValues call).map UInt64.toNat =
      r.sets.map fun set => absentWeight set call.args % 2 ^ groupingIdBits) ∧
    (r.groupingIds.map UInt64.toNat =
      r.sets.map fun set => absentWeight set r.items.toList % 2 ^ groupingIdBits) ∧
    (r.items.size ≤ groupingIdBits →
      (r.groupingIds.map UInt64.toNat = r.sets.map fun set => absentWeight set r.items.toList) ∧
      (∀ id ∈ r.groupingIds, id.toNat < 2 ^ r.items.size) ∧
      ∀ (i j : Nat) (hi : i < r.sets.length) (hj : j < r.sets.length),
        r.groupingIds[i]? = r.groupingIds[j]? ↔ SameMembers r.sets[i] r.sets[j]) ∧
    ∀ (settings : Settings) (s s' : Session),
      (settings.check = .ok () →
        (r.checkItems settings.maxGroupingItems).runIn s = (.ok (), s') →
          r.items.size ≤ groupingIdBits) ∧
      ∀ a, (r.lower settings).runIn s = (.ok a, s') → ∃ r' : Repetition, a.child = r'.toPlan ∧
        r.items.size ≤ groupingIdBits ∧ r'.items.size ≤ r.items.size := by
  have mask (es : List Expr) : (r.sets.map fun set => absenceMask set es).map UInt64.toNat =
      r.sets.map fun set => absentWeight set es % 2 ^ groupingIdBits := by
    rw [List.map_map]
    exact List.map_congr_left fun set _ => toNat_absenceMask_eq set es
  refine ⟨absenceMask_eq_shiftedMask, fun call => mask call.args, mask r.items.toList,
    fun size => ?_, fun settings s s' => ⟨size_le_of_checkItems, fun a run => ?_⟩⟩
  · have room : 2 ^ r.items.toList.length ≤ 2 ^ groupingIdBits :=
      Nat.pow_le_pow_right (by decide) size
    have unlost (set : List Expr) : (absenceMask set r.items.toList).toNat =
        absentWeight set r.items.toList := by
      rw [toNat_absenceMask_eq, Nat.mod_eq_of_lt (lt_of_lt_of_le (absentWeight_lt _ _) room)]
    refine ⟨?_, fun id hid => ?_, fun i j hi hj => groupingIds_eq_iff hi hj size⟩
    · rw [groupingIds, List.map_map]
      exact List.map_congr_left fun set _ => unlost set
    · obtain ⟨set, -, rfl⟩ := List.mem_map.1 hid
      rw [unlost]
      exact absentWeight_lt set r.items.toList
  · obtain ⟨hcheck, hitems, x, s₁, hnext, separated⟩ := lower_eq_ok run
    obtain ⟨copies, child, lowered⟩ := x.lowered_of_separate hnext separated
    exact ⟨_, lowered.child_eq, size_le_of_check hcheck hitems, x.size_items_le⟩

/-- Over the sets `((a + 1), (b))` the grouping id is `01` for the first set and `10` for the
second. -/
theorem groupingMasks_exact_markedSums : markedSums.items.size ≤ groupingIdBits ∧
    markedSums.groupingIds.map UInt64.toNat = [1, 2] ∧
    (markedSums.groupingIds[0]? = markedSums.groupingIds[1]? ↔
      SameMembers markedSums.sets[0] markedSums.sets[1]) ∧
    ∃ a s', (markedSums.lower {}).runIn { nextId := 5 } = (.ok a, s') ∧
      ∃ r' : Repetition, a.child = r'.toPlan ∧ r'.items.size ≤ markedSums.items.size := by
  have size : markedSums.items.size ≤ groupingIdBits := by decide
  obtain ⟨-, -, -, ids, settled⟩ := groupingMasks_exact markedSums
  obtain ⟨-, -, same⟩ := ids size
  obtain ⟨a, s', run⟩ : ∃ a s', (markedSums.lower {}).runIn { nextId := 5 } = (.ok a, s') :=
    ⟨_, _, rfl⟩
  obtain ⟨r', hchild, -, hsize⟩ := (settled {} { nextId := 5 } s').2 a run
  exact ⟨size, by decide, same 0 1 (by decide) (by decide), a, s', run, r', hchild, hsize⟩

end Repetition
end GroupingPlanner

import GroupingPlanner.Plan.GroupingValues
import GroupingPlanner.Proofs.Occurrences
/-!
# What a mask tells about a grouping set

A mask has one bit for each of its expressions, so it tells which of them a set holds, as long as
there are no more expressions than bits.

* `absenceMask_map`: a mask depends on which expressions are held, and on nothing else.
* `absenceNumber`, `toNat_absenceMask_mod`: the number that a mask is cut from.
* `contains_eq_of_absenceMask_eq`: up to 64 expressions, the mask determines which are held.
-/

namespace GroupingPlanner

lemma foldl_congr_of_mem {α β : Type} {f g : β → α → β} {xs : List α}
    (h : ∀ b, ∀ x ∈ xs, f b x = g b x) (b : β) : xs.foldl f b = xs.foldl g b := by
  induction xs generalizing b with
  | nil => rfl
  | cons x xs ih =>
    rw [List.foldl_cons, List.foldl_cons, h b x List.mem_cons_self]
    exact ih (fun b y hy => h b y (List.mem_cons_of_mem _ hy)) _

/-- A mask depends on which of its expressions the set holds. -/
theorem absenceMask_map {f : Expr → Expr} {set set' es : List Expr}
    (h : ∀ e ∈ es, set'.contains (f e) = set.contains e) :
    absenceMask set' (es.map f) = absenceMask set es := by
  rw [absenceMask, absenceMask, List.foldl_map]
  exact foldl_congr_of_mem (fun mask e he => by rw [h e he]) 0

lemma contains_congr_of_beq {set : List Expr} {e e' : Expr} (h : e == e') :
    set.contains e = set.contains e' := by
  rw [Bool.eq_iff_iff, List.contains_iff_exists_mem_beq, List.contains_iff_exists_mem_beq]
  exact ⟨fun ⟨y, hy, hbeq⟩ => ⟨y, hy, BEq.trans (BEq.symm h) hbeq⟩,
    fun ⟨y, hy, hbeq⟩ => ⟨y, hy, BEq.trans h hbeq⟩⟩

/-- Masks for equal expressions are equal. -/
lemma absenceMask_congr {set es es' : List Expr} (h : es == es') :
    absenceMask set es = absenceMask set es' := by
  have step : ∀ mask : UInt64,
      es.foldl (fun mask e => 2 * mask + if set.contains e then 0 else 1) mask =
        es'.foldl (fun mask e => 2 * mask + if set.contains e then 0 else 1) mask := by
    induction es generalizing es' with
    | nil =>
      cases es' with
      | nil => exact fun _ => rfl
      | cons e' es' => cases h
    | cons e es ih =>
      cases es' with
      | nil => cases h
      | cons e' es' =>
        rw [List.cons_beq_cons, Bool.and_eq_true] at h
        intro mask
        rw [List.foldl_cons, List.foldl_cons, contains_congr_of_beq h.1]
        exact ih h.2 _
  exact step 0

/-! ## Masks as numbers -/

/-- The mask as a number of any size. -/
def absenceNumber (set es : List Expr) : Nat :=
  es.foldl (fun n e => 2 * n + if set.contains e then 0 else 1) 0

lemma absenceNumber_append (set es : List Expr) (e : Expr) :
    absenceNumber set (es ++ [e]) =
      2 * absenceNumber set es + if set.contains e then 0 else 1 := by
  simp [absenceNumber]

lemma absenceNumber_lt (set es : List Expr) : absenceNumber set es < 2 ^ es.length := by
  induction es using List.reverseRecOn with
  | nil => simp [absenceNumber]
  | append_singleton es e ih =>
    rw [absenceNumber_append, List.length_append, List.length_singleton, pow_succ]
    split <;> omega

/-- A mask is the number, cut to 64 bits. -/
theorem toNat_absenceMask_mod (set es : List Expr) :
    (absenceMask set es).toNat = absenceNumber set es % 2 ^ 64 := by
  induction es using List.reverseRecOn with
  | nil => rfl
  | append_singleton es e ih =>
    have hmask : absenceMask set (es ++ [e]) =
        2 * absenceMask set es + if set.contains e then 0 else 1 := by
      simp [absenceMask]
    have hbit : (if set.contains e then 0 else 1 : UInt64).toNat =
        if set.contains e then 0 else 1 := by
      cases set.contains e <;> rfl
    have htwo : (2 : UInt64).toNat = 2 := rfl
    rw [hmask, absenceNumber_append, UInt64.toNat_add, UInt64.toNat_mul, ih, hbit, htwo,
      Nat.mod_add_mod, Nat.add_mod, Nat.mul_mod_mod, ← Nat.add_mod]

/-- Up to 64 expressions no bit is lost. -/
lemma toNat_absenceMask {set es : List Expr} (h : es.length ≤ 64) :
    (absenceMask set es).toNat = absenceNumber set es := by
  have hpow : 2 ^ es.length ≤ 2 ^ 64 := Nat.pow_le_pow_right (by decide) h
  rw [toNat_absenceMask_mod, Nat.mod_eq_of_lt (lt_of_lt_of_le (absenceNumber_lt set es) hpow)]

lemma contains_eq_of_absenceNumber_eq {set set' es : List Expr}
    (h : absenceNumber set es = absenceNumber set' es) :
    ∀ e ∈ es, set.contains e = set'.contains e := by
  induction es using List.reverseRecOn with
  | nil => exact fun e he => absurd he List.not_mem_nil
  | append_singleton es e ih =>
    rw [absenceNumber_append, absenceNumber_append] at h
    have last : set.contains e = set'.contains e := by
      cases hs : set.contains e <;> cases hs' : set'.contains e <;> simp [hs, hs'] at h ⊢ <;> omega
    rw [last] at h
    have initial : absenceNumber set es = absenceNumber set' es := by omega
    intro e' he'
    rcases List.mem_append.1 he' with he' | he'
    · exact ih initial e' he'
    · rw [List.mem_singleton.1 he']
      exact last

/-- Up to 64 expressions, sets with one mask hold the same expressions. -/
theorem contains_eq_of_absenceMask_eq {set set' es : List Expr} (hlength : es.length ≤ 64)
    (h : absenceMask set es = absenceMask set' es) :
    ∀ e ∈ es, set.contains e = set'.contains e := by
  refine contains_eq_of_absenceNumber_eq ?_
  rw [← toNat_absenceMask hlength, ← toNat_absenceMask hlength, h]

end GroupingPlanner

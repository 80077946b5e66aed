import Mathlib.Data.Set.Card
import Mathlib.Logic.Function.Basic

/-!
# Counting threads

The number of threads whose control point is of some kind, for any number of
threads and for any type of control points.  A step moves one thread, so the
count changes by the old and the new control point of that thread only.

Main results:

- Theorem {lit}`countAt_update`: the count after one thread has moved.
- Theorems {lit}`countAt_enter`, {lit}`countAt_leave` and {lit}`countAt_same`:
  its three cases.

Current gaps:

- Only finitely many threads may be at a counted control point.
-/

namespace ThreadCount

open Function

variable {ι β : Type*}

/-- The number of threads at a control point of the kind {lit}`p`. -/
noncomputable def countAt (p : β → Prop) (pcs : ι → β) : Nat :=
  {i | p (pcs i)}.ncard

/-- Only finitely many threads are at a control point of the kind {lit}`p`. -/
def FiniteAt (p : β → Prop) (pcs : ι → β) : Prop :=
  {i | p (pcs i)}.Finite

/-- Nobody is at a control point of the kind {lit}`p`. -/
theorem countAt_eq_zero {p : β → Prop} {pcs : ι → β} (h : ∀ i, ¬ p (pcs i)) :
    countAt p pcs = 0 := by
  have hempty : {i | p (pcs i)} = (∅ : Set ι) := Set.eq_empty_of_forall_notMem h
  rw [countAt, hempty, Set.ncard_empty]

/-- A thread at a control point of the kind {lit}`p` is counted. -/
theorem countAt_pos {p : β → Prop} {pcs : ι → β} (hfin : FiniteAt p pcs) {i : ι}
    (hi : p (pcs i)) : 0 < countAt p pcs :=
  (Set.ncard_pos hfin).mpr ⟨i, hi⟩

variable [DecidableEq ι]

/-- Moving one thread adds at most this thread. -/
theorem FiniteAt.update {p : β → Prop} {pcs : ι → β} (hfin : FiniteAt p pcs) (i : ι) (b : β) :
    FiniteAt p (update pcs i b) := by
  apply (Set.Finite.insert i hfin).subset
  intro j hj
  by_cases hji : j = i
  · exact Or.inl hji
  · right
    simpa [hji] using hj

/-- A thread that was not counted arrives. -/
theorem countAt_enter {p : β → Prop} {pcs : ι → β} (hfin : FiniteAt p pcs) {i : ι} {b : β}
    (hi : ¬ p (pcs i)) (hb : p b) : countAt p (update pcs i b) = countAt p pcs + 1 := by
  have hset : {j | p (update pcs i b j)} = insert i {j | p (pcs j)} := by
    ext j
    by_cases hji : j = i
    · subst j
      simp [hb]
    · simp [hji]
  have hnot : i ∉ {j | p (pcs j)} := hi
  rw [countAt, countAt, hset, Set.ncard_insert_of_notMem hnot hfin]

/-- A counted thread moves on. -/
theorem countAt_leave {p : β → Prop} {pcs : ι → β} (hfin : FiniteAt p pcs) {i : ι} {b : β}
    (hi : p (pcs i)) (hb : ¬ p b) : countAt p (update pcs i b) + 1 = countAt p pcs := by
  have hback : update (update pcs i b) i (pcs i) = pcs := by
    rw [update_idem, update_eq_self]
  have hnow : ¬ p (update pcs i b i) := by simpa using hb
  have henter := countAt_enter (hfin.update i b) hnow hi
  rw [hback] at henter
  exact henter.symm

/-- A move between two counted control points, or between two others, changes
nothing. -/
theorem countAt_same {p : β → Prop} {pcs : ι → β} {i : ι} {b : β} (h : p (pcs i) ↔ p b) :
    countAt p (update pcs i b) = countAt p pcs := by
  have hset : {j | p (update pcs i b j)} = {j | p (pcs j)} := by
    ext j
    by_cases hji : j = i
    · subst j
      simp [h]
    · simp [hji]
  rw [countAt, countAt, hset]

/-- The count after one thread has moved: the old control point no longer counts,
and the new one does. -/
theorem countAt_update {p : β → Prop} [DecidablePred p] {pcs : ι → β} (hfin : FiniteAt p pcs)
    (i : ι) (b : β) :
    countAt p (update pcs i b) + (if p (pcs i) then 1 else 0) =
      countAt p pcs + (if p b then 1 else 0) := by
  by_cases hi : p (pcs i)
  · by_cases hb : p b
    · simp [hi, hb, countAt_same (iff_of_true hi hb)]
    · simpa [hi, hb] using countAt_leave hfin hi hb
  · by_cases hb : p b
    · simpa [hi, hb] using countAt_enter hfin hi hb
    · simp [hi, hb, countAt_same (iff_of_false hi hb)]

end ThreadCount

import Mathlib.Data.Set.Basic
import Mathlib.Logic.Function.Basic
import Mathlib.Logic.Relation
import Mathlib.Order.WellFounded

/-!
# Mutexes and lock orders

Threads {lit}`ι` that take and release mutexes {lit}`μ`, described by two views:
the table of owners, and what each thread holds according to its control point.
A set of threads is deadlocked if each of them waits for a mutex that a thread of
the set holds.  If every thread waits only for mutexes above all those it holds,
in some order without infinite ascent, then no set is deadlocked.

Main results:

- Theorems {lit}`Owned.acquire`, {lit}`Owned.release` and {lit}`Owned.congr`: the
  two views stay equal.
- Theorem {lit}`not_deadlocked_of_rank`: a lock order rules out deadlocks.
- Theorem {lit}`exists_unblocked`: without deadlocks every thread waits, through
  others, for one that waits for nobody.

Current gaps:

- Mutexes have one mode, and are not taken again by their owner.
-/

namespace LockOrder

open Function

variable {ι μ : Type*}

/-! ## Owners and holders -/

/-- The owner of a mutex is the thread that holds it. -/
def Owned (owner : μ → Option ι) (holds : ι → μ → Prop) : Prop :=
  ∀ i m, owner m = some i ↔ holds i m

variable {owner : μ → Option ι} {holds holds' : ι → μ → Prop} {i : ι} {m : μ}

/-- Nothing is taken or released. -/
theorem Owned.congr (h : Owned owner holds) (hsame : ∀ j m', holds' j m' ↔ holds j m') :
    Owned owner holds' := by
  intro j m'
  rw [h j m', hsame j m']

section

variable [DecidableEq μ]

/-- A thread takes a free mutex. -/
theorem Owned.acquire (h : Owned owner holds) (hfree : owner m = none)
    (hown : ∀ m', holds' i m' ↔ holds i m' ∨ m' = m)
    (hother : ∀ j, j ≠ i → ∀ m', holds' j m' ↔ holds j m') :
    Owned (update owner m (some i)) holds' := by
  intro j m'
  by_cases hm : m' = m
  · subst m'
    by_cases hj : j = i
    · subst j
      simp [hown]
    · have hnot : ¬ holds j m := by
        rw [← h j m, hfree]
        simp
      simp [hother j hj, hnot, Ne.symm hj]
  · rw [update_of_ne hm, h j m']
    by_cases hj : j = i
    · subst j
      simp [hown, hm]
    · exact (hother j hj m').symm

/-- A thread releases a mutex that it holds. -/
theorem Owned.release (h : Owned owner holds) (hheld : holds i m)
    (hown : ∀ m', holds' i m' ↔ holds i m' ∧ m' ≠ m)
    (hother : ∀ j, j ≠ i → ∀ m', holds' j m' ↔ holds j m') :
    Owned (update owner m none) holds' := by
  intro j m'
  by_cases hm : m' = m
  · subst m'
    by_cases hj : j = i
    · subst j
      simp [hown]
    · have hnot : ¬ holds j m := by
        rw [← h j m, (h i m).mpr hheld, Option.some.injEq]
        exact Ne.symm hj
      simp [hother j hj, hnot]
  · rw [update_of_ne hm, h j m']
    by_cases hj : j = i
    · subst j
      simp [hown, hm]
    · exact (hother j hj m').symm

end

/-! ## Deadlocks -/

/-- The set of threads is not empty, and each of them waits for a mutex that one of
them holds, itself included. -/
def Deadlocked (owner : μ → Option ι) (wants : ι → Option μ) (threads : Set ι) : Prop :=
  threads.Nonempty ∧
    ∀ i ∈ threads, ∃ m j, wants i = some m ∧ owner m = some j ∧ j ∈ threads

/-- If threads wait only for mutexes of a higher rank than those they own, no set of
threads is deadlocked: the one that waits for the highest rank of the set would
have to wait for somebody who waits for a still higher one. -/
theorem not_deadlocked_of_rank {β : Type*} [Preorder β] [WellFoundedGT β] (rank : μ → β)
    {owner : μ → Option ι} {wants : ι → Option μ}
    (horder : ∀ i m m', wants i = some m → owner m' = some i → rank m' < rank m)
    (threads : Set ι) : ¬ Deadlocked owner wants threads := by
  rintro ⟨⟨i₀, hi₀⟩, hwait⟩
  let ranks : Set β := {b | ∃ i ∈ threads, ∃ m, wants i = some m ∧ rank m = b}
  have hranks : ranks.Nonempty := by
    rcases hwait i₀ hi₀ with ⟨m, -, hm, -, -⟩
    exact ⟨rank m, i₀, hi₀, m, hm, rfl⟩
  obtain ⟨b, ⟨i, hi, m, hm, rfl⟩, hmax⟩ := wellFounded_gt.has_min ranks hranks
  rcases hwait i hi with ⟨m', j, hm', hj, hjin⟩
  rw [hm, Option.some.injEq] at hm'
  subst m'
  rcases hwait j hjin with ⟨m', -, hm', -, -⟩
  exact hmax (rank m') ⟨j, hjin, m', hm', rfl⟩ (horder j m' m hm' hj)

/-- The next step of {lit}`i` takes a mutex of {lit}`j`. -/
def WaitsFor (owner : μ → Option ι) (wants : ι → Option μ) (i j : ι) : Prop :=
  ∃ m, wants i = some m ∧ owner m = some j

/-- If no set of threads is deadlocked, then the threads that {lit}`i` waits for,
directly or through others, are none; so one of them waits for nobody. -/
theorem exists_unblocked {wants : ι → Option μ}
    (hfree : ∀ threads : Set ι, ¬ Deadlocked owner wants threads) (i : ι) :
    ∃ j, Relation.ReflTransGen (WaitsFor owner wants) i j ∧ ∀ k, ¬ WaitsFor owner wants j k := by
  by_contra hnone
  simp only [not_exists, not_and, not_forall, not_not] at hnone
  refine hfree {j | Relation.ReflTransGen (WaitsFor owner wants) i j} ⟨⟨i, .refl⟩, fun j hj => ?_⟩
  rcases hnone j hj with ⟨k, m, hm, hk⟩
  exact ⟨m, k, hm, hk, hj.tail ⟨m, hm, hk⟩⟩

end LockOrder

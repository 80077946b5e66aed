import Mathlib.Order.Filter.AtTopBot.Basic
import ChatServer.Lib.TransitionSystem

/-!
# Fair behaviors

A behavior of a transition system is an infinite run that may stutter, so that runs which
come to an end are behaviors as well.  Fairness is a property of a behavior and a set of
labels: weak fairness is about labels that stay enabled, strong fairness about labels that
become enabled again and again.  Nothing else is assumed about the order of the steps.

Main results:

- Theorem {lit}`exists_of_measure`: progress in a well-founded measure reaches its goal.
- Theorem {lit}`exists_of_catchUp`: a count that goes up again and again reaches every bound.
- Theorems {lit}`WeaklyFair.occurs` and {lit}`StronglyFair.occurs`: a fair label occurs.
- Theorem {lit}`Behavior.next_of_kind`: the state in which a label occurs next.
- Theorem {lit}`stronglyFair_ofRun`: a run that ends where nothing is enabled is fair.
- Theorem {lit}`StronglyFair.map`: fairness of a system is fairness of its parts.

Current gaps:

- Temporal formulas are written out as statements about times.
-/

namespace TransitionSystem

open Filter

/-! ## Progress -/

/-- The measure rule: if {lit}`P` leads to {lit}`Q`, or to {lit}`P` again with less to do,
then it leads to {lit}`Q`. -/
theorem exists_of_measure {β : Type*} [Preorder β] [WellFoundedLT β] {P Q : ℕ → Prop}
    (μ : ℕ → β) {n : ℕ}
    (hprogress : ∀ m, n ≤ m → P m → ∃ k, m ≤ k ∧ (Q k ∨ P k ∧ μ k < μ m)) (hP : P n) :
    ∃ m, n ≤ m ∧ Q m := by
  have hall : ∀ w : β, ∀ m, n ≤ m → P m → μ m = w → ∃ k, m ≤ k ∧ Q k := by
    intro w
    induction w using WellFoundedLT.induction with
    | ind w ih =>
        intro m hm hPm hw
        rcases hprogress m hm hPm with ⟨k, hmk, hQ | ⟨hPk, hless⟩⟩
        · exact ⟨k, hmk, hQ⟩
        · rcases ih (μ k) (hw ▸ hless) k (hm.trans hmk) hPk rfl with ⟨l, hkl, hQ⟩
          exact ⟨l, hmk.trans hkl, hQ⟩
  exact hall (μ n) n le_rfl hP rfl

/-- The catch-up rule: a count that goes up again as long as it is below a bound reaches
the bound. -/
theorem exists_of_catchUp {f : ℕ → ℕ} {bound n : ℕ}
    (hprogress : ∀ m, n ≤ m → f m < bound → ∃ k, m ≤ k ∧ f m < f k) :
    ∃ m, n ≤ m ∧ bound ≤ f m := by
  refine exists_of_measure (P := fun _ => True) (fun m => bound - f m) (fun m hm _ => ?_) trivial
  by_cases hbound : f m < bound
  · rcases hprogress m hm hbound with ⟨k, hmk, hless⟩
    exact ⟨k, hmk, .inr ⟨trivial, by omega⟩⟩
  · exact ⟨m, le_rfl, .inl (by omega)⟩

/-! ## Behaviors -/

variable {σ α : Type*} {T : TransitionSystem σ α}

/-- The same system, which may also do nothing. -/
def stutter (T : TransitionSystem σ α) : TransitionSystem σ (Option α) where
  init := T.init
  step s a := a.elim (some s) (T.step s)

/-- An infinite run from the initial state that may stutter. -/
abbrev Behavior (T : TransitionSystem σ α) :=
  T.stutter.InfiniteRun T.init

namespace Behavior

variable (ρ : T.Behavior)

/-- A behavior stutters or takes a step. -/
theorem step_cases (n : ℕ) :
    ρ.labels n = none ∧ ρ.states (n + 1) = ρ.states n ∨
      ∃ a, ρ.labels n = some a ∧ T.step (ρ.states n) a = some (ρ.states (n + 1)) := by
  have hstep := ρ.step n
  cases hlabel : ρ.labels n with
  | none =>
      rw [hlabel] at hstep
      exact .inl ⟨rfl, (Option.some.inj hstep).symm⟩
  | some a =>
      rw [hlabel] at hstep
      exact .inr ⟨a, rfl, hstep⟩

/-- A labelled position takes the step of its label. -/
theorem step_of_label {n : ℕ} {a : α} (h : ρ.labels n = some a) :
    T.step (ρ.states n) a = some (ρ.states (n + 1)) := by
  have hstep := ρ.step n
  rwa [h] at hstep

/-- Every state of a behavior is reachable. -/
theorem reachable (n : ℕ) : T.Reachable (ρ.states n) := by
  induction n with
  | zero =>
      rw [ρ.start]
      exact .init
  | succ n ih =>
      rcases ρ.step_cases n with ⟨-, hsame⟩ | ⟨a, -, hstep⟩
      · rwa [hsame]
      · exact .step ih trivial hstep

/-- What no step breaks holds from then on. -/
theorem persists {P : σ → Prop}
    (hpres : ∀ s a s', T.Reachable s → T.step s a = some s' → P s → P s') {n m : ℕ}
    (hnm : n ≤ m) (h : P (ρ.states n)) : P (ρ.states m) := by
  induction m, hnm using Nat.le_induction with
  | base => exact h
  | succ m hnm ih =>
      rcases ρ.step_cases m with ⟨-, hsame⟩ | ⟨a, -, hstep⟩
      · rwa [hsame]
      · exact hpres _ _ _ (ρ.reachable m) hstep ih

/-- What no step breaks holds from some time on, if it holds at all. -/
theorem eventually {P : σ → Prop}
    (hpres : ∀ s a s', T.Reachable s → T.step s a = some s' → P s → P s')
    (h : ∃ n, P (ρ.states n)) : ∀ᶠ n in atTop, P (ρ.states n) := by
  rcases h with ⟨n, hn⟩
  exact eventually_atTop.mpr ⟨n, fun m hm => ρ.persists hpres hm hn⟩

/-- A label of a set is taken at a time. -/
def Occurs (A : α → Prop) (n : ℕ) : Prop :=
  ∃ a, ρ.labels n = some a ∧ A a

/-- What only the labels of a set can break holds until one of them is taken. -/
theorem stays {A : α → Prop} {P : σ → Prop}
    (hkeep : ∀ s a s', T.Reachable s → T.step s a = some s' → ¬ A a → P s → P s') {n m : ℕ}
    (hnm : n ≤ m) (hno : ∀ k, n ≤ k → k < m → ¬ ρ.Occurs A k) (hP : P (ρ.states n)) :
    P (ρ.states m) := by
  induction m, hnm using Nat.le_induction with
  | base => exact hP
  | succ m hnm ih =>
      have hPm := ih fun k hk hkm => hno k hk (by omega)
      rcases ρ.step_cases m with ⟨-, hsame⟩ | ⟨a, hlabel, hstep⟩
      · rwa [hsame]
      · exact hkeep _ _ _ (ρ.reachable m) hstep
          (fun hA => hno m hnm (Nat.lt_succ_self m) ⟨a, hlabel, hA⟩) hPm

/-- If a label of a set is taken later on, then the first one is taken in a state in which
everything that only these labels can break still holds. -/
theorem next_of_kind {A : α → Prop} {P : σ → Prop}
    (hkeep : ∀ s a s', T.Reachable s → T.step s a = some s' → ¬ A a → P s → P s') {n : ℕ}
    (hP : P (ρ.states n)) (h : ∃ m, n ≤ m ∧ ρ.Occurs A m) :
    ∃ m a, n ≤ m ∧ A a ∧ ρ.labels m = some a ∧
      T.step (ρ.states m) a = some (ρ.states (m + 1)) ∧ P (ρ.states m) := by
  classical
  rcases Nat.find_spec h with ⟨hle, a, hlabel, hA⟩
  have hfirst : ∀ k, n ≤ k → k < Nat.find h → ¬ ρ.Occurs A k :=
    fun k hk hlt hoccurs => Nat.find_min h hlt ⟨hk, hoccurs⟩
  exact ⟨Nat.find h, a, hle, hA, hlabel, ρ.step_of_label hlabel, ρ.stays hkeep hle hfirst hP⟩

end Behavior

/-! ## Fairness -/

/-- A label of a set is enabled in a state. -/
def EnabledIn (T : TransitionSystem σ α) (A : α → Prop) (s : σ) : Prop :=
  ∃ a s', A a ∧ T.step s a = some s'

/-- Labels that are enabled from some time on are taken again and again. -/
def WeaklyFair (ρ : T.Behavior) (A : α → Prop) : Prop :=
  (∀ᶠ n in atTop, T.EnabledIn A (ρ.states n)) → ∃ᶠ n in atTop, ρ.Occurs A n

/-- Labels that are enabled again and again are taken again and again. -/
def StronglyFair (ρ : T.Behavior) (A : α → Prop) : Prop :=
  (∃ᶠ n in atTop, T.EnabledIn A (ρ.states n)) → ∃ᶠ n in atTop, ρ.Occurs A n

variable {ρ : T.Behavior} {A : α → Prop}

/-- Strong fairness implies weak fairness. -/
theorem StronglyFair.weaklyFair (h : StronglyFair ρ A) : WeaklyFair ρ A :=
  fun henabled => h henabled.frequently

/-- A weakly fair label is taken, if it stays enabled as long as it is not taken. -/
theorem WeaklyFair.occurs (h : WeaklyFair ρ A) {n : ℕ}
    (henabled : (∀ m, n ≤ m → ¬ ρ.Occurs A m) → ∀ᶠ m in atTop, T.EnabledIn A (ρ.states m)) :
    ∃ m, n ≤ m ∧ ρ.Occurs A m := by
  by_contra hnone
  have hno : ∀ m, n ≤ m → ¬ ρ.Occurs A m := fun m hm hoccurs => hnone ⟨m, hm, hoccurs⟩
  exact hnone (frequently_atTop.mp (h (henabled hno)) n)

/-- A strongly fair label is taken, if it becomes enabled again and again as long as it is
not taken. -/
theorem StronglyFair.occurs (h : StronglyFair ρ A) {n : ℕ}
    (henabled : (∀ m, n ≤ m → ¬ ρ.Occurs A m) → ∃ᶠ m in atTop, T.EnabledIn A (ρ.states m)) :
    ∃ m, n ≤ m ∧ ρ.Occurs A m := by
  by_contra hnone
  have hno : ∀ m, n ≤ m → ¬ ρ.Occurs A m := fun m hm hoccurs => hnone ⟨m, hm, hoccurs⟩
  exact hnone (frequently_atTop.mp (h (henabled hno)) n)

/-! ## Behaviors that come to an end -/

/-- The first labels of a run lead somewhere. -/
theorem run_take {s : σ} {as : List α} (hrun : T.run T.init as = some s) (k : ℕ) :
    ∃ t, T.run T.init (as.take k) = some t := by
  rw [← List.take_append_drop k as, run_append] at hrun
  rcases Option.bind_eq_some_iff.mp hrun with ⟨t, ht, -⟩
  exact ⟨t, ht⟩

/-- A run and then nothing. -/
def Behavior.ofRun {s : σ} {as : List α} (hrun : T.run T.init as = some s) : T.Behavior where
  states k := (T.run T.init (as.take k)).getD T.init
  labels k := as[k]?
  start := rfl
  step k := by
    rcases run_take hrun k with ⟨t, ht⟩
    cases ha : as[k]? with
    | none =>
        have hk : as.length ≤ k := List.getElem?_eq_none_iff.mp ha
        rw [List.take_of_length_le hk, List.take_of_length_le (by omega)]
        rfl
    | some a =>
        rcases run_take hrun (k + 1) with ⟨t', ht'⟩
        have hstep := ht'
        rw [List.take_add_one, ha, run_append, ht] at hstep
        rw [ht, ht']
        simpa [stutter] using hstep

/-- The behavior of a run stays in its last state. -/
theorem Behavior.states_ofRun {s : σ} {as : List α} (hrun : T.run T.init as = some s) {k : ℕ}
    (hk : as.length ≤ k) : (Behavior.ofRun hrun).states k = s := by
  change (T.run T.init (as.take k)).getD T.init = s
  rw [List.take_of_length_le hk, hrun, Option.getD_some]

/-- What is observed after the first labels of a run is observed in its behavior. -/
theorem Behavior.observe_ofRun {s : σ} {as : List α} (hrun : T.run T.init as = some s) {k : ℕ}
    {β : Type*} {f : σ → β} {b : β} (h : (T.run T.init (as.take k)).map f = some b) :
    f ((Behavior.ofRun hrun).states k) = b := by
  rcases Option.map_eq_some_iff.mp h with ⟨t, ht, hb⟩
  change f ((T.run T.init (as.take k)).getD T.init) = b
  rw [ht, Option.getD_some, hb]

/-- A run that ends where no label of a set is enabled is fair to them. -/
theorem stronglyFair_ofRun {s : σ} {as : List α} (hrun : T.run T.init as = some s)
    (hstop : ¬ T.EnabledIn A s) : StronglyFair (Behavior.ofRun hrun) A := by
  intro henabled
  rcases frequently_atTop.mp henabled as.length with ⟨k, hk, hen⟩
  rw [Behavior.states_ofRun hrun hk] at hen
  exact absurd hen hstop

/-! ## Behaviors of parts -/

section Parts

variable {τ β : Type*} {U : TransitionSystem τ β} {f : σ → τ} {g : α → Option β}

/-- If every step is a step of another system, seen through {lit}`f`, or none, then every
behavior is one of the other system. -/
def Behavior.map (hinit : f T.init = U.init)
    (hstep : ∀ s a s', T.step s a = some s' → U.stutter.step (f s) (g a) = some (f s'))
    (ρ : T.Behavior) : U.Behavior where
  states n := f (ρ.states n)
  labels n := (ρ.labels n).bind g
  start := by rw [ρ.start, hinit]
  step n := by
    rcases ρ.step_cases n with ⟨hlabel, hsame⟩ | ⟨a, hlabel, hs⟩
    · rw [hlabel, hsame]
      rfl
    · rw [hlabel]
      exact hstep _ _ _ hs

/-- Labels that are taken for labels of the other system inherit their fairness. -/
theorem StronglyFair.map {hinit : f T.init = U.init}
    {hstep : ∀ s a s', T.step s a = some s' → U.stutter.step (f s) (g a) = some (f s')}
    {B : β → Prop} (hlabels : ∀ a, A a → ∃ b, g a = some b ∧ B b)
    (henabled : ∀ s, U.EnabledIn B (f s) → T.EnabledIn A s) (h : StronglyFair ρ A) :
    StronglyFair (Behavior.map hinit hstep ρ) B := by
  intro hfrequent
  refine (h (hfrequent.mono fun n hen => henabled _ hen)).mono ?_
  rintro n ⟨a, hlabel, hA⟩
  rcases hlabels a hA with ⟨b, hb, hB⟩
  refine ⟨b, ?_, hB⟩
  change (ρ.labels n).bind g = some b
  rw [hlabel]
  exact hb

end Parts

end TransitionSystem

import Mathlib.Data.List.Basic
import Mathlib.Order.OrderIsoNat
import Mathlib.Tactic.Common

/-!
# Transition systems with guarded runs

A transition system is an initial state and a partial step function: the label
of a step resolves every choice of the environment, and {lit}`none` means that
the labelled step is not enabled.  Reachability is relative to a guard on
(state, label) pairs, so that one induction rule serves both the claims about
every run and the claims about the runs whose steps all meet a condition.

Main results:

- Theorem {lit}`ReachableBy.invariant`: a predicate that holds initially and is
  preserved by every guarded step holds in every state reached by such steps.
- Theorem {lit}`run_relation`: a reflexive and transitive relation that every
  step respects relates the two ends of every run.
- Theorem {lit}`Reachable.refines`: a system whose steps are steps of another one
  reaches only what the other one reaches.
- Theorem {lit}`reachable_iff_exists_run`: reachable states are the ends of runs.
- Theorem {lit}`run_translate`: a system is simulated by one that knows the labels to
  come.
- Theorem {lit}`InfiniteRun.finitely_many`: steps that decrease a well-founded
  measure are taken finitely often.

Current gaps:

- Fairness is left to {lit}`Lib.Fairness`.
-/

/-- An initial state and a step function; the label resolves all choices. -/
structure TransitionSystem (σ : Type*) (α : Type*) where
  init : σ
  step : σ → α → Option σ

namespace TransitionSystem

variable {σ α : Type*} (T : TransitionSystem σ α)

/-! ## Runs and reachable states -/

/-- Perform a list of labelled steps, failing as soon as one is not enabled. -/
def run (s : σ) : List α → Option σ
  | [] => some s
  | a :: as => (T.step s a).bind fun s' => run s' as

/-- States reached from the initial one by steps that all meet the guard. -/
inductive ReachableBy (G : σ → α → Prop) : σ → Prop
  | init : ReachableBy G T.init
  | step {s s' : σ} {a : α} (hs : ReachableBy G s) (hG : G s a)
      (hstep : T.step s a = some s') : ReachableBy G s'

/-- States reached from the initial one by any steps. -/
abbrev Reachable : σ → Prop :=
  T.ReachableBy fun _ _ => True

@[simp]
theorem run_nil (s : σ) : T.run s [] = some s :=
  rfl

@[simp]
theorem run_cons (s : σ) (a : α) (as : List α) :
    T.run s (a :: as) = (T.step s a).bind fun s' => T.run s' as :=
  rfl

/-- A run of a concatenation is a run of the second part after the first. -/
theorem run_append (s : σ) (as bs : List α) :
    T.run s (as ++ bs) = (T.run s as).bind fun s' => T.run s' bs := by
  induction as generalizing s with
  | nil => rfl
  | cons a as ih =>
      cases hstep : T.step s a with
      | none => simp [hstep]
      | some s' => simp [hstep, ih]

variable {T}

/-! ## Induction rules -/

/-- Weakening the guard keeps a state reachable. -/
theorem ReachableBy.mono {G H : σ → α → Prop} (hGH : ∀ s a, G s a → H s a)
    {s : σ} (hs : T.ReachableBy G s) : T.ReachableBy H s := by
  induction hs with
  | init => exact .init
  | step _ hG hstep ih => exact .step ih (hGH _ _ hG) hstep

/-- A state reached by guarded steps is reachable. -/
theorem ReachableBy.reachable {G : σ → α → Prop} {s : σ}
    (hs : T.ReachableBy G s) : T.Reachable s :=
  hs.mono fun _ _ _ => trivial

/-- The invariance rule: the step case may use that the source state is
reachable, that the guard holds and that the step is enabled. -/
theorem ReachableBy.invariant {G : σ → α → Prop} {P : σ → Prop}
    (hinit : P T.init)
    (hpres : ∀ s a s', T.ReachableBy G s → G s a → T.step s a = some s' → P s → P s')
    {s : σ} (hs : T.ReachableBy G s) : P s := by
  induction hs with
  | init => exact hinit
  | step hs hG hstep ih => exact hpres _ _ _ hs hG hstep ih

/-- The invariance rule without a guard. -/
theorem Reachable.invariant {P : σ → Prop} (hinit : P T.init)
    (hpres : ∀ s a s', T.Reachable s → T.step s a = some s' → P s → P s')
    {s : σ} (hs : T.Reachable s) : P s :=
  ReachableBy.invariant hinit (fun s a s' hs _ => hpres s a s' hs) hs

/-- Runs stay inside the reachable states. -/
theorem Reachable.of_run {s s' : σ} {as : List α} (hs : T.Reachable s)
    (hrun : T.run s as = some s') : T.Reachable s' := by
  induction as generalizing s with
  | nil =>
      cases hrun
      exact hs
  | cons a as ih =>
      rw [run_cons, Option.bind_eq_some_iff] at hrun
      rcases hrun with ⟨t, hstep, hrest⟩
      exact ih (.step hs trivial hstep) hrest

/-- The refinement rule: if every step is, seen through {lit}`f`, a step of another
system or no step at all, then reachable states are reachable there. -/
theorem Reachable.refines {τ β : Type*} {U : TransitionSystem τ β} {f : σ → τ}
    (hinit : f T.init = U.init)
    (hstep : ∀ s a s', T.Reachable s → T.step s a = some s' →
      f s' = f s ∨ ∃ b, U.step (f s) b = some (f s'))
    {s : σ} (hs : T.Reachable s) : U.Reachable (f s) := by
  induction hs with
  | init =>
      rw [hinit]
      exact .init
  | step hs _ hs' ih =>
      rcases hstep _ _ _ hs hs' with heq | ⟨b, hb⟩
      · rwa [heq]
      · exact .step ih trivial hb

/-- The invariance rule for the runs of a reachable state. -/
theorem Reachable.run_invariant {P : σ → Prop} {s s' : σ} {as : List α}
    (hs : T.Reachable s) (hP : P s)
    (hpres : ∀ s a s', T.Reachable s → T.step s a = some s' → P s → P s')
    (hrun : T.run s as = some s') : P s' := by
  induction as generalizing s with
  | nil =>
      cases hrun
      exact hP
  | cons a as ih =>
      rw [run_cons, Option.bind_eq_some_iff] at hrun
      rcases hrun with ⟨t, hstep, hrest⟩
      exact ih (.step hs trivial hstep) (hpres _ _ _ hs hstep hP) hrest

/-- A run that fails as soon as a step does not meet the guard. -/
def runBy (T : TransitionSystem σ α) (G : σ → α → Prop) [∀ s a, Decidable (G s a)] (s : σ) :
    List α → Option σ
  | [] => some s
  | a :: as => if G s a then (T.step s a).bind fun s' => runBy T G s' as else none

/-- Guarded runs stay inside the states reached by guarded steps. -/
theorem ReachableBy.of_runBy {G : σ → α → Prop} [∀ s a, Decidable (G s a)] {s s' : σ}
    {as : List α} (hs : T.ReachableBy G s) (hrun : T.runBy G s as = some s') :
    T.ReachableBy G s' := by
  induction as generalizing s with
  | nil =>
      cases hrun
      exact hs
  | cons a as ih =>
      rw [runBy] at hrun
      split at hrun
      · rename_i hG
        rw [Option.bind_eq_some_iff] at hrun
        rcases hrun with ⟨t, hstep, hrest⟩
        exact ih (.step hs hG hstep) hrest
      · cases hrun

/-- Reachable states are exactly the ends of the runs of the initial state. -/
theorem reachable_iff_exists_run {s : σ} :
    T.Reachable s ↔ ∃ as, T.run T.init as = some s := by
  constructor
  · intro hs
    induction hs with
    | init => exact ⟨[], rfl⟩
    | @step _ _ a _ _ hstep ih =>
        rcases ih with ⟨as, has⟩
        refine ⟨as ++ [a], ?_⟩
        rw [run_append, has]
        simp [hstep]
  · rintro ⟨as, has⟩
    exact Reachable.of_run .init has

/-- What is observed at the end of a run is observed in a reachable state. -/
theorem exists_reachable_of_run {β : Type*} {f : σ → β} {as : List α} {b : β}
    (h : (T.run T.init as).map f = some b) :
    ∃ s, T.run T.init as = some s ∧ f s = b ∧ T.Reachable s := by
  rcases Option.map_eq_some_iff.mp h with ⟨s, hrun, hs⟩
  exact ⟨s, hrun, hs, reachable_iff_exists_run.mpr ⟨as, hrun⟩⟩

/-- A reflexive and transitive relation respected by every step relates the two
ends of every run. -/
theorem run_relation {R : σ → σ → Prop} (hrefl : ∀ s, R s s)
    (htrans : ∀ {s t u : σ}, R s t → R t u → R s u)
    (hstep : ∀ s a s', T.step s a = some s' → R s s')
    {s s' : σ} {as : List α} (hrun : T.run s as = some s') : R s s' := by
  induction as generalizing s with
  | nil =>
      cases hrun
      exact hrefl _
  | cons a as ih =>
      rw [run_cons, Option.bind_eq_some_iff] at hrun
      rcases hrun with ⟨t, ht, hrest⟩
      exact htrans (hstep _ _ _ ht) (ih hrest)

/-- What none of some labels breaks holds at the end of a run with these labels. -/
theorem run_keeps {P : σ → Prop} {s s' : σ} {as : List α}
    (hkeep : ∀ a ∈ as, ∀ s s', T.step s a = some s' → P s → P s') (hP : P s)
    (hrun : T.run s as = some s') : P s' := by
  induction as generalizing s with
  | nil =>
      cases hrun
      exact hP
  | cons a as ih =>
      rw [run_cons, Option.bind_eq_some_iff] at hrun
      rcases hrun with ⟨t, ht, hrest⟩
      exact ih (fun a' ha' => hkeep a' (List.mem_cons_of_mem _ ha'))
        (hkeep a List.mem_cons_self _ _ ht hP) hrest

/-! ## Predictions -/

/-- Labels that are translated one by one, each in the light of those after it. -/
def translate {β : Type*} (f : α → List α → List β) : List α → List β
  | [] => []
  | a :: as => f a as ++ translate f as

/-- The rule for a system that knows more about the future: if every step is a run of the
other system, and the relation between the states may look at the labels to come, then
every run is a run of the other system. -/
theorem run_translate {τ β : Type*} {U : TransitionSystem τ β} {f : α → List α → List β}
    {R : List α → σ → τ → Prop}
    (hstep : ∀ a as s s' t, R (a :: as) s t → T.step s a = some s' →
      ∃ t', U.run t (f a as) = some t' ∧ R as s' t')
    {as : List α} {s s' : σ} {t : τ} (hR : R as s t) (hrun : T.run s as = some s') :
    ∃ t', U.run t (translate f as) = some t' ∧ R [] s' t' := by
  induction as generalizing s t with
  | nil =>
      cases hrun
      exact ⟨t, rfl, hR⟩
  | cons a as ih =>
      rw [run_cons, Option.bind_eq_some_iff] at hrun
      rcases hrun with ⟨u, hu, hrest⟩
      rcases hstep a as s u t hR hu with ⟨t₁, hrun₁, hR₁⟩
      rcases ih hR₁ hrest with ⟨t', hrun', hR'⟩
      refine ⟨t', ?_, hR'⟩
      rw [translate, run_append, hrun₁]
      exact hrun'

/-! ## The steps of a run -/

/-- Every step of a run is related to the states around it by {lit}`Q`. -/
def Along (T : TransitionSystem σ α) (Q : σ → α → σ → Prop) (s : σ) : List α → Prop
  | [] => True
  | a :: as => ∀ s', T.step s a = some s' → Q s a s' ∧ Along T Q s' as

/-- A property of the steps between reachable states holds along every run. -/
theorem Reachable.along {Q : σ → α → σ → Prop}
    (hQ : ∀ s a s', T.Reachable s → T.step s a = some s' → Q s a s')
    {s : σ} (hs : T.Reachable s) (as : List α) : T.Along Q s as := by
  induction as generalizing s with
  | nil => exact trivial
  | cons a as ih => exact fun s' hstep => ⟨hQ s a s' hs hstep, ih (.step hs trivial hstep)⟩

/-! ## Infinite runs -/

/-- An infinite run: its states, and the labels of its steps. -/
structure InfiniteRun (T : TransitionSystem σ α) (s : σ) where
  states : ℕ → σ
  labels : ℕ → α
  start : states 0 = s
  step : ∀ n, T.step (states n) (labels n) = some (states (n + 1))

namespace InfiniteRun

variable {s : σ} (ρ : T.InfiniteRun s)

theorem reachable (hs : T.Reachable s) (n : ℕ) : T.Reachable (ρ.states n) := by
  induction n with
  | zero => rwa [ρ.start]
  | succ n ih => exact .step ih trivial (ρ.step n)

/-- The invariance rule for the states of an infinite run. -/
theorem invariant {P : σ → Prop} (hs : T.Reachable s) (hP : P s)
    (hpres : ∀ s a s', T.Reachable s → T.step s a = some s' → P s → P s') (n : ℕ) :
    P (ρ.states n) := by
  induction n with
  | zero => rwa [ρ.start]
  | succ n ih => exact hpres _ _ _ (ρ.reachable hs n) (ρ.step n) ih

/-- If no step increases a well-founded measure, then the steps that decrease it
come to an end. -/
theorem finitely_many {β : Type*} [PartialOrder β] [WellFoundedLT β] (μ : σ → β)
    (A : α → Prop) (hle : ∀ n, μ (ρ.states (n + 1)) ≤ μ (ρ.states n))
    (hlt : ∀ n, A (ρ.labels n) → μ (ρ.states (n + 1)) < μ (ρ.states n)) :
    ∃ n, ∀ m, n ≤ m → ¬ A (ρ.labels m) := by
  have hanti : Antitone fun n => μ (ρ.states n) := antitone_nat_of_succ_le hle
  rcases WellFoundedLT.antitone_chain_condition hanti with ⟨n, hn⟩
  refine ⟨n, fun m hm hA => ?_⟩
  have heq : μ (ρ.states (m + 1)) = μ (ρ.states m) :=
    (hn (m + 1) (by omega)).symm.trans (hn m hm)
  exact (hlt m hA).ne heq

end InfiniteRun

end TransitionSystem

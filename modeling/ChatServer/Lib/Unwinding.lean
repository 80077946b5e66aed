import ChatServer.Lib.TransitionSystem

/-!
# Purged runs

Noninterference of transition systems, by unwinding.  Some steps of a run are kept
and the others are dropped.  If a relation between states is respected by the kept
steps, taken on both sides, and by the dropped ones, taken on the left side alone,
then the kept steps are a run as well, and whatever cannot be observed of the
dropped steps is observed equally of both runs.

The conditions may depend on what holds along the run that is purged, and so on how
it ends.

Main results:

- Theorem {lit}`Unwinding.exists_run_purge`: the kept steps are a run.
- Theorem {lit}`Unwinding.trace_purge`: both runs have the same trace.

Current gaps:

- Runs are finite.
-/

namespace TransitionSystem

variable {σ α ω : Type*} (T : TransitionSystem σ α)

/-! ## Traces and purged schedules -/

/-- What is observed of the steps of a run, one after the other. -/
def trace (f : σ → α → σ → List ω) : σ → List α → List ω
  | _, [] => []
  | s, a :: as =>
      match T.step s a with
      | none => []
      | some s' => f s a s' ++ trace f s' as

/-- The labels of the steps of a run that are kept. -/
def purge (K : σ → α → Prop) [∀ s a, Decidable (K s a)] : σ → List α → List α
  | _, [] => []
  | s, a :: as =>
      match T.step s a with
      | none => []
      | some s' => if K s a then a :: purge K s' as else purge K s' as

variable {T}

/-- The trace of a run begins with what its first step shows. -/
theorem trace_cons {f : σ → α → σ → List ω} {s s' : σ} {a : α} (h : T.step s a = some s')
    (as : List α) : T.trace f s (a :: as) = f s a s' ++ T.trace f s' as := by
  rw [trace, h]

section

variable {K : σ → α → Prop} [∀ s a, Decidable (K s a)] {s s' : σ} {a : α}

/-- A step that is kept stays in the purged run. -/
theorem purge_cons_of_kept (h : T.step s a = some s') (hK : K s a) (as : List α) :
    T.purge K s (a :: as) = a :: T.purge K s' as := by
  rw [purge, h]
  exact if_pos hK

/-- A step that is dropped is missing in the purged run. -/
theorem purge_cons_of_dropped (h : T.step s a = some s') (hK : ¬ K s a) (as : List α) :
    T.purge K s (a :: as) = T.purge K s' as := by
  rw [purge, h]
  exact if_neg hK

/-- A purged schedule is what is left of the schedule. -/
theorem purge_sublist (s : σ) (as : List α) : (T.purge K s as).Sublist as := by
  induction as generalizing s with
  | nil => exact .slnil
  | cons a as ih =>
      rw [purge]
      split
      · exact List.nil_sublist _
      · rename_i s' _
        split
        · exact (ih s').cons_cons a
        · exact (ih s').cons a

/-- What holds of the labels of kept steps holds of all labels that are left. -/
theorem of_mem_purge {Q : α → Prop} (hQ : ∀ s a, K s a → Q a) {as : List α}
    (ha : a ∈ T.purge K s as) : Q a := by
  induction as generalizing s with
  | nil => cases ha
  | cons b as ih =>
      rw [purge] at ha
      split at ha
      · cases ha
      · rename_i s' _
        split at ha
        · rename_i hK
          rcases List.mem_cons.mp ha with rfl | hmem
          · exact hQ s a hK
          · exact ih hmem
        · exact ih ha

end

/-! ## Unwinding -/

/-- A relation that the kept steps respect on both sides, and the dropped steps on
the left, as far as {lit}`Q` holds of the step on the left. -/
structure Unwinding (T : TransitionSystem σ α) (K : σ → α → Prop) (Q : σ → α → σ → Prop)
    (R : σ → σ → Prop) : Prop where
  kept : ∀ {s t s' : σ} {a : α}, R s t → T.step s a = some s' → Q s a s' → K s a →
    ∃ t', T.step t a = some t' ∧ R s' t'
  dropped : ∀ {s t s' : σ} {a : α}, R s t → T.step s a = some s' → Q s a s' → ¬ K s a →
    R s' t

namespace Unwinding

variable {K : σ → α → Prop} [∀ s a, Decidable (K s a)] {Q : σ → α → σ → Prop}
  {R : σ → σ → Prop} {s t s' : σ} {as : List α}

/-- The kept steps are a run. -/
theorem exists_run_purge (h : T.Unwinding K Q R) (hR : R s t) (hQ : T.Along Q s as)
    (hrun : T.run s as = some s') :
    ∃ t', T.run t (T.purge K s as) = some t' ∧ R s' t' := by
  induction as generalizing s t with
  | nil =>
      cases hrun
      exact ⟨t, rfl, hR⟩
  | cons a as ih =>
      rw [run_cons, Option.bind_eq_some_iff] at hrun
      rcases hrun with ⟨s₁, hstep, hrest⟩
      rcases hQ s₁ hstep with ⟨hhere, hlater⟩
      by_cases hK : K s a
      · rcases h.kept hR hstep hhere hK with ⟨t₁, ht₁, hR₁⟩
        rcases ih hR₁ hlater hrest with ⟨t', ht', hR'⟩
        refine ⟨t', ?_, hR'⟩
        rw [purge_cons_of_kept hstep hK, run_cons, ht₁, Option.bind_some, ht']
      · rw [purge_cons_of_dropped hstep hK]
        exact ih (h.dropped hR hstep hhere hK) hlater hrest

/-- If kept steps look the same on both sides and dropped steps cannot be observed,
then the purged run has the trace of the run. -/
theorem trace_purge (h : T.Unwinding K Q R) {f : σ → α → σ → List ω}
    (hkept : ∀ {s t s' t' : σ} {a : α}, R s t → T.step s a = some s' → Q s a s' → K s a →
      T.step t a = some t' → R s' t' → f t a t' = f s a s')
    (hdropped : ∀ {s t s' : σ} {a : α}, R s t → T.step s a = some s' → Q s a s' → ¬ K s a →
      R s' t → f s a s' = [])
    (hR : R s t) (hQ : T.Along Q s as) (hrun : T.run s as = some s') :
    T.trace f t (T.purge K s as) = T.trace f s as := by
  induction as generalizing s t with
  | nil => rfl
  | cons a as ih =>
      rw [run_cons, Option.bind_eq_some_iff] at hrun
      rcases hrun with ⟨s₁, hstep, hrest⟩
      rcases hQ s₁ hstep with ⟨hhere, hlater⟩
      by_cases hK : K s a
      · rcases h.kept hR hstep hhere hK with ⟨t₁, ht₁, hR₁⟩
        rw [purge_cons_of_kept hstep hK, trace_cons ht₁, trace_cons hstep,
          hkept hR hstep hhere hK ht₁ hR₁, ih hR₁ hlater hrest]
      · have hR₁ := h.dropped hR hstep hhere hK
        rw [purge_cons_of_dropped hstep hK, trace_cons hstep,
          hdropped hR hstep hhere hK hR₁, List.nil_append]
        exact ih hR₁ hlater hrest

end Unwinding

/-- What holds of the steps from which the end of a run is reached holds along it. -/
theorem Reachable.along_of_run {Q : σ → α → σ → Prop} {s e : σ} {as : List α}
    (hs : T.Reachable s)
    (hQ : ∀ s a s' bs, T.Reachable s → T.step s a = some s' → T.run s' bs = some e → Q s a s')
    (hrun : T.run s as = some e) : T.Along Q s as := by
  induction as generalizing s with
  | nil => exact trivial
  | cons a as ih =>
      intro s' hstep
      rw [run_cons, hstep, Option.bind_some] at hrun
      exact ⟨hQ s a s' as hs hstep hrun, ih (.step hs trivial hstep) hrun⟩

end TransitionSystem

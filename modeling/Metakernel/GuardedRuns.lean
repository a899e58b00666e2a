import Mathlib.Tactic.Common

/-!
# Runs and simulation

A system is a step function that may refuse an event. A guard singles out the runs all of
whose steps it admits; it sees the state before the step and the event. As a relation between a
state, an event and the next state, one system refines another one when every trace of the first is
a trace of the second.
-/
namespace GuardedRuns

variable {σ ε : Type*}

inductive Execution (step : σ → ε → Option σ) (Guard : σ → ε → Prop) : σ → σ → Prop where
  | refl (s) : Execution step Guard s s
  | tail {s t u e} : Execution step Guard s t → Guard t e → step t e = some u →
      Execution step Guard s u

section Steps

variable {step : σ → ε → Option σ} {Guard : σ → ε → Prop}

/-- What every admitted step keeps holds in every state a run reaches. -/
theorem Execution.preserves {I : σ → Prop} (hstep : ∀ s e t, I s → Guard s e →
    step s e = some t → I t) {s t : σ} (h : Execution step Guard s t) (hs : I s) : I t := by
  induction h with
  | refl => exact hs
  | tail _ hg he ih => exact hstep _ _ _ ih hg he

/-- Carries out the events in turn, as long as they are admitted and not refused. -/
def follow (step : σ → ε → Option σ) (Guard : σ → ε → Prop)
    [∀ s e, Decidable (Guard s e)] : σ → List ε → Option σ
  | s, [] => some s
  | s, e :: es => if Guard s e then (step s e).bind fun t => follow step Guard t es else none

theorem Execution.trans {s t u : σ} (h : Execution step Guard s t)
    (h' : Execution step Guard t u) : Execution step Guard s u := by
  induction h' with
  | refl => exact h
  | tail _ hg he ih => exact ih.tail hg he

theorem Execution.weaken {Guard' : σ → ε → Prop} (hG : ∀ s e, Guard s e → Guard' s e) {s t : σ}
    (h : Execution step Guard s t) : Execution step Guard' s t := by
  induction h with
  | refl => exact .refl _
  | tail _ hg he ih => exact ih.tail (hG _ _ hg) he

theorem execution_of_follow [∀ s e, Decidable (Guard s e)] {s t : σ} {es : List ε}
    (h : follow step Guard s es = some t) : Execution step Guard s t := by
  induction es generalizing s with
  | nil =>
    cases h
    exact .refl _
  | cons e es ih =>
    rw [follow] at h
    split at h
    · rename_i hg
      obtain ⟨u, hu, ht⟩ := Option.bind_eq_some_iff.mp h
      exact Execution.trans (.tail (.refl s) hg hu) (ih ht)
    · cases h

end Steps

section Traces

inductive Trace (step : σ → ε → σ → Prop) : σ → List ε → σ → Prop where
  | nil (s) : Trace step s [] s
  | cons {s t u e es} : step s e t → Trace step t es u → Trace step s (e :: es) u

variable {τ : Type*} {step : σ → ε → σ → Prop} {step' : τ → ε → τ → Prop}

theorem Trace.append {s t u : σ} {es es' : List ε} (h : Trace step s es t)
    (h' : Trace step t es' u) : Trace step s (es ++ es') u := by
  induction h with
  | nil => exact h'
  | cons hstep _ ih => exact .cons hstep (ih h')

/-- What every step keeps holds in every state that a trace reaches. -/
theorem Trace.preserves {I : σ → Prop} (hstep : ∀ s e t, I s → step s e t → I t) {s t : σ}
    {es : List ε} (h : Trace step s es t) (hs : I s) : I t := by
  induction h with
  | nil => exact hs
  | cons he _ ih => exact ih (hstep _ _ _ hs he)

/-- Forward simulation: what is matched step by step is matched over whole traces. -/
theorem Trace.simulates {R : σ → τ → Prop}
    (hstep : ∀ s x e t, R s x → step s e t → ∃ y, step' x e y ∧ R t y) {s t : σ} {x : τ}
    {es : List ε} (h : Trace step s es t) (hx : R s x) : ∃ y, Trace step' x es y ∧ R t y := by
  induction h generalizing x with
  | nil => exact ⟨x, .nil x, hx⟩
  | cons he _ ih =>
    obtain ⟨y, hy, hR⟩ := hstep _ _ _ _ hx he
    obtain ⟨z, hz, hR'⟩ := ih hR
    exact ⟨z, .cons hy hz, hR'⟩

theorem trace_of_follow {next : σ → ε → Option σ} {Guard : σ → ε → Prop}
    [∀ s e, Decidable (Guard s e)] {s t : σ} {es : List ε} (h : follow next Guard s es = some t) :
    Trace (fun s e t => Guard s e ∧ next s e = some t) s es t := by
  induction es generalizing s with
  | nil =>
    cases h
    exact .nil _
  | cons e es ih =>
    rw [follow] at h
    split at h
    · rename_i hg
      obtain ⟨u, hu, ht⟩ := Option.bind_eq_some_iff.mp h
      exact .cons ⟨hg, hu⟩ (ih ht)
    · cases h

end Traces

instance three_parties : @NeZero ℕ Zero.ofOfNat0 3 := Nat.instNeZeroSucc

end GuardedRuns

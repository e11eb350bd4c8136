import Mathlib.Logic.Basic

/-!
# Loops that a measure ends

A loop is a step that goes on or halts. When every step that goes on makes a measure
smaller, the measure of the first state bounds the rounds, and what the loop comes to is
the same from every state it passes.
-/

namespace Loops

variable {σ ρ : Type*}

inductive Next (σ ρ : Type*) where
  | go (s : σ)
  | halt (r : ρ)

def loop (step : σ → Next σ ρ) : Nat → σ → Option ρ
  | 0, _ => none
  | n + 1, s =>
    match step s with
    | .go s' => loop step n s'
    | .halt r => some r

def Descends (step : σ → Next σ ρ) (μ : σ → Nat) : Prop := ∀ {s s'}, step s = .go s' → μ s' < μ s

def run (step : σ → Next σ ρ) (μ : σ → Nat) (s : σ) : Option ρ := loop step (μ s + 1) s

def resume (step : σ → Next σ ρ) (μ : σ → Nat) : Next σ ρ → Option ρ
  | .go s => run step μ s
  | .halt r => some r

section
variable {step : σ → Next σ ρ} {μ : σ → Nat} {s s' : σ} {r : ρ}

theorem loop_go (h : step s = .go s') (n : Nat) : loop step (n + 1) s = loop step n s' := by
  rw [loop, h]

theorem loop_halt (h : step s = .halt r) (n : Nat) : loop step (n + 1) s = some r := by
  rw [loop, h]

theorem run_halt (h : step s = .halt r) : run step μ s = some r := loop_halt h _

variable (hμ : Descends step μ)

include hμ in
theorem loop_eq_run : ∀ {n : Nat} {s : σ}, μ s < n → loop step n s = run step μ s
  | n + 1, s, hn => by
    cases h : step s with
    | go s' =>
      have hlt := hμ h
      rw [run, loop_go h, loop_go h, loop_eq_run (n := n) (by omega), ← loop_eq_run hlt]
    | halt r => rw [loop_halt h, run_halt h]

include hμ in
theorem run_go (h : step s = .go s') : run step μ s = run step μ s' := by
  rw [run, loop_go h, loop_eq_run hμ (hμ h)]

include hμ in
/-- A round and what follows. -/
theorem run_eq_resume (s : σ) : run step μ s = resume step μ (step s) := by
  cases h : step s with
  | go s' => exact run_go hμ h
  | halt r => exact run_halt h

include hμ in
/-- **Termination**. -/
theorem run_ends (s : σ) : run step μ s ≠ none := by
  induction s using (measure μ).wf.induction with
  | _ s ih =>
    rw [run_eq_resume hμ]
    cases h : step s with
    | go s' => exact ih s' (hμ h)
    | halt r => exact Option.some_ne_none r

/-- **Partial correctness**: an invariant of the rounds that says enough where the loop halts. -/
theorem run_spec {P : σ → Prop} {Q : ρ → Prop} (hgo : ∀ {s s'}, P s → step s = .go s' → P s')
    (hhalt : ∀ {s r}, P s → step s = .halt r → Q r) (hs : P s) (h : run step μ s = some r) : Q r := by
  have hloop : ∀ {n s}, P s → loop step n s = some r → Q r := by
    intro n
    induction n with
    | zero => intro s _ h; cases h
    | succ n ih =>
      intro s hs h
      cases hstep : step s with
      | go s' =>
        rw [loop_go hstep] at h
        exact ih (hgo hs hstep) h
      | halt r' =>
        rw [loop_halt hstep] at h
        cases h
        exact hhalt hs hstep
  exact hloop hs h

end

end Loops

import Mathlib.Logic.Basic

/-!
# Machines that answer

A machine takes a request to an answer and a next state. Two machines whose steps answer the
same in related states, and lead to related states, cannot be told apart by their answers.
-/

namespace Machines

variable {σ τ ι ο : Type*}

def responses (step : σ → ι → ο × σ) : σ → List ι → List ο
  | _, [] => []
  | s, i :: is => (step s i).1 :: responses step (step s i).2 is

def final (step : σ → ι → ο × σ) (s : σ) (is : List ι) : σ := is.foldl (fun s i => (step s i).2) s

def Mirrors (step : σ → ι → ο × σ) (step' : τ → ι → ο × τ) (r : σ → τ → Prop) : Prop :=
  ∀ {s t}, r s t → ∀ i, (step s i).1 = (step' t i).1 ∧ r (step s i).2 (step' t i).2

section
variable {step : σ → ι → ο × σ} {step' : τ → ι → ο × τ} {r : σ → τ → Prop} (h : Mirrors step step' r)
include h

theorem final_related {s : σ} {t : τ} (hr : r s t) (is : List ι) : r (final step s is) (final step' t is) := by
  induction is generalizing s t with
  | nil => exact hr
  | cons i is ih => exact ih (h hr i).2

theorem responses_eq {s : σ} {t : τ} (hr : r s t) (is : List ι) : responses step s is = responses step' t is := by
  induction is generalizing s t with
  | nil => rfl
  | cons i is ih =>
    obtain ⟨ha, hr'⟩ := h hr i
    rw [responses, responses, ha, ih hr']

/-- Where the second machine's state determines the first's, the first's is a function of it. -/
theorem final_eq_map (hinj : ∀ {s s' t}, r s t → r s' t → s = s') {s : σ} {t : τ} (hr : r s t) :
    ∃ f : τ → σ, ∀ is, final step s is = f (final step' t is) := by
  classical
  refine ⟨fun t' => if ht : ∃ s', r s' t' then ht.choose else s, fun is => ?_⟩
  have hrelated := final_related h hr is
  have hex : ∃ s', r s' (final step' t is) := ⟨_, hrelated⟩
  simp only [dif_pos hex]
  exact hinj hrelated hex.choose_spec

end

end Machines

import Mathlib.Data.List.Basic

/-!
# Runs of a step function

A system is a step function on states and events, and a run is a list of
events. `Along G` says that every event of a run satisfies `G` in the state it
finds. What one step preserves under `G`, a whole run preserves along `G`.
-/

namespace Runs

variable {σ τ ε δ : Type*}

def run (step : σ → ε → σ) (s : σ) (evs : List ε) : σ := evs.foldl step s

section
variable (step : σ → ε → σ)

@[simp] theorem run_nil (s : σ) : run step s [] = s := rfl

@[simp] theorem run_cons (s : σ) (e : ε) (evs : List ε) :
    run step s (e :: evs) = run step (step s e) evs := rfl

theorem run_append (s : σ) (l₁ l₂ : List ε) : run step s (l₁ ++ l₂) = run step (run step s l₁) l₂ :=
  List.foldl_append

theorem run_concat (s : σ) (evs : List ε) (e : ε) : run step s (evs ++ [e]) = step (run step s evs) e := by
  rw [run_append]; rfl

/-- Every event of the run satisfies `G` in the state it finds. -/
def Along (G : σ → ε → Prop) : σ → List ε → Prop
  | _, [] => True
  | s, e :: evs => G s e ∧ Along G (step s e) evs

instance instDecidableAlong {G : σ → ε → Prop} [∀ s e, Decidable (G s e)] :
    ∀ (s : σ) (evs : List ε), Decidable (Along step G s evs)
  | _, [] => isTrue trivial
  | s, e :: evs => @instDecidableAnd _ _ _ (instDecidableAlong (step s e) evs)

variable {step}

theorem along_append {G : σ → ε → Prop} {s : σ} {l₁ l₂ : List ε} :
    Along step G s (l₁ ++ l₂) ↔ Along step G s l₁ ∧ Along step G (run step s l₁) l₂ := by
  induction l₁ generalizing s with
  | nil => simp [Along]
  | cons e l₁ ih => simp only [List.cons_append, Along, ih, and_assoc, run_cons]

theorem Along.mono {G H : σ → ε → Prop} (h : ∀ s e, G s e → H s e) :
    ∀ {evs : List ε} {s : σ}, Along step G s evs → Along step H s evs
  | [], _, _ => trivial
  | _ :: _, _, ha => ⟨h _ _ ha.1, ha.2.mono h⟩

theorem Along.and {G H : σ → ε → Prop} :
    ∀ {evs : List ε} {s : σ}, Along step G s evs → Along step H s evs → Along step (fun s e => G s e ∧ H s e) s evs
  | [], _, _, _ => trivial
  | _ :: _, _, hg, hh => ⟨⟨hg.1, hh.1⟩, hg.2.and hh.2⟩

theorem along_congr {I : σ → Prop} {G H : σ → ε → Prop} (hI : ∀ s e, I s → I (step s e)) (h : ∀ s e, I s → (G s e ↔ H s e)) :
    ∀ {evs : List ε} {s : σ}, I s → (Along step G s evs ↔ Along step H s evs)
  | [], _, _ => Iff.rfl
  | e :: _, s, hs => and_congr (h s e hs) (along_congr hI h (hI s e hs))

theorem along_true (s : σ) (evs : List ε) : Along step (fun _ _ => True) s evs := by
  induction evs generalizing s with
  | nil => trivial
  | cons e evs ih => exact ⟨trivial, ih _⟩

theorem along_iff_each {G : σ → ε → Prop} : ∀ {evs : List ε} {s : σ},
    Along step G s evs ↔ ∀ l e, l ++ [e] <+: evs → G (run step s l) e
  | [], _ => iff_of_true trivial fun l e h => absurd (List.prefix_nil.mp h) (by simp)
  | e :: evs, s => by
    rw [Along, along_iff_each]
    constructor
    · intro h l e' hpre
      cases l with
      | nil =>
        rw [(List.cons_prefix_cons.mp hpre).1]
        exact h.1
      | cons a l =>
        obtain ⟨rfl, htail⟩ := List.cons_prefix_cons.mp hpre
        exact h.2 l e' htail
    · intro h
      exact ⟨h [] e (List.prefix_append [e] evs), fun l e' hpre => h (e :: l) e' ((List.prefix_cons_inj e).mpr hpre)⟩

theorem along_of_mem {G : σ → ε → Prop} :
    ∀ {evs : List ε} {s : σ}, (∀ e ∈ evs, ∀ s, G s e) → Along step G s evs
  | [], _, _ => trivial
  | e :: _, s, h => ⟨h e List.mem_cons_self s, along_of_mem fun e' he' => h e' (List.mem_cons_of_mem _ he')⟩

/-- **Invariants.** What a step keeps under `G`, a run along `G` keeps. -/
theorem run_inv {P : σ → Prop} {G : σ → ε → Prop} (hstep : ∀ s e, P s → G s e → P (step s e)) :
    ∀ {evs : List ε} {s : σ}, P s → Along step G s evs → P (run step s evs)
  | [], _, h, _ => h
  | e :: _, s, h, ha => by
    rw [run_cons]; exact run_inv hstep (hstep s e h ha.1) ha.2

/-- If, under an invariant, a step keeps `P` exactly when it satisfies `G`, then `P`
holds in every state of a run exactly when the run goes along `G`. -/
theorem along_iff {I P : σ → Prop} {G : σ → ε → Prop} (hI : ∀ s e, I s → I (step s e))
    (hstep : ∀ s e, I s → P s → (P (step s e) ↔ G s e)) :
    ∀ {evs : List ε} {s : σ}, I s → P s → ((∀ evs', evs' <+: evs → P (run step s evs')) ↔ Along step G s evs)
  | [], s, _, hs => by
    refine iff_of_true (fun evs' hpre => ?_) trivial
    rw [List.prefix_nil.mp hpre]; exact hs
  | e :: evs, s, hi, hs => by
    rw [Along, ← hstep s e hi hs]
    constructor
    · intro h
      have he : P (step s e) := h [e] ((List.prefix_append [e] evs))
      refine ⟨he, (along_iff hI hstep (hI s e hi) he).mp fun evs' hpre => ?_⟩
      exact h (e :: evs') ((List.prefix_cons_inj e).mpr hpre)
    · intro h evs' hpre
      cases evs' with
      | nil => exact hs
      | cons e' evs' =>
        obtain ⟨rfl, htail⟩ := List.cons_prefix_cons.mp hpre
        exact (along_iff hI hstep (hI s e' hi) h.1).mpr h.2 evs' htail

/-- What a step reveals of itself and of the state it finds, the end of a run reveals of
the whole run. -/
theorem along_of_run {I P : σ → Prop} {G : σ → ε → Prop} (hI : ∀ s e, I s → I (step s e))
    (hback : ∀ s e, I s → P (step s e) → P s ∧ G s e) :
    ∀ {evs : List ε} {s : σ}, I s → P (run step s evs) → P s ∧ Along step G s evs
  | [], _, _, h => ⟨h, trivial⟩
  | e :: evs, s, hi, h => by
    obtain ⟨hnext, hrest⟩ := along_of_run hI hback (hI s e hi) h
    obtain ⟨hs, he⟩ := hback s e hi hnext
    exact ⟨hs, he, hrest⟩

theorem along_inv {P : σ → Prop} {G : σ → ε → Prop} (hstep : ∀ s e, P s → G s e → P (step s e)) :
    ∀ {evs : List ε} {s : σ}, P s → Along step G s evs → Along step (fun s e => P s ∧ G s e) s evs
  | [], _, _, _ => trivial
  | e :: _, _, h, ha => ⟨⟨h, ha.1⟩, along_inv hstep (hstep _ e h ha.1) ha.2⟩

end

/-- **Simulation.** If each step of one system is matched by some steps of the
other, so is each run. -/
theorem run_sim {step : σ → ε → σ} {step' : τ → δ → τ} {R : σ → τ → Prop} {G : σ → ε → Prop}
    {f : ε → List δ} (hstep : ∀ s t e, R s t → G s e → R (step s e) (run step' t (f e))) :
    ∀ {evs : List ε} {s : σ} {t : τ}, R s t → Along step G s evs →
      R (run step s evs) (run step' t (evs.flatMap f))
  | [], _, _, h, _ => h
  | e :: evs, s, t, h, ha => by
    rw [run_cons, List.flatMap_cons, run_append]
    exact run_sim hstep (hstep s t e h ha.1) ha.2

/-- **Lockstep.** Two systems that every event leaves related stay related. -/
theorem run_lockstep {step : σ → ε → σ} {step' : τ → ε → τ} {R : σ → τ → Prop}
    (hstep : ∀ s t e, R s t → R (step s e) (step' t e)) :
    ∀ {evs : List ε} {s : σ} {t : τ}, R s t → R (run step s evs) (run step' t evs)
  | [], _, _, h => h
  | e :: evs, s, t, h => by
    rw [run_cons, run_cons]
    exact run_lockstep hstep (hstep s t e h)

/-- **Purging.** If the kept events act alike on related states and the dropped
ones keep the relation, dropping them from a run is not seen by the relation. -/
theorem run_purge {step : σ → ε → σ} {R : σ → σ → Prop} {G : ε → Prop} (keep : ε → Bool)
    (hkeep : ∀ s t e, R s t → G e → keep e = true → R (step s e) (step t e))
    (hdrop : ∀ s t e, R s t → G e → keep e = false → R (step s e) t) :
    ∀ {evs : List ε} {s t : σ}, R s t → (∀ e ∈ evs, G e) →
      R (run step s evs) (run step t (evs.filter keep))
  | [], _, _, h, _ => h
  | e :: evs, s, t, h, hG => by
    have hG' : ∀ e ∈ evs, G e := fun x hx => hG x (List.mem_cons_of_mem _ hx)
    have he := hG e List.mem_cons_self
    cases hk : keep e with
    | true =>
      rw [List.filter_cons_of_pos hk, run_cons, run_cons]
      exact run_purge keep hkeep hdrop (hkeep s t e h he hk) hG'
    | false =>
      rw [List.filter_cons_of_neg (by simp [hk]), run_cons]
      exact run_purge keep hkeep hdrop (hdrop s t e h he hk) hG'

end Runs

import Mathlib.Data.List.TakeWhile

/-!
# Maximal runs

The maximal non-empty runs of a list between separators are the pieces that are left when
it is split at every separator and the empty pieces are dropped.
-/

namespace MaximalRuns

variable {α : Type*}

/-- Separators, then a run that ends at the next separator or with the list, and so on. -/
inductive Runs (p : α → Bool) : List α → List (List α) → Prop
  | gap {g : List α} (hg : ∀ a ∈ g, p a = true) : Runs p g []
  | run {g t rest : List α} {ts : List (List α)} (hg : ∀ a ∈ g, p a = true) (hne : t ≠ []) (ht : ∀ a ∈ t, p a = false)
    (hend : ∀ a ∈ rest.head?, p a = true) (hrest : Runs p rest ts) : Runs p (g ++ (t ++ rest)) (t :: ts)

def pieces (p : α → Bool) (xs : List α) : List (List α) := (xs.splitOnP p).filter (· ≠ [])

variable {p : α → Bool}

@[simp] theorem pieces_nil : pieces p [] = [] := rfl

theorem pieces_sep {a : α} (ha : p a = true) (xs : List α) : pieces p (a :: xs) = pieces p xs := by
  rw [pieces, List.splitOnP_cons_eq_if_modifyHead, if_pos ha]
  rfl

theorem pieces_gap {g : List α} (hg : ∀ a ∈ g, p a = true) (xs : List α) : pieces p (g ++ xs) = pieces p xs := by
  induction g with
  | nil => rfl
  | cons a g ih =>
    rw [List.cons_append, pieces_sep (hg a List.mem_cons_self)]
    exact ih fun b hb => hg b (List.mem_cons_of_mem a hb)

theorem pieces_run {t : List α} (hne : t ≠ []) (ht : ∀ a ∈ t, p a = false) {rest : List α}
    (hend : ∀ a ∈ rest.head?, p a = true) : pieces p (t ++ rest) = t :: pieces p rest := by
  cases rest with
  | nil => rw [List.append_nil, pieces, List.splitOnP_eq_singleton ht, pieces_nil,
    List.filter_cons_of_pos (by simpa using hne)]; rfl
  | cons a rest =>
    have ha : p a = true := hend a rfl
    rw [pieces_sep ha, pieces, List.splitOnP_append_cons_of_forall_mem ht a ha, List.filter_cons_of_pos (by simpa using hne)]
    rfl

theorem exists_span (q : α → Bool) (xs : List α) :
    ∃ t rest, xs = t ++ rest ∧ (∀ a ∈ t, q a = true) ∧ ∀ a ∈ rest.head?, q a = false := by
  refine ⟨xs.takeWhile q, xs.dropWhile q, List.takeWhile_append_dropWhile.symm, fun a ha => List.mem_takeWhile_imp ha, ?_⟩
  intro a ha
  have h := List.head?_dropWhile_not q xs
  rw [ha] at h
  simpa using h

theorem runs_pieces (xs : List α) : Runs p xs (pieces p xs) := by
  induction hn : xs.length using Nat.strong_induction_on generalizing xs with
  | _ n ih =>
    obtain ⟨g, ys, rfl, hg, hys⟩ := exists_span p xs
    obtain ⟨t, rest, rfl, ht, hend⟩ := exists_span (!p ·) ys
    have ht : ∀ a ∈ t, p a = false := fun a ha => by simpa using ht a ha
    have hend : ∀ a ∈ rest.head?, p a = true := fun a ha => by simpa using hend a ha
    rw [pieces_gap hg]
    cases t with
    | nil =>
      -- what follows the gap would begin with a separator
      obtain rfl : rest = [] := by
        cases rest with
        | nil => rfl
        | cons a l => exact absurd (hend a rfl) (by rw [hys a rfl]; exact Bool.false_ne_true)
      rw [List.nil_append, List.append_nil, pieces_nil]
      exact Runs.gap hg
    | cons a t =>
      have hlen : rest.length < n := by
        simp only [List.length_append, List.length_cons] at hn
        omega
      rw [pieces_run (List.cons_ne_nil a t) ht hend]
      exact Runs.run hg (List.cons_ne_nil a t) ht hend (ih _ hlen rest rfl)

end MaximalRuns

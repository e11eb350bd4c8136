import Mathlib.Logic.Function.Basic
import Mathlib.Order.Notation

/-!
# Partial maps and their overlay

`overlay f g` is `f` laid over `g`: a name bound by `f` keeps `f`'s value, the
rest is read from `g`. Laying `f` over `g` gives `f` back exactly when `f`
binds every name of `g`, and gives `g` back exactly when every binding of `f`
is already one of `g`.
-/

namespace PartialMap

variable {α β : Type*}

def overlay (f g : α → Option β) : α → Option β := fun a => (f a).or (g a)

def Covers (f g : α → Option β) : Prop := ∀ a, (g a).isSome → (f a).isSome

def Within (f g : α → Option β) : Prop := ∀ a b, f a = some b → g a = some b

@[simp] theorem none_overlay (f : α → Option β) : overlay (fun _ => none) f = f := by
  funext a; simp [overlay]

theorem overlay_of_some {f : α → Option β} {a : α} {b : β} (h : f a = some b) (g : α → Option β) :
    overlay f g a = some b := by simp [overlay, h]

theorem overlay_of_none {f : α → Option β} {a : α} (h : f a = none) (g : α → Option β) :
    overlay f g a = g a := by simp [overlay, h]

theorem overlay_eq_left_iff (f g : α → Option β) : overlay f g = f ↔ Covers f g := by
  constructor
  · intro h a ha
    have := congrFun h a
    cases hf : f a with
    | some b => rfl
    | none => rw [overlay_of_none hf, hf] at this; rw [this] at ha; cases ha
  · intro h
    funext a
    cases hf : f a with
    | some b => exact overlay_of_some hf g
    | none =>
      rw [overlay_of_none hf]
      cases hg : g a with
      | none => rfl
      | some b => have := h a (by simp [hg]); simp [hf] at this

theorem overlay_eq_right_iff (f g : α → Option β) : overlay f g = g ↔ Within f g := by
  constructor
  · intro h a b hf
    rw [← congrFun h a]; exact overlay_of_some hf g
  · intro h
    funext a
    cases hf : f a with
    | none => exact overlay_of_none hf g
    | some b => rw [overlay_of_some hf, h a b hf]

/-! ## Updates -/

section
variable [DecidableEq α] {f : α → Option β} {a a' : α} {b c : β}

theorem update_eq_none_iff : Function.update f a (some b) a' = none ↔ a' ≠ a ∧ f a' = none := by
  by_cases h : a' = a
  · subst h; simp
  · simp [h]

theorem update_eq_some_iff :
    Function.update f a (some b) a' = some c ↔ (a' = a ∧ b = c) ∨ (a' ≠ a ∧ f a' = some c) := by
  by_cases h : a' = a
  · subst h; simp
  · simp [h]

end

/-! ## Folds through an overlay -/

section
variable (F : Nat → (α → Option β) → α → Option β) (e g : α → Option β)

def states : Nat → α → Option β
  | 0 => e
  | n + 1 => F n (states n)

/-- The same steps, where each starts from what the one before has left laid over
`g`. -/
def overlaid : Nat → α → Option β
  | 0 => e
  | n + 1 => overlay (F n (overlaid n)) g

variable {F e g} {N : Nat}

theorem overlaid_eq_states (h : ∀ n < N, Covers (states F e (n + 1)) g) : ∀ n ≤ N, overlaid F e g n = states F e n
  | 0, _ => rfl
  | n + 1, hn => by
    rw [overlaid, overlaid_eq_states h n (Nat.le_of_succ_le hn)]
    exact (overlay_eq_left_iff _ _).mpr (h n hn)

/-- **The overlay is not seen** as long as no step loses a name of `g`. -/
theorem overlaid_eq_iff :
    (∀ n < N, overlaid F e g (n + 1) = F n (overlaid F e g n)) ↔ ∀ n < N, Covers (states F e (n + 1)) g := by
  constructor
  · intro h
    have hs : ∀ n ≤ N, overlaid F e g n = states F e n := by
      intro n
      induction n with
      | zero => intro _; rfl
      | succ n ih => intro hn; rw [h n hn, ih (Nat.le_of_succ_le hn), states]
    intro n hn
    have := h n hn
    rw [overlaid, hs n (Nat.le_of_lt hn)] at this
    exact (overlay_eq_left_iff _ _).mp this
  · intro h n hn
    rw [overlaid_eq_states h (n + 1) hn, overlaid_eq_states h n (Nat.le_of_lt hn), states]

end

end PartialMap

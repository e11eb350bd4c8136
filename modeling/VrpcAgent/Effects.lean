import Mathlib.Data.List.Basic

/-!
# Programs with state and exceptions

`EStateM ε σ` keeps the state at the point of a throw: what a program does
before it throws stays done. `after` is the state a result leaves, `Returns`
says that nothing was thrown, and `each f l` runs `f` on the elements of a list
up to the first throw.
-/

namespace Effects

variable {ε σ α β : Type}

def after : EStateM.Result ε σ α → σ
  | .ok _ s => s
  | .error _ s => s

def returns : EStateM.Result ε σ α → Bool
  | .ok _ _ => true
  | .error _ _ => false

@[simp] theorem after_ok (a : α) (s : σ) : after (.ok a s : EStateM.Result ε σ α) = s := rfl
@[simp] theorem after_error (e : ε) (s : σ) : after (.error e s : EStateM.Result ε σ α) = s := rfl
@[simp] theorem returns_ok (a : α) (s : σ) : returns (.ok a s : EStateM.Result ε σ α) = true := rfl
@[simp] theorem returns_error (e : ε) (s : σ) : returns (.error e s : EStateM.Result ε σ α) = false := rfl

def andThen (r : EStateM.Result ε σ α) (f : α → EStateM ε σ β) : EStateM.Result ε σ β :=
  match r with
  | .ok a s => (f a).run s
  | .error e s => .error e s

def orElse (r : EStateM.Result ε σ α) (h : ε → EStateM ε σ α) : EStateM.Result ε σ α :=
  match r with
  | .ok a s => .ok a s
  | .error e s => (h e).run s

@[simp] theorem andThen_ok (a : α) (s : σ) (f : α → EStateM ε σ β) : andThen (.ok a s) f = (f a).run s := rfl
@[simp] theorem andThen_error (e : ε) (s : σ) (f : α → EStateM ε σ β) :
    andThen (.error e s : EStateM.Result ε σ α) f = .error e s := rfl
@[simp] theorem orElse_ok (a : α) (s : σ) (h : ε → EStateM ε σ α) : orElse (.ok a s) h = .ok a s := rfl
@[simp] theorem orElse_error (e : ε) (s : σ) (h : ε → EStateM ε σ α) :
    orElse (.error e s) h = (h e).run s := rfl

@[simp] theorem returns_andThen_pure (r : EStateM.Result ε σ α) (b : β) :
    returns (andThen r fun _ => pure b) = returns r := by cases r <;> rfl

@[simp] theorem after_andThen_pure (r : EStateM.Result ε σ α) (b : β) :
    after (andThen r fun _ => pure b) = after r := by cases r <;> rfl

theorem run_bind (x : EStateM ε σ α) (f : α → EStateM ε σ β) (s : σ) :
    (x >>= f).run s = andThen (x.run s) f := by
  rw [EStateM.run_bind]; cases x.run s <;> rfl

@[simp] theorem run_tryCatch (x : EStateM ε σ α) (h : ε → EStateM ε σ α) (s : σ) :
    EStateM.run (tryCatch x h) s = orElse (x.run s) h := by
  simp only [tryCatch, tryCatchThe, MonadExceptOf.tryCatch, EStateM.tryCatch, EStateM.run]
  cases x s <;> rfl

@[simp] theorem run_throw_any (e : ε) (s : σ) : EStateM.run (throw e : EStateM ε σ α) s = .error e s := rfl

theorem andThen_congr {r : EStateM.Result ε σ α} {f g : α → EStateM ε σ β}
    (h : ∀ a s, r = .ok a s → (f a).run s = (g a).run s) : andThen r f = andThen r g := by
  cases r with
  | ok a s => exact h a s rfl
  | error e s => rfl

/-! ## Lists of programs -/

def each (f : α → EStateM ε σ Unit) : List α → EStateM ε σ Unit
  | [] => pure ()
  | a :: l => do
    f a
    each f l

@[simp] theorem run_each_nil (f : α → EStateM ε σ Unit) (s : σ) : (each f []).run s = .ok () s := rfl

theorem run_each_cons (f : α → EStateM ε σ Unit) (a : α) (l : List α) (s : σ) :
    (each f (a :: l)).run s = andThen ((f a).run s) fun _ => each f l := run_bind ..

theorem run_each_singleton (f : α → EStateM ε σ Unit) (a : α) (s : σ) : (each f [a]).run s = (f a).run s := by
  rw [run_each_cons]; cases (f a).run s <;> rfl

/-! ## Invariants -/

def Keeps (I : σ → Prop) (x : EStateM ε σ α) : Prop := ∀ s, I s → I (after (x.run s))

section
variable {I : σ → Prop}

theorem keeps_pure (a : α) : Keeps I (pure a : EStateM ε σ α) := fun _ h => h

theorem keeps_throw (e : ε) : Keeps I (throw e : EStateM ε σ α) := fun _ h => h

theorem keeps_get : Keeps I (get : EStateM ε σ σ) := fun _ h => h

theorem keeps_modify {f : σ → σ} (h : ∀ s, I s → I (f s)) : Keeps I (modify f : EStateM ε σ PUnit) := h

theorem keeps_bind {x : EStateM ε σ α} {f : α → EStateM ε σ β} (hx : Keeps I x) (hf : ∀ a, Keeps I (f a)) :
    Keeps I (x >>= f) := by
  intro s hs
  have h := hx s hs
  rw [run_bind]
  cases hr : x.run s with
  | ok a s' => rw [hr] at h; exact hf a s' h
  | error e s' => rw [hr] at h; exact h

theorem keeps_each {f : α → EStateM ε σ Unit} : ∀ {l : List α}, (∀ a ∈ l, Keeps I (f a)) → Keeps I (each f l)
  | [], _ => keeps_pure ()
  | _ :: _, h => keeps_bind (h _ List.mem_cons_self) fun _ =>
    keeps_each fun b hb => h b (List.mem_cons_of_mem _ hb)

end

end Effects

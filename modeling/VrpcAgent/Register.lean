import VrpcAgent.Runs
import Mathlib.Logic.Function.Basic
import Mathlib.Data.List.Nodup

/-!
# Read-modify-write transactions on one register

A transaction `k` reads the register, computes `t k` on what it read, and later
writes the new value back. Transactions that overlap may lose each other's
writes; when no transaction reads while another one is between its read and its
write, a run has the effect of executing the transactions one after the other,
in the order of their writes.
-/

namespace Register

open Function Runs

variable {κ σ ρ : Type*} [DecidableEq κ]

inductive Op (κ : Type*) where
  | read (k : κ)
  | write (k : κ)

def Op.owner {κ : Type*} : Op κ → κ
  | .read k => k
  | .write k => k

/-- `held k` is the value `k` has read and not yet written back. -/
structure State (κ σ ρ : Type*) where
  value : σ
  held : κ → Option σ
  result : κ → Option ρ

def init (v : σ) : State κ σ ρ := ⟨v, fun _ => none, fun _ => none⟩

section
variable (t : κ → σ → σ × ρ)

def step (s : State κ σ ρ) : Op κ → State κ σ ρ
  | .read k => { s with held := update s.held k (some s.value) }
  | .write k =>
    match s.held k with
    | none => s
    | some v => ⟨(t k v).1, update s.held k none, update s.result k (some (t k v).2)⟩

def serialStep (s : σ × (κ → Option ρ)) (k : κ) : σ × (κ → Option ρ) :=
  ((t k s.1).1, update s.2 k (some (t k s.1).2))

def serial (v : σ) (order : List κ) : σ × (κ → Option ρ) := order.foldl (serialStep t) (v, fun _ => none)

theorem serial_concat (v : σ) (order : List κ) (k : κ) :
    serial t v (order ++ [k]) = serialStep t (serial t v order) k := by
  simp [serial, List.foldl_append]

/-- A transaction reads at most once, and only while no value is held. -/
def Exclusive (s : State κ σ ρ) : Op κ → Prop
  | .read k => (∀ k', s.held k' = none) ∧ s.result k = none
  | .write _ => True

structure Serialized (v : σ) (order : List κ) (s : State κ σ ρ) : Prop where
  nodup : order.Nodup
  mem : ∀ k, k ∈ order ↔ (s.result k).isSome
  serial : serial t v order = (s.value, s.result)
  held : ∀ k u, s.held k = some u → u = s.value ∧ s.result k = none ∧ ∀ k', (s.held k').isSome → k' = k

theorem serialized_init (v : σ) : Serialized t v [] (init v : State κ σ ρ) where
  nodup := List.nodup_nil
  mem := by simp [init]
  serial := rfl
  held := by simp [init]

theorem serialized_read {v : σ} {order : List κ} {s : State κ σ ρ} (h : Serialized t v order s) {k : κ}
    (hx : Exclusive s (.read k)) : Serialized t v order (step t s (.read k)) where
  nodup := h.nodup
  mem := h.mem
  serial := h.serial
  held k' u hu := by
    simp only [step] at hu ⊢
    by_cases hk : k' = k
    · subst hk
      simp only [update_self, Option.some.injEq] at hu
      refine ⟨hu.symm, hx.2, fun k'' hk'' => ?_⟩
      by_contra hne
      rw [update_of_ne hne, hx.1] at hk''; cases hk''
    · rw [update_of_ne hk, hx.1] at hu; cases hu

theorem serialized_write {v : σ} {order : List κ} {s : State κ σ ρ} (h : Serialized t v order s) (k : κ) :
    Serialized t v order (step t s (.write k)) ∨ Serialized t v (order ++ [k]) (step t s (.write k)) := by
  cases hh : s.held k with
  | none => exact Or.inl (by simpa only [step, hh] using h)
  | some u =>
    obtain ⟨rfl, hr, honly⟩ := h.held k u hh
    have hk : k ∉ order := by rw [h.mem, hr]; simp
    refine Or.inr ?_
    simp only [step, hh]
    constructor
    · rw [List.nodup_append]
      exact ⟨h.nodup, List.nodup_singleton k, fun a ha b hb => by
        rw [List.mem_singleton] at hb; rintro rfl; exact hk (hb ▸ ha)⟩
    · intro k'
      by_cases hk' : k' = k
      · subst hk'; simp
      · simp [hk', h.mem]
    · rw [serial_concat, h.serial]; rfl
    · intro k' w hw
      -- the writer was the only holder
      by_cases hk' : k' = k
      · subst hk'; simp at hw
      · simp only [update_of_ne hk'] at hw
        exact absurd (honly k' (by simp [hw])) hk'

/-- **Exclusive schedules are serial.** The steps of one transaction keep the serial
order or put the transaction at its end. -/
theorem serialized_run {v : σ} {order : List κ} {s : State κ σ ρ} (h : Serialized t v order s) {k : κ}
    {ops : List (Op κ)} (hx : Along (step t) (fun s op => Exclusive s op ∧ op.owner = k) s ops) :
    ∃ order', (order' = order ∨ order' = order ++ [k]) ∧ Serialized t v order' (run (step t) s ops) := by
  refine run_inv (P := fun s => ∃ order', (order' = order ∨ order' = order ++ [k]) ∧ Serialized t v order' s)
    ?_ ⟨order, Or.inl rfl, h⟩ hx
  intro s op hs he
  obtain ⟨order', ho, hs⟩ := hs
  obtain ⟨he, rfl⟩ := he
  rcases op with k' | k'
  · exact ⟨order', ho, serialized_read t hs he⟩
  · rcases serialized_write t hs k' with hw | hw
    · exact ⟨order', ho, hw⟩
    · rcases ho with rfl | rfl
      · exact ⟨_, Or.inr rfl, hw⟩
      · have := hw.nodup
        simp [Op.owner, List.nodup_append] at this

end

end Register

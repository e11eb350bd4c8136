import VrpcAgent.Allocator
import VrpcAgent.Machines
import Mathlib.Data.Finset.Max
import Mathlib.Order.Interval.Finset.Nat

/-!
# Packet identifiers as a set

`packet_id_manager.hpp` with the other operations of `value_allocator.hpp`: identifiers are
acquired, registered, released and cleared. However the intervals are split and joined, they
are the set of the free identifiers, and nothing but this set decides what they are.
-/

namespace VrpcAgent

open Machines

/-! ## A pool is determined by its values -/

theorem free_head {e : Interval} {pool : List Interval} (h : PoolOk (e :: pool)) : Free (e :: pool) e.1 := by
  simp [(poolOk_cons.mp h).2.1]

theorem head_le {e : Interval} {pool : List Interval} (h : PoolOk (e :: pool)) {v : Nat} (hv : Free (e :: pool) v) :
    e.1 ≤ v := by
  rcases (free_cons ..).mp hv with hv | hv
  · exact hv.1
  · have hlt := h.lt_of_free hv
    have hle := (poolOk_cons.mp h).2.1
    omega

/-- The value behind the first interval is missing. -/
theorem not_free_next {e : Interval} {pool : List Interval} (h : PoolOk (e :: pool)) : ¬ Free (e :: pool) (e.2 + 1) := by
  intro hv
  rcases (free_cons ..).mp hv with hv | hv
  · omega
  · have hlt := h.lt_of_free hv
    omega

theorem head_high_le {e f : Interval} {p q : List Interval} (hp : PoolOk (e :: p)) (hlow : e.1 = f.1)
    (h : ∀ v, Free (e :: p) v ↔ Free (f :: q) v) : f.2 ≤ e.2 := by
  by_contra hlt
  apply not_free_next hp
  apply (h _).mpr
  have hle := (poolOk_cons.mp hp).2.1
  simp only [free_cons]
  omega

theorem free_tail {e : Interval} {pool : List Interval} (h : PoolOk (e :: pool)) (v : Nat) :
    Free pool v ↔ Free (e :: pool) v ∧ e.2 < v := by
  constructor
  · intro hv
    have hlt := h.lt_of_free hv
    exact ⟨(free_cons ..).mpr (Or.inr hv), by omega⟩
  · rintro ⟨hv, hlt⟩
    rcases (free_cons ..).mp hv with hv | hv
    · omega
    · exact hv

theorem pool_ext : ∀ {p q : List Interval}, PoolOk p → PoolOk q → (∀ v, Free p v ↔ Free q v) → p = q
  | [], [], _, _, _ => rfl
  | [], f :: q, _, hq, h => by simpa using (h f.1).mpr (free_head hq)
  | e :: p, [], hp, _, h => by simpa using (h e.1).mp (free_head hp)
  | e :: p, f :: q, hp, hq, h => by
    have hlow : e.1 = f.1 := Nat.le_antisymm (head_le hp ((h _).mpr (free_head hq))) (head_le hq ((h _).mp (free_head hp)))
    have hhigh : e.2 = f.2 := Nat.le_antisymm (head_high_le hq hlow.symm fun v => (h v).symm) (head_high_le hp hlow h)
    have htail : p = q := by
      apply pool_ext (poolOk_cons.mp hp).2.2 (poolOk_cons.mp hq).2.2
      intro v
      rw [free_tail hp, free_tail hq, h, hhigh]
    rw [htail, Prod.ext hlow hhigh]

/-! ## use -/

def split_interval (v : Nat) (e : Interval) : List Interval :=
  (if e.1 < v then [(e.1, v - 1)] else []) ++ if v + 1 ≤ e.2 then [(v + 1, e.2)] else []

def use_pool (v : Nat) : List Interval → Option (List Interval)
  | [] => none
  | e :: pool =>
    if e.2 < v then (use_pool v pool).map (e :: ·) else if v < e.1 then none else some (split_interval v e ++ pool)

theorem free_append (p q : List Interval) (v : Nat) : Free (p ++ q) v ↔ Free p v ∨ Free q v := by
  simp [Free, or_and_right, exists_or]

theorem free_split {v : Nat} {e : Interval} (hlow : e.1 ≤ v) (hhigh : v ≤ e.2) (w : Nat) :
    Free (split_interval v e) w ↔ (e.1 ≤ w ∧ w ≤ e.2) ∧ w ≠ v := by
  rw [split_interval, free_append]
  by_cases hl : e.1 < v <;> by_cases hh : v + 1 ≤ e.2 <;> simp [hl, hh] <;> omega

theorem use_pool_none {v : Nat} {pool : List Interval} (h : PoolOk pool) : use_pool v pool = none ↔ ¬ Free pool v := by
  induction pool with
  | nil => simp [use_pool]
  | cons e pool ih =>
    have hrest := ih (poolOk_cons.mp h).2.2
    unfold use_pool
    split
    · rename_i hlt
      have hnot : ¬ (e.1 ≤ v ∧ v ≤ e.2) := by omega
      simp [hrest, hnot]
    · split
      · rename_i hlt
        simp only [true_iff]
        intro hv
        exact absurd (head_le h hv) (by omega)
      · simp only [reduceCtorEq, false_iff, not_not, free_cons]
        exact Or.inl ⟨by omega, by omega⟩

theorem poolOk_split {v : Nat} {e : Interval} {pool : List Interval} (h : PoolOk (e :: pool)) (hlow : e.1 ≤ v)
    (hhigh : v ≤ e.2) :
    PoolOk (split_interval v e ++ pool) := by
  obtain ⟨hlt, hle, hok⟩ := poolOk_cons.mp h
  unfold split_interval
  by_cases hl : e.1 < v <;> by_cases hh : v + 1 ≤ e.2 <;> simp [hl, hh, poolOk_cons, hok] <;> grind

theorem use_pool_spec {v : Nat} {pool pool' : List Interval} (h : PoolOk pool) (hu : use_pool v pool = some pool') :
    PoolOk pool' ∧ ∀ w, Free pool' w ↔ Free pool w ∧ w ≠ v := by
  induction pool generalizing pool' with
  | nil => cases hu
  | cons e pool ih =>
    obtain ⟨hlt, hle, hok⟩ := poolOk_cons.mp h
    unfold use_pool at hu
    split at hu
    · rename_i hv
      obtain ⟨rest, hrest, rfl⟩ := Option.map_eq_some_iff.mp hu
      obtain ⟨hok', hfree⟩ := ih hok hrest
      constructor
      · refine poolOk_cons.mpr ⟨fun e' he' => ?_, hle, hok'⟩
        have hf : Free rest e'.1 := ⟨e', he', Nat.le_refl _, hok'.nonempty e' he'⟩
        exact h.lt_of_free ((hfree _).mp hf).1
      · intro w
        rw [free_cons, hfree, free_cons]
        constructor
        · rintro (hw | hw)
          · exact ⟨Or.inl hw, by omega⟩
          · exact ⟨Or.inr hw.1, hw.2⟩
        · rintro ⟨hw | hw, hne⟩
          · exact Or.inl hw
          · exact Or.inr ⟨hw, hne⟩
    · split at hu
      · cases hu
      · cases hu
        refine ⟨poolOk_split h (by omega) (by omega), fun w => ?_⟩
        rw [free_append, free_split (by omega) (by omega), free_cons]
        have hfar : Free pool w → w ≠ v := fun hw => by
          have hbeyond := h.lt_of_free hw
          omega
        tauto

namespace Allocator

def use (a : Allocator) (v : Nat) : Option Allocator :=
  match h : use_pool v a.pool with
  | none => none
  | some pool => some ⟨pool, (use_pool_spec a.ok h).1⟩

theorem use_none {a : Allocator} {v : Nat} : a.use v = none ↔ ¬ a.Free v := by
  rw [Free, ← use_pool_none a.ok]
  unfold use
  split <;> simp_all

theorem use_spec {a a' : Allocator} {v : Nat} (h : a.use v = some a') (w : Nat) : a'.Free w ↔ a.Free w ∧ w ≠ v := by
  unfold use at h
  split at h
  · cases h
  · rename_i hu
    cases h
    exact (use_pool_spec a.ok hu).2 w

theorem ext_free {a b : Allocator} (h : ∀ v, a.Free v ↔ b.Free v) : a = b := by
  cases a
  cases b
  simp only [Allocator.mk.injEq]
  apply pool_ext <;> assumption

end Allocator

/-! ## The manager -/

inductive IdRequest where
  | acquire_unique_id
  | register_id (packet_id : Nat)
  | release_id (packet_id : Nat)
  | clear

inductive IdAnswer where
  | id (packet_id : Option Nat)
  | registered (b : Bool)
  | done
  deriving DecidableEq

def manager_step (va : Allocator) : IdRequest → IdAnswer × Allocator
  | .acquire_unique_id =>
    match va.allocate with
    | none => (.id none, va)
    | some (v, va) => (.id (some v), va)
  | .register_id packet_id =>
    match va.use packet_id with
    | none => (.registered false, va)
    | some va => (.registered true, va)
  | .release_id packet_id => (.done, va.deallocate packet_id)
  | .clear => (.done, .new)

def packet_ids : Finset Nat := Finset.Icc 1 65535

/-- The manager as the set of the identifiers that are free. -/
def set_step (free : Finset Nat) : IdRequest → IdAnswer × Finset Nat
  | .acquire_unique_id => if h : free.Nonempty then (.id (some (free.min' h)), free.erase (free.min' h)) else (.id none, free)
  | .register_id packet_id => (.registered (packet_id ∈ free), free.erase packet_id)
  | .release_id packet_id => (.done, insert packet_id free)
  | .clear => (.done, packet_ids)

def Represents (va : Allocator) (free : Finset Nat) : Prop := ∀ v, va.Free v ↔ v ∈ free

theorem represents_new : Represents .new packet_ids := by
  intro v
  simp [Allocator.Free, Allocator.new, packet_ids]

theorem represents_step : Mirrors manager_step set_step Represents := by
  intro va free h request
  cases request with
  | acquire_unique_id =>
    cases ha : va.allocate with
    | none =>
      have hempty : ¬ free.Nonempty := by
        rintro ⟨v, hv⟩
        exact Allocator.allocate_eq_none.mp ha v ((h v).mpr hv)
      simp [manager_step, set_step, ha, hempty, h]
    | some r =>
      obtain ⟨v, va'⟩ := r
      obtain ⟨hv, hleast, hrest⟩ := Allocator.allocate_spec ha
      have hne : free.Nonempty := ⟨v, (h v).mp hv⟩
      have hmin : free.min' hne = v := by
        apply Nat.le_antisymm
        · exact free.min'_le v ((h v).mp hv)
        · exact hleast _ ((h _).mpr (free.min'_mem hne))
      simp only [manager_step, set_step, ha, hne, hmin, dite_true, true_and]
      intro w
      rw [hrest, h, Finset.mem_erase, and_comm]
  | register_id packet_id =>
    cases hu : va.use packet_id with
    | none =>
      have hnot : packet_id ∉ free := by
        rw [← h]
        exact Allocator.use_none.mp hu
      simp [manager_step, set_step, hu, hnot, h]
    | some va' =>
      have hmem : packet_id ∈ free := by
        by_contra hnot
        rw [← h, ← Allocator.use_none, hu] at hnot
        cases hnot
      simp only [manager_step, set_step, hu, hmem, decide_true, true_and]
      intro w
      rw [Allocator.use_spec hu, h, Finset.mem_erase, and_comm]
  | release_id packet_id =>
    refine ⟨rfl, fun w => ?_⟩
    show (va.deallocate packet_id).Free w ↔ w ∈ insert packet_id free
    rw [Allocator.free_deallocate, h, Finset.mem_insert, or_comm]
  | clear => exact ⟨rfl, represents_new⟩

/-- **The manager is a set of identifiers**: it answers every list of requests as the set does, and
its intervals are a function of the set that is left. -/
theorem manager_is_a_set : (∀ requests, responses manager_step .new requests = responses set_step packet_ids requests) ∧
    ∃ pool : Finset Nat → Allocator,
      ∀ requests, final manager_step .new requests = pool (final set_step packet_ids requests) := by
  refine ⟨responses_eq represents_step represents_new, ?_⟩
  apply final_eq_map represents_step _ represents_new
  intro va va' free h h'
  exact Allocator.ext_free fun v => (h v).trans (h' v).symm

end VrpcAgent

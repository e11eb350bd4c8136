import Mathlib.Data.List.Basic

/-!
# The packet identifier allocator

`value_allocator.hpp`: the free identifiers are kept as disjoint intervals that
do not touch, in increasing order. `allocate` takes the lowest free value and
`deallocate` gives a value back, joining the intervals next to it; giving back a
value that is free already changes nothing.
-/

namespace VrpcAgent

/-- `value_interval`: its low and its high value. -/
abbrev Interval := Nat × Nat

def Free (pool : List Interval) (v : Nat) : Prop := ∃ e ∈ pool, e.1 ≤ v ∧ v ≤ e.2

structure PoolOk (pool : List Interval) : Prop where
  apart : pool.Pairwise fun e e' => e.2 + 1 < e'.1
  nonempty : ∀ e ∈ pool, e.1 ≤ e.2

@[simp] theorem free_nil (v : Nat) : ¬ Free [] v := by simp [Free]

@[simp] theorem free_cons (e : Interval) (pool : List Interval) (v : Nat) :
    Free (e :: pool) v ↔ (e.1 ≤ v ∧ v ≤ e.2) ∨ Free pool v := by simp [Free]

theorem poolOk_nil : PoolOk [] := ⟨List.Pairwise.nil, by simp⟩

theorem poolOk_cons {e : Interval} {pool : List Interval} :
    PoolOk (e :: pool) ↔ (∀ e' ∈ pool, e.2 + 1 < e'.1) ∧ e.1 ≤ e.2 ∧ PoolOk pool := by
  constructor
  · intro h
    obtain ⟨ha, hn⟩ := h
    rw [List.pairwise_cons] at ha
    exact ⟨ha.1, hn e List.mem_cons_self, ha.2, fun e' he' => hn e' (List.mem_cons_of_mem _ he')⟩
  · intro h
    obtain ⟨h1, h2, ha, hn⟩ := h
    exact ⟨List.pairwise_cons.mpr ⟨h1, ha⟩, List.forall_mem_cons.mpr ⟨h2, hn⟩⟩

theorem PoolOk.lt_of_free {e : Interval} {pool : List Interval} (h : PoolOk (e :: pool)) {v : Nat}
    (hv : Free pool v) : e.2 + 1 < v := by
  obtain ⟨e', he', hlo, -⟩ := hv
  exact Nat.lt_of_lt_of_le ((poolOk_cons.mp h).1 e' he') hlo

/-! ## allocate -/

def allocate_pool : List Interval → Option (Nat × List Interval)
  | [] => none
  | e :: pool => if e.1 + 1 ≤ e.2 then some (e.1, (e.1 + 1, e.2) :: pool) else some (e.1, pool)

theorem allocate_pool_ok {pool pool' : List Interval} {v : Nat} (h : PoolOk pool)
    (ha : allocate_pool pool = some (v, pool')) : PoolOk pool' := by
  cases pool with
  | nil => cases ha
  | cons e pool =>
    have hc := poolOk_cons.mp h
    simp only [allocate_pool] at ha
    split at ha <;> cases ha
    · exact poolOk_cons.mpr ⟨hc.1, by assumption, hc.2.2⟩
    · exact hc.2.2

/-- The value taken is the lowest free one, and nothing else is taken. -/
theorem allocate_pool_spec {pool pool' : List Interval} {v : Nat} (h : PoolOk pool)
    (ha : allocate_pool pool = some (v, pool')) :
    Free pool v ∧ (∀ w, Free pool w → v ≤ w) ∧ ∀ w, Free pool' w ↔ Free pool w ∧ w ≠ v := by
  cases pool with
  | nil => cases ha
  | cons e pool =>
    obtain ⟨hlt, hle, -⟩ := poolOk_cons.mp h
    have hfar : ∀ w, Free pool w → e.2 + 1 < w := fun w hw => h.lt_of_free hw
    simp only [allocate_pool] at ha
    split at ha <;> cases ha
    · refine ⟨by simp [hle], fun w hw => ?_, fun w => ?_⟩
      · rcases (free_cons ..).mp hw with hw | hw
        · exact hw.1
        · have := hfar w hw; omega
      · simp only [free_cons]
        constructor
        · intro hw
          rcases hw with hw | hw
          · exact ⟨Or.inl ⟨by omega, hw.2⟩, by omega⟩
          · have := hfar w hw; exact ⟨Or.inr hw, by omega⟩
        · intro hw
          obtain ⟨hw | hw, hne⟩ := hw
          · exact Or.inl ⟨by omega, hw.2⟩
          · exact Or.inr hw
    · refine ⟨by simp [hle], fun w hw => ?_, fun w => ?_⟩
      · rcases (free_cons ..).mp hw with hw | hw
        · exact hw.1
        · have := hfar w hw; omega
      · simp only [free_cons]
        constructor
        · intro hw; have := hfar w hw; exact ⟨Or.inr hw, by omega⟩
        · intro hw
          obtain ⟨hw | hw, hne⟩ := hw
          · omega
          · exact hw

/-! ## deallocate -/

/-- `e` is the interval at or left of `v` that `upper_bound` leaves behind; the
source's cases are: no interval right of `v`, none left of it, one on each side. -/
def deallocate_pool (v : Nat) : List Interval → List Interval
  | [] => [(v, v)]
  | e :: pool =>
    if v < e.1 then if v + 1 = e.1 then (v, e.2) :: pool else (v, v) :: e :: pool
    else
      match pool with
      | [] => if e.2 + 1 = v then [(e.1, v)] else if v ≤ e.2 then [e] else [e, (v, v)]
      | r :: pool' =>
        if v < r.1 then
          if e.2 + 1 = v then if v + 1 = r.1 then (e.1, r.2) :: pool' else (e.1, v) :: r :: pool'
          else if v + 1 = r.1 then e :: (v, r.2) :: pool'
          else if v ≤ e.2 then e :: r :: pool' else e :: (v, v) :: r :: pool'
        else e :: deallocate_pool v (r :: pool')

theorem free_deallocate_pool (v : Nat) :
    ∀ {pool : List Interval}, PoolOk pool → ∀ w, Free (deallocate_pool v pool) w ↔ Free pool w ∨ w = v
  | [], _, w => by simp [deallocate_pool]; omega
  | e :: pool, h, w => by
    have hc := poolOk_cons.mp h
    unfold deallocate_pool
    split
    · split <;> simp only [free_cons] <;> grind
    · cases pool with
      | nil => simp only; split <;> (try split) <;> simp only [free_cons, free_nil] <;> grind
      | cons r pool' =>
        have hr := hc.1 r List.mem_cons_self
        have hrr := (poolOk_cons.mp hc.2.2).2.1
        simp only
        split
        · split
          · split <;> simp only [free_cons] <;> grind
          · split
            · simp only [free_cons]; grind
            · split <;> simp only [free_cons] <;> grind
        · have ih := free_deallocate_pool v hc.2.2 w
          rw [free_cons, ih, free_cons e, or_assoc]

theorem deallocate_pool_ok (v : Nat) :
    ∀ {pool : List Interval}, PoolOk pool → PoolOk (deallocate_pool v pool)
  | [], _ => by simp [deallocate_pool, poolOk_cons, poolOk_nil]
  | e :: pool, h => by
    have hc := poolOk_cons.mp h
    unfold deallocate_pool
    split
    · split <;> simp only [poolOk_cons, List.mem_cons, forall_eq_or_imp] at h ⊢ <;> grind
    · cases pool with
      | nil => simp only; split <;> (try split) <;> simp [poolOk_cons, poolOk_nil] <;> grind
      | cons r pool' =>
        have hr := hc.1 r List.mem_cons_self
        have hrr := poolOk_cons.mp hc.2.2
        simp only
        split
        · split
          · split <;> simp only [poolOk_cons, List.mem_cons, forall_eq_or_imp] at h ⊢ <;> grind
          · split
            · simp only [poolOk_cons, List.mem_cons, forall_eq_or_imp] at h ⊢; grind
            · split <;> simp only [poolOk_cons, List.mem_cons, forall_eq_or_imp] at h ⊢ <;> grind
        · refine poolOk_cons.mpr ⟨fun e' he' => ?_, hc.2.1, deallocate_pool_ok v hc.2.2⟩
          -- the low end of every interval is free, so it lies beyond `e`
          have hok := deallocate_pool_ok v hc.2.2
          have hf : Free (deallocate_pool v (r :: pool')) e'.1 := ⟨e', he', Nat.le_refl _, hok.nonempty e' he'⟩
          rcases (free_deallocate_pool v hc.2.2 _).mp hf with hf | hf
          · exact h.lt_of_free hf
          · omega

/-! ## The allocator of a client -/

/-- `packet_id_manager`: identifiers are 1 to 65535. -/
structure Allocator where
  pool : List Interval
  ok : PoolOk pool

namespace Allocator

def new : Allocator := ⟨[(1, 65535)], by simp [poolOk_cons, poolOk_nil]⟩

def Free (a : Allocator) (v : Nat) : Prop := VrpcAgent.Free a.pool v

def allocate (a : Allocator) : Option (Nat × Allocator) :=
  match h : allocate_pool a.pool with
  | none => none
  | some (v, pool) => some (v, ⟨pool, allocate_pool_ok a.ok h⟩)

def deallocate (a : Allocator) (v : Nat) : Allocator := ⟨deallocate_pool v a.pool, deallocate_pool_ok v a.ok⟩

theorem allocate_spec {a a' : Allocator} {v : Nat} (h : a.allocate = some (v, a')) :
    a.Free v ∧ (∀ w, a.Free w → v ≤ w) ∧ ∀ w, a'.Free w ↔ a.Free w ∧ w ≠ v := by
  unfold allocate at h
  split at h
  · cases h
  · rename_i hp; cases h; exact allocate_pool_spec a.ok hp

theorem allocate_eq_none {a : Allocator} : a.allocate = none ↔ ∀ v, ¬ a.Free v := by
  unfold allocate
  split
  · rename_i hp
    obtain ⟨pool, ok⟩ := a
    cases pool with
    | nil => simp [Free]
    | cons e pool => simp only [allocate_pool] at hp; split at hp <;> cases hp
  · rename_i hp
    simp only [reduceCtorEq, false_iff, not_forall, not_not]
    exact ⟨_, (allocate_pool_spec a.ok hp).1⟩

theorem free_deallocate (a : Allocator) (v w : Nat) : (a.deallocate v).Free w ↔ a.Free w ∨ w = v :=
  free_deallocate_pool v a.ok w

end Allocator

end VrpcAgent

import VrpcAgent.Runs
import Mathlib.Logic.Function.Basic

/-!
# Writers that share one stream

A writer hands the bytes of its packets to the stream a piece at a time, and
nothing orders the pieces of different writers. As long as no writer begins a
packet while another one is in the middle of one, the stream is the
concatenation of the packets begun, up to the rest of the last one.
-/

namespace SharedStream

open Function Runs

variable {ι π β : Type*} [DecidableEq ι]

/-- A writer is given packets to write, or has between 1 and `n + 1` of its
bytes accepted. -/
inductive Op (ι π : Type*) where
  | post (i : ι) (ps : List π)
  | write (i : ι) (n : Nat)

/-- `rest i` is what is left of the packet that writer `i` has begun, `queue i` the
packets it has not begun. -/
structure State (ι π β : Type*) where
  stream : List β
  rest : ι → List β
  queue : ι → List π
  begun : List (ι × π)

def init : State ι π β := ⟨[], fun _ => [], fun _ => [], []⟩

def accept (s : State ι π β) (i : ι) (bytes : List β) (n : Nat) : State ι π β :=
  { s with stream := s.stream ++ bytes.take (n + 1), rest := update s.rest i (bytes.drop (n + 1)) }

def packets_of (i : ι) (l : List (ι × π)) : List π := (l.filter (·.1 = i)).map (·.2)

theorem packets_of_append (i : ι) (l l' : List (ι × π)) : packets_of i (l ++ l') = packets_of i l ++ packets_of i l' := by
  simp [packets_of]

theorem packets_of_map_self (i : ι) (ps : List π) : packets_of i (ps.map (i, ·)) = ps := by
  simp [packets_of, List.filter_map, Function.comp_def]

theorem packets_of_map_of_ne {i j : ι} (h : j ≠ i) (ps : List π) : packets_of i (ps.map (j, ·)) = [] := by
  simp [packets_of, List.filter_map, Function.comp_def, h]

section
variable (encode : π → List β)

def step (s : State ι π β) : Op ι π → State ι π β
  | .post i ps => { s with queue := update s.queue i (s.queue i ++ ps) }
  | .write i n =>
    match s.rest i with
    | b :: bs => accept s i (b :: bs) n
    | [] =>
      match s.queue i with
      | [] => s
      | p :: ps => accept { s with queue := update s.queue i ps, begun := s.begun ++ [(i, p)] } i (encode p) n

/-! ## What has been posted -/

def posted (s : State ι π β) (i : ι) : List π := packets_of i s.begun ++ s.queue i

theorem posted_post (s : State ι π β) (i : ι) (ps : List π) (j : ι) :
    posted (step encode s (.post i ps)) j = posted s j ++ if j = i then ps else [] := by
  simp only [posted, step]
  by_cases h : j = i
  · subst h
    simp
  · simp [h]

theorem posted_write (s : State ι π β) (i : ι) (n : Nat) (j : ι) :
    posted (step encode s (.write i n)) j = posted s j := by
  simp only [posted, step]
  cases s.rest i with
  | cons b bs => rfl
  | nil =>
    cases hq : s.queue i with
    | nil => rfl
    | cons p ps =>
      simp only [accept, packets_of_append]
      by_cases h : j = i
      · subst h
        rw [update_self, hq, show packets_of j [(j, p)] = [p] from packets_of_map_self j [p], List.append_assoc]
        rfl
      · rw [update_of_ne h, show packets_of j [(i, p)] = [] from packets_of_map_of_ne (Ne.symm h) [p],
          List.append_nil]

/-! ## The frame -/

/-- At most one writer is in the middle of a packet, and with its rest the stream
is a concatenation of packets. -/
structure Framed (s : State ι π β) (i : ι) : Prop where
  others : ∀ j, j ≠ i → s.rest j = []
  bytes : s.stream ++ s.rest i = s.begun.flatMap fun q => encode q.2

def BeginsAlone (s : State ι π β) : Op ι π → Prop
  | .post .. => True
  | .write i _ => s.rest i = [] → s.queue i ≠ [] → ∀ j, s.rest j = []

omit [DecidableEq ι] in
theorem framed_init (i : ι) : Framed encode (init : State ι π β) i := ⟨fun _ _ => rfl, rfl⟩

theorem framed_accept {s : State ι π β} {i : ι} {bytes : List β} (n : Nat) (hothers : ∀ j, j ≠ i → s.rest j = [])
    (hbytes : s.stream ++ bytes = s.begun.flatMap fun q => encode q.2) : Framed encode (accept s i bytes n) i where
  others j hj := by
    simp only [accept]
    rw [update_of_ne hj]
    exact hothers j hj
  bytes := by
    simp only [accept]
    rw [update_self, List.append_assoc, List.take_append_drop]
    exact hbytes

theorem framed_post {s : State ι π β} {i : ι} (h : Framed encode s i) (j : ι) (ps : List π) :
    Framed encode (step encode s (.post j ps)) i := ⟨h.others, h.bytes⟩

theorem framed_step {s : State ι π β} {i : ι} (h : Framed encode s i) {op : Op ι π} (ha : BeginsAlone s op) :
    ∃ i', Framed encode (step encode s op) i' := by
  cases op with
  | post j ps => exact ⟨i, framed_post encode h j ps⟩
  | write j n =>
    simp only [step]
    cases hr : s.rest j with
    | cons b bs =>
      -- the writer in the middle of a packet is the one that goes on
      have hj : j = i := by
        by_contra hne
        rw [h.others j hne] at hr
        cases hr
      subst hj
      exact ⟨j, framed_accept encode n h.others (by rw [← hr]; exact h.bytes)⟩
    | nil =>
      cases hq : s.queue j with
      | nil => exact ⟨i, h⟩
      | cons p ps =>
        have hnone := ha hr (by rw [hq]; exact List.cons_ne_nil p ps)
        have hstream : s.stream = s.begun.flatMap fun q => encode q.2 := by
          have := h.bytes
          rwa [hnone i, List.append_nil] at this
        refine ⟨j, framed_accept encode n (fun k _ => hnone k) ?_⟩
        simp only [List.flatMap_append, List.flatMap_singleton]
        rw [hstream]

def OneWriter (s : State ι π β) (i : ι) : Prop := ∀ j, j ≠ i → s.rest j = []

/-- The writer goes on, or another one begins when it has come to the end of a packet. -/
theorem one_writer_write {s : State ι π β} {i j : ι} (h : OneWriter s i) (hj : j = i ∨ s.rest i = []) (n : Nat) :
    BeginsAlone s (.write j n) ∧ OneWriter (step encode s (.write j n)) j := by
  have hrest : ∀ k, k ≠ j → s.rest k = [] := by
    intro k hk
    by_cases hki : k = i
    · subst hki
      exact hj.resolve_left (Ne.symm hk)
    · exact h k hki
  refine ⟨fun hr _ k => ?_, fun k hk => ?_⟩
  · by_cases hk : k = j
    · rw [hk, hr]
    · exact hrest k hk
  · simp only [step]
    cases s.rest j with
    | cons b bs => exact (update_of_ne hk _ _).trans (hrest k hk)
    | nil =>
      cases s.queue j with
      | nil => exact hrest k hk
      | cons p ps => exact (update_of_ne hk _ _).trans (hrest k hk)

end

/-! ## Streams that are no concatenation -/

section
variable [DecidableEq β]

/-- Whether a list can be cut into words of a dictionary, of which it takes at most
`n`. -/
def splits (words : List (List β)) : Nat → List β → Bool
  | _, [] => true
  | 0, _ => false
  | n + 1, s => words.any fun w => w.isPrefixOf s && splits words n (s.drop w.length)

theorem splits_flatten {words : List (List β)} (hne : ∀ w ∈ words, w ≠ []) :
    ∀ {ws : List (List β)} {n : Nat}, (∀ w ∈ ws, w ∈ words) → ws.flatten.length ≤ n → splits words n ws.flatten = true
  | [], n, _, _ => by cases n <;> rfl
  | w :: ws, n, hws, hn => by
    have hw := hws w List.mem_cons_self
    obtain ⟨b, bs, rfl⟩ := List.exists_cons_of_ne_nil (hne w hw)
    cases n with
    | zero => simp at hn
    | succ n =>
      have ih : splits words n ws.flatten = true :=
        splits_flatten hne (fun w' hw' => hws w' (List.mem_cons_of_mem _ hw')) (by simp at hn ⊢; omega)
      simp only [List.flatten_cons, List.cons_append, splits, List.any_eq_true]
      refine ⟨b :: bs, hw, ?_⟩
      rw [Bool.and_eq_true]
      refine ⟨?_, ?_⟩
      · rw [List.isPrefixOf_iff_prefix]
        exact List.prefix_append (b :: bs) ws.flatten
      · rw [← List.cons_append, List.drop_left]
        exact ih

end

end SharedStream

import VrpcAgent.Replies
import Mathlib.Data.List.Nodup

/-!
# Packet identifiers on the shared connection

A process takes the lowest identifier that is free in its own allocator, and a
fork works on a copy of the parent's. As long as a process only writes while its
own allocator has every unacknowledged identifier marked as in use, the
unacknowledged identifiers are distinct.
-/

namespace VrpcAgent

open Effects Runs

def Distinct (l : List Sent) : Prop := (l.map (·.id)).Nodup

theorem distinct_append {l l' : List Sent} (h : Distinct l) (h' : Distinct l')
    (hd : ∀ p ∈ l, ∀ q ∈ l', p.id ≠ q.id) : Distinct (l ++ l') := by
  rw [Distinct, List.map_append, List.nodup_append]
  refine ⟨h, h', fun a ha b hb => ?_⟩
  obtain ⟨p, hp, rfl⟩ := List.mem_map.mp ha
  obtain ⟨q, hq, rfl⟩ := List.mem_map.mp hb
  exact hd p hp q hq

def Marks (pids : Allocator) (l : List Sent) : Prop := ∀ p ∈ l, ¬ pids.Free p.id

/-- What a process has written since its allocator was `pids`: distinct
identifiers, free before and marked now. -/
structure Acquired (pids : Allocator) (s : Frame) : Prop where
  distinct : Distinct s.out
  marks : Marks s.agent.pids s.out
  free : ∀ p ∈ s.out, pids.Free p.id
  shrinks : ∀ v, s.agent.pids.Free v → pids.Free v

section
variable (host : Host) (opts : Options)

theorem keeps_acquired_send (pids : Allocator) (p : Packet) : Keeps (Acquired pids) (send host p) := by
  intro s h
  rw [run_send]
  cases ha : s.agent.pids.allocate with
  | none => exact h
  | some r =>
    obtain ⟨id, pids'⟩ := r
    obtain ⟨hid, -, hfree⟩ := Allocator.allocate_spec ha
    have marks : Marks pids' s.out := fun q hq hf => h.marks q hq ((hfree q.id).mp hf).1
    have shrinks : ∀ v, pids'.Free v → pids.Free v := fun v hv => h.shrinks v ((hfree v).mp hv).1
    cases host.refuse p with
    | some e => exact ⟨h.distinct, marks, h.free, shrinks⟩
    | none =>
      refine ⟨?_, ?_, ?_, shrinks⟩
      · refine distinct_append h.distinct (List.nodup_singleton _) fun q hq q' hq' hqq => h.marks q hq ?_
        rw [hqq, List.mem_singleton.mp hq']; exact hid
      · intro q hq
        rcases List.mem_append.mp hq with hq | hq
        · exact marks q hq
        · rw [List.mem_singleton.mp hq]; exact fun hf => ((hfree id).mp hf).2 rfl
      · intro q hq
        rcases List.mem_append.mp hq with hq | hq
        · exact h.free q hq
        · rw [List.mem_singleton.mp hq]; exact h.shrinks id hid

theorem keeps_acquired_write (pids : Allocator) (w : Write) : Keeps (Acquired pids) (write host w) := by
  intro s h
  rw [run_write]
  cases w.packet with
  | error e => exact ⟨h.distinct, h.marks, h.free, h.shrinks⟩
  | ok p => exact keeps_acquired_send host pids p _ ⟨h.distinct, h.marks, h.free, h.shrinks⟩

theorem acquired_nil (a : Agent) (j : Json) : Acquired a.pids ⟨a, j, [], none⟩ :=
  ⟨List.nodup_nil, nofun, nofun, fun _ h => h⟩

theorem acquired_handled (mc : Except Str Unit) (m : Msg) (a : Agent) :
    Acquired a.pids (after (handled host opts mc m a)) := by
  cases hr : request host m with
  | none =>
    obtain ⟨j, hj⟩ := handled_none host opts mc hr a
    rw [hj]; exact acquired_nil a j
  | some r =>
    cases ha : r.action mc with
    | call fn args inst =>
      rw [handled_call host opts hr ha]
      exact ⟨List.nodup_nil, nofun, nofun, fun _ h => h⟩
    | _ =>
      rw [handled_served host opts hr (by rw [ha]; rfl), after_andThen_pure]
      exact served_inv host rfl (fun w _ => keeps_acquired_write host a.pids w)
        (fun _ s => keeps_acquired_write host a.pids _ s) (acquired_nil (r.register a) _)

theorem acquired_connack (a : Agent) :
    Acquired a.pids (after ((connack_handler host opts).run ⟨a, .null, [], none⟩)) :=
  keeps_connack host opts (fun _ _ _ => keeps_acquired_send host a.pids _)
    (fun _ _ => keeps_acquired_send host a.pids _) _ (acquired_nil a .null)

theorem acquired_fork_reply {call : VrpcCall} {m : List (Str × Json)}
    (h : call.memory.awaited_callbacks call.call_id = some (.object m)) {out : Str} {u : Unit} {fr : Frame}
    (hr : fork_reply host call out = .ok u fr) : Acquired call.memory.pids fr := by
  have hk := keeps_acquired_write host call.memory.pids (reply_write call.memory.instances (reply_members host out m))
    ⟨call.erased, .object m, [], none⟩ (acquired_nil call.erased _)
  rw [← fork_reply_eq host h, hr] at hk
  exact hk

end

theorem distinct_written {pids : Allocator} {l : List Sent} {s : Frame} (h : Distinct l) (hm : Marks pids l)
    (hs : Acquired pids s) : Distinct (l ++ s.out) :=
  distinct_append h hs.distinct fun p hp q hq he => hm p hp (he ▸ hs.free q hq)

section
variable {V : Type} (host : Host) (opts : Options) (R : RLib V)

/-- A process that writes has every unacknowledged identifier marked as in use:
the parent, unless the request is a call that it hands to R, and a fork at its
reply. -/
def Informed (s : System V) : Event → Prop
  | .deliver _ m mc _ => ∀ r, request host m = some r → (r.action mc).is_call = false → Marks s.agent.pids s.unacked
  | .step k => ∀ f sc ev, s.sessions.forks k = some f → f.stage = .saved sc ev → Marks f.call.memory.pids s.unacked
  | .ack _ => True

theorem distinct_step {s : System V} (ht : Traced host opts s) (h : Distinct s.unacked) {e : Event}
    (he : Informed host s e) : Distinct (s.step host opts R e).unacked := by
  cases e with
  | deliver k m mc tmp =>
    simp only [System.step]
    split
    · have hout := acquired_handled host opts mc m s.agent
      simp only [System.deliver]
      by_cases hw : (after (handled host opts mc m s.agent)).out = []
      · rw [hw, List.append_nil]; exact h
      · cases hr : request host m with
        | none =>
          obtain ⟨j, hj⟩ := handled_none host opts mc hr s.agent
          rw [hj] at hw; exact absurd rfl hw
        | some r =>
          cases ha : r.action mc with
          | call fn args inst => rw [handled_call host opts hr ha] at hw; exact absurd rfl hw
          | _ => exact distinct_written h (he r hr (by rw [ha]; rfl)) hout
    · exact h
  | step k =>
    simp only [System.step]
    rcases fork_writes_cases host R s.sessions k with hw | ⟨f, sc, ev, out, fr, hf, hst, hfr, hw⟩
    · rw [hw, List.append_nil]; exact h
    · obtain ⟨r, haw⟩ := ht.fork_awaits host opts hf
      rw [hw]
      exact distinct_written h (he f sc ev hf hst) (acquired_fork_reply host haw hfr)
  | ack i =>
    simp only [System.step]
    split
    · exact h
    · split
      · exact h.sublist ((List.eraseIdx_sublist ..).map _)
      · exact h

theorem run_distinct {s : System V} (h₀ : Fresh s) (h : Distinct s.unacked) {evs : List Event}
    (hrun : Along (System.step host opts R) (Informed host) s evs) :
    Distinct (run (System.step host opts R) s evs).unacked :=
  (run_inv (P := fun s => Traced host opts s ∧ Distinct s.unacked)
    (fun _ e hs he => ⟨traced_step host opts R hs.1 e, distinct_step host opts R hs.1 hs.2 he⟩)
    ⟨h₀.traced host opts, h⟩ hrun).2

/-- **Packet identifiers are unique** in every run whose writers are informed: the
unacknowledged packets have distinct identifiers, so the acknowledgement of one
releases the identifier of no other. -/
theorem packet_ids_unique (genv : Env V) (fs : FS V) {evs : List Event}
    (hrun : Along (System.step host opts R) (Informed host) (System.start host opts genv fs) evs) :
    let s := run (System.step host opts R) (System.start host opts genv fs) evs
    Distinct s.unacked ∧ ∀ i p, s.unacked[i]? = some p → ∀ q ∈ s.unacked.eraseIdx i, q.id ≠ p.id := by
  have h := run_distinct host opts R (fresh_start host opts genv fs) (acquired_connack host opts Agent.new).distinct hrun
  refine ⟨h, fun i p hp q hq hid => ?_⟩
  obtain ⟨j, hji, hj⟩ := List.mem_eraseIdx_iff_getElem?.mp hq
  refine hji ((List.getElem?_inj (by simpa using (List.getElem?_eq_some_iff.mp hj).1) h).mp ?_)
  rw [List.getElem?_map, List.getElem?_map, hp, hj, Option.map_some, Option.map_some, hid]

instance (a : Allocator) (v : Nat) : Decidable (a.Free v) :=
  inferInstanceAs (Decidable (∃ e ∈ a.pool, e.1 ≤ v ∧ v ≤ e.2))

instance (pids : Allocator) (l : List Sent) : Decidable (Marks pids l) :=
  inferInstanceAs (Decidable (∀ p ∈ l, ¬ pids.Free p.id))

/-- `Informed`, whatever the process is about to do. -/
def informed (s : System V) : Event → Bool
  | .deliver .. => decide (Marks s.agent.pids s.unacked)
  | .step k => (s.sessions.forks k).all fun f => decide (Marks f.call.memory.pids s.unacked)
  | .ack _ => true

theorem informed_spec {s : System V} {e : Event} (h : informed s e = true) : Informed host s e := by
  cases e with
  | deliver k m mc tmp => exact fun _ _ _ => of_decide_eq_true h
  | step k =>
    intro f sc ev hf _
    rw [informed, hf] at h
    exact of_decide_eq_true h
  | ack i => trivial

end

/-! ## Two static calls -/

def assign_request (k : Nat) : Event :=
  .deliver k (small_request "__static__" "assign" (lit "t") [lit "v", lit "1"]) (.ok ()) []

def assign_host : Host := small_host [(lit "t", [lit "v", lit "1"])]

abbrev after_assigns (evs : List Event) : System Str :=
  run (System.step assign_host small_options small_R)
    (System.start assign_host small_options (fun _ => none) (fun _ => none)) evs

def acknowledged_between : List Event :=
  assign_request 0 :: List.replicate 4 (.step 0) ++ .ack 5 :: assign_request 1 :: List.replicate 4 (.step 1)

theorem packet_ids_unique_acknowledged : Distinct (after_assigns acknowledged_between).unacked :=
  (packet_ids_unique assign_host small_options small_R (fun _ => none) (fun _ => none)
    ((by decide +kernel : Along (System.step assign_host small_options small_R) (fun s e => informed s e = true)
      (System.start assign_host small_options (fun _ => none) (fun _ => none)) acknowledged_between).mono
        fun _ _ h => informed_spec assign_host h)).1

theorem overlapping_replies_share_id :
    ¬ Distinct (after_assigns (assign_request 0 :: assign_request 1 ::
      (List.replicate 4 (.step 0) ++ List.replicate 4 (.step 1)))).unacked := by
  unfold Distinct
  decide +kernel

end VrpcAgent

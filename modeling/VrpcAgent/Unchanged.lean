import VrpcAgent.Survival
import VrpcAgent.Registry

/-!
# Requests without a success reply

A creation or a deletion subscribes, changes the list and publishes the class
information before it looks at the reply topic. So a request that gets no reply
with a member `r` may still have changed everything.
-/

namespace VrpcAgent

open Function Effects Runs

def has_r : Packet → Bool
  | .publish _ (.object j) false => (Json.find (lit "r") j).isSome
  | _ => false

section
variable (host : Host) (opts : Options)

/-! ## Success replies -/

def CanSend (pids : Allocator) (p : Packet) : Prop := pids.allocate ≠ none ∧ host.refuse p = none

/-- A reply with a member `r` goes out: every packet up to it can be sent or, where
one cannot, the error reply can be sent and the members have an `r` already. -/
def Succeeds : Allocator → List Write → Prop
  | _, [] => False
  | pids, w :: ws =>
    match w.packet with
    | .error e => Repliable host pids (error_members w.members e) ∧ (Json.find (lit "r") w.members).isSome = true
    | .ok p =>
      match pids.allocate with
      | none => False
      | some (_, pids') =>
        match host.refuse p with
        | some e => Repliable host pids' (error_members w.members e) ∧ (Json.find (lit "r") w.members).isSome = true
        | none => has_r p = true ∨ Succeeds pids' ws

def RSent (s : Frame) : Prop := ∃ q ∈ s.out, has_r q.packet = true

theorem rSent_concat {s s' : Frame} {id : Nat} {p : Packet} (h : s'.out = s.out ++ [⟨id, p⟩]) :
    RSent s' ↔ RSent s ∨ has_r p = true := by
  simp only [RSent, h, List.mem_append, List.mem_singleton, or_and_right, exists_or, exists_eq_left]

theorem rSent_report_error {s : Frame} {m : List (Str × Json)} (hj : s.j = .object m) (e : Exn) :
    RSent (after ((report_error host e).run s)) ↔
      RSent s ∨ Repliable host s.agent.pids (error_members m e) ∧ (Json.find (lit "r") m).isSome = true := by
  have hret := returns_report_error_iff host hj e
  rw [run_report_error host (by rw [hj]; rfl)] at hret ⊢
  cases hw : (write host (reply_write s.agent.instances (Json.put (lit "e") (.string (error_text e)) m))).run s with
  | ok u s' =>
    rw [hw] at hret
    obtain ⟨p, id, pids, hp, -, -, rfl⟩ := write_ok host hw
    obtain ⟨t, -, rfl⟩ := reply_packet_eq hp
    have hr : Json.find (lit "r") (error_members m e) = Json.find (lit "r") m := by
      rw [error_members, Json.find_touch_of_ne (by decide), Json.find_put_of_ne (by decide)]
    simp only [after_ok, hret.mp rfl, true_and]
    rw [rSent_concat (s := s) rfl, ← hr]
    rfl
  | error e' s' =>
    rw [hw] at hret
    obtain ⟨pids, rfl, -⟩ := write_error host hw
    have hno : ¬ Repliable host s.agent.pids (error_members m e) := fun h => by
      have := hret.mpr h
      cases this
    simp only [hno, false_and, or_false]
    rfl

theorem rSent_served : ∀ (ws : List Write) (s : Frame),
    RSent (after (served host s ws)) ↔ RSent s ∨ Succeeds host s.agent.pids ws
  | [], s => by simp [served, Succeeds]
  | w :: ws, s => by
    rw [served, run_each_cons, run_write, Succeeds]
    cases w.packet with
    | error e => exact rSent_report_error host rfl e
    | ok p =>
      simp only [run_send]
      cases ha : s.agent.pids.allocate with
      | none =>
        simp only [andThen_error, orElse_error, or_false]
        rw [rSent_report_error host rfl]
        have hno : ∀ m, ¬ Repliable host s.agent.pids m := fun m h => (free_iff_allocate _).mp h.pid ha
        simp only [hno, false_and, or_false]
        rfl
      | some r =>
        obtain ⟨id, pids⟩ := r
        cases host.refuse p with
        | some e => exact rSent_report_error host rfl e
        | none =>
          simp only [andThen_ok]
          rw [← served, rSent_served ws, rSent_concat (s := s) rfl, or_assoc]

/-! ## The packets of a request -/

theorem packets_replies {l : List Sent} (h : ∀ q ∈ l, IsReply q.packet) (b : Broker) :
    b.packets (l.map (·.packet)) = b := by
  induction l with
  | nil => rfl
  | cons q l ih =>
    obtain ⟨t, j, hq⟩ := h q List.mem_cons_self
    rw [List.map_cons, Broker.packets, List.foldl_cons, hq]
    exact ih fun q' hq' => h q' (List.mem_cons_of_mem q hq')

theorem served_replies {s : Frame} {m : List (Str × Json)} (hj : s.j = .object m) {ws : List Write}
    (hws : ∀ w ∈ ws, ∀ p, w.packet = .ok p → IsReply p) : Appends IsReply s.out (after (served host s ws)) := by
  apply appends_served host _ hj hws
  intro t j
  exact ⟨t, j, rfl⟩

theorem served_unsent {s : Frame} {p : Packet} (h : ¬ CanSend host s.agent.pids p) (m : List (Str × Json)) (ws : List Write) :
    Appends IsReply s.out (after (served host s (⟨s.agent.instances, m, .ok p⟩ :: ws))) ∧
      (after (served host s (⟨s.agent.instances, m, .ok p⟩ :: ws))).agent.instances = s.agent.instances := by
  cases hw : (write host ⟨s.agent.instances, m, .ok p⟩).run s with
  | ok u s' =>
    obtain ⟨p', id, pids, hp, ha, hr, -⟩ := write_ok host hw
    cases hp
    exact absurd ⟨by rw [ha]; exact Option.some_ne_none _, hr⟩ h
  | error e s' =>
    rw [served_cons_error host hw]
    obtain ⟨pids, rfl, -⟩ := write_error host hw
    constructor
    · apply keeps_appends_write host _ _ (appends_refl IsReply _)
      intro p hp
      obtain ⟨t, -, rfl⟩ := reply_packet_eq hp
      exact ⟨t, _, rfl⟩
    · obtain ⟨pids', new, ha, -⟩ := after_write host
        (reply_write s.agent.instances (Json.put (lit "e") (.string (error_text e)) m))
        { s with agent := { s.agent with pids }, j := .object m }
      rw [ha]; rfl

theorem served_sent {s : Frame} {p : Packet} (h : CanSend host s.agent.pids p) (m : List (Str × Json)) (ws : List Write) :
    ∃ id s', served host s (⟨s.agent.instances, m, .ok p⟩ :: ws) = served host s' ws ∧ s'.out = s.out ++ [⟨id, p⟩] ∧
      s'.j = .object m ∧ s'.agent.instances = s.agent.instances := by
  obtain ⟨hpid, hr⟩ := h
  cases hw : (write host ⟨s.agent.instances, m, .ok p⟩).run s with
  | ok u s' =>
    obtain ⟨p', id, pids, hp, -, -, rfl⟩ := write_ok host hw
    cases hp
    exact ⟨id, _, served_cons_ok host hw ws, rfl, rfl, rfl⟩
  | error e s' =>
    have hret := (returns_write_iff host ⟨s.agent.instances, m, .ok p⟩ s).mpr ⟨p, rfl, hpid, hr⟩
    rw [hw] at hret
    cases hret

end

/-! ## What a request without a success reply leaves -/

section
variable {V : Type} (host : Host) (opts : Options) (R : RLib V)

structure Unchanged (s s' : System V) : Prop where
  instances : s'.agent.instances = s.agent.instances
  held : s'.broker.held = s.broker.held
  retained : s'.broker.retained (class_info_topic opts) = s.broker.retained (class_info_topic opts)

/-- The success reply goes out, or the first packet cannot be sent, or the name to be
deleted is neither in the list nor subscribed. -/
def Clean (s : System V) (r : Request) (mc : Except Str Unit) : Prop :=
  Succeeds host s.agent.pids (writes opts s.agent.instances r.body (r.action mc)) ∨
    match r.action mc with
    | .create x => ¬ CanSend host s.agent.pids (.subscribe (instance_filter opts x))
    | .delete x => ¬ CanSend host s.agent.pids (.unsubscribe (instance_filter opts x)) ∨
        x ∉ s.agent.instances ∧ s.broker.held (instance_filter opts x) = false
    | _ => True

variable {s : System V} {m : Msg} {mc : Except Str Unit}

theorem unchanged_of_replies (hout : Appends IsReply [] (after (handled host opts mc m s.agent)))
    (hl : (after (handled host opts mc m s.agent)).agent.instances = s.agent.instances) (k : Nat) (tmp : Str) :
    Unchanged opts s (s.deliver host opts k m mc tmp) := by
  obtain ⟨new, hout, hnew⟩ := hout
  have hb : (s.deliver host opts k m mc tmp).broker = s.broker := by
    rw [broker_deliver, hout]
    exact packets_replies hnew s.broker
  exact ⟨hl, by rw [hb], by rw [hb]⟩

variable {r : Request} (hr : request host m = some r) (k : Nat) (tmp : Str)
include hr

theorem served_request (hna : (r.action mc).is_call = false) :
    after (handled host opts mc m s.agent) = after (served host ⟨r.register s.agent, .object r.body, [], none⟩
        (writes opts s.agent.instances r.body (r.action mc))) ∧
      (RSent (after (handled host opts mc m s.agent)) ↔
        Succeeds host s.agent.pids (writes opts s.agent.instances r.body (r.action mc))) := by
  have h : after (handled host opts mc m s.agent) = after (served host ⟨r.register s.agent, .object r.body, [], none⟩
      (writes opts s.agent.instances r.body (r.action mc))) := by
    rw [handled_served host opts hr hna, after_andThen_pure]
  refine ⟨h, ?_⟩
  rw [h, rSent_served]
  exact or_iff_right fun hs => by
    obtain ⟨q, hq, -⟩ := hs
    cases hq

theorem changed_of_sent {p : Packet} {w : Write} {ws : List Write}
    (hw : writes opts s.agent.instances r.body (r.action mc) = ⟨s.agent.instances, r.body, .ok p⟩ :: w :: ws)
    (hsame : ∀ w' ∈ w :: ws, w'.instances = w.instances) (hne : w.instances ≠ s.agent.instances)
    (hna : (r.action mc).is_call = false) (hsend : CanSend host s.agent.pids p) :
    ¬ Unchanged opts s (s.deliver host opts k m mc tmp) := by
  intro h
  obtain ⟨id, s', hserved, -, -, -⟩ :=
    served_sent host (s := ⟨r.register s.agent, .object r.body, [], none⟩) hsend r.body (w :: ws)
  apply hne
  rw [← h.instances]
  show w.instances = (after (handled host opts mc m s.agent)).agent.instances
  rw [(served_request host opts hr hna).1, hw]
  rw [show s.agent.instances = (r.register s.agent).instances from rfl, hserved, served_instances host hsame]

theorem unlisted_unchanged_iff {x : Str} (ha : r.action mc = .delete x) (hx : x ∉ s.agent.instances)
    (hsend : CanSend host s.agent.pids (.unsubscribe (instance_filter opts x))) :
    Unchanged opts s (s.deliver host opts k m mc tmp) ↔ s.broker.held (instance_filter opts x) = false := by
  obtain ⟨hafter, -⟩ := served_request host opts (s := s) hr (by rw [ha]; rfl)
  rw [ha, writes, if_neg hx] at hafter
  have hreply : ∀ w ∈ [reply_write s.agent.instances (Json.put (lit "r") (.boolean false) r.body)],
      ∀ p, w.packet = .ok p → IsReply p := by
    intro w hw p hp
    rw [List.mem_singleton.mp hw] at hp
    obtain ⟨t, -, rfl⟩ := reply_packet_eq hp
    exact ⟨t, _, rfl⟩
  obtain ⟨id, s', hserved, hout, hj, -⟩ := served_sent host (s := ⟨r.register s.agent, .object r.body, [], none⟩) hsend
    r.body [reply_write s.agent.instances (Json.put (lit "r") (.boolean false) r.body)]
  have hafter : after (handled host opts mc m s.agent) =
      after (served host s' [reply_write s.agent.instances (Json.put (lit "r") (.boolean false) r.body)]) := by
    rw [hafter, ← hserved]; rfl
  obtain ⟨new, hnew, hreplies⟩ := served_replies host hj hreply
  have hbroker : (s.deliver host opts k m mc tmp).broker = s.broker.packet (.unsubscribe (instance_filter opts x)) := by
    rw [broker_deliver, hafter, hnew, hout, List.nil_append, List.map_append, Broker.packets_append, packets_replies hreplies]
    rfl
  constructor
  · intro h
    have hheld := congrFun h.held (instance_filter opts x)
    rw [hbroker] at hheld
    rw [← hheld]; exact update_self ..
  · intro h
    refine ⟨?_, ?_, by rw [hbroker]; rfl⟩
    · show (after (handled host opts mc m s.agent)).agent.instances = _
      rw [hafter]
      exact served_instances host (by simp)
    · rw [hbroker]
      funext f
      by_cases hf : f = instance_filter opts x
      · subst hf
        rw [h]; exact update_self ..
      · exact update_of_ne hf ..

theorem clean_iff (hna : (r.action mc).is_call = false) :
    (¬ RSent (after (handled host opts mc m s.agent)) → Unchanged opts s (s.deliver host opts k m mc tmp)) ↔
      Clean host opts s r mc := by
  obtain ⟨hafter, hrs⟩ := served_request host opts (s := s) hr hna
  have hunsent : ∀ {p : Packet} {ws : List Write},
      writes opts s.agent.instances r.body (r.action mc) = ⟨s.agent.instances, r.body, .ok p⟩ :: ws →
        ¬ CanSend host s.agent.pids p → Unchanged opts s (s.deliver host opts k m mc tmp) := by
    intro p ws hw hsend
    obtain ⟨hout, hl⟩ := served_unsent host (s := ⟨r.register s.agent, .object r.body, [], none⟩) hsend r.body ws
    apply unchanged_of_replies host opts <;> rw [hafter, hw]
    · exact hout
    · exact hl
  rw [Clean, hrs]
  cases ha : r.action mc with
  | call => rw [ha] at hna; cases hna
  | invalid e =>
    refine iff_of_true (fun _ => ?_) (Or.inr trivial)
    apply unchanged_of_replies host opts <;> rw [hafter, ha, writes]
    · exact served_replies host rfl fun w hw p hp => by
        rw [List.mem_singleton.mp hw] at hp
        cases hp
    · exact served_instances host (by simp)
  | create x =>
    by_cases hsend : CanSend host s.agent.pids (.subscribe (instance_filter opts x))
    · have hchanged := changed_of_sent host opts hr k tmp (w := ⟨s.agent.instances ++ [x], r.body, _⟩)
        (by rw [ha, writes]) (by simp [reply_write]) (by simp) hna hsend
      simp only [hchanged, hsend, not_true, or_false, imp_false, not_not]
    · exact iff_of_true (fun _ => hunsent (by rw [ha, writes]) hsend) (Or.inr hsend)
  | delete x =>
    by_cases hsend : CanSend host s.agent.pids (.unsubscribe (instance_filter opts x))
    · by_cases hx : x ∈ s.agent.instances
      · have hlen : s.agent.instances.erase x ≠ s.agent.instances := by
          intro heq
          have hlength := List.length_erase_add_one hx
          rw [heq] at hlength
          omega
        have hchanged := changed_of_sent host opts hr k tmp (w := ⟨s.agent.instances.erase x, r.body, _⟩)
          (by rw [ha, writes, if_pos hx]) (by simp [reply_write]) hlen hna hsend
        simp only [hchanged, hsend, hx, not_true, false_and, or_false, imp_false, not_not]
      · have hiff := unlisted_unchanged_iff host opts hr k tmp ha hx hsend
        simp only [hiff, hsend, hx, not_true, not_false_eq_true, true_and, false_or]
        exact or_iff_not_imp_left.symm
    · exact iff_of_true (fun _ => hunsent (by rw [ha, writes]) hsend) (Or.inr (Or.inl hsend))

end

section
variable {V : Type} (host : Host) (opts : Options) (R : RLib V)

/-- **Requests without a success reply** change nothing exactly when they are clean.
A message that is no request never changes anything. -/
theorem silent_request_iff (genv : Env V) (fs : FS V) {evs : List Event} {s : System V}
    (hs : s = run (System.step host opts R) (System.start host opts genv fs) evs) {k : Nat} (hrun : s.running = true)
    (hk : s.deliveries k = none) (m : Msg) (mc : Except Str Unit) (tmp : Str) :
    ((∀ q ∈ written (s.step host opts R (.deliver k m mc tmp)).log (.handler k), has_r q.packet = false) →
        Unchanged opts s (s.step host opts R (.deliver k m mc tmp))) ↔
      ∀ r, request host m = some r → Clean host opts s r mc := by
  have ht : Traced host opts s := hs ▸ run_traced host opts R (fresh_start host opts genv fs) evs
  have hnone : (∀ q ∈ (after (handled host opts mc m s.agent)).out, has_r q.packet = false) ↔
      ¬ RSent (after (handled host opts mc m s.agent)) := by
    simp only [RSent, not_exists, not_and, Bool.not_eq_true]
  rw [step_deliver host opts R hrun hk, ht.written_deliver host opts hk, hnone]
  cases hr : request host m with
  | none =>
    obtain ⟨j, hj⟩ := handled_none host opts mc hr s.agent
    refine iff_of_true (fun _ => ?_) fun r h => by cases h
    apply unchanged_of_replies host opts <;> rw [hj]
    exact appends_refl IsReply ⟨s.agent, j, [], none⟩
  | some r =>
    simp only [Option.some.injEq, forall_eq']
    cases hcall : (r.action mc).is_call with
    | false => exact clean_iff host opts hr k tmp hcall
    | true =>
      have hc : ∃ fn args inst, r.action mc = .call fn args inst := by
        cases ha : r.action mc with
        | call fn args inst => exact ⟨fn, args, inst, rfl⟩
        | _ => rw [ha] at hcall; cases hcall
      obtain ⟨fn, args, inst, ha⟩ := hc
      refine iff_of_true (fun _ => ?_) (Or.inr (by rw [ha]; trivial))
      apply unchanged_of_replies host opts <;> rw [handled_call host opts hr ha]
      · exact appends_refl IsReply ⟨r.register s.agent, .object r.body, [], _⟩
      · rfl

end

def Action.is_invalid : Action → Bool
  | .invalid _ => true
  | _ => false

def no_arguments_host : Host := small_host [(lit "t", [])]

def create_without_arguments : Msg := small_request "__static__" "__createShared__" (lit "t") []

def no_arguments_start : System Str := System.start no_arguments_host small_options (fun _ => none) (fun _ => none)

theorem invalid_request_changes_nothing :
    Unchanged small_options no_arguments_start
      (no_arguments_start.step no_arguments_host small_options small_R
        (.deliver 0 create_without_arguments (.ok ()) [])) := by
  have hs : no_arguments_start = run (System.step no_arguments_host small_options small_R)
      (System.start no_arguments_host small_options (fun _ => none) (fun _ => none)) [] := rfl
  apply (silent_request_iff no_arguments_host small_options small_R (fun _ => none) (fun _ => none) hs
    (by decide +kernel) rfl _ _ _).mpr
  · intro r hr
    have hinvalid : ((request no_arguments_host create_without_arguments).all fun r =>
        (r.action (.ok ())).is_invalid) = true := by
      decide +kernel
    rw [hr, Option.all_some] at hinvalid
    refine Or.inr ?_
    cases ha : r.action (.ok ()) with
    | invalid e => trivial
    | _ => rw [ha] at hinvalid; cases hinvalid
  · decide +kernel

def no_topic_host : Host :=
  { small_host [] with
    parse := fun text => if text = lit "\x7b\"a\":[\"x\"]\x7d" then some (.object [(lit "a", strings [lit "x"])]) else none }

theorem request_without_topic_changes_instances :
    ¬ ∀ (k : Nat) (m : Msg) (s : System Str), s = System.start no_topic_host small_options (fun _ => none) (fun _ => none) →
      s.running = true → s.deliveries k = none →
        (∀ q ∈ written (s.step no_topic_host small_options small_R (.deliver k m (.ok ()) [])).log (.handler k),
          has_r q.packet = false) →
        Unchanged small_options s (s.step no_topic_host small_options small_R (.deliver k m (.ok ()) [])) := by
  intro h
  have hu := h 0 ⟨lit "d/a/Session/__static__/__createShared__", lit "\x7b\"a\":[\"x\"]\x7d"⟩ _ rfl
    (by decide +kernel) rfl (by decide +kernel)
  exact absurd hu.instances (by decide +kernel)

end VrpcAgent

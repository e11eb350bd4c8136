import VrpcAgent.Topics
import VrpcAgent.Recreation

/-!
# Which instances run code

The handler does not look at its list of instances: a call reaches R because a
message was delivered, and messages are delivered because of subscriptions. A message
that a subscription of the agent lets in, be it held or long given up, comes to a call on
a name that is in the list or was in it before, unless an instance has been created whose
name is itself a wildcard.
-/

namespace VrpcAgent

open Function Effects Runs

section
variable {V : Type} (host : Host) (opts : Options) (R : RLib V) (genv : Env V)

/-! ## The filters that an agent subscribes to -/

/-- A subscription that the agent has made lets the message in. It may have been given up
since: the message was under way by then, or the broker is late. -/
def Routed (s : System V) : Event → Prop
  | .deliver _ m _ _ => ∃ f, (∃ e ∈ s.log, e.sent.packet = .subscribe f) ∧ topic_matches f m.topic = true
  | _ => True

/-- `y` is in the list of instances at the end of the run, or was at an earlier moment. -/
def Listed (evs : List Event) (y : Str) : Prop :=
  ∃ l, l <+: evs ∧ y ∈ (reached host opts R genv (fun _ => none) l).agent.instances

theorem Listed.concat {evs : List Event} {y : Str} (h : Listed host opts R genv evs y) (e : Event) :
    Listed host opts R genv (evs ++ [e]) y := by
  obtain ⟨l, hl, hy⟩ := h
  exact ⟨l, hl.trans (List.prefix_append evs [e]), hy⟩

def Made (evs : List Event) (f : Str) : Prop :=
  (∃ g, f = base_topic opts ++ g) ∨ ∃ y, Listed host opts R genv evs y ∧ f = instance_filter opts y

theorem connack_filters {p : Sent} (hp : p ∈ (after ((connack_handler host opts).run ⟨Agent.new, .null, [], none⟩)).out)
    {f : Str} (hf : p.packet = .subscribe f) : ∃ g, f = base_topic opts ++ g := by
  let I : Frame → Prop := fun s => ∀ p ∈ s.out, ∀ f, p.packet = .subscribe f → ∃ g, f = base_topic opts ++ g
  have hsend : ∀ p, (∀ f, p = .subscribe f → ∃ g, f = base_topic opts ++ g) → Keeps I (send host p) := by
    intro p hp s hs
    rw [run_send]
    cases s.agent.pids.allocate with
    | none => exact hs
    | some r =>
      cases host.refuse p with
      | some e => exact hs
      | none =>
        intro q hq
        rcases List.mem_append.mp hq with hq | hq
        · exact hs q hq
        · rw [List.mem_singleton.mp hq]
          exact hp
  have h : Keeps I (connack_handler host opts) :=
    keeps_connack host opts (fun _ _ _ => hsend _ nofun) fun x _ => hsend _ fun f hf => by cases hf; exact ⟨x, rfl⟩
  exact h ⟨Agent.new, .null, [], none⟩ nofun p hp f hf

theorem subscribe_of_handled {mc : Except Str Unit} {m : Msg} {a : Agent} {p : Sent}
    (hp : p ∈ (after (handled host opts mc m a)).out) {f : Str} (hf : p.packet = .subscribe f) :
    ∃ x, f = instance_filter opts x ∧ x ∈ (after (handled host opts mc m a)).agent.instances := by
  have hquiet : ∀ {rest : List Sent}, Quiet rest → p ∉ rest := by
    intro rest hq hmem
    have hsub := hq p hmem
    rw [hf] at hsub
    cases hsub
  rcases handled_registry host opts mc m a with
    ⟨hq, -⟩ | ⟨r, x, id, rest, -, -, hout, hq, hl⟩ | ⟨r, x, id, rest, -, -, hout, hq, -⟩
  · exact absurd hp (hquiet hq)
  · rw [hout] at hp
    rcases List.mem_cons.mp hp with rfl | hp
    · cases hf
      rw [hl]
      exact ⟨x, rfl, List.mem_append_right _ List.mem_cons_self⟩
    · exact absurd hp (hquiet hq)
  · rw [hout] at hp
    rcases List.mem_cons.mp hp with rfl | hp
    · cases hf
    · exact absurd hp (hquiet hq)

/-- Every filter that has been subscribed to is one for static calls, or that of an instance which
is or was in the list. -/
theorem subscribed_made {evs : List Event} {e : Entry} {f : Str}
    (he : e ∈ (reached host opts R genv (fun _ => none) evs).log) (hf : e.sent.packet = .subscribe f) :
    Made host opts R genv evs f := by
  induction evs using List.reverseRecOn with
  | nil =>
    obtain ⟨p, hp, rfl⟩ := List.mem_map.mp he
    exact Or.inl (connack_filters host opts hp hf)
  | append_singleton evs ev ih =>
    have hold : e ∈ (reached host opts R genv (fun _ => none) evs).log → Made host opts R genv (evs ++ [ev]) f := fun h =>
      (ih h).imp_right fun ⟨y, hy, heq⟩ => ⟨y, hy.concat host opts R genv ev, heq⟩
    rw [reached, run_concat, ← reached] at he
    cases ev with
    | deliver k m mc tmp =>
      by_cases hrun : (reached host opts R genv (fun _ => none) evs).running = true ∧
          ((reached host opts R genv (fun _ => none) evs).deliveries k).isNone
      · rw [System.step, if_pos hrun] at he
        rcases List.mem_append.mp he with he | he
        · exact hold he
        · obtain ⟨p, hp, rfl⟩ := List.mem_map.mp he
          obtain ⟨x, hx, hmem⟩ := subscribe_of_handled host opts hp hf
          refine Or.inr ⟨x, ⟨_, List.prefix_rfl, ?_⟩, hx⟩
          rw [reached, run_concat, ← reached, System.step, if_pos hrun]
          exact hmem
      · rw [System.step, if_neg hrun] at he
        exact hold he
    | step k =>
      rcases List.mem_append.mp he with he | he
      · exact hold he
      · obtain ⟨p, hp, rfl⟩ := List.mem_map.mp he
        have hsub := fork_writes_quiet host R _ k p hp
        rw [hf] at hsub
        cases hsub
    | ack i =>
      simp only [System.step] at he
      split at he
      · exact hold he
      · split at he <;> exact hold he

/-! ## The calls that come through -/

/-- `x` is or was in the list, or an instance that is or was goes by a name that is no plain level,
and its filter takes the topic in. -/
def LetIn (evs : List Event) (topic x : Str) : Prop :=
  Listed host opts R genv evs x ∨
    ∃ y, Listed host opts R genv evs y ∧ ¬ Plain y ∧ topic_matches (instance_filter opts y) topic = true

section
variable (hd : Plain opts.domain) (ha : Plain opts.agent)
include hd ha

theorem let_in {evs : List Event} {k : Nat} {m : Msg} {mc : Except Str Unit} {tmp : Str}
    (hm : Routed (reached host opts R genv (fun _ => none) evs) (.deliver k m mc tmp)) {a : Agent} {c : VrpcCall}
    (hc : (after (handled host opts mc m a)).call = some c) {x : Str} (hx : c.instance_id = some x) :
    LetIn host opts R genv evs m.topic x := by
  obtain ⟨r, fn, args, inst, hr, hact, rfl⟩ := call_of_handled host opts hc
  obtain rfl : inst = some x := hx
  obtain ⟨rfl, hstatic⟩ := action_inst hact
  obtain ⟨d, a', j, htok, -, -⟩ := request_some host hr
  obtain ⟨f, ⟨e, he, hf⟩, hmatch⟩ := hm
  rcases subscribed_made host opts R genv he hf with ⟨g, rfl⟩ | ⟨y, hy, rfl⟩
  · obtain ⟨ts, ht⟩ := match_static hd ha hmatch
    rw [htok] at ht
    simp only [List.cons.injEq] at ht
    exact absurd ht.2.2.2.1 hstatic
  · by_cases hp : Plain y
    · obtain ⟨v, ht⟩ := match_instance hd ha hp hmatch
      rw [htok] at ht
      simp only [List.cons_append, List.cons.injEq] at ht
      obtain rfl : r.inst = y := ht.2.2.2.1
      exact Or.inl hy
    · exact Or.inr ⟨y, hy, hp, hmatch⟩

theorem no_fork {x : Str} {evs : List Event}
    (hrun : Along (System.step host opts R) (fun s e => called host e = some x → Routed s e)
      (System.start host opts genv fun _ => none) evs)
    (hx : ∀ k m mc tmp, .deliver k m mc tmp ∈ evs → called host (.deliver k m mc tmp) = some x →
      ¬ LetIn host opts R genv evs m.topic x) {k : Nat} {f : Fork V}
    (hf : (reached host opts R genv (fun _ => none) evs).sessions.forks k = some f) : f.call.instance_id ≠ some x := by
  induction evs using List.reverseRecOn generalizing f with
  | nil => cases hf
  | append_singleton evs e ih =>
    rw [along_append] at hrun
    have hold : ∀ {f}, (reached host opts R genv (fun _ => none) evs).sessions.forks k = some f →
        f.call.instance_id ≠ some x := by
      intro f hf
      refine ih hrun.1 (fun k' m mc tmp hmem hc hlet => ?_) hf
      refine hx k' m mc tmp (List.mem_append_left _ hmem) hc ?_
      exact hlet.imp (Listed.concat host opts R genv · e) fun ⟨y, hy, h⟩ => ⟨y, hy.concat host opts R genv e, h⟩
    have ht := run_traced host opts R (fresh_start host opts genv fun _ => none) evs
    rw [reached, run_concat] at hf
    rcases ht.fork_step host opts R hf with hf' | ⟨m, mc, tmp, c, rfl, hc, rfl⟩ | ⟨f', -, hf', rfl⟩
    · exact hold hf'
    · intro hcx
      have hcalled : called host (.deliver k m mc tmp) = some x := (called_of_call host opts hc).trans hcx
      refine hx k m mc tmp (List.mem_append_right _ List.mem_cons_self) hcalled ?_
      have hlet := let_in host opts R genv hd ha (hrun.2.1 hcalled) hc hcx
      exact hlet.imp (Listed.concat host opts R genv · _) fun ⟨y, hy, h⟩ => ⟨y, hy.concat host opts R genv _, h⟩
    · exact (hold hf' : f'.call.instance_id ≠ some x)

end

/-- The handler hands the same call to R whatever is in the list. -/
theorem handled_call_instances (mc : Except Str Unit) (m : Msg) (a : Agent) (l : List Str) :
    (after (handled host opts mc m { a with instances := l })).call.map ({ · with memory := a }) =
      (after (handled host opts mc m a)).call.map ({ · with memory := a }) := by
  rcases handled_calls host opts mc m with hnone | ⟨r, fn, args, inst, -, -, hh⟩
  · rw [hnone, hnone]
  · rw [hh, hh]; rfl

/-- **Only instances that are or were live run code**, as far as the subscriptions see to it. -/
theorem calls_are_live (hd : Plain opts.domain) (ha : Plain opts.agent) :
    (∀ evs k m mc tmp c x, Routed (reached host opts R genv (fun _ => none) evs) (.deliver k m mc tmp) →
      (after (handled host opts mc m (reached host opts R genv (fun _ => none) evs).agent)).call = some c →
        c.instance_id = some x → LetIn host opts R genv evs m.topic x) ∧
    (∀ evs x, Level x → Along (System.step host opts R) (fun s e => called host e = some x → Routed s e)
        (System.start host opts genv fun _ => none) evs →
      (∀ k m mc tmp, .deliver k m mc tmp ∈ evs → called host (.deliver k m mc tmp) = some x →
        ¬ LetIn host opts R genv evs m.topic x) →
      (∀ k f, (reached host opts R genv (fun _ => none) evs).sessions.forks k = some f → f.call.instance_id ≠ some x) ∧
        saved_env (reached host opts R genv (fun _ => none) evs).sessions.fs x = none) ∧
    ∀ mc m a l, (after (handled host opts mc m { a with instances := l })).call.map ({ · with memory := a }) =
      (after (handled host opts mc m a)).call.map ({ · with memory := a }) := by
  refine ⟨fun evs k m mc tmp c x hm hc hx => let_in host opts R genv hd ha hm hc hx, fun evs x hl hrun hx => ?_,
    handled_call_instances host opts⟩
  have hno := fun k f => no_fork host opts R genv hd ha hrun hx (k := k) (f := f)
  refine ⟨hno, ?_⟩
  have hrem := run_remembers host opts R hl genv evs
  cases hlast : last_saved host opts R x (System.start host opts genv fun _ => none) evs with
  | none => exact saved_env_eq_none (hrem.unsaved hlast)
  | some q =>
    obtain ⟨-, -, f, hf, hid, -⟩ := hrem.saved q.1 q.2 hlast
    exact absurd hid (hno q.1 f hf)

end

/-! ## Calls in flight, and an instance whose name is a wildcard -/

def CallsLive {V : Type} (host : Host) (opts : Options) (s : System V) (e : Event) : Prop :=
  ∀ k m mc tmp c x, e = .deliver k m mc tmp → (after (handled host opts mc m s.agent)).call = some c →
    c.instance_id = some x → x ∈ s.agent.instances

def flight_host : Host := small_host [(lit "t", [lit "x"]), (lit "t", [lit "+"]), (lit "t", [lit "v", lit "1"])]

def call_x : Msg := small_request "x" "assign" (lit "t") [lit "v", lit "1"]

abbrev flight_reached : List Event → System Str :=
  reached flight_host small_options small_R (fun _ => none) fun _ => none

theorem plain_small_options : Plain small_options.domain ∧ Plain small_options.agent :=
  ⟨⟨by decide, by decide, by decide, by decide⟩, ⟨by decide, by decide, by decide, by decide⟩⟩

theorem routed_by {s : System Str} {k : Nat} {m : Msg} {mc : Except Str Unit} {tmp : Str} (f : Str)
    (hf : ((s.log.any fun e => match e.sent.packet with
      | .subscribe g => g = f
      | _ => false) && topic_matches f m.topic) = true) : Routed s (.deliver k m mc tmp) := by
  obtain ⟨hlog, hmatch⟩ := Bool.and_eq_true_iff.mp hf
  obtain ⟨e, he, h⟩ := List.any_eq_true.mp hlog
  refine ⟨f, ⟨e, he, ?_⟩, hmatch⟩
  split at h
  · rename_i g hg
    rw [hg, of_decide_eq_true h]
  · cases h

/-- A call on `x` that comes after `x` has been created, and nothing of an instance `y`. -/
theorem call_is_live_after_create :
    LetIn flight_host small_options small_R (fun _ => none) [create_request 0 (lit "x")] call_x.topic (lit "x") ∧
      saved_env (flight_reached [create_request 0 (lit "x"), .deliver 1 call_x (.ok ()) []]).sessions.fs (lit "y") =
        none := by
  have hlive := calls_are_live flight_host small_options small_R (fun _ => none) plain_small_options.1 plain_small_options.2
  constructor
  · have hx : (after (handled flight_host small_options (.ok ()) call_x
      (flight_reached [create_request 0 (lit "x")]).agent)).call.map
        (·.instance_id) = some (some (lit "x")) := by decide +kernel
    obtain ⟨c, hc, hcx⟩ := Option.map_eq_some_iff.mp hx
    exact hlive.1 _ 1 call_x (.ok ()) [] c (lit "x") (routed_by (lit "d/a/Session/x/+") (by decide +kernel)) hc hcx
  · have hno : ∀ e ∈ [create_request 0 (lit "x"), .deliver 1 call_x (.ok ()) []], called flight_host e ≠ some (lit "y") := by
      decide +kernel
    have hy : Level (lit "y") := ⟨by decide, by decide⟩
    have hrun : Along (System.step flight_host small_options small_R)
        (fun s e => called flight_host e = some (lit "y") → Routed s e)
        (System.start flight_host small_options (fun _ => none) fun _ => none)
        [create_request 0 (lit "x"), .deliver 1 call_x (.ok ()) []] := along_of_mem fun e he s h => absurd h (hno e he)
    unfold flight_reached
    exact (hlive.2.1 _ (lit "y") hy hrun fun k m mc tmp hmem hc => absurd hc (hno _ hmem)).2

/-- `x` is deleted while a call on it is in flight: R gets the call, and its fork saves a session. -/
def in_flight : List Event :=
  [create_request 0 (lit "x"), .deliver 1 (small_request "__static__" "__delete__" (lit "t") [lit "x"]) (.ok ()) []] ++
    [.deliver 2 call_x (.ok ()) []]

/-- The filter of an instance called `+` lets a call on `x` in, which nobody has created. -/
def wildcard : List Event := [create_request 0 (lit "+")] ++ [.deliver 1 call_x (.ok ()) []]

theorem not_live {s : System Str} {k : Nat}
    (hc : (after (handled flight_host small_options (.ok ()) call_x s.agent)).call.map (·.instance_id) =
    some (some (lit "x")))
    (hx : lit "x" ∉ s.agent.instances) : ¬ CallsLive flight_host small_options s (.deliver k call_x (.ok ()) []) := by
  intro h
  obtain ⟨c, hcall, hcx⟩ := Option.map_eq_some_iff.mp hc
  exact hx (h k _ _ _ c (lit "x") rfl hcall hcx)

theorem in_flight_call_runs :
    (Along (System.step flight_host small_options small_R) Routed (flight_reached []) in_flight ∧
      ¬ Along (System.step flight_host small_options small_R) (CallsLive flight_host small_options)
        (flight_reached []) in_flight ∧
      (saved_env (flight_reached (in_flight ++ List.replicate 4 (.step 2))).sessions.fs (lit "x")).isSome = true) ∧
    Along (System.step flight_host small_options small_R) Routed (flight_reached []) wildcard ∧
      ¬ Along (System.step flight_host small_options small_R) (CallsLive flight_host small_options)
        (flight_reached []) wildcard ∧
      ∀ l ∈ wildcard.inits, lit "x" ∉ (flight_reached l).agent.instances := by
  refine ⟨⟨⟨?_, ?_, ?_, trivial⟩, fun h => ?_, by decide +kernel⟩, ⟨?_, ?_, trivial⟩, fun h => ?_, by decide +kernel⟩
  · exact routed_by (lit "d/a/Session/__static__/__createShared__") (by decide +kernel)
  · exact routed_by (lit "d/a/Session/__static__/__delete__") (by decide +kernel)
  · exact routed_by (lit "d/a/Session/x/+") (by decide +kernel)
  · rw [in_flight, along_append] at h
    exact not_live (by decide +kernel) (by decide +kernel) h.2.1
  · exact routed_by (lit "d/a/Session/__static__/__createShared__") (by decide +kernel)
  · exact routed_by (lit "d/a/Session/+/+") (by decide +kernel)
  · rw [wildcard, along_append] at h
    exact not_live (by decide +kernel) (by decide +kernel) h.2.1

end VrpcAgent

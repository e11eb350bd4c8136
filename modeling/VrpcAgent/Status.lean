import VrpcAgent.Registry

/-!
# The retained agent status

Four places of the source build the payload: the agent information, the message of
the shutdown handler, the will that the broker publishes when the connection is
lost, and a will that nothing uses. The one that the broker gets is an array. So
the retained status is right as long as the connection is not lost.
-/

namespace VrpcAgent

open Function Effects Runs

/-! ## Initializer lists -/

namespace Json

/-- The member that an element of an initializer list stands for. -/
def initializer_member : Json → Option (Str × Json)
  | .array [.string k, v] => some (k, v)
  | _ => none

/-- `emplace` on a `std::map`: a key that is there keeps its value. -/
def emplace (k : Str) (v : Json) (m : List (Str × Json)) : List (Str × Json) :=
  if (find k m).isSome then m else put k v m

/-- The value of an initializer list: an object if every element is a list of two
that starts with a string, otherwise an array. -/
def initializer_list (xs : List Json) : Json :=
  if xs.all (·.initializer_member.isSome) then
    .object ((xs.filterMap initializer_member).foldl (fun m q => emplace q.1 q.2 m) [])
  else .array xs

end Json

/-! ## The payloads -/

/-- `vrpc::json{{"status", "offline"}, {"hostname", get_hostname()}, {"v",
VRPC_PROTOCOL_VERSION}}`, of the shutdown handler and of `create_will_message`. -/
def offline_info (host : Host) : Json :=
  .initializer_list [.initializer_list [.string (lit "status"), .string (lit "offline")],
    .initializer_list [.string (lit "hostname"), .string host.hostname],
    .initializer_list [.string (lit "v"), protocol_version]]

def will_payload (host : Host) : Json :=
  .initializer_list [.initializer_list [.string (lit "status"), .string (lit "offline")],
    .initializer_list [.string (lit "hostname"), .string host.hostname], .string (lit "v"), protocol_version]

def will (host : Host) (opts : Options) : Packet := .publish (agent_info_topic opts) (will_payload host) true

/-- The shutdown handler up to the disconnect. -/
def shutdown_handler (host : Host) (opts : Options) : M Unit := do
  let payload ← dump (offline_info host)
  send host (.publish (agent_info_topic opts) payload true)

/-! ## Connections -/

structure Presence (V : Type) where
  system : System V
  connected : Bool
  broker : Broker

inductive PresenceEvent where
  | accept
  | sys (e : Event)
  | shutdown
  | lose

def Event.incoming : Event → Bool
  | .step _ => false
  | _ => true

section
variable {V : Type} (host : Host) (opts : Options) (R : RLib V)

def Presence.accept (s : Presence V) : Presence V :=
  let r := (connack_handler host opts).run ⟨s.system.agent, .null, [], none⟩
  { system := { s.system with
      agent := (after r).agent
      running := returns r
      log := s.system.log ++ (after r).out.map (⟨.connack, ·⟩)
      unacked := s.system.unacked ++ (after r).out }
    connected := true
    broker := s.broker.packets ((after r).out.map (·.packet)) }

/-- An exception that leaves the shutdown handler ends the agent before it has
disconnected. -/
def Presence.shutdown (s : Presence V) : Presence V :=
  let r := (shutdown_handler host opts).run ⟨s.system.agent, .null, [], none⟩
  { system := { s.system with agent := (after r).agent, running := returns r }
    connected := !returns r
    broker := s.broker.packets ((after r).out.map (·.packet)) }

/-- What the broker gets is what is written while the agent is connected; it publishes
the will when the connection is lost. -/
def Presence.step (s : Presence V) : PresenceEvent → Presence V
  | .accept => if s.connected = false ∧ s.system.running = true then s.accept host opts else s
  | .sys e =>
    if s.connected = false ∧ e.incoming = true then s
    else
      let system := s.system.step host opts R e
      let new := (system.log.drop s.system.log.length).map (·.sent.packet)
      { s with system, broker := if s.connected then s.broker.packets new else s.broker }
  | .shutdown => if s.connected = true ∧ s.system.running = true then s.shutdown host opts else s
  | .lose => if s.connected then { s with connected := false, broker := s.broker.packet (will host opts) } else s

def Presence.new (genv : Env V) (fs : FS V) : Presence V :=
  ⟨⟨Agent.new, true, ⟨genv, fs, fun _ => none⟩, fun _ => none, [], []⟩, false, Broker.empty⟩

/-! ## What is retained -/

def Says (b : Broker) (status : Str) : Prop :=
  ∃ m h, b.retained (agent_info_topic opts) = some (.object m) ∧ Json.find (lit "hostname") m = some (.string h) ∧
    Json.find (lit "v") m = some protocol_version ∧ Json.find (lit "status") m = some (.string status)

def Truthful (s : Presence V) : Prop := Says opts s.broker (if s.connected then lit "online" else lit "offline")

def Harmless (p : Packet) : Prop := ∀ j, p ≠ .publish (agent_info_topic opts) j true

theorem retained_harmless {l : List Packet} (h : ∀ p ∈ l, Harmless opts p) (b : Broker) :
    (b.packets l).retained (agent_info_topic opts) = b.retained (agent_info_topic opts) := by
  induction l generalizing b with
  | nil => rfl
  | cons p l ih =>
    rw [Broker.packets, List.foldl_cons, ← Broker.packets, ih fun q hq => h q (List.mem_cons_of_mem _ hq)]
    have hp := h p List.mem_cons_self
    cases p with
    | publish t j r =>
      cases r with
      | false => rfl
      | true =>
        have ht : agent_info_topic opts ≠ t := fun heq => hp j (by rw [heq])
        simp only [Broker.packet, update_of_ne ht]
    | _ => rfl

theorem says_congr {b b' : Broker} (h : b'.retained (agent_info_topic opts) = b.retained (agent_info_topic opts))
    (status : Str) : Says opts b' status ↔ Says opts b status := by
  rw [Says, Says, h]

theorem says_one {b : Broker} {status status' : Str} (h : Says opts b status) (h' : Says opts b status') :
    status = status' := by
  obtain ⟨m, _, hm, -, -, hs⟩ := h
  obtain ⟨m', _, hm', -, -, hs'⟩ := h'
  rw [hm] at hm'
  cases hm'
  rw [hs] at hs'
  cases hs'
  rfl

theorem says_agent_info (b : Broker) :
    Says opts (b.packet (.publish (agent_info_topic opts) (agent_info host opts) true)) (lit "online") :=
  ⟨_, host.hostname, update_self .., rfl, rfl, rfl⟩

theorem says_offline_info (b : Broker) :
    Says opts (b.packet (.publish (agent_info_topic opts) (offline_info host) true)) (lit "offline") :=
  ⟨_, host.hostname, update_self .., rfl, rfl, rfl⟩

theorem will_says_nothing (b : Broker) (status : Str) : ¬ Says opts (b.packet (will host opts)) status := by
  intro h
  obtain ⟨m, _, hm, -⟩ := h
  have hwill : (b.packet (will host opts)).retained (agent_info_topic opts) = some (will_payload host) := update_self ..
  rw [hwill] at hm
  cases hm

/-! ## What is written -/

theorem class_info_harmless (j : Json) : Harmless opts (.publish (class_info_topic opts) j true) := by
  intro j' heq
  injection heq with ht
  simp only [class_info_topic, agent_info_topic, List.append_assoc, List.append_cancel_left_eq] at ht
  exact absurd ht (by decide)

theorem reply_harmless {m : List (Str × Json)} {p : Packet} (h : reply_packet m = .ok p) : Harmless opts p := by
  obtain ⟨t, -, rfl⟩ := reply_packet_eq h
  intro j heq
  cases heq

theorem class_info_packet_harmless {l : List Str} {p : Packet} (h : class_info_packet opts l = .ok p) :
    Harmless opts p := by
  unfold class_info_packet dumped at h
  split at h <;> cases h
  exact class_info_harmless opts _

theorem writes_harmless {l : List Str} {m : List (Str × Json)} {a : Action} {w : Write} (hw : w ∈ writes opts l m a)
    {p : Packet} (hp : w.packet = .ok p) : Harmless opts p := by
  have hsub : ∀ {p' : Packet}, is_subscription p' = true → Harmless opts p' := by
    intro p' hsub j heq
    rw [heq] at hsub; cases hsub
  cases a with
  | call => cases hw
  | create x =>
    simp only [writes, List.mem_cons, List.not_mem_nil, or_false] at hw
    rcases hw with rfl | rfl | rfl
    · cases hp; exact hsub rfl
    · exact class_info_packet_harmless opts hp
    · exact reply_harmless opts hp
  | delete x =>
    simp only [writes] at hw
    rcases List.mem_cons.mp hw with rfl | hw
    · cases hp; exact hsub rfl
    · split at hw
      · simp only [List.mem_cons, List.not_mem_nil, or_false] at hw
        rcases hw with rfl | rfl
        · exact class_info_packet_harmless opts hp
        · exact reply_harmless opts hp
      · rw [List.mem_singleton.mp hw] at hp
        exact reply_harmless opts hp
  | invalid e =>
    rw [writes, List.mem_singleton] at hw
    subst hw
    cases hp

theorem handled_harmless (mc : Except Str Unit) (m : Msg) (a : Agent) :
    ∀ q ∈ (after (handled host opts mc m a)).out, Harmless opts q.packet := by
  have happends : Appends (Harmless opts) [] (after (handled host opts mc m a)) := by
    cases hr : request host m with
    | none =>
      obtain ⟨j, hj⟩ := handled_none host opts mc hr a
      rw [hj]; exact appends_refl _ ⟨a, j, [], none⟩
    | some r =>
      cases ha : r.action mc with
      | call fn args inst => rw [handled_call host opts hr ha]; exact appends_refl _ ⟨r.register a, _, [], _⟩
      | _ =>
        rw [handled_served host opts hr (by rw [ha]; rfl), after_andThen_pure]
        exact appends_served host (fun t j j' heq => by cases heq) rfl fun w hw p => writes_harmless opts hw
  obtain ⟨new, hout, hnew⟩ := happends
  rw [hout]; exact hnew

theorem fork_writes_harmless (s : Sessions V) (k : Nat) : ∀ q ∈ s.fork_writes host R k, Harmless opts q.packet := by
  intro q hq
  obtain ⟨t, j, hp⟩ := fork_writes_replies host R s k q hq
  intro j' heq
  rw [hp] at heq
  cases heq

theorem step_harmless (s : System V) (e : Event) :
    ∀ p ∈ ((s.step host opts R e).log.drop s.log.length).map (·.sent.packet), Harmless opts p := by
  intro p hp
  obtain ⟨x, hx, rfl⟩ := List.mem_map.mp hp
  cases e with
  | deliver k m mc tmp =>
    simp only [System.step] at hx
    split at hx
    · simp only [System.deliver, List.drop_left] at hx
      obtain ⟨q, hq, rfl⟩ := List.mem_map.mp hx
      exact handled_harmless host opts mc m s.agent q hq
    · rw [List.drop_length] at hx; cases hx
  | step k =>
    simp only [System.step, List.drop_left] at hx
    obtain ⟨q, hq, rfl⟩ := List.mem_map.mp hx
    exact fork_writes_harmless host opts R s.sessions k q hq
  | ack i =>
    simp only [System.step] at hx
    split at hx
    · rw [List.drop_length] at hx; cases hx
    · split at hx <;> (rw [List.drop_length] at hx; cases hx)

/-! ## The two payloads that are published -/

structure Sendable (pids : Allocator) (payload : Json) (p : Packet) : Prop where
  text : payload.dump_error = none
  pid : pids.allocate ≠ none
  accepted : host.refuse p = none

theorem dump_send (payload : Json) (p : Json → Packet) (s : Frame) :
    (Sendable host s.agent.pids payload (p payload) ∧ ∃ id s', (dump payload >>= fun j => send host (p j)).run s = .ok () s' ∧
        s'.out = s.out ++ [⟨id, p payload⟩]) ∨
      ¬ Sendable host s.agent.pids payload (p payload) ∧
        ∃ e s', (dump payload >>= fun j => send host (p j)).run s = .error e s' ∧
        s'.out = s.out := by
  rw [run_bind, dump]
  cases hd : payload.dump_error with
  | some e =>
    refine Or.inr ⟨fun h => ?_, e, s, rfl, rfl⟩
    rw [h.text] at hd; cases hd
  | none =>
    simp only [EStateM.run_pure, andThen_ok, run_send]
    cases ha : s.agent.pids.allocate with
    | none => exact Or.inr ⟨fun h => h.pid ha, _, _, rfl, rfl⟩
    | some r =>
      cases hr : host.refuse (p payload) with
      | some e =>
        refine Or.inr ⟨fun h => ?_, _, _, rfl, rfl⟩
        rw [h.accepted] at hr; cases hr
      | none => exact Or.inl ⟨⟨hd, by rw [ha]; exact Option.some_ne_none r, hr⟩, _, _, rfl, rfl⟩

def Announces (s : Presence V) : Prop :=
  Sendable host s.system.agent.pids (agent_info host opts)
    (.publish (agent_info_topic opts) (agent_info host opts) true)

theorem accept_says_iff {s : Presence V} (h : ¬ Says opts s.broker (lit "online")) :
    Says opts (s.accept host opts).broker (lit "online") ↔ Announces host opts s := by
  have hrest : ∀ s' : Frame, Appends (Harmless opts) s'.out (after ((subscribe_static host opts).run s')) := fun s' =>
    keeps_subscribe_static host opts (fun _ => keeps_appends_send host (class_info_harmless opts _))
      (fun _ _ => keeps_appends_send host fun j heq => by cases heq) s' (appends_refl (Harmless opts) s')
  rcases dump_send host (agent_info host opts) (fun j => .publish (agent_info_topic opts) j true)
    ⟨s.system.agent, .null, [], none⟩ with ⟨hs, id, s', hrun, hout⟩ | ⟨hs, e, s', hrun, hout⟩
  · refine iff_of_true ?_ hs
    obtain ⟨new, hnew, hharm⟩ := hrest s'
    have hbroker : (s.accept host opts).broker =
      (s.broker.packet (.publish (agent_info_topic opts) (agent_info host opts) true)).packets
        (new.map (·.packet)) := by
      simp only [Presence.accept, connack_handler_eq, run_bind, publish_agent_info] at hrun ⊢
      rw [hrun, andThen_ok, hnew, hout]
      rfl
    rw [hbroker, says_congr opts (retained_harmless opts (fun p hp => ?_) _)]
    · exact says_agent_info host opts s.broker
    · obtain ⟨q, hq, rfl⟩ := List.mem_map.mp hp
      exact hharm q hq
  · refine iff_of_false (fun hsays => h ?_) hs
    have hbroker : (s.accept host opts).broker = s.broker := by
      simp only [Presence.accept, connack_handler_eq, run_bind, publish_agent_info] at hrun ⊢
      rw [hrun, andThen_error, after_error, hout]
      rfl
    rwa [hbroker] at hsays

theorem shutdown_truthful {s : Presence V} (hc : s.connected = true) (h : Truthful opts s) :
    Truthful opts (s.shutdown host opts) := by
  rcases dump_send host (offline_info host) (fun j => .publish (agent_info_topic opts) j true)
    ⟨s.system.agent, .null, [], none⟩ with ⟨-, id, s', hrun, hout⟩ | ⟨-, e, s', hrun, hout⟩
  · have hstate : (s.shutdown host opts).connected = false ∧ (s.shutdown host opts).broker =
        s.broker.packet (.publish (agent_info_topic opts) (offline_info host) true) := by
      simp only [Presence.shutdown, shutdown_handler]
      rw [hrun, after_ok, hout]
      exact ⟨rfl, rfl⟩
    rw [Truthful, hstate.1, hstate.2]
    exact says_offline_info host opts s.broker
  · -- the agent ends without having disconnected
    have hstate : (s.shutdown host opts).connected = true ∧ (s.shutdown host opts).broker = s.broker := by
      simp only [Presence.shutdown, shutdown_handler]
      rw [hrun, after_error, hout]
      exact ⟨rfl, rfl⟩
    rw [Truthful, hc] at h
    rw [Truthful, hstate.1, hstate.2]
    exact h

/-! ## The exact condition -/

/-- The agent information can be published when a connection is accepted, and a
connection is not lost. -/
def Orderly (s : Presence V) : PresenceEvent → Prop
  | .accept => s.connected = false → s.system.running = true → Announces host opts s
  | .lose => s.connected = false
  | _ => True

theorem accept_truthful_iff {s : Presence V} (hc : s.connected = false) (hr : s.system.running = true)
    (h : ¬ Says opts s.broker (lit "online")) :
    Truthful opts (s.step host opts R .accept) ↔ Orderly host opts s .accept := by
  rw [Presence.step, if_pos ⟨hc, hr⟩, Truthful, show (s.accept host opts).connected = true from rfl, if_pos rfl,
    accept_says_iff host opts h]
  exact ⟨fun ha _ _ => ha, fun ha => ha hc hr⟩

theorem truthful_step_iff {s : Presence V} (h : Truthful opts s) (e : PresenceEvent) :
    Truthful opts (s.step host opts R e) ↔ Orderly host opts s e := by
  cases e with
  | accept =>
    by_cases hcr : s.connected = false ∧ s.system.running = true
    · refine accept_truthful_iff host opts R hcr.1 hcr.2 fun honline => ?_
      rw [Truthful, hcr.1] at h
      exact absurd (says_one opts honline h) (by decide)
    · rw [Presence.step, if_neg hcr]
      exact iff_of_true h fun hc hr => absurd ⟨hc, hr⟩ hcr
  | sys e =>
    refine iff_of_true ?_ trivial
    rw [Presence.step]
    split
    · exact h
    · cases hc : s.connected with
      | false =>
        simp only [Truthful, hc, Bool.false_eq_true, if_false] at h ⊢
        exact h
      | true =>
        simp only [Truthful, hc, if_true] at h ⊢
        exact (says_congr opts (retained_harmless opts (step_harmless host opts R s.system e) s.broker) _).mpr h
  | shutdown =>
    refine iff_of_true ?_ trivial
    rw [Presence.step]
    split
    · rename_i hcr; exact shutdown_truthful host opts hcr.1 h
    · exact h
  | lose =>
    simp only [Presence.step, Orderly]
    cases hc : s.connected with
    | false => exact iff_of_true h rfl
    | true => exact iff_of_false (will_says_nothing host opts s.broker _) (by simp)

/-- **The retained status** is an object and says whether the agent is connected,
after the first acceptance and after every event from then on, exactly when the
agent information can be published and no connection is lost. -/
theorem status_truthful_iff (genv : Env V) (fs : FS V) (evs : List PresenceEvent) :
    (∀ evs', evs' <+: evs →
        Truthful opts (run (Presence.step host opts R) (Presence.new genv fs) (.accept :: evs'))) ↔
      Along (Presence.step host opts R) (Orderly host opts) (Presence.new genv fs) (.accept :: evs) := by
  have hfirst : Truthful opts ((Presence.new genv fs).step host opts R .accept) ↔
      Orderly host opts (Presence.new genv fs) .accept :=
    accept_truthful_iff host opts R rfl rfl fun h => by
      obtain ⟨m, _, hm, -⟩ := h
      cases hm
  have hrest : Truthful opts ((Presence.new genv fs).step host opts R .accept) →
      ((∀ evs', evs' <+: evs → Truthful opts (run (Presence.step host opts R)
          ((Presence.new genv fs).step host opts R .accept) evs')) ↔
        Along (Presence.step host opts R) (Orderly host opts) ((Presence.new genv fs).step host opts R .accept) evs) :=
    along_iff (P := Truthful opts) (I := fun _ => True) (fun _ _ _ => trivial)
      (fun s e _ h => truthful_step_iff host opts R h e) trivial
  constructor
  · intro h
    have h₀ : Truthful opts ((Presence.new genv fs).step host opts R .accept) := h [] List.nil_prefix
    exact ⟨hfirst.mp h₀, (hrest h₀).mp h⟩
  · intro h
    exact (hrest (hfirst.mpr h.1)).mpr h.2

end

theorem lost_connection_leaves_an_array :
    ¬ ∀ evs, Truthful small_options (run (Presence.step (small_host []) small_options small_R)
      (Presence.new (fun _ => none) (fun _ => none)) (.accept :: evs)) := by
  intro h
  obtain ⟨m, _, hm, -⟩ := h [.lose]
  have harray : (run (Presence.step (small_host []) small_options small_R) (Presence.new (fun _ => none) (fun _ => none))
      [.accept, .lose]).broker.retained (agent_info_topic small_options) = some (will_payload (small_host [])) := by
    rfl
  rw [harray] at hm
  cases hm

end VrpcAgent

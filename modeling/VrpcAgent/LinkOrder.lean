import VrpcAgent.Link

/-!
# While a connection lasts

From its CONNACK until a connection is lost, the PUBLISH packets that the server's handlers are
called with and those under way are together what the client has published, in this order.
-/

namespace VrpcAgent.Link

open Runs

/-! ## Messages -/

def is_publish : Incoming → Bool
  | .publish .. => true
  | _ => false

def messages (packets : List Incoming) : List Incoming := packets.filter is_publish

/-- The PUBLISH packets that handlers were called with, in the order of the calls. -/
def heard (handlers : List Callback) : List Incoming :=
  messages (handlers.filterMap fun c => match c with | .message p => some p | _ => none)

/-- From `s` to `t` messages are published, handed over and under way, none twice and none lost. -/
def Follows (s t : Link) : Prop :=
  ∃ new : List PublishMessage, t.client.published = s.client.published ++ new ∧
    heard t.server.handlers ++ messages t.client.out = heard s.server.handlers ++ messages s.client.out ++ new.map (·.packet)

variable {s : Link}

theorem Follows.same {t : Link} (hpub : t.client.published = s.client.published)
    (hmsg : heard t.server.handlers ++ messages t.client.out = heard s.server.handlers ++ messages s.client.out) :
    Follows s t :=
  ⟨[], by simp [hpub], by simp [hmsg]⟩

theorem Follows.trans {t u : Link} (h : Follows s t) (h' : Follows t u) : Follows s u := by
  obtain ⟨new, hpub, hmsg⟩ := h
  obtain ⟨new', hpub', hmsg'⟩ := h'
  refine ⟨new ++ new', ?_, ?_⟩
  · rw [hpub', hpub, List.append_assoc]
  · rw [hmsg', hmsg, List.map_append, List.append_assoc _ _ (new'.map _)]

theorem is_publish_packet (m : PublishMessage) : is_publish m.packet = true := by
  unfold PublishMessage.packet
  split <;> rfl

theorem heard_message (handlers : List Callback) (p : Incoming) :
    heard (handlers ++ [.message p]) = heard handlers ++ messages [p] := by
  simp [heard, messages]

/-! ## One step -/

theorem respond_messages (c : Endpoint) {p : Incoming} (hp : p ≠ .disconnect) :
    messages (c.respond p).out = messages c.out ∧ (c.respond p).published = c.published ∧
      (c.respond p).handlers = c.handlers ∧ (c.respond p).mqtt_connected = c.mqtt_connected := by
  have hack : ∀ type id, messages (c.out ++ if c.connected then [.ack type id] else []) = messages c.out := by
    intro type id
    split <;> simp [messages, is_publish]
  unfold Endpoint.respond
  split
  · split
    · simp [hack]
    · split <;> simp [hack]
  · split
    · split <;> simp [Endpoint.send_pubrel, Endpoint.store_pubrel, Endpoint.register_id, hack]
    · split <;> simp [hack]
  · exact absurd rfl hp
  · simp

theorem follows_publish (hp : Session s) (pubopts : UInt8) (topic_name contents : Str) :
    let t := s.step (.publish pubopts topic_name contents)
    t.client.mqtt_connected = true ∧ Follows s t := by
  have hsend : ∀ (pids : Allocator) (m : PublishMessage), s.client.publish pubopts topic_name contents =
      Endpoint.send_publish m { s.client with pid_man := pids } →
      (s.client.publish pubopts topic_name contents).mqtt_connected = true ∧
        Follows s { s with client := s.client.publish pubopts topic_name contents } := by
    intro pids m hm
    rw [hm, Endpoint.send_publish_eq]
    refine ⟨hp.client.2.2, [m], rfl, ?_⟩
    simp [hp.client.2.1, messages, is_publish_packet]
  rcases Endpoint.publish_cases pubopts topic_name contents s.client with ⟨pids, -, hs⟩ | ⟨m, pids, -, -, hs⟩ | ⟨m, -, hs⟩
  · simp only [step, hs]
    exact ⟨hp.client.2.2, .same rfl rfl⟩
  · exact hsend pids m hs
  · exact hsend s.client.pid_man m hs

theorem follows_client_receives (hp : Session s) :
    let t := s.step .client_receives
    t.client.mqtt_connected = true ∧ Follows s t := by
  rcases client_receives_cases s with hs | ⟨p, rest, hout, hr, hh, hs⟩
  · rw [hs]; exact ⟨hp.client.2.2, .same rfl rfl⟩
  · cases hp.downward p (by rw [hout]; exact List.mem_cons_self) with
    | ack he hd =>
      rw [hs, receive_ack hr hh hp.client.2.1 hp.client.2.2]
      exact ⟨hp.client.2.2, .same rfl rfl⟩

theorem follows_client_returns (hp : Session s) :
    let t := s.step .client_returns
    t.client.mqtt_connected = true ∧ Follows s t := by
  rcases client_returns_cases s with hs | ⟨p, hh, hs⟩
  · rw [hs]; exact ⟨hp.client.2.2, .same rfl rfl⟩
  · have hp' : p ≠ .disconnect := by
      rcases hp.handled p hh with ⟨sp, code, rfl⟩ | ⟨x, id, rfl⟩ <;> simp
    obtain ⟨hout, hpub, -, hm⟩ := respond_messages { s.client with handling := none } hp'
    rw [hs]
    exact ⟨hm.trans hp.client.2.2, .same hpub (by rw [hout])⟩

theorem Upward.ne_disconnect {published : List PublishMessage} {store : List StoreMessage} {p : Incoming}
    (h : Upward published store p) : p ≠ .disconnect := by
  cases h with
  | @publish m m' hm hd hs =>
    unfold PublishMessage.packet
    split <;> simp
  | pubrel h => simp

theorem follows_server_receives (hp : Session s) :
    let t := s.step .server_receives
    t.client.mqtt_connected = true ∧ Follows s t := by
  rcases server_receives_cases s with hs | ⟨p, rest, hout, hr, hh, hs⟩
  · rw [hs]; exact ⟨hp.client.2.2, .same rfl rfl⟩
  · obtain ⟨ids, hrecv⟩ :=
      receive_upward hr hh hp.server.2.1 hp.server.2.2 (hp.upward p (by rw [hout]; exact List.mem_cons_self))
    rw [hs, hrecv]
    refine ⟨hp.client.2.2, .same rfl ?_⟩
    rw [heard_message, hout, List.append_assoc]
    exact congrArg _ (List.filter_append [p] rest).symm

theorem follows_server_returns (hp : Session s) :
    let t := s.step .server_returns
    t.client.mqtt_connected = true ∧ Follows s t := by
  rcases server_returns_cases s with hs | ⟨p, hh, hs⟩
  · rw [hs]; exact ⟨hp.client.2.2, .same rfl rfl⟩
  · obtain ⟨-, -, hhandlers, -⟩ := respond_messages { s.server with handling := none } (hp.serving p hh).1.ne_disconnect
    rw [hs]
    exact ⟨hp.client.2.2, .same rfl (by rw [hhandlers])⟩

theorem follows_step (hp : Session s) {e : Event} (he : e ≠ .lose) :
    (s.step e).client.mqtt_connected = true ∧ Follows s (s.step e) := by
  cases e with
  | publish pubopts topic_name contents => exact follows_publish hp pubopts topic_name contents
  | client_receives => exact follows_client_receives hp
  | client_returns => exact follows_client_returns hp
  | server_receives => exact follows_server_receives hp
  | server_returns => exact follows_server_returns hp
  | lose => exact absurd rfl he
  | connect sp =>
    simp only [step, hp.client.1, if_true]
    exact ⟨hp.client.2.2, .same rfl rfl⟩

/-! ## Every run -/

theorem Linked.session (h : Linked s) (hm : s.client.mqtt_connected = true) : Session s := by
  rcases h.phase with hp | hp | hp
  · rw [hp.client.2.2] at hm; cases hm
  · rw [hp.client.2.2] at hm; cases hm
  · exact hp

/-- **Once and in order.** From the CONNACK until the connection is lost, the server's handlers
are called with the PUBLISH packets that are under way and then with the messages that the client
publishes, each of them once and in that order; those that have not been handed over are the ones
still under way. -/
theorem delivered_in_order {evs evs' : List Event} (h : Along step Orderly start (evs ++ evs'))
    (hm : (run step start evs).client.mqtt_connected = true) (hl : ∀ e ∈ evs', e ≠ .lose) :
    let s := run step start evs
    let t := run step start (evs ++ evs')
    ∃ new : List PublishMessage, t.client.published = s.client.published ++ new ∧
      heard t.server.handlers ++ messages t.client.out = heard s.server.handlers ++ messages s.client.out ++
        new.map (·.packet) := by
  obtain ⟨hbefore, hafter⟩ := along_append.mp h
  let s := run step start evs
  have hinv : Linked (run step s evs') ∧ (run step s evs').client.mqtt_connected = true ∧ Follows s (run step s evs') := by
    refine run_inv (P := fun t => Linked t ∧ t.client.mqtt_connected = true ∧ Follows s t) (fun t e ht he => ?_)
      ⟨linked_run hbefore, hm, .same rfl rfl⟩ (hafter.and (along_of_mem fun e he _ => hl e he))
    obtain ⟨hlinked, hmqtt, hfollows⟩ := ht
    obtain ⟨hmqtt', hfollows'⟩ := follows_step (hlinked.session hmqtt) he.2
    exact ⟨linked_step hlinked he.1, hmqtt', hfollows.trans hfollows'⟩
  rw [run_append]
  exact hinv.2.2

/-- Two messages are published at once on a new connection, and the second is still under way. -/
theorem two_messages_in_order :
    let t := run step start ([.connect false, .client_receives] ++
      [.publish 0 (lit "t") (lit "x"), .publish 0 (lit "t") (lit "y"), .client_returns, .server_receives])
    heard t.server.handlers ++ messages t.client.out = t.client.published.map (·.packet) := by
  obtain ⟨new, hpub, hmsg⟩ := @delivered_in_order [.connect false, .client_receives]
    [.publish 0 (lit "t") (lit "x"), .publish 0 (lit "t") (lit "y"), .client_returns, .server_receives]
    ⟨Or.inr rfl, trivial, ⟨rfl, by decide⟩, ⟨rfl, by decide⟩, trivial, trivial, trivial⟩ rfl (by simp)
  intro t
  rw [show t.client.published = new from hpub]
  exact hmsg

end VrpcAgent.Link

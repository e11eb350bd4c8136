import VrpcAgent.Retention

/-!
# A client and a server

Two endpoints and the packets on their way between them. The client publishes, connections are
lost with all that is on its way, and a new connection resumes the session or begins another one.
Every message with quality of service 1 or 2 reaches the handler of the server or is still in the
store of the client; nothing else reaches the handler.
-/

namespace VrpcAgent

open Runs

/-- What the client has written is on its way to the server, and the other way round. The
endpoints of the server, one for each connection, are one after the other in `server`, which
keeps the handlers that have been called. -/
structure Link where
  client : Endpoint
  server : Endpoint

namespace Link

inductive Event where
  | publish (pubopts : UInt8) (topic_name contents : Str)
  | client_receives
  | client_returns
  | server_receives
  | server_returns
  | lose
  | connect (session_present : Bool)

/-- The first packet on its way arrives when the receiver waits for one. -/
def take (sender receiver : Endpoint) : Endpoint × Endpoint :=
  match sender.out with
  | [] => (sender, receiver)
  | p :: rest =>
    if receiver.reading = true ∧ receiver.handling = none then ({ sender with out := rest }, receiver.step (.receive p))
    else (sender, receiver)

def accepted (session_present : Bool) (handlers : List Callback) : Endpoint :=
  { Endpoint.new with
    connected := true, mqtt_connected := true, reading := true, out := [.connack session_present 0], handlers }

def step (s : Link) : Event → Link
  | .publish pubopts topic_name contents => { s with client := s.client.publish pubopts topic_name contents }
  | .client_receives => ⟨(take s.server s.client).2, (take s.server s.client).1⟩
  | .client_returns => { s with client := s.client.step .handler_returns }
  | .server_receives => ⟨(take s.client s.server).1, (take s.client s.server).2⟩
  | .server_returns => { s with server := s.server.step .handler_returns }
  | .lose =>
    if s.client.reading = true ∧ s.client.handling = none then
      ⟨{ s.client.step .close with out := [] }, { s.server.shutdown with out := [] }⟩
    else s
  | .connect session_present =>
    if s.client.reading then s else ⟨s.client.step .connect, accepted session_present s.server.handlers⟩

def start : Link := ⟨.new, .new⟩

/-- Nothing is published between a connection and its CONNACK, nothing with the fourth quality of
service that two bits leave room for, and no session is given up that has stored messages. -/
def Orderly (s : Link) : Event → Prop
  | .publish pubopts _ _ => s.client.connected = s.client.mqtt_connected ∧ get_qos pubopts ≠ 3
  | .connect session_present => session_present = true ∨ s.client.store = []
  | _ => True

/-! ## What a step does -/

theorem take_cases (sender receiver : Endpoint) :
    take sender receiver = (sender, receiver) ∨ ∃ p rest, sender.out = p :: rest ∧ receiver.reading = true ∧
      receiver.handling = none ∧ take sender receiver = ({ sender with out := rest }, receiver.step (.receive p)) := by
  unfold take
  split
  · exact Or.inl rfl
  · rename_i p rest hout
    split
    · rename_i hfree
      exact Or.inr ⟨p, rest, hout, hfree.1, hfree.2, rfl⟩
    · exact Or.inl rfl

theorem client_receives_cases (s : Link) :
    s.step .client_receives = s ∨ ∃ p rest, s.server.out = p :: rest ∧ s.client.reading = true ∧ s.client.handling = none ∧
      s.step .client_receives = ⟨s.client.step (.receive p), { s.server with out := rest }⟩ := by
  simp only [step]
  rcases take_cases s.server s.client with ht | ⟨p, rest, hout, hr, hh, ht⟩
  · rw [ht]; exact Or.inl rfl
  · rw [ht]; exact Or.inr ⟨p, rest, hout, hr, hh, rfl⟩

theorem server_receives_cases (s : Link) :
    s.step .server_receives = s ∨ ∃ p rest, s.client.out = p :: rest ∧ s.server.reading = true ∧ s.server.handling = none ∧
      s.step .server_receives = ⟨{ s.client with out := rest }, s.server.step (.receive p)⟩ := by
  simp only [step]
  rcases take_cases s.client s.server with ht | ⟨p, rest, hout, hr, hh, ht⟩
  · rw [ht]; exact Or.inl rfl
  · rw [ht]; exact Or.inr ⟨p, rest, hout, hr, hh, rfl⟩

theorem client_returns_cases (s : Link) :
    s.step .client_returns = s ∨ ∃ p, s.client.handling = some p ∧
      s.step .client_returns = { s with client := { s.client with handling := none }.respond p } := by
  cases hh : s.client.handling with
  | none => exact Or.inl (by simp only [step, Endpoint.step, hh])
  | some p => exact Or.inr ⟨p, rfl, by simp only [step, Endpoint.step, hh]⟩

theorem server_returns_cases (s : Link) :
    s.step .server_returns = s ∨ ∃ p, s.server.handling = some p ∧
      s.step .server_returns = { s with server := { s.server with handling := none }.respond p } := by
  cases hh : s.server.handling with
  | none => exact Or.inl (by simp only [step, Endpoint.step, hh])
  | some p => exact Or.inr ⟨p, rfl, by simp only [step, Endpoint.step, hh]⟩

/-! ## The exchange of a packet -/

def exchange : Incoming → Option (Nat × Expected)
  | .publish (some id) options _ _ => some (id, if get_qos options = 1 then .puback else .pubrec)
  | .ack type id =>
    if type = 0x40 then some (id, .puback) else if type = 0x50 then some (id, .pubrec)
    else if type = 0x60 ∨ type = 0x70 then some (id, .pubcomp) else none
  | _ => none

theorem set_dup_set_dup (m : PublishMessage) : m.set_dup.set_dup = m.set_dup := by
  simp [PublishMessage.set_dup, UInt8.or_assoc]

theorem same_qos {m m' : PublishMessage} (h : m'.set_dup = m.set_dup) :
    get_qos m'.fixed_header = get_qos m.fixed_header ∧ check_qos_value m'.fixed_header = check_qos_value m.fixed_header := by
  have hv : m'.fixed_header ||| 0x08 = m.fixed_header ||| 0x08 := congrArg PublishMessage.fixed_header h
  rw [← get_qos_dup m'.fixed_header, ← check_qos_dup m'.fixed_header, hv, get_qos_dup, check_qos_dup]
  exact ⟨rfl, rfl⟩

theorem exchange_publish {m m' : PublishMessage} (h : m'.set_dup = m.set_dup) (hq : check_qos_value m.fixed_header = true) :
    exchange m'.packet = some (StoreMessage.publish m.set_dup).key := by
  obtain ⟨hqos, hcheck⟩ := same_qos h
  have hid : m'.packet_id = m.packet_id := by simpa [PublishMessage.set_dup] using congrArg PublishMessage.packet_id h
  rw [PublishMessage.packet, hcheck, hq, if_pos rfl]
  simp only [exchange, hid, hqos, StoreMessage.key, StoreMessage.packet_id, StoreMessage.expected,
    PublishMessage.set_dup, get_qos_dup]

theorem exchange_ack (x : Expected) (id : Nat) : exchange (.ack x.type id) = some (id, x) := by
  cases x <;> rfl

/-! ## The invariant -/

def Delivered (handlers : List Callback) (m : PublishMessage) : Prop :=
  ∃ m' : PublishMessage, m'.set_dup = m.set_dup ∧ .message m'.packet ∈ handlers

/-- A packet of the client, which has its message in the store. -/
inductive Upward (published : List PublishMessage) (store : List StoreMessage) : Incoming → Prop
  | publish {m m' : PublishMessage} (hm : m ∈ published) (hd : m'.set_dup = m.set_dup)
    (hs : check_qos_value m.fixed_header = true → .publish m.set_dup ∈ store) : Upward published store m'.packet
  | pubrel {id : Nat} (h : .pubrel id ∈ store) : Upward published store (.ack 0x60 id)

/-- An answer of the server, which has been given the message that it acknowledges. -/
inductive Downward (handlers : List Callback) (store : List StoreMessage) : Incoming → Prop
  | ack {e : StoreMessage} (he : e ∈ store) (hd : ∀ m, e = .publish m → Delivered handlers m) :
    Downward handlers store (.ack e.expected.type e.packet_id)

/-- The exchanges that the packets on their way and the handler of the server carry on. -/
def carried (s : Link) : List (Nat × Expected) :=
  (s.client.out ++ (s.server.handling.toList ++ s.server.out)).filterMap exchange

/-- The identifier for which the client has a PUBREL to send when its handler returns. -/
def owed : Option Incoming → List Nat
  | some (.ack type id) => if type = 0x50 then [id] else []
  | _ => []

structure Offline (s : Link) : Prop where
  client : s.client.reading = false ∧ s.client.connected = false ∧ s.client.mqtt_connected = false
  idle : s.client.handling = none
  server : s.server.connected = false
  empty : s.client.out = [] ∧ s.server.out = []

structure Handshake (s : Link) : Prop where
  client : s.client.reading = true ∧ s.client.connected = true ∧ s.client.mqtt_connected = false
  server : s.server.reading = true ∧ s.server.connected = true ∧ s.server.mqtt_connected = true
  idle : s.client.handling = none ∧ s.server.handling = none
  empty : s.client.out = []
  connack : ∃ sp, s.server.out = [.connack sp 0] ∧ (sp = true ∨ s.client.store = [])

structure Session (s : Link) : Prop where
  client : s.client.reading = true ∧ s.client.connected = true ∧ s.client.mqtt_connected = true
  server : s.server.reading = true ∧ s.server.connected = true ∧ s.server.mqtt_connected = true
  handled : ∀ p, s.client.handling = some p → (∃ sp code, p = .connack sp code) ∨
    ∃ (x : Expected) (id : Nat), p = .ack x.type id
  upward : ∀ p ∈ s.client.out, Upward s.client.published s.client.store p
  serving : ∀ p, s.server.handling = some p →
    Upward s.client.published s.client.store p ∧ .message p ∈ s.server.handlers
  downward : ∀ p ∈ s.server.out, Downward s.server.handlers s.client.store p
  nodup : (carried s).Nodup
  complete : ∀ e ∈ s.client.store, e.key ∈ carried s

structure Linked (s : Link) : Prop where
  stored : ∀ m, .publish m ∈ s.client.store →
    check_qos_value m.fixed_header = true ∧ ∃ m₀ ∈ s.client.published, m₀.set_dup = m
  ids : (owed s.client.handling ++ s.client.store.map (·.packet_id)).Nodup
  taken : ∀ id ∈ owed s.client.handling ++ s.client.store.map (·.packet_id), ¬ s.client.pid_man.Free id
  inflight : s.client.sub_unsub_inflight = []
  genuine : ∀ p, .message p ∈ s.server.handlers →
    (∃ id, p = .ack 0x60 id) ∨ ∃ m ∈ s.client.published, ∃ m' : PublishMessage, m'.set_dup = m.set_dup ∧ p = m'.packet
  safe : ∀ m ∈ s.client.published, check_qos_value m.fixed_header = true →
    Delivered s.server.handlers m ∨ .publish m.set_dup ∈ s.client.store
  phase : Offline s ∨ Handshake s ∨ Session s

theorem Delivered.congr {handlers : List Callback} {m m' : PublishMessage} (h : Delivered handlers m)
    (hd : m.set_dup = m'.set_dup) :
    Delivered handlers m' := by
  obtain ⟨m₀, h₀, hmem⟩ := h
  exact ⟨m₀, h₀.trans hd, hmem⟩

theorem Delivered.mono {handlers handlers' : List Callback} {m : PublishMessage} (h : Delivered handlers m)
    (hh : ∀ c ∈ handlers, c ∈ handlers') : Delivered handlers' m := by
  obtain ⟨m', hd, hmem⟩ := h
  exact ⟨m', hd, hh _ hmem⟩

theorem Upward.mono {published published' : List PublishMessage} {store store' : List StoreMessage} {p : Incoming}
    (h : Upward published store p) (hp : ∀ m ∈ published, m ∈ published')
    (hs : ∀ e ∈ store, exchange p = some e.key → e ∈ store') : Upward published' store' p := by
  cases h with
  | publish hm hd hstore => exact .publish (hp _ hm) hd fun hq => hs _ (hstore hq) (exchange_publish hd hq)
  | pubrel hstore => exact .pubrel (hs _ hstore (exchange_ack .pubcomp _))

theorem Downward.mono {handlers handlers' : List Callback} {store store' : List StoreMessage} {p : Incoming}
    (h : Downward handlers store p) (hh : ∀ c ∈ handlers, c ∈ handlers')
    (hs : ∀ e ∈ store, exchange p = some e.key → e ∈ store') : Downward handlers' store' p := by
  cases h with
  | ack he hd => exact .ack (hs _ he (exchange_ack _ _)) fun m hm => (hd m hm).mono hh

/-- A packet of the client carries on the exchange of a stored message, or none. -/
theorem Upward.exchange_cases {published : List PublishMessage} {store : List StoreMessage} {p : Incoming}
    (h : Upward published store p) : exchange p = none ∨ ∃ e ∈ store, exchange p = some e.key := by
  cases h with
  | @publish m m' hm hd hs =>
    cases hq : check_qos_value m.fixed_header with
    | true => exact Or.inr ⟨_, hs hq, exchange_publish hd hq⟩
    | false =>
      refine Or.inl ?_
      rw [PublishMessage.packet, (same_qos hd).2, hq]
      rfl
  | pubrel h => exact Or.inr ⟨_, h, exchange_ack .pubcomp _⟩

/-! ## Publishing -/

variable {s : Link}

theorem Session.carried_stored (h : Session s) {k : Nat × Expected} (hk : k ∈ carried s) :
    ∃ e ∈ s.client.store, e.key = k := by
  obtain ⟨p, hp, hx⟩ := List.mem_filterMap.mp hk
  have hup : ∀ {p}, Upward s.client.published s.client.store p → exchange p = some k → ∃ e ∈ s.client.store, e.key = k := by
    intro p hp hx
    rcases hp.exchange_cases with hnone | ⟨e, he, hkey⟩
    · rw [hnone] at hx; cases hx
    · exact ⟨e, he, Option.some.inj (hkey.symm.trans hx)⟩
  rcases List.mem_append.mp hp with hp | hp
  · exact hup (h.upward p hp) hx
  · rcases List.mem_append.mp hp with hp | hp
    · exact hup (h.serving p (Option.mem_toList.mp hp)).1 hx
    · cases h.downward p hp with
      | ack he hd => exact ⟨_, he, Option.some.inj ((exchange_ack _ _).symm.trans hx)⟩

theorem carried_write (s : Link) (client : Endpoint) (p : Incoming) (h : client.out = s.client.out ++ [p]) :
    (carried { s with client }).Perm ((exchange p).toList ++ carried s) := by
  simp only [carried, h, List.append_assoc, List.filterMap_append]
  have hp : [p].filterMap exchange = (exchange p).toList := by cases hx : exchange p <;> simp [hx]
  rw [hp]
  exact List.perm_append_comm_assoc ..

theorem linked_pids (h : Linked s) {pids : Allocator} (hf : ∀ v, pids.Free v → s.client.pid_man.Free v) :
    Linked { s with client := { s.client with pid_man := pids } } where
  stored := h.stored
  ids := h.ids
  taken id hid hv := h.taken id hid (hf id hv)
  inflight := h.inflight
  genuine := h.genuine
  safe := h.safe
  phase := by
    rcases h.phase with hp | hp | hp
    · exact Or.inl ⟨hp.client, hp.idle, hp.server, hp.empty⟩
    · exact Or.inr (Or.inl ⟨hp.client, hp.server, hp.idle, hp.empty, hp.connack⟩)
    · exact Or.inr (Or.inr ⟨hp.client, hp.server, hp.handled, hp.upward, hp.serving, hp.downward, hp.nodup, hp.complete⟩)

/-- The client writes a packet and opens its exchange, if it has one. -/
theorem Session.opens (h : Session s) {client : Endpoint} {p : Incoming} {opened : List StoreMessage}
    (hclient : client.reading = true ∧ client.connected = true ∧ client.mqtt_connected = true)
    (hhandled : ∀ p, client.handling = some p → (∃ sp code, p = .connack sp code) ∨
    ∃ (x : Expected) (id : Nat), p = .ack x.type id)
    (hout : client.out = s.client.out ++ [p]) (hstore : client.store = s.client.store ++ opened)
    (hpub : ∀ m ∈ s.client.published, m ∈ client.published) (hup : Upward client.published client.store p)
    (hx : (exchange p).toList = opened.map StoreMessage.key)
    (hnew : ∀ e ∈ opened, e.key ∉ s.client.store.map StoreMessage.key) : Session { s with client } := by
  have hsub : ∀ e ∈ s.client.store, e ∈ client.store := fun e he => by rw [hstore]; exact List.mem_append_left _ he
  have hperm := carried_write s client p hout
  rw [hx] at hperm
  refine ⟨hclient, h.server, hhandled, fun q hq => ?_, fun q hq => ?_, fun q hq => ?_, ?_, fun e he => ?_⟩
  · dsimp only at hq
    rw [hout] at hq
    rcases List.mem_append.mp hq with hq | hq
    · exact (h.upward q hq).mono hpub fun e he _ => hsub e he
    · rw [List.mem_singleton.mp hq]; exact hup
  · obtain ⟨hq', hmsg⟩ := h.serving q hq
    exact ⟨hq'.mono hpub fun e he _ => hsub e he, hmsg⟩
  · exact (h.downward q hq).mono (fun _ hc => hc) fun e he _ => hsub e he
  · rw [hperm.nodup_iff, List.nodup_append]
    refine ⟨?_, h.nodup, fun k hk k' hk' heq => ?_⟩
    · rw [← hx]
      cases exchange p <;> simp
    · obtain ⟨e, he, rfl⟩ := List.mem_map.mp hk
      obtain ⟨e', he', hkey⟩ := h.carried_stored hk'
      exact hnew e he (heq.trans hkey.symm ▸ List.mem_map_of_mem he')
  · dsimp only at he
    rw [hstore] at he
    rw [hperm.mem_iff]
    rcases List.mem_append.mp he with he | he
    · exact List.mem_append_right _ (h.complete e he)
    · exact List.mem_append_left _ (List.mem_map_of_mem he)

theorem key_not_mem {store : List StoreMessage} {e : StoreMessage} (h : e.packet_id ∉ store.map (·.packet_id)) :
    e.key ∉ store.map StoreMessage.key := by
  intro hk
  obtain ⟨e', he', heq⟩ := List.mem_map.mp hk
  have hid : e'.packet_id = e.packet_id := congrArg Prod.fst heq
  exact h (hid ▸ List.mem_map_of_mem he')

def opened (m : PublishMessage) : List StoreMessage := if check_qos_value m.fixed_header then [.publish m.set_dup] else []

theorem exchange_opened (m : PublishMessage) : (exchange m.packet).toList = (opened m).map StoreMessage.key := by
  unfold opened
  split
  · rename_i hq
    rw [exchange_publish rfl hq]; rfl
  · rename_i hq
    rw [PublishMessage.packet, if_neg hq]; rfl

theorem mem_opened {m : PublishMessage} {e : StoreMessage} :
    e ∈ opened m ↔ check_qos_value m.fixed_header = true ∧ e = .publish m.set_dup := by
  unfold opened
  split <;> simp_all

/-- The identifier of the message, if it has one, is taken and nothing else has it. -/
theorem linked_send (h : Linked s) (hsettled : s.client.connected = s.client.mqtt_connected) {m : PublishMessage}
    (hid : check_qos_value m.fixed_header = true →
      m.packet_id ∉ owed s.client.handling ++ s.client.store.map (·.packet_id) ∧ ¬ s.client.pid_man.Free m.packet_id) :
    Linked { s with client := s.client.send_publish m } := by
  have hnew : ∀ e ∈ opened m, e.packet_id ∉ owed s.client.handling ++ s.client.store.map (·.packet_id) ∧
      ¬ s.client.pid_man.Free e.packet_id := by
    intro e he
    obtain ⟨hq, rfl⟩ := mem_opened.mp he
    exact hid hq
  have hkey : ∀ e ∈ opened m, e.key ∉ s.client.store.map StoreMessage.key := fun e he =>
    key_not_mem fun hid => (hnew e he).1 (List.mem_append_right _ hid)
  have hstore : (s.client.send_publish m).store = s.client.store ++ opened m := by
    rw [Endpoint.send_publish_eq]
    cases hq : check_qos_value m.fixed_header with
    | true =>
      have hno := hkey (.publish m.set_dup) (mem_opened.mpr ⟨hq, rfl⟩)
      simp only [opened, hq, if_true, store_emplace]
      rw [if_neg (by rwa [has_key_iff])]
    | false => simp [opened, hq]
  have hpub : (s.client.send_publish m).published = s.client.published ++ [m] := by rw [Endpoint.send_publish_eq]
  have hpubsub : ∀ m' ∈ s.client.published, m' ∈ (s.client.send_publish m).published := fun m' hm' => by
    rw [hpub]; exact List.mem_append_left _ hm'
  have hmem : m ∈ (s.client.send_publish m).published := by rw [hpub]; simp
  have hin : ∀ e ∈ opened m, e ∈ (s.client.send_publish m).store :=
    fun e he => by rw [hstore]; exact List.mem_append_right _ he
  have hids : (s.client.send_publish m).store.map (·.packet_id) =
      s.client.store.map (·.packet_id) ++ (opened m).map (·.packet_id) := by rw [hstore, List.map_append]
  refine ⟨fun m' hm' => ?_, ?_, fun id hid' => ?_, by simpa using h.inflight, fun p hp => ?_, fun m' hm' hq' => ?_, ?_⟩
  · dsimp only at hm' ⊢
    rw [hstore] at hm'
    rcases List.mem_append.mp hm' with hm' | hm'
    · obtain ⟨hq', m₀, hm₀, hd⟩ := h.stored m' hm'
      exact ⟨hq', m₀, hpubsub _ hm₀, hd⟩
    · obtain ⟨hq, heq⟩ := mem_opened.mp hm'
      cases heq
      exact ⟨by simpa [PublishMessage.set_dup] using hq, m, hmem, rfl⟩
  · dsimp only
    rw [hids, ← List.append_assoc, Endpoint.send_publish_eq, List.nodup_append]
    refine ⟨h.ids, ?_, fun a ha b hb heq => ?_⟩
    · unfold opened
      split <;> simp
    · obtain ⟨e, he, rfl⟩ := List.mem_map.mp hb
      exact (hnew e he).1 (heq ▸ ha)
  · dsimp only at hid' ⊢
    rw [hids, ← List.append_assoc, Endpoint.send_publish_eq] at hid'
    rw [Endpoint.send_publish_eq]
    rcases List.mem_append.mp hid' with hid' | hid'
    · exact h.taken id hid'
    · obtain ⟨e, he, rfl⟩ := List.mem_map.mp hid'
      exact (hnew e he).2
  · exact (h.genuine p hp).imp_right fun ⟨m', hm', h'⟩ => ⟨m', hpubsub _ hm', h'⟩
  · dsimp only at hm' ⊢
    rw [hpub] at hm'
    rcases List.mem_append.mp hm' with hm' | hm'
    · exact (h.safe m' hm' hq').imp_right fun hs => by rw [hstore]; exact List.mem_append_left _ hs
    · obtain rfl := List.mem_singleton.mp hm'
      exact Or.inr (hin _ (mem_opened.mpr ⟨hq', rfl⟩))
  · rcases h.phase with hp | hp | hp
    · refine Or.inl ⟨by simpa using hp.client, by simpa using hp.idle, hp.server, ?_⟩
      simpa [hp.client.2.1] using hp.empty
    · rw [hp.client.2.1, hp.client.2.2] at hsettled
      cases hsettled
    · refine Or.inr (Or.inr (hp.opens (p := m.packet) (by simpa using hp.client) (by simpa using hp.handled)
        (by simp [hp.client.2.1]) hstore hpubsub (.publish hmem rfl fun hq => ?_) (exchange_opened m) hkey))
      exact hin _ (mem_opened.mpr ⟨hq, rfl⟩)

theorem linked_publish (h : Linked s) {pubopts : UInt8} {topic_name contents : Str}
    (ho : Orderly s (.publish pubopts topic_name contents)) : Linked (s.step (.publish pubopts topic_name contents)) := by
  simp only [step]
  rcases Endpoint.publish_cases pubopts topic_name contents s.client with ⟨pids, hf, hs⟩ | ⟨m, pids, hq, ha, hs⟩ | ⟨m, hq, hs⟩
  · rw [hs]; exact linked_pids h hf
  · obtain ⟨hfree, -, hrest⟩ := Allocator.allocate_spec ha
    rw [hs]
    refine linked_send (s := ⟨{ s.client with pid_man := pids }, s.server⟩) ?_ ho.1 fun _ =>
      ⟨?_, fun hv => ((hrest _).mp hv).2 rfl⟩
    · exact linked_pids h fun v hv => ((hrest v).mp hv).1
    · exact fun hid => h.taken _ hid hfree
  · rw [hs]
    exact linked_send h ho.1 fun hq' => absurd hq' (by rw [hq]; exact Bool.false_ne_true)

/-! ## The client receives -/

theorem receive_connack {c : Endpoint} (hr : c.reading = true) (hh : c.handling = none) (hc : c.connected = true)
    (sp : Bool) :
    c.step (.receive (.connack sp 0)) =
      { c with
        mqtt_connected := true
        store := if sp then c.store else []
        pid_man := if sp then c.pid_man else .new
        out := c.out ++ if sp then c.store.map (·.packet) else []
        handlers := c.handlers ++ [.message (.connack sp 0)]
        handling := some (.connack sp 0) } := by
  rw [Endpoint.step_receive hr hh hc, show c.process_payload (.connack sp 0) = c.process_connack sp 0 from rfl]
  cases sp <;> simp [Endpoint.process_connack, Endpoint.handle, Endpoint.notify, Endpoint.clear_session_data, hc]

theorem receive_ack {c : Endpoint} (hr : c.reading = true) (hh : c.handling = none) (hc : c.connected = true)
    (hm : c.mqtt_connected = true) (x : Expected) (id : Nat) :
    c.step (.receive (.ack x.type id)) =
      { c with
        store := store_erase (id, x) c.store
        pid_man := if x = .pubrec then c.pid_man else c.pid_man.deallocate id
        handlers := c.handlers ++ [.message (.ack x.type id)]
        handling := some (.ack x.type id) } := by
  rw [Endpoint.step_receive hr hh hc, Endpoint.process_payload_ack hm]
  cases x <;>
    simp [Endpoint.process_ack, Endpoint.process_puback, Endpoint.process_pubrec, Endpoint.process_pubcomp,
      Endpoint.acknowledged, Endpoint.release_id, Endpoint.handle, Endpoint.notify, Expected.type]

theorem exchange_packet (h : Linked s) {e : StoreMessage} (he : e ∈ s.client.store) : exchange e.packet = some e.key := by
  cases e with
  | publish m =>
    obtain ⟨hq, m₀, -, hd⟩ := h.stored m he
    have hx := exchange_publish (rfl : m.set_dup = m.set_dup) hq
    rwa [show m.set_dup = m by rw [← hd, set_dup_set_dup]] at hx
  | pubrel id => exact exchange_ack .pubcomp id

theorem upward_packet (h : Linked s) {e : StoreMessage} (he : e ∈ s.client.store) :
    Upward s.client.published s.client.store e.packet := by
  cases e with
  | publish m =>
    obtain ⟨hq, m₀, hm₀, hd⟩ := h.stored m he
    exact .publish hm₀ (by rw [← hd, set_dup_set_dup]) fun _ => hd ▸ he
  | pubrel id => exact .pubrel he

theorem keys_nodup (h : Linked s) : (s.client.store.map StoreMessage.key).Nodup := by
  have hids := (List.nodup_append.mp h.ids).2.1
  have hmap : s.client.store.map (·.packet_id) = (s.client.store.map StoreMessage.key).map Prod.fst := by
    rw [List.map_map]; rfl
  rw [hmap] at hids
  exact hids.of_map _

theorem eq_of_packet_id (h : Linked s) {e e' : StoreMessage} (he : e ∈ s.client.store) (he' : e' ∈ s.client.store)
    (hid : e'.packet_id = e.packet_id) : e' = e :=
  List.inj_on_of_nodup_map (List.nodup_append.mp h.ids).2.1 he' he hid

theorem linked_connack (h : Linked s) (hp : Handshake s) {sp : Bool} (hsp : sp = true ∨ s.client.store = []) :
    Linked ⟨s.client.step (.receive (.connack sp 0)), { s.server with out := [] }⟩ := by
  rw [receive_connack hp.client.1 hp.idle.1 hp.client.2.1]
  have hstore : (if sp then s.client.store else []) = s.client.store := by
    rcases hsp with rfl | hnil
    · rfl
    · rw [hnil, ite_self]
  have hids := h.ids
  rw [hp.idle.1] at hids
  rw [hstore]
  refine ⟨h.stored, hids, fun id hid => ?_, h.inflight, h.genuine, h.safe, Or.inr (Or.inr ?_)⟩
  · dsimp only at hid ⊢
    cases sp with
    | true => exact h.taken id (by rw [hp.idle.1]; exact hid)
    | false =>
      have hnil : s.client.store = [] := hsp.resolve_left nofun
      rw [hnil] at hid
      exact absurd hid List.not_mem_nil
  · have hpackets : (if sp then s.client.store.map (·.packet) else []) = s.client.store.map (·.packet) := by
      rcases hsp with rfl | hnil
      · rfl
      · rw [hnil, List.map_nil, ite_self]
    have hcarried : (s.client.store.map (·.packet)).filterMap exchange = s.client.store.map StoreMessage.key := by
      rw [List.filterMap_map, ← List.filterMap_eq_map]
      exact List.filterMap_congr fun e he => exchange_packet h he
    rw [hp.empty, hpackets, List.nil_append]
    refine ⟨⟨hp.client.1, hp.client.2.1, rfl⟩, hp.server, fun p hp' => ?_, fun p hp' => ?_, fun p hp' => ?_,
      fun p hp' => ?_, ?_, ?_⟩
    · exact Or.inl ⟨sp, 0, (Option.some.inj hp').symm⟩
    · obtain ⟨e, he, rfl⟩ := List.mem_map.mp hp'
      exact upward_packet h he
    · dsimp only at hp'
      rw [hp.idle.2] at hp'; cases hp'
    · cases hp'
    · simp only [carried, hp.idle.2, Option.toList_none, List.append_nil, hcarried]
      exact keys_nodup h
    · intro e he
      simp only [carried, hp.idle.2, Option.toList_none, List.append_nil, hcarried]
      exact List.mem_map_of_mem he

theorem linked_ack (h : Linked s) (hp : Session s) (hh : s.client.handling = none) {e : StoreMessage}
    (he : e ∈ s.client.store)
    (hd : ∀ m, e = .publish m → Delivered s.server.handlers m) {rest : List Incoming}
    (hout : s.server.out = .ack e.expected.type e.packet_id :: rest) :
    Linked ⟨s.client.step (.receive (.ack e.expected.type e.packet_id)), { s.server with out := rest }⟩ := by
  rw [receive_ack hp.client.1 hh hp.client.2.1 hp.client.2.2]
  have herase : ∀ e', e' ∈ store_erase (e.packet_id, e.expected) s.client.store ↔ e' ∈ s.client.store ∧ e' ≠ e := by
    intro e'
    rw [mem_store_erase]
    refine and_congr_right fun he' => not_congr ⟨fun hk => ?_, fun heq => heq ▸ rfl⟩
    exact eq_of_packet_id h he he' (congrArg Prod.fst hk)
  have hold := h.ids
  rw [hh] at hold
  have hsub : ((store_erase (e.packet_id, e.expected) s.client.store).map (·.packet_id)).Nodup :=
    hold.sublist ((List.filter_sublist).map _)
  have hfresh : e.packet_id ∉ (store_erase (e.packet_id, e.expected) s.client.store).map (·.packet_id) := by
    intro hid
    obtain ⟨e', he', heq⟩ := List.mem_map.mp hid
    obtain ⟨he', hne⟩ := (herase e').mp he'
    exact hne (eq_of_packet_id h he he' heq)
  have hstill : ∀ id ∈ (store_erase (e.packet_id, e.expected) s.client.store).map (·.packet_id),
      ¬ s.client.pid_man.Free id := by
    intro id hid
    obtain ⟨e', he', rfl⟩ := List.mem_map.mp hid
    exact h.taken _ (List.mem_append_right _ (List.mem_map_of_mem ((herase e').mp he').1))
  refine ⟨fun m hm => h.stored m ((herase _).mp hm).1, ?_, fun id hid => ?_, h.inflight, h.genuine, fun m hm hq => ?_,
    Or.inr (Or.inr ?_)⟩
  · cases hx : e.expected with
    | pubrec => rw [hx] at hsub hfresh; exact List.nodup_cons.mpr ⟨hfresh, hsub⟩
    | _ => rw [hx] at hsub; exact hsub
  · dsimp only at hid ⊢
    by_cases hx : e.expected = .pubrec
    · rw [if_pos hx]
      simp only [hx, owed, Expected.type, if_true] at hid
      rcases List.mem_cons.mp hid with rfl | hid
      · exact h.taken _ (List.mem_append_right _ (List.mem_map_of_mem he))
      · rw [hx] at hstill; exact hstill id hid
    · have hid : id ∈ (store_erase (e.packet_id, e.expected) s.client.store).map (·.packet_id) := by
        have howed : owed (some (.ack e.expected.type e.packet_id)) = [] := by
          cases hx' : e.expected <;> first | rfl | exact absurd hx' hx
        rwa [howed] at hid
      rw [if_neg hx, Allocator.free_deallocate]
      rintro (hv | rfl)
      · exact hstill id hid hv
      · exact hfresh hid
  · rcases h.safe m hm hq with hdel | hstore
    · exact Or.inl hdel
    · by_cases heq : .publish m.set_dup = e
      · exact Or.inl ((hd _ heq.symm).congr (set_dup_set_dup m))
      · exact Or.inr ((herase _).mpr ⟨hstore, heq⟩)
  · -- the exchange of `e` is the only one that is no longer carried on
    have hcarried : carried s = (s.client.out ++ s.server.handling.toList).filterMap exchange ++
        e.key :: rest.filterMap exchange := by
      rw [carried, hout, ← List.append_assoc, List.filterMap_append, List.filterMap_cons, exchange_ack]
      rfl
    obtain ⟨hnot, hnodup⟩ := List.nodup_cons.mp (List.nodup_middle.mp (hcarried ▸ hp.nodup))
    have hkeep : ∀ {p}, p ∈ s.client.out ++ s.server.handling.toList ++ rest →
      ∀ e' ∈ s.client.store, exchange p = some e'.key →
        e' ∈ store_erase (e.packet_id, e.expected) s.client.store := by
      intro p hp e' he' hx
      refine (herase e').mpr ⟨he', fun heq => hnot ?_⟩
      rw [← List.filterMap_append]
      exact List.mem_filterMap.mpr ⟨p, hp, heq ▸ hx⟩
    refine ⟨hp.client, hp.server, fun p hp' => ?_, fun p hp' => ?_, fun p hp' => ?_, fun p hp' => ?_, ?_, fun e' he' => ?_⟩
    · exact Or.inr ⟨e.expected, e.packet_id, (Option.some.inj hp').symm⟩
    · exact (hp.upward p hp').mono (fun _ hm => hm) (hkeep (List.mem_append_left _ (List.mem_append_left _ hp')))
    · obtain ⟨hup, hmsg⟩ := hp.serving p hp'
      refine ⟨hup.mono (fun _ hm => hm) (hkeep ?_), hmsg⟩
      exact List.mem_append_left _ (List.mem_append_right _ (Option.mem_toList.mpr hp'))
    · refine (hp.downward p ?_).mono (fun _ hc => hc) (hkeep (List.mem_append_right _ hp'))
      rw [hout]
      exact List.mem_cons_of_mem _ hp'
    · simp only [carried, ← List.append_assoc]
      rwa [List.filterMap_append]
    · obtain ⟨he', hne⟩ := (herase e').mp he'
      have hk := hp.complete e' he'
      rw [hcarried] at hk
      simp only [carried, ← List.append_assoc, List.filterMap_append] at hk ⊢
      rcases List.mem_append.mp hk with hk | hk
      · exact List.mem_append_left _ hk
      · rcases List.mem_cons.mp hk with hk | hk
        · exact absurd (eq_of_packet_id h he he' (congrArg Prod.fst hk)) hne
        · exact List.mem_append_right _ hk

theorem linked_client_receives (h : Linked s) : Linked (s.step .client_receives) := by
  rcases client_receives_cases s with hs | ⟨p, rest, hout, hr, hh, hs⟩
  · rw [hs]; exact h
  · rw [hs]
    rcases h.phase with hp | hp | hp
    · rw [hp.client.1] at hr; cases hr
    · obtain ⟨sp, hconnack, hsp⟩ := hp.connack
      rw [hconnack] at hout
      cases hout
      exact linked_connack h hp hsp
    · cases hp.downward p (by rw [hout]; exact List.mem_cons_self) with
      | ack he hd => exact linked_ack h hp hh he hd hout

theorem respond_pubrec {c : Endpoint} (hc : c.connected = true) (id : Nat) :
    c.respond (.ack 0x50 id) = { c with
      pid_man := (c.register_id id).pid_man
      store := store_overwrite (.pubrel id) c.store
      out := c.out ++ [.ack 0x60 id] } := by
  simp [Endpoint.respond, Endpoint.send_pubrel, Endpoint.register_id, hc]

theorem linked_pubrel (h : Linked s) (hp : Session s) {id : Nat} (hh : s.client.handling = some (.ack 0x50 id)) :
    Linked { s with client := { s.client with handling := none }.respond (.ack 0x50 id) } := by
  have howed : owed s.client.handling = [id] := by rw [hh]; rfl
  have hids := h.ids
  rw [howed] at hids
  obtain ⟨hid, hnodup⟩ := List.nodup_cons.mp hids
  have hstore : store_overwrite (.pubrel id) s.client.store = s.client.store ++ [.pubrel id] := by
    rw [store_overwrite, if_neg]
    rw [has_key_iff]
    exact key_not_mem hid
  rw [respond_pubrec (c := { s.client with handling := none }) hp.client.2.1, hstore]
  refine ⟨fun m hm => ?_, ?_, fun id' hid' => ?_, h.inflight, h.genuine, fun m hm hq => ?_, Or.inr (Or.inr ?_)⟩
  · exact h.stored m (by simpa using hm)
  · rw [List.map_append]
    exact (@List.perm_append_comm _ [id] _).nodup_iff.mp hids
  · rw [Endpoint.free_register_id]
    rintro ⟨hv, hne⟩
    simp only [owed, List.nil_append, List.map_append, List.mem_append, List.map_cons, List.map_nil,
      List.mem_singleton] at hid'
    exact h.taken id' (List.mem_append_right _ (hid'.resolve_right hne)) hv
  · exact (h.safe m hm hq).imp_right fun hs => List.mem_append_left _ hs
  · refine @Session.opens _ hp _ (.ack 0x60 id) [.pubrel id] hp.client (fun _ hn => by cases hn) rfl rfl
      (fun _ hm => hm) ?_ rfl ?_
    · exact .pubrel (List.mem_append_right _ List.mem_cons_self)
    · intro e he
      obtain rfl := List.mem_singleton.mp he
      exact key_not_mem hid

theorem linked_client_idle (h : Linked s) (hp : Session s) (howed : owed s.client.handling = []) :
    Linked { s with client := { s.client with handling := none } } := by
  have hids := h.ids
  have htaken := h.taken
  rw [howed] at hids htaken
  exact ⟨h.stored, hids, htaken, h.inflight, h.genuine, h.safe,
    Or.inr (Or.inr ⟨hp.client, hp.server, (fun _ hn => by cases hn), hp.upward, hp.serving, hp.downward, hp.nodup,
      hp.complete⟩)⟩

theorem linked_client_returns (h : Linked s) : Linked (s.step .client_returns) := by
  rcases client_returns_cases s with hs | ⟨p, hh, hs⟩
  · rw [hs]; exact h
  · rw [hs]
    rcases h.phase with hp | hp | hp
    · rw [hp.idle] at hh; cases hh
    · rw [hp.idle.1] at hh; cases hh
    · rcases hp.handled p hh with ⟨sp, code, rfl⟩ | ⟨x, id, rfl⟩
      · exact linked_client_idle h hp (by rw [hh]; rfl)
      · cases x with
        | pubrec => exact linked_pubrel h hp hh
        | puback => exact linked_client_idle h hp (by rw [hh]; rfl)
        | pubcomp => exact linked_client_idle h hp (by rw [hh]; rfl)

/-! ## The server receives -/

theorem receive_upward {c : Endpoint} (hr : c.reading = true) (hh : c.handling = none) (hc : c.connected = true)
    (hm : c.mqtt_connected = true) {published : List PublishMessage} {store : List StoreMessage} {p : Incoming}
    (hp : Upward published store p) : ∃ ids, c.step (.receive p) =
      { c with handlers := c.handlers ++ [.message p], handling := some p, qos2_publish_handled := ids } := by
  rw [Endpoint.step_receive hr hh hc]
  cases hp with
  | publish =>
    refine ⟨c.qos2_publish_handled, ?_⟩
    rw [PublishMessage.packet, Endpoint.process_payload_publish hm]
    simp [Endpoint.handle, Endpoint.notify]
  | @pubrel id =>
    refine ⟨c.qos2_publish_handled.filter (· ≠ id), ?_⟩
    rw [Endpoint.process_payload_ack hm]
    simp [Endpoint.process_ack, Endpoint.process_pubrel, Endpoint.handle, Endpoint.notify]

theorem linked_server_receives (h : Linked s) : Linked (s.step .server_receives) := by
  rcases server_receives_cases s with hs | ⟨p, rest, hout, hr, hh, hs⟩
  · rw [hs]; exact h
  · rcases h.phase with hp | hp | hp
    · rw [hp.empty.1] at hout; cases hout
    · rw [hp.empty] at hout; cases hout
    · have hup := hp.upward p (by rw [hout]; exact List.mem_cons_self)
      obtain ⟨ids, hrecv⟩ := receive_upward hr hh hp.server.2.1 hp.server.2.2 hup
      have hmono : ∀ c ∈ s.server.handlers, c ∈ s.server.handlers ++ [.message p] := fun _ hc => List.mem_append_left _ hc
      have hperm : (carried s).Perm ((rest ++ ([p] ++ s.server.out)).filterMap exchange) := by
        rw [carried, hout, hh]
        exact List.Perm.filterMap _ List.perm_middle.symm
      rw [hs, hrecv]
      refine ⟨h.stored, h.ids, h.taken, h.inflight, fun q hq => ?_, fun m hm hq => ?_, Or.inr (Or.inr ?_)⟩
      · rcases List.mem_append.mp hq with hq | hq
        · exact h.genuine q hq
        · cases List.mem_singleton.mp hq
          cases hup with
          | publish hm hd hs => exact Or.inr ⟨_, hm, _, hd, rfl⟩
          | pubrel => exact Or.inl ⟨_, rfl⟩
      · exact (h.safe m hm hq).imp_left fun hd => hd.mono hmono
      · refine ⟨hp.client, hp.server, hp.handled, fun q hq => ?_, fun q hq => ?_, fun q hq => ?_, ?_, fun e he => ?_⟩
        · exact hp.upward q (by rw [hout]; exact List.mem_cons_of_mem _ hq)
        · obtain rfl := Option.some.inj hq
          exact ⟨hup, by simp⟩
        · exact (hp.downward q hq).mono hmono fun _ he _ => he
        · exact hperm.nodup_iff.mp hp.nodup
        · exact hperm.mem_iff.mp (hp.complete e he)

/-- The answer of the server goes on with the exchange of the packet. -/
theorem respond_upward {c : Endpoint} (hc : c.connected = true) {published : List PublishMessage} {store : List StoreMessage}
    {p : Incoming} (hp : Upward published store p) (hmsg : .message p ∈ c.handlers) : ∃ ids answers,
      c.respond p = { c with out := c.out ++ answers, qos2_publish_handled := ids } ∧
        answers.filterMap exchange = (exchange p).toList ∧ ∀ q ∈ answers, Downward c.handlers store q := by
  cases hp with
  | pubrel hs =>
    refine ⟨c.qos2_publish_handled, [.ack 0x70 _], by simp [Endpoint.respond, hc], rfl, fun q hq => ?_⟩
    rw [List.mem_singleton.mp hq]
    exact .ack hs nofun
  | @publish m m' hm hd hs =>
    cases hq : check_qos_value m.fixed_header with
    | false =>
      have hpacket : m'.packet = .publish none m'.fixed_header m'.topic_name m'.payload := by
        rw [PublishMessage.packet, (same_qos hd).2, hq]; rfl
      refine ⟨c.qos2_publish_handled, [], ?_, by rw [hpacket]; rfl, nofun⟩
      rw [hpacket]
      simp [Endpoint.respond]
    | true =>
      have hpacket : m'.packet = .publish (some m'.packet_id) m'.fixed_header m'.topic_name m'.payload := by
        rw [PublishMessage.packet, (same_qos hd).2, hq]; rfl
      have hid : (StoreMessage.publish m.set_dup).packet_id = m'.packet_id := by
        simpa [PublishMessage.set_dup, StoreMessage.packet_id] using (congrArg PublishMessage.packet_id hd).symm
      have hexp : (StoreMessage.publish m.set_dup).expected = if get_qos m'.fixed_header = 1 then .puback else .pubrec := by
        simp [StoreMessage.expected, PublishMessage.set_dup, get_qos_dup, (same_qos hd).1]
      have hdown : Downward c.handlers store (.ack (StoreMessage.publish m.set_dup).expected.type m'.packet_id) := by
        rw [← hid]
        refine .ack (hs hq) fun m₂ heq => ?_
        cases heq
        exact ⟨m', by rw [hd, set_dup_set_dup], hmsg⟩
      have hx : exchange m'.packet = some (m'.packet_id, (StoreMessage.publish m.set_dup).expected) := by
        rw [exchange_publish hd hq, StoreMessage.key, hid]
      refine ⟨if get_qos m'.fixed_header = 1 then c.qos2_publish_handled
          else Endpoint.set_insert m'.packet_id c.qos2_publish_handled,
        [.ack (StoreMessage.publish m.set_dup).expected.type m'.packet_id], ?_, ?_, fun q hq' => ?_⟩
      · have hqos : get_qos m'.fixed_header = 1 ∨ get_qos m'.fixed_header = 2 := by
          simpa [check_qos_value] using (same_qos hd).2.trans hq
        rw [hexp, hpacket]
        rcases hqos with hqos | hqos <;> simp [Endpoint.respond, hqos, hc, Expected.type]
      · rw [hx, List.filterMap_cons, exchange_ack]; rfl
      · rw [List.mem_singleton.mp hq']; exact hdown

theorem respond_offline {c : Endpoint} (hc : c.connected = false) (p : Incoming) :
    (c.respond p).connected = false ∧ (c.respond p).out = c.out ∧ (c.respond p).handlers = c.handlers := by
  unfold Endpoint.respond
  split
  · split
    · simp [hc]
    · split <;> simp [hc]
  · split
    · simp [hc, Endpoint.store_pubrel, Endpoint.register_id]
    · split <;> simp [hc]
  · simp [Endpoint.shutdown]
  · simp [hc]

theorem linked_server_returns (h : Linked s) : Linked (s.step .server_returns) := by
  rcases server_returns_cases s with hs | ⟨p, hh, hs⟩
  · rw [hs]; exact h
  · rw [hs]
    rcases h.phase with hp | hp | hp
    · obtain ⟨hc, hout, hhandlers⟩ := respond_offline (c := { s.server with handling := none }) hp.server p
      refine ⟨h.stored, h.ids, h.taken, h.inflight, fun q hq => ?_, fun m hm hq => ?_,
        Or.inl ⟨hp.client, hp.idle, hc, hp.empty.1, ?_⟩⟩
      · dsimp only at hq
        rw [hhandlers] at hq
        exact h.genuine q hq
      · dsimp only
        rw [hhandlers]
        exact h.safe m hm hq
      · dsimp only
        rw [hout]
        exact hp.empty.2
    · rw [hp.idle.2] at hh; cases hh
    · obtain ⟨hup, hmsg⟩ := hp.serving p hh
      obtain ⟨ids, answers, hresp, hx, hdown⟩ :=
        respond_upward (c := { s.server with handling := none }) hp.server.2.1 hup hmsg
      have hperm : (carried s).Perm ((s.client.out ++ ([] ++ (s.server.out ++ answers))).filterMap exchange) := by
        rw [carried, hh]
        simp only [List.filterMap_append, hx, List.nil_append]
        refine List.Perm.append_left _ ?_
        rw [Option.toList_some, show [p].filterMap exchange = (exchange p).toList by cases hx : exchange p <;> simp [hx]]
        exact List.perm_append_comm
      rw [hresp]
      refine ⟨h.stored, h.ids, h.taken, h.inflight, h.genuine, h.safe,
        Or.inr (Or.inr ⟨hp.client, hp.server, hp.handled, hp.upward,
        (fun _ hn => by cases hn), fun q hq => ?_, hperm.nodup_iff.mp hp.nodup,
          fun e he => hperm.mem_iff.mp (hp.complete e he)⟩)⟩
      rcases List.mem_append.mp hq with hq | hq
      · exact hp.downward q hq
      · exact hdown q hq

/-! ## Connections -/

theorem linked_lose (h : Linked s) : Linked (s.step .lose) := by
  by_cases hfree : s.client.reading = true ∧ s.client.handling = none
  · have hc : s.client.connected = true := by
      rcases h.phase with hp | hp | hp
      · rw [hp.client.1] at hfree; cases hfree.1
      · exact hp.client.2.1
      · exact hp.client.2.1
    have hclose : s.client.step .close = { s.client with
        connected := false, mqtt_connected := false, disconnect_requested := false, reading := false,
        handlers := s.client.handlers ++ [if s.client.disconnect_requested then .on_close else .on_error] } := by
      simp [Endpoint.step, Endpoint.completes, Endpoint.handle_close_or_error, Endpoint.notify, hfree, hc, h.inflight]
    have hstep : s.step .lose = ⟨{ s.client.step .close with out := [] }, { s.server.shutdown with out := [] }⟩ := by
      simp only [step]
      rw [if_pos hfree]
    rw [hstep, hclose]
    exact ⟨h.stored, h.ids, h.taken, h.inflight, h.genuine, h.safe, Or.inl ⟨⟨rfl, rfl, rfl⟩, hfree.2, rfl, rfl, rfl⟩⟩
  · have hstep : s.step .lose = s := by
      simp only [step]
      rw [if_neg hfree]
    rw [hstep]; exact h

theorem linked_connect (h : Linked s) {sp : Bool} (ho : Orderly s (.connect sp)) : Linked (s.step (.connect sp)) := by
  by_cases hr : s.client.reading = true
  · have hstep : s.step (.connect sp) = s := by simp only [step, hr, if_true]
    rw [hstep]; exact h
  · have hstep : s.step (.connect sp) =
        ⟨{ s.client with connected := true, reading := true }, accepted sp s.server.handlers⟩ := by
      simp only [step, Endpoint.step]
      rw [if_neg hr, if_neg hr]
    rw [hstep]
    rcases h.phase with hp | hp | hp
    · exact ⟨h.stored, h.ids, h.taken, h.inflight, h.genuine, h.safe, Or.inr (Or.inl
        ⟨⟨rfl, rfl, hp.client.2.2⟩, ⟨rfl, rfl, rfl⟩, ⟨hp.idle, rfl⟩, hp.empty.1, sp, rfl, ho⟩)⟩
    · exact absurd hp.client.1 hr
    · exact absurd hp.client.1 hr

/-! ## Every run -/

theorem linked_start : Linked start := by
  refine ⟨nofun, by simp [start, Endpoint.new, owed], by simp [start, Endpoint.new, owed], rfl, nofun, nofun, Or.inl ?_⟩
  exact ⟨⟨rfl, rfl, rfl⟩, rfl, rfl, rfl, rfl⟩

theorem linked_step (h : Linked s) {e : Event} (ho : Orderly s e) : Linked (s.step e) := by
  cases e with
  | publish pubopts topic_name contents => exact linked_publish h ho
  | client_receives => exact linked_client_receives h
  | client_returns => exact linked_client_returns h
  | server_receives => exact linked_server_receives h
  | server_returns => exact linked_server_returns h
  | lose => exact linked_lose h
  | connect sp => exact linked_connect h ho

theorem linked_run {evs : List Event} (h : Along step Orderly start evs) : Linked (run step start evs) :=
  run_inv (P := Linked) (fun _ _ hs ho => linked_step hs ho) linked_start h

def Quiet (s : Link) : Prop :=
  s.client.mqtt_connected = true ∧ s.client.out = [] ∧ s.server.out = [] ∧ s.client.handling = none ∧ s.server.handling = none

theorem Linked.store_of_quiet (h : Linked s) (hq : Quiet s) : s.client.store = [] := by
  obtain ⟨hm, hout, hsout, -, hh⟩ := hq
  rcases h.phase with hp | hp | hp
  · rw [hp.client.2.2] at hm; cases hm
  · rw [hp.client.2.2] at hm; cases hm
  · rw [List.eq_nil_iff_forall_not_mem]
    intro e he
    have hk := hp.complete e he
    simp [carried, hout, hsout, hh] at hk

/-- **Every message arrives.** However connections are lost and resumed, what the server's handlers
have been called with is what the client has published; a message with quality of service 1 or 2
has been handed to them or is in the store of the client, and once nothing is on its way the
store is empty, so that all of them have been. -/
theorem delivered_or_stored {evs : List Event} (h : Along step Orderly start evs) :
    let s := run step start evs
    (∀ m ∈ s.client.published, check_qos_value m.fixed_header = true →
      Delivered s.server.handlers m ∨ .publish m.set_dup ∈ s.client.store) ∧
    (Quiet s → s.client.store = []) ∧
    ∀ p, .message p ∈ s.server.handlers → (∃ id, p = .ack 0x60 id) ∨
      ∃ m ∈ s.client.published, ∃ m' : PublishMessage, m'.set_dup = m.set_dup ∧ p = m'.packet :=
  ⟨(linked_run h).safe, (linked_run h).store_of_quiet, (linked_run h).genuine⟩

/-- A message with quality of service 2 is lost with its connection and handed over on the next. -/
def resumed_exchange : List Event :=
  [.connect false, .client_receives, .client_returns, .publish 0x04 (lit "t") (lit "x"), .lose,
    .connect true, .client_receives, .client_returns, .server_receives, .server_returns,
    .client_receives, .client_returns, .server_receives, .server_returns, .client_receives, .client_returns]

theorem resumed_exchange_arrives :
    let s := run step start resumed_exchange
    s.client.store = [] ∧ s.client.published.length = 1 ∧ ∀ m ∈ s.client.published, Delivered s.server.handlers m := by
  have h := @delivered_or_stored resumed_exchange
    ⟨Or.inr rfl, trivial, trivial, ⟨rfl, by decide⟩, trivial, Or.inl rfl, trivial,
    trivial, trivial, trivial, trivial, trivial, trivial, trivial, trivial, trivial, trivial⟩
  have hstore := h.2.1 ⟨rfl, rfl, rfl, rfl, rfl⟩
  refine ⟨hstore, rfl, fun m hm => (h.1 m hm ?_).resolve_right ?_⟩
  · obtain rfl : m = ⟨0x34, 1, lit "t", lit "x"⟩ := List.mem_singleton.mp hm
    decide
  · rw [hstore]
    exact List.not_mem_nil

end Link

end VrpcAgent

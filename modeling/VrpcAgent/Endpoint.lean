import VrpcAgent.PacketIdManager
import VrpcAgent.PacketReader
import VrpcAgent.Runs
import Mathlib.Data.List.Sort

/-!
# The session of an endpoint

`endpoint.hpp` behind the reader: the store of the messages that are not acknowledged, the
identifiers in use, and what calls, packets and the end of a connection do to them. The
endpoint speaks MQTT 3.1.1, writes at once and acknowledges by itself; the packets it has
written are kept as its peer reads them. Not modelled: the calls that acknowledge by hand
(`puback`, `pubrec`, `pubrel`, `pubcomp`), `subscribe` and `unsubscribe` under an identifier of
the caller, `restore_serialized_message`, and `connect`, `connack`, `pingreq` and `pingresp`,
which touch neither the store nor the identifiers.
-/

namespace VrpcAgent

open Runs

/-! ## Messages -/

/-- `basic_publish_message`; without an identifier on the wire, `packet_id` is 0. -/
structure PublishMessage where
  fixed_header : UInt8
  packet_id : Nat
  topic_name : Str
  payload : Str
  deriving DecidableEq

def check_qos_value (v : UInt8) : Bool := get_qos v = 1 ∨ get_qos v = 2

namespace PublishMessage

def set_dup (m : PublishMessage) : PublishMessage := { m with fixed_header := m.fixed_header ||| 0x08 }

def packet (m : PublishMessage) : Incoming :=
  .publish (if check_qos_value m.fixed_header then some m.packet_id else none) m.fixed_header m.topic_name m.payload

def constructs (m : PublishMessage) : Bool :=
  m.topic_name.length ≤ 65535 ∧
    2 + m.topic_name.length + (if check_qos_value m.fixed_header then 2 else 0) + m.payload.length ≤ 268435455

end PublishMessage

theorem get_qos_publish (v : UInt8) : get_qos (0x30 ||| v) = get_qos v := by
  revert v
  exact forall_byte (by decide +kernel)

theorem get_qos_dup (v : UInt8) : get_qos (v ||| 0x08) = get_qos v := by
  revert v
  exact forall_byte (by decide +kernel)

@[simp] theorem check_qos_publish (v : UInt8) : check_qos_value (0x30 ||| v) = check_qos_value v := by
  simp [check_qos_value, get_qos_publish]

@[simp] theorem check_qos_dup (v : UInt8) : check_qos_value (v ||| 0x08) = check_qos_value v := by
  simp [check_qos_value, get_qos_dup]

inductive Expected where
  | puback
  | pubrec
  | pubcomp
  deriving DecidableEq

/-- `basic_store_message_variant`. Its identifier and what it waits for are stored beside it, and
are always these. -/
inductive StoreMessage where
  | publish (m : PublishMessage)
  | pubrel (packet_id : Nat)
  deriving DecidableEq

namespace StoreMessage

def packet_id : StoreMessage → Nat
  | .publish m => m.packet_id
  | .pubrel packet_id => packet_id

def expected : StoreMessage → Expected
  | .publish m => if get_qos m.fixed_header = 1 then .puback else .pubrec
  | .pubrel _ => .pubcomp

def key (e : StoreMessage) : Nat × Expected := (e.packet_id, e.expected)

def packet : StoreMessage → Incoming
  | .publish m => m.packet
  | .pubrel packet_id => .ack 0x60 packet_id

theorem eq_pubrel {e : StoreMessage} {packet_id : Nat} (h : e.key = (packet_id, .pubcomp)) : e = .pubrel packet_id := by
  cases e with
  | publish m =>
    simp only [key, expected, Prod.mk.injEq] at h
    obtain ⟨-, hx⟩ := h
    split at hx <;> cases hx
  | pubrel id => cases h; rfl

end StoreMessage

/-! ## mi_store

A list in the order of `tag_seq`. -/

def has_key (k : Nat × Expected) (store : List StoreMessage) : Bool := store.any (·.key = k)

def store_emplace (e : StoreMessage) (store : List StoreMessage) : List StoreMessage :=
  if has_key e.key store then store else store ++ [e]

/-- `emplace`, and `modify` where the key is there. -/
def store_overwrite (e : StoreMessage) (store : List StoreMessage) : List StoreMessage :=
  if has_key e.key store then store.map fun e' => if e'.key = e.key then e else e' else store ++ [e]

def store_erase (k : Nat × Expected) (store : List StoreMessage) : List StoreMessage := store.filter (·.key ≠ k)

theorem has_key_iff {k : Nat × Expected} {store : List StoreMessage} :
    has_key k store = true ↔ k ∈ store.map StoreMessage.key := by
  simp [has_key]

theorem mem_store_emplace {e e' : StoreMessage} {store : List StoreMessage} :
    e ∈ store_emplace e' store ↔ e ∈ store ∨ e = e' ∧ e'.key ∉ store.map StoreMessage.key := by
  unfold store_emplace
  split
  · rename_i h
    rw [has_key_iff] at h
    simp [h]
  · rename_i h
    rw [Bool.not_eq_true, ← Bool.not_eq_true, has_key_iff] at h
    simp [h]

theorem mem_store_erase {e : StoreMessage} {k : Nat × Expected} {store : List StoreMessage} :
    e ∈ store_erase k store ↔ e ∈ store ∧ e.key ≠ k := by
  simp [store_erase]

theorem mem_store_overwrite {e e' : StoreMessage} {store : List StoreMessage} (h : e ∈ store_overwrite e' store) :
    e = e' ∨ e ∈ store ∧ e.key ≠ e'.key := by
  unfold store_overwrite at h
  split at h
  · obtain ⟨a, ha, rfl⟩ := List.mem_map.mp h
    split
    · exact Or.inl rfl
    · exact Or.inr ⟨ha, by assumption⟩
  · rename_i hk
    rw [Bool.not_eq_true, ← Bool.not_eq_true, has_key_iff] at hk
    rcases List.mem_append.mp h with he | he
    · exact Or.inr ⟨he, fun heq => hk (heq ▸ List.mem_map_of_mem he)⟩
    · exact Or.inl (List.mem_singleton.mp he)

theorem mem_store_overwrite_self (e : StoreMessage) (store : List StoreMessage) : e ∈ store_overwrite e store := by
  unfold store_overwrite
  split
  · rename_i hk
    obtain ⟨a, ha, hae⟩ := List.mem_map.mp (has_key_iff.mp hk)
    exact List.mem_map.mpr ⟨a, ha, if_pos hae⟩
  · simp

theorem mem_store_overwrite_of_ne {e e' : StoreMessage} {store : List StoreMessage} (h : e ∈ store) (hk : e.key ≠ e'.key) :
    e ∈ store_overwrite e' store := by
  unfold store_overwrite
  split
  · exact List.mem_map.mpr ⟨e, h, if_neg hk⟩
  · exact List.mem_append_left _ h

/-! ## The endpoint -/

inductive Callback where
  | message (p : Incoming)
  | on_close
  | on_error
  deriving DecidableEq

/-- `reading`: packets are taken from the socket. `handling` is the packet whose handler has not
returned. `published` are the messages that `publish` has taken, `out` the packets written,
`handlers` the handlers called. -/
structure Endpoint where
  connected : Bool
  mqtt_connected : Bool
  disconnect_requested : Bool
  reading : Bool
  handling : Option Incoming
  store : List StoreMessage
  qos2_publish_handled : List Nat
  pid_man : Allocator
  sub_unsub_inflight : List Nat
  published : List PublishMessage
  out : List Incoming
  handlers : List Callback

namespace Endpoint

def new : Endpoint := ⟨false, false, false, false, none, [], [], .new, [], [], [], []⟩

def do_sync_write (p : Incoming) (s : Endpoint) : Endpoint :=
  if s.connected then { s with out := s.out ++ [p] } else s

def notify (c : Callback) (s : Endpoint) : Endpoint := { s with handlers := s.handlers ++ [c] }

/-! ## Sending -/

def preprocess_publish_message (m : PublishMessage) (s : Endpoint) : Endpoint :=
  if check_qos_value m.fixed_header then
    { s with store := store_emplace (.publish m.set_dup) s.store }
  else s

def send_publish (m : PublishMessage) (s : Endpoint) : Endpoint :=
  { s with published := s.published ++ [m] } |>.preprocess_publish_message m |>.do_sync_write m.packet

def publish_with (m : PublishMessage) (s : Endpoint) : Endpoint := if m.constructs then s.send_publish m else s

/-- `acquire_unique_packet_id`, and what is done with the identifier. -/
def acquiring (f : Nat → Endpoint → Endpoint) (s : Endpoint) : Endpoint :=
  match s.pid_man.allocate with
  | none => s
  | some (packet_id, pid_man) => f packet_id { s with pid_man }

def publish (pubopts : UInt8) (topic_name contents : Str) (s : Endpoint) : Endpoint :=
  if check_qos_value pubopts then
    s.acquiring fun packet_id => publish_with ⟨0x30 ||| pubopts, packet_id, topic_name, contents⟩
  else s.publish_with ⟨0x30 ||| pubopts, 0, topic_name, contents⟩

def set_insert (v : Nat) (l : List Nat) : List Nat := if v ∈ l then l else l.orderedInsert (· ≤ ·) v

/-- The identifier is in flight before the constructor of the packet may throw. -/
def send_inflight (constructs : Bool) (packet_id : Nat) (p : Incoming) (s : Endpoint) : Endpoint :=
  let s := { s with sub_unsub_inflight := set_insert packet_id s.sub_unsub_inflight }
  if constructs then s.do_sync_write p else s

def filter_length (share_name topic_filter : Str) : Nat :=
  (if share_name = [] then 0 else share_name.length + 8) + topic_filter.length

def filters_construct (lengths : List Nat) (extra : Nat) : Bool :=
  lengths.all (· ≤ 65535) && decide (lengths.foldl (fun remaining_length n => remaining_length + n + 2 + extra) 2 ≤ 268435455)

def subscribe (entries : List SubscribeEntry) (s : Endpoint) : Endpoint :=
  s.acquiring fun packet_id =>
    send_inflight (filters_construct (entries.map fun e => filter_length e.share_name e.topic_filter) 1) packet_id
      (.subscribe packet_id entries)

def unsubscribe (entries : List (Str × Str)) (s : Endpoint) : Endpoint :=
  s.acquiring fun packet_id =>
    send_inflight (filters_construct (entries.map fun e => filter_length e.1 e.2) 0) packet_id
      (.unsubscribe packet_id entries)

def register_id (packet_id : Nat) (s : Endpoint) : Endpoint :=
  { s with pid_man := (s.pid_man.use packet_id).getD s.pid_man }

def release_id (packet_id : Nat) (s : Endpoint) : Endpoint :=
  { s with pid_man := s.pid_man.deallocate packet_id }

def send_pubrel (packet_id : Nat) (s : Endpoint) : Endpoint :=
  let s := s.register_id packet_id
  { s with store := store_overwrite (.pubrel packet_id) s.store } |>.do_sync_write (.ack 0x60 packet_id)

def store_pubrel (packet_id : Nat) (s : Endpoint) : Endpoint :=
  let s := s.register_id packet_id
  { s with store := store_emplace (.pubrel packet_id) s.store }

def send_store (s : Endpoint) : Endpoint := s.store.foldl (fun s e => s.do_sync_write e.packet) s

def clear_stored_publish (packet_id : Nat) (s : Endpoint) : Endpoint :=
  { s with store := s.store.filter (·.packet_id ≠ packet_id) } |>.release_id packet_id

def clear_session_data (s : Endpoint) : Endpoint := { s with store := [], pid_man := .new }

def disconnect (s : Endpoint) : Endpoint :=
  if s.connected ∧ s.mqtt_connected then { s with disconnect_requested := true }.do_sync_write .disconnect else s

def shutdown (s : Endpoint) : Endpoint := { s with connected := false, mqtt_connected := false }

/-- The calls that a program makes; `suback` and `unsuback` answer a packet. -/
inductive Call where
  | publish (pubopts : UInt8) (topic_name contents : Str)
  | publish_with (m : PublishMessage)
  | subscribe (entries : List SubscribeEntry)
  | unsubscribe (entries : List (Str × Str))
  | suback (packet_id : Nat) (results : Str)
  | unsuback (packet_id : Nat)
  | acquire_unique_packet_id
  | register_packet_id (packet_id : Nat)
  | release_packet_id (packet_id : Nat)
  | clear_stored_publish (packet_id : Nat)
  | disconnect
  | force_disconnect

def call (s : Endpoint) : Call → Endpoint
  | .publish pubopts topic_name contents => s.publish pubopts topic_name contents
  | .publish_with m => s.publish_with m
  | .subscribe entries => s.subscribe entries
  | .unsubscribe entries => s.unsubscribe entries
  | .suback packet_id results => s.do_sync_write (.suback packet_id results)
  | .unsuback packet_id => s.do_sync_write (.ack 0xB0 packet_id)
  | .acquire_unique_packet_id => s.acquiring fun _ => id
  | .register_packet_id packet_id => s.register_id packet_id
  | .release_packet_id packet_id => s.release_id packet_id
  | .clear_stored_publish packet_id => s.clear_stored_publish packet_id
  | .disconnect => s.disconnect
  | .force_disconnect => s.shutdown

/-! ## Receiving

A packet is processed up to its handler, and the rest once the handler has returned `true`; in
between, the handler may make calls. -/

def handle (p : Incoming) (s : Endpoint) : Endpoint := { s.notify (.message p) with handling := some p }

def process_connack (session_present : Bool) (code : UInt8) (s : Endpoint) : Endpoint :=
  let s := { s with mqtt_connected := true }
  let s := if code = 0 then if session_present then s.send_store else s.clear_session_data else s
  s.handle (.connack session_present code)

def acknowledged (x : Expected) (packet_id : Nat) (s : Endpoint) : Endpoint :=
  { s with store := store_erase (packet_id, x) s.store } |>.release_id packet_id

def process_puback (packet_id : Nat) (s : Endpoint) : Endpoint :=
  s.acknowledged .puback packet_id |>.handle (.ack 0x40 packet_id)

def process_pubrec (packet_id : Nat) (s : Endpoint) : Endpoint :=
  { s with store := store_erase (packet_id, .pubrec) s.store }.handle (.ack 0x50 packet_id)

def process_pubrel (packet_id : Nat) (s : Endpoint) : Endpoint :=
  { s with qos2_publish_handled := s.qos2_publish_handled.filter (· ≠ packet_id) }.handle (.ack 0x60 packet_id)

def process_pubcomp (packet_id : Nat) (s : Endpoint) : Endpoint :=
  s.acknowledged .pubcomp packet_id |>.handle (.ack 0x70 packet_id)

/-- `process_suback` and `process_unsuback`. -/
def process_inflight (p : Incoming) (packet_id : Nat) (s : Endpoint) : Endpoint :=
  let s := s.release_id packet_id
  { s with sub_unsub_inflight := s.sub_unsub_inflight.filter (· ≠ packet_id) }.handle p

/-- The identifiers are released, and stay in the set. -/
def clean_sub_unsub_inflight (s : Endpoint) : Endpoint := s.sub_unsub_inflight.foldl (fun s id => s.release_id id) s

/-- `call_bad_message_error_handlers` and `call_protocol_error_handlers`. -/
def call_error_handlers (s : Endpoint) : Endpoint :=
  { s.clean_sub_unsub_inflight with reading := false }.notify .on_error

def process_ack (type : UInt8) (packet_id : Nat) (s : Endpoint) : Endpoint :=
  if type = 0x40 then s.process_puback packet_id
  else if type = 0x50 then s.process_pubrec packet_id
  else if type = 0x60 then s.process_pubrel packet_id
  else if type = 0x70 then s.process_pubcomp packet_id
  else s.process_inflight (.ack type packet_id) packet_id

def process_payload (p : Incoming) (s : Endpoint) : Endpoint :=
  match p with
  | .connect .. => { s with mqtt_connected := true }.handle p
  | .connack session_present code => s.process_connack session_present code
  | .disconnect => s.handle .disconnect
  | p =>
    if s.mqtt_connected then
      match p with
      | .ack type packet_id => s.process_ack type packet_id
      | .suback packet_id _ => s.process_inflight p packet_id
      | p => s.handle p
    else s.call_error_handlers

/-- What `process_publish`, `process_pubrec`, `process_pubrel` and `process_disconnect` do after
their handlers. -/
def respond (p : Incoming) (s : Endpoint) : Endpoint :=
  match p with
  | .publish (some packet_id) options _ _ =>
    if get_qos options = 1 then s.do_sync_write (.ack 0x40 packet_id)
    else if get_qos options = 2 then
      { s with qos2_publish_handled := set_insert packet_id s.qos2_publish_handled }.do_sync_write (.ack 0x50 packet_id)
    else s
  | .ack type packet_id =>
    if type = 0x50 then if s.connected then s.send_pubrel packet_id else s.store_pubrel packet_id
    else if type = 0x60 then s.do_sync_write (.ack 0x70 packet_id)
    else s
  | .disconnect => s.shutdown
  | _ => s

/-- An error of the socket, or any completion once the socket is shut down. -/
def handle_close_or_error (s : Endpoint) : Endpoint :=
  { s.clean_sub_unsub_inflight with
    connected := false
    mqtt_connected := !s.connected && s.mqtt_connected
    disconnect_requested := false
    reading := false }.notify (if s.disconnect_requested then .on_close else .on_error)

/-! ## Runs -/

/-- `malformed` are bytes that are no packet, `close` an error of the socket. -/
inductive Event where
  | connect
  | call (c : Call)
  | receive (p : Incoming)
  | handler_returns
  | malformed
  | close

def completes (f : Endpoint → Endpoint) (s : Endpoint) : Endpoint :=
  if s.reading = true ∧ s.handling = none then if s.connected then f s else s.handle_close_or_error else s

def step (s : Endpoint) : Event → Endpoint
  | .connect => if s.reading then s else { s with connected := true, reading := true }
  | .call c => s.call c
  | .receive p => s.completes (process_payload p)
  | .handler_returns =>
    match s.handling with
    | none => s
    | some p => { s with handling := none }.respond p
  | .malformed => s.completes call_error_handlers
  | .close => s.completes handle_close_or_error

/-! ## The functions as updates -/

@[simp] theorem do_sync_write_eq (p : Incoming) (s : Endpoint) :
    s.do_sync_write p = { s with out := s.out ++ if s.connected then [p] else [] } := by
  unfold do_sync_write
  cases s
  dsimp only
  split <;> simp

@[simp] theorem send_publish_eq (m : PublishMessage) (s : Endpoint) :
    s.send_publish m =
      { s with
        published := s.published ++ [m]
        store := if check_qos_value m.fixed_header then store_emplace (.publish m.set_dup) s.store else s.store
        out := s.out ++ if s.connected then [m.packet] else [] } := by
  unfold send_publish preprocess_publish_message
  split <;> simp

theorem acquiring_cases (f : Nat → Endpoint → Endpoint) (s : Endpoint) :
    (s.pid_man.allocate = none ∧ s.acquiring f = s) ∨
      ∃ packet_id pid_man, s.pid_man.allocate = some (packet_id, pid_man) ∧
        s.acquiring f = f packet_id { s with pid_man } := by
  unfold acquiring
  cases s.pid_man.allocate with
  | none => exact Or.inl ⟨rfl, rfl⟩
  | some r => exact Or.inr ⟨r.1, r.2, rfl, rfl⟩

theorem publish_cases (pubopts : UInt8) (topic_name contents : Str) (s : Endpoint) :
    (∃ pids : Allocator, (∀ v, pids.Free v → s.pid_man.Free v) ∧
    s.publish pubopts topic_name contents = { s with pid_man := pids }) ∨
    (∃ m pids, check_qos_value m.fixed_header = true ∧ s.pid_man.allocate = some (m.packet_id, pids) ∧
      s.publish pubopts topic_name contents = send_publish m { s with pid_man := pids }) ∨
    ∃ m, check_qos_value m.fixed_header = false ∧ s.publish pubopts topic_name contents = s.send_publish m := by
  unfold publish
  split
  · rename_i hq
    rcases acquiring_cases (fun packet_id => publish_with ⟨0x30 ||| pubopts, packet_id, topic_name, contents⟩) s with
      ⟨-, hs⟩ | ⟨id, pids, ha, hs⟩
    · exact Or.inl ⟨s.pid_man, fun _ hv => hv, hs⟩
    · rw [hs, publish_with]
      split
      · exact Or.inr (Or.inl ⟨_, pids, by simpa using hq, ha, rfl⟩)
      · exact Or.inl ⟨pids, fun v hv => (((Allocator.allocate_spec ha).2.2 v).mp hv).1, rfl⟩
  · rename_i hq
    rw [publish_with]
    split
    · exact Or.inr (Or.inr ⟨_, by simpa using hq, rfl⟩)
    · exact Or.inl ⟨s.pid_man, fun _ hv => hv, rfl⟩

theorem completes_of {P : Endpoint → Prop} {f : Endpoint → Endpoint} {s : Endpoint} (h : P s)
    (hf : s.reading = true → s.handling = none → s.connected = true → P (f s))
    (hclose : s.reading = true → s.handling = none → s.connected = false → P s.handle_close_or_error) :
    P (s.completes f) := by
  unfold completes
  split
  · rename_i hr
    split
    · exact hf hr.1 hr.2 (by assumption)
    · exact hclose hr.1 hr.2 (by simpa using ‹¬ s.connected = true›)
  · exact h

theorem step_receive {s : Endpoint} (hr : s.reading = true) (hh : s.handling = none) (hc : s.connected = true)
    (p : Incoming) :
    s.step (.receive p) = s.process_payload p := by
  simp [step, completes, hr, hh, hc]

theorem process_payload_ack {s : Endpoint} (hm : s.mqtt_connected = true) (type : UInt8) (packet_id : Nat) :
    s.process_payload (.ack type packet_id) = s.process_ack type packet_id :=
  if_pos hm

theorem process_payload_publish {s : Endpoint} (hm : s.mqtt_connected = true) (packet_id : Option Nat) (options : UInt8)
    (topic_name contents : Str) :
    s.process_payload (.publish packet_id options topic_name contents) =
      s.handle (.publish packet_id options topic_name contents) :=
  if_pos hm

@[simp] theorem send_store_eq (s : Endpoint) :
    s.send_store = { s with out := s.out ++ if s.connected then s.store.map (·.packet) else [] } := by
  have h : ∀ (l : List StoreMessage) (s : Endpoint), l.foldl (fun s e => s.do_sync_write e.packet) s =
      { s with out := s.out ++ if s.connected then l.map (·.packet) else [] } := by
    intro l
    induction l with
    | nil => intro s; simp
    | cons e l ih =>
      intro s
      rw [List.foldl_cons, ih, do_sync_write_eq]
      cases s.connected <;> simp
  exact h s.store s

@[simp] theorem clean_sub_unsub_inflight_eq (s : Endpoint) :
    s.clean_sub_unsub_inflight = { s with pid_man := s.sub_unsub_inflight.foldl Allocator.deallocate s.pid_man } := by
  have h : ∀ (l : List Nat) (s : Endpoint), l.foldl (fun s id => s.release_id id) s =
      { s with pid_man := l.foldl Allocator.deallocate s.pid_man } := by
    intro l
    induction l with
    | nil => intro s; rfl
    | cons id l ih => intro s; rw [List.foldl_cons, ih]; rfl
  exact h s.sub_unsub_inflight s

theorem free_foldl_deallocate (l : List Nat) (a : Allocator) (v : Nat) :
    (l.foldl Allocator.deallocate a).Free v ↔ a.Free v ∨ v ∈ l := by
  induction l generalizing a with
  | nil => simp
  | cons id l ih => rw [List.foldl_cons, ih, Allocator.free_deallocate, List.mem_cons, or_assoc]

theorem free_register_id {s : Endpoint} {packet_id v : Nat} :
    (s.register_id packet_id).pid_man.Free v ↔ s.pid_man.Free v ∧ v ≠ packet_id := by
  show ((s.pid_man.use packet_id).getD s.pid_man).Free v ↔ _
  cases hu : s.pid_man.use packet_id with
  | none =>
    have hnot := Allocator.use_none.mp hu
    simp only [Option.getD_none]
    refine ⟨fun hv => ⟨hv, fun heq => hnot (heq ▸ hv)⟩, And.left⟩
  | some a => simp only [Option.getD_some]; exact Allocator.use_spec hu v

end Endpoint

end VrpcAgent

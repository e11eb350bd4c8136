import VrpcAgent.Wire
import VrpcAgent.Effects
import VrpcAgent.StreamReader

/-!
# The packet reader

`mqtt/endpoint.hpp`: how an endpoint of MQTT 3.1.1 takes a packet from the stream. A packet
whose remaining length is below `packet_bulk_read_limit_` is read at once and taken apart
in a buffer; a longer one is read from the socket field by field.
-/

namespace VrpcAgent

open Effects StreamReader

inductive ReadError where
  | bad_message
  | protocol_error
  deriving DecidableEq

/-- Why a read does not go on: bytes are missing, the error handlers are called, or bytes are taken
from behind the end of a buffer. -/
inductive Stop where
  | more
  | error (e : ReadError)
  | undefined

inductive ReadEnd where
  | error (e : ReadError)
  | disconnect
  | undefined
  deriving DecidableEq

/-- `buf` is what has been read of the packet in advance, `socket` what else has arrived. -/
structure Cursor where
  remaining_length : Nat
  buf : Str
  socket : Str

abbrev ReadM := EStateM Stop Cursor

/-! ## Primitives -/

def remaining_length : ReadM Nat := return (← get).remaining_length

/-- `if (p) { call_protocol_error_handlers(); return; }`, or the other error handler. -/
def stop_if (p : Prop) [Decidable p] (e : ReadError) : ReadM Unit := if p then throw (.error e) else return

def async_read (size : Nat) : ReadM Str := do
  let c ← get
  if c.socket.length < size then throw .more
  else do
    set { c with socket := c.socket.drop size }
    return c.socket.take size

def read_header (all_read : Bool) (header_len remaining_length : Nat) : ReadM Str :=
  if all_read then async_read remaining_length else if header_len = 0 then return [] else async_read header_len

def process_header (all_read : Bool) (header_len : Nat) : ReadM Unit := do
  let buf ← read_header all_read header_len (← remaining_length)
  modify fun c => { c with buf }

def process_start (all_read : Bool) (header_len : Nat) : ReadM Unit := do
  stop_if ((← remaining_length) < 2) .protocol_error
  process_header all_read header_len

def consume (size : Nat) : ReadM Unit := modify fun c => { c with remaining_length := c.remaining_length - size }

def buffered : ReadM Nat := return (← get).buf.length

/-- From the buffer, or from the socket when the buffer is empty. -/
def next_bytes (size : Nat) : ReadM Str := do
  let c ← get
  if c.buf = [] then async_read size
  else do
    set { c with buf := c.buf.drop size }
    return c.buf.take size

def process_nbytes (size : Nat) : ReadM Str := do
  stop_if ((← remaining_length) < size) .protocol_error
  consume size
  let n ← buffered
  stop_if (0 < n ∧ n < size) .protocol_error
  next_bytes size

def make_uint16_t : Str → Nat
  | b1 :: b2 :: _ => b1.toNat * 256 + b2.toNat
  | _ => 0

def undefined_if (p : Prop) [Decidable p] : ReadM Unit := if p then throw .undefined else return

/-- `process_fixed_length<2>`; the size of the buffer is not checked. -/
def process_fixed_length : ReadM Nat := do
  stop_if ((← remaining_length) < 2) .protocol_error
  consume 2
  undefined_if ((← buffered) = 1)
  let bytes ← next_bytes 2
  return make_uint16_t bytes

def process_packet_id : ReadM Nat := do
  let packet_id ← process_fixed_length
  stop_if (packet_id = 0) .protocol_error
  return packet_id

def process_binary : ReadM Str := do
  stop_if ((← remaining_length) < 2) .protocol_error
  let size ← process_fixed_length
  stop_if ((← remaining_length) < size) .protocol_error
  process_nbytes size

/-- `validate_contents` accepts everything unless `MQTT_USE_STR_CHECK` is defined. -/
def process_string : ReadM Str := process_binary

/-! ## Packets -/

structure SubscribeEntry where
  share_name : Str
  topic_filter : Str
  options : UInt8
  deriving DecidableEq

structure Will where
  topic : Str
  message : Str
  retain : Bool
  qos : UInt8
  deriving DecidableEq

/-- What the handlers of an endpoint are called with; `ack` is PUBACK, PUBREC, PUBREL,
PUBCOMP and UNSUBACK. -/
inductive Incoming where
  | connect (client_id : Str) (user_name password : Option Str) (will : Option Will) (clean_session : Bool) (keep_alive : Nat)
  | connack (session_present : Bool) (code : UInt8)
  | publish (packet_id : Option Nat) (options : UInt8) (topic_name contents : Str)
  | ack (type : UInt8) (packet_id : Nat)
  | subscribe (packet_id : Nat) (entries : List SubscribeEntry)
  | suback (packet_id : Nat) (results : Str)
  | unsubscribe (packet_id : Nat) (entries : List (Str × Str))
  | pingreq
  | pingresp
  | disconnect
  deriving DecidableEq

def get_qos (v : UInt8) : UInt8 := (v &&& 0x06) >>> 1

/-- The bytes of the header leave the buffer, but the remaining length stays. -/
def take_header (header_len : Nat) : ReadM Str := do
  let c ← get
  set { c with buf := c.buf.drop header_len }
  return c.buf

def protocol_name : Str := [0x00, 0x04] ++ lit "MQTT"

def has_flag (connect_flag flag : UInt8) : Bool := connect_flag &&& flag ≠ 0

def optional {α : Type} (p : Bool) (x : ReadM α) : ReadM (Option α) := if p then some <$> x else return none

def process_will (connect_flag : UInt8) : ReadM Will := do
  let topic ← process_string
  let message ← process_binary
  return ⟨topic, message, has_flag connect_flag 0x20, (connect_flag &&& 0x18) >>> 3⟩

/-- Of an endpoint of version 3.1.1. The remaining length still counts the header, so that the
fields may lie behind the end of the packet. -/
def process_connect (all_read : Bool) : ReadM Incoming := do
  stop_if ((← remaining_length) < 10) .protocol_error
  process_header all_read 10
  let header ← take_header 10
  stop_if (header.take 6 ≠ protocol_name) .protocol_error
  stop_if (header.getD 6 0 ≠ 4) .protocol_error
  let connect_flag := header.getD 7 0
  let client_id ← process_string
  let will ← optional (has_flag connect_flag 0x04) (process_will connect_flag)
  let user_name ← optional (has_flag connect_flag 0x80) process_string
  let password ← optional (has_flag connect_flag 0x40) process_binary
  return .connect client_id user_name password will (has_flag connect_flag 0x02) (make_uint16_t (header.drop 8))

def process_connack (all_read : Bool) : ReadM Incoming := do
  process_start all_read 2
  let flags ← take_header 2
  return .connack (flags.getD 0 0 &&& 0x01 ≠ 0) (flags.getD 1 0)

def publish_packet_id (qos_value : UInt8) : ReadM (Option Nat) :=
  if qos_value = 0 then return none else some <$> process_packet_id

def process_publish (fixed_header : UInt8) (all_read : Bool) : ReadM Incoming := do
  process_start all_read 0
  let topic_name ← process_string
  stop_if (get_qos fixed_header = 3) .bad_message
  let packet_id ← publish_packet_id (get_qos fixed_header)
  let contents ← process_nbytes (← remaining_length)
  return .publish packet_id fixed_header topic_name contents

def process_id (all_read : Bool) : ReadM Nat := do
  process_start all_read 2
  process_packet_id

def process_ack (type : UInt8) (all_read : Bool) : ReadM Incoming := do
  let packet_id ← process_id all_read
  return .ack type packet_id

def parse_shared_subscription (whole_topic_filter : Str) : Option (Str × Str) :=
  if lit "$share/" <+: whole_topic_filter then
    let whole_topic_filter := whole_topic_filter.drop 7
    match whole_topic_filter.findIdx? (· = 47) with
    | none => none
    | some idx =>
      let share_name := whole_topic_filter.take idx
      let topic_filter := whole_topic_filter.drop (idx + 1)
      if share_name = [] ∨ topic_filter = [] then none else some (share_name, topic_filter)
  else some ([], whole_topic_filter)

def filter_entry (whole_topic_filter : Str) : ReadM (Str × Str) :=
  match parse_shared_subscription whole_topic_filter with
  | none => throw (.error .protocol_error)
  | some entry => return entry

def process_filter : ReadM (Str × Str) := do
  filter_entry (← process_string)

def process_subscribe_entry : ReadM SubscribeEntry := do
  let entry ← process_filter
  let options ← process_nbytes 1
  stop_if (options.getD 0 0 &&& 0x03 = 3) .bad_message
  return ⟨entry.1, entry.2, options.getD 0 0⟩

/-- The loop over the entries. Each one takes two bytes at least, so that `n` rounds are
enough for `n` bytes. -/
def process_entries {α : Type} (process_entry : ReadM α) : Nat → ReadM (List α)
  | 0 => return []
  | n + 1 => do
    let entry ← process_entry
    if (← remaining_length) = 0 then return [entry]
    else do
      let entries ← process_entries process_entry n
      return entry :: entries

def process_subscribe (all_read : Bool) : ReadM Incoming := do
  let packet_id ← process_id all_read
  let entries ← process_entries process_subscribe_entry ((← remaining_length) + 1)
  return .subscribe packet_id entries

def process_suback (all_read : Bool) : ReadM Incoming := do
  let packet_id ← process_id all_read
  let results ← process_nbytes (← remaining_length)
  return .suback packet_id results

def process_unsubscribe (all_read : Bool) : ReadM Incoming := do
  let packet_id ← process_id all_read
  let entries ← process_entries process_filter ((← remaining_length) + 1)
  return .unsubscribe packet_id entries

/-! ## The fixed header -/

def get_control_packet_type (v : UInt8) : UInt8 := v &&& 0xf0

/-- `get_control_packet_type_with_check`: the reserved bits. -/
def reserved_ok (v : UInt8) : Bool :=
  let rsv := v &&& 0x0f
  let type := get_control_packet_type v
  if type = 0x00 then false
  else if type = 0x30 then true
  else if type = 0x60 ∨ type = 0x80 ∨ type = 0xA0 then rsv = 0x02
  else rsv = 0x00

/-- The lengths that MQTT 3.1.1 fixes; no handler for the others is set. -/
def length_ok (v : UInt8) (remaining_length : Nat) : Bool :=
  let type := get_control_packet_type v
  if type = 0x10 ∨ type = 0x30 ∨ type = 0x80 ∨ type = 0x90 ∨ type = 0xA0 then true
  else if type = 0xC0 ∨ type = 0xD0 ∨ type = 0xE0 then remaining_length = 0
  else if type = 0xF0 then false
  else remaining_length = 2

/-- `calc_variable_length` and the reads around it. -/
def handle_remaining_length (v multiplier : Nat) : Str → ReadOutcome ReadEnd Nat UInt8
  | [] => .more
  | b :: s =>
    let v := v + (b &&& 0x7f).toNat * multiplier
    let multiplier := multiplier * 128
    if 128 * 128 * 128 * 128 < multiplier then .fail (.error .bad_message)
    else if b &&& 0x80 ≠ 0 then handle_remaining_length v multiplier s
    else .done v s

/-- The packets that are only taken while `mqtt_connected_` is set. -/
def process_connected (fixed_header : UInt8) (all_read : Bool) : ReadM Incoming :=
  let type := get_control_packet_type fixed_header
  if type = 0x30 then process_publish fixed_header all_read
  else if type = 0x80 then process_subscribe all_read
  else if type = 0x90 then process_suback all_read
  else if type = 0xA0 then process_unsubscribe all_read
  else if type = 0xC0 then return .pingreq
  else if type = 0xD0 then return .pingresp
  else process_ack type all_read

/-- A CONNECT or a CONNACK sets `mqtt_connected_`. -/
def process_packet (mqtt_connected : Bool) (fixed_header : UInt8) (all_read : Bool) : ReadM Incoming :=
  let type := get_control_packet_type fixed_header
  if type = 0x10 then process_connect all_read
  else if type = 0x20 then process_connack all_read
  else if mqtt_connected then process_connected fixed_header all_read
  else throw (.error .protocol_error)

def outcome {α : Type} : EStateM.Result Stop Cursor α → ReadOutcome ReadEnd α UInt8
  | .ok a c => .done a c.socket
  | .error .more _ => .more
  | .error (.error e) _ => .fail (.error e)
  | .error .undefined _ => .fail .undefined

/-- After a DISCONNECT, whose remaining length is 0, the socket is shut down. -/
def process_payload (packet_bulk_read_limit : Nat) (mqtt_connected : Bool) (fixed_header : UInt8)
    (remaining_length : Nat) (s : Str) :
    ReadOutcome ReadEnd Incoming UInt8 :=
  if get_control_packet_type fixed_header = 0xE0 then .fail .disconnect
  else outcome ((process_packet mqtt_connected fixed_header (remaining_length < packet_bulk_read_limit)).run
    ⟨remaining_length, [], s⟩)

def read_body (packet_bulk_read_limit : Nat) (mqtt_connected : Bool) (fixed_header : UInt8) (remaining_length : Nat)
    (s : Str) :
    ReadOutcome ReadEnd Incoming UInt8 :=
  if reserved_ok fixed_header = false then .fail (.error .bad_message)
  else if length_ok fixed_header remaining_length = false then .fail (.error .protocol_error)
  else process_payload packet_bulk_read_limit mqtt_connected fixed_header remaining_length s

def read_packet (packet_bulk_read_limit : Nat) (mqtt_connected : Bool) : Str → ReadOutcome ReadEnd Incoming UInt8
  | [] => .more
  | fixed_header :: s =>
    match handle_remaining_length 0 1 s with
    | .done remaining_length rest => read_body packet_bulk_read_limit mqtt_connected fixed_header remaining_length rest
    | .more => .more
    | .fail e => .fail e

end VrpcAgent

import VrpcAgent.Agent

/-!
# The bytes of a packet

What a process hands to the socket for a packet: the text of `dump`
(`json.hpp`), and the PUBLISH, SUBSCRIBE, UNSUBSCRIBE and PUBACK packets of MQTT
3.1.1 (`mqtt/message.hpp`).
-/

namespace VrpcAgent

/-! ## Bytes -/

theorem forall_byte {P : UInt8 → Prop} (h : ∀ n < 256, P (UInt8.ofNat n)) (b : UInt8) : P b := by
  have hb := h b.toNat b.toNat_lt
  rw [UInt8.ofNat_toNat] at hb
  exact hb

namespace Json

/-! ## The text of `dump` -/

def lower_hex (n : Nat) : UInt8 := if n < 10 then (48 + n).toUInt8 else (87 + n).toUInt8

def escape_sequence (b : UInt8) : Str :=
  if b = 0x08 then lit "\\b" else if b = 0x09 then lit "\\t" else if b = 0x0A then lit "\\n"
  else if b = 0x0C then lit "\\f" else if b = 0x0D then lit "\\r" else if b = 0x22 then lit "\\\""
  else if b = 0x5C then lit "\\\\"
  else if b ≤ 0x1F then lit "\\u00" ++ [lower_hex (b.toNat / 16), lower_hex (b.toNat % 16)]
  else [b]

def string_text (s : Str) : Str := lit "\"" ++ s.flatMap escape_sequence ++ lit "\""

def comma_separated : List Str → Str
  | [] => []
  | [x] => x
  | x :: xs => x ++ lit "," ++ comma_separated xs

mutual
/-- A text that `dump` may write for a value without ill-formed strings: every number is printed by
its value alone. The source prints by the kind of the number, `1` and `1.0`. -/
def text (number_text : Rat → Str) : Json → Str
  | .null => lit "null"
  | .boolean b => if b then lit "true" else lit "false"
  | .number q => number_text q
  | .string s => string_text s
  | .array xs => lit "[" ++ comma_separated (elems_text number_text xs) ++ lit "]"
  | .object m => lit "\x7b" ++ comma_separated (members_text number_text m) ++ lit "\x7d"
def elems_text (number_text : Rat → Str) : List Json → List Str
  | [] => []
  | x :: xs => text number_text x :: elems_text number_text xs
def members_text (number_text : Rat → Str) : List (Str × Json) → List Str
  | [] => []
  | (k, v) :: m => (string_text k ++ lit ":" ++ text number_text v) :: members_text number_text m
end

end Json

/-! ## Packets -/

def num_to_2bytes (val : Nat) : Str := [(val / 256).toUInt8, val.toUInt8]

def variable_push : Nat → Nat → Str
  | 0, _ => []
  | n + 1, size => if 127 < size then (size % 128 + 128).toUInt8 :: variable_push n (size / 128) else [size.toUInt8]

/-- Four bytes are enough for the sizes that `remaining_bytes` lets through. -/
def remaining_bytes (size : Nat) : Str := variable_push 4 size

def make_fixed_header (type flags : UInt8) : UInt8 := type ||| flags &&& 0x0f

def framed (fixed_header : UInt8) (body : Str) : Str := fixed_header :: (remaining_bytes body.length ++ body)

def utf8string (s : Str) : Str := num_to_2bytes s.length ++ s

/-- A packet that a process writes: one of the handlers' or a fork's, or the
acknowledgement of an incoming message. -/
inductive WirePacket where
  | sent (s : Sent)
  | puback (id : Nat)

def sent_bytes (text : Json → Str) (s : Sent) : Str :=
  match s.packet with
  | .publish topic payload retain =>
    framed (make_fixed_header 0x30 0x00 ||| if retain then 0x03 else 0x02)
      (utf8string topic ++ num_to_2bytes s.id ++ text payload)
  | .subscribe topic_filter =>
    framed (make_fixed_header 0x80 0x02) (num_to_2bytes s.id ++ utf8string topic_filter ++ [1])
  | .unsubscribe topic_filter =>
    framed (make_fixed_header 0xA0 0x02) (num_to_2bytes s.id ++ utf8string topic_filter)

def wire_bytes (text : Json → Str) : WirePacket → Str
  | .sent s => sent_bytes text s
  | .puback id => framed (make_fixed_header 0x40 0x00) (num_to_2bytes id)

end VrpcAgent

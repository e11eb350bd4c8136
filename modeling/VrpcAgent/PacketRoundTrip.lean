import VrpcAgent.BulkReads
import Mathlib.Tactic.Ring

/-!
# Packets read back

`mqtt/endpoint.hpp` takes from a stream what `mqtt/message.hpp` has put there: the reader
of the peer finds every packet that a process writes, and nothing else.
-/

namespace VrpcAgent

open Effects StreamReader

/-! ## The remaining length -/

theorem variable_push_read (t : Str) : ∀ {n size v m : Nat}, size < 128 ^ n → m * 128 ^ n ≤ 128 * 128 * 128 * 128 →
    0 < n → handle_remaining_length v m (variable_push n size ++ t) = .done (v + size * m) t
  | n + 1, size, v, m, hsize, hm, _ => by
    have hpow : m * 128 ≤ 128 * 128 * 128 * 128 := by
      refine Nat.le_trans ?_ hm
      rw [Nat.pow_succ, ← Nat.mul_assoc]
      exact Nat.mul_le_mul_right 128 (Nat.le_mul_of_pos_right m (Nat.pow_pos (by decide : 0 < 128)))
    unfold variable_push
    split
    · rename_i hlong
      have hbyte : (size % 128 + 128).toUInt8 &&& 0x7f = (size % 128).toUInt8 ∧ (size % 128 + 128).toUInt8 &&& 0x80 ≠ 0 := by
        have hlt : size % 128 < 128 := Nat.mod_lt _ (by decide)
        generalize size % 128 = r at hlt
        revert r
        decide
      have hlow : (size % 128).toUInt8.toNat = size % 128 := by
        rw [Nat.toUInt8_eq, UInt8.toNat_ofNat']
        omega
      have hn : 0 < n := by
        rcases Nat.eq_zero_or_pos n with rfl | hn
        · simp at hsize
          omega
        · exact hn
      have hnext : size / 128 < 128 ^ n := by
        rw [Nat.pow_succ] at hsize
        exact Nat.div_lt_of_lt_mul (by omega)
      have hmnext : m * 128 * 128 ^ n ≤ 128 * 128 * 128 * 128 := by
        rw [Nat.pow_succ] at hm
        rw [Nat.mul_assoc, Nat.mul_comm 128]
        exact hm
      rw [List.cons_append, handle_remaining_length, if_neg (Nat.not_lt.mpr hpow), if_pos hbyte.2, hbyte.1, hlow,
        variable_push_read t hnext hmnext hn]
      have hdiv : size % 128 + 128 * (size / 128) = size := Nat.mod_add_div size 128
      have hsum : v + size % 128 * m + size / 128 * (m * 128) = v + size * m := by
        calc v + size % 128 * m + size / 128 * (m * 128) = v + (size % 128 + 128 * (size / 128)) * m := by ring
          _ = v + size * m := by rw [hdiv]
      rw [hsum]
    · rename_i hshort
      have hbyte : size.toUInt8 &&& 0x7f = size.toUInt8 ∧ size.toUInt8 &&& 0x80 = 0 := by
        have hlt : size < 128 := by omega
        clear hsize hshort
        revert size
        decide
      have hlow : size.toUInt8.toNat = size := by
        rw [Nat.toUInt8_eq, UInt8.toNat_ofNat']
        omega
      rw [List.singleton_append, handle_remaining_length, if_neg (Nat.not_lt.mpr hpow), if_neg (not_not.mpr hbyte.2),
        hbyte.1, hlow]

theorem remaining_bytes_read {size : Nat} (h : size < max_packet_size) (t : Str) :
    handle_remaining_length 0 1 (remaining_bytes size ++ t) = .done size t := by
  have hread : handle_remaining_length 0 1 (variable_push 4 size ++ t) = .done (0 + size * 1) t :=
    variable_push_read t h (by decide) (by decide)
  rw [Nat.zero_add, Nat.mul_one] at hread
  exact hread

/-! ## The fields, from the socket -/

section
variable (k : Nat) (t : Str)

theorem make_uint16_num_to_2bytes {n : Nat} (h : n < 65536) : make_uint16_t (num_to_2bytes n) = n := by
  have hhigh : (n / 256).toUInt8.toNat = n / 256 := by
    rw [Nat.toUInt8_eq, UInt8.toNat_ofNat']
    omega
  have hlow : n.toUInt8.toNat = n % 256 := by
    rw [Nat.toUInt8_eq, UInt8.toNat_ofNat']
  rw [num_to_2bytes, make_uint16_t, hhigh, hlow]
  omega

theorem run_async_read_front (k : Nat) (bs t : Str) : (async_read bs.length).run ⟨k, [], bs ++ t⟩ = .ok bs ⟨k, [], t⟩ := by
  rw [run_async_read, if_neg (by simp)]
  simp

theorem run_process_nbytes_front (bs : Str) :
    (process_nbytes bs.length).run ⟨bs.length + k, [], bs ++ t⟩ = .ok bs ⟨k, [], t⟩ := by
  rw [process_nbytes, run_bind, run_remaining_length, andThen_ok, run_bind, run_stop_if, if_neg (by simp), andThen_ok,
    run_bind,
    run_consume, andThen_ok, run_bind, run_buffered, andThen_ok, run_bind, run_stop_if, if_neg (by simp), andThen_ok,
      run_next_bytes,
    if_pos rfl, Nat.add_sub_cancel_left]
  exact run_async_read_front k bs t

theorem run_process_fixed_length_socket {n : Nat} (h : n < 65536) :
    process_fixed_length.run ⟨2 + k, [], num_to_2bytes n ++ t⟩ = .ok n ⟨k, [], t⟩ := by
  have hread := run_async_read_front k (num_to_2bytes n) t
  rw [show (num_to_2bytes n).length = 2 from rfl] at hread
  rw [run_process_fixed_length _ (Nat.le_add_right 2 k) (by simp), run_next_bytes, if_pos rfl, Nat.add_sub_cancel_left, hread,
    andThen_ok, make_uint16_num_to_2bytes h]
  rfl

theorem run_process_string_socket {s : Str} (h : s.length < 65536) :
    process_string.run ⟨(utf8string s).length + k, [], utf8string s ++ t⟩ = .ok s ⟨k, [], t⟩ := by
  have hlen : (utf8string s).length + k = 2 + (s.length + k) := by
    rw [utf8string, List.length_append, show (num_to_2bytes s.length).length = 2 from rfl, Nat.add_assoc]
  rw [process_string, process_binary, run_bind, run_remaining_length, andThen_ok, run_bind, run_stop_if,
    if_neg (Nat.not_lt.mpr (hlen ▸ Nat.le_add_right 2 _)), andThen_ok, run_bind, hlen, utf8string, List.append_assoc,
      run_process_fixed_length_socket _ _ h, andThen_ok, run_bind,
    run_remaining_length, andThen_ok, run_bind, run_stop_if, if_neg (by simp), andThen_ok]
  exact run_process_nbytes_front k t s

theorem run_process_packet_id_socket {id : Nat} (h0 : id ≠ 0) (h : id < 65536) :
    process_packet_id.run ⟨2 + k, [], num_to_2bytes id ++ t⟩ = .ok id ⟨k, [], t⟩ := by
  rw [process_packet_id, run_bind, run_process_fixed_length_socket k t h, andThen_ok, run_bind, run_stop_if, if_neg h0]
  rfl

theorem run_process_filter_socket {filter : Str} {e : Str × Str} (h : filter.length < 65536)
    (he : parse_shared_subscription filter = some e) :
    process_filter.run ⟨(utf8string filter).length + k, [], utf8string filter ++ t⟩ = .ok e ⟨k, [], t⟩ := by
  rw [process_filter, run_bind, run_process_string_socket k t h, andThen_ok, filter_entry, he]
  rfl

/-- The two bytes of the identifier are read in advance. -/
theorem run_process_id_bytes {bs : Str} (h : bs.length = 2) : (process_id false).run ⟨2 + k, [], bs ++ t⟩ =
    if make_uint16_t bs = 0 then .error (.error .protocol_error) ⟨k, [], t⟩ else .ok (make_uint16_t bs) ⟨k, [], t⟩ := by
  have hread := run_async_read_front (2 + k) bs t
  rw [h] at hread
  have hstart : (process_start false 2).run ⟨2 + k, [], bs ++ t⟩ = .ok () ⟨2 + k, bs, t⟩ := by
    rw [process_start, run_bind, run_remaining_length, andThen_ok, run_bind, run_stop_if,
      if_neg (Nat.not_lt.mpr (Nat.le_add_right 2 k)), andThen_ok, process_header, run_bind, run_remaining_length,
        andThen_ok, run_bind]
    show andThen ((async_read 2).run _) _ = _
    rw [hread]
    rfl
  have hbuf : bs ≠ [] := by
    rintro rfl
    cases h
  have hfixed : process_fixed_length.run ⟨2 + k, bs, t⟩ = .ok (make_uint16_t bs) ⟨k, [], t⟩ := by
    rw [run_process_fixed_length _ (Nat.le_add_right 2 k) (by simp [h]), run_next_bytes, if_neg hbuf, andThen_ok,
      List.take_of_length_le (Nat.le_of_eq h), List.drop_eq_nil_of_le (Nat.le_of_eq h), Nat.add_sub_cancel_left]
    rfl
  rw [process_id, run_bind, hstart, andThen_ok, process_packet_id, run_bind, hfixed, andThen_ok, run_bind, run_stop_if]
  split <;> rfl

theorem run_process_id_socket {id : Nat} (h0 : id ≠ 0) (h : id < 65536) :
    (process_id false).run ⟨2 + k, [], num_to_2bytes id ++ t⟩ = .ok id ⟨k, [], t⟩ := by
  rw [run_process_id_bytes k t rfl, make_uint16_num_to_2bytes h, if_neg h0]

end

/-! ## What is read of a packet -/

/-- What the constructors of the messages throw: `numeric_cast` and `utf8string_check` look at
the length of the topic, `remaining_bytes` at that of the packet. -/
def packet_refusal (text : Json → Str) : Packet → Option Exn
  | .publish topic payload _ =>
    if 0xffff < topic.length then some .positive_overflow
    else if 0xfffffff < 2 + topic.length + 2 + (text payload).length then some .remaining_length_error else none
  | .subscribe topic_filter => if 0xffff < topic_filter.length then some .utf8string_length_error else none
  | .unsubscribe topic_filter => if 0xffff < topic_filter.length then some .utf8string_length_error else none

/-- A topic filter that the peer does not take for a malformed shared subscription. -/
def Addressed : Packet → Prop
  | .publish .. => True
  | .subscribe topic_filter => parse_shared_subscription topic_filter ≠ none
  | .unsubscribe topic_filter => parse_shared_subscription topic_filter ≠ none

def Readable (text : Json → Str) : WirePacket → Prop
  | .sent s => 0 < s.id ∧ s.id < 65536 ∧ packet_refusal text s.packet = none ∧ Addressed s.packet
  | .puback id => 0 < id ∧ id < 65536

def shared_filter (topic_filter : Str) : Str × Str := (parse_shared_subscription topic_filter).getD ([], topic_filter)

def incoming (text : Json → Str) : WirePacket → Incoming
  | .sent s =>
    match s.packet with
    | .publish topic payload retain =>
      .publish (some s.id) (make_fixed_header 0x30 0x00 ||| if retain then 0x03 else 0x02) topic (text payload)
    | .subscribe topic_filter => .subscribe s.id [⟨(shared_filter topic_filter).1, (shared_filter topic_filter).2, 1⟩]
    | .unsubscribe topic_filter => .unsubscribe s.id [shared_filter topic_filter]
  | .puback id => .ack 0x40 id

theorem read_framed {limit : Nat} {v : UInt8} {body : Str} {a : Incoming} (hres : reserved_ok v = true)
    (hok : length_ok v body.length = true) (hv : v ≠ 0x10) (hE0 : get_control_packet_type v ≠ 0xE0)
    (hsize : body.length < max_packet_size) {t : Str}
    (hrun : (process_packet true v false).run ⟨body.length, [], body ++ t⟩ = .ok a ⟨0, [], t⟩) :
    read_packet limit true (framed v body ++ t) = .done a t := by
  have hbytes : framed v body ++ t = v :: (remaining_bytes body.length ++ (body ++ t)) := by
    rw [framed, List.cons_append, List.append_assoc]
  have hlimit := (read_body_limit (n := body.length) (s := body ++ t) (by simp) limit 0 hv true).1
  have hall : decide (body.length < 0) = false := by simp
  rw [hbytes, read_packet, remaining_bytes_read hsize]
  show read_body limit true v body.length (body ++ t) = _
  rw [hlimit, read_body, if_neg (by simp [hres]), if_neg (by simp [hok]), process_payload, if_neg hE0, hall, hrun]
  rfl

theorem run_process_publish_socket {fixed_header : UInt8} (hqos : get_qos fixed_header = 1) {id : Nat} (h0 : id ≠ 0)
    (h : id < 65536)
    {topic : Str} (htopic : topic.length < 65536) (payload t : Str) :
    (process_publish fixed_header false).run ⟨(utf8string topic ++ num_to_2bytes id ++ payload).length, [],
      utf8string topic ++ num_to_2bytes id ++ payload ++ t⟩ =
        .ok (.publish (some id) fixed_header topic payload) ⟨0, [], t⟩ := by
  have hlen : (utf8string topic ++ num_to_2bytes id ++ payload).length =
      (utf8string topic).length + (2 + payload.length) := by
    rw [List.append_assoc, List.length_append, List.length_append]
    rfl
  have hstart : ∀ {n : Nat} {s : Str}, 2 ≤ n → (process_start false 0).run ⟨n, [], s⟩ = .ok () ⟨n, [], s⟩ := by
    intro n s hn
    rw [process_start, run_bind, run_remaining_length, andThen_ok, run_bind, run_stop_if, if_neg (Nat.not_lt.mpr hn)]
    rfl
  have hid : (publish_packet_id 1).run ⟨2 + payload.length, [], num_to_2bytes id ++ (payload ++ t)⟩ =
      .ok (some id) ⟨payload.length, [], payload ++ t⟩ := by
    rw [publish_packet_id, if_neg (by decide), map_eq_pure_bind, run_bind, run_process_packet_id_socket _ _ h0 h]
    rfl
  have hcontents := run_process_nbytes_front 0 t payload
  rw [Nat.add_zero] at hcontents
  rw [process_publish, run_bind, hstart (by rw [hlen]; omega), andThen_ok, run_bind, hlen, List.append_assoc,
    List.append_assoc,
    run_process_string_socket _ _ htopic, andThen_ok, run_bind, run_stop_if, if_neg (by rw [hqos]; decide),
      andThen_ok, run_bind, hqos,
    hid, andThen_ok, run_bind, run_remaining_length, andThen_ok, run_bind, hcontents]
  rfl

theorem run_process_entries_one {α : Type} {process_entry : ReadM α} {a : α} {c d : Cursor}
    (h : process_entry.run c = .ok a d)
    (hd : d.remaining_length = 0) (n : Nat) : (process_entries process_entry (n + 1)).run c = .ok [a] d := by
  rw [process_entries, run_bind, h, andThen_ok, run_bind, run_remaining_length, andThen_ok, hd, if_pos rfl]
  rfl

theorem run_process_subscribe_socket {id : Nat} (h0 : id ≠ 0) (h : id < 65536) {filter : Str}
    (hfilter : filter.length < 65536)
    {e : Str × Str} (he : parse_shared_subscription filter = some e) (t : Str) :
    (process_subscribe false).run ⟨(num_to_2bytes id ++ utf8string filter ++ [1]).length, [],
      num_to_2bytes id ++ utf8string filter ++ [1] ++ t⟩ = .ok (.subscribe id [⟨e.1, e.2, 1⟩]) ⟨0, [], t⟩ := by
  have hlen : (num_to_2bytes id ++ utf8string filter ++ [1]).length = 2 + ((utf8string filter).length + 1) := by
    rw [List.append_assoc, List.length_append, List.length_append]
    rfl
  have hentry : process_subscribe_entry.run ⟨(utf8string filter).length + 1, [], utf8string filter ++ ([1] ++ t)⟩ =
      .ok ⟨e.1, e.2, 1⟩ ⟨0, [], t⟩ := by
    have hoptions := run_process_nbytes_front 0 t [1]
    rw [process_subscribe_entry, run_bind, run_process_filter_socket _ _ hfilter he, andThen_ok, run_bind]
    show andThen ((process_nbytes 1).run ⟨1 + 0, [], [1] ++ t⟩) _ = _
    rw [show (1 : Nat) = ([1] : Str).length from rfl, hoptions, andThen_ok, run_bind, run_stop_if, if_neg (by decide)]
    rfl
  rw [process_subscribe, run_bind, hlen, List.append_assoc, List.append_assoc, run_process_id_socket _ _ h0 h,
    andThen_ok, run_bind,
    run_remaining_length, andThen_ok, run_bind, run_process_entries_one hentry rfl]
  rfl

theorem run_process_unsubscribe_socket {id : Nat} (h0 : id ≠ 0) (h : id < 65536) {filter : Str}
    (hfilter : filter.length < 65536)
    {e : Str × Str} (he : parse_shared_subscription filter = some e) (t : Str) :
    (process_unsubscribe false).run
    ⟨(num_to_2bytes id ++ utf8string filter).length, [], num_to_2bytes id ++ utf8string filter ++ t⟩ =
      .ok (.unsubscribe id [e]) ⟨0, [], t⟩ := by
  have hlen : (num_to_2bytes id ++ utf8string filter).length = 2 + ((utf8string filter).length + 0) := by
    rw [List.length_append]
    rfl
  rw [process_unsubscribe, run_bind, hlen, List.append_assoc, run_process_id_socket _ _ h0 h, andThen_ok, run_bind,
    run_remaining_length, andThen_ok, run_bind, run_process_entries_one (run_process_filter_socket 0 t hfilter he) rfl]
  rfl

/-- The peer reads the packet that was written, whatever follows it. -/
theorem packet_decodes (text : Json → Str) (limit : Nat) {p : WirePacket} (h : Readable text p) :
    ReadsAs (read_packet limit true) (wire_bytes text) (incoming text) p := by
  intro t
  cases p with
  | puback id =>
    have hlen : (num_to_2bytes id).length < max_packet_size := by
      show 2 < max_packet_size
      decide
    refine read_framed rfl rfl (by decide) (by decide) hlen ?_
    show (process_ack 0x40 false).run ⟨2 + 0, [], num_to_2bytes id ++ t⟩ = _
    rw [process_ack, run_bind, run_process_id_socket 0 t (Nat.pos_iff_ne_zero.mp h.1) h.2]
    rfl
  | sent s =>
    obtain ⟨id, p⟩ := s
    obtain ⟨hpos, hid, hfits, haddr⟩ := h
    have h0 : id ≠ 0 := Nat.pos_iff_ne_zero.mp hpos
    cases p with
    | publish topic payload retain =>
      simp only [packet_refusal] at hfits
      split at hfits
      · cases hfits
      rename_i htopic
      split at hfits
      · cases hfits
      rename_i hsize
      have hlen : (utf8string topic ++ num_to_2bytes id ++ text payload).length < max_packet_size := by
        simp only [utf8string, num_to_2bytes, List.length_append, List.length_cons, List.length_nil, max_packet_size]
        omega
      cases retain with
      | false => exact read_framed rfl rfl (by decide) (by decide) hlen (run_process_publish_socket rfl h0 hid (by omega) _ t)
      | true => exact read_framed rfl rfl (by decide) (by decide) hlen (run_process_publish_socket rfl h0 hid (by omega) _ t)
    | subscribe topic_filter =>
      simp only [packet_refusal, ite_eq_right_iff, reduceCtorEq, imp_false] at hfits
      obtain ⟨e, he⟩ := Option.ne_none_iff_exists'.mp haddr
      have hlen : (num_to_2bytes id ++ utf8string topic_filter ++ [1]).length < max_packet_size := by
        simp only [utf8string, num_to_2bytes, List.length_append, List.length_cons, List.length_nil, max_packet_size]
        omega
      have hshared : shared_filter topic_filter = e := by rw [shared_filter, he, Option.getD_some]
      show read_packet limit true (framed _ _ ++ t) = .done (.subscribe id [⟨_, _, 1⟩]) t
      rw [hshared]
      exact read_framed rfl rfl (by decide) (by decide) hlen (run_process_subscribe_socket h0 hid (by omega) he t)
    | unsubscribe topic_filter =>
      simp only [packet_refusal, ite_eq_right_iff, reduceCtorEq, imp_false] at hfits
      obtain ⟨e, he⟩ := Option.ne_none_iff_exists'.mp haddr
      have hlen : (num_to_2bytes id ++ utf8string topic_filter).length < max_packet_size := by
        simp only [utf8string, num_to_2bytes, List.length_append, List.length_cons, List.length_nil, max_packet_size]
        omega
      have hshared : shared_filter topic_filter = e := by rw [shared_filter, he, Option.getD_some]
      show read_packet limit true (framed _ _ ++ t) = .done (.unsubscribe id [shared_filter topic_filter]) t
      rw [hshared]
      exact read_framed rfl rfl (by decide) (by decide) hlen (run_process_unsubscribe_socket h0 hid (by omega) he t)

end VrpcAgent

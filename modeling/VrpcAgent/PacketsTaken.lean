import VrpcAgent.PacketGrammar

/-!
# Packets taken and refused

An endpoint takes exactly the packets of the grammar from the stream, whatever the limit
below which it reads at once and wherever the stream is cut, and it gives up on a stream
exactly when no packet can come of it.
-/

namespace VrpcAgent

open Effects StreamReader

/-! ## Packets -/

theorem parses_process_id : Parses (process_id false) PacketIdentifier := by
  intro n s id d
  constructor
  · intro h
    by_cases hn : n < 2
    · rw [process_id, run_bind, run_process_start_short hn] at h
      cases h
    by_cases hs : s.length < 2
    · have hread : (read_header false 2 n).run ⟨n, [], s⟩ = .error .more ⟨n, [], s⟩ := by
        show (async_read 2).run _ = _
        rw [run_async_read, if_pos hs]
      rw [process_id, run_bind, process_start, run_bind, run_remaining_length, andThen_ok, run_bind, run_stop_if,
        if_neg hn, andThen_ok,
        process_header, run_bind, run_remaining_length, andThen_ok, run_bind, hread] at h
      cases h
    obtain ⟨k, rfl⟩ := Nat.exists_eq_add_of_le (Nat.le_of_not_lt hn)
    have hlen : (s.take 2).length = 2 := List.length_take_of_le (Nat.le_of_not_lt hs)
    have hbytes := run_process_id_bytes k (s.drop 2) hlen
    rw [List.take_append_drop, h] at hbytes
    split at hbytes
    · cases hbytes
    · rename_i h0
      cases hbytes
      obtain ⟨hlt, hbs⟩ := two_bytes hlen
      exact ⟨s.take 2, s.drop 2, k, (List.take_append_drop 2 s).symm, by rw [hlen], ⟨Nat.pos_of_ne_zero h0, hlt, hbs⟩, rfl⟩
  · rintro ⟨bs, t, k, rfl, rfl, ⟨hpos, hlt, rfl⟩, rfl⟩
    exact run_process_id_socket k t (Nat.pos_iff_ne_zero.mp hpos) hlt

theorem takes_left {α β : Type} {h : Nat → ReadM α} {G : Str → α → Prop} (hx : Takes (do h (← remaining_length)) G)
    (g : α → β) :
    Takes (do let a ← h (← remaining_length); return g a) fun bs b => ∃ a, G bs a ∧ b = g a := by
  rw [← bind_assoc]
  exact takes_map hx g

theorem parses_publish_packet_id (qos_value : UInt8) :
    Parses (publish_packet_id qos_value) (PublishIdentifier qos_value) := by
  unfold publish_packet_id
  by_cases h0 : qos_value = 0
  · rw [if_pos h0]
    apply parses_congr (parses_pure none)
    intro bs id
    constructor
    · rintro ⟨rfl, rfl⟩
      exact .none h0
    · intro h
      cases h with
      | none _ => exact ⟨rfl, rfl⟩
      | some h _ => exact absurd h0 h
  · rw [if_neg h0, map_eq_pure_bind]
    apply parses_congr (parses_bind parses_process_packet_id fun id => parses_pure (some id))
    intro bs id
    constructor
    · rintro ⟨bs₁, i, bs₂, rfl, hid, rfl, rfl⟩
      rw [List.append_nil]
      exact .some h0 hid
    · intro h
      cases h with
      | none h => exact absurd h h0
      | some _ hid => exact ⟨bs, _, [], by simp, hid, rfl, rfl⟩

theorem takes_process_publish (v : UInt8) : Takes (process_publish v false) fun bs p => ∃ bs₁ topic_name ids id contents,
    bs = bs₁ ++ (ids ++ contents) ∧ Utf8String bs₁ topic_name ∧ get_qos v ≠ 3 ∧ PublishIdentifier (get_qos v) ids id ∧
      p = .publish id v topic_name contents := by
  have hfields := takes_bind parses_process_string fun topic_name =>
    takes_bind (parses_stop_if (get_qos v = 3) .bad_message) fun _ =>
    takes_bind (parses_publish_packet_id (get_qos v)) fun id => takes_left takes_rest (Incoming.publish id v topic_name)
  intro n s p d
  have hstart : (process_publish v false).run ⟨n, [], s⟩ = .ok p d ↔ 2 ≤ n ∧ (do
      let topic_name ← process_string
      stop_if (get_qos v = 3) .bad_message
      let packet_id ← publish_packet_id (get_qos v)
      let contents ← process_nbytes (← remaining_length)
      return .publish packet_id v topic_name contents : ReadM Incoming).run ⟨n, [], s⟩ = .ok p d := by
    by_cases hn : n < 2
    · rw [process_publish, run_bind, run_process_start_short hn]
      simp [Nat.not_le.mpr hn]
    · rw [process_publish, run_bind, process_start, run_bind, run_remaining_length, andThen_ok, run_bind, run_stop_if,
        if_neg hn]
      simp only [Nat.le_of_not_lt hn, true_and]
      rfl
  rw [hstart, hfields n s p d]
  constructor
  · rintro ⟨-, bs, t, rfl, rfl,
      ⟨bs₁, topic_name, -, rfl, ht, bs₂, -, -, rfl, ⟨rfl, hq⟩, ids, id, -, rfl, hid, contents, rfl, rfl⟩, rfl⟩
    exact ⟨_, t, rfl, rfl, ⟨bs₁, topic_name, ids, id, contents, rfl, ht, hq, hid, rfl⟩, rfl⟩
  · rintro ⟨bs, t, rfl, rfl, ⟨bs₁, topic_name, ids, id, contents, rfl, ht, hq, hid, rfl⟩, rfl⟩
    refine ⟨?_, _, t, rfl, rfl,
      ⟨bs₁, topic_name, _, rfl, ht, [], (), _, rfl, ⟨rfl, hq⟩, ids, id, _, rfl, hid, contents, rfl, rfl⟩, rfl⟩
    obtain ⟨-, rfl⟩ := ht
    rw [List.length_append, utf8string, List.length_append, length_num_to_2bytes]
    omega

/-- An identifier, and what is read after it. -/
theorem takes_identified {α : Type} {h : Nat → ReadM α} {G : Str → α → Prop} (hx : Takes (do h (← remaining_length)) G)
    (f : Nat → α → Incoming) :
    Takes (do let packet_id ← process_id false; let a ← h (← remaining_length); return f packet_id a)
      (Seq PacketIdentifier fun id bs p => ∃ a, G bs a ∧ p = f id a) :=
  takes_bind parses_process_id fun id => takes_left hx (f id)

theorem takes_process_subscribe : Takes (process_subscribe false)
    (Seq PacketIdentifier fun id bs p => ∃ entries, Entries SubscribeGrammar bs entries ∧ p = .subscribe id entries) :=
  takes_identified (takes_process_entries parses_process_subscribe_entry fun _ _ => entry_not_empty) .subscribe

theorem takes_process_suback : Takes (process_suback false)
    (Seq PacketIdentifier fun id bs p => ∃ results, results = bs ∧ p = .suback id results) :=
  takes_identified takes_rest .suback

theorem takes_process_unsubscribe : Takes (process_unsubscribe false)
    (Seq PacketIdentifier fun id bs p => ∃ entries, Entries FilterEntry bs entries ∧ p = .unsubscribe id entries) :=
  takes_identified (takes_process_entries parses_process_filter fun _ _ => filter_not_empty) .unsubscribe

theorem parses_process_ack (type : UInt8) :
    Parses (process_ack type false) (Seq PacketIdentifier fun id bs p => bs = [] ∧ p = .ack type id) :=
  parses_bind parses_process_id fun id => parses_pure (Incoming.ack type id)

/-! ## Bodies -/

section
variable {x : ReadM Incoming} {G : Str → Incoming → Prop} {n : Nat} {s rest : Str} {p : Incoming}

theorem outcome_takes (hx : Takes x G) :
    outcome (x.run ⟨n, [], s⟩) = .done p rest ↔ ∃ bs, s = bs ++ rest ∧ n = bs.length ∧ G bs p := by
  constructor
  · intro h
    obtain ⟨d, hrun, rfl⟩ := outcome_done h
    obtain ⟨bs, t, rfl, rfl, hg, rfl⟩ := (hx n s p d).mp hrun
    exact ⟨bs, rfl, rfl, hg⟩
  · rintro ⟨bs, rfl, rfl, hg⟩
    rw [(hx _ _ p _).mpr ⟨bs, rest, rfl, rfl, hg, rfl⟩]
    rfl

/-- The length of the packet is known. -/
theorem outcome_parses (hx : Parses x G) (hG : ∀ bs p, G bs p → bs.length = n) :
    outcome (x.run ⟨n, [], s⟩) = .done p rest ↔ ∃ bs, s = bs ++ rest ∧ n = bs.length ∧ G bs p := by
  constructor
  · intro h
    obtain ⟨d, hrun, rfl⟩ := outcome_done h
    obtain ⟨bs, t, k, rfl, -, hg, rfl⟩ := (hx n s p d).mp hrun
    exact ⟨bs, rfl, (hG bs p hg).symm, hg⟩
  · rintro ⟨bs, rfl, rfl, hg⟩
    rw [(hx bs.length _ p _).mpr ⟨bs, rest, 0, rfl, rfl, hg, rfl⟩]
    rfl

theorem outcome_ack (type : UInt8) : outcome ((process_ack type false).run ⟨2, [], s⟩) = .done p rest ↔
    ∃ bs, s = bs ++ rest ∧ 2 = bs.length ∧ Seq PacketIdentifier (fun id bs p => bs = [] ∧ p = .ack type id) bs p := by
  apply outcome_parses (parses_process_ack type)
  rintro bs p ⟨ids, id, -, rfl, ⟨-, -, rfl⟩, rfl, -⟩
  rfl

theorem outcome_connack : outcome ((process_connack false).run ⟨2, [], s⟩) = .done p rest ↔
    ∃ flags code, s = [flags, code] ++ rest ∧ p = .connack (flags &&& 0x01 ≠ 0) code := by
  have hshort : s.length < 2 → outcome ((process_connack false).run ⟨2, [], s⟩) = .more := by
    intro hs
    rw [process_connack, run_bind, process_start, run_bind, run_remaining_length, andThen_ok, run_bind, run_stop_if,
      if_neg (Nat.lt_irrefl 2), andThen_ok, process_header, run_bind, run_remaining_length, andThen_ok, run_bind]
    show outcome (andThen (andThen ((async_read 2).run _) _) _) = _
    rw [run_async_read, if_pos hs]
    rfl
  rcases s with _ | ⟨flags, _ | ⟨code, t⟩⟩
  · simp [hshort]
  · simp [hshort]
  · have hrun : outcome ((process_connack false).run ⟨2, [], flags :: code :: t⟩) =
      .done (.connack (flags &&& 0x01 ≠ 0) code) t := rfl
    rw [hrun]
    constructor
    · intro h
      cases h
      exact ⟨flags, code, rfl, rfl⟩
    · rintro ⟨flags', code', h, rfl⟩
      cases h
      rfl

end

theorem fixed_headers : ∀ v : UInt8, reserved_ok v = true → get_control_packet_type v = 0x30 ∨
    v ∈ [0x10, 0x20, 0x82, 0x90, 0xA2, 0xC0, 0xD0, 0xE0, 0xF0] ∨ v ∈ [0x40, 0x50, 0x62, 0x70, 0xB0] :=
      forall_byte (by decide +kernel)

theorem process_packet_publish {v : UInt8} (hv : get_control_packet_type v = 0x30) :
    process_packet true v false = process_publish v false := by
  simp [process_packet, process_connected, hv]

theorem process_packet_ack {v : UInt8} (hv : v ∈ [0x40, 0x50, 0x62, 0x70, 0xB0]) :
    process_packet true v false = process_ack (get_control_packet_type v) false := by
  simp only [List.mem_cons, List.not_mem_nil, or_false] at hv
  rcases hv with rfl | rfl | rfl | rfl | rfl <;> rfl

theorem ack_header {v : UInt8} (hv : v ∈ [0x40, 0x50, 0x62, 0x70, 0xB0]) (n : Nat) :
    reserved_ok v = true ∧ length_ok v n = decide (n = 2) := by
  simp only [List.mem_cons, List.not_mem_nil, or_false] at hv
  rcases hv with rfl | rfl | rfl | rfl | rfl <;> exact ⟨rfl, rfl⟩

theorem publish_header {v : UInt8} (hv : get_control_packet_type v = 0x30) (n : Nat) :
    reserved_ok v = true ∧ length_ok v n = true := by
  simp [reserved_ok, length_ok, hv]

/-- What is taken after a fixed header is a body. -/
theorem body_of_process_packet {v : UInt8} {n : Nat} {s rest : Str} {p : Incoming} (hres : reserved_ok v = true)
    (hok : length_ok v n = true) (h10 : v ≠ 0x10) (hE0 : get_control_packet_type v ≠ 0xE0)
    (h : outcome ((process_packet true v false).run ⟨n, [], s⟩) = .done p rest) :
    ∃ bs, s = bs ++ rest ∧ n = bs.length ∧ Body v bs p := by
  rcases fixed_headers v hres with hv | hv | hv
  · rw [process_packet_publish hv] at h
    obtain ⟨bs, hs, hn, bs₁, topic_name, ids, id, contents, rfl, ht, hq, hid, rfl⟩ :=
      (outcome_takes (takes_process_publish v)).mp h
    exact ⟨_, hs, hn, .publish hv ht hq hid⟩
  · simp only [List.mem_cons, List.not_mem_nil, or_false] at hv
    rcases hv with rfl | rfl | rfl | rfl | rfl | rfl | rfl | rfl | rfl
    · exact absurd rfl h10
    · obtain rfl : n = 2 := of_decide_eq_true hok
      obtain ⟨flags, code, rfl, rfl⟩ := outcome_connack.mp h
      exact ⟨[flags, code], rfl, rfl, .connack flags code⟩
    · obtain ⟨bs, hs, hn, ids, id, bs', rfl, hid, entries, hentries, rfl⟩ := (outcome_takes takes_process_subscribe).mp h
      exact ⟨_, hs, hn, .subscribe hid hentries⟩
    · obtain ⟨bs, hs, hn, ids, id, bs', rfl, hid, results, rfl, rfl⟩ := (outcome_takes takes_process_suback).mp h
      exact ⟨_, hs, hn, .suback hid⟩
    · obtain ⟨bs, hs, hn, ids, id, bs', rfl, hid, entries, hentries, rfl⟩ := (outcome_takes takes_process_unsubscribe).mp h
      exact ⟨_, hs, hn, .unsubscribe hid hentries⟩
    · obtain rfl : n = 0 := of_decide_eq_true hok
      cases h
      exact ⟨[], rfl, rfl, .pingreq⟩
    · obtain rfl : n = 0 := of_decide_eq_true hok
      cases h
      exact ⟨[], rfl, rfl, .pingresp⟩
    · exact absurd rfl hE0
    · cases hok
  · rw [process_packet_ack hv] at h
    rw [(ack_header hv n).2] at hok
    obtain rfl : n = 2 := of_decide_eq_true hok
    obtain ⟨bs, hs, hn, ids, id, -, rfl, hid, rfl, rfl⟩ := (outcome_ack _).mp h
    rw [List.append_nil] at hs hn
    exact ⟨ids, hs, hn, .ack hv hid⟩

theorem body_header {v : UInt8} {bs : Str} {p : Incoming} (h : Body v bs p) :
    v ≠ 0x10 ∧ get_control_packet_type v ≠ 0xE0 := by
  cases h with
  | publish hv =>
    rw [hv]
    refine ⟨fun h => ?_, by decide⟩
    rw [h] at hv
    cases hv
  | ack hv =>
    simp only [List.mem_cons, List.not_mem_nil, or_false] at hv
    rcases hv with rfl | rfl | rfl | rfl | rfl <;> exact ⟨by decide, by decide⟩
  | _ => exact ⟨by decide, by decide⟩

/-- A body is taken as a whole. -/
theorem process_packet_of_body {v : UInt8} {bs : Str} {p : Incoming} (h : Body v bs p) (rest : Str) :
    reserved_ok v = true ∧ length_ok v bs.length = true ∧
      outcome ((process_packet true v false).run ⟨bs.length, [], bs ++ rest⟩) = .done p rest := by
  cases h with
  | connack flags code => exact ⟨rfl, rfl, rfl⟩
  | publish hv ht hq hid =>
    refine ⟨(publish_header hv 0).1, (publish_header hv _).2, ?_⟩
    rw [process_packet_publish hv]
    exact (outcome_takes (takes_process_publish v)).mpr ⟨_, rfl, rfl, _, _, _, _, _, rfl, ht, hq, hid, rfl⟩
  | ack hv hid =>
    have hlen : bs.length = 2 := by
      obtain ⟨-, -, rfl⟩ := hid
      rfl
    refine ⟨(ack_header hv 0).1, by simp [(ack_header hv _).2, hlen], ?_⟩
    rw [process_packet_ack hv, hlen]
    exact (outcome_ack _).mpr ⟨bs, rfl, hlen.symm, bs, _, [], by simp, hid, rfl, rfl⟩
  | subscribe hid h =>
    exact ⟨rfl, rfl, (outcome_takes takes_process_subscribe).mpr ⟨_, rfl, rfl, _, _, _, rfl, hid, _, h, rfl⟩⟩
  | suback hid => exact ⟨rfl, rfl, (outcome_takes takes_process_suback).mpr ⟨_, rfl, rfl, _, _, _, rfl, hid, _, rfl, rfl⟩⟩
  | unsubscribe hid h =>
    exact ⟨rfl, rfl, (outcome_takes takes_process_unsubscribe).mpr ⟨_, rfl, rfl, _, _, _, rfl, hid, _, h, rfl⟩⟩
  | pingreq => exact ⟨rfl, rfl, rfl⟩
  | pingresp => exact ⟨rfl, rfl, rfl⟩

/-! ## Packets from the stream -/

theorem read_body_field {v : UInt8} (hE0 : get_control_packet_type v ≠ 0xE0) (n : Nat) (s : Str) : read_body 0 true v n s =
    if reserved_ok v = false then .fail (.error .bad_message)
    else if length_ok v n = false then .fail (.error .protocol_error)
    else outcome ((process_packet true v false).run ⟨n, [], s⟩) := by
  rw [read_body, process_payload, if_neg hE0]
  rfl

theorem read_body_disconnect {v : UInt8} (hE0 : get_control_packet_type v = 0xE0) {limit n : Nat} {s rest : Str}
    {p : Incoming} :
    read_body limit true v n s ≠ .done p rest := by
  unfold read_body process_payload
  split
  · simp
  · split
    · simp
    · simp

theorem read_packet_of_bytes {bs : Str} {p : Incoming} (h : PacketBytes bs p) (rest : Str) :
    read_packet 0 true (bs ++ rest) = .done p rest := by
  obtain ⟨hl, hb⟩ := h
  rename_i v lens body
  obtain ⟨-, hE0⟩ := body_header hb
  have hlen : handle_remaining_length 0 1 (lens ++ body ++ rest) = .done body.length (body ++ rest) := by
    rw [List.append_assoc]
    exact (handle_remaining_length_done (k := 4) (by decide)).mpr ⟨lens, _, rfl, hl, by omega⟩
  obtain ⟨hres, hok, hrun⟩ := process_packet_of_body hb rest
  show read_packet 0 true (v :: (lens ++ body ++ rest)) = _
  simp only [read_packet, hlen]
  rw [read_body_field hE0, if_neg (by simp [hres]), if_neg (by simp [hok]), hrun]

theorem bytes_of_read_packet {s rest : Str} {p : Incoming} (hs : NotConnect s) (h : read_packet 0 true s = .done p rest) :
    ∃ bs, s = bs ++ rest ∧ PacketBytes bs p := by
  cases s with
  | nil => cases h
  | cons v s =>
    simp only [read_packet] at h
    cases hlen : handle_remaining_length 0 1 s with
    | more => rw [hlen] at h; cases h
    | fail e => rw [hlen] at h; cases h
    | done n body =>
      rw [hlen] at h
      obtain ⟨lens, l, rfl, hl, hn⟩ := (handle_remaining_length_done (k := 4) (by decide)).mp hlen
      rw [Nat.zero_add, Nat.mul_one] at hn
      subst hn
      by_cases hE0 : get_control_packet_type v = 0xE0
      · exact absurd h (read_body_disconnect hE0)
      simp only [read_body_field hE0] at h
      split at h
      · cases h
      · rename_i hres
        split at h
        · cases h
        · rename_i hok
          obtain ⟨bs, rfl, rfl, hb⟩ :=
            body_of_process_packet (by simpa using hres) (by simpa using hok) (not_connect_cons.mp hs) hE0 h
          exact ⟨v :: (lens ++ bs), by simp, .mk hl hb⟩

theorem bytes_not_connect {bs : Str} {p : Incoming} (h : PacketBytes bs p) (rest : Str) : NotConnect (bs ++ rest) := by
  cases h with
  | mk _ hb => exact not_connect_cons.mpr (body_header hb).1

/-- **The reader takes the packets of the grammar**, and nothing else. -/
theorem reads_by_grammar (limit : Nat) : ReadsBy NotConnect (read_packet limit true) PacketBytes where
  takes h rest := (read_packet_follows 0 limit true).done (bytes_not_connect h rest) (read_packet_of_bytes h rest)
  taken hs h := bytes_of_read_packet hs ((read_packet_follows limit 0 true).done hs h)

theorem read_disconnect (limit : Nat) {bs : Str} (h : DisconnectBytes bs) (rest : Str) :
    read_packet limit true (bs ++ rest) = .fail .disconnect := by
  obtain ⟨hl⟩ := h
  rename_i lens
  have hlen : handle_remaining_length 0 1 (lens ++ rest) = .done 0 rest :=
    (handle_remaining_length_done (k := 4) (by decide)).mpr ⟨lens, 0, rfl, hl, by omega⟩
  show read_packet limit true (0xE0 :: (lens ++ rest)) = _
  simp only [read_packet, hlen]
  rfl

theorem remaining_length_error :
    ∀ {s : Str} {v m : Nat} {e : ReadEnd}, handle_remaining_length v m s = .fail e → ∃ e', e = .error e'
  | [], _, _, _, h => by cases h
  | b :: s, v, m, e, h => by
    unfold handle_remaining_length at h
    simp only at h
    split at h
    · cases h
      exact ⟨_, rfl⟩
    · split at h
      · exact remaining_length_error h
      · cases h

theorem disconnect_header :
    ∀ v : UInt8, reserved_ok v = true → get_control_packet_type v = 0xE0 → v = 0xE0 := forall_byte (by decide +kernel)

theorem outcome_ne_disconnect {α : Type} (r : EStateM.Result Stop Cursor α) : outcome r ≠ .fail .disconnect := by
  cases r with
  | ok a d => simp [outcome]
  | error e d => cases e <;> simp [outcome]

theorem disconnect_of_read_body {limit n : Nat} {v : UInt8} {s : Str} (h : read_body limit true v n s = .fail .disconnect) :
    v = 0xE0 ∧ n = 0 := by
  unfold read_body process_payload at h
  split at h
  · cases h
  rename_i hres
  split at h
  · cases h
  rename_i hok
  split at h
  · rename_i hE0
    refine ⟨disconnect_header v (by simpa using hres) hE0, ?_⟩
    simpa [length_ok, hE0] using hok
  · exact absurd h (outcome_ne_disconnect _)

/-- A DISCONNECT ends the reading, and nothing else that the handlers are called for. -/
theorem disconnects_iff (limit : Nat) {s : Str} :
    read_packet limit true s = .fail .disconnect ↔ ∃ bs t, s = bs ++ t ∧ DisconnectBytes bs := by
  constructor
  · intro h
    cases s with
    | nil => cases h
    | cons v s =>
      simp only [read_packet] at h
      cases hlen : handle_remaining_length 0 1 s with
      | more => rw [hlen] at h; cases h
      | fail e =>
        rw [hlen] at h
        obtain ⟨e, rfl⟩ := remaining_length_error hlen
        cases h
      | done n body =>
        rw [hlen] at h
        obtain ⟨lens, l, rfl, hl, hn⟩ := (handle_remaining_length_done (k := 4) (by decide)).mp hlen
        rw [Nat.zero_add, Nat.mul_one] at hn
        subst hn
        obtain ⟨rfl, rfl⟩ := disconnect_of_read_body h
        exact ⟨0xE0 :: lens, body, rfl, .mk hl⟩
  · rintro ⟨bs, t, rfl, hbs⟩
    exact read_disconnect limit hbs t

/-- **The handlers of an endpoint are called with the packets that the grammar derives** from the
stream, up to the first byte from which it derives none; a DISCONNECT there ends the connection. -/
theorem received_iff (limit : Nat) {chunks : List Str} (hnone : WithoutConnect limit chunks.flatten)
    (packets : List Incoming) :
    ((received limit chunks).1 = packets ↔ ∃ rest, Parsed PacketBytes chunks.flatten packets rest) ∧
      ((received limit chunks).2 = .failed .disconnect ↔
        ∃ packets bs t, Parsed PacketBytes chunks.flatten packets (bs ++ t) ∧ DisconnectBytes bs) := by
  have hr := read_packet_steady limit true
  have hG := reads_by_grammar limit
  rw [received_eq]
  refine ⟨read_items_iff hr hG hnone, ?_⟩
  rw [read_failed_iff hr hG hnone]
  constructor
  · rintro ⟨packets, rest, h, hend⟩
    obtain ⟨bs, t, rfl, hbs⟩ := (disconnects_iff limit).mp hend
    exact ⟨packets, bs, t, h, hbs⟩
  · rintro ⟨packets, bs, t, h, hbs⟩
    exact ⟨packets, bs ++ t, h, (disconnects_iff limit).mpr ⟨bs, t, rfl, hbs⟩⟩

/-- A PUBLISH, a PUBACK, and a DISCONNECT with something behind it. -/
def ended_stream : List Str := [[0x30, 5, 0, 1, 116], [120, 121, 0x40, 2, 0, 7, 0xE0], [0, 0x10]]

theorem ended_without_connect : WithoutConnect 0 ended_stream.flatten := by
  have hpublish : read_packet 0 true ended_stream.flatten =
      .done (.publish none 0x30 [116] [120, 121]) [0x40, 2, 0, 7, 0xE0, 0, 0x10] := rfl
  have hpuback : read_packet 0 true [0x40, 2, 0, 7, 0xE0, 0, 0x10] = .done (.ack 0x40 7) [0xE0, 0, 0x10] := rfl
  have hend : read_packet 0 true ([0xE0, 0] ++ [0x10]) = .fail .disconnect := read_disconnect 0 (.mk (.last (by decide))) _
  refine throughout_cons hpublish (by simp [NotConnect, ended_stream]) (throughout_cons hpuback (by simp [NotConnect]) ?_)
  exact throughout_end (fun _ _ h => by cases hend.symm.trans h) (by simp [NotConnect])

theorem ended_stream_received :
    ((received 0 ended_stream).1 = [.publish none 0x30 [116] [120, 121], .ack 0x40 7] ↔
        ∃ rest, Parsed PacketBytes ended_stream.flatten [.publish none 0x30 [116] [120, 121], .ack 0x40 7] rest) ∧
      ((received 0 ended_stream).2 = .failed .disconnect ↔
        ∃ packets bs t, Parsed PacketBytes ended_stream.flatten packets (bs ++ t) ∧ DisconnectBytes bs) :=
  received_iff 0 ended_without_connect _

/-! ## Streams that are refused -/

theorem remaining_length_decides : ∀ {k v m : Nat} {s : Str}, m * 128 ^ k = 128 * 128 * 128 * 128 → k < s.length →
    handle_remaining_length v m s ≠ .more
  | 0, v, m, b :: s, hm, _ => by
    have hbig : 128 * 128 * 128 * 128 < m * 128 := by omega
    rw [handle_remaining_length, if_pos hbig]
    simp
  | k + 1, v, m, b :: s, hm, hk => by
    have hnext : m * 128 * 128 ^ k = 128 * 128 * 128 * 128 := by rw [← hm]; ring
    have ih := remaining_length_decides (v := v + (b &&& 0x7f).toNat * m) hnext (Nat.lt_of_succ_lt_succ hk)
    rw [handle_remaining_length]
    split
    · simp
    · split
      · exact ih
      · simp

theorem remaining_length_short {k n : Nat} {bs : Str} (h : RemainingLength k bs n) : bs.length ≤ k := by
  induction h with
  | last _ => simp
  | more _ _ ih => simpa using ih

/-- The reader does not wait once the largest packet has arrived. -/
theorem read_packet_decides (limit : Nat) {s : Str} (hs : NotConnect s) (h : max_packet_size + 5 ≤ s.length) :
    (∃ p rest, read_packet limit true s = .done p rest) ∨ read_packet limit true s = .fail .disconnect ∨
      ∃ e, read_packet limit true s = .fail (.error e) := by
  cases s with
  | nil =>
    rw [List.length_nil] at h
    omega
  | cons v s =>
    rw [List.length_cons] at h
    have hpos : 0 < max_packet_size := by decide
    simp only [read_packet]
    cases hlen : handle_remaining_length 0 1 s with
    | more => exact absurd hlen (remaining_length_decides (k := 4) (by decide) (by omega))
    | fail e =>
      obtain ⟨e, rfl⟩ := remaining_length_error hlen
      exact Or.inr (Or.inr ⟨e, rfl⟩)
    | done n rest =>
      have hn : n < max_packet_size := remaining_length_lt Nat.one_pos hlen
      obtain ⟨lens, l, rfl, hl, -⟩ := (handle_remaining_length_done (k := 4) (by decide)).mp hlen
      have hshort := remaining_length_short hl
      rw [List.length_append] at h
      have hwhole : n ≤ rest.length := by omega
      rcases read_body_settles hwhole (not_connect_cons.mp hs) true with ⟨a, hbody⟩ | hbody | ⟨e, hbody⟩
      · exact Or.inl ⟨_, _, hbody limit⟩
      · exact Or.inr (Or.inl (hbody limit))
      · exact Or.inr (Or.inr ⟨e, hbody limit⟩)

structure NoPacket (s : Str) : Prop where
  packet : ∀ t bs t' p, s ++ t = bs ++ t' → ¬ PacketBytes bs p
  disconnect : ∀ t bs t', s ++ t = bs ++ t' → ¬ DisconnectBytes bs

theorem NoPacket.ne_nil {s : Str} (h : NoPacket s) : s ≠ [] := by
  rintro rfl
  exact h.disconnect [0xE0, 0] [0xE0, 0] [] rfl (.mk (.last (b := 0) (by decide)))

/-- **A stream is given up exactly when no packet can come of it**: the error handlers are called
within the length of one packet, after the packets that stand before. -/
theorem refused_iff (limit : Nat) {chunks : List Str} (hnone : WithoutConnect limit chunks.flatten) :
    ∃ rest, Parsed PacketBytes chunks.flatten (received limit chunks).1 rest ∧
      (NoPacket rest ↔ ∀ t, max_packet_size + 5 ≤ t.length →
        ∃ e, received limit (chunks ++ [t]) = ((received limit chunks).1, .failed (.error e))) := by
  have hr := read_packet_steady limit true
  have hG := reads_by_grammar limit
  obtain ⟨rest, hrest⟩ := ((received_iff limit hnone _).1).mp rfl
  have hread : ∀ t, received limit (chunks ++ [t]) =
    ((received limit chunks).1 ++ (read (read_packet limit true) (rest ++ t)).1,
      (read (read_packet limit true) (rest ++ t)).2) := by
    intro t
    rw [received_eq, List.flatten_append, List.flatten_singleton]
    exact read_of_parsed hr hG hrest t
  have hfront : rest ≠ [] → ∀ t, NotConnect (rest ++ t) := by
    intro hne t
    have h := hnone rest (front_of_parsed hG hrest)
    cases rest with
    | nil => exact absurd rfl hne
    | cons v rest => exact h
  refine ⟨rest, hrest, fun h t ht => ?_, fun h => ⟨fun t bs t' p hs hp => ?_, fun t bs t' hs hbs => ?_⟩⟩
  · have hs := hfront h.ne_nil t
    have hlen : max_packet_size + 5 ≤ (rest ++ t).length := by
      rw [List.length_append]
      omega
    rcases read_packet_decides limit hs hlen with ⟨p, t', hdone⟩ | hend | ⟨e, hfail⟩
    · obtain ⟨bs, hbs, hp⟩ := hG.taken hs hdone
      exact absurd hp (h.packet t bs t' p hbs)
    · obtain ⟨bs, t', hbs, hd⟩ := (disconnects_iff limit).mp hend
      exact absurd hd (h.disconnect t bs t' hbs)
    · exact ⟨e, by rw [hread, read_fail hfail, List.append_nil]⟩
  · let t'' := List.replicate (max_packet_size + 5) (0 : UInt8)
    obtain ⟨e, he⟩ := h (t ++ t'') (by simp [t''])
    have hdone := hG.takes hp (t' ++ t'')
    rw [← List.append_assoc, ← hs, List.append_assoc] at hdone
    rw [hread, read_done hr hdone] at he
    simp at he
  · let t'' := List.replicate (max_packet_size + 5) (0 : UInt8)
    obtain ⟨e, he⟩ := h (t ++ t'') (by simp [t''])
    have hend := read_disconnect limit hbs (t' ++ t'')
    rw [← List.append_assoc, ← hs, List.append_assoc] at hend
    rw [hread, read_fail hend] at he
    simp at he

def broken_stream : List Str := [[0xD0, 0, 0x30], [5, 0, 9]]

theorem broken_without_connect : WithoutConnect 256 broken_stream.flatten := by
  refine throughout_cons rfl (by simp [NotConnect, broken_stream]) ?_
  exact throughout_end (fun _ _ h => by cases h) (by simp [NotConnect])

theorem broken_stream_refused :
    ∃ rest, Parsed PacketBytes broken_stream.flatten (received 256 broken_stream).1 rest ∧
      (NoPacket rest ↔ ∀ t, max_packet_size + 5 ≤ t.length →
        ∃ e, received 256 (broken_stream ++ [t]) = ((received 256 broken_stream).1, .failed (.error e))) :=
  refused_iff 256 broken_without_connect

end VrpcAgent

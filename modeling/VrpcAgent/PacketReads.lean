import VrpcAgent.PacketReader

/-!
# Packets that arrive in pieces

The reader waits for what is missing and does not change its mind when it comes. Whether a
packet is read at once or field by field, the reader takes the same packet from the stream
or refuses it with the same error.
-/

namespace VrpcAgent

open Effects StreamReader

/-! ## Primitives -/

section
variable (size : Nat) (c : Cursor)

theorem run_remaining_length : remaining_length.run c = .ok c.remaining_length c := rfl

theorem run_stop_if (p : Prop) [Decidable p] (e : ReadError) :
    (stop_if p e).run c = if p then .error (.error e) c else .ok () c := by
  unfold stop_if
  split <;> rfl

theorem run_undefined_if (p : Prop) [Decidable p] : (undefined_if p).run c = if p then .error .undefined c else .ok () c := by
  unfold undefined_if
  split <;> rfl

theorem run_consume : (consume size).run c = .ok () { c with remaining_length := c.remaining_length - size } := rfl

theorem run_buffered : buffered.run c = .ok c.buf.length c := rfl

theorem run_async_read : (async_read size).run c =
    if c.socket.length < size then .error .more c else .ok (c.socket.take size) { c with socket := c.socket.drop size } := by
  unfold async_read
  rw [run_bind, EStateM.run_get, andThen_ok]
  split <;> rfl

theorem run_next_bytes : (next_bytes size).run c =
    if c.buf = [] then (async_read size).run c else .ok (c.buf.take size) { c with buf := c.buf.drop size } := by
  unfold next_bytes
  rw [run_bind, EStateM.run_get, andThen_ok]
  split <;> rfl

theorem run_process_fixed_length (h : 2 ≤ c.remaining_length) (hlen : c.buf.length ≠ 1) : process_fixed_length.run c =
    andThen ((next_bytes 2).run { c with remaining_length := c.remaining_length - 2 }) fun bytes =>
      pure (make_uint16_t bytes) := by
  rw [process_fixed_length, run_bind, run_remaining_length, andThen_ok, run_bind, run_stop_if,
    if_neg (Nat.not_lt.mpr h), andThen_ok,
    run_bind, run_consume, andThen_ok, run_bind, run_buffered, andThen_ok, run_bind, run_undefined_if, if_neg hlen,
      andThen_ok, run_bind]

theorem run_process_fixed_length_short (h : c.remaining_length < 2) :
    process_fixed_length.run c = .error (.error .protocol_error) c := by
  rw [process_fixed_length, run_bind, run_remaining_length, andThen_ok, run_bind, run_stop_if, if_pos h]
  rfl

end

/-! ## More of the stream -/

def Cursor.more (c : Cursor) (t : Str) : Cursor := { c with socket := c.socket ++ t }

/-- What a read comes to stays so when more arrives. -/
structure Lasts {α : Type} (x : ReadM α) : Prop where
  ok : ∀ {c a d}, x.run c = .ok a d → d.socket.length ≤ c.socket.length ∧ ∀ t, x.run (c.more t) = .ok a (d.more t)
  error : ∀ {c e d}, x.run c = .error e d → e ≠ .more → ∀ t, ∃ d', x.run (c.more t) = .error e d'

section
variable {α β : Type} {x : ReadM α} {f : α → ReadM β}

/-- The socket is left alone. -/
theorem lasts_local (h : ∀ c, ∃ a d, x.run c = .ok a d ∧ d.socket = c.socket ∧
    ∀ t, x.run (c.more t) = .ok a (d.more t)) : Lasts x where
  ok {c a d} hr := by
    obtain ⟨a', d', hr', hs, ht⟩ := h c
    rw [hr'] at hr
    cases hr
    exact ⟨Nat.le_of_eq (congrArg List.length hs), ht⟩
  error {c e d} hr _ := by
    obtain ⟨a', d', hr', -⟩ := h c
    rw [hr'] at hr
    cases hr

theorem lasts_pure (a : α) : Lasts (pure a) := lasts_local fun _ => ⟨_, _, rfl, rfl, fun _ => rfl⟩

theorem lasts_throw (e : Stop) : Lasts (throw e : ReadM α) where
  ok h := by cases h
  error h _ t := by cases h; exact ⟨_, rfl⟩

theorem lasts_bind (hx : Lasts x) (hf : ∀ a, Lasts (f a)) : Lasts (x >>= f) where
  ok {c b d} h := by
    rw [run_bind] at h
    cases hr : x.run c with
    | error e c' => rw [hr] at h; cases h
    | ok a c' =>
      rw [hr] at h
      obtain ⟨hle, hx⟩ := hx.ok hr
      obtain ⟨hle', hf⟩ := (hf a).ok h
      refine ⟨Nat.le_trans hle' hle, fun t => ?_⟩
      rw [run_bind, hx t]
      exact hf t
  error {c e d} h he t := by
    rw [run_bind] at h
    cases hr : x.run c with
    | error e' c' =>
      rw [hr] at h
      cases h
      obtain ⟨d', hd'⟩ := hx.error hr he t
      exact ⟨d', by rw [run_bind, hd']; rfl⟩
    | ok a c' =>
      rw [hr] at h
      obtain ⟨d', hd'⟩ := (hf a).error h he t
      exact ⟨d', by rw [run_bind, (hx.ok hr).2 t]; exact hd'⟩

theorem lasts_remaining_length : Lasts remaining_length :=
  lasts_local fun _ => ⟨_, _, rfl, rfl, fun _ => rfl⟩

theorem lasts_ite {p : Prop} [Decidable p] {y : ReadM α} (hx : Lasts x) (hy : Lasts y) : Lasts (if p then x else y) := by
  split
  · exact hx
  · exact hy

end

theorem lasts_async_read (size : Nat) : Lasts (async_read size) where
  ok {c a d} h := by
    rw [run_async_read] at h
    split at h
    · cases h
    · rename_i hlen
      cases h
      refine ⟨by simp, fun t => ?_⟩
      have hlen : size ≤ c.socket.length := Nat.le_of_not_lt hlen
      rw [run_async_read, Cursor.more, if_neg (by simp; omega)]
      simp [Cursor.more, List.take_append_of_le_length hlen, List.drop_append_of_le_length hlen]
  error {c e d} h he := by
    rw [run_async_read] at h
    split at h
    · cases h
      exact absurd rfl he
    · cases h

theorem lasts_stop_if (p : Prop) [Decidable p] (e : ReadError) : Lasts (stop_if p e) :=
  lasts_ite (lasts_throw _) (lasts_pure ())

theorem lasts_undefined_if (p : Prop) [Decidable p] : Lasts (undefined_if p) := lasts_ite (lasts_throw _) (lasts_pure ())

theorem lasts_consume (size : Nat) : Lasts (consume size) :=
  lasts_local fun _ => ⟨_, _, rfl, rfl, fun _ => rfl⟩

theorem lasts_buffered : Lasts buffered :=
  lasts_local fun _ => ⟨_, _, rfl, rfl, fun _ => rfl⟩

theorem lasts_next_bytes (size : Nat) : Lasts (next_bytes size) where
  ok {c a d} h := by
    have hmore : ∀ t, (c.more t).buf = c.buf := fun t => rfl
    simp only [run_next_bytes, hmore] at h ⊢
    by_cases hbuf : c.buf = []
    · rw [if_pos hbuf] at h
      simp only [if_pos hbuf]
      exact (lasts_async_read size).ok h
    · rw [if_neg hbuf] at h
      simp only [if_neg hbuf]
      cases h
      exact ⟨Nat.le_refl _, fun t => rfl⟩
  error {c e d} h he t := by
    have hmore : (c.more t).buf = c.buf := rfl
    rw [run_next_bytes] at h ⊢
    rw [hmore]
    by_cases hbuf : c.buf = []
    · rw [if_pos hbuf] at h ⊢
      exact (lasts_async_read size).error h he t
    · rw [if_neg hbuf] at h
      cases h

theorem lasts_process_nbytes (size : Nat) : Lasts (process_nbytes size) := by
  unfold process_nbytes
  refine lasts_bind lasts_remaining_length fun n => lasts_bind (lasts_stop_if _ _) fun _ => ?_
  refine lasts_bind (lasts_consume size) fun _ => lasts_bind lasts_buffered fun n => ?_
  exact lasts_bind (lasts_stop_if _ _) fun _ => lasts_next_bytes size

theorem lasts_process_fixed_length : Lasts process_fixed_length := by
  unfold process_fixed_length
  refine lasts_bind lasts_remaining_length fun n => lasts_bind (lasts_stop_if _ _) fun _ => ?_
  refine lasts_bind (lasts_consume 2) fun _ => lasts_bind lasts_buffered fun m =>
    lasts_bind (lasts_undefined_if _) fun _ => ?_
  exact lasts_bind (lasts_next_bytes 2) fun bytes => lasts_pure _

theorem lasts_read_header (all_read : Bool) (header_len n : Nat) : Lasts (read_header all_read header_len n) := by
  unfold read_header
  exact lasts_ite (lasts_async_read n) (lasts_ite (lasts_pure []) (lasts_async_read header_len))

theorem lasts_set_buf (buf : Str) : Lasts (modify fun c : Cursor => { c with buf } : ReadM PUnit) :=
  lasts_local fun _ => ⟨_, _, rfl, rfl, fun _ => rfl⟩

theorem lasts_process_header (all_read : Bool) (header_len : Nat) : Lasts (process_header all_read header_len) := by
  unfold process_header
  exact lasts_bind lasts_remaining_length fun n => lasts_bind (lasts_read_header all_read header_len n) lasts_set_buf

theorem lasts_process_start (all_read : Bool) (header_len : Nat) : Lasts (process_start all_read header_len) := by
  unfold process_start
  refine lasts_bind lasts_remaining_length fun n => lasts_bind (lasts_stop_if _ _) fun _ => ?_
  exact lasts_process_header all_read header_len

theorem lasts_take_header (header_len : Nat) : Lasts (take_header header_len) :=
  lasts_local fun _ => ⟨_, _, rfl, rfl, fun _ => rfl⟩

/-! ## Packets -/

theorem lasts_process_packet_id : Lasts process_packet_id := by
  unfold process_packet_id
  exact lasts_bind lasts_process_fixed_length fun id => lasts_bind (lasts_stop_if _ _) fun _ => lasts_pure id

theorem lasts_process_binary : Lasts process_binary := by
  unfold process_binary
  refine lasts_bind lasts_remaining_length fun n => lasts_bind (lasts_stop_if _ _) fun _ => ?_
  refine lasts_bind lasts_process_fixed_length fun size => lasts_bind lasts_remaining_length fun n => ?_
  exact lasts_bind (lasts_stop_if _ _) fun _ => lasts_process_nbytes size

theorem lasts_optional {α : Type} {x : ReadM α} (p : Bool) (h : Lasts x) : Lasts (optional p x) := by
  unfold optional
  rw [map_eq_pure_bind]
  exact lasts_ite (lasts_bind h fun a => lasts_pure (some a)) (lasts_pure none)

theorem lasts_process_will (connect_flag : UInt8) : Lasts (process_will connect_flag) := by
  unfold process_will
  exact lasts_bind lasts_process_binary fun topic => lasts_bind lasts_process_binary fun message => lasts_pure _

theorem lasts_process_connect (all_read : Bool) : Lasts (process_connect all_read) := by
  unfold process_connect
  refine lasts_bind lasts_remaining_length fun n => lasts_bind (lasts_stop_if _ _) fun _ => ?_
  refine lasts_bind (lasts_process_header all_read 10) fun _ => lasts_bind (lasts_take_header 10) fun header => ?_
  refine lasts_bind (lasts_stop_if _ _) fun _ => lasts_bind (lasts_stop_if _ _) fun _ => ?_
  refine lasts_bind lasts_process_binary fun client_id => lasts_bind (lasts_optional _ (lasts_process_will _)) fun will => ?_
  refine lasts_bind (lasts_optional _ lasts_process_binary) fun user_name => ?_
  exact lasts_bind (lasts_optional _ lasts_process_binary) fun password => lasts_pure _

theorem lasts_process_connack (all_read : Bool) : Lasts (process_connack all_read) := by
  unfold process_connack
  exact lasts_bind (lasts_process_start all_read 2) fun _ => lasts_bind (lasts_take_header 2) fun flags => lasts_pure _

theorem lasts_process_id (all_read : Bool) : Lasts (process_id all_read) := by
  unfold process_id
  exact lasts_bind (lasts_process_start all_read 2) fun _ => lasts_process_packet_id

theorem lasts_publish_packet_id (qos_value : UInt8) : Lasts (publish_packet_id qos_value) := by
  unfold publish_packet_id
  rw [map_eq_pure_bind]
  exact lasts_ite (lasts_pure none) (lasts_bind lasts_process_packet_id fun id => lasts_pure (some id))

theorem lasts_process_publish (fixed_header : UInt8) (all_read : Bool) : Lasts (process_publish fixed_header all_read) := by
  unfold process_publish
  refine lasts_bind (lasts_process_start all_read 0) fun _ => lasts_bind lasts_process_binary fun topic => ?_
  refine lasts_bind (lasts_stop_if _ _) fun _ => lasts_bind (lasts_publish_packet_id _) fun id => ?_
  exact lasts_bind lasts_remaining_length fun n => lasts_bind (lasts_process_nbytes n) fun contents => lasts_pure _

theorem lasts_process_filter : Lasts process_filter := by
  unfold process_filter
  refine lasts_bind lasts_process_binary fun s => ?_
  unfold filter_entry
  split
  · exact lasts_throw _
  · exact lasts_pure _

theorem lasts_process_subscribe_entry : Lasts process_subscribe_entry := by
  unfold process_subscribe_entry
  refine lasts_bind lasts_process_filter fun entry => lasts_bind (lasts_process_nbytes 1) fun options => ?_
  exact lasts_bind (lasts_stop_if _ _) fun _ => lasts_pure _

theorem lasts_process_entries {α : Type} {process_entry : ReadM α} (h : Lasts process_entry) :
    ∀ n, Lasts (process_entries process_entry n)
  | 0 => lasts_pure []
  | n + 1 => by
    unfold process_entries
    refine lasts_bind h fun entry => lasts_bind lasts_remaining_length fun m => lasts_ite (lasts_pure [entry]) ?_
    exact lasts_bind (lasts_process_entries h n) fun entries => lasts_pure (entry :: entries)

theorem lasts_process_connected (fixed_header : UInt8) (all_read : Bool) :
    Lasts (process_connected fixed_header all_read) := by
  unfold process_connected
  refine lasts_ite (lasts_process_publish fixed_header all_read)
    (lasts_ite ?_ (lasts_ite ?_ (lasts_ite ?_ (lasts_ite (lasts_pure _)
    (lasts_ite (lasts_pure _) ?_)))))
  · unfold process_subscribe
    refine lasts_bind (lasts_process_id all_read) fun id => lasts_bind lasts_remaining_length fun n => ?_
    exact lasts_bind (lasts_process_entries lasts_process_subscribe_entry _) fun entries => lasts_pure _
  · unfold process_suback
    refine lasts_bind (lasts_process_id all_read) fun id => lasts_bind lasts_remaining_length fun n => ?_
    exact lasts_bind (lasts_process_nbytes n) fun results => lasts_pure _
  · unfold process_unsubscribe
    refine lasts_bind (lasts_process_id all_read) fun id => lasts_bind lasts_remaining_length fun n => ?_
    exact lasts_bind (lasts_process_entries lasts_process_filter _) fun entries => lasts_pure _
  · unfold process_ack
    exact lasts_bind (lasts_process_id all_read) fun id => lasts_pure _

theorem lasts_process_packet (mqtt_connected : Bool) (fixed_header : UInt8) (all_read : Bool) :
    Lasts (process_packet mqtt_connected fixed_header all_read) := by
  unfold process_packet
  refine lasts_ite (lasts_process_connect all_read) (lasts_ite (lasts_process_connack all_read) ?_)
  exact lasts_ite (lasts_process_connected fixed_header all_read) (lasts_throw _)

theorem lasts_remaining_bytes {v m : Nat} : ∀ {s : Str} {n : Nat} {rest : Str}, handle_remaining_length v m s = .done n rest →
    rest.length < s.length ∧ ∀ t, handle_remaining_length v m (s ++ t) = .done n (rest ++ t)
  | [], _, _, h => by cases h
  | b :: s, n, rest, h => by
    simp only [handle_remaining_length, List.cons_append] at h ⊢
    split at h
    · cases h
    · rename_i hm
      simp only [if_neg hm]
      split at h
      · rename_i hb
        simp only [if_pos hb]
        obtain ⟨hlt, happ⟩ := lasts_remaining_bytes h
        exact ⟨Nat.lt_succ_of_lt hlt, happ⟩
      · rename_i hb
        simp only [if_neg hb]
        cases h
        exact ⟨Nat.lt_succ_self _, fun t => rfl⟩

theorem bad_remaining_bytes {v m : Nat} {e : ReadEnd} : ∀ {s : Str}, handle_remaining_length v m s = .fail e →
    ∀ t, handle_remaining_length v m (s ++ t) = .fail e
  | [], h, _ => by cases h
  | b :: s, h, t => by
    simp only [handle_remaining_length, List.cons_append] at h ⊢
    split at h
    · rename_i hm
      rw [if_pos hm]
      exact h
    · rename_i hm
      rw [if_neg hm]
      split at h
      · rename_i hb
        rw [if_pos hb]
        exact bad_remaining_bytes h t
      · cases h

theorem outcome_done {α : Type} {r : EStateM.Result Stop Cursor α} {a : α} {rest : Str} (h : outcome r = .done a rest) :
    ∃ d, r = .ok a d ∧ d.socket = rest := by
  cases r with
  | ok a' d => cases h; exact ⟨d, rfl, rfl⟩
  | error e d => cases e <;> cases h

theorem outcome_fail {α : Type} {r : EStateM.Result Stop Cursor α} {e : ReadEnd} (h : outcome r = .fail e) :
    ∃ e' d, r = .error e' d ∧ e' ≠ .more ∧ ∀ d', outcome (.error e' d' : EStateM.Result Stop Cursor α) = .fail e := by
  cases r with
  | ok a d => cases h
  | error e' d =>
    cases e' with
    | more => cases h
    | _ => exact ⟨_, d, rfl, by simp, fun d' => h⟩

section
variable {limit : Nat} {mqtt_connected : Bool} {fixed_header : UInt8} {n : Nat} {s rest : Str} {a : Incoming} {e : ReadEnd}

theorem process_payload_done (h : process_payload limit mqtt_connected fixed_header n s = .done a rest) :
    rest.length ≤ s.length ∧ ∀ t, process_payload limit mqtt_connected fixed_header n (s ++ t) = .done a (rest ++ t) := by
  unfold process_payload at h ⊢
  split at h
  · cases h
  · rename_i htype
    simp only [if_neg htype]
    obtain ⟨d, hrun, rfl⟩ := outcome_done h
    obtain ⟨hle, hmore⟩ := (lasts_process_packet mqtt_connected fixed_header _).ok hrun
    exact ⟨hle, fun t => congrArg outcome (hmore t)⟩

theorem process_payload_fail (h : process_payload limit mqtt_connected fixed_header n s = .fail e) (t : Str) :
    process_payload limit mqtt_connected fixed_header n (s ++ t) = .fail e := by
  unfold process_payload at h ⊢
  split at h
  · rename_i htype
    rw [if_pos htype, h]
  · rename_i htype
    rw [if_neg htype]
    obtain ⟨e', d, hrun, hne, hout⟩ := outcome_fail h
    obtain ⟨d', hrun'⟩ := (lasts_process_packet mqtt_connected fixed_header _).error hrun hne t
    exact (congrArg outcome hrun').trans (hout d')

theorem read_body_done (h : read_body limit mqtt_connected fixed_header n s = .done a rest) :
    rest.length ≤ s.length ∧ ∀ t, read_body limit mqtt_connected fixed_header n (s ++ t) = .done a (rest ++ t) := by
  unfold read_body at h ⊢
  split at h
  · cases h
  · rename_i hres
    simp only [if_neg hres]
    split at h
    · cases h
    · rename_i hok
      simp only [if_neg hok]
      exact process_payload_done h

theorem read_body_fail (h : read_body limit mqtt_connected fixed_header n s = .fail e) (t : Str) :
    read_body limit mqtt_connected fixed_header n (s ++ t) = .fail e := by
  unfold read_body at h ⊢
  split at h
  · rename_i hres
    rw [if_pos hres, h]
  · rename_i hres
    rw [if_neg hres]
    split at h
    · rename_i hok
      rw [if_pos hok, h]
    · rename_i hok
      rw [if_neg hok]
      exact process_payload_fail h t

end

/-- What the reader makes of a packet does not change when more of the stream arrives. -/
theorem read_packet_steady (limit : Nat) (mqtt_connected : Bool) : Steady (read_packet limit mqtt_connected) where
  nil := rfl
  done {s a rest} h := by
    cases s with
    | nil => cases h
    | cons fixed_header s =>
      simp only [read_packet, List.cons_append] at h ⊢
      cases hlen : handle_remaining_length 0 1 s with
      | more => rw [hlen] at h; cases h
      | fail e => rw [hlen] at h; cases h
      | done n body =>
        rw [hlen] at h
        obtain ⟨hlt, happ⟩ := lasts_remaining_bytes hlen
        obtain ⟨hle, hmore⟩ := read_body_done h
        exact ⟨Nat.lt_succ_of_lt (Nat.lt_of_le_of_lt hle hlt), fun t => by rw [happ]; exact hmore t⟩
  fail {s e} h t := by
    cases s with
    | nil => cases h
    | cons fixed_header s =>
      simp only [read_packet, List.cons_append] at h ⊢
      cases hlen : handle_remaining_length 0 1 s with
      | more => rw [hlen] at h; cases h
      | fail e' => rw [hlen] at h; rw [bad_remaining_bytes hlen t]; exact h
      | done n body =>
        rw [hlen] at h
        rw [(lasts_remaining_bytes hlen).2 t]
        exact read_body_fail h t

end VrpcAgent

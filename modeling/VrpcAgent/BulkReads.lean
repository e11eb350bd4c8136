import VrpcAgent.PacketReads

/-!
# Packets that are read at once

What a read comes to depends on the bytes in front of the reader only, not on how many of
them are in its buffer. So the limit below which a packet is read at once cannot be
observed.
-/

namespace VrpcAgent

open Effects StreamReader

/-! ## The front of a cursor -/

/-- The cursor stands in front of `s`; `n` bytes of it belong to the packet. -/
structure At (c : Cursor) (n : Nat) (s : Str) : Prop where
  remaining : c.remaining_length = n
  bytes : c.buf ++ c.socket = s
  ready : c.buf = [] ∨ c.buf.length = n
  enough : n ≤ s.length

/-- From every cursor in front of `s`, `x` comes to the same: an `a` that satisfies `Q` and
takes all but `n'` bytes of the packet, or an error. -/
def Comes {α : Type} (x : ReadM α) (n : Nat) (s : Str) (Q : α → Nat → Prop) : Prop :=
  (∃ a n', n' ≤ n ∧ Q a n' ∧ ∀ c, At c n s → ∃ c', x.run c = .ok a c' ∧ At c' n' (s.drop (n - n'))) ∨
    ∃ e, ∀ c, At c n s → ∃ c', x.run c = .error (.error e) c'

section
variable {α β : Type} {x : ReadM α} {f : α → ReadM β} {n : Nat} {s : Str} {Q : α → Nat → Prop} {Q' : β → Nat → Prop}

theorem comes_bind (hx : Comes x n s Q) (hf : ∀ a n', n' ≤ n → Q a n' → Comes (f a) n' (s.drop (n - n')) Q') :
    Comes (x >>= f) n s Q' := by
  rcases hx with ⟨a, n', hle, hq, hx⟩ | ⟨e, hx⟩
  · rcases hf a n' hle hq with ⟨b, m, hle', hq', hf⟩ | ⟨e, hf⟩
    · refine Or.inl ⟨b, m, Nat.le_trans hle' hle, hq', fun c hc => ?_⟩
      obtain ⟨c', hrun, hc'⟩ := hx c hc
      obtain ⟨c'', hrun', hc''⟩ := hf c' hc'
      rw [List.drop_drop, show n - n' + (n' - m) = n - m from by omega] at hc''
      exact ⟨c'', by rw [run_bind, hrun]; exact hrun', hc''⟩
    · refine Or.inr ⟨e, fun c hc => ?_⟩
      obtain ⟨c', hrun, hc'⟩ := hx c hc
      obtain ⟨c'', hrun'⟩ := hf c' hc'
      exact ⟨c'', by rw [run_bind, hrun]; exact hrun'⟩
  · refine Or.inr ⟨e, fun c hc => ?_⟩
    obtain ⟨c', hrun⟩ := hx c hc
    exact ⟨c', by rw [run_bind, hrun]; rfl⟩

theorem comes_pure {a : α} (h : Q a n) : Comes (pure a) n s Q := by
  refine Or.inl ⟨a, n, Nat.le_refl _, h, fun c hc => ⟨c, rfl, ?_⟩⟩
  rw [Nat.sub_self]
  exact hc

theorem comes_throw (e : ReadError) : Comes (throw (.error e)) n s Q := Or.inr ⟨e, fun c _ => ⟨c, rfl⟩⟩

theorem comes_remaining_length {Q : Nat → Nat → Prop} (h : Q n n) : Comes remaining_length n s Q := by
  refine Or.inl ⟨n, n, Nat.le_refl _, h, fun c hc => ⟨c, ?_, ?_⟩⟩
  · rw [run_remaining_length, hc.remaining]
  · rw [Nat.sub_self]
    exact hc

theorem comes_stop_if {p : Prop} [Decidable p] {e : ReadError} {Q : Unit → Nat → Prop} (h : ¬ p → Q () n) :
    Comes (stop_if p e) n s Q := by
  unfold stop_if
  split
  · exact comes_throw e
  · rename_i hp
    exact comes_pure (h hp)

end

/-! ## Bytes -/

theorem run_next_bytes_front {c : Cursor} (size : Nat) (h : c.buf = [] ∨ size ≤ c.buf.length)
    (hsize : size ≤ (c.buf ++ c.socket).length) : ∃ d, (next_bytes size).run c = .ok ((c.buf ++ c.socket).take size) d ∧
      d.remaining_length = c.remaining_length ∧ d.buf = c.buf.drop size ∧
        d.buf ++ d.socket = (c.buf ++ c.socket).drop size := by
  rw [run_next_bytes]
  by_cases hbuf : c.buf = []
  · rw [hbuf, List.nil_append] at hsize ⊢
    rw [if_pos rfl, run_async_read, if_neg (Nat.not_lt.mpr hsize)]
    exact ⟨_, rfl, rfl, by simp [hbuf], by simp [hbuf]⟩
  · have hle : size ≤ c.buf.length := h.resolve_left hbuf
    rw [if_neg hbuf, List.take_append_of_le_length hle, List.drop_append_of_le_length hle]
    exact ⟨_, rfl, rfl, rfl, rfl⟩

/-- `size` bytes of the packet are taken by a check of the remaining length and `next_bytes`. -/
theorem At.next_bytes {c : Cursor} {n : Nat} {s : Str} (h : At c n s) {size : Nat} (hsize : size ≤ n) :
    ∃ d, (next_bytes size).run { c with remaining_length := c.remaining_length - size } = .ok (s.take size) d ∧
      At d (n - size) (s.drop size) := by
  obtain ⟨hrem, rfl, hready, henough⟩ := h
  obtain ⟨d, hrun, hd, hbuf, hbytes⟩ := run_next_bytes_front (c := { c with remaining_length := c.remaining_length - size })
    size (hready.imp_right fun hlen => by simp only [hlen]; exact hsize) (Nat.le_trans hsize henough)
  refine ⟨d, hrun, by rw [hd, ← hrem], hbytes, ?_, ?_⟩
  · rcases hready with hnil | hlen
    · exact Or.inl (by rw [hbuf]; simp [hnil])
    · exact Or.inr (by rw [hbuf, List.length_drop]; simp only [hlen])
  · rw [List.length_drop]
    omega

theorem comes_process_nbytes {n : Nat} {s : Str} (size : Nat) {Q : Str → Nat → Prop}
    (h : size ≤ n → Q (s.take size) (n - size)) :
    Comes (process_nbytes size) n s Q := by
  by_cases hsize : size ≤ n
  · refine Or.inl ⟨s.take size, n - size, Nat.sub_le n size, h hsize, fun c hc => ?_⟩
    obtain ⟨d, hrun, hd⟩ := hc.next_bytes hsize
    refine ⟨d, ?_, by rw [Nat.sub_sub_self hsize]; exact hd⟩
    have hbuf : ¬ (0 < c.buf.length ∧ c.buf.length < size) := by
      rcases hc.ready with hnil | hlen
      · simp [hnil]
      · omega
    rw [process_nbytes, run_bind, run_remaining_length, andThen_ok, run_bind, run_stop_if,
      if_neg (Nat.not_lt.mpr (hc.remaining ▸ hsize)), andThen_ok, run_bind, run_consume, andThen_ok, run_bind, run_buffered,
      andThen_ok, run_bind, run_stop_if, if_neg hbuf]
    exact hrun
  · refine Or.inr ⟨.protocol_error, fun c hc => ⟨c, ?_⟩⟩
    rw [process_nbytes, run_bind, run_remaining_length, andThen_ok, run_bind, run_stop_if,
      if_pos (Nat.lt_of_not_le (hc.remaining ▸ hsize))]
    rfl

/-- The two bytes may be all that is in the buffer. -/
theorem run_process_fixed_length_front {c : Cursor} {n : Nat} {s : Str} (hrem : c.remaining_length = n)
    (hbytes : c.buf ++ c.socket = s) (hready : c.buf = [] ∨ c.buf.length = n ∨ c.buf.length = 2) (h2 : 2 ≤ n)
    (hn : n ≤ s.length) :
    ∃ d, process_fixed_length.run c = .ok (make_uint16_t (s.take 2)) d ∧ At d (n - 2) (s.drop 2) := by
  have hbuf : c.buf = [] ∨ 2 ≤ c.buf.length := hready.imp_right fun h => by omega
  subst hbytes
  obtain ⟨d, hrun, hd, hdbuf, hdbytes⟩ :=
    run_next_bytes_front (c := { c with remaining_length := c.remaining_length - 2 }) 2 hbuf
    (Nat.le_trans h2 hn)
  refine ⟨d, ?_, by rw [hd, ← hrem], hdbytes, ?_, ?_⟩
  · have hlen : c.buf.length ≠ 1 := by
      rcases hbuf with hnil | hlen
      · simp [hnil]
      · omega
    rw [run_process_fixed_length c (by omega) hlen, hrun]
    rfl
  · rw [hdbuf]
    rcases hready with hnil | hlen | hlen
    · exact Or.inl (by simp [hnil])
    · exact Or.inr (by simp [hlen])
    · exact Or.inl (List.drop_eq_nil_of_le (by simp [hlen]))
  · rw [List.length_drop]
    exact Nat.sub_le_sub_right hn 2

theorem comes_process_fixed_length {n : Nat} {s : Str} (hn : n ≤ s.length) {Q : Nat → Nat → Prop}
    (h : 2 ≤ n → Q (make_uint16_t (s.take 2)) (n - 2)) : Comes process_fixed_length n s Q := by
  by_cases h2 : 2 ≤ n
  · refine Or.inl ⟨_, n - 2, Nat.sub_le n 2, h h2, fun c hc => ?_⟩
    obtain ⟨d, hrun, hd⟩ := run_process_fixed_length_front hc.remaining hc.bytes (hc.ready.imp_right Or.inl) h2 hn
    exact ⟨d, hrun, by rw [Nat.sub_sub_self h2]; exact hd⟩
  · exact Or.inr ⟨.protocol_error, fun c hc => ⟨c, run_process_fixed_length_short c (hc.remaining ▸ Nat.lt_of_not_le h2)⟩⟩

section
variable {n : Nat} {s : Str}

theorem comes_process_packet_id (hn : n ≤ s.length) : Comes process_packet_id n s fun _ n' => n' + 2 ≤ n := by
  unfold process_packet_id
  refine comes_bind (comes_process_fixed_length hn (Q := fun _ n' => n' + 2 ≤ n) fun h2 => by omega) fun id n' _ hq => ?_
  exact comes_bind (comes_stop_if (Q := fun _ n' => n' + 2 ≤ n) fun _ => hq) fun _ n' _ hq => comes_pure hq

theorem comes_process_string (hn : n ≤ s.length) : Comes process_string n s fun _ n' => n' + 2 ≤ n := by
  unfold process_string process_binary
  refine comes_bind (comes_remaining_length (Q := fun _ n' => n' = n) rfl) fun m n₁ hle₁ h₁ => ?_
  subst h₁
  refine comes_bind (comes_stop_if (Q := fun _ n' => n' = n₁) fun _ => rfl) fun _ n₂ hle₂ h₂ => ?_
  subst h₂
  simp only [Nat.sub_self, List.drop_zero]
  refine comes_bind (comes_process_fixed_length hn (Q := fun _ n' => n' + 2 ≤ n₂) fun h2 => by omega)
    fun size n₃ hle₃ h₃ => ?_
  refine comes_bind (comes_remaining_length (Q := fun _ n' => n' + 2 ≤ n₂) h₃) fun m n₄ hle₄ h₄ => ?_
  refine comes_bind (comes_stop_if (Q := fun _ n' => n' + 2 ≤ n₂) fun _ => h₄) fun _ n₅ hle₅ h₅ => ?_
  exact comes_process_nbytes size fun _ => by omega

theorem comes_process_filter (hn : n ≤ s.length) : Comes process_filter n s fun _ n' => n' + 2 ≤ n := by
  unfold process_filter
  refine comes_bind (comes_process_string hn) fun filter n' _ hq => ?_
  unfold filter_entry
  split
  · exact comes_throw _
  · exact comes_pure hq

theorem comes_process_subscribe_entry (hn : n ≤ s.length) : Comes process_subscribe_entry n s fun _ n' => n' + 2 ≤ n := by
  unfold process_subscribe_entry
  refine comes_bind (comes_process_filter hn) fun entry n₁ _ h₁ => ?_
  refine comes_bind (comes_process_nbytes 1 (Q := fun _ n' => n' + 2 ≤ n) fun _ => by omega) fun options n₂ _ h₂ => ?_
  exact comes_bind (comes_stop_if (Q := fun _ n' => n' + 2 ≤ n) fun _ => h₂) fun _ n₃ _ h₃ => comes_pure h₃

/-- The loop ends at the end of the packet. -/
theorem comes_process_entries {α : Type} {process_entry : ReadM α}
    (h : ∀ n s, n ≤ s.length → Comes process_entry n s fun _ n' => n' + 2 ≤ n) :
    ∀ (fuel n : Nat) (s : Str), n ≤ s.length → n < fuel → Comes (process_entries process_entry fuel) n s fun _ n' => n' = 0
  | fuel + 1, n, s, hn, hfuel => by
    unfold process_entries
    refine comes_bind (h n s hn) fun entry n₁ hle₁ h₁ => ?_
    refine comes_bind (comes_remaining_length (Q := fun m n' => m = n₁ ∧ n' = n₁) ⟨rfl, rfl⟩) fun m n₂ _ h₂ => ?_
    obtain ⟨rfl, rfl⟩ := h₂
    split
    · rename_i h0
      exact comes_pure h0
    · refine comes_bind (comes_process_entries h fuel _ _ ?_ (by omega)) fun entries n₃ _ h₃ => comes_pure h₃
      simp only [List.length_drop]
      omega

end

/-! ## Whole packets -/

/-- Read at once or not, what follows the fixed header comes to the same. -/
def Settles (x : Bool → ReadM Incoming) (n : Nat) (s : Str) : Prop :=
  (∃ a, ∀ all_read, outcome ((x all_read).run ⟨n, [], s⟩) = .done a (s.drop n)) ∨
    ∃ e, ∀ all_read, outcome ((x all_read).run ⟨n, [], s⟩) = .fail (.error e)

section
variable {n : Nat} {s : Str}

theorem At.finished {c : Cursor} (h : At c 0 s) : c.socket = s := by
  have hbuf : c.buf = [] := h.ready.elim id List.eq_nil_of_length_eq_zero
  rw [← h.bytes, hbuf, List.nil_append]

/-- Where `start` leads does not depend on how much it reads, and the rest takes the packet to its end. -/
theorem settles_bind {α : Type} {start : Bool → ReadM α} {f : α → ReadM Incoming}
    (hstart : (∃ a n', n' ≤ n ∧ Comes (f a) n' (s.drop (n - n')) (fun _ n' => n' = 0) ∧
        ∀ all_read, ∃ c, (start all_read).run ⟨n, [], s⟩ = .ok a c ∧ At c n' (s.drop (n - n'))) ∨
      ∃ e, ∀ all_read, ∃ c, (start all_read).run ⟨n, [], s⟩ = .error (.error e) c) :
        Settles (fun b => start b >>= f) n s := by
  rcases hstart with ⟨a, n', hle, hf, hstart⟩ | ⟨e, hstart⟩
  · rcases hf with ⟨b, m, hle', rfl, hf⟩ | ⟨e, hf⟩
    · refine Or.inl ⟨b, fun all_read => ?_⟩
      obtain ⟨c, hrun, hc⟩ := hstart all_read
      obtain ⟨d, hrun', hd⟩ := hf c hc
      rw [List.drop_drop, show n - n' + (n' - 0) = n from by omega] at hd
      rw [run_bind, hrun, andThen_ok, hrun', ← hd.finished]
      rfl
    · refine Or.inr ⟨e, fun all_read => ?_⟩
      obtain ⟨c, hrun, hc⟩ := hstart all_read
      obtain ⟨d, hrun'⟩ := hf c hc
      rw [run_bind, hrun, andThen_ok, hrun']
      rfl
  · refine Or.inr ⟨e, fun all_read => ?_⟩
    obtain ⟨c, hrun⟩ := hstart all_read
    rw [run_bind, hrun]
    rfl

/-- The packet as a whole, a part of it, or nothing is in the buffer. -/
theorem run_process_start (h2 : 2 ≤ n) (hn : n ≤ s.length) (all_read : Bool) (header_len : Nat) (hlen : header_len ≤ 2) :
    ∃ c, (process_start all_read header_len).run ⟨n, [], s⟩ = .ok () c ∧ c.remaining_length = n ∧ c.buf ++ c.socket = s ∧
      (c.buf = [] ∨ c.buf.length = n ∨ c.buf.length = header_len) := by
  have hstart : (process_start all_read header_len).run ⟨n, [], s⟩ =
      andThen ((read_header all_read header_len n).run ⟨n, [], s⟩) fun buf => modify fun c => { c with buf } := by
    rw [process_start, run_bind, run_remaining_length, andThen_ok, run_bind, run_stop_if, if_neg (Nat.not_lt.mpr h2),
      andThen_ok,
      process_header, run_bind, run_remaining_length, andThen_ok, run_bind]
  rw [hstart]
  unfold read_header
  by_cases hall : all_read = true
  · rw [if_pos hall, run_async_read, if_neg (Nat.not_lt.mpr hn)]
    exact ⟨_, rfl, rfl, List.take_append_drop n s, Or.inr (Or.inl (List.length_take_of_le hn))⟩
  · rw [if_neg hall]
    by_cases hh : header_len = 0
    · rw [if_pos hh]
      exact ⟨_, rfl, rfl, rfl, Or.inl rfl⟩
    · have hs : header_len ≤ s.length := Nat.le_trans hlen (Nat.le_trans h2 hn)
      rw [if_neg hh, run_async_read, if_neg (Nat.not_lt.mpr hs)]
      exact ⟨_, rfl, rfl, List.take_append_drop header_len s, Or.inr (Or.inr (List.length_take_of_le hs))⟩

theorem run_process_start_short (h2 : n < 2) (all_read : Bool) (header_len : Nat) :
    (process_start all_read header_len).run ⟨n, [], s⟩ = .error (.error .protocol_error) ⟨n, [], s⟩ := by
  rw [process_start, run_bind, run_remaining_length, andThen_ok, run_bind, run_stop_if, if_pos h2]
  rfl

theorem settles_process_publish (hn : n ≤ s.length) (fixed_header : UInt8) : Settles (process_publish fixed_header) n s := by
  unfold process_publish
  apply settles_bind
  by_cases h2 : 2 ≤ n
  · refine Or.inl ⟨(), n, Nat.le_refl n, ?_, fun all_read => ?_⟩
    · rw [Nat.sub_self, List.drop_zero]
      refine comes_bind (comes_process_string hn) fun topic n₁ hle₁ _ => ?_
      refine comes_bind (comes_stop_if (Q := fun _ _ => True) fun _ => trivial) fun _ n₂ hle₂ _ => ?_
      refine comes_bind (Q := fun _ _ => True) ?_ fun id n₃ hle₃ _ => ?_
      · unfold publish_packet_id
        split
        · exact comes_pure trivial
        · rw [map_eq_pure_bind]
          refine comes_bind (comes_process_packet_id ?_) fun id n₃ _ _ => comes_pure trivial
          simp only [List.length_drop]
          omega
      · refine comes_bind (comes_remaining_length (Q := fun m n' => m = n') rfl) fun m n₄ hle₄ h₄ => ?_
        subst h₄
        exact comes_bind (comes_process_nbytes m (Q := fun _ n' => n' = 0) fun _ => Nat.sub_self m)
          fun contents n₅ _ h₅ => comes_pure h₅
    · obtain ⟨c, hrun, hrem, hbytes, hready⟩ := run_process_start h2 hn all_read 0 (Nat.zero_le 2)
      have hbuf : c.buf = [] ∨ c.buf.length = n := by
        rcases hready with h | h | h
        · exact Or.inl h
        · exact Or.inr h
        · exact Or.inl (List.eq_nil_of_length_eq_zero h)
      rw [Nat.sub_self, List.drop_zero]
      exact ⟨c, hrun, hrem, hbytes, hbuf, hn⟩
  · exact Or.inr ⟨.protocol_error, fun all_read => ⟨_, run_process_start_short (Nat.lt_of_not_le h2) all_read 0⟩⟩

theorem settles_process_id (hn : n ≤ s.length) {f : Nat → ReadM Incoming}
    (hf : ∀ id, 2 ≤ n → Comes (f id) (n - 2) (s.drop 2) fun _ n' => n' = 0) : Settles (fun b => process_id b >>= f) n s := by
  apply settles_bind
  by_cases h2 : 2 ≤ n
  · have hid : ∀ all_read, ∃ c, (process_id all_read).run ⟨n, [], s⟩ =
        andThen (.ok (make_uint16_t (s.take 2)) c) (fun id => do stop_if (id = 0) .protocol_error; return id) ∧
          At c (n - 2) (s.drop 2) := by
      intro all_read
      obtain ⟨c, hrun, hrem, hbytes, hready⟩ := run_process_start h2 hn all_read 2 (Nat.le_refl 2)
      obtain ⟨d, hrun', hd⟩ := run_process_fixed_length_front hrem hbytes hready h2 hn
      exact ⟨d, by rw [process_id, run_bind, hrun, andThen_ok, process_packet_id, run_bind, hrun'], hd⟩
    by_cases h0 : make_uint16_t (s.take 2) = 0
    · refine Or.inr ⟨.protocol_error, fun all_read => ?_⟩
      obtain ⟨c, hrun, -⟩ := hid all_read
      exact ⟨c, by rw [hrun, andThen_ok, run_bind, run_stop_if, if_pos h0]; rfl⟩
    · refine Or.inl ⟨make_uint16_t (s.take 2), n - 2, Nat.sub_le n 2, ?_, fun all_read => ?_⟩
      · rw [Nat.sub_sub_self h2]
        exact hf _ h2
      · obtain ⟨c, hrun, hc⟩ := hid all_read
        rw [Nat.sub_sub_self h2]
        exact ⟨c, by rw [hrun, andThen_ok, run_bind, run_stop_if, if_neg h0]; rfl, hc⟩
  · refine Or.inr ⟨.protocol_error, fun all_read => ?_⟩
    exact ⟨_, by rw [process_id, run_bind, run_process_start_short (Nat.lt_of_not_le h2)]; rfl⟩

theorem settles_process_connack (h : n = 2) (hn : n ≤ s.length) : Settles process_connack n s := by
  subst h
  have hrun : ∀ all_read, (process_connack all_read).run ⟨2, [], s⟩ =
      .ok (.connack ((s.take 2).getD 0 0 &&& 0x01 ≠ 0) ((s.take 2).getD 1 0)) ⟨2, [], s.drop 2⟩ := by
    intro all_read
    have hread : read_header all_read 2 2 = async_read 2 := by cases all_read <;> rfl
    rw [process_connack, run_bind, process_start, run_bind, run_remaining_length, andThen_ok, run_bind, run_stop_if,
      if_neg (Nat.lt_irrefl 2), andThen_ok, process_header, run_bind, run_remaining_length, andThen_ok, run_bind, hread,
      run_async_read, if_neg (Nat.not_lt.mpr hn)]
    show EStateM.Result.ok _ (Cursor.mk 2 ((s.take 2).drop 2) (s.drop 2)) = _
    rw [List.drop_eq_nil_of_le (List.length_take_le 2 s)]
  exact Or.inl ⟨_, fun all_read => by rw [hrun]; rfl⟩

theorem settles_pure (h : n = 0) (a : Incoming) : Settles (fun _ => pure a) n s :=
  Or.inl ⟨a, fun _ => by subst h; rfl⟩

theorem length_ok_fixed {v : UInt8} (hok : length_ok v n = true) (h10 : get_control_packet_type v ≠ 0x10)
    (h30 : get_control_packet_type v ≠ 0x30) (h80 : get_control_packet_type v ≠ 0x80) (h90 : get_control_packet_type v ≠ 0x90)
    (hA0 : get_control_packet_type v ≠ 0xA0) :
    if get_control_packet_type v = 0xC0 ∨ get_control_packet_type v = 0xD0 ∨ get_control_packet_type v = 0xE0 then n = 0
    else n = 2 := by
  unfold length_ok at hok
  simp only [h10, h30, h80, h90, hA0, or_self, if_false] at hok
  split
  · rename_i h
    simpa [h] using hok
  · rename_i h
    by_cases hF0 : get_control_packet_type v = 0xF0
    · simp [hF0] at hok
    · simpa [h, hF0] using hok

theorem settles_process_connected (hn : n ≤ s.length) {v : UInt8} (hok : length_ok v n = true)
    (h10 : get_control_packet_type v ≠ 0x10) (hE0 : get_control_packet_type v ≠ 0xE0) :
    Settles (process_connected v) n s := by
  have hrest : n - 2 ≤ (s.drop 2).length := by rw [List.length_drop]; omega
  have hentries : ∀ {α : Type} {entry : ReadM α} {f : List α → Incoming},
    (∀ n s, n ≤ s.length → Comes entry n s fun _ n' => n' + 2 ≤ n) →
      Comes (do let entries ← process_entries entry ((← remaining_length) + 1); return f entries) (n - 2)
        (s.drop 2) fun _ n' => n' = 0 := by
    intro α entry f h
    refine comes_bind (comes_remaining_length (Q := fun m n' => m = n - 2 ∧ n' = n - 2) ⟨rfl, rfl⟩) fun m n₁ _ h₁ => ?_
    obtain ⟨rfl, rfl⟩ := h₁
    rw [Nat.sub_self, List.drop_zero]
    exact comes_bind (comes_process_entries h _ _ _ hrest (Nat.lt_succ_self _)) fun _ _ _ h₂ => comes_pure h₂
  unfold process_connected
  by_cases h30 : get_control_packet_type v = 0x30
  · simp only [h30]
    exact settles_process_publish hn v
  by_cases h80 : get_control_packet_type v = 0x80
  · simp only [h80]
    exact settles_process_id hn fun _ _ => hentries fun n s => comes_process_subscribe_entry
  by_cases h90 : get_control_packet_type v = 0x90
  · simp only [h90]
    refine settles_process_id hn fun _ _ => ?_
    refine comes_bind (comes_remaining_length (Q := fun m n' => m = n') rfl) fun m n₁ _ h₁ => ?_
    subst h₁
    exact comes_bind (comes_process_nbytes m (Q := fun _ n' => n' = 0) fun _ => Nat.sub_self m) fun _ _ _ h₂ => comes_pure h₂
  by_cases hA0 : get_control_packet_type v = 0xA0
  · simp only [hA0]
    exact settles_process_id hn fun _ _ => hentries fun n s => comes_process_filter
  have hlen := length_ok_fixed hok h10 h30 h80 h90 hA0
  simp only [h30, h80, h90, hA0, if_false]
  by_cases hC0 : get_control_packet_type v = 0xC0
  · simp only [hC0] at hlen ⊢
    exact settles_pure (by simpa using hlen) _
  by_cases hD0 : get_control_packet_type v = 0xD0
  · simp only [hD0] at hlen ⊢
    exact settles_pure (by simpa using hlen) _
  simp only [hC0, hD0, hE0, or_self, if_false] at hlen ⊢
  exact settles_process_id hn fun _ _ => comes_pure (by omega)

theorem settles_process_packet (hn : n ≤ s.length) {v : UInt8} (hok : length_ok v n = true)
    (h10 : get_control_packet_type v ≠ 0x10) (hE0 : get_control_packet_type v ≠ 0xE0) (mqtt_connected : Bool) :
    Settles (process_packet mqtt_connected v) n s := by
  unfold process_packet
  simp only [if_neg h10]
  by_cases h20 : get_control_packet_type v = 0x20
  · have hlen : n = 2 := by simpa [length_ok, h20] using hok
    simp only [if_pos h20]
    exact settles_process_connack hlen hn
  · simp only [if_neg h20]
    cases mqtt_connected with
    | true => exact settles_process_connected hn hok h10 hE0
    | false => exact Or.inr ⟨.protocol_error, fun _ => rfl⟩

end

/-! ## The limit -/

theorem connect_header :
    ∀ v : UInt8, reserved_ok v = true → get_control_packet_type v = 0x10 → v = 0x10 := forall_byte (by decide +kernel)

/-- What a body that has arrived comes to, whatever the limit. -/
theorem read_body_settles {n : Nat} {s : Str} (hn : n ≤ s.length) {v : UInt8} (hv : v ≠ 0x10) (mqtt_connected : Bool) :
    (∃ a, ∀ limit, read_body limit mqtt_connected v n s = .done a (s.drop n)) ∨
      (∀ limit, read_body limit mqtt_connected v n s = .fail .disconnect) ∨
      ∃ e, ∀ limit, read_body limit mqtt_connected v n s = .fail (.error e) := by
  by_cases hres : reserved_ok v = false
  · exact Or.inr (Or.inr ⟨_, fun limit => by rw [read_body, if_pos hres]⟩)
  by_cases hok : length_ok v n = false
  · exact Or.inr (Or.inr ⟨_, fun limit => by rw [read_body, if_neg hres, if_pos hok]⟩)
  by_cases hE0 : get_control_packet_type v = 0xE0
  · refine Or.inr (Or.inl fun limit => ?_)
    rw [read_body, if_neg hres, if_neg hok, process_payload, if_pos hE0]
  have hbody : ∀ limit, read_body limit mqtt_connected v n s =
      outcome ((process_packet mqtt_connected v (n < limit)).run ⟨n, [], s⟩) := by
    intro limit
    rw [read_body, if_neg hres, if_neg hok, process_payload, if_neg hE0]
  simp only [Bool.not_eq_false] at hres hok
  rcases settles_process_packet hn hok (fun h => hv (connect_header v hres h)) hE0 mqtt_connected with ⟨a, h⟩ | ⟨e, h⟩
  · exact Or.inl ⟨a, fun limit => by rw [hbody, h]⟩
  · exact Or.inr (Or.inr ⟨e, fun limit => by rw [hbody, h]⟩)

theorem read_body_limit {n : Nat} {s : Str} (hn : n ≤ s.length) (limit limit' : Nat) {v : UInt8} (hv : v ≠ 0x10)
    (mqtt_connected : Bool) : read_body limit mqtt_connected v n s = read_body limit' mqtt_connected v n s ∧
      ∀ a rest, read_body limit mqtt_connected v n s = .done a rest → rest = s.drop n := by
  rcases read_body_settles hn hv mqtt_connected with ⟨a, h⟩ | h | ⟨e, h⟩
  · rw [h, h]
    refine ⟨rfl, fun a' rest hdone => ?_⟩
    cases hdone
    rfl
  · rw [h, h]
    refine ⟨rfl, fun a rest hdone => ?_⟩
    cases hdone
  · rw [h, h]
    refine ⟨rfl, fun a rest hdone => ?_⟩
    cases hdone

/-- A packet that was taken had arrived as a whole. -/
theorem whole_of_read_body {limit : Nat} {mqtt_connected : Bool} {v : UInt8} (hv : v ≠ 0x10) {n : Nat} {s rest : Str}
    {a : Incoming}
    (h : read_body limit mqtt_connected v n s = .done a rest) : n ≤ s.length := by
  rcases Nat.le_total n s.length with hn | hn
  · exact hn
  have hlen : (s ++ List.replicate (n - s.length) 0).length = n := by
    rw [List.length_append, List.length_replicate]
    omega
  have hdone := (read_body_done h).2 (List.replicate (n - s.length) 0)
  have hrest := (read_body_limit (Nat.le_of_eq hlen.symm) limit limit hv mqtt_connected).2 a _ hdone
  rw [List.drop_eq_nil_of_le (Nat.le_of_eq hlen)] at hrest
  have hzero := congrArg List.length (List.append_eq_nil_iff.mp hrest).2
  rw [List.length_replicate, List.length_nil] at hzero
  omega

theorem remaining_length_lt : ∀ {s : Str} {v m n : Nat} {rest : Str}, v < m → handle_remaining_length v m s = .done n rest →
    n < 128 * 128 * 128 * 128
  | [], _, _, _, _, _, h => nomatch h
  | b :: s, v, m, n, rest, hv, h => by
    have hb : (b &&& 0x7f).toNat ≤ 127 := by
      rw [UInt8.toNat_and]
      exact Nat.and_le_right
    have hlt : v + (b &&& 0x7f).toNat * m < m * 128 := by
      have hmul : (b &&& 0x7f).toNat * m ≤ 127 * m := Nat.mul_le_mul_right m hb
      omega
    unfold handle_remaining_length at h
    simp only at h
    split at h
    · cases h
    · rename_i hm
      split at h
      · exact remaining_length_lt hlt h
      · cases h
        omega

def max_packet_size : Nat := 128 * 128 * 128 * 128

def NotConnect (s : Str) : Prop := s.head? ≠ some 0x10

theorem not_connect_cons {v : UInt8} {s : Str} : NotConnect (v :: s) ↔ v ≠ 0x10 := by simp [NotConnect]

theorem read_packet_follows (limit limit' : Nat) (mqtt_connected : Bool) :
    Follows NotConnect (read_packet limit' mqtt_connected) (read_packet limit mqtt_connected) max_packet_size where
  done {s a rest} hs h := by
    cases s with
    | nil => cases h
    | cons v s =>
      rw [not_connect_cons] at hs
      simp only [read_packet] at h ⊢
      cases hlen : handle_remaining_length 0 1 s with
      | more => rw [hlen] at h; cases h
      | fail e => rw [hlen] at h; cases h
      | done n body =>
        rw [hlen] at h
        show read_body limit' mqtt_connected v n body = .done a rest
        rw [(read_body_limit (whole_of_read_body hs h) limit' limit hs mqtt_connected).1]
        exact h
  fail {s e} hs h t ht := by
    cases s with
    | nil => cases h
    | cons v s =>
      rw [not_connect_cons] at hs
      simp only [read_packet, List.cons_append] at h ⊢
      cases hlen : handle_remaining_length 0 1 s with
      | more => rw [hlen] at h; cases h
      | fail e' => rw [hlen] at h; rw [bad_remaining_bytes hlen t]; exact h
      | done n body =>
        rw [hlen] at h
        rw [(lasts_remaining_bytes hlen).2 t]
        have hn : n ≤ (body ++ t).length := by
          have hlt : n < max_packet_size := remaining_length_lt Nat.one_pos hlen
          rw [List.length_append]
          omega
        show read_body limit' mqtt_connected v n (body ++ t) = .fail e
        rw [(read_body_limit hn limit' limit hs mqtt_connected).1]
        exact read_body_fail h t

/-- What has been taken from a stream that arrived in these chunks on an accepted connection, and
what is left. -/
def received (limit : Nat) (chunks : List Str) : List Incoming × Rest ReadEnd UInt8 :=
  chunks.foldl (feed (read_packet limit true)) ([], .waiting [])

theorem received_eq (limit : Nat) (chunks : List Str) :
    received limit chunks = read (read_packet limit true) chunks.flatten :=
  feed_all (read_packet_steady limit true) chunks

def WithoutConnect (limit : Nat) (s : Str) : Prop := Throughout NotConnect (read_packet limit true) s

/-- **Reading at once cannot be observed**, nor where the stream is cut. An end that one reader
comes to is come to by the other too, once the packet it is in has arrived. -/
theorem bulk_reads_agree (limit limit' : Nat) {chunks chunks' : List Str} (hchunks : chunks'.flatten = chunks.flatten)
    (hnone : WithoutConnect limit chunks.flatten) : (received limit' chunks').1 = (received limit chunks).1 ∧
    ∀ e, (received limit chunks).2 = .failed e → ∀ t, max_packet_size ≤ t.length →
      received limit' (chunks' ++ [t]) = ((received limit chunks).1, .failed e) := by
  obtain ⟨hitems, hfail⟩ := read_follows (read_packet_steady limit true) (read_packet_steady limit' true)
    (read_packet_follows limit limit' true) (read_packet_follows limit' limit true) hnone
  rw [received_eq, received_eq, hchunks]
  refine ⟨hitems, fun e he t ht => ?_⟩
  rw [received_eq, List.flatten_append, hchunks, List.flatten_singleton]
  exact hfail e he t ht

def late_publish : Str := [0x30, 5, 0, 1, 116, 120, 121]

theorem late_publish_alone : WithoutConnect 256 late_publish :=
  throughout_cons rfl (by simp [NotConnect, late_publish]) (throughout_end (fun _ _ h => by cases h) (by simp [NotConnect]))

/-- A PUBLISH packet whose second half is late. -/
theorem late_publish_agrees :
    (received 0 [[0x30, 5, 0, 1, 116], [120, 121]]).1 = (received 256 [late_publish]).1 ∧
    ∀ e, (received 256 [late_publish]).2 = .failed e → ∀ t, max_packet_size ≤ t.length →
      received 0 ([[0x30, 5, 0, 1, 116], [120, 121]] ++ [t]) = ((received 256 [late_publish]).1, .failed e) :=
  bulk_reads_agree 256 0 rfl late_publish_alone

end VrpcAgent

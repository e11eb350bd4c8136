import VrpcAgent.PacketRoundTrip

/-!
# The grammar of the packets

What a packet is, byte by byte, and that an endpoint takes exactly these packets from the
stream: it refuses no packet of the grammar, and calls no handler for anything else.
-/

namespace VrpcAgent

open Effects StreamReader

/-! ## The grammar -/

def PacketIdentifier (bs : Str) (id : Nat) : Prop := 0 < id ∧ id < 65536 ∧ bs = num_to_2bytes id

def Utf8String (bs s : Str) : Prop := s.length < 65536 ∧ bs = utf8string s

inductive SharedFilter : Str → Str × Str → Prop where
  | plain {f : Str} (h : ¬ lit "$share/" <+: f) : SharedFilter f ([], f)
  | shared {name f : Str} (hname : name ≠ []) (hslash : 47 ∉ name) (hf : f ≠ []) :
    SharedFilter (lit "$share/" ++ name ++ 47 :: f) (name, f)

def FilterEntry (bs : Str) (entry : Str × Str) : Prop := ∃ f, Utf8String bs f ∧ SharedFilter f entry

inductive SubscribeGrammar : Str → SubscribeEntry → Prop where
  | mk {bs : Str} {e : Str × Str} {options : UInt8} (hf : FilterEntry bs e) (ho : options &&& 0x03 ≠ 3) :
    SubscribeGrammar (bs ++ [options]) ⟨e.1, e.2, options⟩

inductive Entries {α : Type} (G : Str → α → Prop) : Str → List α → Prop where
  | last {bs : Str} {a : α} (h : G bs a) : Entries G bs [a]
  | more {bs bs' : Str} {a : α} {as : List α} (h : G bs a) (hs : Entries G bs' as) : Entries G (bs ++ bs') (a :: as)

inductive PublishIdentifier (qos_value : UInt8) : Str → Option Nat → Prop where
  | none (h : qos_value = 0) : PublishIdentifier qos_value [] none
  | some {bs : Str} {id : Nat} (h : qos_value ≠ 0) (hid : PacketIdentifier bs id) : PublishIdentifier qos_value bs (some id)

/-- The fixed headers, and what follows the remaining length, of all packets but CONNECT and
DISCONNECT. -/
inductive Body : UInt8 → Str → Incoming → Prop where
  | connack (flags code : UInt8) : Body 0x20 [flags, code] (.connack (flags &&& 0x01 ≠ 0) code)
  | publish {v : UInt8} {bs ids topic_name contents : Str} {id : Option Nat} (hv : get_control_packet_type v = 0x30)
    (ht : Utf8String bs topic_name) (hqos : get_qos v ≠ 3) (hid : PublishIdentifier (get_qos v) ids id) :
    Body v (bs ++ (ids ++ contents)) (.publish id v topic_name contents)
  | ack {v : UInt8} {bs : Str} {id : Nat} (hv : v ∈ [0x40, 0x50, 0x62, 0x70, 0xB0]) (hid : PacketIdentifier bs id) :
    Body v bs (.ack (get_control_packet_type v) id)
  | subscribe {ids bs : Str} {id : Nat} {entries : List SubscribeEntry} (hid : PacketIdentifier ids id)
    (h : Entries SubscribeGrammar bs entries) : Body 0x82 (ids ++ bs) (.subscribe id entries)
  | suback {ids results : Str} {id : Nat} (hid : PacketIdentifier ids id) : Body 0x90 (ids ++ results) (.suback id results)
  | unsubscribe {ids bs : Str} {id : Nat} {entries : List (Str × Str)} (hid : PacketIdentifier ids id)
    (h : Entries FilterEntry bs entries) : Body 0xA2 (ids ++ bs) (.unsubscribe id entries)
  | pingreq : Body 0xC0 [] .pingreq
  | pingresp : Body 0xD0 [] .pingresp

/-- Seven bits a byte, the lowest first; all but the last byte have the highest bit set. -/
inductive RemainingLength : Nat → Str → Nat → Prop where
  | last {k : Nat} {b : UInt8} (h : b &&& 0x80 = 0) : RemainingLength (k + 1) [b] (b &&& 0x7f).toNat
  | more {k : Nat} {b : UInt8} {bs : Str} {n : Nat} (h : b &&& 0x80 ≠ 0) (hs : RemainingLength k bs n) :
    RemainingLength (k + 1) (b :: bs) ((b &&& 0x7f).toNat + n * 128)

inductive PacketBytes : Str → Incoming → Prop where
  | mk {v : UInt8} {lens body : Str} {p : Incoming} (hlen : RemainingLength 4 lens body.length) (hbody : Body v body p) :
    PacketBytes (v :: (lens ++ body)) p

inductive DisconnectBytes : Str → Prop where
  | mk {lens : Str} (hlen : RemainingLength 4 lens 0) : DisconnectBytes (0xE0 :: lens)

/-! ## The remaining length -/

theorem handle_remaining_length_done : ∀ {k v m : Nat} {s : Str} {n : Nat} {rest : Str}, m * 128 ^ k = 128 * 128 * 128 * 128 →
    (handle_remaining_length v m s = .done n rest ↔ ∃ bs l, s = bs ++ rest ∧ RemainingLength k bs l ∧ n = v + l * m)
  | k, v, m, [], n, rest, hm => by
    constructor
    · intro h
      cases h
    · rintro ⟨bs, l, hs, hl, -⟩
      cases hl <;> simp at hs
  | 0, v, m, b :: s, n, rest, hm => by
    have hbig : 128 * 128 * 128 * 128 < m * 128 := by omega
    rw [handle_remaining_length, if_pos hbig]
    constructor
    · intro h
      cases h
    · rintro ⟨bs, l, -, hl, -⟩
      cases hl
  | k + 1, v, m, b :: s, n, rest, hm => by
    have hnext : m * 128 * 128 ^ k = 128 * 128 * 128 * 128 := by rw [← hm]; ring
    have hsmall : m * 128 ≤ 128 * 128 * 128 * 128 := by
      rw [← hnext]
      exact Nat.le_mul_of_pos_right _ (Nat.pow_pos (by decide))
    rw [handle_remaining_length, if_neg (Nat.not_lt.mpr hsmall)]
    by_cases hb : b &&& 0x80 = 0
    · rw [if_neg (not_not.mpr hb)]
      constructor
      · intro h
        cases h
        exact ⟨[b], _, rfl, .last hb, rfl⟩
      · rintro ⟨bs, l, hs, hl, rfl⟩
        cases hl with
        | last _ => cases hs; rfl
        | more hmore _ => cases hs; exact absurd hb hmore
    · rw [if_pos hb, handle_remaining_length_done hnext]
      constructor
      · rintro ⟨bs, l, rfl, hl, rfl⟩
        exact ⟨b :: bs, _, rfl, .more hb hl, by ring⟩
      · rintro ⟨bs, l, hs, hl, rfl⟩
        cases hl with
        | last hlast => cases hs; exact absurd hlast hb
        | more _ hl => cases hs; exact ⟨_, _, rfl, hl, by ring⟩

/-! ## Parts of a packet -/

def Parses {α : Type} (x : ReadM α) (G : Str → α → Prop) : Prop := ∀ n s a d,
  x.run ⟨n, [], s⟩ = .ok a d ↔ ∃ bs t k, s = bs ++ t ∧ n = bs.length + k ∧ G bs a ∧ d = ⟨k, [], t⟩

def Takes {α : Type} (x : ReadM α) (G : Str → α → Prop) : Prop := ∀ n s a d,
  x.run ⟨n, [], s⟩ = .ok a d ↔ ∃ bs t, s = bs ++ t ∧ n = bs.length ∧ G bs a ∧ d = ⟨0, [], t⟩

def Seq {α β : Type} (G : Str → α → Prop) (H : α → Str → β → Prop) (bs : Str) (b : β) : Prop :=
  ∃ bs₁ a bs₂, bs = bs₁ ++ bs₂ ∧ G bs₁ a ∧ H a bs₂ b

theorem run_bind_ok {α β : Type} {x : ReadM α} {f : α → ReadM β} {c d : Cursor} {b : β} :
    (x >>= f).run c = .ok b d ↔ ∃ a e, x.run c = .ok a e ∧ (f a).run e = .ok b d := by
  rw [run_bind]
  cases x.run c <;> simp

section
variable {α β : Type} {x : ReadM α} {f : α → ReadM β} {G G' : Str → α → Prop} {H : α → Str → β → Prop}

theorem parses_congr (h : Parses x G) (hG : ∀ bs a, G bs a ↔ G' bs a) : Parses x G' := by
  intro n s a d
  rw [h n s a d]
  simp only [hG]

theorem parses_bind (hx : Parses x G) (hf : ∀ a, Parses (f a) (H a)) : Parses (x >>= f) (Seq G H) := by
  intro n s b d
  rw [run_bind_ok]
  constructor
  · rintro ⟨a, e, hrun, hrun'⟩
    obtain ⟨bs₁, t, k, rfl, rfl, hG, rfl⟩ := (hx n s a e).mp hrun
    obtain ⟨bs₂, t, k, rfl, rfl, hH, rfl⟩ := (hf a _ _ b d).mp hrun'
    exact ⟨bs₁ ++ bs₂, t, k, by simp, by simp [Nat.add_assoc], ⟨bs₁, a, bs₂, rfl, hG, hH⟩, rfl⟩
  · rintro ⟨bs, t, k, rfl, rfl, ⟨bs₁, a, bs₂, rfl, hG, hH⟩, rfl⟩
    refine ⟨a, _, (hx _ _ a _).mpr ⟨bs₁, bs₂ ++ t, bs₂.length + k, by simp, by simp [Nat.add_assoc], hG, rfl⟩, ?_⟩
    exact (hf a _ _ b _).mpr ⟨bs₂, t, k, rfl, rfl, hH, rfl⟩

theorem takes_bind (hx : Parses x G) (hf : ∀ a, Takes (f a) (H a)) : Takes (x >>= f) (Seq G H) := by
  intro n s b d
  rw [run_bind_ok]
  constructor
  · rintro ⟨a, e, hrun, hrun'⟩
    obtain ⟨bs₁, t, k, rfl, rfl, hG, rfl⟩ := (hx n s a e).mp hrun
    obtain ⟨bs₂, t, rfl, rfl, hH, rfl⟩ := (hf a _ _ b d).mp hrun'
    exact ⟨bs₁ ++ bs₂, t, by simp, by simp, ⟨bs₁, a, bs₂, rfl, hG, hH⟩, rfl⟩
  · rintro ⟨bs, t, rfl, rfl, ⟨bs₁, a, bs₂, rfl, hG, hH⟩, rfl⟩
    refine ⟨a, _, (hx _ _ a _).mpr ⟨bs₁, bs₂ ++ t, bs₂.length, by simp, by simp, hG, rfl⟩, ?_⟩
    exact (hf a _ _ b _).mpr ⟨bs₂, t, rfl, rfl, hH, rfl⟩

/-- What is done with the last part. -/
theorem takes_map (hx : Takes x G) (g : α → β) : Takes (do let a ← x; return g a) fun bs b => ∃ a, G bs a ∧ b = g a := by
  intro n s b d
  rw [run_bind_ok]
  constructor
  · rintro ⟨a, e, hrun, hrun'⟩
    cases hrun'
    obtain ⟨bs, t, rfl, rfl, hG, rfl⟩ := (hx n s a _).mp hrun
    exact ⟨bs, t, rfl, rfl, ⟨a, hG, rfl⟩, rfl⟩
  · rintro ⟨bs, t, rfl, rfl, ⟨a, hG, rfl⟩, rfl⟩
    exact ⟨a, _, (hx _ _ a _).mpr ⟨bs, t, rfl, rfl, hG, rfl⟩, rfl⟩

theorem parses_pure (a : α) : Parses (pure a) fun bs b => bs = [] ∧ b = a := by
  intro n s b d
  constructor
  · intro h
    cases h
    exact ⟨[], s, n, rfl, by simp, ⟨rfl, rfl⟩, rfl⟩
  · rintro ⟨bs, t, k, rfl, rfl, ⟨rfl, rfl⟩, rfl⟩
    simp [EStateM.run_pure]

theorem parses_stop_if (p : Prop) [Decidable p] (e : ReadError) : Parses (stop_if p e) fun bs _ => bs = [] ∧ ¬ p := by
  intro n s b d
  rw [run_stop_if]
  by_cases hp : p
  · simp [hp]
  · simp only [hp, if_false, not_false_eq_true, and_true]
    constructor
    · intro h
      cases h
      exact ⟨[], s, n, rfl, by simp, rfl, rfl⟩
    · rintro ⟨bs, t, k, rfl, rfl, rfl, rfl⟩
      simp

/-- A check of the remaining length that what is derived passes anyway. -/
theorem parses_guard (m : Nat) (e : ReadError) (hx : Parses x G) (hG : ∀ bs a, G bs a → m ≤ bs.length) :
    Parses (do stop_if ((← remaining_length) < m) e; x) G := by
  intro n s a d
  rw [run_bind, run_remaining_length, andThen_ok, run_bind, run_stop_if]
  by_cases hn : n < m
  · rw [if_pos hn, andThen_error]
    constructor
    · intro h
      cases h
    · rintro ⟨bs, t, k, -, rfl, hg, -⟩
      have hlen := hG bs a hg
      omega
  · rw [if_neg hn]
    exact hx n s a d

end

/-! ## Fields -/

theorem run_async_read_ok {size n : Nat} {s a : Str} {d : Cursor} :
    (async_read size).run ⟨n, [], s⟩ = .ok a d ↔ ∃ t, s = a ++ t ∧ a.length = size ∧ d = ⟨n, [], t⟩ := by
  rw [run_async_read]
  split
  · rename_i hlt
    simp only [reduceCtorEq, false_iff]
    rintro ⟨t, rfl, rfl, -⟩
    simp at hlt
  · rename_i hle
    constructor
    · intro h
      cases h
      exact ⟨s.drop size, (List.take_append_drop size s).symm, List.length_take_of_le (Nat.le_of_not_lt hle), rfl⟩
    · rintro ⟨t, rfl, rfl, rfl⟩
      simp

theorem parses_process_nbytes (size : Nat) : Parses (process_nbytes size) fun bs a => bs.length = size ∧ a = bs := by
  have hrun : ∀ {n s a d}, size ≤ n → ((process_nbytes size).run ⟨n, [], s⟩ = .ok a d ↔
      ∃ t, s = a ++ t ∧ a.length = size ∧ d = ⟨n - size, [], t⟩) := by
    intro n s a d hn
    rw [process_nbytes, run_bind, run_remaining_length, andThen_ok, run_bind, run_stop_if, if_neg (Nat.not_lt.mpr hn),
      andThen_ok,
      run_bind, run_consume, andThen_ok, run_bind, run_buffered, andThen_ok, run_bind, run_stop_if, if_neg (by simp),
        andThen_ok,
      run_next_bytes, if_pos rfl]
    exact run_async_read_ok
  intro n s a d
  by_cases hn : size ≤ n
  · rw [hrun hn]
    constructor
    · rintro ⟨t, rfl, rfl, rfl⟩
      exact ⟨a, t, n - a.length, rfl, by omega, ⟨rfl, rfl⟩, rfl⟩
    · rintro ⟨bs, t, k, rfl, rfl, ⟨rfl, rfl⟩, rfl⟩
      exact ⟨t, rfl, rfl, by simp⟩
  · rw [process_nbytes, run_bind, run_remaining_length, andThen_ok, run_bind, run_stop_if,
      if_pos (Nat.lt_of_not_le hn), andThen_error]
    simp only [reduceCtorEq, false_iff]
    rintro ⟨bs, t, k, -, rfl, ⟨rfl, -⟩, -⟩
    omega

/-- The rest of the packet. -/
theorem takes_rest : Takes (do process_nbytes (← remaining_length)) fun bs a => a = bs := by
  intro n s a d
  rw [run_bind, run_remaining_length, andThen_ok, parses_process_nbytes n n s a d]
  constructor
  · rintro ⟨bs, t, k, rfl, hn, ⟨hlen, rfl⟩, rfl⟩
    obtain rfl : k = 0 := by omega
    exact ⟨a, t, rfl, hn, rfl, rfl⟩
  · rintro ⟨bs, t, rfl, rfl, rfl, rfl⟩
    exact ⟨a, t, 0, rfl, rfl, ⟨rfl, rfl⟩, rfl⟩

theorem two_bytes {bs : Str} (h : bs.length = 2) : make_uint16_t bs < 65536 ∧ bs = num_to_2bytes (make_uint16_t bs) := by
  match bs, h with
  | [b1, b2], _ =>
    have h1 := b1.toNat_lt
    have h2 := b2.toNat_lt
    have hhigh : ((b1.toNat * 256 + b2.toNat) / 256).toUInt8 = b1 := by
      rw [show (b1.toNat * 256 + b2.toNat) / 256 = b1.toNat from by omega]
      simp
    have hlow : (b1.toNat * 256 + b2.toNat).toUInt8 = b2 := by
      apply UInt8.toNat_inj.mp
      rw [Nat.toUInt8_eq, UInt8.toNat_ofNat']
      omega
    constructor
    · rw [make_uint16_t]
      omega
    · rw [make_uint16_t, num_to_2bytes, hhigh, hlow]

theorem length_num_to_2bytes (n : Nat) : (num_to_2bytes n).length = 2 := rfl

theorem parses_process_fixed_length : Parses process_fixed_length fun bs n => n < 65536 ∧ bs = num_to_2bytes n := by
  intro n s a d
  by_cases hn : n < 2
  · rw [run_process_fixed_length_short _ hn]
    simp only [reduceCtorEq, false_iff]
    rintro ⟨bs, t, k, -, rfl, ⟨-, rfl⟩, -⟩
    rw [length_num_to_2bytes] at hn
    omega
  · rw [run_process_fixed_length _ (Nat.le_of_not_lt hn) (by simp), ← run_bind, run_bind_ok]
    simp only [run_next_bytes, if_true, run_async_read_ok]
    constructor
    · rintro ⟨bs, e, ⟨t, rfl, hlen, rfl⟩, hrun⟩
      cases hrun
      obtain ⟨hlt, hbs⟩ := two_bytes hlen
      exact ⟨bs, t, n - 2, rfl, by omega, ⟨hlt, hbs⟩, rfl⟩
    · rintro ⟨bs, t, k, rfl, rfl, ⟨hlt, rfl⟩, rfl⟩
      refine ⟨num_to_2bytes a, _, ⟨t, rfl, rfl, rfl⟩, ?_⟩
      rw [make_uint16_num_to_2bytes hlt, length_num_to_2bytes, Nat.add_sub_cancel_left]
      rfl

theorem parses_process_packet_id : Parses process_packet_id PacketIdentifier := by
  unfold process_packet_id
  apply parses_congr (parses_bind parses_process_fixed_length fun id =>
    parses_bind (parses_stop_if (id = 0) _) fun _ => parses_pure id)
  intro bs id
  simp only [Seq, PacketIdentifier]
  constructor
  · rintro ⟨bs₁, id', bs₂, rfl, ⟨hlt, rfl⟩, bs₃, -, bs₄, rfl, ⟨rfl, h0⟩, rfl, rfl⟩
    exact ⟨Nat.pos_of_ne_zero h0, hlt, by simp⟩
  · rintro ⟨hpos, hlt, rfl⟩
    exact ⟨_, id, [], by simp, ⟨hlt, rfl⟩, [], (), [], rfl, ⟨rfl, Nat.pos_iff_ne_zero.mp hpos⟩, rfl, rfl⟩

theorem parses_process_string : Parses process_string Utf8String := by
  unfold process_string process_binary
  apply parses_guard
  · have hsize : ∀ size, Parses (do stop_if ((← remaining_length) < size) .protocol_error; process_nbytes size) fun bs a =>
        bs.length = size ∧ a = bs :=
      fun size => parses_guard size .protocol_error (parses_process_nbytes size) fun bs a h => Nat.le_of_eq h.1.symm
    apply parses_congr (parses_bind parses_process_fixed_length hsize)
    intro bs s
    simp only [Seq, Utf8String, utf8string]
    constructor
    · rintro ⟨bs₁, size, bs₂, rfl, ⟨hlt, rfl⟩, rfl, rfl⟩
      exact ⟨hlt, rfl⟩
    · rintro ⟨hlt, rfl⟩
      exact ⟨_, s.length, s, rfl, ⟨hlt, rfl⟩, rfl, rfl⟩
  · rintro bs s ⟨-, rfl⟩
    rw [utf8string, List.length_append, length_num_to_2bytes]
    exact Nat.le_add_right 2 _

/-! ## Entries -/

theorem findIdx_no_slash {s : Str} (h : 47 ∉ s) : s.findIdx? (· = 47) = none := by
  rw [List.findIdx?_eq_none_iff]
  intro b hb
  simpa using fun hb' : b = 47 => h (hb' ▸ hb)

theorem findIdx_slash {name : Str} (h : 47 ∉ name) (f : Str) : (name ++ 47 :: f).findIdx? (· = 47) = some name.length := by
  rw [List.findIdx?_append, findIdx_no_slash h, List.findIdx?_cons]
  simp

/-- The name of a share ends at the first slash. -/
theorem parse_shared_iff (rest : Str) (e : Str × Str) : parse_shared_subscription (lit "$share/" ++ rest) = some e ↔
    e.1 ≠ [] ∧ 47 ∉ e.1 ∧ e.2 ≠ [] ∧ rest = e.1 ++ 47 :: e.2 := by
  have hdrop : ∀ name f : Str, (name ++ 47 :: f).drop (name.length + 1) = f := by simp
  rw [parse_shared_subscription, if_pos (List.prefix_append _ _),
    show (lit "$share/" ++ rest).drop 7 = rest from List.drop_left' rfl]
  constructor
  · intro h
    by_cases hslash : 47 ∈ rest
    · obtain ⟨name, f, rfl, hname⟩ := List.eq_append_cons_of_mem hslash
      simp only [findIdx_slash hname, List.take_left, hdrop] at h
      split at h
      · cases h
      · rename_i hne
        cases h
        exact ⟨fun h => hne (Or.inl h), hname, fun h => hne (Or.inr h), rfl⟩
    · simp only [findIdx_no_slash hslash] at h
      cases h
  · rintro ⟨hne, hname, hne', rfl⟩
    simp only [findIdx_slash hname, List.take_left, hdrop]
    rw [if_neg (not_or.mpr ⟨hne, hne'⟩)]

theorem parse_shared_subscription_iff (f : Str) (e : Str × Str) :
    parse_shared_subscription f = some e ↔ SharedFilter f e := by
  by_cases hshare : lit "$share/" <+: f
  · obtain ⟨rest, rfl⟩ := hshare
    rw [parse_shared_iff]
    constructor
    · rintro ⟨hne, he, hne', rfl⟩
      rw [← List.append_assoc]
      exact .shared hne he hne'
    · intro h
      generalize hf : lit "$share/" ++ rest = f at h
      cases h with
      | plain h => exact absurd (hf ▸ List.prefix_append _ _) h
      | shared hname hslash hne =>
        rw [List.append_assoc, List.append_cancel_left_eq] at hf
        exact ⟨hname, hslash, hne, hf⟩
  · rw [parse_shared_subscription, if_neg hshare]
    constructor
    · intro h
      cases h
      exact .plain hshare
    · intro h
      cases h with
      | plain _ => rfl
      | shared hname hslash hf => exact absurd (by rw [List.append_assoc]; exact List.prefix_append _ _) hshare

theorem parses_process_filter : Parses process_filter FilterEntry := by
  unfold process_filter
  have hentry : ∀ f, Parses (filter_entry f) fun bs e => bs = [] ∧ SharedFilter f e := by
    intro f
    unfold filter_entry
    cases h : parse_shared_subscription f with
    | none =>
      intro n s a d
      have hnone : ¬ SharedFilter f a := by simp [← parse_shared_subscription_iff, h]
      simp [hnone]
    | some e =>
      apply parses_congr (parses_pure e)
      simp [← parse_shared_subscription_iff, h, eq_comm]
  apply parses_congr (parses_bind parses_process_string hentry)
  intro bs e
  simp only [Seq, FilterEntry]
  constructor
  · rintro ⟨bs₁, f, bs₂, rfl, hf, rfl, he⟩
    exact ⟨f, by simpa using hf, he⟩
  · rintro ⟨f, hf, he⟩
    exact ⟨bs, f, [], by simp, hf, rfl, he⟩

theorem parses_process_subscribe_entry : Parses process_subscribe_entry SubscribeGrammar := by
  unfold process_subscribe_entry
  apply parses_congr (parses_bind parses_process_filter fun entry => parses_bind (parses_process_nbytes 1) fun options =>
    parses_bind (parses_stop_if (options.getD 0 0 &&& 0x03 = 3) _) fun _ => parses_pure _)
  intro bs a
  simp only [Seq]
  constructor
  · rintro ⟨bs₁, e, bs₂, rfl, he, bs₃, options, bs₄, rfl, ⟨hlen, rfl⟩, bs₅, -, bs₆, rfl, ⟨rfl, ho⟩, rfl, rfl⟩
    obtain ⟨o, rfl⟩ := List.length_eq_one_iff.mp hlen
    exact .mk he ho
  · intro h
    cases h with
    | @mk bs e options hf ho =>
      exact ⟨bs, e, [options], rfl, hf, [options], [options], [], rfl, ⟨rfl, rfl⟩, [], (), [], rfl, ⟨rfl, ho⟩, rfl, rfl⟩

theorem filter_not_empty {bs : Str} {e : Str × Str} (h : FilterEntry bs e) : 0 < bs.length := by
  obtain ⟨f, ⟨-, rfl⟩, -⟩ := h
  rw [utf8string, List.length_append, length_num_to_2bytes]
  omega

theorem entry_not_empty {bs : Str} {e : SubscribeEntry} (h : SubscribeGrammar bs e) : 0 < bs.length := by
  cases h
  simp

section
variable {α : Type} {process_entry : ReadM α} {G : Str → α → Prop}

theorem entries_not_empty (hG : ∀ bs a, G bs a → 0 < bs.length) {bs : Str} {as : List α} (h : Entries G bs as) :
    0 < bs.length := by
  cases h with
  | last h => exact hG _ _ h
  | more h _ =>
    have hlen := hG _ _ h
    rw [List.length_append]
    omega

/-- The loop ends with the packet: an entry takes a byte at least. -/
theorem run_process_entries (hx : Parses process_entry G) (hG : ∀ bs a, G bs a → 0 < bs.length) :
    ∀ {fuel n : Nat} {s : Str} {as : List α} {d : Cursor}, n < fuel →
      ((process_entries process_entry fuel).run ⟨n, [], s⟩ = .ok as d ↔
        ∃ bs t, s = bs ++ t ∧ n = bs.length ∧ Entries G bs as ∧ d = ⟨0, [], t⟩)
  | fuel + 1, n, s, as, d, hfuel => by
    unfold process_entries
    rw [run_bind_ok]
    constructor
    · rintro ⟨a, e, hrun, hrest⟩
      obtain ⟨bs, t, k, rfl, rfl, hg, rfl⟩ := (hx n s a e).mp hrun
      have hlen := hG bs a hg
      rw [run_bind, run_remaining_length, andThen_ok] at hrest
      simp only at hrest
      split at hrest
      · rename_i hk
        subst hk
        cases hrest
        exact ⟨bs, t, rfl, rfl, .last hg, rfl⟩
      · rename_i hk
        obtain ⟨as', e', hrun', hpure⟩ := run_bind_ok.mp hrest
        cases hpure
        obtain ⟨bs', t', rfl, rfl, hs, rfl⟩ := (run_process_entries hx hG (by omega)).mp hrun'
        exact ⟨bs ++ bs', t', by simp, by simp, .more hg hs, rfl⟩
    · rintro ⟨bs, t, rfl, rfl, hentries, rfl⟩
      cases hentries with
      | @last _ a hg =>
        refine ⟨a, _, (hx _ _ a _).mpr ⟨bs, t, 0, rfl, rfl, hg, rfl⟩, ?_⟩
        rw [run_bind, run_remaining_length, andThen_ok]
        rfl
      | @more bs bs' a as hg hs =>
        have hlen := hG bs a hg
        have hlen' := entries_not_empty hG hs
        refine ⟨a, _, (hx _ _ a _).mpr ⟨bs, bs' ++ t, bs'.length, by simp, by simp, hg, rfl⟩, ?_⟩
        rw [run_bind, run_remaining_length, andThen_ok]
        simp only [if_neg (Nat.pos_iff_ne_zero.mp hlen')]
        rw [run_bind_ok]
        refine ⟨as, _, (run_process_entries hx hG ?_).mpr ⟨bs', t, rfl, rfl, hs, rfl⟩, rfl⟩
        rw [List.length_append] at hfuel
        omega

theorem takes_process_entries (hx : Parses process_entry G) (hG : ∀ bs a, G bs a → 0 < bs.length) :
    Takes (do process_entries process_entry ((← remaining_length) + 1)) (Entries G) := by
  intro n s as d
  rw [run_bind, run_remaining_length, andThen_ok]
  exact run_process_entries hx hG (Nat.lt_succ_self n)

end

end VrpcAgent

import VrpcAgent.Endpoint

/-!
# Messages that wait for their acknowledgement

Whatever the peer and the program do, a message with quality of service 1 or 2 stays in the
store until the packet it waits for arrives, and is written again when a session is resumed.
Its identifier stays taken as long as nothing gives up an identifier that a stored message has.
-/

namespace VrpcAgent

open Runs

/-! ## Staying in the store -/

def Expected.type : Expected → UInt8
  | .puback => 0x40
  | .pubrec => 0x50
  | .pubcomp => 0x70

theorem Expected.type_inj {x y : Expected} : x.type = y.type ↔ x = y := by
  cases x <;> cases y <;> simp [Expected.type]

namespace Endpoint

/-- The message is acknowledged, cleared by the program, or dropped with its session. -/
def Ends (e : StoreMessage) : Event → Prop
  | .call (.clear_stored_publish packet_id) => packet_id = e.packet_id
  | .receive (.ack type packet_id) => type = e.expected.type ∧ packet_id = e.packet_id
  | .receive (.connack session_present code) => session_present = false ∧ code = 0
  | _ => False

theorem mem_publish_with {e : StoreMessage} {s : Endpoint} (h : e ∈ s.store) (m : PublishMessage) :
    e ∈ (s.publish_with m).store := by
  unfold publish_with
  split
  · rw [send_publish_eq]
    dsimp only
    split
    · exact mem_store_emplace.mpr (Or.inl h)
    · exact h
  · exact h

theorem mem_call {e : StoreMessage} {s : Endpoint} (h : e ∈ s.store) {c : Call} (hc : ¬ Ends e (.call c)) :
    e ∈ (s.call c).store := by
  cases c with
  | publish pubopts topic_name contents =>
    simp only [call, publish]
    split
    · rcases acquiring_cases (fun packet_id => publish_with ⟨0x30 ||| pubopts, packet_id, topic_name, contents⟩) s with
        ⟨-, hs⟩ | ⟨id, pids, -, hs⟩
      · rw [hs]; exact h
      · rw [hs]; exact mem_publish_with (s := { s with pid_man := pids }) h _
    · exact mem_publish_with h _
  | publish_with m => exact mem_publish_with h m
  | subscribe entries =>
    simp only [call, subscribe, acquiring, send_inflight]
    split
    · exact h
    · simp only [do_sync_write_eq]; split <;> exact h
  | unsubscribe entries =>
    simp only [call, unsubscribe, acquiring, send_inflight]
    split
    · exact h
    · simp only [do_sync_write_eq]; split <;> exact h
  | acquire_unique_packet_id => simp only [call, acquiring]; split <;> exact h
  | clear_stored_publish packet_id =>
    have hne : packet_id ≠ e.packet_id := hc
    apply List.mem_filter.mpr
    simpa using ⟨h, hne.symm⟩
  | disconnect => simp only [call, disconnect]; split <;> simpa using h
  | suback packet_id results => simpa [call] using h
  | unsuback packet_id => simpa [call] using h
  | _ => exact h

theorem mem_process_payload {e : StoreMessage} {s : Endpoint} (h : e ∈ s.store) {p : Incoming} (hp : ¬ Ends e (.receive p)) :
    e ∈ (s.process_payload p).store := by
  have hack : ∀ {x : Expected} {id : Nat}, ¬ (x.type = e.expected.type ∧ id = e.packet_id) →
      e ∈ store_erase (id, x) s.store := by
    intro x id hne
    refine mem_store_erase.mpr ⟨h, fun hk => hne ?_⟩
    cases hk
    exact ⟨rfl, rfl⟩
  cases p with
  | connack session_present code =>
    dsimp only [process_payload, process_connack, handle, notify]
    split
    · split
      · simpa using h
      · rename_i hcode hsp
        exact absurd ⟨by simpa using hsp, hcode⟩ hp
    · exact h
  | ack type id =>
    dsimp only [process_payload, process_ack]
    split
    · split
      · rename_i ht; subst ht; exact hack (x := .puback) hp
      · split
        · rename_i ht; subst ht; exact hack (x := .pubrec) hp
        · split
          · exact h
          · split
            · rename_i ht; subst ht; exact hack (x := .pubcomp) hp
            · exact h
    · simpa [call_error_handlers, notify] using h
  | connect => exact h
  | disconnect => exact h
  | _ =>
    dsimp only [process_payload]
    split <;> simpa [call_error_handlers, notify, handle, process_inflight, release_id] using h

theorem mem_respond {e : StoreMessage} {s : Endpoint} (h : e ∈ s.store) (p : Incoming) : e ∈ (s.respond p).store := by
  have hpubrel : ∀ id, e ∈ store_overwrite (.pubrel id) s.store := by
    intro id
    by_cases hk : e.key = (id, .pubcomp)
    · rw [StoreMessage.eq_pubrel hk]; apply mem_store_overwrite_self
    · exact mem_store_overwrite_of_ne h hk
  unfold respond
  split
  · split
    · simpa using h
    · split <;> simpa using h
  · split
    · split
      · simpa [send_pubrel, register_id] using hpubrel _
      · exact mem_store_emplace.mpr (Or.inl h)
    · split <;> simpa using h
  · exact h
  · exact h

theorem mem_call_error_handlers {e : StoreMessage} {s : Endpoint} (h : e ∈ s.store) : e ∈ s.call_error_handlers.store := by
  simpa [call_error_handlers, notify] using h

theorem mem_handle_close_or_error {e : StoreMessage} {s : Endpoint} (h : e ∈ s.store) :
    e ∈ s.handle_close_or_error.store := by
  simpa [handle_close_or_error, notify] using h

theorem mem_step {e : StoreMessage} {s : Endpoint} (h : e ∈ s.store) {ev : Event} (hev : ¬ Ends e ev) :
    e ∈ (s.step ev).store := by
  have hclose := mem_handle_close_or_error h
  cases ev with
  | connect => simp only [step]; split <;> exact h
  | call c => exact mem_call h hev
  | receive p => exact completes_of (P := fun s => e ∈ s.store) h (fun _ _ _ => mem_process_payload h hev) fun _ _ _ => hclose
  | handler_returns =>
    simp only [step]
    split
    · exact h
    · exact mem_respond (s := { s with handling := none }) h _
  | malformed =>
    exact completes_of (P := fun s => e ∈ s.store) h (fun _ _ _ => mem_call_error_handlers h) fun _ _ _ => hclose
  | close => exact completes_of (P := fun s => e ∈ s.store) h (fun _ _ _ => hclose) fun _ _ _ => hclose

end Endpoint

/-! ## Keeping the identifier -/

def Held (store : List StoreMessage) (pids : Allocator) : Prop := ∀ e ∈ store, ¬ pids.Free e.packet_id

def Unstored (store : List StoreMessage) (packet_id : Nat) : Prop := ∀ e ∈ store, e.packet_id ≠ packet_id

section
variable {store store' : List StoreMessage} {pids pids' : Allocator} {id : Nat} (h : Held store pids)
include h

theorem Held.mono (hs : ∀ e ∈ store', e ∈ store) (hf : ∀ v, pids'.Free v → pids.Free v) : Held store' pids' :=
  fun e he hv => h e (hs e he) (hf _ hv)

theorem held_deallocate : Held store (pids.deallocate id) ↔ Unstored store id := by
  constructor
  · intro hd e he heq
    exact hd e he ((Allocator.free_deallocate ..).mpr (Or.inr heq))
  · intro hu e he hv
    rcases (Allocator.free_deallocate ..).mp hv with hv | hv
    · exact h e he hv
    · exact hu e he hv

theorem held_deallocate_all {ids : List Nat} :
    Held store (ids.foldl Allocator.deallocate pids) ↔ ∀ id ∈ ids, Unstored store id := by
  constructor
  · intro hd id hid e he heq
    exact hd e he ((Endpoint.free_foldl_deallocate ..).mpr (Or.inr (heq ▸ hid)))
  · intro hu e he hv
    rcases (Endpoint.free_foldl_deallocate ..).mp hv with hv | hv
    · exact h e he hv
    · exact hu _ hv e he rfl

theorem held_acknowledged {x : Expected} :
    Held (store_erase (id, x) store) (pids.deallocate id) ↔ ∀ e ∈ store, e.packet_id = id → e.expected = x := by
  have herase : Held (store_erase (id, x) store) pids := h.mono (fun e he => (mem_store_erase.mp he).1) fun _ hv => hv
  rw [held_deallocate herase]
  constructor
  · intro hu e he hid
    by_contra hx
    exact hu e (mem_store_erase.mpr ⟨he, fun hk => hx (congrArg Prod.snd hk)⟩) hid
  · intro hx e he hid
    obtain ⟨he, hk⟩ := mem_store_erase.mp he
    exact hk (Prod.ext hid (hx e he hid))

theorem held_cleared : Held (store.filter (·.packet_id ≠ id)) (pids.deallocate id) := by
  have hfilter : Held (store.filter (·.packet_id ≠ id)) pids := h.mono (fun e he => (List.mem_filter.mp he).1) fun _ hv => hv
  rw [held_deallocate hfilter]
  intro e he
  simpa using (List.mem_filter.mp he).2

theorem held_emplace_iff {e : StoreMessage} : Held (store_emplace e store) pids ↔ ¬ pids.Free e.packet_id := by
  constructor
  · intro hd hv
    by_cases hk : e.key ∈ store.map StoreMessage.key
    · obtain ⟨e', he', hkey⟩ := List.mem_map.mp hk
      apply h e' he'
      rw [show e'.packet_id = e.packet_id from congrArg Prod.fst hkey]
      exact hv
    · exact hd e (mem_store_emplace.mpr (Or.inr ⟨rfl, hk⟩)) hv
  · intro hv e' he'
    rcases mem_store_emplace.mp he' with he' | ⟨rfl, -⟩
    · exact h e' he'
    · exact hv

theorem held_pubrel (hf : ∀ v, pids'.Free v ↔ pids.Free v ∧ v ≠ id) :
    Held (store_overwrite (.pubrel id) store) pids' ∧ Held (store_emplace (.pubrel id) store) pids' := by
  have hold : Held store pids' := h.mono (fun _ he => he) fun v hv => ((hf v).mp hv).1
  have hnew : ¬ pids'.Free id := fun hv => ((hf id).mp hv).2 rfl
  refine ⟨fun e he => ?_, (held_emplace_iff hold).mpr hnew⟩
  rcases mem_store_overwrite he with rfl | ⟨he, -⟩
  · exact hnew
  · exact hold e he

end

namespace Endpoint

def Keeps (s : Endpoint) : Prop := Held s.store s.pid_man

def InflightUnstored (s : Endpoint) : Prop := ∀ id ∈ s.sub_unsub_inflight, Unstored s.store id

def TidyPacket (s : Endpoint) : Incoming → Prop
  | .connect .. => True
  | .connack .. => True
  | .disconnect => True
  | p =>
    if s.mqtt_connected then
      match p with
      | .ack type packet_id => type = 0x50 ∨ type = 0x60 ∨ ∀ e ∈ s.store, e.packet_id = packet_id → e.expected.type = type
      | .suback packet_id _ => Unstored s.store packet_id
      | _ => True
    else s.InflightUnstored

/-- The event does not give up the identifier of a stored message, and publishes under an
identifier that is taken. -/
def Tidy (s : Endpoint) : Event → Prop
  | .call (.publish_with m) => m.constructs = true → check_qos_value m.fixed_header = true → ¬ s.pid_man.Free m.packet_id
  | .call (.release_packet_id packet_id) => Unstored s.store packet_id
  | .receive p => s.reading = true → s.handling = none → if s.connected then s.TidyPacket p else s.InflightUnstored
  | .malformed => s.reading = true → s.handling = none → s.InflightUnstored
  | .close => s.reading = true → s.handling = none → s.InflightUnstored
  | _ => True

variable {s : Endpoint} (h : s.Keeps)
include h

theorem keeps_publish_with (m : PublishMessage) :
    (s.publish_with m).Keeps ↔
    (m.constructs = true → check_qos_value m.fixed_header = true → ¬ s.pid_man.Free m.packet_id) := by
  unfold publish_with
  split
  · rename_i hm
    simp only [send_publish_eq, Keeps, hm, true_implies]
    split
    · rename_i hq
      simp only [hq, true_implies]
      exact held_emplace_iff h
    · rename_i hq
      exact iff_of_true h fun hq' => absurd hq' hq
  · rename_i hm
    exact iff_of_true h fun hm' => absurd hm' hm

theorem keeps_acquiring {f : Nat → Endpoint → Endpoint}
    (hf : ∀ {id pids}, s.pid_man.allocate = some (id, pids) → Keeps { s with pid_man := pids } → ¬ pids.Free id →
      (f id { s with pid_man := pids }).Keeps) : (s.acquiring f).Keeps := by
  rcases acquiring_cases f s with ⟨-, hs⟩ | ⟨id, pids, ha, hs⟩
  · rw [hs]; exact h
  · obtain ⟨-, -, hfree⟩ := Allocator.allocate_spec ha
    rw [hs]
    apply hf ha
    · exact Held.mono h (fun _ he => he) fun v hv => ((hfree v).mp hv).1
    · exact fun hv => ((hfree id).mp hv).2 rfl

theorem keeps_call (c : Call) : (s.call c).Keeps ↔ s.Tidy (.call c) := by
  have hwrite : ∀ p, (s.do_sync_write p).Keeps := fun p => by rw [do_sync_write_eq]; exact h
  cases c with
  | publish pubopts topic_name contents =>
    simp only [call, publish, Tidy, iff_true]
    split
    · refine keeps_acquiring h fun _ hk hv => ?_
      rw [keeps_publish_with hk]
      exact fun _ _ => hv
    · rename_i hq
      rw [keeps_publish_with h]
      simp [hq]
  | publish_with m => exact keeps_publish_with h m
  | subscribe entries =>
    simp only [call, subscribe, Tidy, iff_true]
    refine keeps_acquiring h fun _ hk _ => ?_
    unfold send_inflight
    split
    · rw [do_sync_write_eq]; exact hk
    · exact hk
  | unsubscribe entries =>
    simp only [call, unsubscribe, Tidy, iff_true]
    refine keeps_acquiring h fun _ hk _ => ?_
    unfold send_inflight
    split
    · rw [do_sync_write_eq]; exact hk
    · exact hk
  | suback packet_id results => exact iff_of_true (hwrite _) trivial
  | unsuback packet_id => exact iff_of_true (hwrite _) trivial
  | acquire_unique_packet_id => exact iff_of_true (keeps_acquiring h fun _ hk _ => hk) trivial
  | register_packet_id packet_id =>
    refine iff_of_true (Held.mono h (fun _ he => he) fun v hv => ?_) trivial
    exact (free_register_id.mp hv).1
  | release_packet_id packet_id => exact held_deallocate h
  | clear_stored_publish packet_id => exact iff_of_true (held_cleared h) trivial
  | disconnect =>
    refine iff_of_true ?_ trivial
    simp only [call, disconnect, do_sync_write_eq]
    split <;> exact h
  | force_disconnect => exact iff_of_true h trivial

theorem keeps_call_error_handlers : s.call_error_handlers.Keeps ↔ s.InflightUnstored := by
  simp only [call_error_handlers, notify, clean_sub_unsub_inflight_eq, Keeps]
  exact held_deallocate_all h

theorem keeps_handle_close_or_error : s.handle_close_or_error.Keeps ↔ s.InflightUnstored := by
  simp only [handle_close_or_error, notify, clean_sub_unsub_inflight_eq, Keeps]
  exact held_deallocate_all h

theorem keeps_acknowledged (x : Expected) (packet_id : Nat) (p : Incoming) :
    ((s.acknowledged x packet_id).handle p).Keeps ↔ ∀ e ∈ s.store, e.packet_id = packet_id → e.expected.type = x.type := by
  simp only [Expected.type_inj]
  exact held_acknowledged h

theorem keeps_process_inflight (p : Incoming) (packet_id : Nat) :
    (s.process_inflight p packet_id).Keeps ↔ Unstored s.store packet_id := held_deallocate h

theorem keeps_process_ack (type : UInt8) (packet_id : Nat) :
    (s.process_ack type packet_id).Keeps ↔
      (type = 0x50 ∨ type = 0x60 ∨ ∀ e ∈ s.store, e.packet_id = packet_id → e.expected.type = type) := by
  by_cases h1 : type = 0x40
  · subst h1
    exact (keeps_acknowledged h .puback packet_id _).trans (by simp [Expected.type])
  · by_cases h2 : type = 0x50
    · subst h2
      exact iff_of_true (Held.mono h (fun e he => (mem_store_erase.mp he).1) fun _ hv => hv) (Or.inl rfl)
    · by_cases h3 : type = 0x60
      · subst h3
        exact iff_of_true h (Or.inr (Or.inl rfl))
      · by_cases h4 : type = 0x70
        · subst h4
          exact (keeps_acknowledged h .pubcomp packet_id _).trans (by simp [Expected.type])
        · -- no stored message waits for a packet of another type
          have hne : ∀ e : StoreMessage, e.expected.type ≠ type := by
            intro e
            cases e.expected
            · exact Ne.symm h1
            · exact Ne.symm h2
            · exact Ne.symm h4
          simp only [process_ack, if_neg h1, if_neg h2, if_neg h3, if_neg h4, keeps_process_inflight h, Unstored]
          simp [h2, h3, hne]

theorem keeps_process_payload (p : Incoming) : (s.process_payload p).Keeps ↔ s.TidyPacket p := by
  cases p with
  | connack session_present code =>
    refine iff_of_true ?_ trivial
    dsimp only [process_payload, process_connack, handle, notify]
    split
    · split
      · rw [send_store_eq]; exact h
      · exact fun e he => absurd he List.not_mem_nil
    · exact h
  | connect => exact iff_of_true h trivial
  | disconnect => exact iff_of_true h trivial
  | ack type packet_id =>
    dsimp only [process_payload, TidyPacket]
    split
    · exact keeps_process_ack h type packet_id
    · exact keeps_call_error_handlers h
  | suback packet_id results =>
    dsimp only [process_payload, TidyPacket]
    split
    · exact keeps_process_inflight h _ packet_id
    · exact keeps_call_error_handlers h
  | _ =>
    dsimp only [process_payload, TidyPacket]
    split
    · exact iff_of_true h trivial
    · exact keeps_call_error_handlers h

theorem keeps_respond (p : Incoming) : (s.respond p).Keeps := by
  have hwrite : ∀ p, (s.do_sync_write p).Keeps := fun p => by rw [do_sync_write_eq]; exact h
  have hpubrel : ∀ id, Held (store_overwrite (.pubrel id) s.store) (s.register_id id).pid_man ∧
      Held (store_emplace (.pubrel id) s.store) (s.register_id id).pid_man :=
    fun id => held_pubrel h fun v => free_register_id
  unfold respond
  split
  · split
    · exact hwrite _
    · split
      · rw [do_sync_write_eq]; exact h
      · exact h
  · split
    · split
      · rw [send_pubrel, do_sync_write_eq]; exact (hpubrel _).1
      · exact (hpubrel _).2
    · split
      · exact hwrite _
      · exact h
  · exact h
  · exact h

theorem keeps_completes {f : Endpoint → Endpoint} {G : Prop} (hf : (f s).Keeps ↔ G) :
    (s.completes f).Keeps ↔ (s.reading = true → s.handling = none → if s.connected then G else s.InflightUnstored) := by
  unfold completes
  split
  · rename_i hr
    simp only [hr.1, hr.2, true_implies]
    split
    · exact hf
    · exact keeps_handle_close_or_error h
  · rename_i hr
    exact iff_of_true h fun h1 h2 => absurd ⟨h1, h2⟩ hr

theorem keeps_step (ev : Event) : (s.step ev).Keeps ↔ s.Tidy ev := by
  cases ev with
  | connect =>
    refine iff_of_true ?_ trivial
    simp only [step]
    split <;> exact h
  | call c => exact keeps_call h c
  | receive p => exact keeps_completes h (keeps_process_payload h p)
  | handler_returns =>
    refine iff_of_true ?_ trivial
    simp only [step]
    split
    · exact h
    · exact keeps_respond (s := { s with handling := none }) h _
  | malformed =>
    have hc := keeps_completes h (keeps_call_error_handlers h)
    rw [ite_self] at hc
    exact hc
  | close =>
    have hc := keeps_completes h (keeps_handle_close_or_error h)
    rw [ite_self] at hc
    exact hc

omit h

/-- **When identifiers are kept**: in every state of a run the identifiers of the stored messages
are taken, exactly when no event of the run gives one up. An acknowledgement of another kind does,
so does an acknowledged subscription, and so does the end of a connection for each identifier
that has been in flight for a subscription and was not acknowledged, even on an earlier connection. -/
theorem identifiers_kept_iff (evs : List Event) :
    (∀ evs', evs' <+: evs → (run step new evs').Keeps) ↔ Along step Tidy new evs := by
  have hnew : new.Keeps := fun e he => absurd he List.not_mem_nil
  apply along_iff (I := fun _ => True) (fun _ _ _ => trivial) _ trivial hnew
  intro s ev _ hs
  exact keeps_step hs ev

/-! ## From publish to the acknowledgement -/

theorem stored_of_taken {s : Endpoint} (h : s.Keeps) {pubopts : UInt8} {topic_name contents : Str} {m : PublishMessage}
    (ht : (s.publish pubopts topic_name contents).published = s.published ++ [m])
    (hq : check_qos_value m.fixed_header = true) :
    .publish m.set_dup ∈ (s.publish pubopts topic_name contents).store := by
  rcases publish_cases pubopts topic_name contents s with ⟨pids, -, hs⟩ | ⟨m', pids, hq', ha, hs⟩ | ⟨m', hq', hs⟩
  · rw [hs] at ht
    simp at ht
  · rw [hs, send_publish_eq] at ht ⊢
    obtain rfl : m' = m := by simpa using ht
    simp only [hq, if_true]
    -- the identifier was free, so that no stored message has it
    refine mem_store_emplace.mpr (Or.inr ⟨rfl, fun hk => ?_⟩)
    obtain ⟨e, he, hkey⟩ := List.mem_map.mp hk
    apply h e he
    rw [show e.packet_id = m'.packet_id from congrArg Prod.fst hkey]
    exact (Allocator.allocate_spec ha).1
  · rw [hs, send_publish_eq] at ht
    obtain rfl : m' = m := by simpa using ht
    rw [hq] at hq'
    cases hq'

theorem stored_run {e : StoreMessage} {s : Endpoint} (h : e ∈ s.store) {evs : List Event} (hends : ∀ ev ∈ evs, ¬ Ends e ev) :
    e ∈ (run step s evs).store :=
  run_inv (P := fun s : Endpoint => e ∈ s.store) (G := fun _ ev => ¬ Ends e ev) (fun _ _ h hev => mem_step h hev) h
    (along_of_mem fun ev hev _ => hends ev hev)

theorem resumes {s : Endpoint} (hr : s.reading = true) (hh : s.handling = none) (hc : s.connected = true) :
    (s.step (.receive (.connack true 0))).out = s.out ++ s.store.map (·.packet) := by
  rw [step_receive hr hh hc]
  simp [process_connack, handle, notify, hc, show s.process_payload (.connack true 0) = s.process_connack true 0 from rfl]

/-- **Kept until acknowledged.** In a run that gives up no stored message's identifier, a
message that `publish` takes with quality of service 1 or 2 is in the store, marked as a duplicate,
until the packet it waits for arrives, the program clears it or the session is not resumed; and a
connection that resumes the session writes the whole store again, in its order. -/
theorem published_until_acknowledged {evs evs' : List Event} {pubopts : UInt8} {topic_name contents : Str}
    {m : PublishMessage}
    (htidy : Along step Tidy new evs)
    (ht : ((run step new evs).publish pubopts topic_name contents).published = (run step new evs).published ++ [m])
    (hq : check_qos_value m.fixed_header = true) (hends : ∀ ev ∈ evs', ¬ Ends (.publish m.set_dup) ev) :
    let s := run step new (evs ++ .call (.publish pubopts topic_name contents) :: evs')
    .publish m.set_dup ∈ s.store ∧ (s.reading = true → s.handling = none → s.connected = true →
      (s.step (.receive (.connack true 0))).out = s.out ++ s.store.map (·.packet)) := by
  have hkeeps : (run step new evs).Keeps :=
    run_inv (P := Keeps) (fun _ ev hs hev => (keeps_step hs ev).mpr hev) (fun e he => absurd he List.not_mem_nil) htidy
  refine ⟨?_, resumes⟩
  rw [run_append, run_cons]
  exact stored_run (stored_of_taken hkeeps ht hq) hends

/-- The connection is lost before the broker acknowledges `t`. -/
theorem lost_connection_is_resumed :
    let s := run step new ([.connect, .receive (.connack false 0), .handler_returns] ++
      .call (.publish 0x02 (lit "t") (lit "x")) :: [.close, .connect])
    StoreMessage.publish ⟨0x3A, 1, lit "t", lit "x"⟩ ∈ s.store ∧ (s.reading = true → s.handling = none → s.connected = true →
      (s.step (.receive (.connack true 0))).out = s.out ++ s.store.map (·.packet)) :=
  published_until_acknowledged (m := ⟨0x32, 1, lit "t", lit "x"⟩) ⟨trivial, fun _ _ => trivial, trivial, trivial⟩
    (by decide) (by decide) (by simp [Ends])

end Endpoint

end VrpcAgent

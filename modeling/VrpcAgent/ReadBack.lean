import VrpcAgent.PacketRoundTrip
import VrpcAgent.PacketIds
import VrpcAgent.History
import VrpcAgent.Connection

/-!
# What the peer reads

As long as the processes write their packets one at a time, the reader at the other end of
the connection is handed the packets that they wrote and no others, however the stream is
cut.
-/

namespace VrpcAgent

open Function Effects Runs StreamReader

/-! ## The packets that are written -/

def IsPacketId (v : Nat) : Prop := 0 < v ∧ v < 65536

def InDomain (opts : Options) : Packet → Prop
  | .publish .. => True
  | .subscribe topic_filter => opts.domain ++ lit "/" <+: topic_filter
  | .unsubscribe topic_filter => opts.domain ++ lit "/" <+: topic_filter

section
variable (host : Host) (opts : Options)

structure ValidSent (x : Sent) : Prop where
  id : IsPacketId x.id
  accepted : host.refuse x.packet = none
  domain : InDomain opts x.packet

def ValidPool (pids : Allocator) : Prop := ∀ v, pids.Free v → IsPacketId v

structure ValidFrame (s : Frame) : Prop where
  pool : ValidPool s.agent.pids
  out : ∀ x ∈ s.out, ValidSent host opts x

theorem keeps_valid_send {p : Packet} (hp : InDomain opts p) : Keeps (ValidFrame host opts) (send host p) := by
  intro s h
  rw [run_send]
  cases ha : s.agent.pids.allocate with
  | none => exact h
  | some r =>
    obtain ⟨id, pids⟩ := r
    obtain ⟨hid, -, hfree⟩ := Allocator.allocate_spec ha
    have hpool : ValidPool pids := fun v hv => h.pool v ((hfree v).mp hv).1
    cases hr : host.refuse p with
    | some e => exact ⟨hpool, h.out⟩
    | none =>
      refine ⟨hpool, fun x hx => ?_⟩
      rcases List.mem_append.mp hx with hx | hx
      · exact h.out x hx
      · rw [List.mem_singleton.mp hx]
        exact ⟨h.pool id hid, hr, hp⟩

theorem keeps_valid_write {w : Write} (hw : ∀ p, w.packet = .ok p → InDomain opts p) :
    Keeps (ValidFrame host opts) (write host w) := by
  intro s h
  rw [run_write]
  cases hp : w.packet with
  | error e => exact ⟨h.pool, h.out⟩
  | ok p => exact keeps_valid_send host opts (hw p hp) _ ⟨h.pool, h.out⟩

theorem keeps_valid_reply (l : List Str) (m : List (Str × Json)) :
    Keeps (ValidFrame host opts) (write host (reply_write l m)) := by
  refine keeps_valid_write host opts fun p hp => ?_
  obtain ⟨t, -, rfl⟩ := reply_packet_eq hp
  trivial

theorem writes_in_domain {l : List Str} {m : List (Str × Json)} {a : Action} {w : Write} (hw : w ∈ writes opts l m a)
    {p : Packet}
    (hp : w.packet = .ok p) : InDomain opts p := by
  have hfilter : ∀ x, opts.domain ++ lit "/" <+: instance_filter opts x := by
    intro x
    simp only [instance_filter, List.append_assoc]
    rw [← List.append_assoc]
    exact List.prefix_append _ _
  have hreply : ∀ {l m}, (reply_write l m).packet = .ok p → InDomain opts p := by
    intro l m hp
    obtain ⟨t, -, rfl⟩ := reply_packet_eq hp
    trivial
  have hinfo : ∀ {l}, class_info_packet opts l = .ok p → InDomain opts p := by
    intro l hp
    rw [class_info_packet_eq opts hp]
    trivial
  cases a with
  | call fn args inst => cases hw
  | create x =>
    simp only [writes, List.mem_cons, List.not_mem_nil, or_false] at hw
    rcases hw with rfl | rfl | rfl
    · cases hp
      exact hfilter x
    · exact hinfo hp
    · exact hreply hp
  | delete x =>
    simp only [writes, List.mem_cons] at hw
    rcases hw with rfl | hw
    · cases hp
      exact hfilter x
    · split at hw
      · simp only [List.mem_cons, List.not_mem_nil, or_false] at hw
        rcases hw with rfl | rfl
        · exact hinfo hp
        · exact hreply hp
      · rw [List.mem_singleton.mp hw] at hp
        exact hreply hp
  | invalid e =>
    simp only [writes, List.mem_singleton] at hw
    rw [hw] at hp
    cases hp

theorem valid_nil {a : Agent} (h : ValidPool a.pids) (j : Json) (c : Option VrpcCall) : ValidFrame host opts ⟨a, j, [], c⟩ :=
  ⟨h, List.forall_mem_nil _⟩

theorem valid_handled (mc : Except Str Unit) (m : Msg) {a : Agent} (h : ValidPool a.pids) :
    ValidFrame host opts (after (handled host opts mc m a)) := by
  cases hr : request host m with
  | none =>
    obtain ⟨j, hj⟩ := handled_none host opts mc hr a
    rw [hj]
    exact valid_nil host opts h j none
  | some r =>
    cases ha : r.action mc with
    | call fn args inst =>
      rw [handled_call host opts hr ha]
      exact valid_nil host opts (a := r.register a) h _ _
    | _ =>
      rw [handled_served host opts hr (by rw [ha]; rfl), after_andThen_pure]
      exact served_inv host rfl (fun w hw => keeps_valid_write host opts fun p => writes_in_domain opts hw)
        (fun m' s => keeps_valid_reply host opts _ m' s) (valid_nil host opts (a := r.register a) h _ none)

theorem valid_connack {a : Agent} (h : ValidPool a.pids) :
    ValidFrame host opts (after ((connack_handler host opts).run ⟨a, .null, [], none⟩)) := by
  refine keeps_connack host opts (fun _ _ _ => keeps_valid_send host opts trivial)
    (fun _ _ => keeps_valid_send host opts ?_) _
    (valid_nil host opts h _ none)
  simp only [InDomain, base_topic, List.append_assoc]
  rw [← List.append_assoc]
  exact List.prefix_append _ _

theorem valid_fork_reply {call : VrpcCall} {m : List (Str × Json)}
    (h : call.memory.awaited_callbacks call.call_id = some (.object m))
    (hpool : ValidPool call.memory.pids) {out : Str} {u : Unit} {fr : Frame} (hr : fork_reply host call out = .ok u fr) :
    ValidFrame host opts fr := by
  have hk := keeps_valid_reply host opts call.memory.instances (reply_members host out m) ⟨call.erased, .object m, [], none⟩
    (valid_nil host opts (a := call.erased) hpool _ none)
  rw [← fork_reply_eq host h, hr] at hk
  exact hk

end

theorem validPool_new : ValidPool Allocator.new := by
  rintro v ⟨e, he, hle, hge⟩
  cases List.mem_singleton.mp he
  exact ⟨hle, Nat.lt_succ_of_le hge⟩

/-! ## The system -/

section
variable {V : Type} (host : Host) (opts : Options) (R : RLib V)

structure ValidSystem (s : System V) : Prop where
  traced : Traced host opts s
  parent : ValidPool s.agent.pids
  forks : ∀ k f, s.sessions.forks k = some f → ValidPool f.call.memory.pids
  log : ∀ e ∈ s.log, ValidSent host opts e.sent
  unacked : ∀ x ∈ s.unacked, IsPacketId x.id

theorem valid_log {log : List Entry} {new : List Sent} (o : Origin) (h : ∀ e ∈ log, ValidSent host opts e.sent)
    (hnew : ∀ x ∈ new, ValidSent host opts x) : ∀ e ∈ log ++ new.map (⟨o, ·⟩), ValidSent host opts e.sent := by
  intro e he
  rcases List.mem_append.mp he with he | he
  · exact h e he
  · obtain ⟨x, hx, rfl⟩ := List.mem_map.mp he
    exact hnew x hx

theorem valid_unacked {l new : List Sent} (h : ∀ x ∈ l, IsPacketId x.id) (hnew : ∀ x ∈ new, ValidSent host opts x) :
    ∀ x ∈ l ++ new, IsPacketId x.id := by
  intro x hx
  rcases List.mem_append.mp hx with hx | hx
  · exact h x hx
  · exact (hnew x hx).id

theorem valid_start (genv : Env V) (fs : FS V) : ValidSystem host opts (System.start host opts genv fs) := by
  have h := valid_connack host opts (a := Agent.new) validPool_new
  exact ⟨(fresh_start host opts genv fs).traced host opts, h.pool, (fun k f hf => by cases hf),
    valid_log host opts _ (List.forall_mem_nil _) h.out, valid_unacked host opts (List.forall_mem_nil _) h.out⟩

theorem valid_step {s : System V} (h : ValidSystem host opts s) (e : Event) :
    ValidSystem host opts (s.step host opts R e) := by
  have htraced := traced_step host opts R h.traced e
  cases e with
  | deliver k m mc tmp =>
    by_cases hk : s.running = true ∧ (s.deliveries k).isNone
    · have hstep := step_deliver host opts R hk.1 (Option.isNone_iff_eq_none.mp hk.2) m mc tmp
      rw [hstep] at htraced ⊢
      have hframe := valid_handled host opts mc m h.parent
      refine ⟨htraced, hframe.pool, fun k' f hf => ?_, valid_log host opts _ h.log hframe.out,
        valid_unacked host opts h.unacked hframe.out⟩
      have hforks := start_forks (h.traced.idle k (Option.isNone_iff_eq_none.mp hk.2)).1
        (after (handled host opts mc m s.agent)).call tmp k'
      simp only [System.deliver] at hf
      rw [hforks] at hf
      split at hf
      · obtain ⟨c, hc, rfl⟩ := Option.map_eq_some_iff.mp hf
        obtain ⟨r, fn, args, inst, -, -, rfl⟩ := call_of_handled host opts hc
        exact h.parent
      · exact h.forks k' f hf
    · have hstep : s.step host opts R (.deliver k m mc tmp) = s := by
        unfold System.step
        exact if_neg hk
      rw [hstep]
      exact h
  | step k =>
    have hout : ∀ x ∈ s.sessions.fork_writes host R k, ValidSent host opts x := by
      rcases fork_writes_cases host R s.sessions k with hw | ⟨f, sc, ev, out, fr, hf, hst, hfr, hw⟩
      · rw [hw]
        exact List.forall_mem_nil _
      · obtain ⟨r, haw⟩ := h.traced.fork_awaits host opts hf
        rw [hw]
        exact (valid_fork_reply host opts haw (h.forks k f hf) hfr).out
    refine ⟨htraced, h.parent, fun k' f hf => ?_, valid_log host opts _ h.log hout, valid_unacked host opts h.unacked hout⟩
    simp only [System.step, Sessions.step] at hf
    split at hf
    · exact h.forks k' f hf
    · rename_i f' hf'
      rcases PartialMap.update_eq_some_iff.mp hf with ⟨rfl, rfl⟩ | ⟨-, hf⟩
      · exact h.forks k' f' hf'
      · exact h.forks k' f hf
  | ack i =>
    cases hi : s.unacked[i]? with
    | none =>
      have hstep : s.step host opts R (.ack i) = s := by simp only [System.step, hi]
      rw [hstep]
      exact h
    | some p =>
      simp only [System.step, hi] at htraced ⊢
      split
      · rename_i hrunning
        rw [if_pos hrunning] at htraced
        refine ⟨htraced, fun v hv => ?_, h.forks, h.log, fun x hx => h.unacked x (List.mem_of_mem_eraseIdx hx)⟩
        rcases (Allocator.free_deallocate s.agent.pids p.id v).mp hv with hv | rfl
        · exact h.parent v hv
        · exact h.unacked p (List.mem_of_getElem? hi)
      · exact h

end

/-! ## The connection -/

theorem not_shared {d f : Str} (hd : ¬ lit "$share/" <+: d ++ lit "/") (hf : d ++ lit "/" <+: f) : ¬ lit "$share/" <+: f := by
  intro hshare
  rcases List.prefix_or_prefix_of_prefix hshare hf with h | h
  · exact hd h
  · rw [show lit "$share/" = lit "$share" ++ [47] from rfl, show lit "/" = [47] from rfl] at h
    rcases List.prefix_concat_iff.mp h with h | h
    · refine hd ?_
      rw [show lit "/" = [47] from rfl, h]
      exact List.prefix_refl _
    · have hmem : (47 : UInt8) ∈ lit "$share" := h.subset (by simp)
      exact absurd hmem (by decide)

section
variable {V : Type} {text : Json → Str} {host : Host} {opts : Options}

theorem readable_of_valid (hhost : host.refuse = packet_refusal text) (hdomain : ¬ lit "$share/" <+: opts.domain ++ lit "/")
    {x : Sent} (h : ValidSent host opts x) : Readable text (.sent x) := by
  have hfilter : ∀ f, opts.domain ++ lit "/" <+: f → parse_shared_subscription f ≠ none := by
    intro f hf
    rw [parse_shared_subscription, if_neg (not_shared hdomain hf)]
    exact Option.some_ne_none _
  refine ⟨h.id.1, h.id.2, by rw [← hhost]; exact h.accepted, ?_⟩
  have hp := h.domain
  cases hx : x.packet with
  | publish topic payload retain => trivial
  | subscribe topic_filter =>
    rw [hx] at hp
    exact hfilter _ hp
  | unsubscribe topic_filter =>
    rw [hx] at hp
    exact hfilter _ hp

variable (R : RLib V)

/-- The acknowledgement of a message bears the message's packet identifier. -/
def Acknowledges : SocketEvent → Prop
  | .puback id => IsPacketId id
  | _ => True

structure Handed (text : Json → Str) (host : Host) (opts : Options) (s : Connection V) : Prop where
  system : ValidSystem host opts s.system
  readable : ∀ q ∈ s.handed, Readable text q.2

theorem handed_hand {s : Connection V} (h : ∀ q ∈ s.handed, Readable text q.2) (p : Process) {ps : List WirePacket}
    (hps : ∀ w ∈ ps, Readable text w) : ∀ q ∈ (s.hand text p ps).handed, Readable text q.2 := by
  intro q hq
  rcases List.mem_append.mp hq with hq | hq
  · exact h q hq
  · obtain ⟨w, hw, rfl⟩ := List.mem_map.mp hq
    exact hps w hw

theorem handed_start (hhost : host.refuse = packet_refusal text) (hdomain : ¬ lit "$share/" <+: opts.domain ++ lit "/")
    (genv : Env V) (fs : FS V) : Handed text host opts (Connection.start text host opts genv fs) := by
  have hvalid := valid_start host opts genv fs
  refine ⟨hvalid, handed_hand (s := ⟨System.start host opts genv fs, [], SharedStream.init⟩)
    (List.forall_mem_nil _) _ fun w hw => ?_⟩
  obtain ⟨e, he, rfl⟩ := List.mem_map.mp hw
  exact readable_of_valid hhost hdomain (hvalid.log e he)

theorem handed_step (hhost : host.refuse = packet_refusal text) (hdomain : ¬ lit "$share/" <+: opts.domain ++ lit "/")
    {s : Connection V} (h : Handed text host opts s) {e : SocketEvent} (he : Acknowledges e) :
    Handed text host opts (s.step text host opts R e) := by
  cases e with
  | sys e =>
    simp only [Connection.step]
    split
    · exact h
    · have hvalid := valid_step host opts R h.system e
      refine ⟨hvalid, handed_hand (s := { s with system := s.system.step host opts R e }) h.readable _ fun w hw => ?_⟩
      obtain ⟨x, hx, rfl⟩ := List.mem_map.mp hw
      exact readable_of_valid hhost hdomain (hvalid.log x (List.mem_of_mem_drop hx))
  | puback id =>
    simp only [Connection.step]
    split
    · exact h
    · refine ⟨h.system, handed_hand h.readable _ fun w hw => ?_⟩
      rw [List.mem_singleton.mp hw]
      exact he
  | write p n => exact ⟨h.system, h.readable⟩

theorem mem_of_packets_of {ι π : Type} [DecidableEq ι] {q : ι × π} {l l' : List (ι × π)} (hq : q ∈ l)
    (h : SharedStream.packets_of q.1 l <+: SharedStream.packets_of q.1 l') : q ∈ l' := by
  have hmem : q.2 ∈ SharedStream.packets_of q.1 l := List.mem_map.mpr ⟨q, List.mem_filter.mpr ⟨hq, by simp⟩, rfl⟩
  obtain ⟨q', hq', heq⟩ := List.mem_map.mp (h.subset hmem)
  obtain ⟨hq', hp⟩ := List.mem_filter.mp hq'
  have : q' = q := Prod.ext (by simpa using hp) heq
  exact this ▸ hq'

theorem packets_of_take {ι π : Type} [DecidableEq ι] (p : ι) (l : List (ι × π)) (n : Nat) :
    SharedStream.packets_of p (l.take n) <+: SharedStream.packets_of p l :=
  ((List.take_prefix n l).filter _).map _

/-- The peer has taken `packets` from the stream, and has a part of the next one, if anything. -/
structure Taken (text : Json → Str) (s : Connection V) (packets : List (Process × WirePacket)) (part : Str) : Prop where
  stream : s.line.stream = (packets.flatMap fun q => wire_bytes text q.2) ++ part
  written : ∀ p, SharedStream.packets_of p packets <+: SharedStream.packets_of p s.handed
  next : part ≠ [] → ∃ q t, part ++ t = wire_bytes text q.2 ∧ t ≠ [] ∧
    ∀ p, SharedStream.packets_of p (packets ++ [q]) <+: SharedStream.packets_of p s.handed
  whole : (∀ p, ¬ s.blocked p) → part = [] ∧ ∀ p, SharedStream.packets_of p packets = SharedStream.packets_of p s.handed
  handed : s.handed.filterMap sent_entry = s.system.log.map fun e => (e.origin.process, e.sent)

def ReadsBack (text : Json → Str) (limit : Nat) (s : Connection V) : Prop :=
  ∀ chunks : List Str, chunks.flatten = s.line.stream → ∃ packets part,
    received limit chunks = (packets.map fun q => incoming text q.2, .waiting part) ∧ Taken text s packets part

/-- **The peer reads what the processes wrote** in every run in which the processes write their
packets one at a time. -/
theorem stream_is_read_back (limit : Nat) (hhost : host.refuse = packet_refusal text)
    (hdomain : ¬ lit "$share/" <+: opts.domain ++ lit "/") (genv : Env V) (fs : FS V) {evs : List SocketEvent}
    (hrun : Along (Connection.step text host opts R) WritesAlone (Connection.start text host opts genv fs) evs)
    (hacks : ∀ e ∈ evs, Acknowledges e) :
    ReadsBack text limit (run (Connection.step text host opts R) (Connection.start text host opts genv fs) evs) := by
  have hframed : SharedStream.Framed (wire_bytes text) (Connection.start text host opts genv fs).line .parent :=
    SharedStream.framed_post _ (SharedStream.framed_init _ _) _ _
  obtain ⟨hc, p, hf⟩ := run_carried text host opts R (carried_start text host opts genv fs) hframed hrun
  have hhanded : Handed text host opts
      (run (Connection.step text host opts R) (Connection.start text host opts genv fs) evs) :=
    run_inv (P := Handed text host opts) (fun _ _ h he => handed_step R hhost hdomain h he)
      (handed_start hhost hdomain genv fs) (along_of_mem (G := fun _ e => Acknowledges e) fun e he _ => hacks e he)
  generalize run (Connection.step text host opts R) (Connection.start text host opts genv fs) evs = s at *
  have hr := read_packet_steady limit true
  have hwritten : ∀ q, SharedStream.packets_of q s.line.begun <+: SharedStream.packets_of q s.handed := by
    intro q
    rw [← hc.posted q]
    exact List.prefix_append _ _
  have hdecodes : ∀ q ∈ s.line.begun, ReadsAs (read_packet limit true) (fun q : Process × WirePacket => wire_bytes text q.2)
      (fun q => incoming text q.2) q :=
    fun q hq => packet_decodes text limit (hhanded.readable q (mem_of_packets_of hq (hwritten q.1)))
  intro chunks hchunks
  rw [received_eq, hchunks]
  by_cases hnone : ∀ p, ¬ s.blocked p
  · have hrest : s.line.rest p = [] := by
      by_contra hne
      exact hnone p (Or.inl hne)
    have hwhole : ∀ q, SharedStream.packets_of q s.line.begun = SharedStream.packets_of q s.handed := by
      intro q
      have hqueue : s.line.queue q = [] := by
        by_contra hne
        exact hnone q (Or.inr hne)
      rw [← hc.posted q, SharedStream.posted, hqueue, List.append_nil]
    have hbytes := hf.bytes
    rw [hrest, List.append_nil] at hbytes
    have hread := read_encoded hr [] hdecodes
    rw [List.append_nil, ← hbytes, read_more hr.nil, List.append_nil] at hread
    refine ⟨s.line.begun, [], hread, ?_, hwritten, fun h => absurd rfl h, fun _ => ⟨rfl, hwhole⟩, hc.handed⟩
    rw [List.append_nil]
    exact hbytes
  · obtain ⟨n, part, hread, hsplit, hnext⟩ := read_of_prefix hr hdecodes hf.bytes
    have htake : ∀ k p, SharedStream.packets_of p (s.line.begun.take k) <+: SharedStream.packets_of p s.handed :=
      fun k p => (packets_of_take p s.line.begun k).trans (hwritten p)
    refine ⟨s.line.begun.take n, part, hread, hsplit, htake n, fun hne => ?_, fun h => absurd h hnone, hc.handed⟩
    obtain ⟨q, t, hq, hpart, ht⟩ := hnext.resolve_left hne
    refine ⟨q, t, hpart, ht, fun p => ?_⟩
    have hlast := htake (n + 1) p
    rwa [List.take_add_one, hq] at hlast

end

def checked_host : Host := { two_calls_host with refuse := packet_refusal digit_text }

/-- The parent, which acknowledges a message in between, and then both forks. -/
def processes_in_turn : List SocketEvent :=
  [.write .parent 3, .write .parent 1000, .puback 7] ++ List.replicate 5 (.write .parent 1000) ++ two_calls.map .sys ++
    [.write (.fork 0) 0, .write (.fork 0) 1000, .write (.fork 1) 20]

theorem processes_are_read_back :
    ReadsBack digit_text 256 (run (Connection.step digit_text checked_host small_options small_R)
    (Connection.start digit_text checked_host small_options (fun _ => none) (fun _ => none)) processes_in_turn) := by
  have hturns : one_at_a_time digit_text checked_host small_options small_R
      (Connection.start digit_text checked_host small_options (fun _ => none) (fun _ => none)) .parent
        processes_in_turn = true := by
    decide +kernel
  have halone := along_one_at_a_time digit_text checked_host small_options small_R (fun _ _ => rfl) hturns
  refine stream_is_read_back small_R 256 rfl (by decide) (fun _ => none) (fun _ => none) halone fun e he => ?_
  simp only [processes_in_turn, List.mem_append, List.mem_replicate, List.mem_map] at he
  rcases he with ((he | ⟨-, rfl⟩) | ⟨e, -, rfl⟩) | he
  · simp only [List.mem_cons, List.not_mem_nil, or_false] at he
    rcases he with rfl | rfl | rfl
    · trivial
    · trivial
    · exact ⟨by decide, by decide⟩
  · trivial
  · trivial
  · simp only [List.mem_cons, List.not_mem_nil, or_false] at he
    rcases he with rfl | rfl | rfl <;> trivial

end VrpcAgent

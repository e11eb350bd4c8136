import VrpcAgent.JsonText
import VrpcAgent.Trace

/-!
# The payloads on the connection

Every payload that a process writes is a value that the parser makes of its text. The
strings of a topic or of an R result may be ill-formed; `dump` keeps those from the
connection.
-/

namespace VrpcAgent

open Function Effects Runs Json

/-! ## The values that a handler keeps -/

section
variable {P : Rat → Prop}

theorem stored_touch (k : Str) {m : List (Str × Json)} (h : Stored P (.object m)) : Stored P (.object (touch k m)) := by
  unfold touch
  split
  · exact h
  · exact stored_put stored_null h

theorem stored_empty : Stored P (.object []) := stored_object.mpr ⟨List.Pairwise.nil, List.forall_mem_nil _⟩

theorem stored_members {j : Json} {m : List (Str × Json)} (h : Stored P j) (hm : j.members = some m) :
    Stored P (.object m) := by
  cases j with
  | null =>
    cases hm
    exact stored_empty
  | object m' =>
    cases hm
    exact h
  | _ => cases hm

theorem stored_strings (l : List Str) : Stored P (strings l) := by
  refine stored_array.mpr fun x hx => ?_
  obtain ⟨s, -, rfl⟩ := List.mem_map.mp hx
  exact stored_string s

def Dumpable (P : Rat → Prop) : Packet → Prop
  | .publish _ payload _ => Restorable P payload
  | _ => True

theorem dumpable_dumped {j : Json} (h : Stored P j) {t : Str} {retain : Bool} {p : Packet}
    (hp : dumped j (.publish t j retain) = .ok p) : Dumpable P p := by
  unfold dumped at hp
  split at hp
  · cases hp
  · rename_i hnone
    cases hp
    exact ⟨h, hnone⟩

theorem dumpable_reply {l : List Str} {m : List (Str × Json)} (h : Stored P (.object m)) {p : Packet}
    (hp : (reply_write l m).packet = .ok p) : Dumpable P p := by
  simp only [reply_write, reply_packet] at hp
  split at hp
  · cases hp
  · exact dumpable_dumped (stored_touch _ h) hp

variable (host : Host) (opts : Options)

theorem keeps_dumpable_dump_send {out : List Sent} {j : Json} (h : Stored P j) (t : Str) (retain : Bool) :
    Keeps (Appends (Dumpable P) out) (dump j >>= fun payload => send host (.publish t payload retain)) := by
  unfold dump
  cases hj : j.dump_error with
  | some e => exact keeps_throw e
  | none => exact keeps_appends_send host (p := .publish t j retain) ⟨h, hj⟩

section
variable (hthree : P 3)

include hthree in
theorem stored_agent_info : Stored P (agent_info host opts) :=
  stored_put (stored_number.mpr hthree)
    (stored_put (stored_string _) (stored_put (stored_string _) (stored_put (stored_string _) stored_empty)))

include hthree in
theorem stored_class_info (l : List Str) : Stored P (class_info opts l) :=
  stored_put (stored_number.mpr hthree) (stored_put stored_null (stored_put (stored_strings _) (stored_put (stored_strings _)
    (stored_put (stored_strings _) (stored_put (stored_string _) stored_empty)))))

include hthree in
theorem dumpable_connack (s : Frame) : Appends (Dumpable P) s.out (after ((connack_handler host opts).run s)) := by
  have hsubscribe : ∀ f, Keeps (Appends (Dumpable P) s.out) (send host (.subscribe f)) :=
    fun f => keeps_appends_send host trivial
  have hclass : Keeps (Appends (Dumpable P) s.out) (publish_class_info host opts) :=
    keeps_bind keeps_get fun _ => keeps_dumpable_dump_send host (stored_class_info opts hthree _) _ true
  have hstatic : Keeps (Appends (Dumpable P) s.out) (subscribe_static host opts) :=
    keeps_bind (hsubscribe _) fun _ => keeps_bind (hsubscribe _) fun _ => keeps_bind (hsubscribe _) fun _ =>
      keeps_bind (keeps_subscribe_all host fun x _ => hsubscribe _) fun _ => hclass
  have hinfo : Keeps (Appends (Dumpable P) s.out) (publish_agent_info host opts) :=
    keeps_dumpable_dump_send host (stored_agent_info host opts hthree) _ true
  rw [connack_handler_eq]
  exact keeps_bind hinfo (fun _ => hstatic) s (appends_refl _ s)

/-! ## Requests -/

def DumpableWrite (P : Rat → Prop) (w : Write) : Prop := Stored P (.object w.members) ∧ ∀ p, w.packet = .ok p → Dumpable P p

theorem dumpable_reply_write (l : List Str) {m : List (Str × Json)} (h : Stored P (.object m)) :
    DumpableWrite P (reply_write l m) :=
  ⟨stored_touch _ h, fun _ => dumpable_reply h⟩

include hthree in
theorem dumpable_writes {m : List (Str × Json)} (h : Stored P (.object m)) (l : List Str) (a : Action) :
    ∀ w ∈ writes opts l m a, DumpableWrite P w := by
  intro w hw
  have hinfo : ∀ l', DumpableWrite P ⟨l', m, class_info_packet opts l'⟩ := fun l' =>
    ⟨h, fun _ => dumpable_dumped (stored_class_info opts hthree l')⟩
  have hfilter : ∀ l' p, (∀ t j r, p ≠ .publish t j r) → DumpableWrite P ⟨l', m, .ok p⟩ := by
    intro l' p hp
    refine ⟨h, fun q hq => ?_⟩
    cases hq
    cases p with
    | publish t j r => exact absurd rfl (hp t j r)
    | subscribe f => trivial
    | unsubscribe f => trivial
  cases a with
  | call fn args inst => cases hw
  | create x =>
    simp only [writes, List.mem_cons, List.not_mem_nil, or_false] at hw
    rcases hw with rfl | rfl | rfl
    · exact hfilter _ _ fun _ _ _ hp => by cases hp
    · exact hinfo _
    · exact dumpable_reply_write _ (stored_put (stored_string x) h)
  | delete x =>
    simp only [writes, List.mem_cons] at hw
    rcases hw with rfl | hw
    · exact hfilter _ _ fun _ _ _ hp => by cases hp
    · split at hw
      · simp only [List.mem_cons, List.not_mem_nil, or_false] at hw
        rcases hw with rfl | rfl
        · exact hinfo _
        · exact dumpable_reply_write _ (stored_put (stored_boolean true) h)
      · rw [List.mem_singleton.mp hw]
        exact dumpable_reply_write _ (stored_put (stored_boolean false) h)
  | invalid e =>
    simp only [writes, List.mem_singleton] at hw
    rw [hw]
    exact ⟨h, fun p hp => by cases hp⟩

theorem keeps_dumpable_write {w : Write} (hw : DumpableWrite P w) {out : List Sent} :
    Keeps (Appends (Dumpable P) out) (write host w) :=
  keeps_appends_write host hw.2

theorem dumpable_served {out : List Sent} {ws : List Write} (h : ∀ w ∈ ws, DumpableWrite P w) {s : Frame}
    (hs : Appends (Dumpable P) out s) :
    Appends (Dumpable P) out (after (served host s ws)) := by
  induction ws generalizing s with
  | nil => exact hs
  | cons w ws ih =>
    obtain ⟨hw, hws⟩ := List.forall_mem_cons.mp h
    have hwrite := keeps_dumpable_write host hw s hs
    cases hr : (write host w).run s with
    | ok u s' =>
      rw [hr] at hwrite
      rw [served_cons_ok host hr]
      exact ih hws hwrite
    | error e s' =>
      rw [hr] at hwrite
      rw [served_cons_error host hr]
      exact keeps_dumpable_write host (dumpable_reply_write _ (stored_put (stored_string _) hw.1)) s' hwrite

variable (hparse : ∀ s v, host.parse s = some v → Stored P v)

include hparse in
theorem stored_context {m : Msg} {r : Request} (hr : request host m = some r) : Stored P (.object r.context) := by
  obtain ⟨d, a, j, -, hj, hm⟩ := request_some host hr
  exact stored_put (stored_string _) (stored_put (stored_string _) (stored_members (hparse _ j hj) hm))

include hthree hparse in
theorem dumpable_handled (mc : Except Str Unit) (m : Msg) (a : Agent) :
    ∀ x ∈ (after (handled host opts mc m a)).out, Dumpable P x.packet := by
  cases hr : request host m with
  | none =>
    obtain ⟨j, hj⟩ := handled_none host opts mc hr a
    rw [hj]
    exact List.forall_mem_nil _
  | some r =>
    cases ha : r.action mc with
    | call fn args inst =>
      rw [handled_call host opts hr ha]
      exact List.forall_mem_nil _
    | _ =>
      rw [handled_served host opts hr (by rw [ha]; rfl), after_andThen_pure]
      have hbody : Stored P (.object r.body) := stored_touch _ (stored_context host hparse hr)
      obtain ⟨new, hout, hnew⟩ := dumpable_served host (dumpable_writes opts hthree hbody a.instances (r.action mc))
        (appends_refl (Dumpable P) ⟨r.register a, .object r.body, [], none⟩)
      rw [hout]
      exact hnew

include hparse in
theorem dumpable_fork_reply {call : VrpcCall} {m : List (Str × Json)}
    (h : call.memory.awaited_callbacks call.call_id = some (.object m))
    (hm : Stored P (.object m)) {out : Str} {u : Unit} {fr : Frame} (hr : fork_reply host call out = .ok u fr) :
    ∀ x ∈ fr.out, Dumpable P x.packet := by
  have hreply : Stored P (.object (reply_members host out m)) := by
    unfold reply_members
    split
    · exact stored_put (stored_string _) hm
    · cases hout : host.parse out with
      | none => exact stored_put (stored_string _) hm
      | some v => exact stored_put (hparse out v hout) hm
  have hwrite := keeps_dumpable_write host (dumpable_reply_write call.memory.instances hreply)
    ⟨call.erased, .object m, [], none⟩
    (appends_refl (Dumpable P) _)
  rw [← fork_reply_eq host h, hr] at hwrite
  obtain ⟨new, hout, hnew⟩ := hwrite
  rw [after_ok, List.nil_append] at hout
  rw [hout]
  exact hnew

end

/-! ## The system -/

section
variable {V : Type} (R : RLib V) (hthree : P 3) (hparse : ∀ s v, host.parse s = some v → Stored P v)

theorem dumpable_log {log : List Entry} (h : ∀ e ∈ log, Dumpable P e.sent.packet) (o : Origin) {new : List Sent}
    (hnew : ∀ x ∈ new, Dumpable P x.packet) : ∀ e ∈ log ++ new.map (⟨o, ·⟩), Dumpable P e.sent.packet := by
  intro e he
  rcases List.mem_append.mp he with he | he
  · exact h e he
  · obtain ⟨x, hx, rfl⟩ := List.mem_map.mp he
    exact hnew x hx

include hthree in
theorem dumpable_start (genv : Env V) (fs : FS V) : ∀ e ∈ (System.start host opts genv fs).log, Dumpable P e.sent.packet := by
  obtain ⟨new, hout, hnew⟩ := dumpable_connack host opts hthree ⟨Agent.new, .null, [], none⟩
  rw [List.nil_append] at hout
  intro e he
  obtain ⟨x, hx, rfl⟩ := List.mem_map.mp he
  rw [hout] at hx
  exact hnew x hx

include hthree hparse in
theorem dumpable_step {s : System V} (ht : Traced host opts s) (h : ∀ e ∈ s.log, Dumpable P e.sent.packet) (e : Event) :
    ∀ e' ∈ (s.step host opts R e).log, Dumpable P e'.sent.packet := by
  cases e with
  | deliver k m mc tmp =>
    by_cases hk : s.running = true ∧ (s.deliveries k).isNone
    · rw [step_deliver host opts R hk.1 (Option.isNone_iff_eq_none.mp hk.2) m mc tmp]
      exact dumpable_log h _ (dumpable_handled host opts hthree hparse mc m s.agent)
    · simp only [System.step, if_neg hk]
      exact h
  | step k =>
    refine dumpable_log h _ ?_
    rcases fork_writes_cases host R s.sessions k with hw | ⟨f, sc, ev, out, fr, hf, -, hfr, hw⟩
    · rw [hw]
      exact List.forall_mem_nil _
    · obtain ⟨d, r, mc, a, fn, args, inst, -, hr, -, hcall⟩ := ht.fork_call host opts hf
      have haw : f.call.memory.awaited_callbacks f.call.call_id = some (.object r.context) := by
        rw [hcall]
        exact update_self ..
      rw [hw]
      exact dumpable_fork_reply host hparse haw (stored_context host hparse hr) hfr
  | ack i =>
    simp only [System.step]
    split
    · exact h
    · split <;> exact h

include hthree hparse in
theorem run_dumpable (genv : Env V) (fs : FS V) (evs : List Event) :
    ∀ e ∈ (run (System.step host opts R) (System.start host opts genv fs) evs).log, Dumpable P e.sent.packet := by
  have hinv := run_inv (P := fun s => Traced host opts s ∧ ∀ e ∈ s.log, Dumpable P e.sent.packet)
    (fun s e hs _ => ⟨traced_step host opts R hs.1 e, dumpable_step host opts R hthree hparse hs.1 hs.2 e⟩)
    ⟨(fresh_start host opts genv fs).traced host opts, dumpable_start host opts hthree genv fs⟩
    (along_true (System.start host opts genv fs) evs)
  exact hinv.2

end

end

def PayloadsParsed (strtod : Str → Option Rat) (log : List Entry) : Prop :=
  ∀ e ∈ log, ∀ t v retain, e.sent.packet = .publish t v retain → Preserved strtod v

/-- **No payload is lost in its text**: whatever the requests, the functions and R come to, the peer's
parser makes of every payload that is written the value that the process had. -/
theorem payloads_are_parsed {V : Type} {strtod : Str → Option Rat} {host : Host} (hparse : host.parse = parse strtod)
    (opts : Options) (R : RLib V) (genv : Env V) (fs : FS V) (evs : List Event) :
    PayloadsParsed strtod (run (System.step host opts R) (System.start host opts genv fs) evs).log := by
  have hkept : ∀ s v, host.parse s = some v → Stored (Lexed strtod) v := by
    intro s v hv
    rw [hparse] at hv
    exact (parse_restorable strtod hv).toStored
  intro e he t v retain hp
  have hdumpable := run_dumpable host opts R (P := Lexed strtod) ⟨lit "3", rfl⟩ hkept genv fs evs e he
  rw [hp] at hdumpable
  exact preserved_of_restorable hdumpable

def parsing_host : Host := ⟨parse one_strtod, fun _ => none, lit "host"⟩

theorem created_payloads_are_parsed : PayloadsParsed one_strtod
    (run (System.step parsing_host small_options small_R)
    (System.start parsing_host small_options (fun _ => none) fun _ => none)
      [.deliver 0 (small_request "__static__" "__createShared__" (lit "t") [lit "x"]) (.ok ()) []]).log :=
  payloads_are_parsed rfl small_options small_R _ _ _

end VrpcAgent

import VrpcAgent.Agent

/-!
# What a request comes to

The publish handler in a normal form. A request asks for one `Action`, and an
action for a list of packets: `serve` writes them one after the other and, at
the first that cannot be built or is refused, the error reply.
-/

namespace VrpcAgent

open Function Effects

/-! ## The primitives -/

section
variable (host : Host) (opts : Options)

@[simp] theorem run_ofExcept_ok {α : Type} (a : α) (s : Frame) :
    (ofExcept (.ok a)).run s = .ok a s := rfl

@[simp] theorem run_ofExcept_error {α : Type} (e : Exn) (s : Frame) :
    (ofExcept (.error e) : M α).run s = .error e s := rfl

theorem run_send (p : Packet) (s : Frame) :
    (send host p).run s =
      match s.agent.pids.allocate with
      | none => .error .packet_id_exhausted_error s
      | some (id, pids) =>
        match host.refuse p with
        | some e => .error e { s with agent := { s.agent with pids } }
        | none => .ok () { s with agent := { s.agent with pids }, out := s.out ++ [⟨id, p⟩] } := by
  simp only [send, run_bind, EStateM.run_get, andThen_ok]
  cases s.agent.pids.allocate with
  | none => rfl
  | some r =>
    obtain ⟨id, pids⟩ := r
    cases host.refuse p <;> rfl

theorem keeps_dump {I : Frame → Prop} (j : Json) : Keeps I (dump j) := by
  unfold dump
  split
  · exact keeps_throw _
  · exact keeps_pure _

theorem keeps_subscribe_all {I : Frame → Prop} {base : Str} :
    ∀ {l : List Str}, (∀ x ∈ l, Keeps I (send host (.subscribe (base ++ x)))) → Keeps I (subscribe_all host base l)
  | [], _ => keeps_pure ()
  | x :: _, h => keeps_bind (h x List.mem_cons_self) fun _ =>
    keeps_subscribe_all fun y hy => h y (List.mem_cons_of_mem _ hy)

/-- The connack handler behind the agent information. -/
def subscribe_static (host : Host) (opts : Options) : M Unit := do
  let base := base_topic opts
  send host (.subscribe (base ++ lit "__createShared__"))
  send host (.subscribe (base ++ lit "__delete__"))
  send host (.subscribe (base ++ lit "call"))
  subscribe_all host base opts.functions
  publish_class_info host opts

theorem connack_handler_eq :
    connack_handler host opts = publish_agent_info host opts >>= fun _ => subscribe_static host opts := rfl

theorem keeps_subscribe_static {I : Frame → Prop}
    (hpublish : ∀ j, Keeps I (send host (.publish (class_info_topic opts) j true)))
    (hsubscribe : ∀ x ∈ [lit "__createShared__", lit "__delete__", lit "call"] ++ opts.functions,
      Keeps I (send host (.subscribe (base_topic opts ++ x)))) : Keeps I (subscribe_static host opts) :=
  keeps_bind (hsubscribe _ (by simp)) fun _ =>
    keeps_bind (hsubscribe _ (by simp)) fun _ =>
      keeps_bind (hsubscribe _ (by simp)) fun _ =>
        keeps_bind (keeps_subscribe_all host fun x hx => hsubscribe x (List.mem_append_right _ hx)) fun _ =>
          keeps_bind keeps_get fun _ => keeps_bind (keeps_dump _) fun _ => hpublish _

theorem keeps_connack {I : Frame → Prop} (hpublish : ∀ t j r, Keeps I (send host (.publish t j r)))
    (hsubscribe : ∀ x ∈ [lit "__createShared__", lit "__delete__", lit "call"] ++ opts.functions,
      Keeps I (send host (.subscribe (base_topic opts ++ x)))) : Keeps I (connack_handler host opts) :=
  keeps_bind (keeps_bind (keeps_dump _) fun _ => hpublish _ _ _) fun _ =>
    keeps_subscribe_static host opts (fun _ => hpublish _ _ _) hsubscribe

theorem run_set_j {s : Frame} {m : List (Str × Json)} (h : s.j.members = some m) (k : Str) (v : Json) :
    (set_j k v).run s = .ok () { s with j := .object (Json.put k v m) } := by
  simp only [set_j, run_bind, EStateM.run_get, andThen_ok, Json.set_key_eq h, run_ofExcept_ok]
  rfl

/-! ## Writes -/

/-- One packet of a handler: the instances and the members of `j` at that point,
and the packet, or what building it throws. -/
structure Write where
  instances : List Str
  members : List (Str × Json)
  packet : Except Exn Packet

def write (w : Write) : M Unit := do
  modify fun s => { s with agent := { s.agent with instances := w.instances }, j := .object w.members }
  let p ← ofExcept w.packet
  send host p

theorem run_write (w : Write) (s : Frame) :
    (write host w).run s =
      match w.packet with
      | .error e => .error e { s with agent := { s.agent with instances := w.instances }, j := .object w.members }
      | .ok p =>
        (send host p).run { s with agent := { s.agent with instances := w.instances }, j := .object w.members } := by
  simp only [write, run_bind]
  cases w.packet <;> rfl

theorem run_write_over (w : Write) (s : Frame) (l : List Str) (j : Json) :
    (write host w).run { s with agent := { s.agent with instances := l }, j } = (write host w).run s := by
  simp only [run_write]

theorem write_ok {w : Write} {s s' : Frame} (h : (write host w).run s = .ok () s') :
    ∃ p id pids, w.packet = .ok p ∧ s.agent.pids.allocate = some (id, pids) ∧ host.refuse p = none ∧
      s' = { s with
        agent := { s.agent with instances := w.instances, pids }, j := .object w.members, out := s.out ++ [⟨id, p⟩] } := by
  rw [run_write] at h
  cases hp : w.packet with
  | error e => rw [hp] at h; cases h
  | ok p =>
    simp only [hp, run_send] at h
    cases ha : s.agent.pids.allocate with
    | none => rw [ha] at h; cases h
    | some r =>
      obtain ⟨id, pids⟩ := r
      cases hr : host.refuse p with
      | some e => simp only [ha, hr] at h; cases h
      | none => simp only [ha, hr] at h; cases h; exact ⟨p, id, pids, rfl, rfl, hr, rfl⟩

theorem write_frame {w : Write} {s s' : Frame} {u : Unit} (h : (write host w).run s = .ok u s') :
    s'.j = .object w.members ∧ s'.agent.instances = w.instances := by
  obtain ⟨p, id, pids, -, -, -, rfl⟩ := write_ok host h
  exact ⟨rfl, rfl⟩

theorem write_error {w : Write} {s s' : Frame} {e : Exn} (h : (write host w).run s = .error e s') :
    ∃ pids, s' = { s with agent := { s.agent with instances := w.instances, pids }, j := .object w.members } ∧
      (pids = s.agent.pids ∨ ∃ id, s.agent.pids.allocate = some (id, pids)) := by
  rw [run_write] at h
  cases hp : w.packet with
  | error e => rw [hp] at h; cases h; exact ⟨_, rfl, Or.inl rfl⟩
  | ok p =>
    simp only [hp, run_send] at h
    cases ha : s.agent.pids.allocate with
    | none => rw [ha] at h; cases h; exact ⟨_, rfl, Or.inl rfl⟩
    | some r =>
      obtain ⟨id, pids⟩ := r
      cases hr : host.refuse p with
      | some e => simp only [ha, hr] at h; cases h; exact ⟨pids, rfl, Or.inr ⟨id, rfl⟩⟩
      | none => simp only [ha, hr] at h; cases h

def dumped (j : Json) (p : Packet) : Except Exn Packet :=
  match j.dump_error with
  | some e => .error e
  | none => .ok p

def reply_packet (m : List (Str × Json)) : Except Exn Packet :=
  match (Json.member (lit "s") m).get_string with
  | .error e => .error e
  | .ok s => dumped (.object m) (.publish s (.object m) false)

theorem reply_packet_eq {m : List (Str × Json)} {p : Packet} (h : reply_packet m = .ok p) :
    ∃ t, Json.member (lit "s") m = .string t ∧ p = .publish t (.object m) false := by
  cases hs : Json.member (lit "s") m with
  | string t =>
    simp only [reply_packet, hs, Json.get_string, dumped] at h
    split at h
    · cases h
    · cases h; exact ⟨t, rfl, rfl⟩
  | _ => simp only [reply_packet, hs, Json.get_string] at h; cases h

def class_info_packet (l : List Str) : Except Exn Packet :=
  dumped (class_info opts l) (.publish (class_info_topic opts) (class_info opts l) true)

def reply_write (l : List Str) (m : List (Str × Json)) : Write :=
  ⟨l, Json.touch (lit "s") m, reply_packet (Json.touch (lit "s") m)⟩

theorem run_publish_reply {s : Frame} {m : List (Str × Json)} (h : s.j.members = some m) :
    (publish_reply host).run s = (write host (reply_write s.agent.instances m)).run s := by
  simp only [publish_reply, run_write, run_bind, EStateM.run_get, andThen_ok, Json.at_key_eq h, run_ofExcept_ok,
    reply_write, reply_packet, Json.member_touch]
  cases (Json.member (lit "s") m).get_string with
  | error e => rfl
  | ok t =>
    simp only [dumped, dump]
    cases (Json.object (Json.touch (lit "s") m)).dump_error <;> rfl

theorem run_publish_class_info {s : Frame} {m : List (Str × Json)} (h : s.j = .object m) :
    (publish_class_info host opts).run s =
      (write host ⟨s.agent.instances, m, class_info_packet opts s.agent.instances⟩).run s := by
  simp only [publish_class_info, run_write, run_bind, EStateM.run_get, andThen_ok, class_info_packet, dumped, dump,
    ← h]
  cases (class_info opts s.agent.instances).dump_error <;> rfl

end

/-! ## Actions -/

inductive Action where
  | call (func_name : Str) (args : Json) (inst : Option Str)
  | create (x : Str)
  | delete (x : Str)
  | invalid (e : Exn)

def first_string (args : Json) (f : Str → Action) : Action :=
  match args.at_idx 0 >>= Json.get_string with
  | .error e => .invalid e
  | .ok x => f x

def start_action (mc : Except Str Unit) (func_name : Str) (args : Json) (inst : Option Str) : Action :=
  match args.dump_error with
  | some e => .invalid e
  | none =>
    match mc with
    | .error msg => .invalid (.r_error msg)
    | .ok () => .call func_name args inst

def call_action (mc : Except Str Unit) (function : Str) (args : Json) (inst : Option Str) : Action :=
  if function = lit "call" then first_string args fun r => start_action mc r (.array args.tail) inst
  else start_action mc function args inst

/-- What a request asks for, given its instance level, its function level and
its arguments. -/
def action (mc : Except Str Unit) (inst function : Str) (args : Json) : Action :=
  if inst = lit "__static__" then
    if function = lit "__createShared__" then first_string args .create
    else if function = lit "__delete__" then first_string args .delete
    else call_action mc function args none
  else call_action mc function args (some inst)

theorem start_action_cases (mc : Except Str Unit) (fn : Str) (args : Json) (inst : Option Str) :
    start_action mc fn args inst = .call fn args inst ∨ ∃ e, start_action mc fn args inst = .invalid e := by
  unfold start_action
  split
  · rename_i e _
    exact .inr ⟨e, rfl⟩
  · split
    · exact .inr ⟨_, rfl⟩
    · exact .inl rfl

theorem call_action_cases (mc : Except Str Unit) (function : Str) (args : Json) (inst : Option Str) :
    (∃ fn args', call_action mc function args inst = .call fn args' inst) ∨
      ∃ e, call_action mc function args inst = .invalid e := by
  have hstart : ∀ fn args', (∃ fn₁ args₁, start_action mc fn args' inst = .call fn₁ args₁ inst) ∨
      ∃ e, start_action mc fn args' inst = .invalid e := fun fn args' =>
    (start_action_cases mc fn args' inst).imp_left fun h => ⟨fn, args', h⟩
  unfold call_action first_string
  split
  · split
    · rename_i e _
      exact .inr ⟨e, rfl⟩
    · exact hstart _ _
  · exact hstart _ _

/-- What an action writes, the registry being `l` and the members of `j` being
`m` before. -/
def writes (opts : Options) (l : List Str) (m : List (Str × Json)) : Action → List Write
  | .call .. => []
  | .create x =>
    [⟨l, m, .ok (.subscribe (instance_filter opts x))⟩,
     ⟨l ++ [x], m, class_info_packet opts (l ++ [x])⟩,
     reply_write (l ++ [x]) (Json.put (lit "r") (.string x) m)]
  | .delete x =>
    ⟨l, m, .ok (.unsubscribe (instance_filter opts x))⟩ ::
      if x ∈ l then
        [⟨l.erase x, m, class_info_packet opts (l.erase x)⟩,
         reply_write (l.erase x) (Json.put (lit "r") (.boolean true) m)]
      else [reply_write l (Json.put (lit "r") (.boolean false) m)]
  | .invalid e => [⟨l, m, .error e⟩]

/-- An action carried out: a call is handed to R, anything else is written. -/
def perform (host : Host) (opts : Options) (s : Frame) (m : List (Str × Json)) :
    Action → EStateM.Result Exn Frame Unit
  | .call fn args inst => .ok () { s with call := some ⟨fn, args, s.agent.call_id, inst, s.agent⟩ }
  | a => (each (write host) (writes opts s.agent.instances m a)).run s

section
variable (host : Host) (opts : Options) {s : Frame} {m : List (Str × Json)} (hj : s.j = .object m)
include hj

theorem run_invalid (e : Exn) : perform host opts s m (.invalid e) = .error e s := by
  rw [perform, writes, run_each_cons, run_write]
  · simp only [andThen_error, ← hj]
  · intro _ _ _ h; cases h

theorem run_send_write (p : Packet) :
    (send host p).run s = (write host ⟨s.agent.instances, m, .ok p⟩).run s := by
  rw [run_write, ← hj]

theorem run_set_instances (f : List Str → List Str) (k : M Unit) :
    ((do
      modify fun s => { s with agent := { s.agent with instances := f s.agent.instances } }
      publish_class_info host opts
      k) : M Unit).run s =
      andThen ((write host ⟨f s.agent.instances, m, class_info_packet opts (f s.agent.instances)⟩).run s)
        fun _ => k := by
  rw [run_bind, EStateM.run_modify, andThen_ok, run_bind, run_publish_class_info host opts, run_write_over]
  exact hj

theorem run_reply (v : Json) :
    ((do
      set_j (lit "r") v
      publish_reply host) : M Unit).run s =
      (each (write host) [reply_write s.agent.instances (Json.put (lit "r") v m)]).run s := by
  rw [run_bind, run_set_j (by rw [hj]; rfl), andThen_ok, run_publish_reply host rfl, run_each_singleton]
  exact run_write_over host _ s _ _

theorem run_first_string {args : Json} {f : Str → M Unit} {g : Str → Action}
    (h : ∀ x, (args.at_idx 0 >>= Json.get_string) = .ok x → (f x).run s = perform host opts s m (g x)) :
    (ofExcept (args.at_idx 0 >>= Json.get_string) >>= f).run s = perform host opts s m (first_string args g) := by
  rw [run_bind, first_string]
  cases hx : args.at_idx 0 >>= Json.get_string with
  | error e => simp only [run_invalid host opts hj, run_ofExcept_error, andThen_error]
  | ok x => exact h x hx

theorem run_create_shared (args : Json) :
    (create_shared host opts args).run s = perform host opts s m (first_string args .create) := by
  refine run_first_string host opts hj fun x _ => ?_
  simp only [run_bind _ _ s, run_send_write host hj, perform, writes, run_each_cons]
  refine andThen_congr fun _ s₁ h₁ => ?_
  obtain ⟨hj₁, hl₁⟩ := write_frame host h₁
  rw [run_set_instances host opts hj₁ (· ++ [x]), run_each_cons, hl₁]
  refine andThen_congr fun _ s₂ h₂ => ?_
  obtain ⟨hj₂, hl₂⟩ := write_frame host h₂
  rw [run_reply host hj₂, hl₂]

theorem run_delete (args : Json) :
    (delete host opts args).run s = perform host opts s m (first_string args .delete) := by
  refine run_first_string host opts hj fun x _ => ?_
  simp only [run_bind _ _ s, run_send_write host hj, perform, writes, run_each_cons]
  refine andThen_congr fun _ s₁ h₁ => ?_
  obtain ⟨hj₁, hl₁⟩ := write_frame host h₁
  rw [run_bind, EStateM.run_get, andThen_ok, hl₁]
  by_cases hmem : x ∈ s.agent.instances
  · simp only [if_pos hmem]
    rw [run_set_instances host opts hj₁ (·.erase x), run_each_cons, hl₁]
    refine andThen_congr fun _ s₂ h₂ => ?_
    obtain ⟨hj₂, hl₂⟩ := write_frame host h₂
    rw [run_reply host hj₂, hl₂]
  · simp only [if_neg hmem]
    rw [run_reply host hj₁, hl₁]

theorem run_vrpc_call (mc : Except Str Unit) (fn : Str) (args : Json) (inst : Option Str) :
    (vrpc_call mc fn args inst).run s = perform host opts s m (start_action mc fn args inst) := by
  unfold vrpc_call dump start_action
  rw [run_bind]
  cases hd : args.dump_error with
  | some e => simp only [run_invalid host opts hj, run_throw_any, andThen_error]
  | none =>
    cases mc with
    | error msg => simp only [run_invalid host opts hj, EStateM.run_pure, andThen_ok, run_throw_any]
    | ok u => rfl

theorem run_call_r (mc : Except Str Unit) (function : Str) (args : Json) (inst : Option Str) :
    (call_r mc function args inst).run s = perform host opts s m (call_action mc function args inst) := by
  unfold call_r call_action
  split
  · exact run_first_string host opts hj fun x _ => run_vrpc_call host opts hj mc x _ inst
  · exact run_vrpc_call host opts hj mc function args inst

end

/-! ## Requests -/

/-- A message of five topic levels whose payload takes members. -/
structure Request where
  class_name : Str
  inst : Str
  function : Str
  members : List (Str × Json)

def request (host : Host) (m : Msg) : Option Request :=
  match tokenize m.topic (lit "/") with
  | [_, _, class_name, inst, function] =>
    ((host.parse m.contents).bind Json.members).map fun ms => ⟨class_name, inst, function, ms⟩
  | _ => none

namespace Request

def context (r : Request) : List (Str × Json) :=
  Json.put (lit "f") (.string r.function) <|
    Json.put (lit "c") (.string (if r.inst = lit "__static__" then r.class_name else r.inst)) r.members

def args (r : Request) : Json := Json.member (lit "a") r.context

def action (r : Request) (mc : Except Str Unit) : Action := VrpcAgent.action mc r.inst r.function r.args

def body (r : Request) : List (Str × Json) := Json.touch (lit "a") r.context

def register (r : Request) (a : Agent) : Agent :=
  { a with
    call_id := a.call_id + 1
    awaited_callbacks := update a.awaited_callbacks (a.call_id + 1) (some (.object r.context)) }

def enter (r : Request) (s : Frame) : Frame := { s with agent := r.register s.agent, j := .object r.body }

end Request

section
variable (host : Host) (opts : Options) (mc : Except Str Unit)

theorem run_handle_request {s : Frame} {r : Request} (h : s.j.members = some r.members) :
    (handle_request host opts mc r.class_name r.inst r.function).run s =
      perform host opts (r.enter s) r.body (r.action mc) := by
  unfold handle_request
  rw [run_bind, run_set_j h, andThen_ok, run_bind, run_set_j rfl, andThen_ok, run_bind, EStateM.run_modify, andThen_ok,
    run_bind, EStateM.run_get, andThen_ok, Json.at_key_eq rfl, run_bind, run_ofExcept_ok, andThen_ok, run_bind,
    EStateM.run_modify, andThen_ok]
  have hj : (r.enter s).j = .object r.body := rfl
  have dispatch : ∀ args, EStateM.run
      (if r.inst = lit "__static__" then
        if r.function = lit "__createShared__" then create_shared host opts args
        else if r.function = lit "__delete__" then delete host opts args
        else call_r mc r.function args none
      else call_r mc r.function args (some r.inst)) (r.enter s) =
      perform host opts (r.enter s) r.body (action mc r.inst r.function args) := by
    intro args
    unfold action
    split
    · split
      · exact run_create_shared host opts hj args
      · split
        · exact run_delete host opts hj args
        · exact run_call_r host opts hj mc r.function args none
    · exact run_call_r host opts hj mc r.function args (some r.inst)
  exact dispatch r.args

def error_text (e : Exn) : Str := lit "Error while calling remote function: " ++ e.what

theorem run_report_error {s : Frame} {m : List (Str × Json)} (h : s.j.members = some m) (e : Exn) :
    (report_error host e).run s =
      (write host (reply_write s.agent.instances (Json.put (lit "e") (.string (error_text e)) m))).run s := by
  unfold report_error
  rw [run_bind, run_set_j h, andThen_ok, run_publish_reply host rfl]
  exact run_write_over host _ s _ _

theorem run_handler_ignored {m : Msg} (h : (tokenize m.topic (lit "/")).length ≠ 5) (s : Frame) :
    (publish_handler host opts mc m).run s = .ok true s := by
  unfold publish_handler
  simp only [h, ne_eq, not_false_eq_true, if_true]
  split <;> rfl

theorem run_handler_five {m : Msg} (h : (tokenize m.topic (lit "/")).length = 5) (s : Frame) :
    (publish_handler host opts mc m).run s =
      match host.parse m.contents with
      | none => .error .parse_error s
      | some j =>
        let tokens := tokenize m.topic (lit "/")
        andThen (orElse
          ((handle_request host opts mc (tokens.getD 2 []) (tokens.getD 3 []) (tokens.getD 4 [])).run { s with j })
          (report_error host)) fun _ => pure true := by
  unfold publish_handler
  simp only [h, Nat.reduceEqDiff, false_and, if_false, ne_eq, not_true]
  cases host.parse m.contents with
  | none => rfl
  | some j => simp only [run_bind, EStateM.run_modify, andThen_ok, run_tryCatch]

theorem five_levels : ∀ {tokens : List Str}, tokens.length = 5 → ∃ d a c i f, tokens = [d, a, c, i, f]
  | [d, a, c, i, f], _ => ⟨d, a, c, i, f, rfl⟩

theorem request_some {m : Msg} {r : Request} (h : request host m = some r) :
    ∃ d a j, tokenize m.topic (lit "/") = [d, a, r.class_name, r.inst, r.function] ∧
      host.parse m.contents = some j ∧ j.members = some r.members := by
  unfold request at h
  split at h
  · rename_i d a c i f ht
    obtain ⟨ms, hms, rfl⟩ := Option.map_eq_some_iff.mp h
    obtain ⟨j, hj, hm⟩ := Option.bind_eq_some_iff.mp hms
    exact ⟨d, a, j, ht, hj, hm⟩
  · cases h

theorem run_handler_request {m : Msg} {r : Request} (h : request host m = some r) (s : Frame) :
    (publish_handler host opts mc m).run s =
      andThen (orElse (perform host opts (r.enter s) r.body (r.action mc)) (report_error host)) fun _ => pure true := by
  obtain ⟨d, a, j, ht, hj, hm⟩ := request_some host h
  rw [run_handler_five host opts mc (by rw [ht]; rfl), hj]
  simp only [ht, List.getD_cons_succ, List.getD_cons_zero]
  rw [run_handle_request host opts mc hm]; rfl

theorem run_handler_no_request {m : Msg} (h : (tokenize m.topic (lit "/")).length = 5)
    (hr : request host m = none) (s : Frame) :
    ∃ e j, (publish_handler host opts mc m).run s = .error e { s with j } := by
  rw [run_handler_five host opts mc h]
  cases hj : host.parse m.contents with
  | none => exact ⟨_, s.j, rfl⟩
  | some j =>
    -- both the try block and the catch block start with an assignment to a member of `j`
    have hm : j.members = none := by
      unfold request at hr
      split at hr
      · simpa [hj] using hr
      · rename_i hne
        obtain ⟨d, a, c, i, f, ht⟩ := five_levels h
        exact absurd ht (hne d a c i f)
    refine ⟨j.key_error, j, ?_⟩
    simp only [handle_request, report_error, run_bind, set_j, EStateM.run_get, andThen_ok, Json.set_key_none hm,
      run_ofExcept_error, andThen_error, orElse_error]

/-! ## The handler from the start -/

def handled (m : Msg) (a : Agent) : EStateM.Result Exn Frame Bool :=
  (publish_handler host opts mc m).run ⟨a, .null, [], none⟩

def served (s : Frame) (ws : List Write) : EStateM.Result Exn Frame Unit :=
  orElse ((each (write host) ws).run s) (report_error host)

def Action.is_call : Action → Bool
  | .call .. => true
  | _ => false

variable {mc}

theorem handled_none (mc : Except Str Unit) {m : Msg} (h : request host m = none) (a : Agent) :
    ∃ j, after (handled host opts mc m a) = ⟨a, j, [], none⟩ := by
  by_cases h5 : (tokenize m.topic (lit "/")).length = 5
  · obtain ⟨e, j, he⟩ := run_handler_no_request host opts mc h5 h ⟨a, .null, [], none⟩
    exact ⟨j, by rw [handled, he]; rfl⟩
  · exact ⟨.null, by rw [handled, run_handler_ignored host opts mc h5]; rfl⟩

theorem handled_call {m : Msg} {r : Request} {fn : Str} {args : Json} {inst : Option Str}
    (h : request host m = some r) (ha : r.action mc = .call fn args inst) (a : Agent) :
    handled host opts mc m a =
      .ok true ⟨r.register a, .object r.body, [], some ⟨fn, args, a.call_id + 1, inst, r.register a⟩⟩ := by
  rw [handled, run_handler_request host opts mc h, ha]; rfl

theorem handled_served {m : Msg} {r : Request} (h : request host m = some r) (ha : (r.action mc).is_call = false)
    (a : Agent) :
    handled host opts mc m a =
      andThen (served host ⟨r.register a, .object r.body, [], none⟩ (writes opts a.instances r.body (r.action mc)))
        fun _ => pure true := by
  rw [handled, run_handler_request host opts mc h]
  cases hr : r.action mc with
  | call => rw [hr] at ha; cases ha
  | _ => rfl

theorem after_write (w : Write) (s : Frame) : ∃ pids new,
    after ((write host w).run s) =
      { s with
        agent := { s.agent with instances := w.instances, pids }, j := .object w.members, out := s.out ++ new } ∧
    (new = [] ∧ (pids = s.agent.pids ∨ ∃ id, s.agent.pids.allocate = some (id, pids)) ∨
      ∃ id p, new = [⟨id, p⟩] ∧ w.packet = .ok p ∧ s.agent.pids.allocate = some (id, pids)) := by
  cases hw : (write host w).run s with
  | ok u s' =>
    obtain ⟨p, id, pids, hp, ha, -, rfl⟩ := write_ok host hw
    exact ⟨pids, [⟨id, p⟩], rfl, Or.inr ⟨id, p, rfl, hp, ha⟩⟩
  | error e s' =>
    obtain ⟨pids, rfl, hpids⟩ := write_error host hw
    exact ⟨pids, [], by simp, Or.inl ⟨rfl, hpids⟩⟩

theorem served_cons_ok {s s' : Frame} {w : Write} {u : Unit} (h : (write host w).run s = .ok u s') (ws : List Write) :
    served host s (w :: ws) = served host s' ws := by
  rw [served, run_each_cons, h]; rfl

theorem served_cons_error {s s' : Frame} {w : Write} {e : Exn} (h : (write host w).run s = .error e s')
    (ws : List Write) : served host s (w :: ws) =
      (write host (reply_write w.instances (Json.put (lit "e") (.string (error_text e)) w.members))).run s' := by
  rw [served, run_each_cons, h, andThen_error, orElse_error]
  obtain ⟨pids, rfl, -⟩ := write_error host h
  exact run_report_error host rfl e

theorem served_inv {I : Frame → Prop} {s : Frame} {ws : List Write} {m : List (Str × Json)} (hj : s.j = .object m)
    (hws : ∀ w ∈ ws, Keeps I (write host w))
    (hreply : ∀ m s, I s → I (after ((write host (reply_write s.agent.instances m)).run s)))
    (hs : I s) : I (after (served host s ws)) := by
  have h : I (after ((each (write host) ws).run s)) ∧ ∃ m, (after ((each (write host) ws).run s)).j = .object m := by
    refine keeps_each (I := fun s => I s ∧ ∃ m, s.j = .object m) (fun w hw s hs => ⟨hws w hw s hs.1, ?_⟩) s ⟨hs, m, hj⟩
    obtain ⟨pids, new, h, -⟩ := after_write host w s
    exact ⟨w.members, by rw [h]⟩
  unfold served
  cases hr : (each (write host) ws).run s with
  | ok u s' => rw [hr] at h; exact h.1
  | error e s' =>
    rw [hr] at h
    obtain ⟨h, m, hm⟩ := h
    simp only [after_error] at h hm
    rw [orElse_error, run_report_error host (by rw [hm]; rfl)]
    exact hreply _ s' h

def IsReply (p : Packet) : Prop := ∃ t j, p = .publish t j false

def Appends (Q : Packet → Prop) (out : List Sent) (s : Frame) : Prop :=
  ∃ new, s.out = out ++ new ∧ ∀ q ∈ new, Q q.packet

theorem appends_refl (Q : Packet → Prop) (s : Frame) : Appends Q s.out s :=
  ⟨[], (List.append_nil _).symm, fun q hq => by cases hq⟩

section
variable {Q : Packet → Prop} {out : List Sent}

theorem keeps_appends_send {p : Packet} (hp : Q p) : Keeps (Appends Q out) (send host p) := by
  intro s hs
  obtain ⟨new, hout, hnew⟩ := hs
  rw [run_send]
  cases s.agent.pids.allocate with
  | none => exact ⟨new, hout, hnew⟩
  | some r =>
    cases host.refuse p with
    | some e => exact ⟨new, hout, hnew⟩
    | none =>
      refine ⟨new ++ [⟨r.1, p⟩], by simp only [after_ok, hout, List.append_assoc], fun q hq => ?_⟩
      rcases List.mem_append.mp hq with hq | hq
      · exact hnew q hq
      · rw [List.mem_singleton.mp hq]; exact hp

theorem keeps_appends_write {w : Write} (hw : ∀ p, w.packet = .ok p → Q p) : Keeps (Appends Q out) (write host w) := by
  intro s hs
  rw [run_write]
  cases hp : w.packet with
  | error e => exact hs
  | ok p => exact keeps_appends_send host (hw p hp) _ hs

theorem keeps_appends_ofExcept {α : Type} (x : Except Exn α) : Keeps (Appends Q out) (ofExcept x) := by
  cases x with
  | ok a => exact keeps_pure a
  | error e => exact keeps_throw e

theorem keeps_appends_set_j (k : Str) (v : Json) : Keeps (Appends Q out) (set_j k v) :=
  keeps_bind keeps_get fun _ => keeps_bind (keeps_appends_ofExcept _) fun _ => keeps_modify fun _ h => h

theorem keeps_appends_publish_reply (hreply : ∀ t j, Q (.publish t j false)) :
    Keeps (Appends Q out) (publish_reply host) :=
  keeps_bind keeps_get fun _ => keeps_bind (keeps_appends_ofExcept _) fun _ => keeps_bind (keeps_modify fun _ h => h)
    fun _ => keeps_bind (keeps_appends_ofExcept _) fun _ => keeps_bind (keeps_dump _) fun _ =>
      keeps_appends_send host (hreply _ _)

theorem keeps_appends_on_execution_done (hreply : ∀ t j, Q (.publish t j false)) (id : Int32) (ret : Str) :
    Keeps (Appends Q out) (on_execution_done host id ret) := by
  refine keeps_bind (keeps_modify fun _ h => h) fun _ => keeps_bind (keeps_modify fun _ h => h) fun _ => ?_
  split <;> exact keeps_bind (keeps_appends_set_j _ _) fun _ => keeps_appends_publish_reply host hreply

theorem appends_served (hreply : ∀ t j, Q (.publish t j false)) {s : Frame} {m : List (Str × Json)} (hj : s.j = .object m)
    {ws : List Write} (hws : ∀ w ∈ ws, ∀ p, w.packet = .ok p → Q p) : Appends Q s.out (after (served host s ws)) := by
  refine served_inv host hj (fun w hw => keeps_appends_write host (hws w hw)) (fun m' s' => ?_) (appends_refl Q s)
  refine keeps_appends_write host (fun p hp => ?_) s'
  obtain ⟨t, -, rfl⟩ := reply_packet_eq hp
  exact hreply t _

end

theorem served_instances {s : Frame} {w : Write} {ws : List Write} (h : ∀ w' ∈ w :: ws, w'.instances = w.instances) :
    (after (served host s (w :: ws))).agent.instances = w.instances := by
  have keep : ∀ m (s' : Frame), s'.agent.instances = w.instances →
      (after ((write host (reply_write s'.agent.instances m)).run s')).agent.instances = w.instances := by
    intro m s' hs'
    obtain ⟨pids, new, ha, -⟩ := after_write host (reply_write s'.agent.instances m) s'
    rw [ha]; exact hs'
  cases hw : (write host w).run s with
  | ok u s' =>
    rw [served_cons_ok host hw]
    obtain ⟨hj, hl⟩ := write_frame host hw
    refine served_inv host (I := fun s => s.agent.instances = w.instances) hj (fun w' hw' s _ => ?_) keep hl
    obtain ⟨pids, new, ha, -⟩ := after_write host w' s
    rw [ha]; exact h w' (List.mem_cons_of_mem _ hw')
  | error e s' =>
    rw [served_cons_error host hw]
    obtain ⟨pids, new, ha, -⟩ := after_write host
      (reply_write w.instances (Json.put (lit "e") (.string (error_text e)) w.members)) s'
    rw [ha]; rfl

theorem served_frame {s : Frame} {m : List (Str × Json)} (hj : s.j = .object m) (ws : List Write) :
    (after (served host s ws)).call = s.call ∧ (after (served host s ws)).agent.call_id = s.agent.call_id ∧
      (after (served host s ws)).agent.awaited_callbacks = s.agent.awaited_callbacks := by
  have hw : ∀ (w : Write) (s' : Frame),
      s'.call = s.call ∧ s'.agent.call_id = s.agent.call_id ∧
        s'.agent.awaited_callbacks = s.agent.awaited_callbacks →
      (after ((write host w).run s')).call = s.call ∧
        (after ((write host w).run s')).agent.call_id = s.agent.call_id ∧
        (after ((write host w).run s')).agent.awaited_callbacks = s.agent.awaited_callbacks := by
    intro w s' hs'
    obtain ⟨pids, new, h, -⟩ := after_write host w s'
    rw [h]; exact hs'
  exact served_inv host hj (fun w _ => hw w) (fun _ s' => hw _ s') ⟨rfl, rfl, rfl⟩

/-- The error reply of the handler, and no call. -/
theorem handled_invalid {m : Msg} {r : Request} {e : Exn} (hm : request host m = some r)
    (ha : r.action mc = .invalid e) (a : Agent) :
    ∃ s' : Frame, s'.agent.pids = a.pids ∧ s'.out = [] ∧
      (after (handled host opts mc m a)).call = none ∧ (after (handled host opts mc m a)).out =
        (after ((write host (reply_write a.instances (Json.put (lit "e") (.string (error_text e)) r.body))).run s')).out := by
  have hj : (⟨r.register a, .object r.body, [], none⟩ : Frame).j = .object r.body := rfl
  have hserved := handled_served host opts hm (by rw [ha]; rfl) a
  rw [hserved, after_andThen_pure, ha, writes]
  let s' : Frame := ⟨{ r.register a with instances := a.instances }, .object r.body, [], none⟩
  have hw : (write host ⟨a.instances, r.body, .error e⟩).run ⟨r.register a, .object r.body, [], none⟩ = .error e s' :=
    run_write host _ _
  refine ⟨s', rfl, rfl, (served_frame host hj _).1, ?_⟩
  rw [served_cons_error host hw]

/-- Whether a request is handed to R does not depend on the agent. -/
theorem handled_calls (mc : Except Str Unit) (m : Msg) :
    (∀ a, (after (handled host opts mc m a)).call = none) ∨
      ∃ r fn args inst, request host m = some r ∧ r.action mc = .call fn args inst ∧
        ∀ a, handled host opts mc m a =
          .ok true ⟨r.register a, .object r.body, [], some ⟨fn, args, a.call_id + 1, inst, r.register a⟩⟩ := by
  cases hr : request host m with
  | none =>
    refine Or.inl fun a => ?_
    obtain ⟨j, hj⟩ := handled_none host opts mc hr a
    rw [hj]
  | some r =>
    cases ha : r.action mc with
    | call fn args inst => exact Or.inr ⟨r, fn, args, inst, rfl, ha, handled_call host opts hr ha⟩
    | _ =>
      refine Or.inl fun a => ?_
      rw [handled_served host opts hr (by rw [ha]; rfl), after_andThen_pure, (served_frame host rfl _).1]

theorem call_of_handled {m : Msg} {a : Agent} {c : VrpcCall} (h : (after (handled host opts mc m a)).call = some c) :
    ∃ r fn args inst, request host m = some r ∧ r.action mc = .call fn args inst ∧
      c = ⟨fn, args, a.call_id + 1, inst, r.register a⟩ := by
  rcases handled_calls host opts mc m with hnone | ⟨r, fn, args, inst, hr, ha, hh⟩
  · rw [hnone a] at h; cases h
  · rw [hh a] at h; cases h
    exact ⟨r, fn, args, inst, hr, ha, rfl⟩

end

end VrpcAgent

import VrpcAgent.Registry

/-!
# The registry and the history of requests

As long as only names that are not in the list are created, and every packet of
a request can be written, the list, the subscriptions and the retained class
information all say which names were last created rather than deleted.
-/

namespace VrpcAgent

open Function Effects Runs

/-! ## Packets that can be written -/

section
variable (host : Host) (opts : Options)

def Writable : Allocator → List Write → Prop
  | _, [] => True
  | pids, w :: ws => ∃ p id pids', w.packet = .ok p ∧ pids.allocate = some (id, pids') ∧ host.refuse p = none ∧
      Writable pids' ws

theorem run_writable : ∀ {ws : List Write} {s : Frame}, Writable host s.agent.pids ws →
    ∃ s' ps, (each (write host) ws).run s = .ok () s' ∧ ws.map (·.packet) = ps.map .ok ∧
      s'.out.map (·.packet) = s.out.map (·.packet) ++ ps ∧
      s'.agent.instances = (ws.map (·.instances)).getLastD s.agent.instances
  | [], s, _ => ⟨s, [], rfl, rfl, by simp, rfl⟩
  | w :: ws, s, ⟨p, id, pids, hp, ha, hr, hws⟩ => by
    have hw : (write host w).run s = .ok () { s with
        agent := { s.agent with instances := w.instances, pids }, j := .object w.members, out := s.out ++ [⟨id, p⟩] } := by
      rw [run_write, hp]; simp only [run_send, ha, hr]
    obtain ⟨s', ps, hrun, hps, hout, hl⟩ := run_writable (s := { s with
      agent := { s.agent with instances := w.instances, pids }, j := .object w.members, out := s.out ++ [⟨id, p⟩] }) hws
    refine ⟨s', p :: ps, by rw [run_each_cons, hw, andThen_ok]; exact hrun, by rw [List.map_cons, hp, hps]; rfl, ?_, ?_⟩
    · rw [hout]; simp
    · rw [hl, List.map_cons, List.getLastD_cons]

theorem handled_writable {mc : Except Str Unit} {m : Msg} {r : Request} (hr : request host m = some r)
    (hna : (r.action mc).is_call = false) {a : Agent}
    (hw : Writable host a.pids (writes opts a.instances r.body (r.action mc))) :
    returns (handled host opts mc m a) = true ∧
      ∃ ps, (writes opts a.instances r.body (r.action mc)).map (·.packet) = ps.map .ok ∧
        (after (handled host opts mc m a)).out.map (·.packet) = ps ∧
        (after (handled host opts mc m a)).agent.instances =
          ((writes opts a.instances r.body (r.action mc)).map (·.instances)).getLastD a.instances := by
  obtain ⟨s', ps, hrun, hps, hout, hl⟩ := run_writable host (s := ⟨r.register a, .object r.body, [], none⟩) hw
  rw [handled_served host opts hr hna, returns_andThen_pure, after_andThen_pure, served, hrun]
  exact ⟨rfl, ps, hps, hout, hl⟩

/-! ## After the connack -/

/-- `x` finds and leaves the registry empty and, if it returns, has written `ps`. -/
def Emits {α : Type} (x : M α) (ps : List Packet) : Prop :=
  ∀ s : Frame, s.agent.instances = [] → returns (x.run s) = true →
    (after (x.run s)).out.map (·.packet) = s.out.map (·.packet) ++ ps ∧ (after (x.run s)).agent.instances = []

theorem emits_bind {α β : Type} {x : M α} {f : α → M β} {ps qs : List Packet} (hx : Emits x ps)
    (hf : ∀ a, Emits (f a) qs) : Emits (x >>= f) (ps ++ qs) := by
  intro s hs hret
  have h := hx s hs
  rw [run_bind] at hret ⊢
  cases hr : x.run s with
  | error e s' => rw [hr] at hret; cases hret
  | ok a s' =>
    rw [hr] at hret h
    obtain ⟨hout, hl⟩ := h rfl
    obtain ⟨hout', hl'⟩ := hf a s' hl hret
    refine ⟨?_, hl'⟩
    rw [andThen_ok, hout', after_ok] at *
    rw [hout, List.append_assoc]

theorem emits_send (p : Packet) : Emits (send host p) [p] := by
  intro s hs hret
  rw [run_send] at hret ⊢
  cases ha : s.agent.pids.allocate with
  | none => rw [ha] at hret; cases hret
  | some r =>
    cases hr : host.refuse p with
    | some e => simp only [ha, hr] at hret; cases hret
    | none => exact ⟨by simp, hs⟩

theorem emits_dump_send (j : Json) (p : Json → Packet) : Emits (dump j >>= fun payload => send host (p payload)) [p j] := by
  unfold dump
  cases j.dump_error with
  | some e => intro s _ hret; cases hret
  | none => exact emits_send host (p j)

theorem emits_subscribe_all (base : Str) : ∀ l : List Str,
    Emits (subscribe_all host base l) (l.map fun x => .subscribe (base ++ x))
  | [] => fun s hs _ => ⟨by simp [subscribe_all], hs⟩
  | x :: l => emits_bind (emits_send host _) fun _ => emits_subscribe_all base l

theorem emits_class_info :
    Emits (publish_class_info host opts) [.publish (class_info_topic opts) (class_info opts []) true] := by
  intro s hs
  unfold publish_class_info
  rw [run_bind, EStateM.run_get, andThen_ok, hs]
  exact emits_dump_send host _ _ s hs

def connack_packets : List Packet :=
  .publish (agent_info_topic opts) (agent_info host opts) true ::
    (([lit "__createShared__", lit "__delete__", lit "call"] ++ opts.functions).map fun x =>
      .subscribe (base_topic opts ++ x)) ++
    [.publish (class_info_topic opts) (class_info opts []) true]

theorem emits_connack : Emits (connack_handler host opts) (connack_packets host opts) := by
  have h := emits_bind (emits_dump_send host (agent_info host opts) fun j => .publish (agent_info_topic opts) j true)
    fun _ => emits_bind (emits_send host (.subscribe (base_topic opts ++ lit "__createShared__"))) fun _ =>
      emits_bind (emits_send host (.subscribe (base_topic opts ++ lit "__delete__"))) fun _ =>
        emits_bind (emits_send host (.subscribe (base_topic opts ++ lit "call"))) fun _ =>
          emits_bind (emits_subscribe_all host (base_topic opts) opts.functions) fun _ => emits_class_info host opts
  simpa [connack_packets, connack_handler, publish_agent_info] using h

end

/-! ## Histories -/

section
variable {V : Type} (host : Host) (opts : Options) (R : RLib V)

def last_request (x : Str) (history : List (Str × Bool)) : Option Bool :=
  (history.reverse.find? fun q => q.1 = x).map (·.2)

theorem last_request_concat (x : Str) (history : List (Str × Bool)) (q : Str × Bool) :
    last_request x (history ++ [q]) = if q.1 = x then some q.2 else last_request x history := by
  rw [last_request, List.reverse_concat, List.find?_cons]
  by_cases h : q.1 = x <;> simp [h, last_request]

def advertised (b : Broker) : List Str :=
  match b.retained (class_info_topic opts) with
  | some (.object m) =>
    match Json.find (lit "instances") m with
    | some (.array xs) => xs.filterMap fun
      | .string x => some x
      | _ => none
    | _ => []
  | _ => []

theorem advertised_eq {b : Broker} {l : List Str}
    (h : b.retained (class_info_topic opts) = some (class_info opts l)) : advertised opts b = l := by
  have hfind : ∀ m, class_info opts l = .object m → Json.find (lit "instances") m = some (strings l) := by
    intro m hm
    cases hm
    rw [Json.find_put_of_ne (by decide), Json.find_put_of_ne (by decide), Json.find_put_of_ne (by decide),
      Json.find_put_of_ne (by decide), Json.find_put_self]
  unfold advertised
  rw [h]
  simp only [class_info] at hfind ⊢
  rw [hfind _ rfl]
  simp only [strings]
  rw [List.filterMap_map]
  exact List.filterMap_some

/-- A create of a name that is not in the list, or a delete, all of whose packets
can be written. -/
def Registers (s : System V) : Event → Prop
  | .deliver k m mc _ => s.deliveries k = none ∧ ∃ r, request host m = some r ∧
      ((∃ x, r.action mc = .create x ∧ x ∉ s.agent.instances) ∨ ∃ x, r.action mc = .delete x) ∧
      Writable host s.agent.pids (writes opts s.agent.instances r.body (r.action mc))
  | .ack _ => True
  | .step _ => False

structure Agrees (history : List (Str × Bool)) (s : System V) : Prop where
  running : s.running = true
  nodup : s.agent.instances.Nodup
  last : ∀ x, x ∈ s.agent.instances ↔ last_request x history = some true
  held : ∀ x, s.broker.held (instance_filter opts x) = true ↔ x ∈ s.agent.instances
  retained : s.broker.retained (class_info_topic opts) = some (class_info opts s.agent.instances)

theorem instance_filter_inj {x y : Str} (h : instance_filter opts x = instance_filter opts y) : x = y := by
  unfold instance_filter at h
  exact List.append_cancel_left (List.append_cancel_right h)

theorem class_info_packet_eq {l : List Str} {p : Packet} (h : class_info_packet opts l = .ok p) :
    p = .publish (class_info_topic opts) (class_info opts l) true := by
  unfold class_info_packet dumped at h
  split at h <;> cases h
  rfl

theorem reply_packet_retain {m : List (Str × Json)} {p : Packet} (h : reply_packet m = .ok p) :
    ∃ t, p = .publish t (.object m) false := by
  unfold reply_packet dumped at h
  split at h
  · cases h
  · split at h <;> cases h
    exact ⟨_, rfl⟩

theorem create_packets {l : List Str} {m : List (Str × Json)} {x : Str} {ps : List Packet}
    (h : (writes opts l m (.create x)).map (·.packet) = ps.map .ok) : ∃ t j,
      ps = [.subscribe (instance_filter opts x), .publish (class_info_topic opts) (class_info opts (l ++ [x])) true,
        .publish t (.object j) false] := by
  obtain _ | ⟨p₁, _ | ⟨p₂, _ | ⟨p₃, _ | ⟨p₄, ps⟩⟩⟩⟩ := ps <;> simp [writes] at h
  obtain ⟨rfl, h₂, h₃⟩ := h
  obtain ⟨t, rfl⟩ := reply_packet_retain h₃
  exact ⟨t, _, by rw [class_info_packet_eq opts h₂]⟩

theorem delete_packets {l : List Str} {m : List (Str × Json)} {x : Str} {ps : List Packet}
    (h : (writes opts l m (.delete x)).map (·.packet) = ps.map .ok) : ∃ t j,
      Json.find (lit "r") j = some (.boolean (decide (x ∈ l))) ∧
      ps = .unsubscribe (instance_filter opts x) ::
        ((if x ∈ l then [.publish (class_info_topic opts) (class_info opts (l.erase x)) true] else []) ++
          [.publish t (.object j) false]) := by
  by_cases hx : x ∈ l
  · obtain _ | ⟨p₁, _ | ⟨p₂, _ | ⟨p₃, _ | ⟨p₄, ps⟩⟩⟩⟩ := ps <;> simp [writes, hx] at h
    obtain ⟨rfl, h₂, h₃⟩ := h
    obtain ⟨t, rfl⟩ := reply_packet_retain h₃
    refine ⟨t, _, ?_, by rw [class_info_packet_eq opts h₂, if_pos hx]; rfl⟩
    rw [Json.find_touch_of_ne (by decide), Json.find_put_self]; simp [hx]
  · obtain _ | ⟨p₁, _ | ⟨p₂, _ | ⟨p₃, ps⟩⟩⟩ := ps <;> simp [writes, hx] at h
    obtain ⟨rfl, h₂⟩ := h
    obtain ⟨t, rfl⟩ := reply_packet_retain h₂
    refine ⟨t, _, ?_, by rw [if_neg hx]; rfl⟩
    rw [Json.find_touch_of_ne (by decide), Json.find_put_self]; simp [hx]

/-! ## Steps -/

theorem agrees_create {history : List (Str × Bool)} {s : System V} (h : Agrees opts history s) (k : Nat) {m : Msg}
    {mc : Except Str Unit} (tmp : Str) {r : Request} {x : Str} (hr : request host m = some r)
    (ha : r.action mc = .create x) (hx : x ∉ s.agent.instances)
    (hw : Writable host s.agent.pids (writes opts s.agent.instances r.body (r.action mc))) :
    Agrees opts (history ++ [(x, true)]) (s.deliver host opts k m mc tmp) := by
  obtain ⟨hret, ps, hps, hout, hl⟩ := handled_writable host opts hr (by rw [ha]; rfl) hw
  rw [ha] at hps
  obtain ⟨t, j, rfl⟩ := create_packets opts hps
  replace hl : (after (handled host opts mc m s.agent)).agent.instances = s.agent.instances ++ [x] := by
    rw [hl, ha]; simp [writes, reply_write]
  have hmem : ∀ y, y ∈ s.agent.instances ++ [x] ↔ y ∈ s.agent.instances ∨ y = x := by simp
  refine ⟨hret, ?_, fun y => ?_, fun y => ?_, ?_⟩
  · simp only [System.deliver, hl]
    exact h.nodup.append (List.nodup_singleton x) (by simpa using hx)
  · simp only [System.deliver, hl]
    rw [hmem, h.last, last_request_concat]
    by_cases hxy : x = y <;> simp [hxy, eq_comm]
  · rw [broker_deliver, hout]
    simp only [System.deliver, hl, Broker.packets, List.foldl_cons, List.foldl_nil, Broker.packet]
    rw [hmem, ← h.held]
    by_cases hxy : y = x
    · simp [hxy]
    · rw [update_of_ne fun hf => hxy (instance_filter_inj opts hf)]; simp [hxy]
  · rw [broker_deliver, hout]
    simp only [System.deliver, hl, Broker.packets, List.foldl_cons, List.foldl_nil, Broker.packet, update_self]

theorem agrees_delete {history : List (Str × Bool)} {s : System V} (h : Agrees opts history s) (k : Nat) {m : Msg}
    {mc : Except Str Unit} (tmp : Str) {r : Request} {x : Str} (hr : request host m = some r)
    (ha : r.action mc = .delete x)
    (hw : Writable host s.agent.pids (writes opts s.agent.instances r.body (r.action mc))) :
    Agrees opts (history ++ [(x, false)]) (s.deliver host opts k m mc tmp) := by
  obtain ⟨hret, ps, hps, hout, hl⟩ := handled_writable host opts hr (by rw [ha]; rfl) hw
  rw [ha] at hps
  obtain ⟨t, j, -, rfl⟩ := delete_packets opts hps
  replace hl : (after (handled host opts mc m s.agent)).agent.instances = s.agent.instances.erase x := by
    rw [hl, ha]
    by_cases hx : x ∈ s.agent.instances
    · simp [writes, hx, reply_write]
    · simp [writes, hx, reply_write, List.erase_of_not_mem hx]
  have hmem : ∀ y, y ∈ s.agent.instances.erase x ↔ y ∈ s.agent.instances ∧ y ≠ x := fun y => by
    rw [h.nodup.mem_erase_iff, and_comm]
  have hbroker : (s.deliver host opts k m mc tmp).broker.held = update s.broker.held (instance_filter opts x) false ∧
      (s.deliver host opts k m mc tmp).broker.retained (class_info_topic opts) =
        some (class_info opts (s.agent.instances.erase x)) := by
    rw [broker_deliver, hout]
    by_cases hx : x ∈ s.agent.instances
    · simp [hx, Broker.packets, Broker.packet]
    · simp [hx, Broker.packets, Broker.packet, h.retained, List.erase_of_not_mem hx]
  refine ⟨hret, ?_, fun y => ?_, fun y => ?_, ?_⟩
  · simp only [System.deliver, hl]
    exact h.nodup.erase x
  · simp only [System.deliver, hl]
    rw [hmem, h.last, last_request_concat]
    by_cases hxy : x = y
    · simp [hxy]
    · simp [hxy, Ne.symm hxy]
  · rw [hbroker.1]
    simp only [System.deliver, hl]
    rw [hmem, ← h.held]
    by_cases hxy : y = x
    · simp [hxy]
    · rw [update_of_ne fun hf => hxy (instance_filter_inj opts hf)]; simp [hxy]
  · rw [hbroker.2]; simp only [System.deliver, hl]

/-- The subscription of no function is the subscription of an instance. -/
def NoFunctionFilter : Prop := ∀ f ∈ opts.functions, ∀ x, base_topic opts ++ f ≠ instance_filter opts x

theorem broker_start {genv : Env V} {fs : FS V} (hrun : (System.start host opts genv fs).running = true) :
    (System.start host opts genv fs).broker = Broker.empty.packets (connack_packets host opts) ∧
      (System.start host opts genv fs).agent.instances = [] := by
  obtain ⟨hout, hl⟩ := emits_connack host opts ⟨Agent.new, .null, [], none⟩ rfl hrun
  refine ⟨?_, hl⟩
  rw [← List.nil_append (connack_packets host opts)]
  refine (congrArg Broker.empty.packets ?_).trans (congrArg Broker.empty.packets hout)
  simp only [System.start, List.map_map]; rfl

theorem agrees_start (hf : NoFunctionFilter opts) {genv : Env V} {fs : FS V}
    (hrun : (System.start host opts genv fs).running = true) : Agrees opts [] (System.start host opts genv fs) := by
  obtain ⟨hbroker, hnil⟩ := broker_start host opts hrun
  refine ⟨hrun, by rw [hnil]; exact List.nodup_nil, fun x => by rw [hnil]; simp [last_request], fun x => ?_, ?_⟩
  · rw [hnil, hbroker]
    simp only [List.not_mem_nil, iff_false]
    intro hheld
    rcases held_packets hheld with hheld | hmem
    · cases hheld
    · have hends : ∀ g c, g.getLast? = some c → c ≠ 43 → base_topic opts ++ g ≠ instance_filter opts x := by
        intro g c hg hc h
        have := congrArg List.getLast? h
        rw [List.getLast?_append, hg, instance_filter, List.getLast?_append] at this
        simp [lit] at this
        exact hc this
      simp only [connack_packets, List.cons_append, List.mem_cons, reduceCtorEq, List.mem_append, List.mem_map,
        Packet.subscribe.injEq, List.not_mem_nil, or_false, false_or] at hmem
      obtain ⟨g, hg, heq⟩ := hmem
      rcases hg with rfl | rfl | rfl | hg
      · exact hends _ 95 (by decide) (by decide) heq
      · exact hends _ 95 (by decide) (by decide) heq
      · exact hends _ 108 (by decide) (by decide) heq
      · exact hf g hg x heq
  · rw [hnil, hbroker, connack_packets, Broker.packets_append]
    exact update_self ..

theorem agrees_step {history : List (Str × Bool)} {s : System V} (h : Agrees opts history s) {e : Event}
    (he : Registers host opts s e) :
    Agrees opts (history ++ (asked host e).toList) (s.step host opts R e) := by
  cases e with
  | deliver k m mc tmp =>
    obtain ⟨hk, r, hr, hact, hw⟩ := he
    simp only [System.step, h.running, hk, Option.isNone_none, and_self, if_true, asked, hr, Option.map_some]
    rcases hact with ⟨x, ha, hx⟩ | ⟨x, ha⟩
    · simp only [ha]; exact agrees_create host opts h k tmp hr ha hx hw
    · simp only [ha]; exact agrees_delete host opts h k tmp hr ha hw
  | step k => exact he.elim
  | ack i =>
    simp only [System.step, asked, Option.toList_none, List.append_nil]
    split
    · exact h
    · split <;> exact ⟨h.running, h.nodup, h.last, h.held, h.retained⟩

theorem run_agrees : ∀ {evs : List Event} {history : List (Str × Bool)} {s : System V}, Agrees opts history s →
    Along (System.step host opts R) (Registers host opts) s evs →
      Agrees opts (history ++ evs.filterMap (asked host)) (run (System.step host opts R) s evs)
  | [], _, _, h, _ => by simpa using h
  | e :: evs, history, s, h, hrun => by
    have ih := run_agrees (agrees_step host opts R h hrun.1) hrun.2
    rw [run_cons]
    cases hq : asked host e with
    | none => simpa [hq] using ih
    | some q => simpa [hq] using ih

def DeleteReplies (s : System V) (e : Event) : Prop :=
  ∀ k m mc tmp r x, e = .deliver k m mc tmp → request host m = some r → r.action mc = .delete x →
    (∃ ps t j, (after (handled host opts mc m s.agent)).out.map (·.packet) = ps ++ [.publish t (.object j) false] ∧
      Json.find (lit "r") j = some (.boolean (decide (x ∈ advertised opts s.broker)))) ∧
    x ∉ advertised opts (s.step host opts R e).broker

theorem delete_replies {history : List (Str × Bool)} {s : System V} (h : Agrees opts history s) {e : Event}
    (he : Registers host opts s e) : DeleteReplies host opts R s e := by
  intro k m mc tmp r x heq hr ha
  subst heq
  have hnext := agrees_step host opts R h he
  obtain ⟨hk, r', hr', -, hw⟩ := he
  rw [hr] at hr'; cases hr'
  refine ⟨?_, ?_⟩
  · obtain ⟨-, ps, hps, hout, -⟩ := handled_writable host opts hr (by rw [ha]; rfl) hw
    rw [ha] at hps
    obtain ⟨t, j, hj, rfl⟩ := delete_packets opts hps
    rw [advertised_eq opts h.retained]
    exact ⟨_, t, j, hout.trans (List.append_assoc [_] ..).symm, hj⟩
  · rw [advertised_eq opts hnext.retained, hnext.last]
    simp [asked, hr, ha, last_request_concat]

/-- **The registry follows the history** of creates and deletes. -/
theorem registry_follows_history (hf : NoFunctionFilter opts) {genv : Env V} {fs : FS V}
    (hstart : (System.start host opts genv fs).running = true) {evs : List Event}
    (hrun : Along (System.step host opts R) (Registers host opts) (System.start host opts genv fs) evs) :
    let b := (run (System.step host opts R) (System.start host opts genv fs) evs).broker
    (∀ x, (advertised opts b).count x ≤ 1 ∧ (x ∈ advertised opts b ↔ b.held (instance_filter opts x) = true) ∧
      (x ∈ advertised opts b ↔ last_request x (evs.filterMap (asked host)) = some true)) ∧
    Along (System.step host opts R) (DeleteReplies host opts R) (System.start host opts genv fs) evs := by
  have h₀ := agrees_start host opts hf hstart
  have h := run_agrees host opts R h₀ hrun
  refine ⟨fun x => ?_, ?_⟩
  · rw [advertised_eq opts h.retained]
    exact ⟨List.nodup_iff_count_le_one.mp h.nodup x, (h.held x).symm, h.last x⟩
  · have hinv := along_inv (P := fun s => ∃ history, Agrees opts history s)
      (fun s e ⟨history, hs⟩ he => ⟨_, agrees_step host opts R hs he⟩) ⟨[], h₀⟩ hrun
    exact hinv.mono fun s e ⟨⟨history, hs⟩, he⟩ => delete_replies host opts R hs he

/-- What makes an event register: a create of a name that is not in the list or a
delete, whose packets are all written. -/
def registers (s : System V) (e : Event) : Bool :=
  match e, asked host e with
  | .deliver k m mc _, some (x, created) =>
    (s.deliveries k).isNone && !(created && x ∈ s.agent.instances) && (request host m).any fun r =>
      returns ((each (write host) (writes opts s.agent.instances r.body (r.action mc))).run ⟨s.agent, .null, [], none⟩)
  | .ack _, _ => true
  | _, _ => false

theorem writable_of_returns : ∀ {ws : List Write} {s : Frame}, returns ((each (write host) ws).run s) = true →
    Writable host s.agent.pids ws
  | [], _, _ => trivial
  | w :: ws, s, h => by
    rw [run_each_cons] at h
    cases hw : (write host w).run s with
    | error e s' => rw [hw] at h; cases h
    | ok u s' =>
      rw [hw, andThen_ok] at h
      obtain ⟨p, id, pids, hp, ha, hr, rfl⟩ := write_ok host hw
      exact ⟨p, id, pids, hp, ha, hr, writable_of_returns h⟩

theorem registers_spec {s : System V} {e : Event} (h : registers host opts s e = true) : Registers host opts s e := by
  cases e with
  | step k => simp [registers] at h
  | ack i => trivial
  | deliver k m mc tmp =>
    cases hr : request host m with
    | none => simp [registers, asked, hr] at h
    | some r =>
      cases ha : r.action mc with
      | create x =>
        simp only [registers, asked, hr, Option.map_some, ha, Option.any_some, Bool.and_eq_true, Bool.true_and,
          Option.isNone_iff_eq_none, Bool.not_eq_true', decide_eq_false_iff_not] at h
        exact ⟨h.1.1, r, hr, Or.inl ⟨x, ha, h.1.2⟩, by rw [ha]; exact writable_of_returns host h.2⟩
      | delete x =>
        simp only [registers, asked, hr, Option.map_some, ha, Option.any_some, Bool.and_eq_true, Bool.false_and,
          Option.isNone_iff_eq_none, Bool.not_false, and_true] at h
        exact ⟨h.1, r, hr, Or.inr ⟨x, ha⟩, by rw [ha]; exact writable_of_returns host h.2⟩
      | _ => simp [registers, asked, hr, ha] at h

end

/-! ## A name that is created twice -/

def registry_host : Host := small_host [(lit "t", [lit "x"]), (lit "t", [lit "y"])]

def create_request (k : Nat) (x : Str) : Event :=
  .deliver k (small_request "__static__" "__createShared__" (lit "t") [x]) (.ok ()) []

def delete_request (k : Nat) (x : Str) : Event :=
  .deliver k (small_request "__static__" "__delete__" (lit "t") [x]) (.ok ()) []

def created_again : List Event :=
  [create_request 0 (lit "x"), create_request 1 (lit "y"), delete_request 2 (lit "x"), create_request 3 (lit "x")]

theorem registry_follows_created_again :
    let b := (run (System.step registry_host small_options small_R)
      (System.start registry_host small_options (fun _ => none) (fun _ => none)) created_again).broker
    (advertised small_options b).count (lit "x") ≤ 1 ∧
      (lit "x" ∈ advertised small_options b ↔ b.held (instance_filter small_options (lit "x")) = true) ∧
      (lit "x" ∈ advertised small_options b ↔
        last_request (lit "x") (created_again.filterMap (asked registry_host)) = some true) := by
  have hrun : Along (System.step registry_host small_options small_R)
      (fun s e => registers registry_host small_options s e = true)
      (System.start registry_host small_options (fun _ => none) (fun _ => none)) created_again := by decide +kernel
  exact (registry_follows_history registry_host small_options small_R (fun f hf => by cases hf) (by decide +kernel)
    (hrun.mono fun _ _ h => registers_spec registry_host small_options h)).1 (lit "x")

/-- One delete of a name that was created twice: it is still advertised, and its
subscription is gone. -/
def created_twice : List Event :=
  [create_request 0 (lit "x"), create_request 1 (lit "x"), delete_request 2 (lit "x")]

theorem created_twice_disagrees :
    created_twice.filterMap (asked registry_host) = [(lit "x", true), (lit "x", true), (lit "x", false)] ∧
    let b := (run (System.step registry_host small_options small_R)
      (System.start registry_host small_options (fun _ => none) (fun _ => none)) created_twice).broker
    ¬ ((lit "x" ∈ advertised small_options b ↔ b.held (instance_filter small_options (lit "x")) = true) ∧
      (lit "x" ∈ advertised small_options b ↔
        last_request (lit "x") (created_twice.filterMap (asked registry_host)) = some true)) := by
  decide +kernel

end VrpcAgent

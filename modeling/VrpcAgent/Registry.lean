import VrpcAgent.Trace
import Mathlib.Data.List.Nodup

/-!
# The registry of instances

Three places say which instances there are: the agent's list, the subscriptions
it holds at the broker, and the retained class information. What the broker
holds is read off the packets written so far.
-/

namespace VrpcAgent

open Function Effects Runs

/-! ## The broker -/

structure Broker where
  held : Str → Bool
  retained : Str → Option Json

namespace Broker

def packet (b : Broker) : Packet → Broker
  | .publish topic payload true => { b with retained := update b.retained topic (some payload) }
  | .publish _ _ false => b
  | .subscribe f => { b with held := update b.held f true }
  | .unsubscribe f => { b with held := update b.held f false }

def packets (b : Broker) (l : List Packet) : Broker := l.foldl packet b

def empty : Broker := ⟨fun _ => false, fun _ => none⟩

theorem packets_append (b : Broker) (l l' : List Packet) : b.packets (l ++ l') = (b.packets l).packets l' :=
  List.foldl_append

end Broker

def is_subscription : Packet → Bool
  | .publish .. => false
  | _ => true

def Quiet (l : List Sent) : Prop := ∀ p ∈ l, is_subscription p.packet = false

theorem held_packets_quiet {l : List Sent} (h : Quiet l) : ∀ b : Broker, (b.packets (l.map (·.packet))).held = b.held := by
  induction l with
  | nil => intro b; rfl
  | cons p l ih =>
    intro b
    rw [List.map_cons, Broker.packets, List.foldl_cons, ← Broker.packets,
      ih fun q hq => h q (List.mem_cons_of_mem _ hq)]
    have hp := h p List.mem_cons_self
    cases hpk : p.packet with
    | publish t j r => cases r <;> rfl
    | _ => rw [hpk] at hp; cases hp

theorem held_packets {f : Str} : ∀ {l : List Packet} {b : Broker}, (b.packets l).held f = true →
    b.held f = true ∨ .subscribe f ∈ l
  | [], _, h => Or.inl h
  | p :: l, b, h => by
    rcases held_packets (l := l) (b := b.packet p) h with h | h
    · cases p with
      | publish t j r => cases r <;> exact Or.inl h
      | subscribe g =>
        by_cases hg : f = g
        · subst hg; exact Or.inr List.mem_cons_self
        · simp only [Broker.packet, update_of_ne hg] at h; exact Or.inl h
      | unsubscribe g =>
        by_cases hg : f = g
        · subst hg; simp [Broker.packet] at h
        · simp only [Broker.packet, update_of_ne hg] at h; exact Or.inl h
    · exact Or.inr (List.mem_cons_of_mem _ h)

def System.broker {V : Type} (s : System V) : Broker := Broker.empty.packets (s.log.map (·.sent.packet))

/-! ## What a handler does to the registry -/

section
variable (host : Host) (opts : Options)

theorem reply_packet_quiet {m : List (Str × Json)} {p : Packet} (h : reply_packet m = .ok p) :
    is_subscription p = false := by
  obtain ⟨t, -, rfl⟩ := reply_packet_eq h
  rfl

theorem class_info_packet_quiet {l : List Str} {p : Packet} (h : class_info_packet opts l = .ok p) :
    is_subscription p = false := by
  unfold class_info_packet dumped at h
  split at h <;> cases h
  rfl

def Onward (s₀ s : Frame) : Prop := ∃ new, s.out = s₀.out ++ new ∧ Quiet new

theorem onward_write {s₀ s : Frame} (h : Onward s₀ s) {w : Write}
    (hw : ∀ p, w.packet = .ok p → is_subscription p = false) : Onward s₀ (after ((write host w).run s)) :=
  keeps_appends_write host hw s h

theorem onward_served {s : Frame} {m : List (Str × Json)} (hj : s.j = .object m) (ws : List Write)
    (h : ∀ w ∈ ws, ∀ p, w.packet = .ok p → is_subscription p = false) : Onward s (after (served host s ws)) :=
  appends_served host (fun _ _ => rfl) hj h

/-- The first write may be a subscription; the registry is `l` until it is
written and `l'` from then on. -/
theorem served_registry {s : Frame} {l : List Str} {m : List (Str × Json)} {p : Packet} {w' : Write} {ws : List Write}
    (hl : ∀ v ∈ w' :: ws, v.instances = w'.instances)
    (hq : ∀ v ∈ w' :: ws, ∀ p, v.packet = .ok p → is_subscription p = false) :
    (Onward s (after (served host s (⟨l, m, .ok p⟩ :: w' :: ws))) ∧
        (after (served host s (⟨l, m, .ok p⟩ :: w' :: ws))).agent.instances = l) ∨
      ∃ id rest, (after (served host s (⟨l, m, .ok p⟩ :: w' :: ws))).out = s.out ++ ⟨id, p⟩ :: rest ∧ Quiet rest ∧
        (after (served host s (⟨l, m, .ok p⟩ :: w' :: ws))).agent.instances = w'.instances := by
  cases hw : (write host ⟨l, m, .ok p⟩).run s with
  | ok u s' =>
    rw [served_cons_ok host hw]
    refine Or.inr ?_
    obtain ⟨hj, -⟩ := write_frame host hw
    obtain ⟨rest, hout, hrest⟩ := onward_served host hj _ hq
    obtain ⟨p', id, pids, hp', -, -, rfl⟩ := write_ok host hw
    cases hp'
    exact ⟨id, rest, by rw [hout]; simp, hrest, served_instances host hl⟩
  | error e s' =>
    rw [served_cons_error host hw]
    obtain ⟨pids, rfl, -⟩ := write_error host hw
    refine Or.inl ⟨onward_write host ⟨[], by simp, nofun⟩ fun _ => reply_packet_quiet, ?_⟩
    obtain ⟨pids', new, ha, -⟩ := after_write host
      (reply_write l (Json.put (lit "e") (.string (error_text e)) m))
      { s with agent := { s.agent with instances := l, pids }, j := .object m }
    rw [ha]; rfl

theorem quiet_reply (l : List Str) (m : List (Str × Json)) :
    ∀ v ∈ [reply_write l m], ∀ p, v.packet = .ok p → is_subscription p = false := by
  simp only [List.mem_singleton]
  intro v hv p hp
  subst hv
  exact reply_packet_quiet hp

theorem quiet_info_reply (l : List Str) (m m' : List (Str × Json)) :
    ∀ v ∈ [⟨l, m, class_info_packet opts l⟩, reply_write l m'], ∀ p, v.packet = .ok p → is_subscription p = false := by
  simp only [List.mem_cons, List.not_mem_nil, or_false]
  intro v hv p hp
  rcases hv with rfl | rfl
  · exact class_info_packet_quiet opts hp
  · exact reply_packet_quiet hp

theorem handled_registry (mc : Except Str Unit) (m : Msg) (a : Agent) :
    (Quiet (after (handled host opts mc m a)).out ∧ (after (handled host opts mc m a)).agent.instances = a.instances) ∨
      (∃ r x id rest, request host m = some r ∧ r.action mc = .create x ∧
        (after (handled host opts mc m a)).out = ⟨id, .subscribe (instance_filter opts x)⟩ :: rest ∧ Quiet rest ∧
        (after (handled host opts mc m a)).agent.instances = a.instances ++ [x]) ∨
      ∃ r x id rest, request host m = some r ∧ r.action mc = .delete x ∧
        (after (handled host opts mc m a)).out = ⟨id, .unsubscribe (instance_filter opts x)⟩ :: rest ∧ Quiet rest ∧
        (after (handled host opts mc m a)).agent.instances = a.instances.erase x := by
  cases hr : request host m with
  | none =>
    obtain ⟨j, hj⟩ := handled_none host opts mc hr a
    rw [hj]; exact Or.inl ⟨nofun, rfl⟩
  | some r =>
    cases ha : r.action mc with
    | call fn args inst => rw [handled_call host opts hr ha]; exact Or.inl ⟨nofun, rfl⟩
    | invalid e =>
      rw [handled_served host opts hr (by rw [ha]; rfl), after_andThen_pure, ha]
      obtain ⟨new, hout, hq⟩ := onward_served host (s := ⟨r.register a, .object r.body, [], none⟩) rfl
        (writes opts a.instances r.body (.invalid e)) (by simp [writes])
      refine Or.inl ⟨by rw [hout]; exact hq, served_instances host (by simp)⟩
    | create x =>
      rw [handled_served host opts hr (by rw [ha]; rfl), after_andThen_pure, ha, writes]
      rcases served_registry host (s := ⟨r.register a, .object r.body, [], none⟩)
          (by simp [reply_write]) (quiet_info_reply opts _ _ _) with ⟨⟨new, hout, hq⟩, hl⟩ | ⟨id, rest, hout, hq, hl⟩
      · exact Or.inl ⟨by rw [hout]; exact hq, hl⟩
      · exact Or.inr (Or.inl ⟨r, x, id, rest, rfl, ha, hout, hq, hl⟩)
    | delete x =>
      rw [handled_served host opts hr (by rw [ha]; rfl), after_andThen_pure, ha, writes]
      by_cases hx : x ∈ a.instances
      · rw [if_pos hx]
        rcases served_registry host (s := ⟨r.register a, .object r.body, [], none⟩)
            (by simp [reply_write]) (quiet_info_reply opts _ _ _) with ⟨⟨new, hout, hq⟩, hl⟩ | ⟨id, rest, hout, hq, hl⟩
        · exact Or.inl ⟨by rw [hout]; exact hq, hl⟩
        · exact Or.inr (Or.inr ⟨r, x, id, rest, rfl, ha, hout, hq, hl⟩)
      · rw [if_neg hx]
        rcases served_registry host (s := ⟨r.register a, .object r.body, [], none⟩)
            (by simp) (quiet_reply a.instances (Json.put (lit "r") (.boolean false) r.body)) with
              ⟨⟨new, hout, hq⟩, hl⟩ | ⟨id, rest, hout, hq, hl⟩
        · exact Or.inl ⟨by rw [hout]; exact hq, hl⟩
        · exact Or.inr (Or.inr ⟨r, x, id, rest, rfl, ha, hout, hq, by rw [hl, List.erase_of_not_mem hx]; rfl⟩)

theorem broker_deliver {V : Type} (s : System V) (k : Nat) (m : Msg) (mc : Except Str Unit) (tmp : Str) :
    (s.deliver host opts k m mc tmp).broker =
      s.broker.packets ((after (handled host opts mc m s.agent)).out.map (·.packet)) := by
  simp only [System.broker, System.deliver, List.map_append, List.map_map, Broker.packets_append]
  rfl

theorem broker_fork {V : Type} (R : RLib V) (s : System V) (k : Nat) :
    (s.step host opts R (.step k)).broker = s.broker.packets ((s.sessions.fork_writes host R k).map (·.packet)) := by
  simp only [System.broker, System.step, List.map_append, List.map_map, Broker.packets_append]
  rfl

theorem fork_writes_quiet {V : Type} (R : RLib V) (s : Sessions V) (k : Nat) : Quiet (s.fork_writes host R k) := by
  intro q hq
  obtain ⟨t, j, hp⟩ := fork_writes_replies host R s k q hq
  rw [hp]; rfl

end

end VrpcAgent

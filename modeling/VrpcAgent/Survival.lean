import VrpcAgent.System

/-!
# Messages that take the agent down

An exception that leaves the publish handler ends the agent. The payload is
parsed before the try block, and the catch block builds a reply from the same
payload; the messages the agent survives are characterised exactly.
-/

namespace VrpcAgent

open Effects Runs

section
variable (host : Host) (opts : Options)

/-- A reply with the members `m` can be sent: its topic is a string, its text can
be dumped, an identifier is left, and the packet is not refused. -/
structure Repliable (pids : Allocator) (m : List (Str × Json)) : Prop where
  topic : ∃ s, Json.member (lit "s") m = .string s ∧ host.refuse (.publish s (.object m) false) = none
  text : (Json.object m).dump_error = none
  pid : ∃ v, pids.Free v

def error_members (m : List (Str × Json)) (e : Exn) : List (Str × Json) :=
  Json.touch (lit "s") (Json.put (lit "e") (.string (error_text e)) m)

/-- The packets go out one by one or, at the first that cannot be built or is
refused, the error reply can be sent. -/
def Answered : Allocator → List Write → Prop
  | _, [] => True
  | pids, w :: ws =>
    match w.packet with
    | .error e => Repliable host pids (error_members w.members e)
    | .ok p =>
      match pids.allocate with
      | none => False
      | some (_, pids') =>
        match host.refuse p with
        | some e => Repliable host pids' (error_members w.members e)
        | none => Answered pids' ws

theorem free_iff_allocate (pids : Allocator) : (∃ v, pids.Free v) ↔ pids.allocate ≠ none := by
  rw [ne_eq, Allocator.allocate_eq_none, not_forall_not]

theorem repliable_iff (pids : Allocator) (m : List (Str × Json)) :
    Repliable host pids m ↔ ∃ p, reply_packet m = .ok p ∧ pids.allocate ≠ none ∧ host.refuse p = none := by
  rw [← free_iff_allocate]
  constructor
  · intro h
    obtain ⟨⟨s, hs, hr⟩, hd, hp⟩ := h
    exact ⟨_, by rw [reply_packet, hs]; simp only [Json.get_string, dumped, hd], hp, hr⟩
  · intro h
    obtain ⟨p, hp, hf, hr⟩ := h
    cases hs : Json.member (lit "s") m with
    | string s =>
      simp only [reply_packet, hs, Json.get_string, dumped] at hp
      cases hd : (Json.object m).dump_error with
      | none => rw [hd] at hp; cases hp; exact ⟨⟨s, hs, hr⟩, hd, hf⟩
      | some e => rw [hd] at hp; cases hp
    | _ => simp only [reply_packet, hs, Json.get_string] at hp; cases hp

theorem returns_write_iff (w : Write) (s : Frame) :
    returns ((write host w).run s) = true ↔
      ∃ p, w.packet = .ok p ∧ s.agent.pids.allocate ≠ none ∧ host.refuse p = none := by
  rw [run_write]
  cases w.packet with
  | error e => simp
  | ok p =>
    simp only [run_send, Except.ok.injEq, exists_eq_left']
    cases s.agent.pids.allocate with
    | none => simp
    | some r => cases host.refuse p <;> simp

theorem returns_report_error_iff {s : Frame} {m : List (Str × Json)} (h : s.j = .object m) (e : Exn) :
    returns ((report_error host e).run s) = true ↔ Repliable host s.agent.pids (error_members m e) := by
  rw [run_report_error host (by rw [h]; rfl), returns_write_iff, repliable_iff]
  rfl

theorem returns_served_iff : ∀ (ws : List Write) (s : Frame),
    returns (served host s ws) = true ↔ Answered host s.agent.pids ws
  | [], s => by simp [served, Answered]
  | w :: ws, s => by
    rw [served, run_each_cons, run_write, Answered]
    cases w.packet with
    | error e => exact returns_report_error_iff host rfl e
    | ok p =>
      simp only [run_send]
      cases ha : s.agent.pids.allocate with
      | none =>
        -- without an identifier for the packet there is none for the error reply
        simp only [andThen_error, orElse_error, iff_false, Bool.not_eq_true]
        rw [← Bool.not_eq_true, returns_report_error_iff host rfl]
        exact fun h => (free_iff_allocate _).mp h.pid ha
      | some r =>
        cases host.refuse p with
        | some e => exact returns_report_error_iff host rfl e
        | none => exact returns_served_iff ws _

/-- **The messages the agent survives.** -/
theorem handler_returns_iff (mc : Except Str Unit) (m : Msg) (a : Agent) :
    returns (handled host opts mc m a) = true ↔
      (tokenize m.topic (lit "/")).length ≠ 5 ∨
        ∃ r, request host m = some r ∧ Answered host a.pids (writes opts a.instances r.body (r.action mc)) := by
  by_cases h5 : (tokenize m.topic (lit "/")).length = 5
  · cases hr : request host m with
    | none =>
      obtain ⟨e, j, h⟩ := run_handler_no_request host opts mc h5 hr ⟨a, .null, [], none⟩
      simp [handled, h, h5]
    | some r =>
      simp only [h5, ne_eq, not_true, false_or, Option.some.injEq, exists_eq_left']
      cases ha : r.action mc with
      | call fn args inst => simp [handled_call host opts hr ha, writes, Answered]
      | _ =>
        rw [handled_served host opts hr (by rw [ha]; rfl), returns_andThen_pure, ha]
        exact returns_served_iff host _ _
  · rw [handled, run_handler_ignored host opts mc h5]; simp [h5]

end

theorem plain_text_ends_the_agent :
    ¬ ∀ (genv : Env Str) (fs : FS Str) (mc : Except Str Unit) (m : Msg),
      returns (handled (small_host []) small_options mc m
        (System.start (small_host []) small_options genv fs).agent) = true :=
  fun h => absurd (h (fun _ => none) (fun _ => none) (.ok ()) ⟨lit "d/a/Session/__static__/f", lit "hello"⟩)
    (by decide +kernel)

end VrpcAgent

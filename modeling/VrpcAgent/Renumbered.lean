import VrpcAgent.Confinement
import VrpcAgent.Lockstep

/-!
# Calls numbered afresh

Two agents hand the same call of a request to R, but for its number and for what the fork
gets a copy of, and its fork replies the same but for the number of the packet. So what
the forks of a run do is what they do when each of them has been started by an agent that
has handled nothing before.
-/

namespace VrpcAgent

open Function Effects Runs

def instance_level (m : Msg) : Option Str :=
  match tokenize m.topic (lit "/") with
  | [_, _, _, inst, _] => some inst
  | _ => none

section
variable {V : Type} (host : Host) (opts : Options) (R : RLib V)

/-! ## Handlers and calls, up to numbers -/

def SamePackets (l l' : List Sent) : Prop := l.map (·.packet) = l'.map (·.packet)

def Write.packets (w : Write) : List Packet :=
  match w.packet with
  | .ok p => if (host.refuse p).isNone then [p] else []
  | .error _ => []

theorem write_packets (w : Write) {s : Frame} (hs : s.agent.pids.allocate ≠ none) :
    (after ((write host w).run s)).out.map (·.packet) = s.out.map (·.packet) ++ w.packets host := by
  rw [run_write, Write.packets]
  cases w.packet with
  | error e => exact (List.append_nil _).symm
  | ok p =>
    simp only [run_send]
    cases ha : s.agent.pids.allocate with
    | none => exact absurd ha hs
    | some r => cases host.refuse p <;> simp

theorem fork_packets {c : VrpcCall} {m : List (Str × Json)} (hm : c.memory.awaited_callbacks c.call_id = some (.object m))
    (hfree : c.memory.pids.allocate ≠ none) (out : Str) :
    (after (fork_reply host c out)).out.map (·.packet) = (reply_write [] (reply_members host out m)).packets host := by
  rw [fork_reply_eq host hm, write_packets host _ hfree]
  rfl

/-- Two agents hand the same call of a request to R, when either has an identifier left for the reply. -/
theorem registered_agree (r : Request) (fn : Str) (args : Json) (inst : Option Str) {a a' : Agent}
    (ha : a.pids.allocate ≠ none) (ha' : a'.pids.allocate ≠ none) :
    CallsAgree host SamePackets ⟨fn, args, a.call_id + 1, inst, r.register a⟩
      ⟨fn, args, a'.call_id + 1, inst, r.register a'⟩ where
  func_name := rfl
  string_args := rfl
  instance_id := rfl
  awaits := ⟨r.context, update_self ..⟩
  awaits' := ⟨r.context, update_self ..⟩
  replies out := by
    rw [SamePackets, fork_packets host (update_self ..) ha, fork_packets host (update_self ..) ha']

variable {host opts} in
theorem asked_static {k : Nat} {m : Msg} {mc : Except Str Unit} {tmp : Str} (h : instance_level m ≠ some (lit "__static__")) :
    asked host (.deliver k m mc tmp) = none := by
  simp only [asked]
  cases hr : request host m with
  | none => rfl
  | some r =>
    obtain ⟨d, a, j, htok, -, -⟩ := request_some host hr
    have hs : r.inst ≠ lit "__static__" := by
      intro hs
      rw [instance_level, htok] at h
      exact h (congrArg some hs)
    have hact : r.action mc = call_action mc r.function r.args (some r.inst) := by
      rw [Request.action, action, if_neg hs]
    rcases call_action_cases mc r.function r.args (some r.inst) with ⟨fn, args, hc⟩ | ⟨e, hc⟩ <;>
      simp only [Option.map_some, hact, hc]

theorem handled_packets {k : Nat} {m : Msg} {mc : Except Str Unit} {tmp : Str} (h : asked host (.deliver k m mc tmp) = none)
    {a a' : Agent} (ha : a.pids.allocate ≠ none) (ha' : a'.pids.allocate ≠ none) :
    SamePackets (after (handled host opts mc m a)).out (after (handled host opts mc m a')).out := by
  cases hr : request host m with
  | none =>
    obtain ⟨j, hj⟩ := handled_none host opts mc hr a
    obtain ⟨j', hj'⟩ := handled_none host opts mc hr a'
    rw [hj, hj']
    rfl
  | some r =>
    cases hact : r.action mc with
    | call fn args inst =>
      rw [handled_call host opts hr hact, handled_call host opts hr hact]
      rfl
    | invalid e =>
      obtain ⟨s, hs, hout, -, hsent⟩ := handled_invalid host opts hr hact a
      obtain ⟨s', hs', hout', -, hsent'⟩ := handled_invalid host opts hr hact a'
      rw [SamePackets, hsent, hsent', write_packets host _ (hs ▸ ha), write_packets host _ (hs' ▸ ha'), hout, hout']
      rfl
    | create x => simp [asked, hr, hact] at h
    | delete x => simp [asked, hr, hact] at h

theorem handled_returns {k : Nat} {m : Msg} {mc : Except Str Unit} {tmp : Str} (h : asked host (.deliver k m mc tmp) = none)
    {a a' : Agent} (ha : a.pids.allocate ≠ none) (ha' : a'.pids.allocate ≠ none) :
    returns (handled host opts mc m a) = returns (handled host opts mc m a') := by
  rw [Bool.eq_iff_iff, handler_returns_iff, handler_returns_iff]
  refine or_congr_right (exists_congr fun r => and_congr_right fun hr => ?_)
  cases hact : r.action mc with
  | call fn args inst => exact Iff.rfl
  | invalid e =>
    simp only [writes, Answered, repliable_iff]
    exact exists_congr fun p => and_congr_right fun _ => and_congr_left fun _ => iff_of_true ha ha'
  | create x => simp [asked, hr, hact] at h
  | delete x => simp [asked, hr, hact] at h

/-! ## The R side of a run -/

/-- The call of a request that an agent hands over which has handled nothing before. -/
def own_call (q : Msg × Except Str Unit) : VrpcCall :=
  (after (handled host opts q.2 q.1 Agent.new)).call.getD ⟨[], .null, 0, none, Agent.new⟩

theorem allocate_new : Agent.new.pids.allocate ≠ none := by decide +kernel

theorem own_call_agrees {m : Msg} {mc : Except Str Unit} {a : Agent} (ha : a.pids.allocate ≠ none) {c : VrpcCall}
    (hc : (after (handled host opts mc m a)).call = some c) : CallsAgree host SamePackets c (own_call host opts (m, mc)) := by
  rcases handled_calls host opts mc m with hnone | ⟨r, fn, args, inst, -, -, hh⟩
  · rw [hnone a] at hc; cases hc
  · rw [hh a] at hc
    cases hc
    rw [own_call, hh Agent.new]
    exact registered_agree host r fn args inst ha allocate_new

theorem own_call_level {q : Msg × Except Str Unit} {x : Str} (h : (own_call host opts q).instance_id = some x) :
    instance_level q.1 = some x ∧ x ≠ lit "__static__" := by
  rcases handled_calls host opts q.2 q.1 with hnone | ⟨r, fn, args, inst, hr, hact, hh⟩
  · rw [own_call, hnone] at h; cases h
  · rw [own_call, hh] at h
    obtain rfl : inst = some x := h
    obtain ⟨rfl, hstatic⟩ := action_inst hact
    obtain ⟨d, a, j, htok, -, -⟩ := request_some host hr
    exact ⟨by rw [instance_level, htok], hstatic⟩

/-- What an event means to the R side, with the calls numbered afresh. -/
def handed (s : System V) : Event → List SessionEvent
  | .deliver k m mc tmp =>
    if s.running = true ∧ (s.deliveries k).isNone then
      (after (handled host opts mc m s.agent)).call.toList.map fun _ => .call k (own_call host opts (m, mc)) tmp
    else []
  | .step k => [.step k]
  | .ack _ => []

def hand_over : System V → List Event → List SessionEvent
  | _, [] => []
  | s, e :: evs => handed host opts s e ++ hand_over (s.step host opts R e) evs

/-- An identifier is free whenever a message is handled, and the handler returns when the message is
for `b` or for static functions. -/
def Untroubled (b : Str) (s : System V) : Event → Prop
  | .deliver k m mc _ => s.running = true → (s.deliveries k).isNone = true → s.agent.pids.allocate.isSome = true ∧
      (instance_level m = some b ∨ instance_level m = some (lit "__static__") →
        returns (handled host opts mc m s.agent) = true)
  | _ => True

instance instDecidableUntroubled (b : Str) (s : System V) : ∀ e, Decidable (Untroubled host opts b s e)
  | .deliver .. => inferInstanceAs (Decidable (_ → _ → _ ∧ _))
  | .step _ => isTrue trivial
  | .ack _ => isTrue trivial

variable {b : Str}

theorem sessionsAgree_step {s : System V} {t : Sessions V} (h : SessionsAgree host SamePackets s.sessions t) {e : Event}
    (he : Untroubled host opts b s e) :
    SessionsAgree host SamePackets (s.step host opts R e).sessions (run (Sessions.step host R) t (handed host opts s e)) := by
  cases e with
  | deliver k m mc tmp =>
    by_cases hd : s.running = true ∧ (s.deliveries k).isNone
    · rw [System.step, if_pos hd, handed, if_pos hd]
      simp only [System.deliver]
      cases hc : (after (handled host opts mc m s.agent)).call with
      | none => exact h
      | some c => exact h.call k (own_call_agrees host opts (Option.isSome_iff_ne_none.mp (he hd.1 hd.2).1) hc) tmp
    · rw [System.step, if_neg hd, handed, if_neg hd]
      exact h
  | step k => exact h.step R k
  | ack i =>
    simp only [System.step]
    split
    · exact h
    · split <;> exact h

theorem run_sessionsAgree : ∀ {evs : List Event} {s : System V} {t : Sessions V},
    SessionsAgree host SamePackets s.sessions t → Along (System.step host opts R) (Untroubled host opts b) s evs →
      SessionsAgree host SamePackets (run (System.step host opts R) s evs).sessions
        (run (Sessions.step host R) t (hand_over host opts R s evs))
  | [], _, _, h, _ => h
  | e :: evs, s, t, h, ha => by
    rw [hand_over, run_append, run_cons]
    exact run_sessionsAgree (sessionsAgree_step host opts R h ha.1) ha.2

theorem mem_handed {s : System V} {e : Event} {k : Nat} {c : VrpcCall} {tmp : Str}
    (h : .call k c tmp ∈ handed host opts s e) :
    ∃ m mc, e = .deliver k m mc tmp ∧ c = own_call host opts (m, mc) ∧ called host e = c.instance_id := by
  cases e with
  | deliver k' m mc tmp' =>
    rw [handed] at h
    split at h
    · obtain ⟨c', hc', heq⟩ := List.mem_map.mp h
      cases heq
      have hcall : (after (handled host opts mc m s.agent)).call = some c' := Option.mem_toList.mp hc'
      refine ⟨m, mc, rfl, rfl, ?_⟩
      rw [called_of_call host opts hcall]
      rcases handled_calls host opts mc m with hnone | ⟨r, fn, args, inst, -, -, hh⟩
      · rw [hnone] at hcall; cases hcall
      · rw [hh] at hcall
        cases hcall
        rw [own_call, hh]
        rfl
    · cases h
  | step k' => rw [handed, List.mem_singleton] at h; cases h
  | ack i => cases h

theorem mem_hand_over {k : Nat} {c : VrpcCall} {tmp : Str} : ∀ {evs : List Event} {s : System V},
    .call k c tmp ∈ hand_over host opts R s evs →
      ∃ m mc, .deliver k m mc tmp ∈ evs ∧ c = own_call host opts (m, mc) ∧ called host (.deliver k m mc tmp) = c.instance_id
  | [], _, h => by cases h
  | e :: evs, s, h => by
    rcases List.mem_append.mp h with h | h
    · obtain ⟨m, mc, rfl, hc, hcalled⟩ := mem_handed host opts h
      exact ⟨m, mc, List.mem_cons_self, hc, hcalled⟩
    · obtain ⟨m, mc, hmem, hc⟩ := mem_hand_over h
      exact ⟨m, mc, List.mem_cons_of_mem e hmem, hc⟩

end

end VrpcAgent

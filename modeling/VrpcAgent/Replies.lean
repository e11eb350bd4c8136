import VrpcAgent.Survival
import VrpcAgent.Trace

/-!
# Replies

Which reply a fork publishes, and how many replies a request gets. A fork
replies from the copy of the process that was made when its call was handed to
R, so whatever the parent has handled since does not matter; it replies unless
one of its steps fails outside the evaluation.
-/

namespace VrpcAgent

open Function Effects Runs

section
variable (host : Host) (opts : Options)

/-! ## The reply of a fork -/

def reply_members (out : Str) (m : List (Str × Json)) : List (Str × Json) :=
  if 7 ≤ out.length ∧ out.take 7 = err_mark then Json.put (lit "e") (.string (out.drop 7)) m
  else Json.put (lit "r") ((host.parse out).getD (.string out)) m

theorem find_reply_members {key : Str} (he : key ≠ lit "e") (hr : key ≠ lit "r") (out : Str)
    (m : List (Str × Json)) : Json.find key (reply_members host out m) = Json.find key m := by
  unfold reply_members
  split
  · exact Json.find_put_of_ne he _ m
  · exact Json.find_put_of_ne hr _ m

def VrpcCall.erased (call : VrpcCall) : Agent :=
  { call.memory with awaited_callbacks := update call.memory.awaited_callbacks call.call_id none }

theorem fork_reply_eq {call : VrpcCall} {m : List (Str × Json)}
    (h : call.memory.awaited_callbacks call.call_id = some (.object m)) (out : Str) :
    fork_reply host call out =
      (write host (reply_write call.memory.instances (reply_members host out m))).run
        ⟨call.erased, .object m, [], none⟩ := by
  unfold fork_reply on_execution_done reply_members
  rw [run_bind, EStateM.run_modify, andThen_ok, run_bind, EStateM.run_modify, andThen_ok]
  simp only [h, Option.getD_some]
  split
  · rw [run_bind, run_set_j rfl, andThen_ok, run_publish_reply host rfl]
    exact run_write_over host _ ⟨call.erased, .object m, [], none⟩ _ _
  · rw [run_bind, run_set_j rfl, andThen_ok, run_publish_reply host rfl]
    exact run_write_over host _ ⟨call.erased, .object m, [], none⟩ _ _

theorem fork_reply_out {call : VrpcCall} {m : List (Str × Json)} {out : Str} {u : Unit} {fr : Frame}
    (h : call.memory.awaited_callbacks call.call_id = some (.object m)) (hr : fork_reply host call out = .ok u fr) :
    ∃ id t, Json.member (lit "s") m = .string t ∧
      fr.out = [⟨id, .publish t (.object (Json.touch (lit "s") (reply_members host out m))) false⟩] := by
  rw [fork_reply_eq host h] at hr
  obtain ⟨p, id, pids, hp, -, -, rfl⟩ := write_ok host hr
  obtain ⟨t, ht, rfl⟩ := reply_packet_eq hp
  refine ⟨id, t, ?_, rfl⟩
  rw [← ht, Json.member_touch, Json.member, Json.member, find_reply_members host (by decide) (by decide)]

theorem find_context {key : Str} (hc : key ≠ lit "c") (hf : key ≠ lit "f") (r : Request) :
    Json.find key r.context = Json.find key r.members := by
  rw [Request.context, Json.find_put_of_ne hf, Json.find_put_of_ne hc]

theorem find_of_member {key : Str} {m : List (Str × Json)} {t : Str} (h : Json.member key m = .string t) :
    Json.find key m = some (.string t) := by
  unfold Json.member at h
  cases hf : Json.find key m with
  | none => rw [hf] at h; cases h
  | some v => rw [hf] at h; exact congrArg some h

/-! ## What a reply says -/

theorem prepare_error_marked (err : Condition) :
    7 ≤ (prepare_error err).length ∧ (prepare_error err).take 7 = err_mark := by
  refine ⟨?_, List.take_left' rfl⟩
  rw [prepare_error, paste0, List.length_append]
  exact Nat.le_add_right 7 _

theorem find_e_reply (out : Str) (m : List (Str × Json)) (h : 7 ≤ out.length ∧ out.take 7 = err_mark) :
    Json.find (lit "e") (Json.touch (lit "s") (reply_members host out m)) = some (.string (out.drop 7)) := by
  rw [Json.find_touch_of_ne (by decide), reply_members, if_pos h, Json.find_put_self]

theorem sent_of_reply {V : Type} {R : RLib V} {call : VrpcCall} {m : List (Str × Json)}
    (h : call.memory.awaited_callbacks call.call_id = some (.object m)) {ev : Evaluation V} {out : Str}
    {sent : List Sent} (hr : reply host R call ev = some (out, sent)) :
    call_output R call.func_name ev = some out ∧
      ∃ id t, sent = [⟨id, .publish t (.object (Json.touch (lit "s") (reply_members host out m))) false⟩] := by
  unfold reply at hr
  split at hr
  · cases hr
  · rename_i hout
    split at hr
    · rename_i hfr
      cases hr
      obtain ⟨id, t, -, hsent⟩ := fork_reply_out host h hfr
      exact ⟨hout, id, t, hsent⟩
    · cases hr

/-- `p` is a reply to the request `m`: it goes to the topic `m` names, and carries
the members of `m` with the context and the result. -/
def ReplyTo (m : Msg) (p : Packet) : Prop :=
  ∃ domain agent class_name inst function ms s j,
    tokenize m.topic (lit "/") = [domain, agent, class_name, inst, function] ∧
    host.parse m.contents = some (.object ms) ∧
    Json.find (lit "s") ms = some (.string s) ∧ p = .publish s (.object j) false ∧
    Json.find (lit "c") j = some (.string (if inst = lit "__static__" then class_name else inst)) ∧
    Json.find (lit "f") j = some (.string function) ∧
    ∀ key, key ∉ [lit "c", lit "f", lit "r", lit "e"] → Json.find key j = Json.find key ms

theorem replyTo_of_fork {m : Msg} {r : Request} (hr : request host m = some r) {a : Agent} {call : VrpcCall}
    (hid : call.call_id = a.call_id + 1) (hm : call.memory = r.register a) {out : Str} {u : Unit} {fr : Frame}
    (h : fork_reply host call out = .ok u fr) : ∃ id p, fr.out = [⟨id, p⟩] ∧ ReplyTo host m p := by
  have haw : call.memory.awaited_callbacks call.call_id = some (.object r.context) := by
    rw [hm, hid]; exact update_self ..
  obtain ⟨id, t, ht, hout⟩ := fork_reply_out host haw h
  obtain ⟨domain, agent, j, htok, hj, hms⟩ := request_some host hr
  have hs : Json.find (lit "s") r.members = some (.string t) := by
    rw [← find_context (by decide) (by decide), find_of_member ht]
  have hobj : j = .object r.members := by
    cases j with
    | null => rw [← Option.some.inj hms] at hs; cases hs
    | object m' => exact congrArg Json.object (Option.some.inj hms)
    | _ => cases hms
  have htouch : Json.touch (lit "s") (reply_members host out r.context) = reply_members host out r.context :=
    Json.touch_eq (by rw [find_reply_members host (by decide) (by decide), find_of_member ht]; rfl)
  refine ⟨id, _, hout, domain, agent, r.class_name, r.inst, r.function, r.members, t, _, htok, ?_, hs, rfl, ?_, ?_,
    fun key hkey => ?_⟩
  · rw [hj, hobj]
  · rw [htouch, find_reply_members host (by decide) (by decide), Request.context, Json.find_put_of_ne (by decide),
      Json.find_put_self]
  · rw [htouch, find_reply_members host (by decide) (by decide), Request.context, Json.find_put_self]
  · simp only [List.mem_cons, List.not_mem_nil, or_false, not_or] at hkey
    obtain ⟨hc, hf, hr', he⟩ := hkey
    rw [htouch, find_reply_members host he hr', find_context hc hf]

end

section
variable {V : Type} (host : Host) (opts : Options) (R : RLib V)

/-- **Replies are never crossed.** Whatever a fork writes, in any run, is a reply
to the request it was started for. -/
theorem fork_replies_to_request {s₀ : System V} (h₀ : Fresh s₀) (evs : List Event) {k : Nat} {e : Entry}
    (he : e ∈ (run (System.step host opts R) s₀ evs).log) (ho : e.origin = .fork k) :
    ∃ d, (run (System.step host opts R) s₀ evs).deliveries k = some d ∧ ReplyTo host d.msg e.sent.packet := by
  have ht := run_traced host opts R h₀ evs
  have hmem := mem_written he
  rw [ho, ht.fork k] at hmem
  cases hf : (run (System.step host opts R) s₀ evs).sessions.forks k with
  | none => rw [hf] at hmem; cases hmem
  | some f =>
    rw [hf] at hmem
    cases hst : f.stage with
    | replied sc ev out sent =>
      obtain ⟨fr, hfr, hsent⟩ := ht.replied k f sc ev out sent hf hst
      obtain ⟨d, r, mc, a, fn, args, inst, hd, hr, -, hcall⟩ := ht.fork_call host opts hf
      obtain ⟨id, p, hout, hp⟩ := replyTo_of_fork host hr (by rw [hcall]) (by rw [hcall]) hfr
      simp only [hst, Stage.sent, hsent, hout, List.mem_singleton] at hmem
      exact ⟨d, hd, by rw [hmem]; exact hp⟩
    | _ => simp only [hst, Stage.sent] at hmem; cases hmem

end

/-! ## Two calls at once -/

def two_calls_host : Host := small_host [(lit "t", [lit "v", lit "1"]), (lit "u", [lit "w", lit "2"])]

/-- The second request is handled, and its fork replies, before the first fork
replies. -/
def two_calls : List Event :=
  [.deliver 0 (small_request "__static__" "assign" (lit "t") [lit "v", lit "1"]) (.ok ()) [],
    .deliver 1 (small_request "x" "assign" (lit "u") [lit "w", lit "2"]) (.ok ()) []] ++
    List.replicate 4 (.step 1) ++ List.replicate 4 (.step 0)

abbrev after_two_calls : System Str :=
  run (System.step two_calls_host small_options small_R)
    (System.start two_calls_host small_options (fun _ => none) (fun _ => none)) two_calls

theorem first_fork_replies_to_first :
    ∃ e ∈ after_two_calls.log, e.origin = .fork 0 ∧
      ∃ d, after_two_calls.deliveries 0 = some d ∧ ReplyTo two_calls_host d.msg e.sent.packet := by
  have hsome : (after_two_calls.log.find? fun e => e.origin = .fork 0).isSome = true := by decide +kernel
  obtain ⟨e, he⟩ := Option.isSome_iff_exists.mp hsome
  have hmem := List.mem_of_find?_eq_some he
  have ho : e.origin = .fork 0 := by simpa using List.find?_some he
  exact ⟨e, hmem, ho, fork_replies_to_request two_calls_host small_options small_R
    (fresh_start two_calls_host small_options _ _) two_calls hmem ho⟩

end VrpcAgent

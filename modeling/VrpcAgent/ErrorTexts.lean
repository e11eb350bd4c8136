import VrpcAgent.Replies
import VrpcAgent.Strings

/-!
# Error texts

`prepare_error` takes the last piece of the condition's text, split at `": "`.
So a message arrives complete exactly when it does not contain the separator
itself; the recorded call does not matter.
-/

namespace VrpcAgent

open Effects Runs

theorem prepare_error_eq (err : Condition) :
    prepare_error err =
      err_mark ++ trimws ((strsplit (err.message ++ [10]) (lit ": ")).getLastD []) := by
  have htext : ∃ pre, err.toString = pre ++ 58 :: 32 :: (err.message ++ [10]) := by
    unfold Condition.toString
    cases err.call with
    | none => exact ⟨lit "Error", by rw [List.append_assoc]; rfl⟩
    | some call => exact ⟨lit "Error in " ++ call, by simp only [List.append_assoc]; rfl⟩
  obtain ⟨pre, hpre⟩ := htext
  rw [prepare_error, paste0, hpre, strsplit]
  exact congrArg (fun p => err_mark ++ trimws p) (strsplit_from_last (by decide) (by simp) pre [])

theorem separator_newline {m : Str} (h : lit ": " <:+: m ++ [10]) : lit ": " <:+: m := by
  rcases List.infix_concat_iff.mp h with hsuf | hin
  · obtain ⟨pre, hpre⟩ := hsuf
    have hlast : (pre ++ [58] ++ [32]).getLast? = (m ++ [10]).getLast? := by
      rw [← hpre, List.append_assoc]; rfl
    rw [List.getLast?_concat, List.getLast?_concat] at hlast
    exact absurd hlast (by decide)
  · exact hin

theorem prepare_error_complete_iff (err : Condition) :
    prepare_error err = err_mark ++ trimws err.message ↔ ¬ lit ": " <:+: err.message := by
  rw [prepare_error_eq, List.append_right_inj]
  constructor
  · intro h hin
    -- what is cut off has a colon
    obtain ⟨pre, suf, hm⟩ := hin
    have hm : err.message ++ [10] = pre ++ 58 :: 32 :: (suf ++ [10]) := by
      rw [← hm]; simp [lit]
    have hlast : (strsplit (err.message ++ [10]) (lit ": ")).getLastD [] =
        (strsplit (suf ++ [10]) (lit ": ")).getLastD [] := by
      rw [hm]; exact strsplit_from_last (by decide) (by simp) pre []
    rw [hlast] at h
    have hcount := congrArg (List.count 58) h
    have hsuf : ((strsplit (suf ++ [10]) (lit ": ")).getLastD []).count 58 ≤ (suf ++ [10]).count 58 := count_last_piece 58 _
    have htotal := congrArg (List.count 58) hm
    rw [count_trimws (by decide), count_trimws (by decide)] at hcount
    have hnewline : List.count (58 : UInt8) [10] = 0 := by decide
    simp only [List.count_append, List.count_cons_self, List.count_cons_of_ne (show (32 : UInt8) ≠ 58 by decide),
      hnewline] at hcount htotal hsuf
    omega
  · intro h
    rw [strsplit_unsplit fun hin => h (separator_newline hin), if_neg (by simp)]
    exact trimws_append_white (by decide) err.message

def Stage.raised {V : Type} : Stage V → Option Condition
  | .replied _ ev _ _ =>
    match ev.outcome with
    | .error err => some err
    | .ok _ => none
  | _ => none

section
variable {V : Type} (host : Host) (opts : Options) (R : RLib V)

theorem raised_reply {call : VrpcCall} {st : Stage V} (hc : Computed host R call st) {m : List (Str × Json)}
    (haw : call.memory.awaited_callbacks call.call_id = some (.object m)) {err : Condition}
    (herr : st.raised = some err) :
    ∃ id t, st.sent = [⟨id,
    .publish t (.object (Json.touch (lit "s") (reply_members host (prepare_error err) m))) false⟩] := by
  cases st with
  | replied sc ev out sent =>
    obtain ⟨hout, id, t, hsent⟩ := sent_of_reply host haw hc.2
    cases ho : ev.outcome with
    | ok v => simp only [Stage.raised, ho] at herr; cases herr
    | error err' =>
      simp only [Stage.raised, ho, Option.some.injEq] at herr
      simp only [call_output, ho, Option.some.injEq] at hout
      subst herr
      subst hout
      exact ⟨id, t, hsent⟩
  | _ => cases herr

/-- **Error texts.** The reply to a call that has ended in an error has the message
as its member `e`, complete exactly when it does not contain `": "`. -/
theorem error_text_complete_iff (genv : Env V) (fs : FS V) (evs : List Event) {k : Nat} {f : Fork V} {err : Condition}
    (hf : (run (System.step host opts R) (System.start host opts genv fs) evs).sessions.forks k = some f)
    (herr : f.stage.raised = some err) :
    ∃ id t j, written (run (System.step host opts R) (System.start host opts genv fs) evs).log (.fork k) =
        [⟨id, .publish t (.object j) false⟩] ∧
      (Json.find (lit "e") j = some (.string (trimws err.message)) ↔ ¬ lit ": " <:+: err.message) := by
  have h₀ := fresh_start host opts genv fs
  have ht := run_traced host opts R h₀ evs
  obtain ⟨r, haw⟩ := ht.fork_awaits host opts hf
  obtain ⟨id, t, hsent⟩ := raised_reply host R (run_computed host opts R h₀ evs hf) haw herr
  obtain ⟨text, htext⟩ : ∃ text, prepare_error err = err_mark ++ text := ⟨_, prepare_error_eq err⟩
  refine ⟨id, t, _, by rw [ht.fork k, hf]; exact hsent, ?_⟩
  rw [find_e_reply host _ r.context (prepare_error_marked err), ← prepare_error_complete_iff, htext, List.append_right_inj,
    show (err_mark ++ text).drop 7 = text from List.drop_left' rfl, Option.some_inj, Json.string.injEq]

end

/-! ## Two messages -/

def stop_R : RLib Str :=
  { small_R with
    evaluate := fun callee args sc =>
      match args with
      | [(_, m)] => ⟨sc, .error ⟨m, some (lit "f()")⟩, []⟩
      | _ => small_evaluate callee args sc }

def stop_host (m : Str) : Host := small_host [(lit "t", [m])]

def stop_events (m : Str) : List Event :=
  .deliver 0 (small_request "__static__" "stop" (lit "t") [m]) (.ok ()) [] :: List.replicate 4 (.step 0)

abbrev stopped (m : Str) : System Str :=
  run (System.step (stop_host m) small_options stop_R)
    (System.start (stop_host m) small_options (fun _ => none) (fun _ => none)) (stop_events m)

theorem raised_of_message {m : Str}
    (h : ((stopped m).sessions.forks 0).map (fun f => f.stage.raised.map (·.message)) = some (some m)) :
    ∃ f err, (stopped m).sessions.forks 0 = some f ∧ f.stage.raised = some err ∧ err.message = m := by
  obtain ⟨f, hf, hr⟩ := Option.map_eq_some_iff.mp h
  obtain ⟨err, herr, hm⟩ := Option.map_eq_some_iff.mp hr
  exact ⟨f, err, hf, herr, hm⟩

theorem plain_message_is_complete :
    ∃ err : Condition, err.message = lit "no such file" ∧ ∃ id t j, written (stopped (lit "no such file")).log (.fork 0) =
        [⟨id, .publish t (.object j) false⟩] ∧
      (Json.find (lit "e") j = some (.string (trimws err.message)) ↔ ¬ lit ": " <:+: err.message) := by
  obtain ⟨f, err, hf, herr, hm⟩ := raised_of_message (m := lit "no such file") (by decide +kernel)
  unfold stopped at hf ⊢
  exact ⟨err, hm, error_text_complete_iff (stop_host (lit "no such file")) small_options stop_R (fun _ => none)
    (fun _ => none) (stop_events (lit "no such file")) hf herr⟩

def error_member (s : Sent) : Option Str :=
  match s.packet with
  | .publish _ (.object j) _ =>
    match Json.find (lit "e") j with
    | some (.string e) => some e
    | _ => none
  | _ => none

theorem message_is_cut :
    ¬ ∀ (m : Str) (f : Fork Str) (err : Condition), (stopped m).sessions.forks 0 = some f → f.stage.raised = some err →
      ∃ id t j, written (stopped m).log (.fork 0) = [⟨id, .publish t (.object j) false⟩] ∧
        Json.find (lit "e") j = some (.string (trimws err.message)) := by
  intro h
  obtain ⟨f, err, hf, herr, hm⟩ := raised_of_message (m := lit "line 1: bad") (by decide +kernel)
  obtain ⟨id, t, j, hw, hj⟩ := h _ f err hf herr
  have he : (written (stopped (lit "line 1: bad")).log (.fork 0)).map error_member = [some (lit "line 1: bad")] := by
    rw [hw, List.map_singleton, error_member]
    simp only [hj, hm]
    decide
  exact absurd he (by decide +kernel)

end VrpcAgent

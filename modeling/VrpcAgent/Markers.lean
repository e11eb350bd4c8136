import VrpcAgent.Callees

/-!
# The error marker

One text carries a value, a graphic, a fallback or an error to the reply. Only errors
begin with the marker: the others begin as JSON does, are base64, or are the fallback.
-/

namespace VrpcAgent

open Effects Runs

/-- What a JSON text begins with: white space, a bracket, a quote, a number, a literal, or
the byte order mark that the library skips. -/
def json_start : List UInt8 := [9, 10, 13, 32, 239] ++ lit "[\x7b\"-0123456789tfn"

def StartsJson (t : Str) : Prop := ∃ c ∈ t.head?, c ∈ json_start

def base64_alphabet : List UInt8 := lit "ABCDEFGHIJKLMNOPQRSTUVWXYZabcdefghijklmnopqrstuvwxyz0123456789+/="

section
variable {V : Type}

/-- The texts of the JSON libraries and of the base64 encoder. -/
structure TextFormats (host : Host) (R : RLib V) : Prop where
  parse : ∀ t w, host.parse t = some w → StartsJson t
  toJSON : ∀ v t, R.toJSON v = some t → StartsJson t
  serializeJSON : ∀ v t, R.serializeJSON v = some t → StartsJson t
  base64encode : ∀ c args sc, ∀ p ∈ (R.evaluate c args sc).plots, ∀ b, p.file = some b → ∀ x ∈ b, x ∈ base64_alphabet

def HasMark (out : Str) : Prop := 7 ≤ out.length ∧ out.take 7 = err_mark

/-! ## The texts of `json_call` -/

theorem HasMark.head {out : Str} (h : HasMark out) : out.head? = some 95 := by
  cases out with
  | nil => exact absurd h.1 (by decide)
  | cons c out => exact congrArg List.head? h.2

theorem not_hasMark_of_start {t : Str} (h : StartsJson t) : ¬ HasMark t := by
  intro hmark
  obtain ⟨c, hc, hstart⟩ := h
  rw [hmark.head] at hc
  obtain rfl : 95 = c := Option.some.inj hc
  exact absurd hstart (by decide)

theorem not_hasMark_of_base64 {b : Str} (h : ∀ x ∈ b, x ∈ base64_alphabet) : ¬ HasMark b := by
  intro hmark
  have hmem : (95 : UInt8) ∈ b := List.mem_of_head? hmark.head
  exact absurd (h 95 hmem) (by decide)

theorem extract_graphics_file {plots : List Plot} {g : Str} (h : extract_graphics plots = some (some g)) :
    ∃ p ∈ plots, p.file = some g := by
  unfold extract_graphics at h
  split at h
  · cases h
  · rename_i p hlast
    obtain ⟨b, hb, hbg⟩ := Option.map_eq_some_iff.mp h
    obtain rfl : b = g := Option.some.inj hbg
    refine ⟨p, List.mem_of_getLast? hlast, ?_⟩
    unfold extract_svg at hb
    split at hb
    · exact hb
    · cases hb

variable {host : Host} {R : RLib V}

theorem not_hasMark_fallback (hfmt : TextFormats host R) (val : V) :
    ¬ HasMark ((R.serializeJSON val).getD (lit "__not_serializable__")) := by
  cases hs : R.serializeJSON val with
  | none => exact fun h => absurd h.2 (by decide)
  | some t => exact not_hasMark_of_start (hfmt.serializeJSON val t hs)

theorem not_hasMark_prepare_output (hfmt : TextFormats host R) {val : V} {gfx : Option (Option Str)} {out : Str}
    (hgfx : ∀ g, gfx = some (some g) → ∀ x ∈ g, x ∈ base64_alphabet) (h : prepare_output R val gfx = some out) :
    ¬ HasMark out := by
  unfold prepare_output at h
  split at h
  · split at h
    · cases h
    · exact not_hasMark_of_start (hfmt.toJSON _ out h)
    · split at h
      · rename_i t ht
        obtain rfl : t = out := Option.some.inj h
        exact not_hasMark_of_start (hfmt.toJSON val t ht)
      · rw [← Option.some.inj h]
        exact not_hasMark_fallback hfmt val
  · split at h
    · rename_i t ht
      obtain rfl : t = out := Option.some.inj h
      exact not_hasMark_of_start (hfmt.toJSON val t ht)
    · split at h
      · cases h
      · rename_i g
        obtain rfl : g = out := Option.some.inj h
        exact not_hasMark_of_base64 (hgfx g rfl)
      · rw [← Option.some.inj h]
        exact not_hasMark_fallback hfmt val

/-- The marker stands before the text of an error and nowhere else. -/
theorem hasMark_iff (hfmt : TextFormats host R) {call : VrpcCall} {sc : Scope V} {ev : Evaluation V} {out : Str}
    (hev : evaluate_call R call.func_name call.string_args sc = some ev) (hout : call_output R call.func_name ev = some out) :
    HasMark out ↔ ∃ err, ev.outcome = .error err := by
  cases ho : ev.outcome with
  | error err =>
    simp only [call_output, ho, Option.some.injEq] at hout
    rw [← hout]
    exact iff_of_true (prepare_error_marked err) ⟨err, rfl⟩
  | ok v =>
    refine iff_of_false ?_ (fun h => ?_)
    · simp only [call_output, ho] at hout
      split at hout
      · cases hout
      · refine not_hasMark_prepare_output hfmt (fun g hg => ?_) hout
        obtain ⟨p, hp, hfile⟩ := extract_graphics_file hg
        rw [evaluate_call_eq] at hev
        obtain ⟨c, -, hc⟩ := Option.bind_eq_some_iff.mp hev
        obtain ⟨args, -, hrec⟩ := Option.map_eq_some_iff.mp hc
        rw [← hrec, recorded_plots] at hp
        exact hfmt.base64encode c args sc p hp g hfile
    · obtain ⟨err, herr⟩ := h
      cases herr

/-! ## The reply -/

structure Reports (host : Host) (ev : Evaluation V) (out : Str) (j : List (Str × Json)) : Prop where
  one : Json.find (lit "r") j ≠ none ↔ Json.find (lit "e") j = none
  error : Json.find (lit "e") j ≠ none ↔ ∃ err, ev.outcome = .error err
  value : ∀ w, host.parse out = some w → Json.find (lit "r") j = some w

theorem reply_members_marked {out : Str} (h : HasMark out) (m : List (Str × Json)) :
    reply_members host out m = Json.put (lit "e") (.string (out.drop 7)) m := if_pos h

theorem reply_members_unmarked {out : Str} (h : ¬ HasMark out) (m : List (Str × Json)) :
    reply_members host out m = Json.put (lit "r") ((host.parse out).getD (.string out)) m := if_neg h

theorem reports_of_mark (hfmt : TextFormats host R) {ev : Evaluation V} {out : Str} {m : List (Str × Json)}
    (hr : Json.find (lit "r") m = none) (he : Json.find (lit "e") m = none)
    (hmark : HasMark out ↔ ∃ err, ev.outcome = .error err) :
    Reports host ev out (Json.touch (lit "s") (reply_members host out m)) := by
  by_cases h : HasMark out
  · have hre : Json.find (lit "r") (Json.touch (lit "s") (reply_members host out m)) = none := by
      rw [Json.find_touch_of_ne (by decide), reply_members_marked h, Json.find_put_of_ne (by decide), hr]
    have hee := find_e_reply host out m h
    refine ⟨by rw [hre, hee]; simp, ?_, fun w hw => absurd h (not_hasMark_of_start (hfmt.parse out w hw))⟩
    rw [hee]
    exact iff_of_true (Option.some_ne_none _) (hmark.mp h)
  · have hre : Json.find (lit "r") (Json.touch (lit "s") (reply_members host out m)) =
        some ((host.parse out).getD (.string out)) := by
      rw [Json.find_touch_of_ne (by decide), reply_members_unmarked h, Json.find_put_self]
    have hee : Json.find (lit "e") (Json.touch (lit "s") (reply_members host out m)) = none := by
      rw [Json.find_touch_of_ne (by decide), reply_members_unmarked h, Json.find_put_of_ne (by decide), he]
    refine ⟨by rw [hre, hee]; simp, ?_, fun w hw => by rw [hre, hw]; rfl⟩
    rw [hee]
    exact iff_of_false (fun hn => hn rfl) fun herr => h (hmark.mpr herr)

variable {opts : Options}

/-- **The marker** is unambiguous: of what a call has been evaluated to, the reply has either an
`r` or an `e`, an `e` exactly when the evaluation has ended in an error, and the output's value
as its `r`. -/
theorem reply_reports (hfmt : TextFormats host R) (genv : Env V) (fs : FS V) (evs : List Event) {k : Nat} {f : Fork V}
    {sc : Scope V} {ev : Evaluation V} {out : Str} {sent : List Sent}
    (hf : (run (System.step host opts R) (System.start host opts genv fs) evs).sessions.forks k = some f)
    (hreplied : f.stage = .replied sc ev out sent)
    (hreq : ∀ d r, (run (System.step host opts R) (System.start host opts genv fs) evs).deliveries k = some d →
      request host d.msg = some r → Json.find (lit "r") r.members = none ∧ Json.find (lit "e") r.members = none) :
    evaluate_call R f.call.func_name f.call.string_args sc = some ev ∧ call_output R f.call.func_name ev = some out ∧
      ∃ id t j, written (run (System.step host opts R) (System.start host opts genv fs) evs).log (.fork k) =
        [⟨id, .publish t (.object j) false⟩] ∧ Reports host ev out j := by
  have h₀ := fresh_start host opts genv fs
  have ht := run_traced host opts R h₀ evs
  have hcomp := run_computed host opts R h₀ evs hf
  rw [hreplied] at hcomp
  obtain ⟨d, r, mc, a, fn, args, inst, hd, hr, -, hcall⟩ := ht.fork_call host opts hf
  have haw : f.call.memory.awaited_callbacks f.call.call_id = some (.object r.context) := by
    rw [hcall]
    exact Function.update_self ..
  obtain ⟨hout, id, t, hsent⟩ := sent_of_reply host haw hcomp.2
  obtain ⟨hrm, hem⟩ := hreq d r hd hr
  rw [← find_context (by decide) (by decide)] at hrm hem
  refine ⟨hcomp.1, hout, id, t, _, ?_, reports_of_mark hfmt hrm hem (hasMark_iff hfmt hcomp.1 hout)⟩
  rw [ht.fork k, hf]
  show f.stage.sent = _
  rw [hreplied]
  exact hsent

end

/-! ## A value like an error -/

def marked_value : Str := lit "__err__x"

def quoting_R : RLib Str := { small_R with serializeJSON := fun v => some (quoted v) }

def marked_host : Host := small_host [(lit "t", [lit "v", marked_value])]

def marked_events : List Event :=
  .deliver 0 (small_request "__static__" "assign" (lit "t") [lit "v", marked_value]) (.ok ()) [] :: List.replicate 4 (.step 0)

abbrev after_marked : System Str :=
  run (System.step marked_host small_options quoting_R)
    (System.start marked_host small_options (fun _ => none) (fun _ => none)) marked_events

theorem small_evaluate_plots (c : Callee) (args : Args Str) (sc : Scope Str) : (small_evaluate c args sc).plots = [] := by
  unfold small_evaluate
  split
  · split <;> rfl
  · split
    · rfl
    · split
      · split <;> rfl
      · rfl
  · rfl

theorem quoting_formats : TextFormats marked_host quoting_R where
  parse t w h := by
    by_cases ht : t = request_text (lit "t") [lit "v", marked_value]
    · subst ht
      exact ⟨123, rfl, by decide⟩
    · change List.lookup t [(request_text (lit "t") [lit "v", marked_value], _)] = some w at h
      rw [List.lookup_cons, beq_eq_false_iff_ne.mpr ht] at h
      cases h
  toJSON v t h := by
    change (if v = [] then some (lit "\x7b\x7d") else some (quoted v)) = some t at h
    split at h
    · obtain rfl := Option.some.inj h
      exact ⟨123, rfl, by decide⟩
    · obtain rfl := Option.some.inj h
      exact ⟨34, rfl, by decide⟩
  serializeJSON v t h := by
    obtain rfl : quoted v = t := Option.some.inj h
    exact ⟨34, rfl, by decide⟩
  base64encode c args sc p hp := by
    rw [show quoting_R.evaluate = small_evaluate from rfl, small_evaluate_plots] at hp
    cases hp

def Stage.returned {V : Type} : Stage V → Option V
  | .replied _ ev _ _ => ev.outcome.toOption
  | _ => none

theorem returned_spec {V : Type} {st : Stage V} {v : V} (h : st.returned = some v) :
    ∃ sc ev out sent, st = .replied sc ev out sent ∧ ev.outcome = .ok v := by
  cases st with
  | replied sc ev out sent =>
    refine ⟨sc, ev, out, sent, rfl, ?_⟩
    change ev.outcome.toOption = some v at h
    cases ho : ev.outcome with
    | error err => rw [ho] at h; cases h
    | ok v' => rw [ho] at h; exact congrArg Except.ok (Option.some.inj h)
  | _ => cases h

def unanswered (d : Delivery) : Bool :=
  (request marked_host d.msg).all fun r => (Json.find (lit "r") r.members).isNone && (Json.find (lit "e") r.members).isNone

theorem marked_value_is_a_result : ∃ (f : Fork Str) (sc : Scope Str) (ev : Evaluation Str) (out : Str),
    after_marked.sessions.forks 0 = some f ∧ ev.outcome = .ok marked_value ∧
    evaluate_call quoting_R f.call.func_name f.call.string_args sc = some ev ∧
    call_output quoting_R f.call.func_name ev = some out ∧
    ∃ id t j, written after_marked.log (.fork 0) = [⟨id, .publish t (.object j) false⟩] ∧ Reports marked_host ev out j := by
  have hfork : (after_marked.sessions.forks 0).map (·.stage.returned) = some (some marked_value) := by decide +kernel
  have hplain : after_marked.deliveries 0 |>.all unanswered := by decide +kernel
  obtain ⟨f, hf, hret⟩ := Option.map_eq_some_iff.mp hfork
  obtain ⟨sc, ev, out, sent, hst, hok⟩ := returned_spec hret
  unfold after_marked at hf hplain ⊢
  refine ⟨f, sc, ev, out, hf, hok, reply_reports quoting_formats (fun _ => none) (fun _ => none) marked_events hf hst ?_⟩
  intro d r hd hr
  rw [hd, Option.all_some, unanswered, hr, Option.all_some, Bool.and_eq_true, Option.isNone_iff_eq_none,
    Option.isNone_iff_eq_none] at hplain
  exact hplain

end VrpcAgent

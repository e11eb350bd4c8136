import VrpcAgent.Replies
import VrpcAgent.Strings

/-!
# Function names

A name without `"::"` names a function, and `"pkg::fn"` a function of a package.
`json_call` splits at every `"::"` and counts the pieces: a name that is neither kills the
fork without a reply, or has another function called.
-/

namespace VrpcAgent

open Function Effects Runs

def Part (x : Str) : Prop := x ≠ [] ∧ ¬ lit "::" <:+: x

inductive Reads : Str → Callee → Prop
  | name {n : Str} (hn : Part n) : Reads n (.name n)
  | colons {p f : Str} (hp : Part p) (hf : Part f) : Reads (p ++ (lit "::" ++ f)) (.colons p f)

/-! ## The pieces of a name -/

theorem no_separator_piece {p : Str} (hp : ¬ lit "::" <:+: p) (hend : ¬ [58] <:+ p) : ¬ lit "::" <:+: p ++ [58] := by
  intro h
  rcases List.infix_concat_iff.mp h with h | h
  · rcases List.suffix_concat_iff.mp h with h | ⟨t, ht, hsuf⟩
    · cases h
    · have ht : [58] ++ [58] = t ++ [58] := ht
      rw [List.append_cancel_right ht] at hend
      exact hend hsuf
  · exact hp h

theorem strsplit_piece {p : Str} (s : Str) (hp : ¬ lit "::" <:+: p ++ [58]) :
    strsplit (p ++ (lit "::" ++ s)) (lit "::") = p :: strsplit s (lit "::") :=
  strsplit_from_piece s [] hp

theorem as_name_part {x : Str} (h : Part x) : as_name x = some x := if_neg h.1

theorem call_object_name {n : Str} (h : Part n) : call_object n = some (.name n) := by
  unfold call_object
  rw [strsplit_unsplit h.2, if_neg h.1]
  simp [as_name_part h]

theorem call_object_colons {p f : Str} (hp : Part p) (hf : Part f) (hend : ¬ [58] <:+ p) :
    call_object (p ++ (lit "::" ++ f)) = some (.colons p f) := by
  unfold call_object
  rw [strsplit_piece f (no_separator_piece hp.2 hend), strsplit_unsplit hf.2, if_neg hf.1]
  simp [as_name_part hp, as_name_part hf]

/-- The name is cut at the colon before the separator. -/
theorem call_object_of_colon {p f : Str} (hp : Part p) (hend : [58] <:+ p) :
    call_object (p ++ (lit "::" ++ f)) ≠ some (.colons p f) := by
  intro h
  obtain ⟨p', rfl⟩ := hend
  have hsplit := strsplit_piece (58 :: f) hp.2
  have htext : p' ++ [58] ++ (lit "::" ++ f) = p' ++ (lit "::" ++ 58 :: f) := by simp [lit]
  rw [htext] at h
  unfold call_object at h
  rw [hsplit] at h
  split at h
  · rename_i pkg fn hs
    split at h
    · rename_i q g hq hg
      obtain ⟨rfl, -⟩ := as_name_some hq
      have hpkg : p' = pkg := (List.cons.inj hs).1
      have hpart : pkg = p' ++ [58] := (Callee.colons.inj (Option.some.inj h)).1
      rw [hpkg] at hpart
      exact List.cons_ne_nil 58 [] (List.self_eq_append_right.mp hpart)
    · cases h
  · obtain ⟨q, -, hq⟩ := Option.map_eq_some_iff.mp h
    cases hq
  · cases h

/-! ## The function that is called -/

section
variable {V : Type} (host : Host) (opts : Options) (R : RLib V)

def recorded (func_name : Str) (ev : Evaluation V) : Evaluation V :=
  match ev.outcome with
  | .ok val => { ev with scope := ev.scope.assign (eval_var_name func_name) val }
  | .error _ => ev

theorem recorded_plots (func_name : Str) (ev : Evaluation V) : (recorded func_name ev).plots = ev.plots := by
  unfold recorded
  split <;> rfl

theorem evaluate_call_eq (func_name : Str) (string_args : Json) (sc : Scope V) :
    evaluate_call R func_name string_args sc = (call_object func_name).bind fun c =>
      (call_args R sc string_args).map fun args => recorded func_name (R.evaluate c args sc) := by
  unfold evaluate_call recorded
  cases call_object func_name with
  | none => rfl
  | some c =>
    cases call_args R sc string_args with
    | none => rfl
    | some args =>
      show (match (R.evaluate c args sc).outcome with | .ok _ => _ | .error _ => _) = _
      rw [Option.bind_some, Option.map_some]
      split <;> rfl

/-- All that a call has evaluated is a call of `c`; nothing is evaluated without one. -/
structure Invokes (call : VrpcCall) (c : Option Callee) : Prop where
  object : call_object call.func_name = c
  evaluated : ∀ sc, evaluate_call R call.func_name call.string_args sc = c.bind fun c =>
    (call_args R sc call.string_args).map fun args => recorded call.func_name (R.evaluate c args sc)

theorem invokes_iff {call : VrpcCall} {c : Option Callee} : Invokes R call c ↔ call_object call.func_name = c := by
  refine ⟨Invokes.object, fun h => ⟨h, fun sc => ?_⟩⟩
  rw [← h, evaluate_call_eq]

def IsErrorReply (p : Packet) : Prop := ∃ t j e, p = .publish t (.object j) false ∧ Json.find (lit "e") j = some e

/-- The fork calls what the name names; to a name that names nothing it has replied with an
error when it is done. -/
structure NameObeyed (f : Fork V) (sent : List Sent) : Prop where
  names : ∀ c, Reads f.call.func_name c → Invokes R f.call (some c)
  other : (∀ c, ¬ Reads f.call.func_name c) → Invokes R f.call none ∧
    (f.stage.terminated = true → ∃ q ∈ sent, IsErrorReply q.packet)

variable {host opts R}

theorem silent_of_no_object {s : System V} (h₀ : Fresh s) {evs : List Event} {k : Nat} {f : Fork V}
    (hf : (run (System.step host opts R) s evs).sessions.forks k = some f) (hobj : call_object f.call.func_name = none) :
    written (run (System.step host opts R) s evs).log (.fork k) = [] := by
  have hev : ∀ sc, evaluate_call R f.call.func_name f.call.string_args sc = none := by
    intro sc
    rw [evaluate_call_eq, hobj]
    rfl
  have hcomp := run_computed host opts R h₀ evs hf
  rw [(run_traced host opts R h₀ evs).fork k, hf]
  show f.stage.sent = []
  cases hst : f.stage with
  | replied sc ev out sent =>
    rw [hst, Computed, hev] at hcomp
    cases hcomp.1
  | _ => rfl

/-- **Function names** are obeyed exactly when they have one reading, and this not as a
package whose name ends in a colon. -/
theorem names_obeyed_iff (genv : Env V) (fs : FS V) (evs : List Event) {k : Nat} {f : Fork V}
    (hf : (run (System.step host opts R) (System.start host opts genv fs) evs).sessions.forks k = some f)
    (hdone : f.stage.terminated = true) :
    NameObeyed R f (written (run (System.step host opts R) (System.start host opts genv fs) evs).log (.fork k)) ↔
      ∃ c, Reads f.call.func_name c ∧ (∀ c', Reads f.call.func_name c' → c' = c) ∧
        ∀ p g, c = .colons p g → ¬ [58] <:+ p := by
  constructor
  · intro h
    by_cases hread : ∃ c, Reads f.call.func_name c
    · obtain ⟨c, hc⟩ := hread
      have hobj := (h.names c hc).object
      refine ⟨c, hc, fun c' hc' => ?_, fun p g hpg hend => ?_⟩
      · exact Option.some.inj ((h.names c' hc').object.symm.trans hobj)
      · subst hpg
        generalize f.call.func_name = n at hc hobj
        cases hc with
        | colons hp hg => exact call_object_of_colon hp hend hobj
    · obtain ⟨hinv, hreply⟩ := h.other (not_exists.mp hread)
      obtain ⟨q, hq, -⟩ := hreply hdone
      rw [silent_of_no_object (fresh_start host opts genv fs) hf hinv.object] at hq
      cases hq
  · intro h
    obtain ⟨c, hc, hone, hend⟩ := h
    refine ⟨fun c' hc' => ?_, fun hno => absurd hc (hno c)⟩
    rw [hone c' hc', invokes_iff]
    generalize f.call.func_name = n at hc
    cases hc with
    | name hn => exact call_object_name hn
    | colons hp hg => exact call_object_colons hp hg (hend _ _ rfl)

end

/-! ## Two names -/

def names_host (n : Str) : Host := small_host [(lit "t", [n, lit "v", lit "1"])]

def names_events (n : Str) : List Event :=
  .deliver 0 (small_request "__static__" "call" (lit "t") [n, lit "v", lit "1"]) (.ok ()) [] :: List.replicate 4 (.step 0)

abbrev after_name (n : Str) : System Str :=
  run (System.step (names_host n) small_options small_R)
    (System.start (names_host n) small_options (fun _ => none) (fun _ => none)) (names_events n)

theorem after_name_done {n : Str}
    (h : ((after_name n).sessions.forks 0).map (fun f => (f.call.func_name, f.stage.terminated)) = some (n, true)) :
    ∃ f, (after_name n).sessions.forks 0 = some f ∧ f.call.func_name = n ∧ f.stage.terminated = true := by
  obtain ⟨f, hf, hn⟩ := Option.map_eq_some_iff.mp h
  exact ⟨f, hf, (Prod.mk.inj hn).1, (Prod.mk.inj hn).2⟩

theorem assign_is_obeyed :
    ∃ f, f.call.func_name = lit "assign" ∧ (NameObeyed small_R f (written (after_name (lit "assign")).log (.fork 0)) ↔
      ∃ c, Reads f.call.func_name c ∧ (∀ c', Reads f.call.func_name c' → c' = c) ∧
        ∀ p g, c = .colons p g → ¬ [58] <:+ p) := by
  obtain ⟨f, hf, hn, hdone⟩ := after_name_done (n := lit "assign") (by decide +kernel)
  unfold after_name at hf ⊢
  exact ⟨f, hn, names_obeyed_iff (fun _ => none) (fun _ => none) (names_events (lit "assign")) hf hdone⟩

theorem plain_name {n m : Str} (h : Reads n (.name m)) : ¬ lit "::" <:+: n := by
  cases h with
  | name hn => exact hn.2

theorem separator_inside {n p g : Str} (h : Reads n (.colons p g)) :
    ∃ i, i + 2 < n.length ∧ (n.drop i).take 2 = lit "::" := by
  cases h with
  | colons hp hg =>
    have hpos : 0 < g.length := List.length_pos_of_ne_nil hg.1
    have hsep : (lit "::").length = 2 := rfl
    refine ⟨p.length, ?_, ?_⟩
    · simp only [List.length_append, hsep]
      omega
    · rw [List.drop_left, List.take_left' hsep]

/-- `assign` is called. -/
theorem empty_function_is_called :
    ¬ ∀ (n : Str) (f : Fork Str), (after_name n).sessions.forks 0 = some f → f.call.func_name = n →
      NameObeyed small_R f (written (after_name n).log (.fork 0)) := by
  intro h
  obtain ⟨f, hf, hn, -⟩ := after_name_done (n := lit "assign::") (by decide +kernel)
  have hother : ∀ c, ¬ Reads f.call.func_name c := by
    rw [hn]
    intro c hc
    cases c with
    | name n => exact plain_name hc ⟨lit "assign", [], rfl⟩
    | colons p g =>
      obtain ⟨i, hi, hsep⟩ := separator_inside hc
      have hnone : ∀ i < 6, ((lit "assign::").drop i).take 2 ≠ lit "::" := by decide
      exact hnone i (Nat.lt_of_add_lt_add_right (n := 2) hi) hsep
  have hobj := ((h (lit "assign::") f hf hn).other hother).1.object
  rw [hn] at hobj
  have hname : call_object (lit "assign::") = some (.name (lit "assign")) := by decide
  rw [hname] at hobj
  cases hobj

end VrpcAgent

import VrpcAgent.Callees
import VrpcAgent.Resolution
import VrpcAgent.Routing

/-!
# Registered functions

The R wrapper of `start_vrpc_agent` writes a package function as `package$function`,
and `json_call` looks for `package::function`. The name is a level of a topic in
between, where some names mean something else to the dispatcher. Behind `json_call`, the
name has to lead to the function of the agent, and the arguments have to be there.
-/

namespace VrpcAgent

open Function Effects Runs PartialMap

/-! ## The wrapper -/

/-- What `sapply` makes of one package. `paste0` takes no names at all for one
empty name. -/
def package_entries (x : Str) (lsf : List Str) : List Str :=
  if lsf = [] then [paste0 (paste0 x (lit "$")) []] else lsf.map (paste0 (paste0 x (lit "$")))

/-- The functions that the agent is started with; nothing when a package is not
attached. `lsf_global` and `lsf_package` are what `lsf.str` lists. -/
def all_functions (lsf_global : List Str) (lsf_package : Str → Option (List Str)) (functions packages : Option (List Str)) :
    Option (List Str) := do
  let tmp ← (packages.getD []).mapM fun x => (lsf_package x).map (package_entries x)
  return functions.getD lsf_global ++ tmp.flatten

inductive StandsFor (lsf_global : List Str) (lsf_package : Str → Option (List Str)) (functions packages : Option (List Str)) :
    Str → Callee → Prop
  | own {n : Str} (h : n ∈ functions.getD lsf_global) : StandsFor lsf_global lsf_package functions packages n (.name n)
  | packaged {p f : Str} {l : List Str} (hp : p ∈ packages.getD []) (hl : lsf_package p = some l) (hf : f ∈ l) :
    StandsFor lsf_global lsf_package functions packages (p ++ lit "$" ++ f) (.colons p f)

section
variable {lsf_global : List Str} {lsf_package : Str → Option (List Str)} {functions packages : Option (List Str)}

theorem mem_mapM {α β : Type} {f : α → Option β} : ∀ {l : List α} {l' : List β} {a : α} {b : β},
    l.mapM f = some l' → a ∈ l → f a = some b → b ∈ l'
  | x :: l, l', a, b, h, ha, hb => by
    rw [List.mapM_cons] at h
    obtain ⟨y, hy, h⟩ := Option.bind_eq_some_iff.mp h
    obtain ⟨ys, hys, h⟩ := Option.bind_eq_some_iff.mp h
    obtain rfl : y :: ys = l' := Option.some.inj h
    rcases List.mem_cons.mp ha with rfl | ha
    · rw [hy] at hb
      rw [Option.some.inj hb]
      exact List.mem_cons_self
    · exact List.mem_cons_of_mem y (mem_mapM hys ha hb)

theorem standsFor_mem {fs : List Str} (h : all_functions lsf_global lsf_package functions packages = some fs)
    {n : Str} {c : Callee}
    (hr : StandsFor lsf_global lsf_package functions packages n c) : n ∈ fs := by
  obtain ⟨tmp, htmp, h⟩ := Option.bind_eq_some_iff.mp h
  obtain rfl : functions.getD lsf_global ++ tmp.flatten = fs := Option.some.inj h
  cases hr with
  | own hn => exact List.mem_append_left _ hn
  | @packaged p f l hp hl hf =>
    apply List.mem_append_right
    have hmem : package_entries p l ∈ tmp := mem_mapM htmp hp (by rw [hl]; rfl)
    refine List.mem_flatten.mpr ⟨_, hmem, ?_⟩
    rw [package_entries, if_neg (List.ne_nil_of_mem hf)]
    exact List.mem_map.mpr ⟨f, hf, rfl⟩

end

/-! ## Calls on a name -/

section
variable {V : Type} (host : Host) (opts : Options) (R : RLib V)

def target (inst : Option Str) : Str := inst.getD (lit "__static__")

/-- The message makes `json_call` build a call of `c`, in the session of `inst`. -/
def CallsFunction (m : Msg) (a : Agent) (inst : Option Str) (c : Callee) : Prop :=
  ∃ call, (after (handled host opts (.ok ()) m a)).call = some call ∧ call.instance_id = inst ∧
    call_object call.func_name = some c

structure WellFormed (m : Msg) (b : List (Str × Json)) : Prop where
  parse : host.parse m.contents = some (.object b)
  args : (Json.member (lit "a") b).dump_error = none

def Leads (is_function : V → Bool) (genv : Env V) (c : Callee) (sc : Scope V) : Prop :=
  match c with
  | .name n => ∃ v, genv n = some v ∧ is_function v = true ∧ find_function is_function (sc.enclosures R) n = some v
  | .colons _ _ => True

/-- Fork `k` attaches a session in which the name leads to the function of the agent, and
what it evaluates there is a call of `c` with its arguments. -/
def Builds (is_function : V → Bool) (genv : Env V) (k : Nat) (c : Callee) (s : System V) (e : Event) : Prop :=
  e = .step k → ∀ f, s.sessions.forks k = some f →
    match f.stage with
    | .forked => ∃ sc, (json_call_step host R s.sessions.fs f).2 = .attached sc ∧ Leads R is_function genv c sc
    | .attached sc => ∃ args, call_args R sc f.call.string_args = some args ∧
        (json_call_step host R s.sessions.fs f).2 = .evaluated sc (recorded f.call.func_name (R.evaluate c args sc))
    | _ => True

/-- A call on the name `n` arrives and is handed over as a call of `c`, whatever its arguments;
and request `k` is one that `json_call` builds a call of `c` for. -/
structure Callable (is_function : V → Bool) (genv : Env V) (s : System V) (inst : Option Str) (n : Str) (c : Callee) (k : Nat)
    (request : Event) (evs : List Event) : Prop where
  delivered : Delivered s.broker (call_topic opts (target inst) n)
  calls : ∀ m b, m.topic = call_topic opts (target inst) n → WellFormed host m b → CallsFunction host opts m s.agent inst c
  started : (s.step host opts R request).sessions.forks k ≠ none
  builds : Along (System.step host opts R) (Builds host R is_function genv k c) (s.step host opts R request) evs

/-- The agent has a function `n`, the session of fork `k` can be attached, and neither the
session nor base R nor the adapter has another function under that name that is found first;
every reference in the arguments has a value. -/
def Ready (is_function : V → Bool) (genv : Env V) (k : Nat) (n : Str) (s : System V) (e : Event) : Prop :=
  e = .step k → ∀ f, s.sessions.forks k = some f →
    match f.stage with
    | .forked => ∃ v, genv n = some v ∧ is_function v = true ∧ ∃ cwd, walk s.sessions.fs [] f.session_dir = some cwd ∧
        match f.call.instance_id with
        | none => ∀ w, find_function is_function (inner R) n = some w → w = v
        | some _ => s.sessions.fs (cwd ++ [lit ".RData"]) = none ∨
            ∃ env, s.sessions.fs (cwd ++ [lit ".RData"]) = some (.rdata env) ∧
              ∀ w, env n = some w → w = v ∨ is_function w = false ∧ find_function is_function [R.search] n = some v
    | .attached sc => call_args R sc f.call.string_args ≠ none
    | _ => True

/-- The name goes through topics and through `json_call` unchanged. -/
structure Reachable (inst : Option Str) (n : Str) : Prop where
  levels : (tokenize opts.domain (lit "/")).length + (tokenize opts.agent (lit "/")).length = 2
  domain : 43 ∉ opts.domain ∧ 35 ∉ opts.domain
  agent : 43 ∉ opts.agent ∧ 35 ∉ opts.agent
  session : ∀ x, inst = some x → Plain x ∧ x ≠ lit "__static__"
  function : Plain n
  no_colons : ¬ lit "::" <:+: n
  not_call : n ≠ lit "call"
  not_static : inst = none → n ≠ lit "__createShared__" ∧ n ≠ lit "__delete__"

def empty_call : Str := lit "\x7b\"a\":[]\x7d"

variable {host opts} {inst : Option Str} {n : Str} {c : Callee} {a : Agent}

theorem args_eq (r : Request) : r.args = Json.member (lit "a") r.members := by
  rw [Request.args, Request.context, Json.member_put_of_ne (by decide), Json.member_put_of_ne (by decide)]

theorem empty_call_function {i f fn : Str} {args : Json} (h : action (.ok ()) i f (.array []) = .call fn args inst) :
    fn = f ∧ i = target inst ∧ f ≠ lit "call" ∧ (inst = none → f ≠ lit "__createShared__" ∧ f ≠ lit "__delete__") ∧
      inst ≠ some (lit "__static__") := by
  have hcall : ∀ {inst' : Option Str}, call_action (.ok ()) f (.array []) inst' = .call fn args inst →
      fn = f ∧ f ≠ lit "call" ∧ inst' = inst := by
    intro inst' h
    unfold call_action at h
    split at h
    · cases h
    · rename_i hf
      cases h
      exact ⟨rfl, hf, rfl⟩
  unfold action at h
  split at h
  · rename_i hi
    split at h
    · cases h
    · rename_i hcreate
      split at h
      · cases h
      · rename_i hdelete
        obtain ⟨rfl, hf, rfl⟩ := hcall h
        exact ⟨rfl, hi, hf, fun _ => ⟨hcreate, hdelete⟩, fun hc => by cases hc⟩
  · rename_i hi
    obtain ⟨rfl, hf, rfl⟩ := hcall h
    refine ⟨rfl, rfl, hf, (nofun), fun hc => hi (Option.some.inj hc)⟩

theorem text_ne_entry (p f : Str) : ¬ (Callee.colons p f).text <+: p ++ lit "$" ++ f := by
  intro h
  have hlen := h.length_le
  simp only [Callee.text, List.length_append] at hlen
  have h₁ : (lit "$").length = 1 := by decide
  have h₂ : (lit "::").length = 2 := by decide
  omega

section
variable {lsf_global : List Str} {lsf_package : Str → Option (List Str)} {functions packages : Option (List Str)}

theorem level_of_text (hr : StandsFor lsf_global lsf_package functions packages n c) (h : 47 ∉ c.text) (hne : c.text ≠ []) :
    tokenize n (lit "/") = [n] := by
  cases hr with
  | own => exact tokenize_single hne h
  | @packaged p f l hp hl hf =>
    apply tokenize_single (by simp [lit])
    intro hmem
    simp only [Callee.text, List.mem_append, not_or] at h
    simp only [List.mem_append] at hmem
    rcases hmem with (hp | hd) | hf
    · exact h.1.1 hp
    · exact absurd hd (by decide)
    · exact h.2 hf

theorem reachable_of_callable {V : Type} {s : System V}
    (hparse : host.parse empty_call = some (.object [(lit "a", .array [])]))
    (hr : StandsFor lsf_global lsf_package functions packages n c)
    (hdel : Delivered s.broker (call_topic opts (target inst) n))
    (hcalls : ∀ m b, m.topic = call_topic opts (target inst) n → WellFormed host m b →
      CallsFunction host opts m s.agent inst c) : c = .name n ∧ Reachable opts inst n := by
  obtain ⟨call, hcall, hid, hobj⟩ := hcalls ⟨call_topic opts (target inst) n, empty_call⟩ _ rfl ⟨hparse, rfl⟩
  obtain ⟨r, fn, args, inst', hreq, hact, rfl⟩ := call_of_handled host opts hcall
  obtain ⟨d, a, j, htok, hj, hm⟩ := request_some host hreq
  obtain rfl : inst' = inst := hid
  have hargs : r.args = .array [] := by
    rw [hparse] at hj
    obtain rfl := Option.some.inj hj
    rw [args_eq, ← Option.some.inj hm]; rfl
  rw [Request.action, hargs] at hact
  obtain ⟨rfl, hi, hnc, hns, hne⟩ := empty_call_function hact
  obtain ⟨hpre, hnil⟩ := call_object_text hobj
  -- the text of the callee has no slash, so the whole name is the last token
  have hfun : r.function ∈ tokenize (call_topic opts (target inst') n) (lit "/") := by
    rw [htok]; simp
  have hlevel := level_of_text hr (fun hmem => (single_of_token hfun).2 (hpre.subset hmem)) hnil
  have hn : r.function = n := by
    have hlast := congrArg List.getLast? htok
    rw [tokenize_call_topic, hlevel, ← List.cons_append, ← List.append_assoc, List.getLast?_concat] at hlast
    exact (Option.some.inj hlast).symm
  rw [hn] at hpre hobj hnc hns
  have hdec : Decodes opts (target inst') n := ⟨d, a, r.class_name, by rw [htok, hi, hn]⟩
  obtain ⟨hx, hx', hf, hf', hlen⟩ := decodes_iff.mp hdec
  obtain ⟨⟨hd, ha, hxp, hfp⟩, hd', ha', hxh, hfh⟩ := (topicName_call_topic_iff opts).mp hdel.name
  have hc : c = .name n := by
    cases hr with
    | own => rfl
    | packaged => exact absurd hpre (text_ne_entry _ _)
  subst hc
  refine ⟨rfl, hlen, ⟨hd, hd'⟩, ⟨ha, ha'⟩, fun x hinst => ?_, ⟨hf, hf', hfp, hfh⟩, (call_object_name_iff.mp hobj).2, hnc, hns⟩
  subst hinst
  exact ⟨⟨hx, hx', hxp, hxh⟩, fun heq => hne (congrArg some heq)⟩

end

theorem request_of_reachable (h : Reachable opts inst n) {m : Msg} (ht : m.topic = call_topic opts (target inst) n)
    {b : List (Str × Json)} (hm : WellFormed host m b) : ∃ r, request host m = some r ∧
      r.inst = target inst ∧ r.function = n ∧ r.members = b := by
  have hplain : Plain (target inst) := by
    cases inst with
    | none => exact plain_static
    | some x => exact (h.session x rfl).1
  obtain ⟨d, a, c, htok⟩ : Decodes opts (target inst) n :=
    decodes_iff.mpr ⟨hplain.nonempty, hplain.no_slash, h.function.nonempty, h.function.no_slash, h.levels⟩
  refine ⟨⟨c, target inst, n, b⟩, ?_, rfl, rfl, rfl⟩
  rw [request, ht, htok, hm.parse]
  rfl

theorem action_of_reachable (h : Reachable opts inst n) {args : Json} (hd : args.dump_error = none) :
    action (.ok ()) (target inst) n args = .call n args inst := by
  have hcall : ∀ inst', call_action (.ok ()) n args inst' = .call n args inst' := by
    intro inst'
    rw [call_action, if_neg h.not_call, start_action, hd]
  cases inst with
  | none =>
    obtain ⟨hcreate, hdelete⟩ := h.not_static rfl
    rw [action, target, Option.getD_none, if_pos rfl, if_neg hcreate, if_neg hdelete, hcall]
  | some x => rw [action, target, Option.getD_some, if_neg (h.session x rfl).2, hcall]

theorem calls_of_reachable (h : Reachable opts inst n) {m : Msg} (ht : m.topic = call_topic opts (target inst) n)
    {b : List (Str × Json)} (hm : WellFormed host m b) (a : Agent) : CallsFunction host opts m a inst (.name n) := by
  obtain ⟨r, hr, hi, hf, hb⟩ := request_of_reachable h ht hm
  have hact : r.action (.ok ()) = .call n r.args inst := by
    rw [Request.action, hi, hf]
    exact action_of_reachable h (by rw [args_eq, hb]; exact hm.args)
  refine ⟨_, by rw [handled_call host opts hr hact]; rfl, rfl, ?_⟩
  exact call_object_name_iff.mpr ⟨h.function.nonempty, h.no_colons⟩

/-! ## The fork of a call -/

section
variable {R} {is_function : V → Bool} {genv : Env V} {k : Nat}

theorem leads_attached_iff {fs : FS V} {cwd : Path} :
    (∃ sc, attach_session fs cwd inst genv = some sc ∧ Leads R is_function genv (.name n) sc) ↔
      ∃ v, genv n = some v ∧ is_function v = true ∧ match inst with
        | none => ∀ w, find_function is_function (inner R) n = some w → w = v
        | some _ => fs (cwd ++ [lit ".RData"]) = none ∨ ∃ env, fs (cwd ++ [lit ".RData"]) = some (.rdata env) ∧
            ∀ w, env n = some w → w = v ∨ is_function w = false ∧ find_function is_function [R.search] n = some v := by
  cases inst with
  | none =>
    have hsc : ∀ sc, attach_session fs cwd none genv = some sc ↔ ⟨some fun _ => none, genv⟩ = sc := fun sc => Option.some_inj
    simp only [hsc, exists_eq_left', Leads]
    refine exists_congr fun v => and_congr_right fun hv => and_congr_right fun hfun => ?_
    rw [find_function_static R hv hfun]
    cases find_function is_function (inner R) n with
    | none => simp
    | some w => simp
  | some x =>
    simp only [attach_session_some]
    cases hnode : fs (cwd ++ [lit ".RData"]) with
    | none =>
      simp only [load, Option.some_inj, exists_eq_left', Leads, true_or, and_true]
      refine exists_congr fun v => and_congr_right fun hv => ?_
      rw [and_iff_left_iff_imp]
      exact fun hfun => find_function_bound hv hfun [R.search]
    | some node =>
      cases node with
      | rdata env =>
        simp only [load, Option.some_inj, exists_eq_left', Leads, reduceCtorEq, false_or, Node.rdata.injEq]
        refine exists_congr fun v => and_congr_right fun hv => and_congr_right fun hfun => ?_
        show find_function is_function [overlay env genv, R.search] n = some v ↔ _
        cases hw : env n with
        | none =>
          rw [find_function_bound (by rw [overlay_of_none hw, hv]) hfun]
          exact iff_of_true rfl fun w hw' => by cases hw'
        | some w =>
          rw [find_function, overlay_of_some hw]
          cases hfw : is_function w with
          | true => simp [hfw, hfun]
          | false =>
            have hne : w ≠ v := fun heq => by rw [heq, hfun] at hfw; cases hfw
            simp [hfw, hne]
      | _ => simp [load]

def CallsName (genv : Env V) (k : Nat) (n : Str) (s : System V) : Prop :=
  ∃ f, s.sessions.forks k = some f ∧ call_object f.call.func_name = some (.name n) ∧ f.genv = genv

theorem callsName_step {s : System V} (h : CallsName genv k n s) (e : Event) : CallsName genv k n (s.step host opts R e) := by
  obtain ⟨f, hf, hobj, hg⟩ := h
  obtain ⟨st, hst⟩ := fork_next host R opts hf e
  exact ⟨_, hst, hobj, hg⟩

theorem attaches_iff {fs : FS V} {f : Fork V} (hst : f.stage = .forked) (sc : Scope V) :
    (json_call_step host R fs f).2 = .attached sc ↔ ∃ cwd, walk fs [] f.session_dir = some cwd ∧
      attach_session fs cwd f.call.instance_id f.genv = some sc := by
  simp only [json_call_step, hst]
  cases walk fs [] f.session_dir with
  | none => simp
  | some cwd => cases h : attach_session fs cwd f.call.instance_id f.genv <;> simp [h]

theorem builds_iff {s : System V} (h : CallsName genv k n s) (e : Event) :
    Builds host R is_function genv k (.name n) s e ↔ Ready R is_function genv k n s e := by
  obtain ⟨f, hf, hobj, hg⟩ := h
  refine forall_congr' fun he => forall_congr' fun f' => forall_congr' fun hf' => ?_
  obtain rfl : f = f' := Option.some.inj (hf.symm.trans hf')
  cases hst : f.stage with
  | forked =>
    simp only [attaches_iff hst, hg]
    have hleads := @leads_attached_iff V R f.call.instance_id n is_function genv s.sessions.fs
    constructor
    · intro h
      obtain ⟨sc, ⟨cwd, hw, ha⟩, hl⟩ := h
      obtain ⟨v, hv, hfun, hrest⟩ := hleads.mp ⟨sc, ha, hl⟩
      exact ⟨v, hv, hfun, cwd, hw, hrest⟩
    · intro h
      obtain ⟨v, hv, hfun, cwd, hw, hrest⟩ := h
      obtain ⟨sc, ha, hl⟩ := hleads.mpr ⟨v, hv, hfun, hrest⟩
      exact ⟨sc, ⟨cwd, hw, ha⟩, hl⟩
  | attached sc =>
    simp only [json_call_step, hst, evaluate_call_eq, hobj, Option.bind_some]
    cases call_args R sc f.call.string_args with
    | none => simp
    | some args => simp
  | _ => exact Iff.rfl

theorem along_builds_iff {s : System V} (h : CallsName genv k n s) {evs : List Event} :
    Along (System.step host opts R) (Builds host R is_function genv k (.name n)) s evs ↔
      Along (System.step host opts R) (Ready R is_function genv k n) s evs :=
  along_congr (fun _ e hs => callsName_step hs e) (fun _ e hs => builds_iff hs e) h

end

theorem started_of_call {s : System V} (hrun : s.running = true) {k : Nat} (hk : s.deliveries k = none)
    (hfork : s.sessions.forks k = none) {m : Msg} {mc : Except Str Unit} {tmp : Str} {call : VrpcCall}
    (hcall : (after (handled host opts mc m s.agent)).call = some call) :
    (s.step host opts R (.deliver k m mc tmp)).sessions.forks k =
      some ⟨call, session_components tmp call.instance_id, s.sessions.genv, .forked⟩ := by
  rw [step_deliver host opts R hrun hk, System.deliver]
  simp only [hcall]
  rw [start_forks hfork, if_pos rfl]
  rfl

theorem ok_of_call {mc : Except Str Unit} {m : Msg} {call : VrpcCall}
    (h : (after (handled host opts mc m a)).call = some call) :
    mc = .ok () := by
  obtain ⟨r, fn, args, inst', -, hact, -⟩ := call_of_handled host opts h
  cases mc with
  | ok u => rfl
  | error msg =>
    have hstart : ∀ fn' args' inst'', start_action (.error msg) fn' args' inst'' ≠ .call fn args inst' := by
      intro fn' args' inst'' h
      unfold start_action at h
      split at h <;> cases h
    simp only [Request.action, action, call_action, first_string] at hact
    split at hact
    · split at hact
      · split at hact <;> cases hact
      · split at hact
        · split at hact <;> cases hact
        · split at hact
          · split at hact
            · cases hact
            · exact absurd hact (hstart _ _ _)
          · exact absurd hact (hstart _ _ _)
    · split at hact
      · split at hact
        · cases hact
        · exact absurd hact (hstart _ _ _)
      · exact absurd hact (hstart _ _ _)

variable (host opts)

/-- **A registered function is callable** under its advertised name exactly when it is the
agent's own, its name goes through unchanged, and the fork finds what it needs on its way. -/
theorem registered_callable_iff (hparse : host.parse empty_call = some (.object [(lit "a", .array [])]))
    {lsf_global : List Str} {lsf_package : Str → Option (List Str)} {functions packages : Option (List Str)}
    (hopts : all_functions lsf_global lsf_package functions packages = some opts.functions) (is_function : V → Bool)
    (genv : Env V) (fs : FS V) {evs : List Event}
    (hrun : (run (System.step host opts R) (System.start host opts genv fs) evs).running = true)
    (hr : StandsFor lsf_global lsf_package functions packages n c)
    (hlive : ∀ x, inst = some x →
      (run (System.step host opts R) (System.start host opts genv fs) evs).broker.held (instance_filter opts x) = true)
    {k : Nat} (hk : (run (System.step host opts R) (System.start host opts genv fs) evs).deliveries k = none) {m : Msg}
    (ht : m.topic = call_topic opts (target inst) n) {b : List (Str × Json)} (hm : WellFormed host m b) (mc : Except Str Unit)
    (tmp : Str) (evs' : List Event) :
    Callable host opts R is_function genv (run (System.step host opts R) (System.start host opts genv fs) evs) inst n c k
        (.deliver k m mc tmp) evs' ↔
      c = .name n ∧ Reachable opts inst n ∧ mc = .ok () ∧
        Along (System.step host opts R) (Ready R is_function genv k n)
          ((run (System.step host opts R) (System.start host opts genv fs) evs).step host opts R
            (.deliver k m mc tmp)) evs' := by
  have htr := run_traced host opts R (fresh_start host opts genv fs) evs
  have hg : (run (System.step host opts R) (System.start host opts genv fs) evs).sessions.genv = genv :=
    run_system_genv host R opts _ _
  have hfork := (htr.idle k hk).1
  -- once the name goes through, the fork has a call of it
  have hname : Reachable opts inst n → mc = .ok () → CallsName genv k n
      ((run (System.step host opts R) (System.start host opts genv fs) evs).step host opts R (.deliver k m mc tmp)) := by
    intro h hmc
    subst hmc
    obtain ⟨call, hcall, -, hobj⟩ := calls_of_reachable h ht hm
      (run (System.step host opts R) (System.start host opts genv fs) evs).agent
    exact ⟨_, started_of_call R hrun hk hfork hcall, hobj, hg⟩
  constructor
  · intro h
    obtain ⟨rfl, hreach⟩ := reachable_of_callable hparse hr h.delivered h.calls
    have hmc : mc = .ok () := by
      cases hcall : (after (handled host opts mc m
          (run (System.step host opts R) (System.start host opts genv fs) evs).agent)).call with
      | some call => exact ok_of_call hcall
      | none =>
        refine absurd ?_ h.started
        rw [step_deliver host opts R hrun hk, System.deliver]
        simp only [hcall]
        exact hfork
    exact ⟨rfl, hreach, hmc, (along_builds_iff (hname hreach hmc)).mp h.builds⟩
  · intro h
    obtain ⟨rfl, hreach, hmc, hready⟩ := h
    have hfork' := hname hreach hmc
    refine ⟨?_, fun m b ht hm => calls_of_reachable hreach ht hm _, ?_, ?_⟩
    · cases inst with
      | none =>
        have hstart := running_before host opts R hrun
        exact delivered_static hreach.domain hreach.agent hreach.function
          (run_static_held host opts R hreach.function (standsFor_mem hopts hr) hstart)
      | some x => exact delivered_member hreach.domain hreach.agent (hreach.session x rfl).1 hreach.function (hlive x rfl)
    · obtain ⟨f, hf, -⟩ := hfork'
      rw [hf]
      exact Option.some_ne_none f
    · exact (along_builds_iff hfork').mpr hready

end

/-! ## Two registrations -/

def call_host : Host :=
  { small_host [(lit "t", [lit "v", lit "1"])] with
    parse := fun text => if text = empty_call then some (.object [(lit "a", .array [])])
      else (small_host [(lit "t", [lit "v", lit "1"])]).parse text }

theorem call_host_parse : call_host.parse empty_call = some (.object [(lit "a", .array [])]) := by
  simp only [call_host, if_true]

def assign_options : Options := { small_options with functions := [lit "assign"] }

def call_assign : Msg := small_request "__static__" "assign" (lit "t") [lit "v", lit "1"]

abbrev assign_start : System Str := System.start call_host assign_options (own_function (lit "assign")) (fun _ => none)

theorem assign_wellFormed :
    WellFormed call_host call_assign [(lit "a", strings [lit "v", lit "1"]), (lit "s", .string (lit "t"))] := by
  have hne : call_assign.contents ≠ empty_call := by decide +kernel
  refine ⟨?_, by decide +kernel⟩
  simp only [call_host, if_neg hne]
  rfl

def finds_own (s : System Str) : Bool :=
  (s.sessions.forks 0).all fun f => match f.stage with
    | .forked => (walk s.sessions.fs [] f.session_dir).isSome && f.call.instance_id.isNone
    | .attached sc => (call_args small_R sc f.call.string_args).isSome
    | _ => true

theorem ready_of_finds_own {s : System Str} (h : finds_own s = true) (e : Event) :
    Ready small_R (fun _ => true) (own_function (lit "assign")) 0 (lit "assign") s e := by
  intro _ f hf
  rw [finds_own, hf, Option.all_some] at h
  cases hst : f.stage with
  | forked =>
    rw [hst, Bool.and_eq_true, Option.isSome_iff_exists, Option.isNone_iff_eq_none] at h
    obtain ⟨⟨cwd, hw⟩, hid⟩ := h
    refine ⟨lit "own", update_self .., rfl, cwd, hw, ?_⟩
    rw [hid]
    intro w hw
    cases hw
  | attached sc =>
    rw [hst] at h
    exact Option.isSome_iff_ne_none.mp h
  | _ => trivial

theorem own_function_is_callable :
    Callable call_host assign_options small_R (fun _ => true) (own_function (lit "assign"))
      (run (System.step call_host assign_options small_R) assign_start []) none (lit "assign") (.name (lit "assign")) 0
      (.deliver 0 call_assign (.ok ()) []) (List.replicate 4 (.step 0)) := by
  have hopts : all_functions [lit "assign"] (fun _ => none) none none = some assign_options.functions := by decide
  have hready : Along (System.step call_host assign_options small_R) (fun s _ => finds_own s = true)
      (assign_start.step call_host assign_options small_R (.deliver 0 call_assign (.ok ()) []))
        (List.replicate 4 (.step 0)) := by
    decide +kernel
  apply (registered_callable_iff call_host assign_options small_R call_host_parse hopts (fun _ => true)
    (own_function (lit "assign")) (fun _ => none) (by decide +kernel) (.own (by decide)) (fun x hx => by cases hx) rfl
    (by decide) assign_wellFormed (.ok ()) [] (List.replicate 4 (.step 0))).mpr
  refine ⟨rfl, ⟨by decide +kernel, by decide, by decide, nofun, ⟨by decide, by decide, by decide, by decide⟩, by decide,
    by decide, fun _ => ⟨by decide, by decide⟩⟩, rfl, hready.mono fun s e hs => ready_of_finds_own hs e⟩

def median_options : Options := { small_options with functions := [lit "stats$median"] }

def lsf_stats (x : Str) : Option (List Str) := if x = lit "stats" then some [lit "median"] else none

theorem package_function_is_not_callable :
    all_functions [] lsf_stats none (some [lit "stats"]) = some median_options.functions ∧
      ¬ ∀ n c, StandsFor [] lsf_stats none (some [lit "stats"]) n c →
        Callable call_host median_options small_R (fun _ => true) (fun _ => none)
          (System.start call_host median_options (fun _ => none) (fun _ => none)) none n c 0
          (.deliver 0 ⟨call_topic median_options (lit "__static__") n, empty_call⟩ (.ok ()) [])
            (List.replicate 4 (.step 0)) := by
  refine ⟨by decide, fun h => ?_⟩
  have hr : StandsFor [] lsf_stats none (some [lit "stats"]) (lit "stats" ++ lit "$" ++ lit "median")
      (.colons (lit "stats") (lit "median")) :=
    .packaged (show lit "stats" ∈ (some [lit "stats"]).getD [] by decide)
      (show lsf_stats (lit "stats") = some [lit "median"] by decide) List.mem_cons_self
  have hcall := h _ _ hr
  have hc := (reachable_of_callable call_host_parse hr hcall.delivered hcall.calls).1
  cases hc

end VrpcAgent

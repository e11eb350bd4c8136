import VrpcAgent.Replies
import VrpcAgent.Files

/-!
# One reply for each request

A handler that returns has either handed its call to R and written nothing, or
written exactly one reply. A fork writes exactly one reply or none: it ends
silently when a step of it fails outside the evaluation, and `Proceeds` says
when that does not happen.
-/

namespace VrpcAgent

open Function Effects Runs

def is_reply (t : Str) : Packet → Bool
  | .publish s _ false => s == t
  | _ => false

def replies (t : Str) (l : List Sent) : Nat := l.countP fun x => is_reply t x.packet

theorem replies_concat (t : Str) (l : List Sent) (id : Nat) (p : Packet) :
    replies t (l ++ [⟨id, p⟩]) = replies t l + if is_reply t p then 1 else 0 := by
  simp [replies, List.countP_append, List.countP_cons]

section
variable (host : Host) (opts : Options)

/-! ## The handler -/

theorem reply_packet_is_reply {t : Str} {m : List (Str × Json)} (ht : Json.member (lit "s") m = .string t)
    {p : Packet} (hp : reply_packet m = .ok p) : is_reply t p = true := by
  obtain ⟨t', ht', rfl⟩ := reply_packet_eq hp
  rw [ht] at ht'; cases ht'
  exact beq_self_eq_true t

theorem class_info_packet_is_reply (t : Str) {l : List Str} {p : Packet} (hp : class_info_packet opts l = .ok p) :
    is_reply t p = false := by
  unfold class_info_packet dumped at hp
  split at hp <;> cases hp
  rfl

theorem replies_report_error {t : Str} {s : Frame} {m : List (Str × Json)} (hj : s.j = .object m)
    (ht : Json.member (lit "s") m = .string t) {e : Exn}
    (h : returns ((report_error host e).run s) = true) :
    replies t (after ((report_error host e).run s)).out = replies t s.out + 1 := by
  rw [run_report_error host (by rw [hj]; rfl)] at h ⊢
  cases hw : (write host (reply_write s.agent.instances (Json.put (lit "e") (.string (error_text e)) m))).run s with
  | error e' s' => rw [hw] at h; cases h
  | ok u s' =>
    obtain ⟨p, id, pids, hp, -, -, rfl⟩ := write_ok host hw
    rw [after_ok, replies_concat, reply_packet_is_reply (t := t) _ hp, if_pos rfl]
    rw [Json.member_touch, Json.member_put_of_ne (by decide), ht]

theorem replies_served {t : Str} {last : Write} (hlast : ∀ p, last.packet = .ok p → is_reply t p = true) :
    ∀ {init : List Write} {s : Frame}, (∀ w ∈ init, ∀ p, w.packet = .ok p → is_reply t p = false) →
      (∀ w ∈ init ++ [last], Json.member (lit "s") w.members = .string t) →
      returns (served host s (init ++ [last])) = true →
      replies t (after (served host s (init ++ [last]))).out = replies t s.out + 1
  | [], s, _, hs, hret => by
    have ht := hs last (by simp)
    simp only [served, List.nil_append, run_each_singleton] at hret ⊢
    cases hw : (write host last).run s with
    | ok u s' =>
      obtain ⟨p, id, pids, hp, -, -, rfl⟩ := write_ok host hw
      rw [orElse_ok, after_ok, replies_concat, hlast p hp, if_pos rfl]
    | error e s' =>
      rw [hw, orElse_error] at hret
      obtain ⟨pids, rfl, -⟩ := write_error host hw
      rw [orElse_error, replies_report_error host rfl ht hret]
  | w :: init, s, hinit, hs, hret => by
    have ht := hs w (by simp)
    simp only [served, List.cons_append, run_each_cons] at hret ⊢
    cases hw : (write host w).run s with
    | ok u s' =>
      rw [hw, andThen_ok] at hret
      rw [andThen_ok]
      have ih := replies_served (s := s') hlast (fun w' hw' => hinit w' (List.mem_cons_of_mem _ hw'))
        (fun w' hw' => hs w' (List.mem_cons_of_mem _ hw')) hret
      obtain ⟨p, id, pids, hp, -, -, rfl⟩ := write_ok host hw
      simp only [replies_concat, hinit w List.mem_cons_self p hp] at ih
      exact ih
    | error e s' =>
      rw [hw, andThen_error, orElse_error] at hret
      obtain ⟨pids, rfl, -⟩ := write_error host hw
      rw [andThen_error, orElse_error, replies_report_error host rfl ht hret]

theorem writes_split {l : List Str} {m : List (Str × Json)} {t : Str} (ht : Json.member (lit "s") m = .string t)
    {a : Action} (ha : a.is_call = false) :
    ∃ init last, writes opts l m a = init ++ [last] ∧ (∀ p, last.packet = .ok p → is_reply t p = true) ∧
      (∀ w ∈ init, ∀ p, w.packet = .ok p → is_reply t p = false) ∧
      ∀ w ∈ init ++ [last], Json.member (lit "s") w.members = .string t := by
  have hput : ∀ v, Json.member (lit "s") (Json.put (lit "r") v m) = .string t := fun v => by
    rw [Json.member_put_of_ne (by decide), ht]
  have hreply : ∀ l' v p, (reply_write l' (Json.put (lit "r") v m)).packet = .ok p → is_reply t p = true :=
    fun l' v p hp => reply_packet_is_reply (by rw [Json.member_touch, hput v]) hp
  cases a with
  | call => cases ha
  | create x =>
    refine ⟨[_, _], _, rfl, hreply _ _, ?_, ?_⟩
    · simp only [List.mem_cons, List.not_mem_nil, or_false]
      intro w hw p hp
      rcases hw with rfl | rfl
      · cases hp; rfl
      · exact class_info_packet_is_reply opts t hp
    · simp [reply_write, ht, hput]
  | delete x =>
    by_cases hx : x ∈ l
    · refine ⟨[_, _], _, by rw [writes, if_pos hx]; rfl, hreply _ _, ?_, ?_⟩
      · simp only [List.mem_cons, List.not_mem_nil, or_false]
        intro w hw p hp
        rcases hw with rfl | rfl
        · cases hp; rfl
        · exact class_info_packet_is_reply opts t hp
      · simp [reply_write, ht, hput]
    · refine ⟨[_], _, by rw [writes, if_neg hx]; rfl, hreply _ _, ?_, ?_⟩
      · simp only [List.mem_cons, List.not_mem_nil, or_false]
        intro w hw p hp
        subst hw
        cases hp; rfl
      · simp [reply_write, ht, hput]
  | invalid e => exact ⟨[], _, rfl, fun _ hp => (by cases hp), by simp, by simp [ht]⟩

theorem handled_replies (mc : Except Str Unit) {m : Msg} {r : Request} (hr : request host m = some r) {t : Str}
    (ht : Json.member (lit "s") r.members = .string t) (a : Agent)
    (h : returns (handled host opts mc m a) = true) :
    replies t (after (handled host opts mc m a)).out =
      if (after (handled host opts mc m a)).call.isSome then 0 else 1 := by
  cases ha : r.action mc with
  | call fn args inst => rw [handled_call host opts hr ha]; rfl
  | _ =>
    have hna : (r.action mc).is_call = false := by rw [ha]; rfl
    have hb : Json.member (lit "s") r.body = .string t := by
      rw [Request.body, Json.member_touch, Json.member, find_context (by decide) (by decide)]; exact ht
    rw [handled_served host opts hr hna, returns_andThen_pure] at h
    rw [handled_served host opts hr hna, after_andThen_pure, (served_frame host rfl _).1]
    obtain ⟨init, last, hw, hlast, hinit, hs⟩ := writes_split opts (l := a.instances) hb hna
    rw [hw] at h ⊢
    rw [replies_served host hlast hinit hs h]; rfl

end

/-! ## The fork -/

section
variable {V : Type} (host : Host) (opts : Options) (R : RLib V)

/-- The next step of a fork does not fail outside the evaluation: the session
directory is there and `.RData` can be loaded; the function name makes a call
and every reference has a value; no session file is a directory; the output can
be read back and turned into text, and the reply can be sent. -/
def Proceeds (fs : FS V) (f : Fork V) : Prop :=
  match f.stage with
  | .forked => ∃ cwd, walk fs [] f.session_dir = some cwd ∧
      (f.call.instance_id.isSome →
        fs (cwd ++ [lit ".RData"]) = none ∨ ∃ env, fs (cwd ++ [lit ".RData"]) = some (.rdata env))
  | .attached sc => call_object f.call.func_name ≠ none ∧ call_args R sc f.call.string_args ≠ none
  | .evaluated _ _ => ∃ cwd, walk fs [] f.session_dir = some cwd ∧
      (f.call.instance_id.isSome → ∀ n ∈ session_files, Node.isDir (fs (cwd ++ [n])) = false)
  | .saved _ ev => ∃ out m, call_output R f.call.func_name ev = some out ∧
      f.call.memory.awaited_callbacks f.call.call_id = some (.object m) ∧
      Repliable host f.call.memory.pids (Json.touch (lit "s") (reply_members host out m))
  | _ => True

theorem attach_session_eq_none {fs : FS V} {cwd : Path} {id : Option Str} (genv : Env V) :
    attach_session fs cwd id genv ≠ none ↔
      (id.isSome → fs (cwd ++ [lit ".RData"]) = none ∨ ∃ env, fs (cwd ++ [lit ".RData"]) = some (.rdata env)) := by
  unfold attach_session
  cases id with
  | none => simp
  | some x =>
    cases fs (cwd ++ [lit ".RData"]) with
    | none => simp
    | some n => cases n <;> simp

theorem evaluate_call_ne_none {func_name : Str} {string_args : Json} {sc : Scope V} :
    evaluate_call R func_name string_args sc ≠ none ↔
      call_object func_name ≠ none ∧ call_args R sc string_args ≠ none := by
  unfold evaluate_call
  cases call_object func_name with
  | none => simp
  | some callee =>
    cases call_args R sc string_args with
    | none => simp
    | some args =>
      simp only [Option.bind_eq_bind, Option.bind_some, ne_eq, reduceCtorEq, not_false_eq_true, and_self, iff_true]
      cases (R.evaluate callee args sc).outcome <;> simp

theorem returns_fork_reply_iff {call : VrpcCall} {m : List (Str × Json)}
    (hm : call.memory.awaited_callbacks call.call_id = some (.object m)) (out : Str) :
    returns (fork_reply host call out) = true ↔
      Repliable host call.memory.pids (Json.touch (lit "s") (reply_members host out m)) := by
  rw [fork_reply_eq host hm, returns_write_iff, repliable_iff]; rfl

/-- Where the condition fails, and only there, the fork ends. -/
theorem json_call_step_dead_iff {fs : FS V} {f : Fork V} (hd : f.stage ≠ .dead) {m : List (Str × Json)}
    (hm : f.call.memory.awaited_callbacks f.call.call_id = some (.object m)) :
    (json_call_step host R fs f).2 = .dead ↔ ¬ Proceeds host R fs f := by
  unfold json_call_step Proceeds
  cases hs : f.stage with
  | forked =>
    cases hw : walk fs [] f.session_dir with
    | none => simp
    | some cwd =>
      simp only [Option.some.injEq, exists_eq_left', ← attach_session_eq_none f.genv]
      cases attach_session fs cwd f.call.instance_id f.genv <;> simp
  | attached sc =>
    simp only [← evaluate_call_ne_none]
    cases evaluate_call R f.call.func_name f.call.string_args sc <;> simp
  | evaluated sc ev =>
    cases hw : walk fs [] f.session_dir with
    | none => simp
    | some cwd =>
      simp only [Option.some.injEq, exists_eq_left', ← save_session_ok_iff ev.scope]
      cases save_session fs cwd f.call.instance_id ev.scope with
      | mk fs' b => cases b <;> simp
  | saved sc ev =>
    cases ho : call_output R f.call.func_name ev with
    | none => simp [ho]
    | some out =>
      have hr := returns_fork_reply_iff host hm out
      simp only [ho, hm, Option.some.injEq, Json.object.injEq, exists_eq_left', exists_and_left, ← hr]
      cases fork_reply host f.call out <;> simp
  | replied sc ev out sent => simp
  | dead => exact absurd hs hd

/-! ## Runs -/

def StepsProceed (k : Nat) (s : System V) (e : Event) : Prop :=
  ∀ f, e = .step k → s.sessions.forks k = some f → Proceeds host R s.sessions.fs f

theorem run_not_dead {k : Nat} {s : System V} (h₀ : Fresh s) {evs : List Event}
    (h : Along (System.step host opts R) (StepsProceed host R k) s evs) {f : Fork V}
    (hf : (run (System.step host opts R) s evs).sessions.forks k = some f) : f.stage ≠ .dead := by
  have hinv := run_inv (P := fun s => Traced host opts s ∧ ∀ f, s.sessions.forks k = some f → f.stage ≠ .dead)
    (fun s e hs he => ?_) ⟨h₀.traced host opts, fun f hf => by rw [h₀.forks k] at hf; cases hf⟩ h
  · exact hinv.2 f hf
  · refine ⟨traced_step host opts R hs.1 e, fun f' hf' => ?_⟩
    rcases hs.1.fork_step host opts R hf' with hold | ⟨m, mc, tmp, c, -, -, rfl⟩ | ⟨f, rfl, hf, rfl⟩
    · exact hs.2 f' hold
    · exact nofun
    · obtain ⟨r, haw⟩ := hs.1.fork_awaits host opts hf
      exact fun hdead => (json_call_step_dead_iff host R (hs.2 f hf) haw).mp hdead (he f rfl hf)

theorem along_proceeds_iff {k : Nat} {s : System V} (h₀ : Fresh s) {evs : List Event} :
    Along (System.step host opts R) (StepsProceed host R k) s evs ↔
      ∀ f, (run (System.step host opts R) s evs).sessions.forks k = some f → f.stage ≠ .dead := by
  refine ⟨fun h f hf => run_not_dead host opts R h₀ h hf, fun h => ?_⟩
  refine (along_of_run (I := Traced host opts) (P := fun s : System V => ∀ f, s.sessions.forks k = some f → f.stage ≠ .dead)
    (fun _ e ht => traced_step host opts R ht e) (fun s e ht hlive => ?_) (h₀.traced host opts) h).2
  have hnext : ∀ f, e = .step k → s.sessions.forks k = some f → (json_call_step host R s.sessions.fs f).2 ≠ .dead := by
    intro f he hf
    subst he
    refine hlive { f with stage := (json_call_step host R s.sessions.fs f).2 } ?_
    simp only [System.step, step_forks, if_pos, hf, Option.map_some]
  have hs : ∀ f, s.sessions.forks k = some f → f.stage ≠ .dead := by
    intro f hf hdead
    by_cases he : e = .step k
    · exact hnext f he hf (by rw [step_terminated host R _ (by rw [hdead]; rfl), hdead])
    · exact hlive f (fork_waits host R opts hf he) hdead
  refine ⟨hs, fun f he hf => ?_⟩
  obtain ⟨r, haw⟩ := ht.fork_awaits host opts hf
  by_contra hno
  exact hnext f he hf ((json_call_step_dead_iff host R (hs f hf) haw).mpr hno)

/-- **One reply for each request.** Once the handler has returned and the fork, if
there is one, has terminated without a failure outside the evaluation, one reply
to the request has been published. -/
theorem answered_once {s₀ : System V} (h₀ : Fresh s₀) {evs : List Event} {k : Nat}
    (hrun : Along (System.step host opts R) (StepsProceed host R k) s₀ evs) {d : Delivery}
    (hd : (run (System.step host opts R) s₀ evs).deliveries k = some d) (hret : d.returned = true)
    {domain agent class_name inst function t : Str} {ms : List (Str × Json)}
    (htopic : tokenize d.msg.topic (lit "/") = [domain, agent, class_name, inst, function])
    (hj : host.parse d.msg.contents = some (.object ms)) (hs : Json.find (lit "s") ms = some (.string t))
    (hterm : ∀ f, (run (System.step host opts R) s₀ evs).sessions.forks k = some f → f.stage.terminated = true) :
    replies t (written (run (System.step host opts R) s₀ evs).log (.handler k) ++
      written (run (System.step host opts R) s₀ evs).log (.fork k)) = 1 := by
  have ht := run_traced host opts R h₀ evs
  have hr : request host d.msg = some ⟨class_name, inst, function, ms⟩ := by
    rw [request, htopic, hj]; rfl
  have hms : Json.member (lit "s") ms = .string t := by rw [Json.member, hs]; rfl
  obtain ⟨mc, a, hreturned, hw, hc⟩ := ht.handler k d hd
  rw [replies, List.countP_append, hw, ht.fork k]
  have hh := handled_replies host opts mc hr hms a (by rw [← hreturned, hret])
  rw [replies, ← hc] at hh
  rw [hh]
  cases hf : (run (System.step host opts R) s₀ evs).sessions.forks k with
  | none => rfl
  | some f =>
    have hdead := run_not_dead host opts R h₀ hrun hf
    cases hst : f.stage with
    | replied sc ev out sent =>
      obtain ⟨fr, hfr, rfl⟩ := ht.replied k f sc ev out sent hf hst
      obtain ⟨d', r, mc', a', fn, args, inst', hd', hr', -, hcall⟩ := ht.fork_call host opts hf
      rw [hd] at hd'; cases hd'
      rw [hr] at hr'; cases hr'
      obtain ⟨id, t', ht', hout⟩ := fork_reply_out host (m := Request.context _) (by rw [hcall]; exact update_self ..) hfr
      rw [Json.member, find_context (by decide) (by decide), hs] at ht'
      cases ht'
      simp [hst, Stage.sent, hout, is_reply]
    | dead => exact absurd hst hdead
    | _ => have := hterm f hf; rw [hst] at this; cases this

def survives (k : Nat) (s : System V) : Event → Bool
  | .step k' => k' != k || (s.sessions.forks k).all fun f =>
      match (json_call_step host R s.sessions.fs f).2 with
      | .dead => false
      | _ => true
  | _ => true

theorem stepsProceed_of_survives {k : Nat} {s : System V} (ht : Traced host opts s) {e : Event}
    (h : survives host R k s e = true) : StepsProceed host R k s e := by
  intro f he hf
  subst he
  obtain ⟨r, haw⟩ := ht.fork_awaits host opts hf
  have hlive : (json_call_step host R s.sessions.fs f).2 ≠ .dead := by
    intro hd
    simp [survives, hf, hd] at h
  have hd : f.stage ≠ .dead := by
    intro hst
    rw [step_terminated host R _ (by rw [hst]; rfl)] at hlive
    exact hlive hst
  by_contra hno
  exact hlive ((json_call_step_dead_iff host R hd haw).mpr hno)

theorem along_stepsProceed {k : Nat} {s : System V} (h₀ : Fresh s) {evs : List Event}
    (h : Along (System.step host opts R) (fun s e => survives host R k s e = true) s evs) :
    Along (System.step host opts R) (StepsProceed host R k) s evs :=
  (along_inv (P := Traced host opts) (fun _ e ht _ => traced_step host opts R ht e) (h₀.traced host opts) h).mono
    fun _ _ hs =>
    stepsProceed_of_survives host opts R hs.1 hs.2

end

/-! ## An argument that is a reference -/

def answering_host : Host := small_host [(lit "t", [lit "v", lit "1"]), (lit "t", [lit "$v", lit "1"])]

def plain_argument : Msg := small_request "__static__" "assign" (lit "t") [lit "v", lit "1"]

def reference_argument : Msg := small_request "__static__" "assign" (lit "t") [lit "$v", lit "1"]

def one_call (m : Msg) : System Str :=
  run (System.step answering_host small_options small_R)
    (System.start answering_host small_options (fun _ => none) (fun _ => none))
    (.deliver 0 m (.ok ()) [] :: List.replicate 4 (.step 0))

theorem plain_argument_answered :
    replies (lit "t") (written (one_call plain_argument).log (.handler 0) ++
      written (one_call plain_argument).log (.fork 0)) = 1 := by
  have hd : ((one_call plain_argument).deliveries 0).map
      (fun d => (d.msg.topic, d.msg.contents, d.returned)) =
      some (lit "d/a/Session/__static__/assign", request_text (lit "t") [lit "v", lit "1"], true) := by decide +kernel
  obtain ⟨d, hd, heq⟩ := Option.map_eq_some_iff.mp hd
  obtain ⟨htopic, hcontents, hret⟩ : d.msg.topic = _ ∧ d.msg.contents = _ ∧ d.returned = true := by simpa using heq
  have hterm : ((one_call plain_argument).sessions.forks 0).all
      (·.stage.terminated) = true := by decide +kernel
  have htok : tokenize d.msg.topic (lit "/") = [lit "d", lit "a", lit "Session", lit "__static__", lit "assign"] := by
    rw [htopic]; decide +kernel
  have hj : answering_host.parse d.msg.contents =
      some (.object [(lit "a", strings [lit "v", lit "1"]), (lit "s", .string (lit "t"))]) := by
    rw [hcontents]; rfl
  exact answered_once answering_host small_options small_R (fresh_start answering_host small_options _ _)
    (along_stepsProceed answering_host small_options small_R (fresh_start answering_host small_options _ _)
      (by decide +kernel)) hd hret htok hj rfl fun f hf => by
        have := hterm
        rw [one_call, hf] at this
        simpa using this

/-- The argument refers to a name that nothing is bound to: the fork ends without
a reply. -/
theorem reference_not_answered :
    ((one_call reference_argument).deliveries 0).map (·.returned) = some true ∧
      ((one_call reference_argument).sessions.forks 0).map
        (·.stage.terminated) = some true ∧
      replies (lit "t") (written (one_call reference_argument).log (.handler 0) ++
        written (one_call reference_argument).log (.fork 0)) ≠ 1 := by
  decide +kernel

end VrpcAgent

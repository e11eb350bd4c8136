import VrpcAgent.Lockstep
import Mathlib.Data.List.Forall2

/-!
# The generic call

The function `call` with the arguments `[f, as...]` hands the same call to R as the
function `f` with the arguments `as`, from one of two other branches. The replies differ
in what they repeat of the request: its function and its arguments.
-/

namespace VrpcAgent

open Function Effects Runs

section
variable (f : Str) (as : List Json)

def MemberAlike (p p' : Str × Json) : Prop :=
  p.1 = p'.1 ∧ (p.2 = p'.2 ∨ p.1 = lit "f" ∧ p.2 = .string (lit "call") ∧ p'.2 = .string f ∨
    p.1 = lit "a" ∧ p.2 = .array (.string f :: as) ∧ p'.2 = .array as)

def MembersAlike (m m' : List (Str × Json)) : Prop := List.Forall₂ (MemberAlike f as) m m'

structure BodiesAlike (m m' : List (Str × Json)) : Prop where
  members : MembersAlike f as m m'
  args : Json.find (lit "a") m = some (.array (.string f :: as))
  args' : Json.find (lit "a") m' = some (.array as)
  function' : Json.find (lit "f") m' = some (.string f)

variable {f as} {m m' : List (Str × Json)}

theorem memberAlike_refl (p : Str × Json) : MemberAlike f as p p := ⟨rfl, .inl rfl⟩

theorem MembersAlike.put (h : MembersAlike f as m m') {k : Str} {v v' : Json} (hv : MemberAlike f as (k, v) (k, v')) :
    MembersAlike f as (Json.put k v m) (Json.put k v' m') := by
  induction h with
  | nil => exact .cons hv .nil
  | @cons p p' m m' hp hm ih =>
    obtain ⟨k₁, v₁⟩ := p
    obtain ⟨k₂, v₂⟩ := p'
    obtain rfl : k₁ = k₂ := hp.1
    unfold Json.put
    split
    · exact .cons hv hm
    · split
      · exact .cons hv (.cons hp hm)
      · exact .cons hp ih

theorem MembersAlike.find (h : MembersAlike f as m m') {k : Str} (hf : k ≠ lit "f") (ha : k ≠ lit "a") :
    Json.find k m = Json.find k m' := by
  induction h with
  | nil => rfl
  | @cons p p' m m' hp _ ih =>
    obtain ⟨k₁, v₁⟩ := p
    obtain ⟨k₂, v₂⟩ := p'
    obtain ⟨rfl, hv⟩ : k₁ = k₂ ∧ _ := hp
    simp only [Json.find, List.lookup_cons] at ih ⊢
    by_cases hk : k = k₁
    · subst hk
      rw [beq_self_eq_true]
      rcases hv with hv | ⟨hkf, -⟩ | ⟨hka, -⟩
      · exact congrArg some hv
      · exact absurd hkf hf
      · exact absurd hka ha
    · rw [beq_eq_false_iff_ne.mpr hk]
      exact ih

theorem BodiesAlike.put (h : BodiesAlike f as m m') {k : Str} (hf : k ≠ lit "f") (ha : k ≠ lit "a") (v : Json) :
    BodiesAlike f as (Json.put k v m) (Json.put k v m') where
  members := h.members.put (memberAlike_refl (k, v))
  args := by rw [Json.find_put_of_ne (Ne.symm ha)]; exact h.args
  args' := by rw [Json.find_put_of_ne (Ne.symm ha)]; exact h.args'
  function' := by rw [Json.find_put_of_ne (Ne.symm hf)]; exact h.function'

theorem BodiesAlike.touch (h : BodiesAlike f as m m') {k : Str} (hf : k ≠ lit "f") (ha : k ≠ lit "a") :
    BodiesAlike f as (Json.touch k m) (Json.touch k m') := by
  unfold Json.touch
  rw [h.members.find hf ha]
  split
  · exact h
  · exact h.put hf ha .null

/-! ## Dumps -/

theorem members_error_cons (k : Str) (v : Json) (m : List (Str × Json)) : Json.members_error ((k, v) :: m) = none ↔
    (Json.dump_escaped 0 0 0 k = none ∧ Json.dump_error v = none) ∧ Json.members_error m = none := by
  rw [Json.members_error, Option.or_eq_none_iff, Option.or_eq_none_iff]

theorem elems_error_cons (x : Json) (xs : List Json) :
    Json.dump_error (.array (x :: xs)) = none ↔ Json.dump_error x = none ∧ Json.dump_error (.array xs) = none := by
  rw [Json.dump_error, Json.elems_error, Option.or_eq_none_iff, Json.dump_error]

theorem dumps_of_find {k : Str} {v : Json} (h : Json.members_error m = none) (hk : Json.find k m = some v) :
    Json.dump_error v = none := by
  induction m with
  | nil => cases hk
  | cons p m ih =>
    obtain ⟨k', v'⟩ := p
    rw [members_error_cons] at h
    by_cases hkk : k = k'
    · subst hkk
      rw [Json.find, List.lookup_cons_self, Option.some_inj] at hk
      rw [← hk]
      exact h.1.2
    · rw [Json.find, List.lookup_cons, beq_eq_false_iff_ne.mpr hkk] at hk
      exact ih h.2 hk

theorem MembersAlike.dumps_iff (h : MembersAlike f as m m') (hf : Json.dump_error (.string f) = none)
    (has : Json.dump_error (.array as) = none) : Json.members_error m = none ↔ Json.members_error m' = none := by
  induction h with
  | nil => exact Iff.rfl
  | @cons p p' m m' hp _ ih =>
    obtain ⟨k₁, v₁⟩ := p
    obtain ⟨k₂, v₂⟩ := p'
    obtain ⟨rfl, hv⟩ : k₁ = k₂ ∧ _ := hp
    rw [members_error_cons, members_error_cons, ih]
    refine and_congr_left fun _ => and_congr_right fun _ => ?_
    rcases hv with rfl | ⟨-, h₁, h₂⟩ | ⟨-, h₁, h₂⟩
    · exact Iff.rfl
    · obtain rfl : v₁ = .string (lit "call") := h₁
      obtain rfl : v₂ = .string f := h₂
      exact iff_of_true (by decide) hf
    · obtain rfl : v₁ = .array (.string f :: as) := h₁
      obtain rfl : v₂ = .array as := h₂
      exact iff_of_true ((elems_error_cons _ as).mpr ⟨hf, has⟩) has

/-- What one of the two repeats of the request, the other repeats too. -/
theorem BodiesAlike.dumps_iff (h : BodiesAlike f as m m') :
    Json.dump_error (.object m) = none ↔ Json.dump_error (.object m') = none := by
  rw [Json.dump_error, Json.dump_error]
  constructor
  · intro hm
    obtain ⟨hf, has⟩ := (elems_error_cons _ as).mp (dumps_of_find hm h.args)
    exact (h.members.dumps_iff hf has).mp hm
  · intro hm
    exact (h.members.dumps_iff (dumps_of_find hm h.function') (dumps_of_find hm h.args')).mpr hm

/-! ## Requests -/

variable (f as) in
/-- The message `[f, as...]` to the function `call`, and the message `as` to `f`. -/
structure GenericFor (r r' : Request) : Prop where
  class_name : r.class_name = r'.class_name
  inst : r.inst = r'.inst
  function : r.function = lit "call"
  function' : r'.function = f
  not_call : f ≠ lit "call"
  not_reserved : r.inst = lit "__static__" → f ≠ lit "__createShared__" ∧ f ≠ lit "__delete__"
  members : MembersAlike f as r.members r'.members
  args : Json.find (lit "a") r.members = some (.array (.string f :: as))
  args' : Json.find (lit "a") r'.members = some (.array as)

/-- Nothing for a static call. -/
def Request.target (r : Request) : Option Str := if r.inst = lit "__static__" then none else some r.inst

variable {r r' : Request}

theorem args_of_find {v : Json} (h : Json.find (lit "a") r.members = some v) : r.args = v := by
  rw [Request.args, Json.member, find_context (by decide) (by decide), h]
  rfl

theorem GenericFor.contexts (h : GenericFor f as r r') : BodiesAlike f as r.context r'.context where
  members := by
    unfold Request.context
    rw [h.class_name, h.inst, h.function, h.function']
    exact (h.members.put (memberAlike_refl (lit "c", _))).put ⟨rfl, .inr (.inl ⟨rfl, rfl, rfl⟩)⟩
  args := by rw [find_context (by decide) (by decide)]; exact h.args
  args' := by rw [find_context (by decide) (by decide)]; exact h.args'
  function' := by rw [Request.context, Json.find_put_self, h.function']

theorem GenericFor.bodies (h : GenericFor f as r r') : BodiesAlike f as r.body r'.body := by
  have hc := h.contexts
  have ha : (Json.find (lit "a") r.context).isSome = true := by rw [hc.args]; rfl
  have ha' : (Json.find (lit "a") r'.context).isSome = true := by rw [hc.args']; rfl
  rw [Request.body, Request.body, Json.touch_eq ha, Json.touch_eq ha']
  exact hc

/-- The generic branches take the name from the first argument and copy the others. -/
theorem GenericFor.action (h : GenericFor f as r r') (mc : Except Str Unit) :
    r.action mc = start_action mc f (.array as) r.target := by
  have hcall : ∀ inst, call_action mc (lit "call") (.array (.string f :: as)) inst = start_action mc f (.array as) inst := by
    intro inst
    rw [call_action, if_pos rfl]
    rfl
  unfold Request.action VrpcAgent.action Request.target
  rw [args_of_find h.args, h.function]
  split
  · rw [if_neg (by decide), if_neg (by decide)]
    exact hcall none
  · exact hcall (some r.inst)

/-- The specific branches pass the arguments through. -/
theorem GenericFor.action' (h : GenericFor f as r r') (mc : Except Str Unit) :
    r'.action mc = start_action mc f (.array as) r.target := by
  unfold Request.action VrpcAgent.action Request.target
  rw [args_of_find h.args', h.function', ← h.inst]
  split
  · rename_i hs
    obtain ⟨hcreate, hdelete⟩ := h.not_reserved hs
    rw [if_neg hcreate, if_neg hdelete, call_action, if_neg h.not_call]
  · rw [call_action, if_neg h.not_call]

/-! ## Replies -/

variable (f as) in
def PacketsAlike (p p' : Packet) : Prop :=
  ∃ t m m', p = .publish t (.object m) false ∧ p' = .publish t (.object m') false ∧ MembersAlike f as m m'

variable (f as) in
/-- Both calls are replied to or none, unless the MQTT library refuses one of the replies. -/
inductive RepliesAlike (host : Host) : List Sent → List Sent → Prop
  | silent : RepliesAlike host [] []
  | both {id : Nat} {p p' : Packet} (h : PacketsAlike f as p p') : RepliesAlike host [⟨id, p⟩] [⟨id, p'⟩]
  | first {id : Nat} {p p' : Packet} (h : PacketsAlike f as p p') (hr : host.refuse p' ≠ none) :
    RepliesAlike host [⟨id, p⟩] []
  | second {id : Nat} {p p' : Packet} (h : PacketsAlike f as p p') (hr : host.refuse p ≠ none) :
    RepliesAlike host [] [⟨id, p'⟩]

variable (host : Host)

theorem reply_packets (h : BodiesAlike f as m m') :
    (∃ e e', reply_packet m = .error e ∧ reply_packet m' = .error e') ∨
      ∃ p p', reply_packet m = .ok p ∧ reply_packet m' = .ok p' ∧ PacketsAlike f as p p' := by
  have hs : Json.member (lit "s") m = Json.member (lit "s") m' := by
    rw [Json.member, Json.member, h.members.find (by decide) (by decide)]
  unfold reply_packet
  rw [hs]
  cases (Json.member (lit "s") m').get_string with
  | error e => exact .inl ⟨e, e, rfl, rfl⟩
  | ok t =>
    have hd := h.dumps_iff
    simp only [dumped]
    cases hm : Json.dump_error (.object m) with
    | none =>
      rw [hd.mp hm]
      exact .inr ⟨_, _, rfl, rfl, t, m, m', rfl, rfl, h.members⟩
    | some e =>
      cases hm' : Json.dump_error (.object m') with
      | none => rw [hd.mpr hm'] at hm; cases hm
      | some e' => exact .inl ⟨e, e', rfl, rfl⟩

theorem replies_alike (h : BodiesAlike f as m m') {s s' : Frame} (hpids : s.agent.pids = s'.agent.pids) (hout : s.out = [])
    (hout' : s'.out = []) (l l' : List Str) : RepliesAlike f as host (after ((write host (reply_write l m)).run s)).out
      (after ((write host (reply_write l' m')).run s')).out := by
  rw [run_write, run_write]
  simp only [reply_write]
  rcases reply_packets (h.touch (k := lit "s") (by decide) (by decide)) with ⟨e, e', he, he'⟩ | ⟨p, p', hp, hp', hpp⟩
  · rw [he, he']
    simp only [after_error, hout, hout']
    exact .silent
  · rw [hp, hp']
    simp only [run_send, hpids]
    cases s'.agent.pids.allocate with
    | none =>
      simp only [after_error, hout, hout']
      exact .silent
    | some x =>
      cases hr : host.refuse p with
      | none =>
        cases hr' : host.refuse p' with
        | none =>
          simp only [after_ok, hout, hout']
          exact .both hpp
        | some e' =>
          simp only [after_ok, after_error, hout, hout']
          exact .first hpp (by rw [hr']; exact Option.some_ne_none e')
      | some e =>
        cases hr' : host.refuse p' with
        | none =>
          simp only [after_ok, after_error, hout, hout']
          exact .second hpp (by rw [hr]; exact Option.some_ne_none e)
        | some e' =>
          simp only [after_error, hout, hout']
          exact .silent

/-! ## Forks -/

variable (f as) in
/-- The same call in every argument; the copies of the process differ in what the replies
repeat. -/
structure CallsAlike (c c' : VrpcCall) : Prop where
  func_name : c.func_name = f
  func_name' : c'.func_name = f
  string_args : c.string_args = .array as
  string_args' : c'.string_args = .array as
  call_id : c.call_id = c'.call_id
  instance_id : c.instance_id = c'.instance_id
  erased : c.erased = c'.erased
  bodies : ∃ m m', c.memory.awaited_callbacks c.call_id = some (.object m) ∧
    c'.memory.awaited_callbacks c'.call_id = some (.object m') ∧ BodiesAlike f as m m'

theorem CallsAlike.replies {c c' : VrpcCall} (h : CallsAlike f as c c') (out : Str) :
    RepliesAlike f as host (after (fork_reply host c out)).out (after (fork_reply host c' out)).out := by
  obtain ⟨m, m', hm, hm', hb⟩ := h.bodies
  rw [fork_reply_eq host hm, fork_reply_eq host hm']
  refine replies_alike host ?_ (congrArg Agent.pids h.erased) rfl rfl c.memory.instances c'.memory.instances
  unfold reply_members
  split
  · exact hb.put (by decide) (by decide) _
  · exact hb.put (by decide) (by decide) _

end

section
variable {V : Type} (f : Str) (as : List Json) (host : Host)

structure ForksAlike (g g' : Fork V) : Prop where
  call : CallsAlike f as g.call g'.call
  session_dir : g.session_dir = g'.session_dir
  genv : g.genv = g'.genv
  stage : StagesAlike (RepliesAlike f as host) g.stage g'.stage

variable {f as} (R : RLib V)

theorem CallsAlike.agree {c c' : VrpcCall} (h : CallsAlike f as c c') : CallsAgree host (RepliesAlike f as host) c c' where
  func_name := h.func_name.trans h.func_name'.symm
  string_args := h.string_args.trans h.string_args'.symm
  instance_id := h.instance_id
  awaits := by
    obtain ⟨m, -, hm, -⟩ := h.bodies
    exact ⟨m, hm⟩
  awaits' := by
    obtain ⟨-, m', -, hm', -⟩ := h.bodies
    exact ⟨m', hm'⟩
  replies := h.replies host

theorem forksAlike_step (fs : FS V) {g g' : Fork V} (h : ForksAlike f as host g g') :
    (json_call_step host R fs g).1 = (json_call_step host R fs g').1 ∧
      StagesAlike (RepliesAlike f as host) (json_call_step host R fs g).2 (json_call_step host R fs g').2 :=
  forksAgree_step R fs ⟨h.call.agree host, h.session_dir, h.genv, h.stage⟩

/-! ## Lockstep -/

variable (f as) in
structure SessionsAlike (k : Nat) (s s' : Sessions V) : Prop where
  genv : s.genv = s'.genv
  fs : s.fs = s'.fs
  others : ∀ k', k' ≠ k → s.forks k' = s'.forks k'
  fork : ∃ g g', s.forks k = some g ∧ s'.forks k = some g' ∧ ForksAlike f as host g g'

theorem sessionsAlike_step {k : Nat} {s s' : Sessions V} (e : SessionEvent) (h : SessionsAlike f as host k s s') :
    SessionsAlike f as host k (s.step host R e) (s'.step host R e) := by
  obtain ⟨hgenv, hfs, hothers, g, g', hg, hg', halike⟩ := h
  cases e with
  | call k' c tmp =>
    show SessionsAlike f as host k (s.call k' c tmp) (s'.call k' c tmp)
    unfold Sessions.call
    by_cases hk : k' = k
    · subst hk
      rw [hg, hg']
      exact ⟨hgenv, hfs, hothers, g, g', hg, hg', halike⟩
    · rw [hothers k' hk]
      cases s'.forks k' with
      | some x => exact ⟨hgenv, hfs, hothers, g, g', hg, hg', halike⟩
      | none =>
        refine ⟨hgenv, by simp only [hfs], fun k₁ hk₁ => ?_, g, g', ?_, ?_, halike⟩
        · simp only [update_apply, hgenv, hothers k₁ hk₁]
        · rw [← hg]; exact update_of_ne (Ne.symm hk) _ _
        · rw [← hg']; exact update_of_ne (Ne.symm hk) _ _
  | step k' =>
    by_cases hk : k' = k
    · subst hk
      obtain ⟨hfs', hstage⟩ := forksAlike_step host R s.fs halike
      rw [step_fork host R hg, step_fork host R hg', ← hfs]
      refine ⟨hgenv, hfs', fun k₁ hk₁ => ?_, _, _, update_self .., update_self .., ?_⟩
      · simp only [update_of_ne hk₁]
        exact hothers k₁ hk₁
      · exact ⟨halike.call, halike.session_dir, halike.genv, hstage⟩
    · cases hx : s.forks k' with
      | none =>
        have hx' : s'.forks k' = none := by rw [← hothers k' hk, hx]
        rw [step_no_fork host R hx, step_no_fork host R hx']
        exact ⟨hgenv, hfs, hothers, g, g', hg, hg', halike⟩
      | some x =>
        have hx' : s'.forks k' = some x := by rw [← hothers k' hk, hx]
        rw [step_fork host R hx, step_fork host R hx', ← hfs]
        refine ⟨hgenv, rfl, fun k₁ hk₁ => ?_, g, g', ?_, ?_, halike⟩
        · simp only [update_apply, hothers k₁ hk₁]
        · rw [← hg]; exact update_of_ne (Ne.symm hk) _ _
        · rw [← hg']; exact update_of_ne (Ne.symm hk) _ _

end

/-! ## Messages -/

section
variable {V : Type} {host : Host} {opts : Options} {R : RLib V} {f : Str} {as : List Json} {m m' : Msg} {r r' : Request}
  {mc : Except Str Unit}

theorem registered_alike (h : GenericFor f as r r') (a : Agent) :
    CallsAlike f as ⟨f, .array as, a.call_id + 1, r.target, r.register a⟩
      ⟨f, .array as, a.call_id + 1, r.target, r'.register a⟩ where
  func_name := rfl
  func_name' := rfl
  string_args := rfl
  string_args' := rfl
  call_id := rfl
  instance_id := rfl
  erased := by simp only [VrpcCall.erased, Request.register, update_idem]
  bodies := ⟨r.context, r'.context, update_self .., update_self .., h.contexts⟩

abbrev delivered (host : Host) (opts : Options) (R : RLib V) (s : System V) (k : Nat) (mc : Except Str Unit)
    (tmp : Str) (m : Msg) :
    System V := s.step host opts R (.deliver k m mc tmp)

theorem deliver_sessions (s : System V) (k : Nat) (m : Msg) (mc : Except Str Unit) (tmp : Str) :
    (s.deliver host opts k m mc tmp).sessions = s.sessions.start k tmp (after (handled host opts mc m s.agent)).call := rfl

def Starts (mc : Except Str Unit) (as : List Json) : Prop := (Json.array as).dump_error = none ∧ mc = .ok ()

theorem start_action_iff (mc : Except Str Unit) (f : Str) (as : List Json) (inst : Option Str) :
    start_action mc f (.array as) inst = .call f (.array as) inst ∧ Starts mc as ∨
      (∃ e, start_action mc f (.array as) inst = .invalid e) ∧ ¬ Starts mc as := by
  unfold start_action Starts
  cases (Json.array as).dump_error with
  | some e => exact .inr ⟨⟨e, rfl⟩, nofun⟩
  | none =>
    cases mc with
    | error msg => exact .inr ⟨⟨_, rfl⟩, nofun⟩
    | ok u => exact .inl ⟨rfl, rfl, rfl⟩

/-- **The generic call** leads to the same evaluation as the specific call, in whatever
order the forks go on, and to the same reply but for what it repeats of the request. Where the
arguments cannot be dumped or R refuses the call, neither starts a fork. -/
theorem generic_call_agrees (genv : Env V) (fs : FS V) (before : List Event) {s : System V}
    (hs : s = run (System.step host opts R) (System.start host opts genv fs) before) (hrun : s.running = true)
    {k : Nat} (hk : s.deliveries k = none) (hm : request host m = some r) (hm' : request host m' = some r')
    (hg : GenericFor f as r r') (tmp : Str) :
    RepliesAlike f as host (written (delivered host opts R s k mc tmp m).log (.handler k))
        (written (delivered host opts R s k mc tmp m').log (.handler k)) ∧
      (Starts mc as →
        ∀ later, SessionsAlike f as host k (run (Sessions.step host R) (delivered host opts R s k mc tmp m).sessions later)
          (run (Sessions.step host R) (delivered host opts R s k mc tmp m').sessions later)) ∧
      (¬ Starts mc as →
        (delivered host opts R s k mc tmp m).sessions = s.sessions ∧
          (delivered host opts R s k mc tmp m').sessions = s.sessions) := by
  have ht : Traced host opts s := by rw [hs]; exact run_traced host opts R (fresh_start host opts genv fs) before
  have hfork := (ht.idle k hk).1
  unfold delivered
  rw [step_deliver host opts R hrun hk, step_deliver host opts R hrun hk, ht.written_deliver host opts hk,
    ht.written_deliver host opts hk, deliver_sessions, deliver_sessions]
  have ha := hg.action mc
  have ha' := hg.action' mc
  rcases start_action_iff mc f as r.target with ⟨hact, hstarts⟩ | ⟨⟨e, hact⟩, hstarts⟩
  · rw [hact] at ha ha'
    rw [handled_call host opts hm ha, handled_call host opts hm' ha']
    refine ⟨.silent, fun _ later => run_lockstep (fun s₁ s₂ e h => sessionsAlike_step host R e h) ?_,
      fun h => absurd hstarts h⟩
    simp only [after_ok, Sessions.start, Sessions.call, hfork]
    exact ⟨rfl, rfl, fun k' hk' => by simp only [update_of_ne hk'], _, _, update_self .., update_self ..,
      registered_alike hg s.agent, rfl, rfl, .same rfl⟩
  · rw [hact] at ha ha'
    obtain ⟨s₁, hpids, hout, hcall, hsent⟩ := handled_invalid host opts hm ha s.agent
    obtain ⟨s₂, hpids', hout', hcall', hsent'⟩ := handled_invalid host opts hm' ha' s.agent
    rw [hsent, hsent', hcall, hcall']
    exact ⟨replies_alike host (hg.bodies.put (by decide) (by decide) _) (hpids.trans hpids'.symm) hout hout' _ _,
      fun h => absurd h hstarts, fun _ => ⟨rfl, rfl⟩⟩

end

/-! ## A static call -/

def agree_host : Host := small_host [(lit "t", [lit "assign", lit "v", lit "1"]), (lit "t", [lit "v", lit "1"])]

def assign_args : List Json := [.string (lit "v"), .string (lit "1")]

def generic_request : Request :=
  ⟨lit "Session", lit "__static__", lit "call",
    [(lit "a", strings [lit "assign", lit "v", lit "1"]), (lit "s", .string (lit "t"))]⟩

def specific_request : Request :=
  ⟨lit "Session", lit "__static__", lit "assign", [(lit "a", strings [lit "v", lit "1"]), (lit "s", .string (lit "t"))]⟩

def generic_message : Msg := small_request "__static__" "call" (lit "t") [lit "assign", lit "v", lit "1"]

def specific_message : Msg := small_request "__static__" "assign" (lit "t") [lit "v", lit "1"]

theorem assign_generic : GenericFor (lit "assign") assign_args generic_request specific_request where
  class_name := rfl
  inst := rfl
  function := rfl
  function' := rfl
  not_call := by decide
  not_reserved _ := by decide
  members := .cons ⟨rfl, .inr (.inr ⟨rfl, rfl, rfl⟩)⟩ (.cons (memberAlike_refl _) .nil)
  args := rfl
  args' := rfl

theorem request_generic : request agree_host generic_message = some generic_request := by rfl

set_option maxRecDepth 2000 in
theorem request_specific : request agree_host specific_message = some specific_request := by rfl

abbrev agree_start : System Str := System.start agree_host small_options (fun _ => none) (fun _ => none)

theorem assign_agrees :
    RepliesAlike (lit "assign") assign_args agree_host
        (written (delivered agree_host small_options small_R agree_start 0 (.ok ()) [] generic_message).log (.handler 0))
        (written (delivered agree_host small_options small_R agree_start 0 (.ok ()) [] specific_message).log (.handler 0)) ∧
      ∀ later, SessionsAlike (lit "assign") assign_args agree_host 0
        (run (Sessions.step agree_host small_R)
          (delivered agree_host small_options small_R agree_start 0 (.ok ()) [] generic_message).sessions later)
        (run (Sessions.step agree_host small_R)
          (delivered agree_host small_options small_R agree_start 0 (.ok ()) [] specific_message).sessions later) := by
  have hrun : agree_start.running = true := by decide +kernel
  have hstarts : Starts (.ok ()) assign_args := ⟨by decide +kernel, rfl⟩
  have h := @generic_call_agrees Str agree_host small_options small_R (lit "assign") assign_args _ _ _ _ (.ok ())
    (fun _ => none)
    (fun _ => none) [] agree_start rfl hrun 0 rfl request_generic request_specific assign_generic []
  exact ⟨h.1, h.2.1 hstarts⟩

end VrpcAgent

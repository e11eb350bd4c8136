import VrpcAgent.Replies

/-!
# Forks in lockstep

Two forks that are called with the same name and arguments on the same instance do the
same, step by step, up to their replies. These come from what each of them has copied of
the agent; `Q` is what the packets of two replies have in common.
-/

namespace VrpcAgent

open Function Effects Runs

section
variable {V : Type}

/-- A fork that has replied with some packets, or failed to. -/
def Stage.closed (sc : Scope V) (ev : Evaluation V) (out : Str) : List Sent → Stage V
  | [] => .dead
  | q :: sent => .replied sc ev out (q :: sent)

theorem closed_terminated (sc : Scope V) (ev : Evaluation V) (out : Str) (sent : List Sent) :
    (Stage.closed sc ev out sent).terminated = true := by
  cases sent <;> rfl

theorem closed_sent (sc : Scope V) (ev : Evaluation V) (out : Str) (sent : List Sent) :
    (Stage.closed sc ev out sent).sent = sent := by
  cases sent <;> rfl

variable (host : Host) (R : RLib V)

/-! ## One fork -/

theorem step_closed (fs : FS V) {g : Fork V} {sc : Scope V} {ev : Evaluation V} {m : List (Str × Json)} {out : Str}
    (hst : g.stage = .saved sc ev) (hm : g.call.memory.awaited_callbacks g.call.call_id = some (.object m))
    (hout : call_output R g.call.func_name ev = some out) :
    json_call_step host R fs g = (fs, .closed sc ev out (after (fork_reply host g.call out)).out) := by
  simp only [json_call_step, hst, hout]
  cases hr : fork_reply host g.call out with
  | ok u fr =>
    obtain ⟨id, t, -, hsent⟩ := fork_reply_out host hm hr
    show (fs, Stage.replied sc ev out fr.out) = (fs, Stage.closed sc ev out fr.out)
    rw [hsent]
    rfl
  | error e fr =>
    rw [fork_reply_eq host hm] at hr
    obtain ⟨pids, rfl, -⟩ := write_error host hr
    rfl

theorem step_unanswered (fs : FS V) {g : Fork V} {sc : Scope V} {ev : Evaluation V} (hst : g.stage = .saved sc ev)
    (hout : call_output R g.call.func_name ev = none) : json_call_step host R fs g = (fs, .dead) := by
  simp only [json_call_step, hst, hout]

theorem step_silent (fs : FS V) {g : Fork V} (h : g.stage.reply = none) (hsaved : ∀ sc ev, g.stage ≠ .saved sc ev) :
    (json_call_step host R fs g).2.reply = none := by
  cases hst : (json_call_step host R fs g).2 with
  | replied sc ev out sent =>
    rcases json_call_step_replied host R hst with hold | ⟨hold, -⟩
    · rw [hold] at h; cases h
    · exact absurd hold (hsaved sc ev)
  | _ => rfl

theorem step_fork {s : Sessions V} {k : Nat} {g : Fork V} (h : s.forks k = some g) :
    s.step host R (.step k) = { s with
      fs := (json_call_step host R s.fs g).1
      forks := update s.forks k (some { g with stage := (json_call_step host R s.fs g).2 }) } := by
  simp only [Sessions.step, h]

theorem step_no_fork {s : Sessions V} {k : Nat} (h : s.forks k = none) : s.step host R (.step k) = s := by
  simp only [Sessions.step, h]

/-! ## Two forks -/

variable (Q : List Sent → List Sent → Prop)

inductive StagesAlike : Stage V → Stage V → Prop
  | same {st : Stage V} (h : st.reply = none) : StagesAlike st st
  | closed {sc : Scope V} {ev : Evaluation V} {out : Str} {sent sent' : List Sent} (h : Q sent sent') :
      StagesAlike (.closed sc ev out sent) (.closed sc ev out sent')

structure CallsAgree (c c' : VrpcCall) : Prop where
  func_name : c.func_name = c'.func_name
  string_args : c.string_args = c'.string_args
  instance_id : c.instance_id = c'.instance_id
  awaits : ∃ m, c.memory.awaited_callbacks c.call_id = some (.object m)
  awaits' : ∃ m, c'.memory.awaited_callbacks c'.call_id = some (.object m)
  replies : ∀ out, Q (after (fork_reply host c out)).out (after (fork_reply host c' out)).out

structure ForksAgree (g g' : Fork V) : Prop where
  call : CallsAgree host Q g.call g'.call
  session_dir : g.session_dir = g'.session_dir
  genv : g.genv = g'.genv
  stage : StagesAlike Q g.stage g'.stage

variable {Q} {host}

/-- What a fork does does not depend on what its reply repeats. -/
theorem forksAgree_step (fs : FS V) {g g' : Fork V} (h : ForksAgree host Q g g') :
    (json_call_step host R fs g).1 = (json_call_step host R fs g').1 ∧
      StagesAlike Q (json_call_step host R fs g).2 (json_call_step host R fs g').2 := by
  obtain ⟨c, dir, genv, st⟩ := g
  obtain ⟨c', dir', genv', st'⟩ := g'
  obtain ⟨hcall, rfl, rfl, hstage⟩ : CallsAgree host Q c c' ∧ dir = dir' ∧ genv = genv' ∧ StagesAlike Q st st' :=
    ⟨h.call, h.session_dir, h.genv, h.stage⟩
  cases hstage with
  | closed hr =>
    rw [step_terminated host R fs (closed_terminated ..), step_terminated host R fs (closed_terminated ..)]
    exact ⟨rfl, .closed hr⟩
  | same hnone =>
    by_cases hsaved : ∃ sc ev, st = .saved sc ev
    · obtain ⟨sc, ev, rfl⟩ := hsaved
      obtain ⟨m, hm⟩ := hcall.awaits
      obtain ⟨m', hm'⟩ := hcall.awaits'
      cases hout : call_output R c.func_name ev with
      | none =>
        have hout' : call_output R c'.func_name ev = none := by rw [← hcall.func_name, hout]
        rw [step_unanswered host R fs rfl hout, step_unanswered host R fs rfl hout']
        exact ⟨rfl, .same rfl⟩
      | some out =>
        have hout' : call_output R c'.func_name ev = some out := by rw [← hcall.func_name, hout]
        rw [step_closed host R fs rfl hm hout, step_closed host R fs rfl hm' hout']
        exact ⟨rfl, .closed (hcall.replies out)⟩
    · have heq : json_call_step host R fs ⟨c, dir, genv, st⟩ = json_call_step host R fs ⟨c', dir, genv, st⟩ := by
        cases st with
        | saved sc ev => exact absurd ⟨sc, ev, rfl⟩ hsaved
        | _ => simp only [json_call_step, hcall.func_name, hcall.string_args, hcall.instance_id]
      rw [← heq]
      exact ⟨rfl, .same (step_silent host R fs hnone fun sc ev hst => hsaved ⟨sc, ev, hst⟩)⟩

/-! ## All forks -/

variable (host Q)

structure SessionsAgree (s s' : Sessions V) : Prop where
  genv : s.genv = s'.genv
  fs : s.fs = s'.fs
  forks : ∀ k, Option.Rel (ForksAgree host Q) (s.forks k) (s'.forks k)

variable {host Q}

theorem SessionsAgree.call {s s' : Sessions V} (h : SessionsAgree host Q s s') (k : Nat) {c c' : VrpcCall}
    (hc : CallsAgree host Q c c') (tmp : Str) : SessionsAgree host Q (s.call k c tmp) (s'.call k c' tmp) := by
  have hk := h.forks k
  unfold Sessions.call
  cases hf : s.forks k with
  | some g =>
    cases hf' : s'.forks k with
    | some g' => exact h
    | none => rw [hf, hf'] at hk; cases hk
  | none =>
    cases hf' : s'.forks k with
    | some g' => rw [hf, hf'] at hk; cases hk
    | none =>
      refine ⟨h.genv, by simp only [h.fs, hc.instance_id], fun k' => ?_⟩
      by_cases hkk : k' = k
      · subst hkk
        simp only [update_self]
        exact .some ⟨hc, by rw [hc.instance_id], h.genv, .same rfl⟩
      · simp only [update_of_ne hkk]
        exact h.forks k'

theorem SessionsAgree.step {s s' : Sessions V} (h : SessionsAgree host Q s s') (k : Nat) :
    SessionsAgree host Q (s.step host R (.step k)) (s'.step host R (.step k)) := by
  have hk := h.forks k
  cases hf : s.forks k with
  | none =>
    cases hf' : s'.forks k with
    | some g' => rw [hf, hf'] at hk; cases hk
    | none => rw [step_no_fork host R hf, step_no_fork host R hf']; exact h
  | some g =>
    cases hf' : s'.forks k with
    | none => rw [hf, hf'] at hk; cases hk
    | some g' =>
      rw [hf, hf'] at hk
      obtain ⟨hg⟩ := hk
      obtain ⟨hfs, hstage⟩ := forksAgree_step R s.fs hg
      rw [step_fork host R hf, step_fork host R hf', ← h.fs]
      refine ⟨h.genv, hfs, fun k' => ?_⟩
      by_cases hkk : k' = k
      · subst hkk
        simp only [update_self]
        exact .some ⟨hg.call, hg.session_dir, hg.genv, hstage⟩
      · simp only [update_of_ne hkk]
        exact h.forks k'

end

end VrpcAgent

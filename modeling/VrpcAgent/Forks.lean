import VrpcAgent.System
import VrpcAgent.Files

/-!
# The steps of a fork

What each step of `json_call` can do: one statement for each stage.
-/

namespace VrpcAgent

open Function Effects Runs

def Stage.terminated {V : Type} : Stage V → Bool
  | .replied .. => true
  | .dead => true
  | _ => false

abbrev Outcome := Option (Str × List Sent)

def Stage.reply {V : Type} : Stage V → Outcome
  | .replied _ _ out sent => some (out, sent)
  | _ => none

section
variable {V : Type} (host : Host) (R : RLib V)

/-- The text and the packets of the reply to an evaluated call; nothing when the
fork fails. -/
def reply (call : VrpcCall) (ev : Evaluation V) : Outcome :=
  match call_output R call.func_name ev with
  | none => none
  | some out =>
    match fork_reply host call out with
    | .ok _ fr => some (out, fr.out)
    | .error _ _ => none

variable (fs : FS V) {f : Fork V}

theorem step_forked (h : f.stage = .forked) :
    (json_call_step host R fs f = (fs, .dead) ∧
        ∀ cwd, walk fs [] f.session_dir = some cwd → attach_session fs cwd f.call.instance_id f.genv = none) ∨
      ∃ cwd sc, walk fs [] f.session_dir = some cwd ∧ attach_session fs cwd f.call.instance_id f.genv = some sc ∧
        json_call_step host R fs f = (fs, .attached sc) := by
  simp only [json_call_step, h]
  cases hw : walk fs [] f.session_dir with
  | none => exact Or.inl ⟨rfl, nofun⟩
  | some cwd =>
    cases ha : attach_session fs cwd f.call.instance_id f.genv with
    | none => exact Or.inl ⟨by simp [ha], fun cwd' hc => by cases hc; exact ha⟩
    | some sc => exact Or.inr ⟨cwd, sc, rfl, ha, by simp [ha]⟩

theorem step_attached {sc : Scope V} (h : f.stage = .attached sc) :
    (evaluate_call R f.call.func_name f.call.string_args sc = none ∧ json_call_step host R fs f = (fs, .dead)) ∨
      ∃ ev, evaluate_call R f.call.func_name f.call.string_args sc = some ev ∧
        json_call_step host R fs f = (fs, .evaluated sc ev) := by
  simp only [json_call_step, h]
  cases he : evaluate_call R f.call.func_name f.call.string_args sc with
  | none => exact Or.inl ⟨rfl, rfl⟩
  | some ev => exact Or.inr ⟨ev, rfl, rfl⟩

theorem step_evaluated {sc : Scope V} {ev : Evaluation V} (h : f.stage = .evaluated sc ev) :
    (walk fs [] f.session_dir = none ∧ json_call_step host R fs f = (fs, .dead)) ∨
      ∃ cwd, walk fs [] f.session_dir = some cwd ∧ json_call_step host R fs f =
        ((save_session fs cwd f.call.instance_id ev.scope).1,
          if (save_session fs cwd f.call.instance_id ev.scope).2 then .saved sc ev else .dead) := by
  simp only [json_call_step, h]
  cases hw : walk fs [] f.session_dir with
  | none => exact Or.inl ⟨rfl, rfl⟩
  | some cwd =>
    refine Or.inr ⟨cwd, rfl, ?_⟩
    cases hs : save_session fs cwd f.call.instance_id ev.scope with
    | mk fs' b => cases b <;> simp [hs]

theorem step_saved {sc : Scope V} {ev : Evaluation V} (h : f.stage = .saved sc ev) :
    (reply host R f.call ev = none ∧ json_call_step host R fs f = (fs, .dead)) ∨
      ∃ out sent, reply host R f.call ev = some (out, sent) ∧
        json_call_step host R fs f = (fs, .replied sc ev out sent) := by
  simp only [json_call_step, h, reply]
  cases ho : call_output R f.call.func_name ev with
  | none => exact Or.inl ⟨rfl, rfl⟩
  | some out =>
    cases hr : fork_reply host f.call out with
    | ok u fr => exact Or.inr ⟨out, fr.out, by simp [hr], by simp [hr]⟩
    | error e fr => exact Or.inl ⟨by simp [hr], by simp [hr]⟩

theorem step_terminated (h : f.stage.terminated = true) : json_call_step host R fs f = (fs, f.stage) := by
  unfold json_call_step
  cases hs : f.stage with
  | replied => rfl
  | dead => rfl
  | _ => rw [hs] at h; cases h

/-- Only the save of a fork writes files. -/
theorem json_call_writes (f : Fork V) : (json_call_step host R fs f).1 = fs ∨ ∃ sc ev cwd, f.stage = .evaluated sc ev ∧
    walk fs [] f.session_dir = some cwd ∧
      (json_call_step host R fs f).1 = (save_session fs cwd f.call.instance_id ev.scope).1 := by
  cases hst : f.stage with
  | forked => rcases step_forked host R fs hst with ⟨hj, -⟩ | ⟨cwd, sc, -, -, hj⟩ <;> exact Or.inl (by rw [hj])
  | attached sc => rcases step_attached host R fs hst with ⟨-, hj⟩ | ⟨ev, -, hj⟩ <;> exact Or.inl (by rw [hj])
  | evaluated sc ev =>
    rcases step_evaluated host R fs hst with ⟨-, hj⟩ | ⟨cwd, hw, hj⟩
    · exact Or.inl (by rw [hj])
    · exact Or.inr ⟨sc, ev, cwd, rfl, hw, by rw [hj]⟩
  | saved sc ev => rcases step_saved host R fs hst with ⟨-, hj⟩ | ⟨out, sent, -, hj⟩ <;> exact Or.inl (by rw [hj])
  | replied => exact Or.inl (by rw [step_terminated host R _ (by rw [hst]; rfl)])
  | dead => exact Or.inl (by rw [step_terminated host R _ (by rw [hst]; rfl)])

theorem json_call_step_left_forked (f : Fork V) : (json_call_step host R fs f).2 ≠ .forked := by
  intro h
  cases hst : f.stage with
  | forked => rcases step_forked host R fs hst with ⟨hj, -⟩ | ⟨cwd, sc, -, -, hj⟩ <;> rw [hj] at h <;> cases h
  | attached sc => rcases step_attached host R fs hst with ⟨-, hj⟩ | ⟨ev, -, hj⟩ <;> rw [hj] at h <;> cases h
  | evaluated sc ev =>
    rcases step_evaluated host R fs hst with ⟨-, hj⟩ | ⟨cwd, -, hj⟩
    · rw [hj] at h; cases h
    · rw [hj] at h; dsimp only at h; split at h <;> cases h
  | saved sc ev => rcases step_saved host R fs hst with ⟨-, hj⟩ | ⟨out, sent, -, hj⟩ <;> rw [hj] at h <;> cases h
  | replied => rw [step_terminated host R _ (by rw [hst]; rfl), hst] at h; cases h
  | dead => rw [step_terminated host R _ (by rw [hst]; rfl), hst] at h; cases h

theorem json_call_step_replied {fs : FS V} {sc : Scope V} {ev : Evaluation V} {out : Str} {sent : List Sent}
    (h : (json_call_step host R fs f).2 = .replied sc ev out sent) :
    f.stage = .replied sc ev out sent ∨
      f.stage = .saved sc ev ∧ ∃ fr, fork_reply host f.call out = .ok () fr ∧ sent = fr.out := by
  cases hs : f.stage with
  | forked =>
    rcases step_forked host R fs hs with ⟨hr, -⟩ | ⟨cwd, sc', -, -, hr⟩ <;> rw [hr] at h <;> cases h
  | attached sc' =>
    rcases step_attached host R fs hs with ⟨-, hr⟩ | ⟨ev', -, hr⟩ <;> rw [hr] at h <;> cases h
  | evaluated sc' ev' =>
    rcases step_evaluated host R fs hs with ⟨-, hr⟩ | ⟨cwd, -, hr⟩
    · rw [hr] at h; cases h
    · rw [hr] at h; simp only at h; split at h <;> cases h
  | saved sc' ev' =>
    rcases step_saved host R fs hs with ⟨-, hr⟩ | ⟨out', sent', hrep, hr⟩
    · rw [hr] at h; cases h
    · rw [hr] at h; cases h
      refine Or.inr ⟨rfl, ?_⟩
      unfold reply at hrep
      split at hrep
      · cases hrep
      · split at hrep
        · rename_i hfr; cases hrep; exact ⟨_, hfr, rfl⟩
        · cases hrep
  | replied => rw [step_terminated host R _ (by rw [hs]; rfl), hs] at h; exact Or.inl h
  | dead => rw [step_terminated host R _ (by rw [hs]; rfl), hs] at h; cases h

theorem step_forks (s : Sessions V) (k k' : Nat) :
    (s.step host R (.step k)).forks k' =
      if k' = k then (s.forks k).map fun f => { f with stage := (json_call_step host R s.fs f).2 }
      else s.forks k' := by
  simp only [Sessions.step]
  cases hf : s.forks k with
  | none =>
    by_cases hk : k' = k
    · subst hk; simp [hf]
    · simp [hk]
  | some f =>
    by_cases hk : k' = k
    · subst hk; simp
    · simp [hk]

theorem call_forks (s : Sessions V) (k : Nat) (c : VrpcCall) (tmp : Str) (k' : Nat) :
    (s.call k c tmp).forks k' =
      if k' = k then some ((s.forks k).getD ⟨c, session_components tmp c.instance_id, s.genv, .forked⟩)
      else s.forks k' := by
  unfold Sessions.call
  cases hf : s.forks k with
  | none =>
    by_cases hk : k' = k
    · subst hk; simp
    · simp [hk]
  | some f =>
    by_cases hk : k' = k
    · subst hk; simp [hf]
    · simp [hk]

def SessionEvent.fork : SessionEvent → Nat
  | .call k _ _ => k
  | .step k => k

theorem step_forks_of_ne {s : Sessions V} {e : SessionEvent} {k : Nat} (h : k ≠ e.fork) :
    (s.step host R e).forks k = s.forks k := by
  cases e with
  | call k' c tmp =>
    show (s.call k' c tmp).forks k = _
    rw [call_forks]; exact if_neg h
  | step k' => rw [step_forks]; exact if_neg h

theorem run_forks_of_ne {k : Nat} {evs : List SessionEvent} (h : ∀ e ∈ evs, k ≠ e.fork) (s : Sessions V) :
    (run (Sessions.step host R) s evs).forks k = s.forks k :=
  run_inv (P := fun s' : Sessions V => s'.forks k = s.forks k) (G := fun _ e => k ≠ e.fork)
    (fun _ _ hs he => by rw [step_forks_of_ne host R he, hs]) rfl (along_of_mem fun e he _ => h e he)

/-! ## The R side of a run of the system -/

theorem sessions_step (opts : Options) (s : System V) (e : Event) :
    ∃ evs, (s.step host opts R e).sessions = run (Sessions.step host R) s.sessions evs ∧
      ∀ k, .step k ∈ evs → e = .step k := by
  cases e with
  | deliver k m mc tmp =>
    by_cases hd : s.running = true ∧ (s.deliveries k).isNone
    · simp only [System.step, if_pos hd, System.deliver]
      cases (after (handled host opts mc m s.agent)).call with
      | none => exact ⟨[], rfl, nofun⟩
      | some c => exact ⟨[.call k c tmp], rfl, by simp⟩
    · exact ⟨[], by simp only [System.step, if_neg hd, run_nil], nofun⟩
  | step k => exact ⟨[.step k], rfl, by simp⟩
  | ack i =>
    refine ⟨[], ?_, nofun⟩
    simp only [System.step, run_nil]
    split
    · rfl
    · split <;> rfl

theorem run_sessions (opts : Options) : ∀ (evs : List Event) (s : System V),
    ∃ evs', (run (System.step host opts R) s evs).sessions = run (Sessions.step host R) s.sessions evs'
  | [], _ => ⟨[], rfl⟩
  | e :: evs, s => by
    obtain ⟨l, hl, -⟩ := sessions_step host R opts s e
    obtain ⟨l', hl'⟩ := run_sessions opts evs (s.step host opts R e)
    exact ⟨l ++ l', by rw [run_cons, hl', hl, run_append]⟩

theorem fork_waits (opts : Options) {s : System V} {e : Event} {k : Nat} {f : Fork V} (hf : s.sessions.forks k = some f)
    (he : e ≠ .step k) : (s.step host opts R e).sessions.forks k = some f := by
  obtain ⟨evs, hrun, hevs⟩ := sessions_step host R opts s e
  rw [hrun]
  refine run_inv (P := fun s' : Sessions V => s'.forks k = some f) (G := fun _ e' => e' ≠ .step k)
    (fun s' e' hs he' => ?_) hf (along_of_mem fun e' he' _ h => he (hevs k (h ▸ he')))
  cases e' with
  | call k' c tmp =>
    show (s'.call k' c tmp).forks k = some f
    rw [call_forks]
    split
    · rename_i h; subst h; rw [hs]; rfl
    · exact hs
  | step k' => rw [step_forks, if_neg fun h => he' (by rw [h]), hs]

/-- Only the stage of a fork changes. -/
theorem fork_next (opts : Options) {s : System V} {k : Nat} {f : Fork V} (hf : s.sessions.forks k = some f) (e : Event) :
    ∃ st, (s.step host opts R e).sessions.forks k = some { f with stage := st } := by
  by_cases he : e = .step k
  · subst he
    exact ⟨(json_call_step host R s.sessions.fs f).2, by simp only [System.step, step_forks, if_pos, hf, Option.map_some]⟩
  · exact ⟨f.stage, fork_waits host R opts hf he⟩

theorem run_fork_call (opts : Options) {s : System V} {k : Nat} {f : Fork V} (hf : s.sessions.forks k = some f)
    (evs : List Event) : ∃ f', (run (System.step host opts R) s evs).sessions.forks k = some f' ∧ f'.call = f.call := by
  refine run_inv (P := fun s' : System V => ∃ f', s'.sessions.forks k = some f' ∧ f'.call = f.call) (fun s' e hs _ => ?_)
    ⟨f, hf, rfl⟩ (along_true s evs)
  obtain ⟨f', hf', hcall⟩ := hs
  obtain ⟨st, hst⟩ := fork_next host R opts hf' e
  exact ⟨_, hst, hcall⟩

structure Sound (s : Sessions V) : Prop where
  genv : ∀ k f, s.forks k = some f → f.genv = s.genv
  dir : ∀ k f, s.forks k = some f → ∃ tmp, f.session_dir = session_components tmp f.call.instance_id

theorem step_genv (s : Sessions V) (e : SessionEvent) : (s.step host R e).genv = s.genv := by
  cases e with
  | call k c tmp => simp only [Sessions.step, Sessions.call]; split <;> rfl
  | step k => simp only [Sessions.step]; split <;> rfl

theorem run_genv (s : Sessions V) (evs : List SessionEvent) : (run (Sessions.step host R) s evs).genv = s.genv :=
  run_inv (P := fun s' : Sessions V => s'.genv = s.genv) (fun s' e hs _ => by rw [step_genv, hs]) rfl (along_true s evs)

theorem run_system_genv (opts : Options) (s : System V) (evs : List Event) :
    (run (System.step host opts R) s evs).sessions.genv = s.sessions.genv := by
  obtain ⟨evs', hevs'⟩ := run_sessions host R opts evs s
  rw [hevs', run_genv]

theorem sound_step {s : Sessions V} (h : Sound s) (e : SessionEvent) : Sound (s.step host R e) := by
  have hfork : ∀ k f, (s.step host R e).forks k = some f →
      f.genv = s.genv ∧ ∃ tmp, f.session_dir = session_components tmp f.call.instance_id := by
    intro k f hf
    by_cases hk : k = e.fork
    · subst hk
      cases e with
      | call k c tmp =>
        change (s.call k c tmp).forks k = some f at hf
        rw [call_forks, if_pos rfl, Option.some_inj] at hf
        cases ho : s.forks k with
        | none => rw [ho] at hf; subst hf; exact ⟨rfl, tmp, rfl⟩
        | some f' => rw [ho] at hf; subst hf; exact ⟨h.genv k f' ho, h.dir k f' ho⟩
      | step k =>
        change (s.step host R (.step k)).forks k = some f at hf
        rw [step_forks, if_pos rfl] at hf
        obtain ⟨f', ho, rfl⟩ := Option.map_eq_some_iff.mp hf
        exact ⟨h.genv k f' ho, h.dir k f' ho⟩
    · rw [step_forks_of_ne host R hk] at hf
      exact ⟨h.genv k f hf, h.dir k f hf⟩
  exact ⟨fun k f hf => by rw [step_genv]; exact (hfork k f hf).1, fun k f hf => (hfork k f hf).2⟩

/-! ## Calls one after the other -/

def Stage.left : Stage V → Nat
  | .forked => 4
  | .attached _ => 3
  | .evaluated _ _ => 2
  | .saved _ _ => 1
  | .replied .. => 0
  | .dead => 0

theorem terminated_iff {st : Stage V} : st.terminated = true ↔ st.left = 0 := by
  cases st <;> simp [Stage.terminated, Stage.left]

theorem step_left (fs : FS V) (f : Fork V) : (json_call_step host R fs f).2.left ≤ f.stage.left - 1 := by
  cases hs : f.stage with
  | forked => rcases step_forked host R fs hs with ⟨h, -⟩ | ⟨_, _, -, -, h⟩ <;> simp [h, Stage.left]
  | attached => rcases step_attached host R fs hs with ⟨-, h⟩ | ⟨_, -, h⟩ <;> simp [h, Stage.left]
  | evaluated =>
    rcases step_evaluated host R fs hs with ⟨-, h⟩ | ⟨_, -, h⟩
    · simp [h, Stage.left]
    · rw [h]; dsimp only; split <;> simp [Stage.left]
  | saved => rcases step_saved host R fs hs with ⟨-, h⟩ | ⟨_, _, -, h⟩ <;> simp [h, Stage.left]
  | replied => rw [step_terminated host R _ (by rw [hs]; rfl), hs]; simp [Stage.left]
  | dead => rw [step_terminated host R _ (by rw [hs]; rfl), hs]; simp [Stage.left]

def serve_call (k : Nat) (c : VrpcCall) : List SessionEvent := .call k c [] :: List.replicate 4 (.step k)

theorem run_steps_left {k : Nat} : ∀ (n : Nat) {s : Sessions V} {f : Fork V}, s.forks k = some f →
    ∃ f', (run (Sessions.step host R) s (List.replicate n (.step k))).forks k = some f' ∧
      f'.stage.left ≤ f.stage.left - n
  | 0, _, f, h => ⟨f, h, Nat.le_refl _⟩
  | n + 1, s, f, h => by
    have h1 : (s.step host R (.step k)).forks k = some { f with stage := (json_call_step host R s.fs f).2 } := by
      rw [step_forks, if_pos rfl, h]; rfl
    obtain ⟨f', hf', hl⟩ := run_steps_left n h1
    have := step_left host R s.fs f
    exact ⟨f', hf', by dsimp only at hl; omega⟩

theorem run_serve_call {s : Sessions V} {k : Nat} (h : s.forks k = none) (c : VrpcCall) :
    ∃ f, (run (Sessions.step host R) s (serve_call k c)).forks k = some f ∧ f.stage.terminated = true := by
  have h1 : (s.step host R (.call k c [])).forks k = some ⟨c, session_components [] c.instance_id, s.genv, .forked⟩ := by
    show (s.call k c []).forks k = _
    rw [call_forks, if_pos rfl, h]; rfl
  obtain ⟨f, hf, hl⟩ := run_steps_left host R 4 h1
  exact ⟨f, hf, terminated_iff.mpr (Nat.le_zero.mp hl)⟩

def Hands (calls : Nat → VrpcCall) (e : SessionEvent) : Prop := ∀ k c tmp, e = .call k c tmp → c = calls k

def serve (calls : Nat → VrpcCall) (order : List Nat) : List SessionEvent :=
  order.flatMap fun k => serve_call k (calls k)

theorem serve_call_fork {k : Nat} {c : VrpcCall} {e : SessionEvent} (he : e ∈ serve_call k c) : e.fork = k := by
  rcases List.mem_cons.mp he with rfl | he
  · rfl
  · rw [List.eq_of_mem_replicate he]; rfl

theorem serve_call_hands {calls : Nat → VrpcCall} {k : Nat} {e : SessionEvent} (he : e ∈ serve_call k (calls k)) :
    Hands calls e := by
  rcases List.mem_cons.mp he with rfl | he
  · intro k' c tmp h; cases h; rfl
  · obtain rfl := List.eq_of_mem_replicate he
    exact nofun

end

end VrpcAgent

import VrpcAgent.Forks

/-!
# Sessions between calls

The session of one call is the environment the next call starts in, laid over
the global environment of the agent. So a session persists exactly as long as no
call removes a name that the agent itself has bound, and a re-created instance
starts afresh when the earlier one left nothing behind.
-/

namespace VrpcAgent

open Function Runs PartialMap

section
variable {V : Type}

def Stage.started : Stage V → Option (Env V)
  | .attached sc => some sc.genv
  | .evaluated sc _ => some sc.genv
  | .saved sc _ => some sc.genv
  | .replied sc _ _ _ => some sc.genv
  | _ => none

def Stage.finished : Stage V → Option (Env V)
  | .evaluated _ ev => some ev.scope.genv
  | .saved _ ev => some ev.scope.genv
  | .replied _ ev _ _ => some ev.scope.genv
  | _ => none

variable (host : Host) (R : RLib V)

/-! ## One call with no other in progress -/

def Attaches (genv : Env V) (fs : FS V) (x : Str) (sc : Scope V) : Prop :=
  ∃ cwd, walk fs [] (session_components [] (some x)) = some cwd ∧ load genv (fs (cwd ++ [lit ".RData"])) = some sc

/-- How far a call has come that started from the files `fs` and that nobody has
disturbed. -/
def Undisturbed (genv : Env V) (fs : FS V) (x : Str) (c : VrpcCall) (fs' : FS V) : Stage V → Prop
  | .forked => fs' = fs
  | .attached sc => fs' = fs ∧ Attaches genv fs x sc
  | .evaluated sc ev => fs' = fs ∧ Attaches genv fs x sc ∧ evaluate_call R c.func_name c.string_args sc = some ev
  | .saved sc ev => Attaches genv fs x sc ∧ evaluate_call R c.func_name c.string_args sc = some ev ∧
      saved_session fs' (session_components [] (some x)) = some (.rdata ev.scope.genv)
  | .replied sc ev _ _ => Attaches genv fs x sc ∧ evaluate_call R c.func_name c.string_args sc = some ev ∧
      saved_session fs' (session_components [] (some x)) = some (.rdata ev.scope.genv)
  | .dead => True

variable {genv : Env V} {fs fs' : FS V} {x : Str} {c : VrpcCall} {f : Fork V}

theorem evaluated_saves {sc sc' : Scope V} {ev : Evaluation V} (hst : f.stage = .evaluated sc' ev)
    (hid : f.call.instance_id = some x) (hdir : f.session_dir = session_components [] (some x)) (ha : Attaches genv fs x sc) :
    saved_session (json_call_step host R fs f).1 (session_components [] (some x)) = some (.rdata ev.scope.genv) ∧
      ((json_call_step host R fs f).2 = .saved sc' ev ∨ (json_call_step host R fs f).2 = .dead) := by
  obtain ⟨cwd, hw, hl⟩ := ha
  rcases step_evaluated host R fs hst with ⟨hnone, -⟩ | ⟨cwd', hw', hj⟩
  · rw [hdir, hw] at hnone; cases hnone
  · rw [hdir, hw] at hw'
    obtain rfl : cwd = cwd' := Option.some.inj hw'
    rw [hj, hid]
    dsimp only
    constructor
    · rw [saved_session, walk_congr (fun p => isDir_save_session fs cwd (some x) ev.scope p), hw,
        Option.bind_some, save_session_rdata, load_not_dir hl]
      rfl
    · split
      · exact Or.inl rfl
      · exact Or.inr rfl

theorem undisturbed_step (hid : f.call.instance_id = some x) (hdir : f.session_dir = session_components [] (some x))
    (hgenv : f.genv = genv) (h : Undisturbed R genv fs x f.call fs' f.stage) :
    Undisturbed R genv fs x f.call (json_call_step host R fs' f).1 (json_call_step host R fs' f).2 := by
  cases hst : f.stage with
  | forked =>
    rw [hst] at h
    obtain rfl : fs' = fs := h
    rcases step_forked host R fs' hst with ⟨hj, -⟩ | ⟨cwd, sc, hw, ha, hj⟩
    · rw [hj]; trivial
    · rw [hid, hgenv, attach_session_some] at ha
      rw [hj]
      exact ⟨rfl, cwd, hdir ▸ hw, ha⟩
  | attached sc =>
    rw [hst] at h
    obtain ⟨rfl, ha⟩ := h
    rcases step_attached host R fs' hst with ⟨-, hj⟩ | ⟨ev, he, hj⟩
    · rw [hj]; trivial
    · rw [hj]; exact ⟨rfl, ha, he⟩
  | evaluated sc ev =>
    rw [hst] at h
    obtain ⟨rfl, ha, he⟩ := h
    obtain ⟨hsave, hj | hj⟩ := evaluated_saves host R hst hid hdir ha
    · rw [hj]; exact ⟨ha, he, hsave⟩
    · rw [hj]; trivial
  | saved sc ev =>
    rw [hst] at h
    rcases step_saved host R fs' hst with ⟨-, hj⟩ | ⟨out, sent, -, hj⟩
    · rw [hj]; trivial
    · rw [hj]; exact h
  | replied =>
    rw [step_terminated host R _ (by rw [hst]; rfl)]; exact h
  | dead =>
    rw [step_terminated host R _ (by rw [hst]; rfl), hst]; trivial

def Alone (genv : Env V) (fs : FS V) (x : Str) (c : VrpcCall) (k : Nat) (s : Sessions V) : Prop :=
  ∃ f, s.forks k = some f ∧ f.call = c ∧ f.session_dir = session_components [] (some x) ∧ f.genv = genv ∧
    Undisturbed R genv fs x c s.fs f.stage

theorem alone_step {s : Sessions V} {k : Nat} (hid : c.instance_id = some x) (h : Alone R genv fs x c k s) :
    Alone R genv fs x c k (s.step host R (.step k)) := by
  obtain ⟨f, hf, rfl, hd, hg, hu⟩ := h
  refine ⟨{ f with stage := (json_call_step host R s.fs f).2 }, ?_, rfl, hd, hg, ?_⟩
  · rw [step_forks, if_pos rfl, hf]; rfl
  · simpa only [Sessions.step, hf] using undisturbed_step host R hid hd hg hu

theorem alone_call {s : Sessions V} {k : Nat} (hk : s.forks k = none) (hid : c.instance_id = some x) :
    Alone R s.genv (create_session_dir s.fs (session_components [] (some x))) x c k (s.step host R (.call k c [])) := by
  refine ⟨⟨c, session_components [] (some x), s.genv, .forked⟩, ?_, rfl, rfl, rfl, ?_⟩
  · show (s.call k c []).forks k = _
    rw [call_forks, if_pos rfl, hk, hid]; rfl
  · simp only [Sessions.step, Sessions.call, hk, hid]; rfl

theorem step_at {s : Sessions V} {k : Nat} (hf : s.forks k = some f) :
    (s.step host R (.step k)).fs = (json_call_step host R s.fs f).1 ∧
      (s.step host R (.step k)).forks k = some { f with stage := (json_call_step host R s.fs f).2 } := by
  simp only [Sessions.step, hf, update_self, and_self]

theorem step_fs_of_late {s : Sessions V} {k : Nat} (hf : s.forks k = some f)
    (hst : f.stage.terminated = true ∨ ∃ sc ev, f.stage = .saved sc ev) : (s.step host R (.step k)).fs = s.fs := by
  rw [(step_at host R hf).1]
  rcases hst with hst | ⟨sc, ev, hst⟩
  · rw [step_terminated host R _ hst]
  · rcases step_saved host R s.fs hst with ⟨-, hj⟩ | ⟨out, sent, -, hj⟩ <;> rw [hj]

/-- A call that has attached the session saves what it evaluates to, whether or not it
replies; one that cannot be evaluated leaves the files alone. -/
theorem serve_attached {s : Sessions V} {k : Nat} {sc : Scope V} (hid : c.instance_id = some x) (h : Alone R genv fs x c k s)
    (hf : s.forks k = some f) (hst : f.stage = .attached sc) :
    evaluate_call R c.func_name c.string_args sc = none ∧
      (run (Sessions.step host R) s (List.replicate 3 (.step k))).fs = s.fs ∨
      ∃ ev, evaluate_call R c.func_name c.string_args sc = some ev ∧
        saved_session (run (Sessions.step host R) s (List.replicate 3 (.step k))).fs (session_components [] (some x)) =
          some (.rdata ev.scope.genv) := by
  obtain ⟨f', hf', rfl, hdir, -, hu⟩ := h
  obtain rfl : f = f' := Option.some.inj (hf.symm.trans hf')
  rw [hst] at hu
  obtain ⟨rfl, ha⟩ := hu
  have hrun : run (Sessions.step host R) s (List.replicate 3 (.step k)) =
      ((s.step host R (.step k)).step host R (.step k)).step host R (.step k) := rfl
  rw [hrun]
  obtain ⟨hfs₁, hf₁⟩ := step_at host R hf
  obtain ⟨hfs₂, hf₂⟩ := step_at host R hf₁
  rcases step_attached host R s.fs hst with ⟨hnone, hj⟩ | ⟨ev, he, hj⟩
  · have hdead : (json_call_step host R (s.step host R (.step k)).fs
        { f with stage := (json_call_step host R s.fs f).2 }).2.terminated = true := by
      rw [hj, step_terminated host R _ rfl]; rfl
    refine Or.inl ⟨hnone, ?_⟩
    rw [step_fs_of_late host R hf₂ (Or.inl hdead), step_fs_of_late host R hf₁ (Or.inl (by rw [hj]; rfl)), hfs₁, hj]
  · rw [hj] at hf₁ hfs₁
    rw [hj, hfs₁] at hfs₂ hf₂
    obtain ⟨hsave, hlate⟩ := evaluated_saves host R (f := { f with stage := .evaluated sc ev }) rfl hid hdir ha
    refine Or.inr ⟨ev, he, ?_⟩
    rw [step_fs_of_late host R hf₂, hfs₂]
    · exact hsave
    · rcases hlate with hj' | hj'
      · exact Or.inr ⟨sc, ev, hj'⟩
      · exact Or.inl (by rw [hj']; rfl)

/-- A call that is served alone and replies: the environments it starts and
finishes in, and what it leaves. -/
theorem serve_call_replied {s : Sessions V} {k : Nat} (hk : s.forks k = none) (hid : c.instance_id = some x)
    (hf : (run (Sessions.step host R) s (serve_call k c)).forks k = some f) (hrep : f.stage.reply.isSome = true) :
    ∃ sc ev out sent, f.stage = .replied sc ev out sent ∧
      Attaches s.genv (create_session_dir s.fs (session_components [] (some x))) x sc ∧
      evaluate_call R c.func_name c.string_args sc = some ev ∧
      saved_session (run (Sessions.step host R) s (serve_call k c)).fs (session_components [] (some x)) =
        some (.rdata ev.scope.genv) := by
  have h : Alone R s.genv (create_session_dir s.fs (session_components [] (some x))) x c k
      (run (Sessions.step host R) (s.step host R (.call k c [])) (List.replicate 4 (.step k))) :=
    run_inv (G := fun _ e => e = .step k) (fun s e h he => he ▸ alone_step host R hid h) (alone_call host R hk hid)
      (along_of_mem fun e he _ => List.eq_of_mem_replicate he)
  obtain ⟨f', hf', -, -, -, hu⟩ := h
  obtain rfl : f = f' := Option.some.inj (hf.symm.trans hf')
  cases hst : f.stage with
  | replied sc ev out sent =>
    rw [hst] at hu
    exact ⟨sc, ev, out, sent, rfl, hu.1, hu.2.1, hu.2.2⟩
  | _ => rw [hst] at hrep; cases hrep

end

/-! ## Calls sent one after the other -/

section
variable {V : Type} (host : Host) (R : RLib V) (genv : Env V) (fs : FS V) (calls : Nat → VrpcCall)

def served_calls (n : Nat) : Sessions V :=
  run (Sessions.step host R) ⟨genv, fs, fun _ => none⟩ (serve calls (List.range n))

def attached_call (n : Nat) : Sessions V := ((served_calls host R genv fs calls n).call n (calls n) []).step host R (.step n)

def starts (n : Nat) : Option (Env V) := ((attached_call host R genv fs calls n).forks n).bind (·.stage.started)

def finishes (n : Nat) : Option (Env V) := ((served_calls host R genv fs calls (n + 1)).forks n).bind (·.stage.finished)

def Replied (n : Nat) : Prop :=
  ∃ f, (served_calls host R genv fs calls (n + 1)).forks n = some f ∧ f.stage.reply.isSome = true

def call_result (n : Nat) (env : Env V) : Env V :=
  ((evaluate_call R (calls n).func_name (calls n).string_args ⟨none, env⟩).map (·.scope.genv)).getD env

def first_env (x : Str) : Env V :=
  ((load genv (saved_session (create_session_dir fs (session_components [] (some x))) (session_components [] (some x)))).map
    (·.genv)).getD genv

theorem served_calls_succ (n : Nat) : served_calls host R genv fs calls (n + 1) =
    run (Sessions.step host R) (served_calls host R genv fs calls n) (serve_call n (calls n)) := by
  simp only [served_calls, List.range_succ, serve, List.flatMap_append, run_append, List.flatMap_singleton]

theorem served_calls_forks {n k : Nat} (h : n ≤ k) : (served_calls host R genv fs calls n).forks k = none :=
  run_forks_of_ne host R (fun e he hke => by
    obtain ⟨k', hk', he⟩ := List.mem_flatMap.mp he
    rw [serve_call_fork he] at hke
    have := List.mem_range.mp hk'
    omega) _

variable {x : Str} (hid : ∀ k, (calls k).instance_id = some x)
include hid

theorem attached_call_of {n : Nat} {sc : Scope V} (h : Attaches genv
    (create_session_dir (served_calls host R genv fs calls n).fs (session_components [] (some x))) x sc) :
    (attached_call host R genv fs calls n).forks n = some ⟨calls n, session_components [] (some x), genv, .attached sc⟩ ∧
      (attached_call host R genv fs calls n).fs =
        create_session_dir (served_calls host R genv fs calls n).fs (session_components [] (some x)) := by
  have hk := served_calls_forks host R genv fs calls (Nat.le_refl n)
  have hg : (served_calls host R genv fs calls n).genv = genv := run_genv host R _ _
  obtain ⟨cwd, hw, hl⟩ := h
  have hj : json_call_step host R (create_session_dir (served_calls host R genv fs calls n).fs
      (session_components [] (some x))) ⟨calls n, session_components [] (some x), genv, .forked⟩ =
      (create_session_dir (served_calls host R genv fs calls n).fs (session_components [] (some x)), .attached sc) := by
    simp only [json_call_step, hw, hid n, attach_session_some, hl]
  have hf : ((served_calls host R genv fs calls n).call n (calls n) []).forks n =
      some ⟨calls n, session_components [] (some x), genv, .forked⟩ := by
    simp only [Sessions.call, hk, hid n, update_self, hg]
  have hfs : ((served_calls host R genv fs calls n).call n (calls n) []).fs =
      create_session_dir (served_calls host R genv fs calls n).fs (session_components [] (some x)) := by
    simp only [Sessions.call, hk, hid n]
  obtain ⟨hfs', hf'⟩ := step_at host R hf
  rw [hfs, hj] at hfs' hf'
  exact ⟨hf', hfs'⟩

theorem starts_eq {n : Nat} (sc : Scope V) (h : Attaches genv
    (create_session_dir (served_calls host R genv fs calls n).fs (session_components [] (some x))) x sc) :
    starts host R genv fs calls n = some sc.genv := by
  rw [starts, (attached_call_of host R genv fs calls hid h).1]; rfl

theorem alone_attached (n : Nat) : Alone R genv (create_session_dir (served_calls host R genv fs calls n).fs
    (session_components [] (some x))) x (calls n) n (attached_call host R genv fs calls n) := by
  have hg : (served_calls host R genv fs calls n).genv = genv := run_genv host R _ _
  have h := alone_call host R (served_calls_forks host R genv fs calls (Nat.le_refl n)) (hid n)
  rw [hg] at h
  exact alone_step host R (hid n) h

theorem starts_iff {n : Nat} {env : Env V} : starts host R genv fs calls n = some env ↔ Attaches genv
    (create_session_dir (served_calls host R genv fs calls n).fs (session_components [] (some x))) x ⟨none, env⟩ := by
  constructor
  · intro h
    obtain ⟨f, hf, -, -, -, hu⟩ := alone_attached host R genv fs calls hid n
    rw [starts, hf, Option.bind_some] at h
    have hstage : ∃ sc, sc.genv = env ∧ Attaches genv
        (create_session_dir (served_calls host R genv fs calls n).fs (session_components [] (some x))) x sc := by
      cases hst : f.stage with
      | attached sc => rw [hst] at h hu; exact ⟨sc, Option.some.inj h, hu.2⟩
      | evaluated sc ev => rw [hst] at h hu; exact ⟨sc, Option.some.inj h, hu.2.1⟩
      | saved sc ev => rw [hst] at h hu; exact ⟨sc, Option.some.inj h, hu.1⟩
      | replied sc ev out sent => rw [hst] at h hu; exact ⟨sc, Option.some.inj h, hu.1⟩
      | _ => rw [hst] at h; cases h
    obtain ⟨sc, rfl, cwd, hw, hl⟩ := hstage
    rw [load_scope hl] at hl
    exact ⟨cwd, hw, hl⟩
  · intro h
    exact starts_eq host R genv fs calls hid _ h

theorem served_call {n : Nat} {env : Env V} (hs : starts host R genv fs calls n = some env) :
    evaluate_call R (calls n).func_name (calls n).string_args ⟨none, env⟩ = none ∧
        saved_session (served_calls host R genv fs calls (n + 1)).fs (session_components [] (some x)) =
          saved_session (create_session_dir (served_calls host R genv fs calls n).fs (session_components [] (some x)))
            (session_components [] (some x)) ∨
      ∃ ev, evaluate_call R (calls n).func_name (calls n).string_args ⟨none, env⟩ = some ev ∧
        saved_session (served_calls host R genv fs calls (n + 1)).fs (session_components [] (some x)) =
          some (.rdata ev.scope.genv) := by
  obtain ⟨hf, hfs⟩ := attached_call_of host R genv fs calls hid ((starts_iff host R genv fs calls hid).mp hs)
  have hrun : served_calls host R genv fs calls (n + 1) =
      run (Sessions.step host R) (attached_call host R genv fs calls n) (List.replicate 3 (.step n)) := by
    rw [served_calls_succ]; rfl
  rw [hrun, ← hfs]
  rcases serve_attached host R (hid n) (alone_attached host R genv fs calls hid n) hf rfl with ⟨hnone, hsame⟩ | h
  · exact Or.inl ⟨hnone, by rw [hsame]⟩
  · exact Or.inr h

theorem starts_of_saved {n : Nat} {env : Env V}
    (h : saved_session (served_calls host R genv fs calls n).fs (session_components [] (some x)) = some (.rdata env)) :
    starts host R genv fs calls n = some (overlay env genv) := by
  obtain ⟨cwd, hw, hv⟩ := Option.bind_eq_some_iff.mp h
  refine starts_eq host R genv fs calls hid ⟨none, overlay env genv⟩ ⟨cwd, ?_, ?_⟩
  · rw [create_session_dir_of_walk hw, hw]
  · rw [create_session_dir_of_walk hw, hv]; rfl

theorem replied_call {n : Nat} (hr : Replied host R genv fs calls n) : ∃ f env ev out sent,
    (served_calls host R genv fs calls (n + 1)).forks n = some f ∧ f.stage = .replied ⟨none, env⟩ ev out sent ∧
      starts host R genv fs calls n = some env ∧
      evaluate_call R (calls n).func_name (calls n).string_args ⟨none, env⟩ = some ev ∧
      saved_session (served_calls host R genv fs calls (n + 1)).fs (session_components [] (some x)) =
        some (.rdata ev.scope.genv) := by
  obtain ⟨f, hf, hrep⟩ := hr
  have hg : (served_calls host R genv fs calls n).genv = genv := run_genv host R _ _
  have hf' := hf
  rw [served_calls_succ] at hf'
  obtain ⟨sc, ev, out, sent, hst, ha, he, hsave⟩ := serve_call_replied host R
    (served_calls_forks host R genv fs calls (Nat.le_refl n)) (hid n) hf' hrep
  rw [hg] at ha
  have hsc : sc = ⟨none, sc.genv⟩ := by
    obtain ⟨cwd, -, hl⟩ := ha
    exact load_scope hl
  refine ⟨f, sc.genv, ev, out, sent, hf, by rw [hst, ← hsc], starts_eq host R genv fs calls hid sc ha, by rw [← hsc, he], ?_⟩
  rw [served_calls_succ]; exact hsave

theorem finishes_of_replied {n : Nat} (hr : Replied host R genv fs calls n) : ∃ env,
    starts host R genv fs calls n = some env ∧ finishes host R genv fs calls n = some (call_result R calls n env) ∧
      saved_session (served_calls host R genv fs calls (n + 1)).fs (session_components [] (some x)) =
        some (.rdata (call_result R calls n env)) := by
  obtain ⟨f, env, ev, out, sent, hf, hst, hs, he, hsave⟩ := replied_call host R genv fs calls hid hr
  have hres : call_result R calls n env = ev.scope.genv := by
    rw [call_result, he]; rfl
  refine ⟨env, hs, ?_, by rw [hres]; exact hsave⟩
  rw [finishes, hf, Option.bind_some, hst, hres]; rfl

theorem starts_overlaid {N : Nat} (hr : ∀ n < N, Replied host R genv fs calls n) {n : Nat} (hN : 0 < N) (hn : n ≤ N) :
    starts host R genv fs calls n =
      some (overlaid (call_result R calls) (first_env genv fs x) genv n) := by
  induction n with
  | zero =>
    obtain ⟨f, hf, hrep⟩ := hr 0 hN
    obtain ⟨sc, ev, out, sent, -, ⟨cwd, hw, hl⟩, -⟩ :=
      serve_call_replied host R (served_calls_forks host R genv fs calls (Nat.le_refl 0))
      (hid 0) (by rw [← served_calls_succ]; exact hf) hrep
    rw [starts_eq host R genv fs calls hid sc ⟨cwd, hw, hl⟩, overlaid, first_env, saved_session]
    have hw' : walk (create_session_dir fs (session_components [] (some x))) [] (session_components [] (some x)) =
      some cwd := hw
    have hl' : load genv (create_session_dir fs (session_components [] (some x)) (cwd ++ [lit ".RData"])) = some sc := hl
    rw [hw', Option.bind_some, hl']; rfl
  | succ n ih =>
    obtain ⟨env, hs, -, hsave⟩ := finishes_of_replied host R genv fs calls hid (hr n hn)
    obtain rfl : env = _ := Option.some.inj (hs.symm.trans (ih (Nat.le_of_succ_le hn)))
    exact starts_of_saved host R genv fs calls hid hsave

/-- **Sessions persist.** Every call starts in the environment that the one before
it finished in exactly when no call loses a name bound by the agent. -/
theorem session_persists_iff (N : Nat) (hr : ∀ n < N, Replied host R genv fs calls n) :
    (∀ n < N, starts host R genv fs calls (n + 1) = finishes host R genv fs calls n) ↔
      ∀ n < N, Covers (states (call_result R calls) (first_env genv fs x) (n + 1)) genv := by
  rw [← overlaid_eq_iff]
  refine forall_congr' fun n => forall_congr' fun hn => ?_
  have hN : 0 < N := Nat.zero_lt_of_lt hn
  obtain ⟨env, hs, hf, -⟩ := finishes_of_replied host R genv fs calls hid (hr n hn)
  rw [starts_overlaid host R genv fs calls hid hr hN (Nat.le_of_lt hn)] at hs
  obtain rfl := Option.some.inj hs
  rw [starts_overlaid host R genv fs calls hid hr hN hn, hf, Option.some_inj]

end

/-! ## A name that comes back -/

def bound_g : Env Str := update (fun _ => none) (lit "g") (some (lit "0"))

def call_on_x (function : Str) (args : List Str) : VrpcCall :=
  ⟨function, strings args, 0, some (lit "x"),
    { Agent.new with awaited_callbacks := fun _ => some (.object [(lit "s", .string (lit "t"))]) }⟩

def overwrites (_ : Nat) : VrpcCall := call_on_x (lit "assign") [lit "g", lit "1"]

theorem session_persists_overwrites :
    starts (small_host []) small_R bound_g (fun _ => none) overwrites 1 =
        finishes (small_host []) small_R bound_g (fun _ => none) overwrites 0 ∧
      starts (small_host []) small_R bound_g (fun _ => none) overwrites 2 =
        finishes (small_host []) small_R bound_g (fun _ => none) overwrites 1 := by
  have hr : ∀ n < 2, Replied (small_host []) small_R bound_g (fun _ => none) overwrites n := by
    intro n hn
    have h : ∀ n < 2, ((served_calls (small_host []) small_R bound_g (fun _ => none) overwrites (n + 1)).forks n).any
        (·.stage.reply.isSome) = true := by decide +kernel
    exact (Option.any_eq_true _ _).mp (h n hn)
  have hc : ∀ n < 2, Covers (states (call_result small_R overwrites)
      (first_env bound_g (fun _ => none) (lit "x")) (n + 1)) bound_g := by
    intro n hn a ha
    have hg : a = lit "g" := by
      by_contra hne
      rw [bound_g, update_of_ne hne] at ha; cases ha
    subst hg
    have h : ∀ n < 2, (states (call_result small_R overwrites) (first_env bound_g (fun _ => none) (lit "x")) (n + 1)
        (lit "g")).isSome = true := by decide +kernel
    exact h n hn
  have h := (session_persists_iff (small_host []) small_R bound_g (fun _ => none) overwrites (fun _ => rfl) 2 hr).mpr hc
  exact ⟨h 0 Nat.two_pos, h 1 Nat.one_lt_two⟩

def removes_first (n : Nat) : VrpcCall :=
  if n = 0 then call_on_x (lit "rm") [lit "g"] else call_on_x (lit "get") [lit "g"]

/-- The name that the first call removes is bound when the second one starts. -/
theorem removed_name_comes_back :
    (∀ n < 1, Replied (small_host []) small_R bound_g (fun _ => none) removes_first n) ∧
      ¬ ∀ n < 1, starts (small_host []) small_R bound_g (fun _ => none) removes_first (n + 1) =
        finishes (small_host []) small_R bound_g (fun _ => none) removes_first n := by
  constructor
  · intro n hn
    have h : ∀ n < 1, ((served_calls (small_host []) small_R bound_g (fun _ => none) removes_first (n + 1)).forks n).any
        (·.stage.reply.isSome) = true := by decide +kernel
    exact (Option.any_eq_true _ _).mp (h n hn)
  · intro h
    have hg := congrArg (Option.map fun env => env (lit "g")) (h 0 Nat.one_pos)
    exact absurd hg (by decide +kernel)

end VrpcAgent

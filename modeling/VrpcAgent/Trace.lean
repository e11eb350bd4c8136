import VrpcAgent.Forks

/-!
# What a run has written, and for which request

An invariant of all runs ties the log, the forks and the deliveries together:
what the handler of a request has written, the call it has handed to R, and
what the fork of that call has written.
-/

namespace VrpcAgent

open Function Effects Runs

@[simp] theorem written_append (l l' : List Entry) (o : Origin) :
    written (l ++ l') o = written l o ++ written l' o := by
  simp [written]

@[simp] theorem written_map_self (l : List Sent) (o : Origin) : written (l.map (⟨o, ·⟩)) o = l := by
  simp [written, List.filter_map, Function.comp_def]

theorem written_map_of_ne {o o' : Origin} (h : o' ≠ o) (l : List Sent) : written (l.map (⟨o', ·⟩)) o = [] := by
  simp [written, List.filter_map, Function.comp_def, h]

theorem mem_written {log : List Entry} {e : Entry} (h : e ∈ log) : e.sent ∈ written log e.origin :=
  List.mem_map.mpr ⟨e, List.mem_filter.mpr ⟨h, by simp⟩, rfl⟩

section
variable {V : Type} (host : Host) (opts : Options) (R : RLib V)

/-! ## What a fork writes -/

theorem sent_step {s : Sessions V} {k : Nat} {f : Fork V} (h : s.forks k = some f) :
    (json_call_step host R s.fs f).2.sent = f.stage.sent ++ s.fork_writes host R k := by
  simp only [Sessions.fork_writes, h]
  cases hs : f.stage with
  | replied sc ev out sent => simp only [json_call_step, hs, Stage.sent, List.append_nil]
  | _ => exact (List.nil_append _).symm

theorem fork_writes_cases (s : Sessions V) (k : Nat) :
    s.fork_writes host R k = [] ∨ ∃ f sc ev out fr, s.forks k = some f ∧ f.stage = .saved sc ev ∧
      fork_reply host f.call out = .ok () fr ∧ s.fork_writes host R k = fr.out := by
  unfold Sessions.fork_writes
  cases hf : s.forks k with
  | none => exact Or.inl rfl
  | some f =>
    simp only
    split
    · exact Or.inl rfl
    · rename_i hnot
      cases hst : (json_call_step host R s.fs f).2 with
      | replied sc ev out sent =>
        rcases json_call_step_replied host R hst with hold | ⟨hsaved, fr, hfr, rfl⟩
        · exact absurd hold (hnot sc ev out sent)
        · exact Or.inr ⟨f, sc, ev, out, fr, rfl, hsaved, hfr, rfl⟩
      | _ => exact Or.inl rfl

theorem fork_writes_replies (s : Sessions V) (k : Nat) : ∀ q ∈ s.fork_writes host R k, IsReply q.packet := by
  intro q hq
  rcases fork_writes_cases host R s k with hw | ⟨f, sc, ev, out, fr, -, -, hfr, hw⟩
  · rw [hw] at hq; cases hq
  · have happends := keeps_appends_on_execution_done host (Q := IsReply) (fun t j => ⟨t, j, rfl⟩) f.call.call_id out _
      (appends_refl IsReply ⟨f.call.memory, .null, [], none⟩)
    rw [← fork_reply, hfr] at happends
    obtain ⟨new, hout, hnew⟩ := happends
    rw [after_ok, List.nil_append] at hout
    rw [hw, hout] at hq
    exact hnew q hq

/-! ## The invariant -/

structure Traced (s : System V) : Prop where
  handler : ∀ k d, s.deliveries k = some d → ∃ mc a,
    d.returned = returns (handled host opts mc d.msg a) ∧
    written s.log (.handler k) = (after (handled host opts mc d.msg a)).out ∧
    (s.sessions.forks k).map (·.call) = (after (handled host opts mc d.msg a)).call
  idle : ∀ k, s.deliveries k = none → s.sessions.forks k = none ∧ written s.log (.handler k) = []
  fork : ∀ k, written s.log (.fork k) = match s.sessions.forks k with
    | none => []
    | some f => f.stage.sent
  replied : ∀ k f sc ev out sent, s.sessions.forks k = some f → f.stage = .replied sc ev out sent →
    ∃ fr, fork_reply host f.call out = .ok () fr ∧ sent = fr.out

structure Fresh (s : System V) : Prop where
  deliveries : ∀ k, s.deliveries k = none
  forks : ∀ k, s.sessions.forks k = none
  log : ∀ e ∈ s.log, e.origin = .connack

theorem fresh_start (genv : Env V) (fs : FS V) : Fresh (System.start host opts genv fs) where
  deliveries _ := rfl
  forks _ := rfl
  log e he := by
    obtain ⟨x, -, rfl⟩ := List.mem_map.mp he
    rfl

theorem Fresh.written_eq_nil {s : System V} (h : Fresh s) {o : Origin} (ho : o ≠ .connack) :
    written s.log o = [] := by
  rw [written, List.filter_eq_nil_iff.mpr, List.map_nil]
  intro e he
  simp [h.log e he, ho.symm]

theorem Fresh.traced {s : System V} (h : Fresh s) : Traced host opts s where
  handler k d hd := by rw [h.deliveries k] at hd; cases hd
  idle k _ := ⟨h.forks k, h.written_eq_nil (by simp)⟩
  fork k := by rw [h.forks k]; exact h.written_eq_nil (by simp)
  replied k f sc ev out sent hf := by rw [h.forks k] at hf; cases hf

theorem start_forks {s : Sessions V} {k : Nat} (h : s.forks k = none) (c : Option VrpcCall) (tmp : Str) (k' : Nat) :
    (s.start k tmp c).forks k' =
      if k' = k then c.map fun c => ⟨c, session_components tmp c.instance_id, s.genv, .forked⟩ else s.forks k' := by
  cases c with
  | none =>
    by_cases hk : k' = k
    · subst hk; simp [Sessions.start, h]
    · simp [Sessions.start, hk]
  | some c =>
    simp only [Sessions.start, Sessions.call, h, Option.map_some]
    by_cases hk : k' = k
    · subst hk; simp
    · simp [hk]

theorem traced_deliver {s : System V} (h : Traced host opts s) {k : Nat} (hk : s.deliveries k = none) (m : Msg)
    (mc : Except Str Unit) (tmp : Str) : Traced host opts (s.deliver host opts k m mc tmp) := by
  obtain ⟨hfork, hlog⟩ := h.idle k hk
  have forks := start_forks hfork (after (handled host opts mc m s.agent)).call tmp
  constructor
  · intro k' d hd
    simp only [System.deliver] at hd ⊢
    rcases PartialMap.update_eq_some_iff.mp hd with ⟨rfl, rfl⟩ | ⟨hkk, hd⟩
    · refine ⟨mc, s.agent, rfl, by simp [hlog], ?_⟩
      rw [forks, if_pos rfl, Option.map_map]
      exact Option.map_id' ..
    · obtain ⟨mc', a', hr, hw, hc⟩ := h.handler k' d hd
      refine ⟨mc', a', hr, ?_, by rw [forks, if_neg hkk]; exact hc⟩
      rw [written_append, written_map_of_ne (by simpa using Ne.symm hkk), List.append_nil, hw]
  · intro k' hk'
    simp only [System.deliver] at hk' ⊢
    obtain ⟨hkk, hk'⟩ := PartialMap.update_eq_none_iff.mp hk'
    obtain ⟨hf, hw⟩ := h.idle k' hk'
    rw [forks, if_neg hkk, written_append, written_map_of_ne (by simpa using Ne.symm hkk), hw]
    exact ⟨hf, rfl⟩
  · intro k'
    simp only [System.deliver]
    rw [written_append, written_map_of_ne (by simp), List.append_nil, h.fork k', forks]
    by_cases hkk : k' = k
    · subst hkk
      rw [hfork, if_pos rfl]
      cases (after (handled host opts mc m s.agent)).call <;> rfl
    · rw [if_neg hkk]
  · intro k' f sc ev out sent hf hst
    simp only [System.deliver, forks] at hf
    by_cases hkk : k' = k
    · subst hkk
      rw [if_pos rfl, Option.map_eq_some_iff] at hf
      obtain ⟨c, -, rfl⟩ := hf
      cases hst
    · rw [if_neg hkk] at hf
      exact h.replied k' f sc ev out sent hf hst

theorem step_deliver {s : System V} (hrun : s.running = true) {k : Nat} (hk : s.deliveries k = none) (m : Msg)
    (mc : Except Str Unit) (tmp : Str) : s.step host opts R (.deliver k m mc tmp) = s.deliver host opts k m mc tmp := by
  unfold System.step
  exact if_pos ⟨hrun, Option.isNone_iff_eq_none.mpr hk⟩

theorem Traced.written_deliver {s : System V} (h : Traced host opts s) {k : Nat} (hk : s.deliveries k = none) (m : Msg)
    (mc : Except Str Unit) (tmp : Str) :
    written (s.deliver host opts k m mc tmp).log (.handler k) = (after (handled host opts mc m s.agent)).out := by
  rw [System.deliver, written_append, (h.idle k hk).2, written_map_self, List.nil_append]

theorem traced_fork {s : System V} (h : Traced host opts s) (k : Nat) :
    Traced host opts (s.step host opts R (.step k)) := by
  cases hf : s.sessions.forks k with
  | none =>
    have hs : s.step host opts R (.step k) = s := by
      simp [System.step, Sessions.step, Sessions.fork_writes, hf]
    rw [hs]; exact h
  | some f =>
    have hforks : ∀ k', (s.sessions.step host R (.step k)).forks k' =
        if k' = k then some { f with stage := (json_call_step host R s.sessions.fs f).2 }
        else s.sessions.forks k' := fun k' => by
      rw [step_forks, hf]; rfl
    constructor
    · intro k' d hd
      obtain ⟨mc, a, hr, hw, hc⟩ := h.handler k' d hd
      refine ⟨mc, a, hr, ?_, ?_⟩
      · simp only [System.step]
        rw [written_append, written_map_of_ne (by simp), List.append_nil, hw]
      · simp only [System.step, hforks]
        split
        · rename_i hk; subst hk; rw [← hc, hf]; rfl
        · exact hc
    · intro k' hk'
      obtain ⟨hn, hw⟩ := h.idle k' hk'
      have hkk : k' ≠ k := by
        intro heq
        subst heq
        rw [hf] at hn; cases hn
      simp only [System.step, hforks, if_neg hkk]
      rw [written_append, written_map_of_ne (by simp), hw]
      exact ⟨hn, rfl⟩
    · intro k'
      simp only [System.step, hforks]
      by_cases hkk : k' = k
      · subst hkk
        rw [written_append, written_map_self, h.fork k', hf, if_pos rfl]
        exact (sent_step host R hf).symm
      · rw [written_append, written_map_of_ne (by simpa using Ne.symm hkk), List.append_nil, if_neg hkk, h.fork k']
    · intro k' f' sc ev out sent hf' hst
      simp only [System.step, hforks] at hf'
      split at hf'
      · cases hf'
        rcases json_call_step_replied host R hst with hold | ⟨-, hfr⟩
        · exact h.replied k f sc ev out sent hf hold
        · exact hfr
      · exact h.replied k' f' sc ev out sent hf' hst

theorem traced_step {s : System V} (h : Traced host opts s) (e : Event) : Traced host opts (s.step host opts R e) := by
  cases e with
  | deliver k m mc tmp =>
    simp only [System.step]
    split
    · rename_i hk; exact traced_deliver host opts h (Option.isNone_iff_eq_none.mp hk.2) m mc tmp
    · exact h
  | step k => exact traced_fork host opts R h k
  | ack i =>
    simp only [System.step]
    split
    · exact h
    · split
      · exact ⟨h.handler, h.idle, h.fork, h.replied⟩
      · exact h

theorem run_traced {s : System V} (h : Fresh s) (evs : List Event) :
    Traced host opts (run (System.step host opts R) s evs) :=
  run_inv (P := Traced host opts) (fun _ e h _ => traced_step host opts R h e) (h.traced host opts)
    (along_true s evs)

theorem Traced.fork_call {s : System V} (h : Traced host opts s) {k : Nat} {f : Fork V}
    (hf : s.sessions.forks k = some f) : ∃ d r mc a fn args inst,
      s.deliveries k = some d ∧ request host d.msg = some r ∧ r.action mc = .call fn args inst ∧
        f.call = ⟨fn, args, a.call_id + 1, inst, r.register a⟩ := by
  cases hd : s.deliveries k with
  | none => rw [(h.idle k hd).1] at hf; cases hf
  | some d =>
    obtain ⟨mc, a, -, -, hc⟩ := h.handler k d hd
    rw [hf, Option.map_some] at hc
    obtain ⟨r, fn, args, inst, hr, ha, hcall⟩ := call_of_handled host opts hc.symm
    exact ⟨d, r, mc, a, fn, args, inst, rfl, hr, ha, hcall⟩

theorem Traced.fork_step {s : System V} (h : Traced host opts s) {e : Event} {k : Nat} {f' : Fork V}
    (hf : (s.step host opts R e).sessions.forks k = some f') :
    s.sessions.forks k = some f' ∨
      (∃ m mc tmp c, e = .deliver k m mc tmp ∧ (after (handled host opts mc m s.agent)).call = some c ∧
        f' = ⟨c, session_components tmp c.instance_id, s.sessions.genv, .forked⟩) ∨
      ∃ f, e = .step k ∧ s.sessions.forks k = some f ∧
        f' = { f with stage := (json_call_step host R s.sessions.fs f).2 } := by
  cases e with
  | deliver k' m mc tmp =>
    simp only [System.step] at hf
    split at hf
    · rename_i hk
      simp only [System.deliver, start_forks (h.idle k' (Option.isNone_iff_eq_none.mp hk.2)).1] at hf
      split at hf
      · rename_i hkk
        obtain ⟨c, hc, rfl⟩ := Option.map_eq_some_iff.mp hf
        exact Or.inr (Or.inl ⟨m, mc, tmp, c, by rw [hkk], hc, rfl⟩)
      · exact Or.inl hf
    · exact Or.inl hf
  | step k' =>
    simp only [System.step, step_forks] at hf
    split at hf
    · rename_i hkk
      obtain ⟨f, hf₀, rfl⟩ := Option.map_eq_some_iff.mp hf
      exact Or.inr (Or.inr ⟨f, by rw [hkk], by rw [hkk, hf₀], rfl⟩)
    · exact Or.inl hf
  | ack i =>
    simp only [System.step] at hf
    split at hf
    · exact Or.inl hf
    · split at hf <;> exact Or.inl hf

/-! ## What a fork has computed -/

def Computed (c : VrpcCall) : Stage V → Prop
  | .evaluated sc ev => evaluate_call R c.func_name c.string_args sc = some ev
  | .saved sc ev => evaluate_call R c.func_name c.string_args sc = some ev
  | .replied sc ev out sent => evaluate_call R c.func_name c.string_args sc = some ev ∧
      reply host R c ev = some (out, sent)
  | _ => True

theorem computed_step (fs : FS V) {f : Fork V} (h : Computed host R f.call f.stage) :
    Computed host R f.call (json_call_step host R fs f).2 := by
  cases hst : f.stage with
  | forked => rcases step_forked host R fs hst with ⟨hj, -⟩ | ⟨cwd, sc, -, -, hj⟩ <;> rw [hj] <;> trivial
  | attached sc =>
    rcases step_attached host R fs hst with ⟨-, hj⟩ | ⟨ev, he, hj⟩
    · rw [hj]; trivial
    · rw [hj]; exact he
  | evaluated sc ev =>
    rw [hst] at h
    rcases step_evaluated host R fs hst with ⟨-, hj⟩ | ⟨cwd, -, hj⟩
    · rw [hj]; trivial
    · rw [hj]
      dsimp only
      split
      · exact h
      · trivial
  | saved sc ev =>
    rw [hst] at h
    rcases step_saved host R fs hst with ⟨-, hj⟩ | ⟨out, sent, hr, hj⟩
    · rw [hj]; trivial
    · rw [hj]; exact ⟨h, hr⟩
  | replied => rw [step_terminated host R _ (by rw [hst]; rfl)]; exact h
  | dead => rw [step_terminated host R _ (by rw [hst]; rfl)]; exact h

theorem Traced.computed_step {s : System V} (ht : Traced host opts s) {k : Nat}
    (h : ∀ f, s.sessions.forks k = some f → Computed host R f.call f.stage) (e : Event) :
    ∀ f, (s.step host opts R e).sessions.forks k = some f → Computed host R f.call f.stage := by
  intro f hf
  rcases ht.fork_step host opts R hf with hold | ⟨m, mc, tmp, c, -, -, rfl⟩ | ⟨f', -, hold, rfl⟩
  · exact h f hold
  · trivial
  · exact VrpcAgent.computed_step host R s.sessions.fs (h f' hold)

theorem run_computed {s : System V} (h₀ : Fresh s) (evs : List Event) {k : Nat} {f : Fork V}
    (hf : (run (System.step host opts R) s evs).sessions.forks k = some f) : Computed host R f.call f.stage := by
  have hnone : ∀ f, s.sessions.forks k = some f → Computed host R f.call f.stage := by
    intro f hf
    rw [h₀.forks k] at hf; cases hf
  have hinv := run_inv (P := fun s => Traced host opts s ∧ ∀ f, s.sessions.forks k = some f → Computed host R f.call f.stage)
    (fun s e hs _ => ⟨traced_step host opts R hs.1 e, hs.1.computed_step host opts R hs.2 e⟩)
    ⟨h₀.traced host opts, hnone⟩ (along_true s evs)
  exact hinv.2 f hf

theorem Traced.fork_awaits {s : System V} (h : Traced host opts s) {k : Nat} {f : Fork V}
    (hf : s.sessions.forks k = some f) :
    ∃ r : Request, f.call.memory.awaited_callbacks f.call.call_id = some (.object r.context) := by
  obtain ⟨d, r, mc, a, fn, args, inst, -, -, -, hcall⟩ := h.fork_call host opts hf
  exact ⟨r, by rw [hcall]; exact update_self ..⟩

end

end VrpcAgent

import VrpcAgent.Confinement
import VrpcAgent.Persistence

/-!
# Instances that are created again

Deleting an instance leaves its session directory where it is, and its forks go on. The
first call on the instance that is later created under the same name starts in what the
last call to have saved has evaluated to: that is nothing but the global environment of the
agent exactly when this binds nothing else.
-/

namespace VrpcAgent

open Function Effects Runs PartialMap

section
variable {V : Type} (host : Host) (opts : Options) (R : RLib V)

/-! ## Where a call starts -/

def StartsIn (genv : Env V) (k : Nat) (s : System V) : Prop :=
  ∀ f env, s.sessions.forks k = some f → f.stage.started = some env → env = genv

def FindsWithin (genv : Env V) (x : Str) (k : Nat) (s : System V) (e : Event) : Prop :=
  e = .step k → (∀ f, s.sessions.forks k = some f → f.stage = .forked) →
    ∀ env, saved_session s.sessions.fs (session_components [] (some x)) = some (.rdata env) → Within env genv

theorem step_started {fs : FS V} {f : Fork V} (hst : f.stage ≠ .forked) {env : Env V}
    (h : (json_call_step host R fs f).2.started = some env) : f.stage.started = some env := by
  cases hs : f.stage with
  | forked => exact absurd hs hst
  | attached sc =>
    rcases step_attached host R fs hs with ⟨-, hj⟩ | ⟨ev, -, hj⟩
    · rw [hj] at h; cases h
    · rw [hj] at h; exact h
  | evaluated sc ev =>
    rcases step_evaluated host R fs hs with ⟨-, hj⟩ | ⟨cwd, -, hj⟩
    · rw [hj] at h; cases h
    · rw [hj] at h
      dsimp only at h
      split at h
      · exact h
      · cases h
  | saved sc ev =>
    rcases step_saved host R fs hs with ⟨-, hj⟩ | ⟨out, sent, -, hj⟩
    · rw [hj] at h; cases h
    · rw [hj] at h; exact h
  | replied => rw [step_terminated host R _ (by rw [hs]; rfl), hs] at h; exact h
  | dead => rw [step_terminated host R _ (by rw [hs]; rfl), hs] at h; exact h

theorem step_starts_iff (fs : FS V) {f : Fork V} (hst : f.stage = .forked) {x : Str} (hid : f.call.instance_id = some x)
    (hd : f.session_dir = session_components [] (some x)) :
    (∀ env, (json_call_step host R fs f).2.started = some env → env = f.genv) ↔
      ∀ env, saved_session fs (session_components [] (some x)) = some (.rdata env) → Within env f.genv := by
  rcases step_forked host R fs hst with ⟨hj, hno⟩ | ⟨cwd, sc, hw, ha, hj⟩
  · rw [hj]
    refine iff_of_true (fun env henv => by cases henv) fun env henv => ?_
    obtain ⟨cwd, hw, hv⟩ := Option.bind_eq_some_iff.mp henv
    have := hno cwd (hd ▸ hw)
    rw [hid, attach_session_some, hv] at this
    cases this
  · rw [hid, attach_session_some] at ha
    have hsaved : saved_session fs (session_components [] (some x)) = fs (cwd ++ [lit ".RData"]) := by
      rw [saved_session, ← hd, hw]; rfl
    rw [hj, hsaved]
    cases hv : fs (cwd ++ [lit ".RData"]) with
    | none =>
      rw [hv] at ha; cases ha
      exact iff_of_true (fun env h => by cases h; rfl) fun env h => by cases h
    | some n =>
      cases n with
      | rdata env =>
        rw [hv] at ha; cases ha
        exact ⟨fun h env' h' => by cases h'; exact (overlay_eq_right_iff _ _).mp (h _ rfl),
          fun h env' h' => by cases h'; exact (overlay_eq_right_iff _ _).mpr (h _ rfl)⟩
      | _ => rw [hv] at ha; cases ha

/-! ## Runs -/

def Handles (s : System V) : Event → Prop
  | .deliver k m mc _ => s.running = true ∧ s.deliveries k = none ∧ returns (handled host opts mc m s.agent) = true
  | _ => False

section
variable {genv : Env V} {x : Str} {k : Nat}

structure Calls (genv : Env V) (x : Str) (k : Nat) (s : System V) (f : Fork V) : Prop where
  fork : s.sessions.forks k = some f
  inst : f.call.instance_id = some x
  dir : f.session_dir = session_components [] (some x)
  env : f.genv = genv
  starts : StartsIn genv k s

theorem starts_in_step_iff {s : System V} {f : Fork V} (h : Calls genv x k s f) (e : Event) :
    StartsIn genv k (s.step host opts R e) ↔ FindsWithin genv x k s e := by
  by_cases he : e = .step k
  · subst he
    have hf' : (s.step host opts R (.step k)).sessions.forks k =
        some { f with stage := (json_call_step host R s.sessions.fs f).2 } := by
      show (s.sessions.step host R (.step k)).forks k = _
      rw [step_forks, if_pos rfl, h.fork]; rfl
    by_cases hst : f.stage = .forked
    · have hiff := step_starts_iff host R s.sessions.fs hst h.inst h.dir
      rw [h.env] at hiff
      constructor
      · intro hs _ _ env
        exact hiff.mp (fun env' henv' => hs _ env' hf' henv') env
      · intro hw f' env hff henv
        rw [hf'] at hff; cases hff
        exact hiff.mpr (hw rfl fun f' hf'' => by rw [h.fork] at hf''; cases hf''; exact hst) env henv
    · refine iff_of_true (fun f' env hff henv => ?_) fun _ hall => absurd (hall f h.fork) hst
      rw [hf'] at hff; cases hff
      exact h.starts f env h.fork (step_started host R hst henv)
  · refine iff_of_true (fun f' env hf' henv => ?_) fun h' => absurd h' he
    rw [fork_waits host R opts h.fork he] at hf'
    exact h.starts f' env (h.fork.trans hf') henv

theorem calls_step {s : System V} {f : Fork V} (h : Calls genv x k s f) {e : Event}
    (hs : StartsIn genv k (s.step host opts R e)) : ∃ f', Calls genv x k (s.step host opts R e) f' := by
  by_cases he : e = .step k
  · subst he
    refine ⟨{ f with stage := (json_call_step host R s.sessions.fs f).2 }, ?_, h.inst, h.dir, h.env, hs⟩
    show (s.sessions.step host R (.step k)).forks k = _
    rw [step_forks, if_pos rfl, h.fork]; rfl
  · exact ⟨f, fork_waits host R opts h.fork he, h.inst, h.dir, h.env, hs⟩

theorem run_starts_in_iff : ∀ (evs : List Event) {s : System V} {f : Fork V}, Calls genv x k s f →
    (Along (System.step host opts R) (fun s e => StartsIn genv k (s.step host opts R e)) s evs ↔
      Along (System.step host opts R) (FindsWithin genv x k) s evs)
  | [], _, _, _ => Iff.rfl
  | e :: evs, _, _, h => by
    refine and_congr_right_iff.mpr ?_ |>.trans (and_congr_left' (starts_in_step_iff host opts R h e))
    intro hs
    obtain ⟨f', h'⟩ := calls_step host opts R h hs
    exact run_starts_in_iff evs h'

theorem calls_of_handles {s : System V} (hg : s.sessions.genv = genv) (ht : Traced host opts s) {m : Msg}
    {mc : Except Str Unit} {tmp : Str} (hh : Handles host opts s (.deliver k m mc tmp))
    (hc : called host (.deliver k m mc tmp) = some x) : ∃ f, Calls genv x k (s.step host opts R (.deliver k m mc tmp)) f := by
  obtain ⟨hrun, hd, -⟩ := hh
  obtain ⟨r, hr, hact⟩ : ∃ r, request host m = some r ∧ ∃ fn args, r.action mc = .call fn args (some x) := by
    simp only [called] at hc
    split at hc
    · rename_i fn args inst hm
      obtain ⟨r, hr, ha⟩ := Option.map_eq_some_iff.mp hm
      exact ⟨r, hr, fn, args, by rw [ha, hc]⟩
    · cases hc
  obtain ⟨fn, args, ha⟩ := hact
  have hfork : (s.step host opts R (.deliver k m mc tmp)).sessions.forks k =
      some ⟨⟨fn, args, s.agent.call_id + 1, some x, r.register s.agent⟩, session_components tmp (some x), genv, .forked⟩ := by
    rw [System.step, if_pos ⟨hrun, by rw [hd]; rfl⟩]
    simp only [System.deliver, handled_call host opts hr ha]
    rw [start_forks (ht.idle k hd).1, if_pos rfl, hg]; rfl
  refine ⟨_, hfork, rfl, rfl, rfl, fun f env hf henv => ?_⟩
  rw [hfork] at hf; cases hf; cases henv

end

/-! ## The last call to have saved -/

/-- The fork on `x` that the event makes write `.RData`, and what it has evaluated. -/
def saves (x : Str) (s : System V) : Event → Option (Nat × Evaluation V)
  | .step j =>
    match s.sessions.forks j with
    | none => none
    | some f =>
      match f.stage, walk s.sessions.fs [] f.session_dir with
      | .evaluated _ ev, some cwd =>
        if f.call.instance_id = some x ∧ Node.isDir (s.sessions.fs (cwd ++ [lit ".RData"])) = false then some (j, ev)
        else none
      | _, _ => none
  | _ => none

def last_saved (x : Str) : System V → List Event → Option (Nat × Evaluation V)
  | _, [] => none
  | s, e :: evs => (last_saved x (s.step host opts R e) evs).or (saves x s e)

theorem last_saved_append (x : Str) : ∀ (l l' : List Event) (s : System V), last_saved host opts R x s (l ++ l') =
    (last_saved host opts R x (run (System.step host opts R) s l) l').or (last_saved host opts R x s l)
  | [], _, _ => by rw [last_saved, Option.or_none]; rfl
  | e :: l, l', s => by
    rw [List.cons_append, last_saved, last_saved, last_saved_append x l l', run_cons, Option.or_assoc]

section
variable {x : Str} {s : System V} {j : Nat} {ev : Evaluation V}

theorem saves_spec {e : Event} (h : saves x s e = some (j, ev)) : e = .step j ∧ ∃ f sc cwd, s.sessions.forks j = some f ∧
    f.stage = .evaluated sc ev ∧ walk s.sessions.fs [] f.session_dir = some cwd ∧ f.call.instance_id = some x ∧
      Node.isDir (s.sessions.fs (cwd ++ [lit ".RData"])) = false := by
  cases e with
  | step j' =>
    simp only [saves] at h
    split at h
    · cases h
    · rename_i f hf
      split at h
      · rename_i sc ev' cwd hst hw
        split at h
        · rename_i hx
          cases h
          exact ⟨rfl, f, sc, cwd, hf, hst, hw, hx.1, hx.2⟩
        · cases h
      · cases h
  | _ => cases h

theorem saves_evaluated {f : Fork V} (hf : s.sessions.forks j = some f) {sc : Scope V} (hst : f.stage = .evaluated sc ev)
    {cwd : Path} (hw : walk s.sessions.fs [] f.session_dir = some cwd) (hid : f.call.instance_id = some x)
    (hd : Node.isDir (s.sessions.fs (cwd ++ [lit ".RData"])) = false) : saves x s (.step j) = some (j, ev) := by
  simp only [saves, hf, hst, hw, hid, hd, and_self, if_true]

/-- The `.RData` of `x` is what the last call has saved, and nothing before the first. -/
structure Remembers (x : Str) (s : System V) (last : Option (Nat × Evaluation V)) : Prop where
  confined : Confined Level (fun _ => none) s.sessions
  unsaved : last = none → ∀ env, s.sessions.fs (home x ++ [lit ".RData"]) ≠ some (.rdata env)
  saved : ∀ j ev, last = some (j, ev) → s.sessions.fs (home x ++ [lit ".RData"]) = some (.rdata ev.scope.genv) ∧
    (∀ p ∈ visits [] (session_components [] (some x)), s.sessions.fs p = some .dir) ∧
      ∃ f, s.sessions.forks j = some f ∧ f.call.instance_id = some x ∧ f.stage ≠ .forked

theorem Touched.dir {U : Str → Prop} {p : Path} {n : Option (Node V)} (h : Touched U p (some .dir) n) : n = some .dir := by
  cases h with
  | same => rfl
  | written hf hd hn => cases hd

/-- A step of a fork that does not save the session of `x` leaves its `.RData` alone. -/
theorem rdata_kept (hx : Level x) (h : Confined Level (fun _ => none) s.sessions) (hs : saves x s (.step j) = none)
    {f : Fork V} (hf : s.sessions.forks j = some f) :
    (json_call_step host R s.sessions.fs f).1 (home x ++ [lit ".RData"]) = s.sessions.fs (home x ++ [lit ".RData"]) := by
  rcases json_call_writes host R s.sessions.fs f with hj | ⟨sc, ev, cwd, hst, hw, hj⟩
  · rw [hj]
  · rw [hj]
    cases hid : f.call.instance_id with
    | none => rfl
    | some y =>
      obtain rfl := h.home hf hw hid
      by_cases hyx : y = x
      · subst hyx
        rw [save_session_rdata]
        split
        · rfl
        · rename_i hd
          rw [saves_evaluated hf hst hw hid (by simpa using hd)] at hs
          cases hs
      · refine save_session_of_ne (fun g _ hp => hyx ?_) _ _
        exact (home_injective hx (h.names j f y hf hid) (List.append_inj' hp rfl).1).symm

theorem dir_kept (h : Confined Level (fun _ => none) s.sessions) {j : Nat} {f : Fork V} (hf : s.sessions.forks j = some f)
    {p : Path} (hd : s.sessions.fs p = some .dir) : (json_call_step host R s.sessions.fs f).1 p = some .dir := by
  have htouch := h.json_call host R hf p
  rw [hd] at htouch
  exact htouch.dir

/-- A fork leaves its first stage with its step, and does not come back to it. -/
theorem fork_started {j : Nat} {f : Fork V} (hf : s.sessions.forks j = some f) {k : Nat} {g : Fork V}
    (hg : s.sessions.forks k = some g) (hst : k ≠ j → g.stage ≠ .forked) :
    ∃ g', (s.step host opts R (.step j)).sessions.forks k = some g' ∧ g'.call.instance_id = g.call.instance_id ∧
      g'.stage ≠ .forked := by
  by_cases hkj : k = j
  · subst hkj
    obtain rfl := Option.some.inj (hf.symm.trans hg)
    exact ⟨_, (step_at host R hf).2, rfl, json_call_step_left_forked host R s.sessions.fs f⟩
  · exact ⟨g, fork_waits host R opts hg fun heq => hkj (Event.step.inj heq).symm, rfl, hst hkj⟩

theorem remembers_fork (hx : Level x) {last : Option (Nat × Evaluation V)} (h : Remembers x s last) (j : Nat) :
    Remembers x (s.step host opts R (.step j)) ((saves x s (.step j)).or last) := by
  have hconf : Confined Level (fun _ => none) (s.step host opts R (.step j)).sessions := h.confined.step host R j
  cases hf : s.sessions.forks j with
  | none =>
    have hsame : (s.step host opts R (.step j)).sessions = s.sessions := by simp only [System.step, Sessions.step, hf]
    have hnone : saves x s (.step j) = none := by simp only [saves, hf]
    rw [hnone, Option.none_or]
    exact ⟨hconf, fun hl => hsame ▸ h.unsaved hl, fun j' ev hl => hsame ▸ h.saved j' ev hl⟩
  | some f =>
    have hfs : (s.step host opts R (.step j)).sessions.fs = (json_call_step host R s.sessions.fs f).1 := (step_at host R hf).1
    cases hs : saves x s (.step j) with
    | none =>
      rw [Option.none_or]
      have hkept := rdata_kept host R hx h.confined hs hf
      refine ⟨hconf, fun hl env => ?_, fun j' ev hl => ?_⟩
      · rw [hfs, hkept]
        exact h.unsaved hl env
      · obtain ⟨hrd, hdirs, f', hf', hid, hst⟩ := h.saved j' ev hl
        obtain ⟨f'', hf'', hid'', hst''⟩ := fork_started host opts R hf hf' fun _ => hst
        refine ⟨by rw [hfs, hkept, hrd], fun p hp => ?_, f'', hf'', hid''.trans hid, hst''⟩
        rw [hfs, dir_kept host R h.confined hf (hdirs p hp)]
    | some q =>
      obtain ⟨j', ev⟩ := q
      obtain ⟨heq, f', sc, cwd, hf', hst, hw, hid, hd⟩ := saves_spec hs
      obtain rfl := Event.step.inj heq
      obtain rfl := Option.some.inj (hf.symm.trans hf')
      obtain rfl := h.confined.home hf hw hid
      rw [Option.some_or]
      refine ⟨hconf, fun hl => (by cases hl), fun j' ev' hl => ?_⟩
      cases hl
      rcases step_evaluated host R s.sessions.fs hst with ⟨hnone, -⟩ | ⟨cwd', hw', hj⟩
      · rw [hw] at hnone; cases hnone
      · obtain rfl := Option.some.inj (hw.symm.trans hw')
        obtain ⟨f'', hf'', hid'', hst''⟩ := fork_started host opts R hf hf fun hne => absurd rfl hne
        refine ⟨?_, fun p hp => ?_, f'', hf'', hid''.trans hid, hst''⟩
        · rw [hfs, hj, hid, save_session_rdata, hd]
          rfl
        · have hdir : s.sessions.fs p = some .dir := by
            obtain ⟨tmp, hsd⟩ := h.confined.sound.dir j f hf
            rw [hid] at hsd
            exact visits_of_walk (by rw [hsd] at hw; exact Option.isSome_of_eq_some hw) p hp
          rw [hfs, dir_kept host R h.confined hf hdir]

theorem remembers_deliver {last : Option (Nat × Evaluation V)} (h : Remembers x s last) (k : Nat) (m : Msg)
    (mc : Except Str Unit) (tmp : Str) : Remembers x (s.step host opts R (.deliver k m mc tmp)) last := by
  have hconf : Confined Level (fun _ => none) (s.step host opts R (.deliver k m mc tmp)).sessions :=
    confined_step host opts R (fun _ hy => hy) h.confined fun y hy => level_of_called host hy
  have hforks : ∀ j f, s.sessions.forks j = some f → (s.step host opts R (.deliver k m mc tmp)).sessions.forks j = some f :=
    fun j f hf => fork_waits host R opts hf (fun heq => by cases heq)
  have hfs : (s.step host opts R (.deliver k m mc tmp)).sessions.fs = s.sessions.fs ∨ ∃ cs,
      (s.step host opts R (.deliver k m mc tmp)).sessions.fs = create_session_dir s.sessions.fs cs := by
    simp only [System.step]
    split
    · simp only [System.deliver]
      cases (after (handled host opts mc m s.agent)).call with
      | none => exact Or.inl rfl
      | some c =>
        simp only [Sessions.start, Sessions.call]
        split
        · exact Or.inl rfl
        · exact Or.inr ⟨_, rfl⟩
    · exact Or.inl rfl
  have hnode : ∀ p, (s.step host opts R (.deliver k m mc tmp)).sessions.fs p = s.sessions.fs p ∨
      s.sessions.fs p = none ∧ (s.step host opts R (.deliver k m mc tmp)).sessions.fs p = some .dir := by
    intro p
    rcases hfs with hsame | ⟨cs, hcs⟩
    · exact Or.inl (by rw [hsame])
    · rw [hcs]
      exact (create_session_dir_cases s.sessions.fs cs p).imp_right fun hmade => hmade.2
  refine ⟨hconf, fun hl env => ?_, fun j ev hl => ?_⟩
  · rcases hnode (home x ++ [lit ".RData"]) with hsame | ⟨-, hdir⟩
    · rw [hsame]; exact h.unsaved hl env
    · rw [hdir]; simp
  · obtain ⟨hrd, hdirs, f, hf, hid, hst⟩ := h.saved j ev hl
    refine ⟨?_, fun p hp => ?_, f, hforks j f hf, hid, hst⟩
    · rcases hnode (home x ++ [lit ".RData"]) with hsame | ⟨hnone, -⟩
      · rw [hsame, hrd]
      · rw [hrd] at hnone; cases hnone
    · rcases hnode p with hsame | ⟨hnone, -⟩
      · rw [hsame, hdirs p hp]
      · rw [hdirs p hp] at hnone; cases hnone

theorem remembers_step (hx : Level x) {last : Option (Nat × Evaluation V)} (h : Remembers x s last) (e : Event) :
    Remembers x (s.step host opts R e) ((saves x s e).or last) := by
  cases e with
  | deliver k m mc tmp => exact remembers_deliver host opts R h k m mc tmp
  | step j => exact remembers_fork host opts R hx h j
  | ack i =>
    have hsame : (s.step host opts R (.ack i)).sessions = s.sessions := by
      simp only [System.step]
      split
      · rfl
      · split <;> rfl
    show Remembers x _ last
    exact ⟨hsame ▸ h.confined, hsame ▸ h.unsaved, hsame ▸ h.saved⟩

theorem run_remembers (hx : Level x) (genv : Env V) (evs : List Event) :
    Remembers x (reached host opts R genv (fun _ => none) evs)
      (last_saved host opts R x (System.start host opts genv fun _ => none) evs) := by
  induction evs using List.reverseRecOn with
  | nil => exact ⟨⟨⟨nofun, nofun⟩, nofun, fun p => .same _⟩, fun _ env h => (by cases h), fun j ev h => (by cases h)⟩
  | append_singleton evs e ih =>
    rw [reached, run_concat, last_saved_append]
    exact remembers_step host opts R hx ih e

/-- What the fork of a call finds is what the last call has saved. -/
theorem finds_iff {genv : Env V} {last : Option (Nat × Evaluation V)} (h : Remembers x s last) :
    (∀ env, saved_session s.sessions.fs (session_components [] (some x)) = some (.rdata env) → Within env genv) ↔
      ∀ j ev, last = some (j, ev) → Within ev.scope.genv genv := by
  cases last with
  | none =>
    refine iff_of_true (fun env henv => ?_) fun j ev hl => by cases hl
    exact absurd (rdata_of_saved_session henv) (h.unsaved rfl env)
  | some q =>
    obtain ⟨j, ev⟩ := q
    obtain ⟨hrd, hdirs, -⟩ := h.saved j ev rfl
    have hsaved : saved_session s.sessions.fs (session_components [] (some x)) = some (.rdata ev.scope.genv) := by
      rw [saved_session, walk_of_visits hdirs]
      exact hrd
    constructor
    · intro h j' ev' hl
      cases hl
      exact h _ hsaved
    · intro h env henv
      rw [hsaved] at henv
      cases henv
      exact h j ev rfl

end

/-! ## The first call on the new instance -/

variable (genv : Env V) (fs : FS V)

/-- `x` is deleted and created again; request `k` is the first call on it from
then on. -/
structure Recreated (x : Str) (k : Nat) (before between since : List Event) (delete create call : Event) : Prop where
  deletes : asked host delete = some (x, false) ∧ Handles host opts (reached host opts R genv fs before) delete
  advertised : x ∈ (reached host opts R genv fs before).agent.instances
  creates : asked host create = some (x, true) ∧
    Handles host opts (reached host opts R genv fs (before ++ delete :: between)) create
  first : ∀ e ∈ since, called host e ≠ some x
  calls : called host call = some x ∧
    Handles host opts (reached host opts R genv fs (before ++ delete :: (between ++ create :: since))) call ∧
    ∃ m mc tmp, call = .deliver k m mc tmp

abbrev recreating (before between since : List Event) (delete create call : Event) : List Event :=
  before ++ delete :: between ++ (create :: (since ++ [call]))

/-- If the last call on `x` to have saved is one of the forks in `P`, it has evaluated to nothing
beyond `genv`. -/
def LeavesWithin (x : Str) (P : Nat → Prop) (evs : List Event) : Prop :=
  ∀ j ev, last_saved host opts R x (System.start host opts genv fun _ => none) evs = some (j, ev) → P j →
    Within ev.scope.genv genv

theorem fork_called {s : System V} (ht : Traced host opts s) {x : Str} {j : Nat} {f : Fork V} : ∀ {evs : List Event},
    (run (System.step host opts R) s evs).sessions.forks j = some f → f.call.instance_id = some x →
      s.sessions.forks j ≠ none ∨ ∃ m mc tmp, .deliver j m mc tmp ∈ evs ∧ called host (.deliver j m mc tmp) = some x := by
  intro evs
  induction evs using List.reverseRecOn generalizing f with
  | nil =>
    intro hf _
    exact Or.inl (by rw [show s.sessions.forks j = some f from hf]; exact Option.some_ne_none f)
  | append_singleton evs e ih =>
    intro hf hid
    rw [run_concat] at hf
    have htr : Traced host opts (run (System.step host opts R) s evs) :=
      run_inv (P := Traced host opts) (fun _ e h _ => traced_step host opts R h e) ht (along_true s evs)
    have hold : ∀ f', (run (System.step host opts R) s evs).sessions.forks j = some f' → f'.call.instance_id = some x →
        s.sessions.forks j ≠ none ∨
          ∃ m mc tmp, .deliver j m mc tmp ∈ evs ++ [e] ∧ called host (.deliver j m mc tmp) = some x := fun f' hf' hid' =>
      (ih hf' hid').imp_right fun ⟨m, mc, tmp, hmem, hc⟩ => ⟨m, mc, tmp, List.mem_append_left _ hmem, hc⟩
    rcases htr.fork_step host opts R hf with hf' | ⟨m, mc, tmp, c, rfl, hc, rfl⟩ | ⟨f', -, hf', rfl⟩
    · exact hold f hf' hid
    · exact Or.inr ⟨m, mc, tmp, List.mem_append_right _ List.mem_cons_self, (called_of_call host opts hc).trans hid⟩
    · exact hold f' hf' hid

/-- What has been saved before fork `k` attaches is from a call that was handled before the
instance was created again, or from one that was handled after request `k`. -/
theorem saved_by {x : Str} {k : Nat} {before between since : List Event} {delete create call : Event}
    (h : Recreated host opts R genv (fun _ => none) x k before between since delete create call) (evs : List Event)
    (hk : ∀ f, (reached host opts R genv (fun _ => none)
      (recreating before between since delete create call ++ evs)).sessions.forks k = some f → f.stage = .forked)
    {j : Nat} {ev : Evaluation V} (hl : last_saved host opts R x (System.start host opts genv fun _ => none)
      (recreating before between since delete create call ++ evs) = some (j, ev)) :
    (reached host opts R genv (fun _ => none) (before ++ delete :: between)).sessions.forks j ≠ none ∨
      (reached host opts R genv (fun _ => none)
        (recreating before between since delete create call)).sessions.forks j = none := by
  obtain ⟨-, -, f, hf, hid, hst⟩ := (run_remembers host opts R (level_of_called host h.calls.1) genv _).saved j ev hl
  cases hj : (reached host opts R genv (fun _ => none)
      (recreating before between since delete create call)).sessions.forks j with
  | none => exact Or.inr rfl
  | some f₀ =>
    obtain ⟨f', hf', hcall⟩ := run_fork_call host R opts hj evs
    rw [reached, ← run_append, ← reached, hf] at hf'
    obtain rfl := Option.some.inj hf'
    have ht := run_traced host opts R (fresh_start host opts genv fun _ => none) (before ++ delete :: between)
    rw [reached, run_append] at hj
    rcases fork_called host opts R ht hj (hcall ▸ hid) with hbefore | ⟨m, mc, tmp, hmem, hc⟩
    · exact Or.inl hbefore
    · exfalso
      rcases List.mem_cons.mp hmem with heq | hmem
      · -- a create is no call
        have hasked := h.creates.1
        rw [← heq] at hasked
        simp only [asked, called] at hasked hc
        split at hc
        · rename_i hact
          rw [hact] at hasked
          cases hasked
        · cases hc
      · rcases List.mem_append.mp hmem with hmem | hmem
        · exact h.first _ hmem hc
        · obtain ⟨-, -, m', mc', tmp', hcall'⟩ := h.calls
          rw [hcall', List.mem_singleton] at hmem
          cases hmem
          exact hst (hk f hf)

/-- **A re-created instance starts afresh** exactly when the last call to have saved, when the
first call attaches the session, has left nothing beyond the environment of the agent: a call
from before, finished or not when the instance was deleted, or a later one that has overtaken it. -/
theorem recreated_starts_fresh_iff {x : Str} {k : Nat} {before between since : List Event} {delete create call : Event}
    (h : Recreated host opts R genv (fun _ => none) x k before between since delete create call) (evs : List Event) :
    (∀ l, l <+: evs → StartsIn genv k
        (reached host opts R genv (fun _ => none) (recreating before between since delete create call ++ l))) ↔
      ∀ l, l ++ [.step k] <+: evs → (∀ f, (reached host opts R genv (fun _ => none)
          (recreating before between since delete create call ++ l)).sessions.forks k = some f → f.stage = .forked) →
        LeavesWithin host opts R genv x
            (fun j => (reached host opts R genv (fun _ => none) (before ++ delete :: between)).sessions.forks j ≠ none)
            (recreating before between since delete create call ++ l) ∧
          LeavesWithin host opts R genv x
            (fun j => (reached host opts R genv (fun _ => none)
              (recreating before between since delete create call)).sessions.forks j = none)
            (recreating before between since delete create call ++ l) := by
  have hx : Level x := level_of_called host h.calls.1
  obtain ⟨hc, hh, m, mc, tmp, rfl⟩ := h.calls
  have hg : (reached host opts R genv (fun _ => none)
      (before ++ delete :: (between ++ create :: since))).sessions.genv = genv := run_system_genv host R opts _ _
  obtain ⟨f, hf⟩ := calls_of_handles host opts R hg
    (run_traced host opts R (fresh_start host opts genv fun _ => none) _) hh hc
  rw [reached, ← run_concat (System.step host opts R), ← reached] at hf
  have hlist : before ++ delete :: (between ++ create :: since) ++ [.deliver k m mc tmp] =
      recreating before between since delete create (.deliver k m mc tmp) := by simp
  rw [hlist] at hf
  have hrun : ∀ l, reached host opts R genv (fun _ => none)
      (recreating before between since delete create (.deliver k m mc tmp) ++ l) = run (System.step host opts R)
        (reached host opts R genv (fun _ => none)
          (recreating before between since delete create (.deliver k m mc tmp))) l := fun l => run_append _ _ _ _
  have hstarts := run_starts_in_iff host opts R evs hf
  rw [along_iff_each, along_iff_each] at hstarts
  constructor
  · intro hall l hpre hk
    have hfinds := hstarts.mp
      (fun l' e hpre' => by rw [← run_concat (System.step host opts R), ← hrun]; exact hall (l' ++ [e]) hpre') l
        (.step k) hpre
    rw [← hrun] at hfinds
    have hwithin := (finds_iff (run_remembers host opts R hx genv _)).mp (hfinds rfl hk)
    exact ⟨fun j ev hl _ => hwithin j ev hl, fun j ev hl _ => hwithin j ev hl⟩
  · intro hcond l hpre
    rcases List.eq_nil_or_concat' l with rfl | ⟨l, e, rfl⟩
    · rw [hrun]
      exact hf.starts
    · rw [hrun, run_concat]
      refine hstarts.mpr (fun l' e' hpre' he' hk => ?_) l e hpre
      subst he'
      rw [← hrun] at hk ⊢
      refine (finds_iff (run_remembers host opts R hx genv _)).mpr fun j ev hl => ?_
      obtain ⟨hearlier, hlater⟩ := hcond l' hpre' hk
      rcases saved_by host opts R genv h l' hk hl with hj | hj
      · exact hearlier j ev hl hj
      · exact hlater j ev hl hj

end

/-! ## A session that is found again -/

def recreating_host : Host := small_host [(lit "t", [lit "x"]), (lit "t", [lit "v"]), (lit "t", [lit "v", lit "1"])]

def assign_v (k : Nat) : Event := .deliver k (small_request "x" "assign" (lit "t") [lit "v", lit "1"]) (.ok ()) []

def get_v (k : Nat) : Event := .deliver k (small_request "x" "get" (lit "t") [lit "v"]) (.ok ()) []

abbrev small_reached (evs : List Event) : System Str :=
  reached recreating_host small_options small_R (fun _ => none) (fun _ => none) evs

def attached_before : List Event := [create_request 0 (lit "x"), assign_v 1, .step 1]

def saved_before : List Event := [create_request 0 (lit "x"), assign_v 1, .step 1, .step 1, .step 1, .step 1]

theorem recreated_x {before : List Event} (hb : before = attached_before ∨ before = saved_before) :
    Recreated recreating_host small_options small_R (fun _ => none) (fun _ => none) (lit "x") 4 before [] []
      (delete_request 2 (lit "x")) (create_request 3 (lit "x")) (get_v 4) := by
  rcases hb with rfl | rfl
  all_goals
    refine ⟨⟨by decide +kernel, ?_⟩, by decide +kernel, ⟨by decide +kernel, ?_⟩, nofun, by decide +kernel, ?_, _, _, _, rfl⟩
    · show _ ∧ _ ∧ _; decide +kernel
    · show _ ∧ _ ∧ _; decide +kernel
    · show _ ∧ _ ∧ _; decide +kernel

/-- The first call on the new instance, before and after the earlier one saves. -/
def calls_before_save : List Event :=
  recreating attached_before [] [] (delete_request 2 (lit "x")) (create_request 3 (lit "x")) (get_v 4)

/-- The first call on the new instance starts before the earlier one saves. -/
theorem recreated_starts_fresh_in_time :
    StartsIn (fun _ => none) 4 (small_reached (calls_before_save ++ [.step 4])) ∧
      StartsIn (fun _ => none) 4 (small_reached (calls_before_save ++ [.step 4, .step 1, .step 1])) := by
  have hall : ∀ l, l <+: [.step 4, .step 1, .step 1] →
      StartsIn (fun _ => none) 4 (small_reached (calls_before_save ++ l)) := by
    refine (recreated_starts_fresh_iff recreating_host small_options small_R (fun _ => none) (recreated_x (Or.inl rfl))
      [.step 4, .step 1, .step 1]).mpr fun l hpre _ => ?_
    -- the first step is the only one of the fork
    obtain rfl : l = [] := by
      rcases l with _ | ⟨a, _ | ⟨b, _ | ⟨c, l⟩⟩⟩
      · rfl
      · revert hpre; simp
      · revert hpre; simp
      · have hlen := hpre.length_le
        simp only [List.length_append, List.length_cons, List.length_nil] at hlen
        omega
    have hnone : (last_saved recreating_host small_options small_R (lit "x")
        (System.start recreating_host small_options (fun _ => none) fun _ => none)
        (recreating attached_before [] [] (delete_request 2 (lit "x")) (create_request 3 (lit "x")) (get_v 4) ++ [])).isNone =
          true := by decide +kernel
    rw [Option.isNone_iff_eq_none] at hnone
    exact ⟨fun j ev hl => (by rw [hnone] at hl; cases hl), fun j ev hl => (by rw [hnone] at hl; cases hl)⟩
  exact ⟨hall _ (by simp), hall _ List.prefix_rfl⟩

/-- The first call on the new instance finds what the earlier one has assigned. -/
theorem recreated_instance_is_stale :
    Recreated recreating_host small_options small_R (fun _ => none) (fun _ => none) (lit "x") 4 saved_before [] []
        (delete_request 2 (lit "x")) (create_request 3 (lit "x")) (get_v 4) ∧
      ¬ StartsIn (fun _ => none) 4
        (small_reached (saved_before ++ [delete_request 2 (lit "x"), create_request 3 (lit "x"), get_v 4, .step 4])) := by
  refine ⟨recreated_x (Or.inr rfl), fun h => ?_⟩
  have hv : (((small_reached
    (saved_before ++ [delete_request 2 (lit "x"), create_request 3 (lit "x"), get_v 4, .step 4])).sessions.forks 4).bind
      (·.stage.started)).map (· (lit "v")) = some (some (lit "1")) := by decide +kernel
  obtain ⟨env, henv, hval⟩ := Option.map_eq_some_iff.mp hv
  obtain ⟨f, hf, hstart⟩ := Option.bind_eq_some_iff.mp henv
  rw [h f env hf hstart] at hval
  cases hval

end VrpcAgent

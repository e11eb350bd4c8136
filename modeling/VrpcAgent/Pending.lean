import VrpcAgent.Trace

/-!
# Pending calls

The parent notes every request in `awaited_callbacks`, before it knows what the
request asks for. A note is removed by `on_execution_done` only, and that runs in
a fork, on a copy of the table. So the notes are those of pending calls as long as
every request is a call and none of them has been answered.
-/

namespace VrpcAgent

open Function Effects Runs

section
variable {V : Type} (host : Host) (opts : Options) (R : RLib V)

/-! ## Requests handed to R -/

def Waits (s : System V) (k : Nat) (id : Int32) : Prop :=
  ∃ f, s.sessions.forks k = some f ∧ f.call.call_id = id ∧ written s.log (.fork k) = []

def Pending (s : System V) (id : Int32) : Prop := ∃ k, Waits s k id

/-- The keys of the table are ids of pending requests; it is empty when none is
pending. -/
structure ExactTable (s : System V) : Prop where
  keys : ∀ id, s.agent.awaited_callbacks id ≠ none → Pending s id
  empty : (∀ id, ¬ Pending s id) → ∀ id, s.agent.awaited_callbacks id = none

theorem exactTable_iff (s : System V) :
    ExactTable s ↔ ∀ id, s.agent.awaited_callbacks id ≠ none → Pending s id := by
  refine ⟨fun h => h.keys, fun h => ⟨h, fun hnone id => ?_⟩⟩
  by_contra hid
  exact hnone id (h id hid)

def Noted (s : System V) : Prop := ∀ k f, s.sessions.forks k = some f → s.agent.awaited_callbacks f.call.call_id ≠ none

/-! ## What an event does -/

theorem handled_awaited (mc : Except Str Unit) (m : Msg) (a : Agent) :
    (after (handled host opts mc m a)).agent.awaited_callbacks =
      match request host m with
      | none => a.awaited_callbacks
      | some r => update a.awaited_callbacks (a.call_id + 1) (some (.object r.context)) := by
  cases hr : request host m with
  | none =>
    obtain ⟨j, hj⟩ := handled_none host opts mc hr a
    rw [hj]
  | some r =>
    cases ha : r.action mc with
    | call fn args inst => rw [handled_call host opts hr ha]; rfl
    | _ =>
      rw [handled_served host opts hr (by rw [ha]; rfl), after_andThen_pure, (served_frame host rfl _).2.2]
      rfl

theorem handled_no_call {mc : Except Str Unit} {m : Msg} {r : Request} (hr : request host m = some r)
    (ha : (r.action mc).is_call = false) (a : Agent) : (after (handled host opts mc m a)).call = none := by
  rw [handled_served host opts hr ha, after_andThen_pure, (served_frame host rfl _).1]

theorem waits_deliver {s : System V} {k : Nat} (hk : s.sessions.forks k = none) (hw : written s.log (.fork k) = [])
    (m : Msg) (mc : Except Str Unit) (tmp : Str) (k' : Nat) (id : Int32) :
    Waits (s.deliver host opts k m mc tmp) k' id ↔
      if k' = k then ∃ c, (after (handled host opts mc m s.agent)).call = some c ∧ c.call_id = id
      else Waits s k' id := by
  have hwritten : written (s.deliver host opts k m mc tmp).log (.fork k') = written s.log (.fork k') := by
    simp only [System.deliver]
    rw [written_append, written_map_of_ne (by simp), List.append_nil]
  have hfork := start_forks hk (after (handled host opts mc m s.agent)).call tmp k'
  simp only [Waits, hwritten]
  simp only [System.deliver, hfork]
  split
  · rename_i hkk
    subst hkk
    constructor
    · intro h
      obtain ⟨f, hf, hid, -⟩ := h
      obtain ⟨c, hc, rfl⟩ := Option.map_eq_some_iff.mp hf
      exact ⟨c, hc, hid⟩
    · intro h
      obtain ⟨c, hc, hid⟩ := h
      exact ⟨_, by rw [hc]; rfl, hid, hw⟩
  · rfl

theorem waits_step (s : System V) (k k' : Nat) (id : Int32) :
    Waits (s.step host opts R (.step k)) k' id ↔
      Waits s k' id ∧ (k' = k → s.sessions.fork_writes host R k = []) := by
  simp only [Waits, System.step, step_forks, written_append]
  by_cases hk : k' = k
  · subst hk
    simp only [if_pos, written_map_self, List.append_eq_nil_iff, forall_const]
    constructor
    · intro h
      obtain ⟨f, hf, hid, hw, hnew⟩ := h
      obtain ⟨f', hf', rfl⟩ := Option.map_eq_some_iff.mp hf
      exact ⟨⟨f', hf', hid, hw⟩, hnew⟩
    · intro h
      obtain ⟨⟨f, hf, hid, hw⟩, hnew⟩ := h
      exact ⟨{ f with stage := (json_call_step host R s.sessions.fs f).2 }, by rw [hf]; rfl, hid, hw, hnew⟩
  · simp only [if_neg hk, written_map_of_ne (show Origin.fork k ≠ .fork k' by simpa using Ne.symm hk), List.append_nil]
    exact ⟨fun h => ⟨h, fun h' => absurd h' hk⟩, fun h => h.1⟩

/-! ## The exact condition -/

/-- A request that is handled is a call for R, and the fork of a call publishes no
reply; except where another request with the same id is pending. -/
def Settled (s : System V) : Event → Prop
  | .deliver k m mc _ => s.running = true → s.deliveries k = none → ∀ r, request host m = some r →
      (r.action mc).is_call = true ∨ Pending s (s.agent.call_id + 1)
  | .step k => s.sessions.fork_writes host R k ≠ [] → ∀ f, s.sessions.forks k = some f →
      ∃ k', k' ≠ k ∧ Waits s k' f.call.call_id
  | .ack _ => True

theorem exact_deliver_iff {s : System V} (ht : Traced host opts s) (h : ExactTable s) {k : Nat} (hk : s.deliveries k = none)
    (m : Msg) (mc : Except Str Unit) (tmp : Str) :
    ExactTable (s.deliver host opts k m mc tmp) ↔
      ∀ r, request host m = some r → (r.action mc).is_call = true ∨ Pending s (s.agent.call_id + 1) := by
  obtain ⟨hfork, -⟩ := ht.idle k hk
  have hw : written s.log (.fork k) = [] := by rw [ht.fork k, hfork]
  have hwaits := waits_deliver host opts hfork hw m mc tmp
  have hold : ∀ {id}, Pending s id → Pending (s.deliver host opts k m mc tmp) id := by
    intro id hid
    obtain ⟨k', hk'⟩ := hid
    have hne : k' ≠ k := by
      obtain ⟨f, hf, -⟩ := hk'
      intro heq
      rw [heq, hfork] at hf
      cases hf
    exact ⟨k', (hwaits k' id).mpr (by rw [if_neg hne]; exact hk')⟩
  have hkeys : (s.deliver host opts k m mc tmp).agent.awaited_callbacks =
      (after (handled host opts mc m s.agent)).agent.awaited_callbacks := rfl
  rw [exactTable_iff, hkeys, handled_awaited]
  cases hr : request host m with
  | none => exact ⟨fun _ r hr => (by cases hr), fun _ id hid => hold (h.keys id hid)⟩
  | some r =>
    have hadd : (∀ id, update s.agent.awaited_callbacks (s.agent.call_id + 1) (some (.object r.context)) id ≠ none →
        Pending (s.deliver host opts k m mc tmp) id) ↔ Pending (s.deliver host opts k m mc tmp) (s.agent.call_id + 1) := by
      refine ⟨fun hall => hall _ (by rw [update_self]; exact Option.some_ne_none _), fun hnew id hid => ?_⟩
      by_cases heq : id = s.agent.call_id + 1
      · rw [heq]; exact hnew
      · rw [update_of_ne heq] at hid; exact hold (h.keys id hid)
    simp only [Option.some.injEq, forall_eq']
    rw [hadd]
    cases ha : (r.action mc).is_call with
    | true =>
      -- the new fork is pending
      have hc : ∃ fn args inst, r.action mc = .call fn args inst := by
        cases hact : r.action mc with
        | call fn args inst => exact ⟨fn, args, inst, rfl⟩
        | _ => rw [hact] at ha; cases ha
      obtain ⟨fn, args, inst, hact⟩ := hc
      refine iff_of_true ⟨k, (hwaits k _).mpr ?_⟩ (Or.inl rfl)
      rw [if_pos rfl, handled_call host opts hr hact]
      exact ⟨_, rfl, rfl⟩
    | false =>
      refine ⟨fun hnew => Or.inr ?_, fun hp => hold (hp.resolve_left Bool.false_ne_true)⟩
      obtain ⟨k', hk'⟩ := hnew
      have hk' := (hwaits k' _).mp hk'
      split at hk'
      · rw [handled_no_call host opts hr ha] at hk'
        obtain ⟨c, hc, -⟩ := hk'
        cases hc
      · exact ⟨k', hk'⟩

theorem exact_fork_iff {s : System V} (hn : Noted s) (h : ExactTable s) (k : Nat) :
    ExactTable (s.step host opts R (.step k)) ↔ Settled host R s (.step k) := by
  have hkeys : (s.step host opts R (.step k)).agent = s.agent := rfl
  rw [exactTable_iff, hkeys]
  constructor
  · intro hall hwrites f hf
    obtain ⟨k', hk'⟩ := hall _ (hn k f hf)
    obtain ⟨hold, hne⟩ := (waits_step host opts R s k k' _).mp hk'
    exact ⟨k', fun heq => hwrites (hne heq), hold⟩
  · intro hset id hid
    obtain ⟨k', hk'⟩ := h.keys id hid
    by_cases hkk : k' = k ∧ s.sessions.fork_writes host R k ≠ []
    · obtain ⟨rfl, hwrites⟩ := hkk
      obtain ⟨f, hf, rfl, -⟩ := hk'
      obtain ⟨k'', hne, hold⟩ := hset hwrites f hf
      exact ⟨k'', (waits_step host opts R s k' k'' _).mpr ⟨hold, fun heq => absurd heq hne⟩⟩
    · refine ⟨k', (waits_step host opts R s k k' id).mpr ⟨hk', fun heq => ?_⟩⟩
      by_contra hwrites
      exact hkk ⟨heq, hwrites⟩

theorem exact_step_iff {s : System V} (ht : Traced host opts s) (hn : Noted s) (h : ExactTable s) (e : Event) :
    ExactTable (s.step host opts R e) ↔ Settled host R s e := by
  cases e with
  | deliver k m mc tmp =>
    simp only [System.step, Settled]
    split
    · rename_i hd
      have hk := Option.isNone_iff_eq_none.mp hd.2
      rw [exact_deliver_iff host opts ht h hk]
      exact ⟨fun hall _ _ => hall, fun hall => hall hd.1 hk⟩
    · rename_i hd
      exact iff_of_true h fun hrun hk => absurd ⟨hrun, Option.isNone_iff_eq_none.mpr hk⟩ hd
  | step k => exact exact_fork_iff host opts R hn h k
  | ack i =>
    refine iff_of_true ?_ trivial
    simp only [System.step]
    split
    · exact h
    · split
      · exact ⟨h.keys, h.empty⟩
      · exact h

theorem noted_step {s : System V} (ht : Traced host opts s) (hn : Noted s) (e : Event) :
    Noted (s.step host opts R e) := by
  have hgrow : ∀ id, s.agent.awaited_callbacks id ≠ none →
      (s.step host opts R e).agent.awaited_callbacks id ≠ none := by
    intro id hid
    cases e with
    | deliver k m mc tmp =>
      simp only [System.step]
      split
      · show (after (handled host opts mc m s.agent)).agent.awaited_callbacks id ≠ none
        rw [handled_awaited]
        split
        · exact hid
        · exact fun hnone => hid (PartialMap.update_eq_none_iff.mp hnone).2
      · exact hid
    | step k => exact hid
    | ack i =>
      simp only [System.step]
      split
      · exact hid
      · split <;> exact hid
  intro k f hf
  rcases ht.fork_step host opts R hf with hold | ⟨m, mc, tmp, c, rfl, hc, rfl⟩ | ⟨f', rfl, hold, rfl⟩
  · exact hgrow _ (hn k f hold)
  · obtain ⟨r', fn', args', inst', hr', ha', rfl⟩ := call_of_handled host opts hc
    simp only [System.step] at hf ⊢
    split
    · show (after (handled host opts mc m s.agent)).agent.awaited_callbacks (s.agent.call_id + 1) ≠ none
      rw [handled_awaited, hr']
      simp
    · rename_i hd
      rw [if_neg hd] at hf
      exact hn k _ hf
  · exact hgrow _ (hn k f' hold)

/-! ## Runs -/

theorem awaited_start (genv : Env V) (fs : FS V) :
    (System.start host opts genv fs).agent.awaited_callbacks = fun _ => none := by
  have hsend : ∀ p, Keeps (fun s : Frame => s.agent.awaited_callbacks = fun _ => none) (send host p) := by
    intro p s hs
    rw [run_send]
    cases s.agent.pids.allocate with
    | none => exact hs
    | some r => cases host.refuse p <;> exact hs
  exact keeps_connack host opts (fun _ _ _ => hsend _) (fun _ _ => hsend _) ⟨Agent.new, .null, [], none⟩ rfl

/-- **Pending calls.** The table is exact in every state of a run exactly when every
event of it is settled: the first request that is no call, and the first reply,
leave an entry behind. -/
theorem table_exact_iff (genv : Env V) (fs : FS V) (evs : List Event) :
    (∀ evs', evs' <+: evs → ExactTable (run (System.step host opts R) (System.start host opts genv fs) evs')) ↔
      Along (System.step host opts R) (Settled host R) (System.start host opts genv fs) evs := by
  refine along_iff (I := fun s => Traced host opts s ∧ Noted s) (fun s e hs => ?_) (fun s e hs h => ?_) ?_ ?_
  · exact ⟨traced_step host opts R hs.1 e, noted_step host opts R hs.1 hs.2 e⟩
  · exact exact_step_iff host opts R hs.1 hs.2 h e
  · exact ⟨(fresh_start host opts genv fs).traced host opts, fun k f hf => by cases hf⟩
  · rw [exactTable_iff, awaited_start]
    exact fun id hid => absurd rfl hid

end

def leak_host : Host := small_host [(lit "t", [lit "x"])]

def leak_request : Msg := small_request "__static__" "__createShared__" (lit "t") [lit "x"]

theorem created_instance_stays_awaited :
    ¬ ∀ evs, ExactTable (run (System.step leak_host small_options small_R)
      (System.start leak_host small_options (fun _ => none) (fun _ => none)) evs) := by
  intro h
  have ht := (fresh_start leak_host small_options (V := Str) (fun _ => none) (fun _ => none)).traced leak_host small_options
  have hn : Noted (System.start leak_host small_options (V := Str) (fun _ => none) (fun _ => none)) :=
    fun k f hf => by cases hf
  have hset := (exact_step_iff leak_host small_options small_R ht hn (h []) (.deliver 0 leak_request (.ok ()) [])).mp
    (h [.deliver 0 leak_request (.ok ()) []])
  have hcreate : (request leak_host leak_request).any (fun r => !(r.action (.ok ())).is_call) = true := by decide +kernel
  obtain ⟨r, hr, hna⟩ := (Option.any_eq_true _ _).mp hcreate
  rcases hset (by decide +kernel) rfl r hr with ha | ⟨k, f, hf, -⟩
  · rw [ha] at hna; cases hna
  · cases hf

end VrpcAgent

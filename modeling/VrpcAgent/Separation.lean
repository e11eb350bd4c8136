import VrpcAgent.Renumbered

/-!
# Instances and static calls do not interfere

A run of the whole system, and the run from which the requests on one instance and static
ones have been removed. The two agents number their calls and packets differently, and
the forks have different copies of them; what is answered to the requests on another
instance, and what is saved for it, is the same.
-/

namespace VrpcAgent

open Function Effects Runs

/-! ## Two runs -/

def Event.request : Event → Option Nat
  | .deliver k _ _ _ => some k
  | .step k => some k
  | .ack _ => none

/-- `evs'` is `evs` without the requests that are not kept and their forks. Acknowledgements
may come at other moments. -/
inductive Purged (keep : Nat → Bool) : List Event → List Event → Prop
  | nil : Purged keep [] []
  | kept {e : Event} {evs evs' : List Event} (he : e.request.any keep = true) (h : Purged keep evs evs') :
      Purged keep (e :: evs) (e :: evs')
  | removed {e : Event} {evs evs' : List Event} (he : e.request.any keep = false) (h : Purged keep evs evs') :
      Purged keep (e :: evs) evs'
  | ack {i : Nat} {evs evs' : List Event} (h : Purged keep evs evs') : Purged keep evs (.ack i :: evs')

theorem purged_filter (keep : Nat → Bool) : ∀ evs, Purged keep evs (evs.filter (·.request.any keep))
  | [] => .nil
  | e :: evs => by
    cases he : e.request.any keep with
    | true =>
      rw [List.filter_cons, if_pos he]
      exact .kept he (purged_filter keep evs)
    | false =>
      rw [List.filter_cons, if_neg (by simp [he])]
      exact .removed he (purged_filter keep evs)

section
variable {V : Type} (host : Host) (opts : Options) (R : RLib V)

/-- All packets that answer request `k`: the handler's, and the fork's. -/
def System.answers (s : System V) (k : Nat) : List Packet :=
  (written s.log (.handler k) ++ written s.log (.fork k)).map (·.packet)

def Asks (requests : Nat → Msg × Except Str Unit) (evs : List Event) : Prop :=
  ∀ k m mc tmp, .deliver k m mc tmp ∈ evs → requests k = (m, mc)

/-- The requests that are not kept are all on `b`, and some of the static ones. -/
structure Removes (requests : Nat → Msg × Except Str Unit) (b : Str) (keep : Nat → Bool) : Prop where
  aside : ∀ k, keep k = false → instance_level (requests k).1 = some b ∨
    instance_level (requests k).1 = some (lit "__static__")
  all : ∀ k, instance_level (requests k).1 = some b → keep k = false

structure Paired (keep : Nat → Bool) (s s' : System V) : Prop where
  running : s.running = s'.running
  handled : ∀ k, keep k = true → (s.deliveries k).isNone = (s'.deliveries k).isNone

variable {b : Str} {keep : Nat → Bool} {requests : Nat → Msg × Except Str Unit} {s s' : System V}

theorem ack_same (s : System V) (i : Nat) :
    (s.step host opts R (.ack i)).running = s.running ∧ (s.step host opts R (.ack i)).deliveries = s.deliveries := by
  simp only [System.step]
  split
  · exact ⟨rfl, rfl⟩
  · split <;> exact ⟨rfl, rfl⟩

theorem paired_removed (hrem : Removes requests b keep) (h : Paired keep s s') {e : Event} (he : e.request.any keep = false)
    (hask : Asks requests [e]) (hu : Untroubled host opts b s e) :
    Paired keep (s.step host opts R e) s' ∧ (handed host opts s e).filter (fun e => keep e.fork) = [] := by
  cases e with
  | deliver k m mc tmp =>
    have hk : keep k = false := he
    by_cases hd : s.running = true ∧ (s.deliveries k).isNone
    · have haside := hrem.aside k hk
      rw [hask k m mc tmp List.mem_cons_self] at haside
      have hret := (hu hd.1 hd.2).2 haside
      rw [System.step, if_pos hd, handed, if_pos hd]
      refine ⟨⟨?_, fun k' hk' => ?_⟩, ?_⟩
      · rw [← h.running, hd.1]
        exact hret
      · have hne : k' ≠ k := by
          intro heq
          rw [heq, hk] at hk'
          cases hk'
        rw [← h.handled k' hk']
        simp only [System.deliver, update_of_ne hne]
      · rw [List.filter_eq_nil_iff]
        intro e' he'
        obtain ⟨c, -, rfl⟩ := List.mem_map.mp he'
        simp [SessionEvent.fork, hk]
    · rw [System.step, if_neg hd, handed, if_neg hd]
      exact ⟨h, rfl⟩
  | step k =>
    have hk : keep k = false := he
    exact ⟨⟨h.running, h.handled⟩, by simp [handed, SessionEvent.fork, hk]⟩
  | ack i =>
    obtain ⟨hrun, hdel⟩ := ack_same host opts R s i
    exact ⟨⟨hrun.trans h.running, fun k hk => by rw [hdel, h.handled k hk]⟩, rfl⟩

theorem paired_kept (h : Paired keep s s') {e : Event} (he : e.request.any keep = true) (hu : Untroubled host opts b s e)
    (hu' : Untroubled host opts b s' e) :
    Paired keep (s.step host opts R e) (s'.step host opts R e) ∧ handed host opts s' e = handed host opts s e ∧
      (handed host opts s e).filter (fun e => keep e.fork) = handed host opts s e := by
  cases e with
  | deliver k m mc tmp =>
    have hk : keep k = true := he
    by_cases hd : s.running = true ∧ (s.deliveries k).isNone
    · have hd' : s'.running = true ∧ (s'.deliveries k).isNone := by rw [← h.running, ← h.handled k hk]; exact hd
      obtain ⟨hfree, hret⟩ := hu hd.1 hd.2
      obtain ⟨hfree', hret'⟩ := hu' hd'.1 hd'.2
      simp only [System.step, handed, if_pos hd, if_pos hd']
      refine ⟨⟨?_, fun k' hk' => ?_⟩, ?_, ?_⟩
      · show returns (handled host opts mc m s.agent) = returns (handled host opts mc m s'.agent)
        by_cases ht : instance_level m = some b ∨ instance_level m = some (lit "__static__")
        · rw [hret ht, hret' ht]
        · have hasked : asked host (.deliver k m mc tmp) = none := asked_static fun hs => ht (Or.inr hs)
          exact handled_returns host opts hasked (Option.isSome_iff_ne_none.mp hfree) (Option.isSome_iff_ne_none.mp hfree')
      · by_cases hkk : k' = k
        · subst hkk
          simp only [System.deliver, update_self, Option.isNone_some]
        · simp only [System.deliver, update_of_ne hkk]
          exact h.handled k' hk'
      · rcases handled_calls host opts mc m with hnone | ⟨r, fn, args, inst, -, -, hh⟩
        · rw [hnone, hnone]
        · rw [hh, hh]; rfl
      · rw [List.filter_eq_self]
        intro e' he'
        obtain ⟨c, -, rfl⟩ := List.mem_map.mp he'
        exact hk
    · have hd' : ¬ (s'.running = true ∧ (s'.deliveries k).isNone) := by rw [← h.running, ← h.handled k hk]; exact hd
      simp only [System.step, handed, if_neg hd, if_neg hd']
      exact ⟨h, trivial, rfl⟩
  | step k =>
    have hk : keep k = true := he
    exact ⟨⟨h.running, h.handled⟩, rfl, by simp [handed, SessionEvent.fork, hk]⟩
  | ack i => cases he

theorem run_paired (hrem : Removes requests b keep) {evs evs' : List Event} (hp : Purged keep evs evs') {s s' : System V}
    (h : Paired keep s s') (hask : Asks requests evs) (hu : Along (System.step host opts R) (Untroubled host opts b) s evs)
    (hu' : Along (System.step host opts R) (Untroubled host opts b) s' evs') :
    Paired keep (run (System.step host opts R) s evs) (run (System.step host opts R) s' evs') ∧
      hand_over host opts R s' evs' = (hand_over host opts R s evs).filter fun e => keep e.fork := by
  induction hp generalizing s s' with
  | nil => exact ⟨h, rfl⟩
  | kept he _ ih =>
    obtain ⟨hpair, hsame, hkept⟩ := paired_kept host opts R h he hu.1 hu'.1
    obtain ⟨hrun, htrace⟩ := ih hpair (fun k m mc tmp hmem => hask k m mc tmp (List.mem_cons_of_mem _ hmem)) hu.2 hu'.2
    exact ⟨hrun, by rw [hand_over, hand_over, List.filter_append, hkept, hsame, htrace]⟩
  | removed he _ ih =>
    have hask₁ : Asks requests [_] := fun k m mc tmp hmem =>
      hask k m mc tmp (List.mem_cons.mpr (Or.inl (List.mem_singleton.mp hmem)))
    obtain ⟨hpair, hdrop⟩ := paired_removed host opts R hrem h he hask₁ hu.1
    obtain ⟨hrun, htrace⟩ := ih hpair (fun k m mc tmp hmem => hask k m mc tmp (List.mem_cons_of_mem _ hmem)) hu.2 hu'
    exact ⟨hrun, by rw [hand_over, List.filter_append, hdrop, List.nil_append, htrace]⟩
  | @ack i _ _ _ ih =>
    obtain ⟨hrun, hdel⟩ := ack_same host opts R s' i
    exact ih ⟨h.running.trans hrun.symm, fun k hk => by rw [hdel, h.handled k hk]⟩ hask hu hu'.2

/-! ## Answers -/

theorem packets_of_stage {st st' : Stage V} (h : StagesAlike SamePackets st st') :
    SamePackets st.sent st'.sent ∧ st.terminated = st'.terminated := by
  cases h with
  | same => exact ⟨rfl, rfl⟩
  | closed h =>
    rw [closed_sent, closed_sent, closed_terminated, closed_terminated]
    exact ⟨h, rfl⟩

def Sessions.packets (s : Sessions V) (k : Nat) : List Packet :=
  ((s.forks k).bind (·.stage.reply)).elim [] fun p => p.2.map (·.packet)

theorem packets_of_reply (st : Stage V) : (st.reply.elim [] fun p => p.2.map (·.packet)) = st.sent.map (·.packet) := by
  cases st <;> rfl

theorem SessionsAgree.packets {s t : Sessions V} (h : SessionsAgree host SamePackets s t) (k : Nat) :
    s.packets k = t.packets k := by
  have hk := h.forks k
  unfold Sessions.packets
  cases hf : s.forks k with
  | none =>
    rw [hf] at hk
    cases hf' : t.forks k with
    | none => rfl
    | some g' => rw [hf'] at hk; cases hk
  | some g =>
    rw [hf] at hk
    cases hf' : t.forks k with
    | none => rw [hf'] at hk; cases hk
    | some g' =>
      rw [hf'] at hk
      obtain ⟨hg⟩ := hk
      simp only [Option.bind_some, packets_of_reply]
      exact (packets_of_stage hg.stage).1

theorem Traced.answers_eq (ht : Traced host opts s) (k : Nat) :
    s.answers k = (written s.log (.handler k)).map (·.packet) ++ s.sessions.packets k := by
  rw [System.answers, List.map_append, ht.fork k, Sessions.packets]
  cases s.sessions.forks k with
  | none => rfl
  | some f => rw [Option.bind_some, packets_of_reply]

/-- The handler of request `k` has written what it writes alone, and a fork has been started if it is alone. -/
def AsAlone (q : Msg × Except Str Unit) (k : Nat) (s : System V) : Prop :=
  ∀ d, s.deliveries k = some d →
    SamePackets (written s.log (.handler k)) (after (handled host opts q.2 q.1 Agent.new)).out ∧
      (s.sessions.forks k).isSome = (after (handled host opts q.2 q.1 Agent.new)).call.isSome

theorem asAlone_step {s : System V} (ht : Traced host opts s) {k : Nat}
    (hk : asked host (.deliver k (requests k).1 (requests k).2 []) = none) (h : AsAlone host opts (requests k) k s)
    {e : Event}
    (hu : Untroubled host opts b s e) (hask : Asks requests [e]) :
    AsAlone host opts (requests k) k (s.step host opts R e) := by
  intro d hd
  cases e with
  | deliver k' m mc tmp =>
    by_cases hacc : s.running = true ∧ (s.deliveries k').isNone
    · rw [System.step, if_pos hacc] at hd ⊢
      have hidle := Option.isNone_iff_eq_none.mp hacc.2
      by_cases hkk : k = k'
      · subst hkk
        rw [hask k m mc tmp List.mem_cons_self] at hk ⊢
        rw [ht.written_deliver host opts hidle]
        refine ⟨handled_packets host opts hk (Option.isSome_iff_ne_none.mp (hu hacc.1 hacc.2).1) allocate_new, ?_⟩
        simp only [System.deliver, start_forks (ht.idle k hidle).1, if_pos, Option.isSome_map]
        rcases handled_calls host opts mc m with hnone | ⟨r, fn, args, inst, -, -, hh⟩
        · rw [hnone, hnone]
        · rw [hh, hh]; rfl
      · simp only [System.deliver, update_of_ne hkk] at hd ⊢
        rw [written_append, written_map_of_ne (by simpa using Ne.symm hkk), List.append_nil, start_forks (ht.idle k' hidle).1,
          if_neg hkk]
        exact h d hd
    · rw [System.step, if_neg hacc] at hd ⊢
      exact h d hd
  | step k' =>
    simp only [System.step] at hd ⊢
    rw [written_append, written_map_of_ne (by simp), List.append_nil, step_forks]
    refine (h d hd).imp_right fun hfork => ?_
    split
    · rename_i hkk
      rw [Option.isSome_map, ← hkk, hfork]
    · exact hfork
  | ack i =>
    revert hd
    simp only [System.step]
    split
    · exact h d
    · split <;> exact h d

variable (genv : Env V)

/-- What an agent that has handled nothing else answers to a static call. -/
def static_answer (q : Msg × Except Str Unit) : List Packet :=
  (after (handled host opts q.2 q.1 Agent.new)).out.map (·.packet) ++
    ((after (handled host opts q.2 q.1 Agent.new)).call.bind (static_reply host R genv)).elim [] fun p => p.2.map (·.packet)

theorem run_asAlone {evs : List Event} (hask : Asks requests evs)
    (hu : Along (System.step host opts R) (Untroubled host opts b) (System.start host opts genv fun _ => none) evs) {k : Nat}
    (hk : asked host (.deliver k (requests k).1 (requests k).2 []) = none) :
    AsAlone host opts (requests k) k (reached host opts R genv (fun _ => none) evs) := by
  have h₀ := fresh_start host opts genv fun _ => none
  have hrun := run_inv (P := fun s : System V => Traced host opts s ∧ AsAlone host opts (requests k) k s)
    (fun s e hs he => ⟨traced_step host opts R hs.1 e, asAlone_step host opts R hs.1 hk hs.2 he.1 he.2⟩)
    ⟨h₀.traced host opts, fun d hd => by rw [h₀.deliveries k] at hd; cases hd⟩
    (hu.and (along_of_mem fun e he _ k m mc tmp hmem => hask k m mc tmp (by rw [List.mem_singleton.mp hmem]; exact he)))
  exact hrun.2

theorem purged_asks {evs evs' : List Event} (hp : Purged keep evs evs') (h : Asks requests evs) : Asks requests evs' := by
  induction hp with
  | nil => exact h
  | @kept e evs evs' _ _ ih =>
    intro k m mc tmp hmem
    rcases List.mem_cons.mp hmem with heq | hmem
    · exact h k m mc tmp (heq ▸ List.mem_cons_self)
    · exact ih (fun k m mc tmp hmem => h k m mc tmp (List.mem_cons_of_mem _ hmem)) k m mc tmp hmem
  | removed _ _ ih => exact ih fun k m mc tmp hmem => h k m mc tmp (List.mem_cons_of_mem _ hmem)
  | ack _ ih =>
    intro k m mc tmp hmem
    rcases List.mem_cons.mp hmem with heq | hmem
    · cases heq
    · exact ih h k m mc tmp hmem

/-! ## All runs -/

abbrev calls_of (requests : Nat → Msg × Except Str Unit) (k : Nat) : VrpcCall := own_call host opts (requests k)

theorem Removes.kept (h : Removes requests b keep) {a : Str} (hab : a ≠ b) (hs : a ≠ lit "__static__") {k : Nat}
    (hk : instance_level (requests k).1 = some a) : keep k = true := by
  by_contra hk'
  rcases h.aside k (by simpa using hk') with ht | ht
  · exact hab (Option.some.inj (hk.symm.trans ht))
  · exact hs (Option.some.inj (hk.symm.trans ht))

/-- The calls on one instance are kept or removed together. -/
theorem Removes.together (h : Removes requests b keep) {k : Nat} {x : Str} (hk : keep k = true)
    (hx : (calls_of host opts requests k).instance_id = some x) : Kept (calls_of host opts requests) keep x := by
  obtain ⟨hlevel_of, hstatic⟩ := own_call_level host opts hx
  have hxb : x ≠ b := by
    intro heq
    rw [h.all k (heq ▸ hlevel_of)] at hk
    cases hk
  exact fun k' hx' => h.kept hxb hstatic (own_call_level host opts hx').1

theorem hand_over_hands {evs : List Event} (hask : Asks requests evs) :
    ∀ e ∈ hand_over host opts R s evs, Hands (calls_of host opts requests) e := by
  intro e he k c tmp heq
  subst heq
  obtain ⟨m, mc, hmem, rfl, -⟩ := mem_hand_over host opts R he
  rw [calls_of, hask k m mc tmp hmem]

theorem hand_over_named {evs : List Event} {x : Str} (hx : Named (hand_over host opts R s evs) x) : Called host evs x := by
  obtain ⟨k, c, tmp, he, hx⟩ := hx
  obtain ⟨m, mc, hmem, -, hcalled⟩ := mem_hand_over host opts R he
  exact ⟨_, hmem, hcalled.trans hx⟩

theorem handler_answers {evs evs' : List Event} (hask : Asks requests evs) (hp : Purged keep evs evs')
    (hu : Along (System.step host opts R) (Untroubled host opts b) (System.start host opts genv fun _ => none) evs)
    (hu' : Along (System.step host opts R) (Untroubled host opts b) (System.start host opts genv fun _ => none) evs')
    (hpair : Paired keep (reached host opts R genv (fun _ => none) evs)
    (reached host opts R genv (fun _ => none) evs')) {k : Nat}
    (hk : keep k = true) (hasked : asked host (.deliver k (requests k).1 (requests k).2 []) = none) :
    SamePackets (written (reached host opts R genv (fun _ => none) evs).log (.handler k))
      (written (reached host opts R genv (fun _ => none) evs').log (.handler k)) := by
  have ht := run_traced host opts R (fresh_start host opts genv fun _ => none) evs
  have ht' := run_traced host opts R (fresh_start host opts genv fun _ => none) evs'
  have hnone := hpair.handled k hk
  cases hd : (reached host opts R genv (fun _ => none) evs).deliveries k with
  | none =>
    rw [hd] at hnone
    rw [reached, reached, (ht.idle k hd).2, (ht'.idle k (Option.isNone_iff_eq_none.mp hnone.symm)).2]
    rfl
  | some d =>
    rw [hd] at hnone
    obtain ⟨d', hd'⟩ := Option.isSome_iff_exists.mp (Option.isNone_eq_false_iff.mp hnone.symm)
    exact (run_asAlone host opts R genv hask hu hasked d hd).1.trans
      (run_asAlone host opts R genv (purged_asks hp hask) hu' hasked d' hd').1.symm

/-- The fork of a static call, if there is one, replies what the call and the agent's environment determine. -/
theorem static_packets {s : System V} {t : Sessions V} (h : SessionsAgree host SamePackets s.sessions t) {k : Nat}
    (hfork : (s.sessions.forks k).isSome = (after (handled host opts (requests k).2 (requests k).1 Agent.new)).call.isSome)
    (hterm : ∀ f, s.sessions.forks k = some f → f.stage.terminated = true)
    (hstatic : ∀ f, t.forks k = some f → f.stage.terminated = true →
      f.stage.reply = static_reply host R genv (calls_of host opts requests k)) :
    s.sessions.packets k = ((after (handled host opts (requests k).2 (requests k).1 Agent.new)).call.bind
      (static_reply host R genv)).elim [] fun p => p.2.map (·.packet) := by
  rw [h.packets host]
  have hrel := h.forks k
  cases hf : s.sessions.forks k with
  | none =>
    rw [hf] at hrel hfork
    cases hf' : t.forks k with
    | none =>
      rw [Sessions.packets, hf', Option.isNone_iff_eq_none.mp (Option.isSome_eq_false_iff.mp hfork.symm)]
      rfl
    | some g' => rw [hf'] at hrel; cases hrel
  | some g =>
    rw [hf] at hrel hfork
    cases hf' : t.forks k with
    | none => rw [hf'] at hrel; cases hrel
    | some g' =>
      rw [hf'] at hrel
      obtain ⟨hagree⟩ := hrel
      obtain ⟨c, hc⟩ := Option.isSome_iff_exists.mp hfork.symm
      have hown : calls_of host opts requests k = c := by rw [calls_of, own_call, hc, Option.getD_some]
      have hreply := hstatic g' hf' (by rw [← (packets_of_stage hagree.stage).2]; exact hterm g hf)
      rw [Sessions.packets, hf', Option.bind_some, hreply, hown, hc, Option.bind_some]

/-- **Instances and static calls do not interfere** in a run that does not use both `.` and
the name of a session file, if the handlers of the requests removed return and identifiers
are free. -/
theorem instances_isolated {a b : Str} (ha : Level a) (hab : a ≠ b) (hs : a ≠ lit "__static__") {evs evs' : List Event}
    (hask : Asks requests evs) (hrem : Removes requests b keep) (hp : Purged keep evs evs')
    (hclash : NoClash (Called host evs))
    (hu : Along (System.step host opts R) (Untroubled host opts b) (System.start host opts genv fun _ => none) evs)
    (hu' : Along (System.step host opts R) (Untroubled host opts b) (System.start host opts genv fun _ => none) evs') :
    saved_env (reached host opts R genv (fun _ => none) evs).sessions.fs a =
        saved_env (reached host opts R genv (fun _ => none) evs').sessions.fs a ∧
      (∀ k, instance_level (requests k).1 = some a → (reached host opts R genv (fun _ => none) evs).answers k =
        (reached host opts R genv (fun _ => none) evs').answers k) ∧
      ∀ k d, instance_level (requests k).1 = some (lit "__static__") →
        asked host (.deliver k (requests k).1 (requests k).2 []) = none →
        (reached host opts R genv (fun _ => none) evs).deliveries k = some d →
        (∀ f, (reached host opts R genv (fun _ => none) evs).sessions.forks k = some f → f.stage.terminated = true) →
          (reached host opts R genv (fun _ => none) evs).answers k = static_answer host opts R genv (requests k) := by
  have h₀ : SessionsAgree host SamePackets (System.start host opts genv fun _ => none).sessions (initial genv) :=
    ⟨rfl, rfl, fun _ => .none⟩
  have hfull := run_sessionsAgree host opts R h₀ hu
  have hpurged := run_sessionsAgree host opts R h₀ hu'
  obtain ⟨hpair, htrace⟩ := run_paired host opts R hrem hp ⟨rfl, fun _ _ => rfl⟩ hask hu hu'
  rw [htrace] at hpurged
  have ht := run_traced host opts R (fresh_start host opts genv fun _ => none) evs
  have ht' := run_traced host opts R (fresh_start host opts genv fun _ => none) evs'
  have hlevel : ∀ x, Named (hand_over host opts R (System.start host opts genv fun _ => none) evs) x → Level x := by
    intro x hx
    obtain ⟨e, -, hcalled⟩ := hand_over_named host opts R hx
    exact level_of_called host hcalled
  obtain ⟨hsaved, hreplies, hstatic⟩ := sessions_isolated host R genv (calls_of host opts requests)
    (fun k x => hrem.together host opts) (hand_over_hands host opts R hask) hlevel
    fun hdot f hf hn => hclash (hand_over_named host opts R hdot) f hf (hand_over_named host opts R hn)
  refine ⟨?_, fun k hk => ?_, fun k d hk hasked hd hterm => ?_⟩
  · rw [reached, reached, hfull.fs, hpurged.fs]
    exact hsaved a ha fun k hk => hrem.kept hab hs (own_call_level host opts hk).1
  · have hkeep := hrem.kept hab hs hk
    have hasked : asked host (.deliver k (requests k).1 (requests k).2 []) = none :=
      asked_static (by rw [hk]; exact fun h => hs (Option.some.inj h))
    have hhandler := handler_answers host opts R genv hask hp hu hu' hpair hkeep hasked
    unfold reached at hhandler ⊢
    rw [ht.answers_eq host opts, ht'.answers_eq host opts, hfull.packets host, hpurged.packets host, hhandler,
      Sessions.packets, Sessions.packets, hreplies k hkeep]
  · obtain ⟨hpackets, hfork⟩ := run_asAlone host opts R genv hask hu hasked d hd
    have hnone : (calls_of host opts requests k).instance_id = none := by
      by_contra hid
      obtain ⟨x, hx⟩ := Option.ne_none_iff_exists'.mp hid
      obtain ⟨hlevel_of, hne⟩ := own_call_level host opts hx
      exact hne (Option.some.inj (hlevel_of.symm.trans hk))
    have hsent := static_packets host opts R genv hfull hfork hterm fun f => hstatic k f hnone
    unfold reached at hpackets ⊢
    rw [ht.answers_eq host opts, hpackets, hsent, static_answer]

end

/-! ## Two instances and a static call -/

def turns_host : Host :=
  { small_host [(lit "t", [lit "v", lit "0"]), (lit "t", [lit "v", lit "1"])] with
    parse := fun text =>
      if text = lit "\x7b\"a\":[]\x7d" then some (.object [(lit "a", .array [])])
      else (small_host [(lit "t", [lit "v", lit "0"]), (lit "t", [lit "v", lit "1"])]).parse text }

def assign_on (x : String) (v : Str) : Msg := small_request x "assign" (lit "t") [lit "v", v]

/-- Request 0 is on `a`, request 1 as given, and the others are static. -/
def turns_requests (a : String) (other : Msg) (k : Nat) : Msg × Except Str Unit :=
  (if k = 0 then assign_on a (lit "0") else if k = 1 then other else assign_on "__static__" (lit "1"), .ok ())

/-- The forks of three requests take turns. -/
def taking_turns (requests : Nat → Msg × Except Str Unit) : List Event :=
  [1, 0, 2].map (fun k => .deliver k (requests k).1 (requests k).2 []) ++ (List.replicate 4 [1, 0, 2]).flatten.map .step

theorem taking_turns_asks (requests : Nat → Msg × Except Str Unit) : Asks requests (taking_turns requests) := by
  intro k m mc tmp h
  simp only [taking_turns, List.mem_append, List.mem_map, reduceCtorEq, and_false, exists_false, or_false] at h
  obtain ⟨k', -, h⟩ := h
  cases h
  rfl

abbrev turns_after (evs : List Event) : System Str :=
  reached turns_host small_options small_R (fun _ => none) (fun _ => none) evs

def only_first (evs : List Event) : List Event := evs.filter (·.request.any (· == 0))

theorem removes_others {a : String} {b : Str} {other : Msg} (h₀ : instance_level (assign_on a (lit "0")) ≠ some b)
    (h₁ : instance_level other = some b) : Removes (turns_requests a other) b (· == 0) where
  aside k hk := by
    have hk0 : k ≠ 0 := by simpa using hk
    simp only [turns_requests, if_neg hk0]
    split
    · exact Or.inl h₁
    · exact Or.inr (by decide +kernel)
  all k hk := by
    have hk0 : k ≠ 0 := by
      intro heq
      subst heq
      exact h₀ hk
    simpa using hk0

def x_and_y : List Event := taking_turns (turns_requests "x" (assign_on "y" (lit "1")))

theorem x_and_y_isolated :
    saved_env (turns_after x_and_y).sessions.fs (lit "x") =
      saved_env (turns_after (only_first x_and_y)).sessions.fs (lit "x") ∧
      (turns_after x_and_y).answers 0 = (turns_after (only_first x_and_y)).answers 0 ∧
      (turns_after x_and_y).answers 2 =
        static_answer turns_host small_options small_R (fun _ => none) (turns_requests "x" (assign_on "y" (lit "1")) 2) := by
  have hclash : NoClash (Called turns_host x_and_y) := by
    intro hdot
    obtain ⟨e, he, hx⟩ := hdot
    have hne : ∀ e ∈ x_and_y, called turns_host e ≠ some (lit ".") := by decide +kernel
    exact absurd hx (hne e he)
  have hask : Asks (turns_requests "x" (assign_on "y" (lit "1"))) x_and_y := taking_turns_asks _
  have hpurged : Purged (· == 0) x_and_y (only_first x_and_y) := purged_filter _ _
  obtain ⟨hsaved, hanswers, hstatic⟩ := instances_isolated turns_host small_options small_R (fun _ => none)
    (a := lit "x") (b := lit "y") ⟨by decide, by decide⟩ (by decide) (by decide) hask
    (removes_others (by decide +kernel) (by decide +kernel)) hpurged hclash (by decide +kernel) (by decide +kernel)
  have hd : ((turns_after x_and_y).deliveries 2).isSome = true := by decide +kernel
  obtain ⟨d, hd⟩ := Option.isSome_iff_exists.mp hd
  have hterm : ((turns_after x_and_y).sessions.forks 2).all (·.stage.terminated) = true := by decide +kernel
  unfold turns_after at hd hterm ⊢
  exact ⟨hsaved, hanswers 0 (by decide +kernel), hstatic 2 d (by decide +kernel) (by decide +kernel) hd
    fun f hf => (Option.all_eq_true _ _).mp hterm f hf⟩

/-- A call on `.RData` makes a directory where the session of `.` has its file. -/
def dot_and_file : List Event := taking_turns (turns_requests "." (assign_on ".RData" (lit "1")))

/-- A payload for `y` that names no topic for the reply ends the agent before the request on `x`. -/
def unanswerable : List Event :=
  taking_turns (turns_requests "x" ⟨lit "d/a/Session/y/call", lit "\x7b\"a\":[]\x7d"⟩)

theorem dot_session_is_not_isolated :
    (turns_after dot_and_file).answers 0 ≠ (turns_after (only_first dot_and_file)).answers 0 ∧
      (turns_after unanswerable).answers 0 ≠ (turns_after (only_first unanswerable)).answers 0 := by
  refine ⟨fun h => ?_, fun h => ?_⟩
  · exact absurd (congrArg List.length h) (by decide +kernel)
  · exact absurd (congrArg List.length h) (by decide +kernel)

end VrpcAgent

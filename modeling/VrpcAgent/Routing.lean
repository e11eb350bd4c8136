import VrpcAgent.Topics
import VrpcAgent.History
import VrpcAgent.Unchanged

/-!
# The way from a topic to a function

Topics and filters are put together from strings that nobody checks, and the
tokenizer drops empty levels. The way back works for plain names below a domain and
an agent that make two levels between them.
-/

namespace VrpcAgent

open Function Effects Runs

/-! ## Topics and filters -/

def TopicName (t : Str) : Prop := 43 ∉ t ∧ 35 ∉ t

structure TopicFilter (f : Str) : Prop where
  plus : ∀ l ∈ levels f, 43 ∈ l → l = lit "+"
  hash : ∀ l ∈ levels f, 35 ∈ l → l = lit "#"
  last : ∀ l ∈ (levels f).dropLast, 35 ∉ l

def call_topic (opts : Options) (inst function : Str) : Str :=
  opts.domain ++ lit "/" ++ opts.agent ++ lit "/Session/" ++ inst ++ lit "/" ++ function

theorem levels_join (x s : Str) : levels (x ++ 47 :: s) = levels x ++ levels s := List.splitOn_append_cons_self x s

theorem join_levels (x : Str) : List.intercalate [47] (levels x) = x := List.intercalate_splitOn 47

theorem levels_ne_nil (x : Str) : levels x ≠ [] := List.splitOn_ne_nil 47 x

theorem mem_level {x l : Str} (h : l ∈ levels x) : 47 ∉ l ∧ ∀ c ∈ l, c ∈ x := by
  induction x generalizing l with
  | nil =>
    rw [List.mem_singleton.mp h]
    exact ⟨List.not_mem_nil, fun c hc => hc⟩
  | cons b s ih =>
    by_cases hb : b = 47
    · subst hb
      rw [levels_slash] at h
      rcases List.mem_cons.mp h with rfl | h
      · exact ⟨List.not_mem_nil, fun c hc => by cases hc⟩
      · exact ⟨(ih h).1, fun c hc => List.mem_cons_of_mem _ ((ih h).2 c hc)⟩
    · rw [← levels_from_nil, levels_from_cons hb, levels_from] at h
      obtain ⟨l₀, ls, hl⟩ := List.exists_cons_of_ne_nil (levels_ne_nil s)
      rw [hl, List.modifyHead_cons] at h
      rcases List.mem_cons.mp h with rfl | h
      · have ih₀ := ih (hl ▸ List.mem_cons_self)
        refine ⟨?_, fun c hc => ?_⟩
        · simp [ih₀.1, Ne.symm hb]
        · rcases List.mem_cons.mp hc with rfl | hc
          · exact List.mem_cons_self
          · exact List.mem_cons_of_mem _ (ih₀.2 c hc)
      · have ih₁ := ih (hl ▸ List.mem_cons_of_mem _ h)
        exact ⟨ih₁.1, fun c hc => List.mem_cons_of_mem _ (ih₁.2 c hc)⟩

theorem single_of_token {x l : Str} (h : l ∈ tokenize x (lit "/")) : l ≠ [] ∧ 47 ∉ l := by
  rw [tokenize_eq, List.mem_filter] at h
  exact ⟨by simpa using h.2, (mem_level h.1).1⟩

theorem tokenize_single {x : Str} (hne : x ≠ []) (hx : 47 ∉ x) : tokenize x (lit "/") = [x] := by
  rw [tokenize_eq, levels_plain hx]
  simp [hne]

theorem level_matches_append {p : List Str} (hp : ∀ l ∈ p, 35 ∉ l) (fs ts : List Str) :
    level_matches (p ++ fs) (p ++ ts) = level_matches fs ts := by
  induction p with
  | nil => rfl
  | cons l p ih =>
    have hl : l ≠ lit "#" := by
      intro heq
      exact hp l List.mem_cons_self (heq ▸ by decide)
    simp only [List.cons_append, level_matches, hl, decide_false, Bool.false_or, decide_true, Bool.or_true, Bool.true_and]
    exact ih fun l' hl' => hp l' (List.mem_cons_of_mem l hl')

section
variable (opts : Options)

def area : List Str := levels opts.domain ++ (levels opts.agent ++ [lit "Session"])

theorem levels_call_topic (x f : Str) : levels (call_topic opts x f) = area opts ++ (levels x ++ levels f) := by
  have h : call_topic opts x f = opts.domain ++ 47 :: (opts.agent ++ 47 :: (lit "Session" ++ 47 :: (x ++ 47 :: f))) := by
    simp [call_topic, lit]
  rw [h, levels_join, levels_join, levels_join, levels_join, levels_plain (x := lit "Session") (by decide), area]
  simp only [List.append_assoc]

theorem instance_filter_eq (x : Str) : instance_filter opts x = call_topic opts x (lit "+") := by
  simp [instance_filter, call_topic, lit]

theorem static_filter_eq (f : Str) : base_topic opts ++ f = call_topic opts (lit "__static__") f := by
  simp [base_topic, call_topic, lit]

theorem tokenize_call_topic (x f : Str) : tokenize (call_topic opts x f) (lit "/") =
    tokenize opts.domain (lit "/") ++ tokenize opts.agent (lit "/") ++
      lit "Session" :: (tokenize x (lit "/") ++ tokenize f (lit "/")) := by
  rw [tokenize_eq, levels_call_topic, area]
  simp only [tokenize_eq, List.filter_append, List.append_assoc]
  rfl

theorem topicName_call_topic_iff {x f : Str} : TopicName (call_topic opts x f) ↔
    (43 ∉ opts.domain ∧ 43 ∉ opts.agent ∧ 43 ∉ x ∧ 43 ∉ f) ∧ 35 ∉ opts.domain ∧ 35 ∉ opts.agent ∧ 35 ∉ x ∧ 35 ∉ f := by
  have h : ∀ c : UInt8, c ∉ lit "/" → c ∉ lit "/Session/" → (c ∉ call_topic opts x f ↔
      c ∉ opts.domain ∧ c ∉ opts.agent ∧ c ∉ x ∧ c ∉ f) := by
    intro c h₁ h₂
    simp only [call_topic, List.mem_append, h₁, h₂, or_false, not_or, and_assoc]
  rw [TopicName, h 43 (by decide) (by decide), h 35 (by decide) (by decide)]

/-! ## The round trip -/

/-- A message can be published to the topic, and matches a subscription that is held. -/
structure Delivered (b : Broker) (topic : Str) : Prop where
  name : TopicName topic
  subscription : ∃ f, b.held f = true ∧ TopicFilter f ∧ topic_matches f topic = true

/-- The tokens that the publish handler takes the instance and the function from. -/
def Decodes (x f : Str) : Prop :=
  ∃ d a c, tokenize (call_topic opts x f) (lit "/") = [d, a, c, x, f]

structure RoundTrips (b : Broker) (x f : Str) : Prop where
  member : Delivered b (call_topic opts x f)
  static : Delivered b (call_topic opts (lit "__static__") f)
  decodes : Decodes opts x f
  decodes_static : Decodes opts (lit "__static__") f
  apart : ∀ y g, y ≠ x ∨ y = lit "__static__" → topic_matches (instance_filter opts x) (call_topic opts y g) = false

/-- Domain and agent make two levels, the instance and the function one each, none of
them has a wildcard, and the instance is not called like the static area. -/
structure Routable (x f : Str) : Prop where
  levels : (tokenize opts.domain (lit "/")).length + (tokenize opts.agent (lit "/")).length = 2
  domain : 43 ∉ opts.domain ∧ 35 ∉ opts.domain
  agent : 43 ∉ opts.agent ∧ 35 ∉ opts.agent
  inst : Plain x
  function : Plain f
  not_static : x ≠ lit "__static__"

variable {opts} {x f : Str}

theorem decodes_iff : Decodes opts x f ↔ x ≠ [] ∧ 47 ∉ x ∧ f ≠ [] ∧ 47 ∉ f ∧
    (tokenize opts.domain (lit "/")).length + (tokenize opts.agent (lit "/")).length = 2 := by
  constructor
  · intro h
    obtain ⟨d, a, c, htok⟩ := h
    have hsingle : ∀ l ∈ [x, f], l ≠ [] ∧ 47 ∉ l := by
      intro l hl
      apply single_of_token (x := call_topic opts x f)
      rw [htok]
      exact List.mem_cons_of_mem _ (List.mem_cons_of_mem _ (List.mem_cons_of_mem _ hl))
    obtain ⟨hx, hx'⟩ := hsingle x List.mem_cons_self
    obtain ⟨hf, hf'⟩ := hsingle f (List.mem_cons_of_mem _ List.mem_cons_self)
    rw [tokenize_call_topic, tokenize_single hx hx', tokenize_single hf hf'] at htok
    have hlen := congrArg List.length htok
    simp only [List.length_append, List.length_cons, List.length_nil] at hlen
    exact ⟨hx, hx', hf, hf', by omega⟩
  · intro h
    obtain ⟨hx, hx', hf, hf', hlen⟩ := h
    have htwo : ∃ d a, tokenize opts.domain (lit "/") ++ tokenize opts.agent (lit "/") = [d, a] :=
      List.length_eq_two.mp (by rw [List.length_append, hlen])
    obtain ⟨d, a, hda⟩ := htwo
    refine ⟨d, a, lit "Session", ?_⟩
    rw [tokenize_call_topic, hda, tokenize_single hx hx', tokenize_single hf hf']
    rfl

theorem area_levels {c : UInt8} (hd : c ∉ opts.domain) (ha : c ∉ opts.agent) (hs : c ∉ lit "Session") :
    ∀ l ∈ area opts, c ∉ l := by
  intro l hl hc
  rcases List.mem_append.mp hl with hl | hl
  · exact hd ((mem_level hl).2 c hc)
  · rcases List.mem_append.mp hl with hl | hl
    · exact ha ((mem_level hl).2 c hc)
    · rw [List.mem_singleton.mp hl] at hc; exact hs hc

section
variable (hd : 43 ∉ opts.domain ∧ 35 ∉ opts.domain) (ha : 43 ∉ opts.agent ∧ 35 ∉ opts.agent)
include hd ha

theorem topicFilter_call_topic {y g : Str} (hy : Plain y) (hg : 47 ∉ g) (hplus : 43 ∈ g → g = lit "+")
    (hhash : 35 ∉ g) : TopicFilter (call_topic opts y g) := by
  have hlevels : levels (call_topic opts y g) = area opts ++ ([y] ++ [g]) := by
    rw [levels_call_topic, levels_plain hy.no_slash, levels_plain hg]
  have hnone : ∀ {c : UInt8}, c ∉ opts.domain → c ∉ opts.agent → c ∉ lit "Session" → c ∉ y → c ∉ g →
      ∀ l ∈ levels (call_topic opts y g), c ∉ l := by
    intro c hd ha hs hcy hcg l hl
    rw [hlevels] at hl
    rcases List.mem_append.mp hl with hl | hl
    · exact area_levels hd ha hs l hl
    · simp only [List.singleton_append, List.mem_cons, List.not_mem_nil, or_false] at hl
      rcases hl with rfl | rfl
      · exact hcy
      · exact hcg
  have hno : ∀ l ∈ levels (call_topic opts y g), 35 ∉ l := hnone hd.2 ha.2 (by decide) hy.no_hash hhash
  refine ⟨fun l hl hc => ?_, fun l hl hc => absurd hc (hno l hl), fun l hl => hno l (List.dropLast_subset _ hl)⟩
  rw [hlevels] at hl
  rcases List.mem_append.mp hl with hl | hl
  · exact absurd hc (area_levels hd.1 ha.1 (by decide) l hl)
  · simp only [List.singleton_append, List.mem_cons, List.not_mem_nil, or_false] at hl
    rcases hl with rfl | rfl
    · exact absurd hc hy.no_plus
    · exact hplus hc

theorem topicName_call_topic (hx : Plain x) (hf : Plain f) : TopicName (call_topic opts x f) := by
  apply (topicName_call_topic_iff opts).mpr
  exact ⟨⟨hd.1, ha.1, hx.no_plus, hf.no_plus⟩, hd.2, ha.2, hx.no_hash, hf.no_hash⟩

theorem delivered_member (hx : Plain x) (hf : Plain f) {b : Broker} (hb : b.held (instance_filter opts x) = true) :
    Delivered b (call_topic opts x f) := by
  refine ⟨topicName_call_topic hd ha hx hf, _, hb, ?_, ?_⟩
  · rw [instance_filter_eq]
    exact topicFilter_call_topic hd ha hx (by decide) (fun _ => rfl) (by decide)
  · rw [topic_matches, instance_filter_eq, levels_call_topic, levels_call_topic,
      level_matches_append (area_levels hd.2 ha.2 (by decide)), level_matches_append fun l hl => ?_]
    · rw [levels_plain hf.no_slash]; rfl
    · rw [levels_plain hx.no_slash] at hl
      rw [List.mem_singleton.mp hl]; exact hx.no_hash

theorem delivered_static (hf : Plain f) {b : Broker} (hb : b.held (base_topic opts ++ f) = true) :
    Delivered b (call_topic opts (lit "__static__") f) := by
  refine ⟨topicName_call_topic hd ha plain_static hf, _, hb, ?_, ?_⟩
  · rw [static_filter_eq]
    exact topicFilter_call_topic hd ha plain_static hf.no_slash (fun hc => absurd hc hf.no_plus) hf.no_hash
  · rw [topic_matches, static_filter_eq, levels_call_topic, ← List.append_nil (area opts ++ _),
      level_matches_append fun l hl => ?_]
    · rfl
    · rcases List.mem_append.mp hl with hl | hl
      · exact area_levels hd.2 ha.2 (by decide) l hl
      · rw [levels_plain plain_static.no_slash, levels_plain hf.no_slash] at hl
        simp only [List.singleton_append, List.mem_cons, List.not_mem_nil, or_false] at hl
        rcases hl with rfl | rfl
        · exact plain_static.no_hash
        · exact hf.no_hash

end

theorem instance_filter_apart (h : Routable opts x f) {y g : Str}
    (hm : topic_matches (instance_filter opts x) (call_topic opts y g) = true) : y = x := by
  rw [topic_matches, instance_filter_eq, levels_call_topic, levels_call_topic,
    level_matches_append (area_levels h.domain.2 h.agent.2 (by decide)), levels_plain h.inst.no_slash] at hm
  obtain ⟨ts, hts, hm⟩ := level_matches_plain h.inst hm
  have hone : ts.length = 1 := by
    rw [levels_plain (x := lit "+") (by decide)] at hm
    cases ts with
    | nil => cases hm
    | cons t ts =>
      cases ts with
      | nil => rfl
      | cons t' ts => revert hm; simp [level_matches, lit]
  have hy := List.length_pos_of_ne_nil (levels_ne_nil y)
  have hg := List.length_pos_of_ne_nil (levels_ne_nil g)
  have hlen := congrArg List.length hts
  rw [List.length_append, List.length_cons, hone] at hlen
  obtain ⟨l, hl⟩ := List.length_eq_one_iff.mp (show (levels y).length = 1 by omega)
  rw [hl, List.singleton_append, List.cons.injEq] at hts
  have hjoin := join_levels y
  rw [hl, hts.1] at hjoin
  rw [← hjoin]
  simp [List.intercalate]

theorem routes (h : Routable opts x f) {b : Broker} (hx : b.held (instance_filter opts x) = true)
    (hf : b.held (base_topic opts ++ f) = true) : RoundTrips opts b x f := by
  refine ⟨delivered_member h.domain h.agent h.inst h.function hx, delivered_static h.domain h.agent h.function hf, ?_, ?_,
    fun y g hyg => ?_⟩
  · exact decodes_iff.mpr ⟨h.inst.nonempty, h.inst.no_slash, h.function.nonempty, h.function.no_slash, h.levels⟩
  · exact decodes_iff.mpr ⟨plain_static.nonempty, plain_static.no_slash, h.function.nonempty, h.function.no_slash, h.levels⟩
  · rw [Bool.eq_false_iff]
    intro hm
    have hy := instance_filter_apart h hm
    rcases hyg with hne | hs
    · exact hne hy
    · exact h.not_static (hy ▸ hs)

theorem routable_of_roundTrips {b : Broker} (h : RoundTrips opts b x f) : Routable opts x f := by
  obtain ⟨hx, hx', hf, hf', hlen⟩ := decodes_iff.mp h.decodes
  obtain ⟨⟨hd, ha, hxp, hfp⟩, hd', ha', hxh, hfh⟩ := (topicName_call_topic_iff opts).mp h.member.name
  refine ⟨hlen, ⟨hd, hd'⟩, ⟨ha, ha'⟩, ⟨hx, hx', hxp, hxh⟩, ⟨hf, hf', hfp, hfh⟩, fun hs => ?_⟩
  -- the filter of an instance of that name matches the static calls
  have hm := h.apart x f (Or.inr hs)
  rw [topic_matches, instance_filter_eq, levels_call_topic, levels_call_topic,
    level_matches_append (area_levels hd' ha' (by decide)), levels_plain hx', levels_plain hf',
    level_matches_append fun l hl => by rw [List.mem_singleton.mp hl]; exact hxh] at hm
  cases hm

end

/-! ## The subscriptions of a run -/

section
variable {V : Type} (host : Host) (opts : Options) (R : RLib V)

/-- A subscription is held until a delete asks for its end. -/
theorem held_step {s : System V} {f : Str} (h : s.broker.held f = true) {e : Event}
    (he : ∀ y, asked host e = some (y, false) → f ≠ instance_filter opts y) :
    (s.step host opts R e).broker.held f = true := by
  cases e with
  | deliver k m mc tmp =>
    simp only [System.step]
    split
    · rw [broker_deliver]
      rcases handled_registry host opts mc m s.agent with ⟨hq, -⟩ | ⟨r, y, id, rest, -, -, hout, hq, -⟩ |
        ⟨r, y, id, rest, hr, ha, hout, hq, -⟩
      · rw [held_packets_quiet hq]; exact h
      · rw [hout, List.map_cons, Broker.packets, List.foldl_cons, ← Broker.packets, held_packets_quiet hq]
        simp only [Broker.packet]
        by_cases hfy : f = instance_filter opts y
        · rw [hfy]; exact update_self ..
        · rw [update_of_ne hfy]; exact h
      · have hne : f ≠ instance_filter opts y := he y (by simp only [asked, hr, Option.map_some, ha])
        rw [hout, List.map_cons, Broker.packets, List.foldl_cons, ← Broker.packets, held_packets_quiet hq]
        simp only [Broker.packet]
        rw [update_of_ne hne]; exact h
    · exact h
  | step k => rw [broker_fork, held_packets_quiet (fork_writes_quiet host R s.sessions k)]; exact h
  | ack i =>
    simp only [System.step]
    split
    · exact h
    · split <;> exact h

theorem run_held {s : System V} {f : Str} (h : s.broker.held f = true) {evs : List Event}
    (he : ∀ e ∈ evs, ∀ y, asked host e = some (y, false) → f ≠ instance_filter opts y) :
    (run (System.step host opts R) s evs).broker.held f = true := by
  apply run_inv (P := fun s : System V => s.broker.held f = true) (fun s e hs he => held_step host opts R hs he) h
  exact along_of_mem fun e hmem _ => he e hmem

theorem running_before {s : System V} {evs : List Event} (h : (run (System.step host opts R) s evs).running = true) :
    s.running = true := by
  by_contra hs
  have hstop : (run (System.step host opts R) s evs).running = false := by
    apply run_inv (P := fun s : System V => s.running = false) _ (Bool.not_eq_true _ ▸ hs) (along_true s evs)
    intro s e hs _
    cases e with
    | deliver k m mc tmp => simp only [System.step, hs, Bool.false_eq_true, false_and, if_false]
    | step k => exact hs
    | ack i =>
      simp only [System.step, hs]
      split <;> exact hs
  rw [hstop] at h
  cases h

theorem held_of_subscribe {f : Str} : ∀ {l : List Packet} {b : Broker}, (∀ p ∈ l, ∀ g, p ≠ .unsubscribe g) →
    b.held f = true ∨ .subscribe f ∈ l → (b.packets l).held f = true
  | [], b, _, h => h.resolve_right (by simp)
  | p :: l, b, hl, h => by
    rw [Broker.packets, List.foldl_cons, ← Broker.packets]
    apply held_of_subscribe (fun q hq => hl q (List.mem_cons_of_mem p hq))
    by_cases hp : p = .subscribe f
    · subst hp
      exact Or.inl (update_self ..)
    · rcases h with h | h
      · refine Or.inl ?_
        cases p with
        | publish t j r => cases r <;> exact h
        | subscribe g =>
          have hg : f ≠ g := fun heq => hp (by rw [heq])
          simp only [Broker.packet]
          rw [update_of_ne hg]; exact h
        | unsubscribe g => exact absurd rfl (hl _ List.mem_cons_self g)
      · exact Or.inr ((List.mem_cons.mp h).resolve_left (Ne.symm hp))

theorem static_held {genv : Env V} {fs : FS V} (hrun : (System.start host opts genv fs).running = true) {f : Str}
    (hf : f ∈ opts.functions) : (System.start host opts genv fs).broker.held (base_topic opts ++ f) = true := by
  rw [(broker_start host opts hrun).1]
  apply held_of_subscribe
  · intro p hp g heq
    simp [connack_packets, heq] at hp
  · refine Or.inr ?_
    simp only [connack_packets, List.cons_append, List.mem_cons, List.mem_append, List.mem_map]
    exact Or.inr (Or.inl ⟨f, by simp [hf], rfl⟩)

/-- No delete ends the subscription of a function: the filter of an instance ends in a
wildcard. -/
theorem run_static_held {genv : Env V} {fs : FS V} {f : Str} (hf : Plain f) (hmem : f ∈ opts.functions)
    (hrun : (System.start host opts genv fs).running = true) {evs : List Event} :
    (run (System.step host opts R) (System.start host opts genv fs) evs).broker.held (base_topic opts ++ f) = true := by
  apply run_held host opts R (static_held host opts hrun hmem)
  intro e _ y _ heq
  have hlevels := congrArg levels heq
  rw [static_filter_eq, instance_filter_eq, levels_call_topic, levels_call_topic] at hlevels
  have hlast := congrArg List.getLast? hlevels
  rw [levels_plain hf.no_slash, levels_plain (x := lit "+") (by decide), ← List.append_assoc, ← List.append_assoc,
    List.getLast?_concat, List.getLast?_concat] at hlast
  exact hf.no_plus (by rw [Option.some.inj hlast]; decide)

structure CreateAnswered (s : System V) (k : Nat) (m : Msg) (mc : Except Str Unit) (tmp : Str) (x : Str) : Prop where
  running : s.running = true
  delivery : s.deliveries k = none
  request : ∃ r, request host m = some r ∧ r.action mc = .create x
  reply : ∃ q ∈ written (s.step host opts R (.deliver k m mc tmp)).log (.handler k), ∃ t j,
    q.packet = .publish t (.object j) false ∧ Json.find (lit "r") j = some (.string x) ∧ Json.find (lit "e") j = none

theorem created_held {s : System V} (ht : Traced host opts s) {k : Nat} {m : Msg} {mc : Except Str Unit} {tmp x : Str}
    (h : CreateAnswered host opts R s k m mc tmp x) :
    (s.step host opts R (.deliver k m mc tmp)).broker.held (instance_filter opts x) = true := by
  obtain ⟨hrun, hk, ⟨r, hr, ha⟩, q, hq, t, j, hp, -, he⟩ := h
  rw [step_deliver host opts R hrun hk] at hq ⊢
  rw [ht.written_deliver host opts hk] at hq
  have hserved : after (handled host opts mc m s.agent) = after (served host ⟨r.register s.agent, .object r.body, [], none⟩
      (writes opts s.agent.instances r.body (.create x))) := by
    rw [handled_served host opts hr (by rw [ha]; rfl), after_andThen_pure, ha]
  rw [broker_deliver]
  rw [hserved, writes] at hq ⊢
  cases hw : (write host ⟨s.agent.instances, r.body, .ok (.subscribe (instance_filter opts x))⟩).run
      ⟨r.register s.agent, .object r.body, [], none⟩ with
  | ok u s' =>
    rw [served_cons_ok host hw]
    obtain ⟨hj, -⟩ := write_frame host hw
    obtain ⟨rest, hout, hquiet⟩ := onward_served host hj _ (quiet_info_reply opts (s.agent.instances ++ [x]) r.body
      (Json.put (lit "r") (.string x) r.body))
    obtain ⟨p, id, pids, hp, -, -, rfl⟩ := write_ok host hw
    cases hp
    rw [hout, List.nil_append, List.map_append, Broker.packets_append, held_packets_quiet hquiet]
    exact update_self ..
  | error e s' =>
    -- what goes out then is the error reply
    rw [served_cons_error host hw] at hq
    obtain ⟨pids, rfl, -⟩ := write_error host hw
    obtain ⟨pids', new, hafter, hnew⟩ := after_write host (reply_write s.agent.instances
      (Json.put (lit "e") (.string (error_text e)) r.body))
        ⟨{ r.register s.agent with instances := s.agent.instances, pids }, .object r.body, [], none⟩
    rw [hafter] at hq
    rcases hnew with ⟨rfl, -⟩ | ⟨id, p, rfl, hpk, -⟩
    · cases hq
    · rw [List.nil_append, List.mem_singleton] at hq
      obtain ⟨t', -, rfl⟩ := reply_packet_eq hpk
      rw [hq] at hp
      cases hp
      rw [Json.find_touch_of_ne (by decide), Json.find_put_self] at he
      cases he

/-- **Topics lead back** to the instance and the function exactly when these are
routable, as long as the instance is not deleted. -/
theorem routing_iff (genv : Env V) (fs : FS V) {before since : List Event} {k : Nat} {m : Msg} {mc : Except Str Unit}
    {tmp x f : Str} (hc : CreateAnswered host opts R (run (System.step host opts R) (System.start host opts genv fs) before)
      k m mc tmp x) (hsince : ∀ e ∈ since, asked host e ≠ some (x, false)) (hf : f ∈ opts.functions) :
    RoundTrips opts (run (System.step host opts R) (System.start host opts genv fs)
        (before ++ .deliver k m mc tmp :: since)).broker x f ↔ Routable opts x f := by
  refine ⟨routable_of_roundTrips, fun h => routes h ?_ ?_⟩
  · rw [run_append, run_cons]
    apply run_held host opts R (created_held host opts R (run_traced host opts R (fresh_start host opts genv fs) before) hc)
    intro e he y hy heq
    exact hsince e he (by rw [hy, instance_filter_inj opts heq])
  · exact run_static_held host opts R h.function hf (running_before host opts R hc.running)

end

/-! ## Two names -/

def f_options : Options := { small_options with functions := [lit "f"] }

def naming_host (x : Str) : Host := small_host [(lit "t", [x])]

def create_named (x : Str) : Msg := small_request "__static__" "__createShared__" (lit "t") [x]

def answers (x : Str) (s : Sent) : Bool :=
  match s.packet with
  | .publish _ (.object j) false =>
    match Json.find (lit "r") j with
    | some (.string y) => y == x && (Json.find (lit "e") j).isNone
    | _ => false
  | _ => false

theorem answers_spec {x : Str} {s : Sent} (h : answers x s = true) : ∃ t j,
    s.packet = .publish t (.object j) false ∧ Json.find (lit "r") j = some (.string x) ∧ Json.find (lit "e") j = none := by
  unfold answers at h
  split at h
  · rename_i t j hp
    split at h
    · rename_i y hr
      rw [Bool.and_eq_true, beq_iff_eq, Option.isNone_iff_eq_none] at h
      exact ⟨t, j, hp, by rw [hr, h.1], h.2⟩
    · cases h
  · cases h

def creates (x : Str) (r : Request) : Bool :=
  match r.action (.ok ()) with
  | .create y => y == x
  | _ => false

theorem creates_spec {x : Str} {r : Request} (h : creates x r = true) : r.action (.ok ()) = .create x := by
  unfold creates at h
  split at h
  · rename_i y hy
    rw [hy, beq_iff_eq.mp h]
  · cases h

theorem created_named {x : Str}
    (hrun : (System.start (naming_host x) f_options (V := Str) (fun _ => none) (fun _ => none)).running = true)
    (hreq : (request (naming_host x) (create_named x)).any (creates x) = true)
    (hans : (written ((System.start (naming_host x) f_options (fun _ => none) (fun _ => none)).step (naming_host x) f_options
      small_R (.deliver 0 (create_named x) (.ok ()) [])).log (.handler 0)).any (answers x) = true) :
    CreateAnswered (naming_host x) f_options small_R
      (System.start (naming_host x) f_options (fun _ => none) (fun _ => none)) 0 (create_named x) (.ok ()) [] x := by
  obtain ⟨r, hr, hc⟩ := (Option.any_eq_true (creates x) _).mp hreq
  obtain ⟨q, hq, ha⟩ := List.any_eq_true.mp hans
  exact ⟨hrun, rfl, ⟨r, hr, creates_spec hc⟩, q, hq, answers_spec ha⟩

theorem plain_name_routes :
    RoundTrips f_options (run (System.step (naming_host (lit "x")) f_options small_R)
      (System.start (naming_host (lit "x")) f_options (fun _ => none) (fun _ => none))
      ([] ++ [.deliver 0 (create_named (lit "x")) (.ok ()) []])).broker (lit "x") (lit "f") := by
  apply (routing_iff (naming_host (lit "x")) f_options small_R (fun _ => none) (fun _ => none)
    (created_named (by decide +kernel) (by decide +kernel) (by decide +kernel)) (by simp) (by decide)).mpr
  exact ⟨by decide +kernel, by decide, by decide, ⟨by decide, by decide, by decide, by decide⟩,
    ⟨by decide, by decide, by decide, by decide⟩, by decide⟩

theorem name_with_slash_does_not_route :
    ¬ ∀ (x f : Str), CreateAnswered (naming_host x) f_options small_R
        (System.start (naming_host x) f_options (fun _ => none) (fun _ => none)) 0 (create_named x) (.ok ()) [] x →
      f ∈ f_options.functions →
        RoundTrips f_options ((System.start (naming_host x) f_options (fun _ => none) (fun _ => none)).step (naming_host x)
          f_options small_R (.deliver 0 (create_named x) (.ok ()) [])).broker x f := by
  intro h
  have hr := h (lit "x/y") (lit "f") (created_named (by decide +kernel) (by decide +kernel) (by decide +kernel)) (by decide)
  exact absurd (decodes_iff.mp hr.decodes).2.1 (by decide)

end VrpcAgent

import VrpcAgent.Tokens

/-!
# Topic filters

What the filters of the agent match, level by level, and what the tokenizer makes of
such a topic.
-/

namespace VrpcAgent

/-! ## Topic levels -/

def levels (topic : Str) : List Str := topic.splitOn 47

/-- A filter against a topic, level by level: `+` stands for one level, `#` for
the rest. -/
def level_matches : List Str → List Str → Bool
  | [], ts => ts.isEmpty
  | f :: fs, ts =>
    f = lit "#" || match ts with
      | [] => false
      | t :: ts => (f = lit "+" || f = t) && level_matches fs ts

def topic_matches (f topic : Str) : Bool := level_matches (levels f) (levels topic)

structure Plain (x : Str) : Prop where
  nonempty : x ≠ []
  no_slash : 47 ∉ x
  no_plus : 43 ∉ x
  no_hash : 35 ∉ x

def levels_from (pre s : Str) : List Str := (levels s).modifyHead (pre ++ ·)

theorem levels_from_nil (s : Str) : levels_from [] s = levels s := by
  unfold levels_from; cases levels s <;> rfl

theorem levels_slash (s : Str) : levels (47 :: s) = [] :: levels s := by
  rw [levels, List.splitOn_cons_eq_if_modifyHead]; rfl

theorem levels_from_cons {c : UInt8} (hc : c ≠ 47) (pre s : Str) :
    levels_from pre (c :: s) = levels_from (pre ++ [c]) s := by
  unfold levels_from levels
  rw [List.splitOn_cons_eq_if_modifyHead, if_neg (by simpa using hc)]
  cases s.splitOn 47 <;> simp

/-- The tokens of a topic are its levels, the empty ones left out. -/
theorem tokenize_eq (topic : Str) : tokenize topic (lit "/") = (levels topic).filter (· ≠ []) := by
  have hp : (fun c : UInt8 => decide (c ∈ lit "/" ∧ c ≠ 255)) = (· == 47) := by
    funext c
    by_cases hc : c = 47
    · subst hc; decide
    · simp [lit, hc]
  rw [tokenize_eq_pieces, hp]
  rfl

/-! ## What the filters of the agent match -/

theorem levels_append {x : Str} (hx : 47 ∉ x) (s : Str) : levels (x ++ 47 :: s) = x :: levels s :=
  List.splitOn_append_cons_self_of_not_mem hx s

theorem levels_plain {x : Str} (hx : 47 ∉ x) : levels x = [x] := List.splitOn_eq_singleton hx

theorem level_matches_plain {x : Str} (hx : Plain x) {fs ts : List Str} (h : level_matches (x :: fs) ts = true) :
    ∃ ts', ts = x :: ts' ∧ level_matches fs ts' = true := by
  have hhash : x ≠ lit "#" := by
    intro heq
    subst heq
    exact hx.no_hash (by decide)
  have hplus : x ≠ lit "+" := by
    intro heq
    subst heq
    exact hx.no_plus (by decide)
  cases ts with
  | nil => simp [level_matches, hhash] at h
  | cons t ts =>
    simp only [level_matches, hhash, hplus, decide_false, Bool.false_or, Bool.and_eq_true, decide_eq_true_eq] at h
    exact ⟨ts, by rw [h.1], h.2⟩

theorem plain_session : Plain (lit "Session") := ⟨by decide, by decide, by decide, by decide⟩

theorem plain_static : Plain (lit "__static__") := ⟨by decide, by decide, by decide, by decide⟩

section
variable {opts : Options} (hd : Plain opts.domain) (ha : Plain opts.agent)
include hd ha

theorem levels_class (s : Str) :
    levels (opts.domain ++ lit "/" ++ opts.agent ++ lit "/Session/" ++ s) =
      opts.domain :: opts.agent :: lit "Session" :: levels s := by
  have h : opts.domain ++ lit "/" ++ opts.agent ++ lit "/Session/" ++ s =
      opts.domain ++ 47 :: (opts.agent ++ 47 :: (lit "Session" ++ 47 :: s)) := by
    simp [lit]
  rw [h, levels_append hd.no_slash, levels_append ha.no_slash, levels_append (by decide)]

theorem match_class {s topic : Str}
    (h : topic_matches (opts.domain ++ lit "/" ++ opts.agent ++ lit "/Session/" ++ s) topic = true) :
    ∃ ts, levels topic = opts.domain :: opts.agent :: lit "Session" :: ts ∧ level_matches (levels s) ts = true := by
  rw [topic_matches, levels_class hd ha] at h
  obtain ⟨t₁, h₁, h⟩ := level_matches_plain hd h
  obtain ⟨t₂, h₂, h⟩ := level_matches_plain ha h
  obtain ⟨t₃, h₃, h⟩ := level_matches_plain plain_session h
  exact ⟨t₃, by rw [h₁, h₂, h₃], h⟩

theorem match_static {g topic : Str} (h : topic_matches (base_topic opts ++ g) topic = true) :
    ∃ ts, tokenize topic (lit "/") = opts.domain :: opts.agent :: lit "Session" :: lit "__static__" :: ts := by
  have hbase : base_topic opts ++ g =
      opts.domain ++ lit "/" ++ opts.agent ++ lit "/Session/" ++ (lit "__static__" ++ 47 :: g) := by
    simp [base_topic, lit]
  rw [hbase] at h
  obtain ⟨ts, hl, h⟩ := match_class hd ha h
  rw [levels_append (by decide)] at h
  obtain ⟨t₁, h₁, -⟩ := level_matches_plain plain_static h
  refine ⟨t₁.filter (· ≠ []), ?_⟩
  rw [tokenize_eq, hl, h₁]
  simp [hd.nonempty, ha.nonempty, plain_session.nonempty, plain_static.nonempty]

theorem match_instance {x topic : Str} (hx : Plain x) (h : topic_matches (instance_filter opts x) topic = true) :
    ∃ v, tokenize topic (lit "/") = [opts.domain, opts.agent, lit "Session", x] ++ [v].filter (· ≠ []) := by
  have hf : instance_filter opts x = opts.domain ++ lit "/" ++ opts.agent ++ lit "/Session/" ++ (x ++ 47 :: lit "+") := by
    simp [instance_filter, lit]
  rw [hf] at h
  obtain ⟨ts, hl, h⟩ := match_class hd ha h
  rw [levels_append hx.no_slash, levels_plain (by decide)] at h
  obtain ⟨t₁, h₁, h⟩ := level_matches_plain hx h
  cases t₁ with
  | nil => cases h
  | cons v ts' =>
    have hnil : ts' = [] := by
      cases ts' with
      | nil => rfl
      | cons t ts' => revert h; simp [level_matches, lit]
    refine ⟨v, ?_⟩
    rw [tokenize_eq, hl, h₁, hnil]
    simp [List.filter_cons, hd.nonempty, ha.nonempty, plain_session.nonempty, hx.nonempty]

end

end VrpcAgent

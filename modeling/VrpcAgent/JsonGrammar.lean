import VrpcAgent.JsonParser

/-!
# The texts that the parser accepts

The parser keeps the open arrays and objects on a stack, the grammar in its derivations.
It accepts exactly the texts of the grammar, with the values that the grammar gives them.
-/

namespace VrpcAgent.Json

open Loops

/-! ## The grammar -/

def put_all (ms : List (Str × Json)) (m : List (Str × Json)) : List (Str × Json) := ms.foldl (fun m x => put x.1 x.2 m) m

section
variable (strtod : Str → Option Rat)

mutual
/-- `Value t s v s'`: the token `t` and the text `s` up to `s'` are a value, `v`. -/
inductive Value : Token → Str → Json → Str → Prop
  | literal_null {s} : Value .literal_null s .null s
  | literal_true {s} : Value .literal_true s (.boolean true) s
  | literal_false {s} : Value .literal_false s (.boolean false) s
  | string {x s} : Value (.value_string x) s (.string x) s
  | unsigned {x s} : Value (.value_unsigned x) s (.number x) s
  | integer {x s} : Value (.value_integer x) s (.number x) s
  | float {x s} : Value (.value_float (some x)) s (.number x) s
  | empty_array {s s'} (close : scan strtod s = (.end_array, s')) : Value .begin_array s (.array []) s'
  | array {s t s₁ xs s'} (first : scan strtod s = (t, s₁)) (elements : Elements t s₁ xs s') :
    Value .begin_array s (.array xs) s'
  | empty_object {s s'} (close : scan strtod s = (.end_object, s')) : Value .begin_object s (.object []) s'
  | object {s t s₁ ms s'} (first : scan strtod s = (t, s₁)) (members : Members t s₁ ms s') :
    Value .begin_object s (.object (put_all ms [])) s'

inductive Elements : Token → Str → List Json → Str → Prop
  | last {t s v s₁ s'} (value : Value t s v s₁) (close : scan strtod s₁ = (.end_array, s')) : Elements t s [v] s'
  | more {t s v s₁ s₂ t' s₃ xs s'} (value : Value t s v s₁) (comma : scan strtod s₁ = (.value_separator, s₂))
    (next : scan strtod s₂ = (t', s₃)) (elements : Elements t' s₃ xs s') : Elements t s (v :: xs) s'

inductive Members : Token → Str → List (Str × Json) → Str → Prop
  | last {k s s₁ t s₂ v s₃ s'} (colon : scan strtod s = (.name_separator, s₁)) (first : scan strtod s₁ = (t, s₂))
    (value : Value t s₂ v s₃) (close : scan strtod s₃ = (.end_object, s')) : Members (.value_string k) s [(k, v)] s'
  | more {k s s₁ t s₂ v s₃ s₄ t' s₅ ms s'} (colon : scan strtod s = (.name_separator, s₁)) (first : scan strtod s₁ = (t, s₂))
    (value : Value t s₂ v s₃) (comma : scan strtod s₃ = (.value_separator, s₄)) (next : scan strtod s₄ = (t', s₅))
    (members : Members t' s₅ ms s') : Members (.value_string k) s ((k, v) :: ms) s'
end

def Document (s : Str) (v : Json) : Prop :=
  ∃ s₀ s₁, skip_bom s = some s₀ ∧ Value strtod (scan strtod s₀).1 (scan strtod s₀).2 v s₁ ∧ (scan strtod s₁).1 = .end_of_input

end

theorem value_token {strtod : Str → Option Rat} {t : Token} {s : Str} {v : Json} {s' : Str} (h : Value strtod t s v s') :
    t.live = true ∧ t ≠ .end_array := by
  cases h <;> exact ⟨rfl, nofun⟩

theorem elements_token {strtod : Str → Option Rat} {t : Token} {s : Str} {xs : List Json} {s' : Str}
    (h : Elements strtod t s xs s') : t ≠ .end_array := by
  cases h with
  | last value close => exact (value_token value).2
  | more value comma next elements => exact (value_token value).2

theorem members_token {strtod : Str → Option Rat} {t : Token} {s : Str} {ms : List (Str × Json)} {s' : Str}
    (h : Members strtod t s ms s') : t ≠ .end_object := by
  cases h <;> exact nofun

/-! ## The loop ends -/

section
variable {strtod : Str → Option Rat}

theorem scan_left {s s' : Str} {t : Token} (h : scan strtod s = (t, s')) :
    s'.length + (if t.live then 1 else 0) ≤ s.length := by
  have hlen := scan_length strtod s
  rw [h] at hlen
  exact hlen

variable (strtod) in
theorem parse_key_size {p q : Parser} (hskip : p.skip_to_state_evaluation = false) (h : p.parse_key strtod = .go q) :
    q.size ≤ p.input.length := by
  have h1 := scan_length strtod p.input
  have h2 := scan_length strtod (scan strtod p.input).2
  unfold Parser.parse_key Parser.get_token at h
  split at h
  · simp only at h
    split at h
    · cases h
      simp only [Parser.size, hskip, Bool.false_or]
      omega
    · cases h
  · cases h

variable (strtod) in
theorem evaluate_state_size {p q : Parser} (hskip : p.skip_to_state_evaluation = false)
    (h : p.evaluate_state strtod = .go q) :
    q.size ≤ p.input.length := by
  have h1 := scan_length strtod p.input
  have h2 := scan_length strtod (scan strtod p.input).2
  unfold Parser.evaluate_state at h
  split at h
  · cases h
  · simp only at h
    split at h
    · cases h
      simp only [Parser.size, Parser.get_token, hskip, Bool.false_or]
      omega
    · split at h
      · rename_i hclose
        cases h
        simp only [Parser.get_token] at hclose ⊢
        rw [hclose] at h1
        exact h1
      · cases h
  · simp only at h
    split at h
    · have hsize := parse_key_size strtod (by exact hskip) h
      simp only [Parser.get_token] at hsize
      omega
    · split at h
      · rename_i hclose
        cases h
        simp only [Parser.get_token] at hclose ⊢
        rw [hclose] at h1
        exact h1
      · cases h

theorem parse_value_size {p q : Parser} (hskip : p.skip_to_state_evaluation = false) (h : p.parse_value strtod = .go q) :
    p.last_token.live = true ∧ q.size ≤ p.input.length := by
  have h1 := scan_length strtod p.input
  have hvalue : ∀ {v}, p.handle_value strtod v = .go q → q.size ≤ p.input.length := by
    intro v hv
    exact evaluate_state_size strtod (p := { p with sax := p.sax.handle_value v }) hskip hv
  unfold Parser.parse_value at h
  split at h
  case h_1 ht =>
    refine ⟨by rw [ht]; rfl, ?_⟩
    simp only at h
    split at h
    · have hsize := evaluate_state_size strtod (by exact hskip) h
      simp only [Parser.get_token] at hsize
      omega
    · have hsize := parse_key_size strtod (by exact hskip) h
      simp only [Parser.get_token] at hsize
      omega
  case h_2 ht =>
    refine ⟨by rw [ht]; rfl, ?_⟩
    simp only at h
    split at h
    · have hsize := evaluate_state_size strtod (by exact hskip) h
      simp only [Parser.get_token] at hsize
      omega
    · cases h
      simp only [Parser.size, Parser.get_token, hskip, Bool.false_or]
      omega
  case h_3 => cases h
  all_goals first
    | cases h
    | rename_i ht; exact ⟨by rw [ht]; rfl, hvalue h⟩

theorem step_descends : Descends (Parser.step strtod) Parser.size := by
  intro p q h
  unfold Parser.step at h
  split at h
  · rename_i hskip
    have hsize := evaluate_state_size strtod rfl h
    simp only [Parser.size, hskip, Bool.true_or] at hsize ⊢
    exact Nat.lt_succ_of_le hsize
  · rename_i hskip
    obtain ⟨hlive, hsize⟩ := parse_value_size (by simpa using hskip) h
    simp only [Parser.size, hlive, Bool.or_true] at hsize ⊢
    exact Nat.lt_succ_of_le hsize

/-! ## Derivations are parsed -/

variable (strtod) in
def continued (s : Str) (states : List Bool) (sax : Sax) : Option (Option (Sax × Str)) :=
  resume (Parser.step strtod) Parser.size (Parser.evaluate_state strtod ⟨s, .end_of_input, states, sax, false⟩)

variable (strtod) in
def keyed (t : Token) (s : Str) (states : List Bool) (sax : Sax) : Option (Option (Sax × Str)) :=
  resume (Parser.step strtod) Parser.size (Parser.parse_key strtod ⟨s, t, states, sax, false⟩)

theorem parser_value (t : Token) (s : Str) (states : List Bool) (sax : Sax) :
    sax_parse_internal strtod ⟨s, t, states, sax, false⟩ =
    resume (Parser.step strtod) Parser.size (Parser.parse_value strtod ⟨s, t, states, sax, false⟩) := by
  rw [sax_parse_internal, run_eq_resume step_descends, Parser.step]
  rfl

theorem evaluate_any_token (t t' : Token) (s : Str) (states : List Bool) (sax : Sax) :
    Parser.evaluate_state strtod ⟨s, t, states, sax, false⟩ = Parser.evaluate_state strtod ⟨s, t', states, sax, false⟩ := by
  cases states with
  | nil => rfl
  | cons b states => cases b <;> rfl

theorem parser_handle_value (t : Token) (s : Str) (states : List Bool) (sax : Sax) (v : Json) :
    resume (Parser.step strtod) Parser.size (Parser.handle_value strtod ⟨s, t, states, sax, false⟩ v) =
      continued strtod s states (sax.handle_value v) := by
  rw [continued, evaluate_any_token _ t]
  rfl

theorem parser_closed (t : Token) (s : Str) (states : List Bool) (sax : Sax) :
    sax_parse_internal strtod ⟨s, t, states, sax, true⟩ = continued strtod s states sax := by
  rw [sax_parse_internal, run_eq_resume step_descends, Parser.step, continued, evaluate_any_token _ t]
  rfl

section
variable {s s₁ s₂ : Str} {t : Token} {states : List Bool} {sax : Sax}

theorem get_token_eq {b : Bool} (h : scan strtod s = (t, s₁)) (t' : Token) :
    Parser.get_token strtod ⟨s, t', states, sax, b⟩ = ⟨s₁, t, states, sax, b⟩ := by
  simp only [Parser.get_token, h]

theorem array_comma (h : scan strtod s = (.value_separator, s₁)) (h' : scan strtod s₁ = (t, s₂)) :
    continued strtod s (true :: states) sax = sax_parse_internal strtod ⟨s₂, t, true :: states, sax, false⟩ := by
  simp only [continued, Parser.evaluate_state, get_token_eq h, get_token_eq h', if_true]
  rfl

theorem array_close (h : scan strtod s = (.end_array, s₁)) :
    continued strtod s (true :: states) sax = continued strtod s₁ states sax.close := by
  have hgo : continued strtod s (true :: states) sax =
      sax_parse_internal strtod ⟨s₁, .end_array, states, sax.close, true⟩ := by
    simp only [continued, Parser.evaluate_state, get_token_eq h, reduceCtorEq, if_true, if_false]
    rfl
  rw [hgo, parser_closed]

theorem array_stuck (h : scan strtod s = (t, s₁)) (hcomma : t ≠ .value_separator) (hclose : t ≠ .end_array) :
    continued strtod s (true :: states) sax = some none := by
  simp only [continued, Parser.evaluate_state, get_token_eq h, if_neg hcomma, if_neg hclose]
  rfl

theorem object_comma (h : scan strtod s = (.value_separator, s₁)) (h' : scan strtod s₁ = (t, s₂)) :
    continued strtod s (false :: states) sax = keyed strtod t s₂ (false :: states) sax := by
  simp only [continued, Parser.evaluate_state, get_token_eq h, get_token_eq h', if_true]
  rfl

theorem object_close (h : scan strtod s = (.end_object, s₁)) :
    continued strtod s (false :: states) sax = continued strtod s₁ states sax.close := by
  have hgo : continued strtod s (false :: states) sax =
      sax_parse_internal strtod ⟨s₁, .end_object, states, sax.close, true⟩ := by
    simp only [continued, Parser.evaluate_state, get_token_eq h, reduceCtorEq, if_true, if_false]
    rfl
  rw [hgo, parser_closed]

theorem object_stuck (h : scan strtod s = (t, s₁)) (hcomma : t ≠ .value_separator) (hclose : t ≠ .end_object) :
    continued strtod s (false :: states) sax = some none := by
  simp only [continued, Parser.evaluate_state, get_token_eq h, if_neg hcomma, if_neg hclose]
  rfl

theorem key_colon {k : Str} (h : scan strtod s = (.name_separator, s₁)) (h' : scan strtod s₁ = (t, s₂)) :
    keyed strtod (.value_string k) s states sax = sax_parse_internal strtod ⟨s₂, t, states, sax.key k, false⟩ := by
  simp only [keyed, Parser.parse_key, get_token_eq h, get_token_eq h', if_true]
  rfl

theorem key_stuck {k : Str} (h : scan strtod s = (t, s₁)) (hcolon : t ≠ .name_separator) :
    keyed strtod (.value_string k) s states sax = some none := by
  simp only [keyed, Parser.parse_key, get_token_eq h, if_neg hcolon]
  rfl

end

theorem put_put (k : Str) (v w : Json) : ∀ m, put k v (put k w m) = put k v m
  | [] => by simp [put]
  | (k', v') :: m => by
    by_cases hk : k = k'
    · simp [put, hk]
    · by_cases hlt : k < k'
      · simp [put, hk, hlt]
      · simp [put, hk, hlt, put_put k v w m]

theorem put_touch (k : Str) (v : Json) (m : List (Str × Json)) : put k v (touch k m) = put k v m := by
  unfold touch
  split
  · rfl
  · exact put_put k v .null m

mutual
theorem value_run {t : Token} {s : Str} {v : Json} {s' : Str} : Value strtod t s v s' → ∀ states sax,
    sax_parse_internal strtod ⟨s, t, states, sax, false⟩ = continued strtod s' states (sax.handle_value v)
  | .literal_null, states, sax => by rw [parser_value]; exact parser_handle_value _ _ _ _ _
  | .literal_true, states, sax => by rw [parser_value]; exact parser_handle_value _ _ _ _ _
  | .literal_false, states, sax => by rw [parser_value]; exact parser_handle_value _ _ _ _ _
  | .string, states, sax => by rw [parser_value]; exact parser_handle_value _ _ _ _ _
  | .unsigned, states, sax => by rw [parser_value]; exact parser_handle_value _ _ _ _ _
  | .integer, states, sax => by rw [parser_value]; exact parser_handle_value _ _ _ _ _
  | .float, states, sax => by rw [parser_value]; exact parser_handle_value _ _ _ _ _
  | .empty_array close, states, sax => by
    rw [parser_value]
    simp only [Parser.parse_value, get_token_eq close, if_true]
    rw [continued, evaluate_any_token _ .end_array]
    rfl
  | .array first elements, states, sax => by
    rw [parser_value]
    simp only [Parser.parse_value, get_token_eq first, if_neg (elements_token elements)]
    exact elements_run elements states sax.root sax.ref_stack []
  | .empty_object close, states, sax => by
    rw [parser_value]
    simp only [Parser.parse_value, get_token_eq close, if_true]
    rw [continued, evaluate_any_token _ .end_object]
    rfl
  | .object first members, states, sax => by
    rw [parser_value]
    simp only [Parser.parse_value, get_token_eq first, if_neg (members_token members)]
    exact members_run members states sax.root sax.ref_stack [] []

theorem elements_run {t : Token} {s : Str} {xs : List Json} {s' : Str} : Elements strtod t s xs s' → ∀ states root st ys,
    sax_parse_internal strtod ⟨s, t, true :: states, ⟨root, .array ys :: st⟩, false⟩ =
      continued strtod s' states (Sax.handle_value ⟨root, st⟩ (.array (ys ++ xs)))
  | .last value close, states, root, st, ys => by
    rw [value_run value, array_close close]
    rfl
  | .more (v := v) value comma next elements, states, root, st, ys => by
    have h := elements_run elements states root st (ys ++ [v])
    rw [value_run value, array_comma comma next]
    rw [List.append_assoc] at h
    exact h

theorem members_run {t : Token} {s : Str} {ms : List (Str × Json)} {s' : Str} :
    Members strtod t s ms s' → ∀ states root st m k,
    keyed strtod t s (false :: states) ⟨root, .object m k :: st⟩ =
      continued strtod s' states (Sax.handle_value ⟨root, st⟩ (.object (put_all ms m)))
  | .last (k := k) (v := v) colon first value close, states, root, st, m, k₀ => by
    rw [key_colon colon first, value_run value, object_close close]
    show continued strtod s' states (Sax.handle_value ⟨root, st⟩ (.object (put k v (touch k m)))) = _
    rw [put_touch]
    rfl
  | .more (k := k) (v := v) colon first value comma next members, states, root, st, m, k₀ => by
    rw [key_colon colon first, value_run value, object_comma comma next]
    show keyed strtod _ _ (false :: states) ⟨root, .object (put k v (touch k m)) k :: st⟩ = _
    rw [put_touch]
    exact members_run members states root st (put k v m) k
end

/-! ## What is not derived is refused -/

variable (strtod)

def left (t : Token) (s : Str) : Nat := s.length + if t.live then 1 else 0

def ValueOrStuck (t : Token) (s : Str) : Prop :=
  (∃ v s', Value strtod t s v s' ∧ s'.length ≤ s.length) ∨
    ∀ states sax, sax_parse_internal strtod ⟨s, t, states, sax, false⟩ = some none

def ElementsOrStuck (t : Token) (s : Str) : Prop :=
  (∃ xs s', Elements strtod t s xs s' ∧ s'.length ≤ s.length) ∨
    ∀ states root st ys, sax_parse_internal strtod ⟨s, t, true :: states, ⟨root, .array ys :: st⟩, false⟩ = some none

def MembersOrStuck (t : Token) (s : Str) : Prop :=
  (∃ ms s', Members strtod t s ms s' ∧ s'.length ≤ s.length) ∨
    ∀ states root st m k, keyed strtod t s (false :: states) ⟨root, .object m k :: st⟩ = some none

variable {strtod} {n : Nat} (hvalue : ∀ t s, left t s < n → ValueOrStuck strtod t s)

include hvalue in
theorem elements_or_stuck (t : Token) (s : Str) (hn : left t s < n) : ElementsOrStuck strtod t s := by
  induction hm : s.length using Nat.strongRecOn generalizing t s with
  | _ m ih =>
    subst hm
    rcases hvalue t s hn with ⟨v, s₁, hv, hlen⟩ | hstuck
    · have hlive : left t s = s.length + 1 := by simp [left, (value_token hv).1]
      obtain ⟨⟨t₂, s₂⟩, h₂⟩ : ∃ x, scan strtod s₁ = x := ⟨_, rfl⟩
      have hleft := scan_left h₂
      by_cases hcomma : t₂ = .value_separator
      · subst hcomma
        obtain ⟨⟨t₃, s₃⟩, h₃⟩ : ∃ x, scan strtod s₂ = x := ⟨_, rfl⟩
        have hleft₃ := scan_left h₃
        simp only [Token.live, if_true] at hleft
        rcases ih s₃.length (by omega) t₃ s₃ (by unfold left; omega) rfl with ⟨xs, s', hxs, hlen'⟩ | hstuck
        · exact Or.inl ⟨v :: xs, s', .more hv h₂ h₃ hxs, by omega⟩
        · refine Or.inr fun states root st ys => ?_
          rw [value_run hv, array_comma h₂ h₃]
          exact hstuck states root st (ys ++ [v])
      · by_cases hclose : t₂ = .end_array
        · subst hclose
          exact Or.inl ⟨[v], s₂, .last hv h₂, by omega⟩
        · refine Or.inr fun states root st ys => ?_
          rw [value_run hv, array_stuck h₂ hcomma hclose]
    · exact Or.inr fun states root st ys => hstuck _ _

include hvalue in
theorem members_or_stuck (t : Token) (s : Str) (hn : left t s < n) : MembersOrStuck strtod t s := by
  induction hm : s.length using Nat.strongRecOn generalizing t s with
  | _ m ih =>
    subst hm
    cases t with
    | value_string k =>
      simp only [left, Token.live, if_true] at hn
      obtain ⟨⟨t₁, s₁⟩, h₁⟩ : ∃ x, scan strtod s = x := ⟨_, rfl⟩
      have hleft₁ := scan_left h₁
      by_cases hcolon : t₁ = .name_separator
      · subst hcolon
        simp only [Token.live, if_true] at hleft₁
        obtain ⟨⟨t₂, s₂⟩, h₂⟩ : ∃ x, scan strtod s₁ = x := ⟨_, rfl⟩
        have hleft₂ := scan_left h₂
        rcases hvalue t₂ s₂ (by unfold left; omega) with ⟨v, s₃, hv, hlen⟩ | hstuck
        · obtain ⟨⟨t₄, s₄⟩, h₄⟩ : ∃ x, scan strtod s₃ = x := ⟨_, rfl⟩
          have hleft₄ := scan_left h₄
          have hrun : ∀ states root st m k₀, keyed strtod (.value_string k) s (false :: states) ⟨root, .object m k₀ :: st⟩ =
              continued strtod s₃ (false :: states) ⟨root, .object (put k v m) k :: st⟩ := by
            intro states root st m k₀
            rw [key_colon h₁ h₂, value_run hv]
            show continued strtod s₃ (false :: states) ⟨root, .object (put k v (touch k m)) k :: st⟩ = _
            rw [put_touch]
          by_cases hcomma : t₄ = .value_separator
          · subst hcomma
            simp only [Token.live, if_true] at hleft₄
            obtain ⟨⟨t₅, s₅⟩, h₅⟩ : ∃ x, scan strtod s₄ = x := ⟨_, rfl⟩
            have hleft₅ := scan_left h₅
            rcases ih s₅.length (by omega) t₅ s₅ (by unfold left; omega) rfl with ⟨ms, s', hms, hlen'⟩ | hstuck
            · exact Or.inl ⟨(k, v) :: ms, s', .more h₁ h₂ hv h₄ h₅ hms, by omega⟩
            · refine Or.inr fun states root st m k₀ => ?_
              rw [hrun, object_comma h₄ h₅]
              exact hstuck states root st (put k v m) k
          · by_cases hclose : t₄ = .end_object
            · subst hclose
              exact Or.inl ⟨[(k, v)], s₄, .last h₁ h₂ hv h₄, by omega⟩
            · refine Or.inr fun states root st m k₀ => ?_
              rw [hrun, object_stuck h₄ hcomma hclose]
        · refine Or.inr fun states root st m k₀ => ?_
          rw [key_colon h₁ h₂]
          exact hstuck _ _
      · exact Or.inr fun states root st m k₀ => key_stuck h₁ hcolon
    | _ => exact Or.inr fun states root st m k₀ => rfl

theorem value_or_stuck : ∀ (n : Nat) (t : Token) (s : Str), left t s < n → ValueOrStuck strtod t s
  | n + 1, t, s, hn => by
    have hvalue : ∀ t s, left t s < n → ValueOrStuck strtod t s := value_or_stuck n
    cases t with
    | literal_null => exact Or.inl ⟨_, _, .literal_null, Nat.le_refl _⟩
    | literal_true => exact Or.inl ⟨_, _, .literal_true, Nat.le_refl _⟩
    | literal_false => exact Or.inl ⟨_, _, .literal_false, Nat.le_refl _⟩
    | value_string x => exact Or.inl ⟨_, _, .string, Nat.le_refl _⟩
    | value_unsigned x => exact Or.inl ⟨_, _, .unsigned, Nat.le_refl _⟩
    | value_integer x => exact Or.inl ⟨_, _, .integer, Nat.le_refl _⟩
    | value_float x =>
      cases x with
      | none => exact Or.inr fun states sax => by rw [parser_value]; rfl
      | some x => exact Or.inl ⟨_, _, .float, Nat.le_refl _⟩
    | begin_array =>
      simp only [left, Token.live, if_true] at hn
      obtain ⟨⟨t₁, s₁⟩, h₁⟩ : ∃ x, scan strtod s = x := ⟨_, rfl⟩
      have hleft := scan_left h₁
      by_cases hclose : t₁ = .end_array
      · subst hclose
        exact Or.inl ⟨_, _, .empty_array h₁, by omega⟩
      · rcases elements_or_stuck hvalue t₁ s₁ (by unfold left; omega) with ⟨xs, s', hxs, hlen⟩ | hstuck
        · exact Or.inl ⟨_, _, .array h₁ hxs, by omega⟩
        · refine Or.inr fun states sax => ?_
          rw [parser_value]
          simp only [Parser.parse_value, get_token_eq h₁, if_neg hclose]
          exact hstuck states sax.root sax.ref_stack []
    | begin_object =>
      simp only [left, Token.live, if_true] at hn
      obtain ⟨⟨t₁, s₁⟩, h₁⟩ : ∃ x, scan strtod s = x := ⟨_, rfl⟩
      have hleft := scan_left h₁
      by_cases hclose : t₁ = .end_object
      · subst hclose
        exact Or.inl ⟨_, _, .empty_object h₁, by omega⟩
      · rcases members_or_stuck hvalue t₁ s₁ (by unfold left; omega) with ⟨ms, s', hms, hlen⟩ | hstuck
        · exact Or.inl ⟨_, _, .object h₁ hms, by omega⟩
        · refine Or.inr fun states sax => ?_
          rw [parser_value]
          simp only [Parser.parse_value, get_token_eq h₁, if_neg hclose]
          exact hstuck states sax.root sax.ref_stack [] []
    | _ => exact Or.inr fun states sax => by rw [parser_value]; rfl

/-! ## The accepted texts -/

theorem parse_value_eq {s s₀ s₁ : Str} {v : Json} (hbom : skip_bom s = some s₀)
    (hv : Value strtod (scan strtod s₀).1 (scan strtod s₀).2 v s₁) :
    parse strtod s = if (scan strtod s₁).1 = .end_of_input then some v else none := by
  simp only [parse, hbom, value_run hv]
  rfl

theorem parse_document {s : Str} {v : Json} (h : Document strtod s v) : parse strtod s = some v := by
  obtain ⟨s₀, s₁, hbom, hv, hend⟩ := h
  rw [parse_value_eq hbom hv, if_pos hend]

theorem document_of_parse {s : Str} {v : Json} (h : parse strtod s = some v) : Document strtod s v := by
  cases hbom : skip_bom s with
  | none => simp [parse, hbom] at h
  | some s₀ =>
    have hcases : ValueOrStuck strtod (scan strtod s₀).1 (scan strtod s₀).2 := value_or_stuck _ _ _ (Nat.lt_succ_self _)
    rcases hcases with ⟨v', s₁, hv, -⟩ | hstuck
    · rw [parse_value_eq hbom hv] at h
      split at h
      · rename_i hend
        cases h
        exact ⟨s₀, s₁, hbom, hv, hend⟩
      · cases h
    · simp [parse, hbom, hstuck] at h

variable (strtod) in
/-- **The parser accepts the texts of the grammar**, and no others, and its value is the one that
the grammar gives the text. Its loop ends from every state, as does the loop over the characters
of a string: a text that is refused is refused by an error. -/
theorem parse_iff (s : Str) :
    (∀ p, sax_parse_internal strtod p ≠ none) ∧ (∀ x, run string_step (fun x => x.2.length) x ≠ none) ∧
      ∀ v, parse strtod s = some v ↔ Document strtod s v :=
  ⟨run_ends step_descends, run_ends string_step_descends, fun _ => ⟨document_of_parse, parse_document⟩⟩

end

end VrpcAgent.Json

import VrpcAgent.JsonCharacters
import VrpcAgent.JsonNumerals
import VrpcAgent.JsonRoundTrip

/-!
# The texts of a value

The grammar of JSON over bytes, without a lexer: white space, literals, strings, numerals,
arrays and objects. The lexer and the parser together accept exactly its texts.
-/

namespace VrpcAgent.Json

/-! ## The grammar -/

def Whitespace (s : Str) : Prop := ∀ b ∈ s, is_whitespace b = true

inductive KeyText : Str → Str → Prop
  | mk {w t k u : Str} (hw : Whitespace w) (h : Characters t k) (hu : Whitespace u) :
    KeyText (w ++ 0x22 :: (t ++ 0x22 :: u)) k

section
variable (strtod : Str → Option Rat)

mutual
inductive ValueText : Str → Json → Prop
  | literal_null : ValueText (lit "null") .null
  | literal_true : ValueText (lit "true") (.boolean true)
  | literal_false : ValueText (lit "false") (.boolean false)
  | string {t s : Str} (h : Characters t s) : ValueText (0x22 :: (t ++ [0x22])) (.string s)
  | number {type : NumberType} {x : Str} {q : Rat} (h : Numeral type x) (hq : (number_token strtod type x).number = some q) :
    ValueText x (.number q)
  | empty_array {w : Str} (hw : Whitespace w) : ValueText (0x5B :: (w ++ [0x5D])) (.array [])
  | array {s : Str} {xs : List Json} (h : ElementsText s xs) : ValueText (0x5B :: (s ++ [0x5D])) (.array xs)
  | empty_object {w : Str} (hw : Whitespace w) : ValueText (0x7B :: (w ++ [0x7D])) (.object [])
  | object {s : Str} {ms : List (Str × Json)} (h : MembersText s ms) :
    ValueText (0x7B :: (s ++ [0x7D])) (.object (put_all ms []))

inductive ElementText : Str → Json → Prop
  | mk {w x u : Str} {v : Json} (hw : Whitespace w) (h : ValueText x v) (hu : Whitespace u) : ElementText (w ++ (x ++ u)) v

inductive ElementsText : Str → List Json → Prop
  | last {s : Str} {v : Json} (h : ElementText s v) : ElementsText s [v]
  | more {s r : Str} {v : Json} {xs : List Json} (h : ElementText s v) (hs : ElementsText r xs) :
    ElementsText (s ++ 0x2C :: r) (v :: xs)

inductive MembersText : Str → List (Str × Json) → Prop
  | last {s u k : Str} {v : Json} (hk : KeyText s k) (h : ElementText u v) : MembersText (s ++ 0x3A :: u) [(k, v)]
  | more {s u r k : Str} {v : Json} {ms : List (Str × Json)} (hk : KeyText s k) (h : ElementText u v)
    (hs : MembersText r ms) :
    MembersText (s ++ 0x3A :: (u ++ 0x2C :: r)) ((k, v) :: ms)
end

/-- A byte of value 0 ends a text. -/
def Ended (s : Str) : Prop := s.head?.getD 0 = 0

/-- A text of `v`: a byte order mark may stand in front of it. -/
inductive JsonText : Str → Json → Prop
  | plain {s r : Str} {v : Json} (h : ElementText strtod s v) (hr : Ended r) : JsonText (s ++ r) v
  | marked {s r : Str} {v : Json} (h : ElementText strtod s v) (hr : Ended r) : JsonText (0xEF :: 0xBB :: 0xBF :: (s ++ r)) v

end

/-! ## White space -/

section
variable {strtod : Str → Option Rat}

theorem scan_whitespace {w : Str} (hw : Whitespace w) (s : Str) : scan strtod (w ++ s) = scan strtod s := by
  have hdrop : (w ++ s).dropWhile is_whitespace = s.dropWhile is_whitespace := by
    rw [List.dropWhile_append_of_pos hw]
  unfold scan
  rw [hdrop]

theorem whitespace_stops : ∀ b : UInt8, is_whitespace b = true → ∀ st : NumberState, st.next b = none := by
  intro b hb st
  revert b
  cases st <;> exact forall_byte (by decide +kernel)

theorem stops_whitespace {w r : Str} (hw : Whitespace w) (hr : Stops r) : Stops (w ++ r) := by
  cases w with
  | nil => exact hr
  | cons b w =>
    intro c hc
    cases hc
    exact whitespace_stops b (hw b List.mem_cons_self)

theorem stops_ended {r : Str} (hr : Ended r) : Stops r := by
  cases r with
  | nil => intro b hb; cases hb
  | cons b r =>
    intro c hc st
    cases hc
    have hb : b = 0 := hr
    subst hb
    cases st <;> rfl

theorem whitespace_split (u : Str) : ∃ w, u = w ++ u.dropWhile is_whitespace ∧ Whitespace w :=
  ⟨u.takeWhile is_whitespace, List.takeWhile_append_dropWhile.symm, fun _ hb => List.mem_takeWhile_imp hb⟩

/-! ## Tokens -/

theorem scan_literal_text (t : Token) : ∀ (l r : Str), scan_literal t l (l ++ r) = (t, r)
  | [], r => rfl
  | c :: l, r => by
    rw [List.cons_append, scan_literal, if_pos rfl]
    exact scan_literal_text t l r

theorem literal_of_scan {t t' : Token} (ht : t' ≠ .parse_error) :
    ∀ {l s r : Str}, scan_literal t l s = (t', r) → t' = t ∧ s = l ++ r
  | [], s, r, h => by
    cases h
    exact ⟨rfl, rfl⟩
  | c :: l, [], r, h => by
    cases h
    exact absurd rfl ht
  | c :: l, b :: s, r, h => by
    rw [scan_literal] at h
    split at h
    · rename_i hb
      obtain ⟨rfl, rfl⟩ := literal_of_scan ht h
      exact ⟨rfl, by rw [hb]; rfl⟩
    · cases h
      exact absurd rfl ht

variable (strtod) in
inductive TokenText : Token → Str → Prop
  | structural {b : UInt8} {t : Token} (h : structural b = some t) : TokenText t [b]
  | literal_null : TokenText .literal_null (lit "null")
  | literal_true : TokenText .literal_true (lit "true")
  | literal_false : TokenText .literal_false (lit "false")
  | string {t s : Str} (h : Characters t s) : TokenText (.value_string s) (0x22 :: (t ++ [0x22]))
  | number {type : NumberType} {x : Str} (h : Numeral type x) : TokenText (number_token strtod type x) x

theorem scan_token {t : Token} {x : Str} (h : TokenText strtod t x) {r : Str} (hr : Stops r) :
    scan strtod (x ++ r) = (t, r) := by
  cases h with
  | structural h => exact scan_structural strtod h r
  | literal_null => rfl
  | literal_true => rfl
  | literal_false => rfl
  | string h =>
    rw [List.cons_append, List.append_assoc, scan_quote]
    exact scan_string_iff.mpr ⟨_, rfl, h⟩
  | @number type x h =>
    obtain ⟨b, s, rfl, hb⟩ := numeral_first h
    have hscan : scan strtod (b :: (s ++ r)) = scan_number strtod b (s ++ r) := by
      rcases hb with rfl | hb
      · rfl
      · exact scan_digit strtod hb _
    rw [List.cons_append, hscan]
    exact scan_numeral strtod h hb hr

theorem token_of_other {b : UInt8} {s r : Str} {t : Token} (h : scan_other strtod b s = (t, r)) (ht : t.live = true) :
    ∃ x, b :: s = x ++ r ∧ TokenText strtod t x := by
  have hne : t ≠ .parse_error := by
    rintro rfl
    cases ht
  unfold scan_other at h
  split at h
  · rename_i hb
    obtain ⟨rfl, rfl⟩ := literal_of_scan hne h
    exact ⟨lit "true", by rw [hb]; rfl, .literal_true⟩
  split at h
  · rename_i hb
    obtain ⟨rfl, rfl⟩ := literal_of_scan hne h
    exact ⟨lit "false", by rw [hb]; rfl, .literal_false⟩
  split at h
  · rename_i hb
    obtain ⟨rfl, rfl⟩ := literal_of_scan hne h
    exact ⟨lit "null", by rw [hb]; rfl, .literal_null⟩
  split at h
  · rename_i hb
    cases t with
    | value_string k =>
      obtain ⟨t, rfl, ht⟩ := scan_string_iff.mp h
      exact ⟨0x22 :: (t ++ [0x22]), by rw [hb]; simp, .string ht⟩
    | parse_error => exact absurd rfl hne
    | _ => unfold scan_string at h; split at h <;> cases h
  split at h
  · rename_i hb
    obtain ⟨type, x, hx, hnum, rfl⟩ := numeral_of_scan strtod hb h hne
    exact ⟨x, hx, .number hnum⟩
  split at h
  · cases h
    cases ht
  · cases h
    cases ht

theorem token_of_scan {u s : Str} {t : Token} (h : scan strtod u = (t, s)) (ht : t.live = true) :
    ∃ w x, u = w ++ (x ++ s) ∧ Whitespace w ∧ TokenText strtod t x := by
  obtain ⟨w, hu, hw⟩ := whitespace_split u
  unfold scan at h
  split at h
  · cases h
    cases ht
  · rename_i b s' hdrop
    rw [hdrop] at hu
    split at h
    · rename_i t' hstruct
      cases h
      exact ⟨w, [b], hu, hw, .structural hstruct⟩
    · obtain ⟨x, hx, htok⟩ := token_of_other h ht
      exact ⟨w, x, by rw [hu, hx], hw, htok⟩

end

/-! ## Texts are parsed -/

section
variable {strtod : Str → Option Rat}

variable (strtod) in
theorem key_of_text {s k : Str} (h : KeyText s k) (r : Str) :
    ∃ w, scan strtod (s ++ r) = (.value_string k, w ++ r) ∧ Whitespace w := by
  cases h with
  | @mk w t k w' hw h hw' =>
    refine ⟨w', ?_, hw'⟩
    rw [List.append_assoc, scan_whitespace hw, List.cons_append, scan_quote, List.append_assoc]
    exact scan_string_iff.mpr ⟨t, rfl, h⟩

theorem scan_separator {b : UInt8} {t : Token} (h : structural b = some t) {w : Str} (hw : Whitespace w) (r : Str) :
    scan strtod (w ++ b :: r) = (t, r) := by
  rw [scan_whitespace hw]
  exact scan_structural strtod h r

/-- An opening bracket, in front of what ends with the closing one. -/
theorem scan_open {b : UInt8} {t : Token} (h : structural b = some t) (s : Str) (c : UInt8) (r : Str) :
    scan strtod (b :: (s ++ [c]) ++ r) = (t, s ++ c :: r) := by
  rw [List.cons_append, List.append_assoc]
  exact scan_structural strtod h _

mutual
theorem value_of_text {x : Str} {v : Json} : ValueText strtod x v → ∀ {r}, Stops r →
    ∃ t s, scan strtod (x ++ r) = (t, s) ∧ Value strtod t s v r
  | .literal_null, r, _ => ⟨_, _, rfl, .literal_null⟩
  | .literal_true, r, _ => ⟨_, _, rfl, .literal_true⟩
  | .literal_false, r, _ => ⟨_, _, rfl, .literal_false⟩
  | .string h, r, hr => ⟨_, _, scan_token (.string h) hr, .string⟩
  | .number h hq, r, hr => ⟨_, _, scan_token (.number h) hr, value_of_number strtod hq r⟩
  | .empty_array hw, r, _ => ⟨.begin_array, _, scan_open rfl _ _ r, .empty_array (scan_separator rfl hw r)⟩
  | .array h, r, _ => by
    obtain ⟨t, s, hscan, helems⟩ := elements_of_text h r
    exact ⟨.begin_array, _, scan_open rfl _ _ r, .array hscan helems⟩
  | .empty_object hw, r, _ => ⟨.begin_object, _, scan_open rfl _ _ r, .empty_object (scan_separator rfl hw r)⟩
  | .object h, r, _ => by
    obtain ⟨t, s, hscan, hmembers⟩ := members_of_text h r
    exact ⟨.begin_object, _, scan_open rfl _ _ r, .object hscan hmembers⟩

theorem element_of_text {s : Str} {v : Json} : ElementText strtod s v → ∀ {r}, Stops r →
    ∃ t s₁ w, scan strtod (s ++ r) = (t, s₁) ∧ Whitespace w ∧ Value strtod t s₁ v (w ++ r)
  | .mk (u := w') hw h hw', r, hr => by
    obtain ⟨t, s₁, hscan, hvalue⟩ := value_of_text h (stops_whitespace hw' hr)
    refine ⟨t, s₁, w', ?_, hw', hvalue⟩
    rw [List.append_assoc, scan_whitespace hw, List.append_assoc]
    exact hscan

theorem elements_of_text {s : Str} {xs : List Json} : ElementsText strtod s xs → ∀ r,
    ∃ t s₁, scan strtod (s ++ 0x5D :: r) = (t, s₁) ∧ Elements strtod t s₁ xs r
  | .last h, r => by
    obtain ⟨t, s₁, w, hscan, hw, hvalue⟩ := element_of_text h (stops_structural (b := 0x5D) rfl r)
    exact ⟨t, s₁, hscan, .last hvalue (scan_separator rfl hw r)⟩
  | .more (r := s') h hs, r => by
    obtain ⟨t', s₃, hscan', helems⟩ := elements_of_text hs r
    obtain ⟨t, s₁, w, hscan, hw, hvalue⟩ := element_of_text h (stops_structural (b := 0x2C) rfl (s' ++ 0x5D :: r))
    refine ⟨t, s₁, ?_, .more hvalue (scan_separator rfl hw _) hscan' helems⟩
    rw [List.append_assoc]
    exact hscan

theorem members_of_text {s : Str} {ms : List (Str × Json)} : MembersText strtod s ms → ∀ r,
    ∃ t s₁, scan strtod (s ++ 0x7D :: r) = (t, s₁) ∧ Members strtod t s₁ ms r
  | .last (u := s') hk h, r => by
    obtain ⟨t, s₁, w, hscan, hw, hvalue⟩ := element_of_text h (stops_structural (b := 0x7D) rfl r)
    obtain ⟨w', hkey, hw'⟩ := key_of_text strtod hk (0x3A :: (s' ++ 0x7D :: r))
    refine ⟨_, _, ?_, .last (scan_separator (b := 0x3A) rfl hw' _) hscan hvalue (scan_separator rfl hw r)⟩
    rw [List.append_assoc]
    exact hkey
  | .more (u := s') (r := s'') hk h hs, r => by
    obtain ⟨t', s₃, hscan', hmembers⟩ := members_of_text hs r
    obtain ⟨t, s₁, w, hscan, hw, hvalue⟩ := element_of_text h (stops_structural (b := 0x2C) rfl (s'' ++ 0x7D :: r))
    obtain ⟨w', hkey, hw'⟩ := key_of_text strtod hk (0x3A :: (s' ++ 0x2C :: (s'' ++ 0x7D :: r)))
    refine ⟨_, _, ?_, .more (scan_separator (b := 0x3A) rfl hw' _) hscan hvalue (scan_separator rfl hw _) hscan' hmembers⟩
    rw [List.append_assoc, List.cons_append, List.append_assoc]
    exact hkey
end

/-! ## What is parsed is a text -/

variable (strtod) in
theorem number_token_kind (type : NumberType) (x : Str) : (∃ n, number_token strtod type x = .value_unsigned n) ∨
    (∃ n, number_token strtod type x = .value_integer n) ∨ ∃ q, number_token strtod type x = .value_float q := by
  unfold number_token
  split
  · split <;> simp
  · split <;> simp
  · simp

theorem structural_inj {b c : UInt8} {t : Token} (hb : structural b = some t) (hc : structural c = some t) : b = c := by
  have hbyte : ∀ b : UInt8, ∀ t ∈ structural b, b = match t with
      | .begin_array => 0x5B | .end_array => 0x5D | .begin_object => 0x7B | .end_object => 0x7D
      | .name_separator => 0x3A | _ => 0x2C :=
    forall_byte (by decide +kernel)
  rw [hbyte b t hb, hbyte c t hc]

theorem text_of_structural {b : UInt8} {t : Token} (hb : structural b = some t) {x : Str} (h : TokenText strtod t x) :
    x = [b] := by
  have ht := structural_token hb
  cases h with
  | structural hc => rw [structural_inj hb hc]
  | @number type x _ =>
    rcases number_token_kind strtod type x with ⟨n, hn⟩ | ⟨n, hn⟩ | ⟨n, hn⟩ <;> simp [hn] at ht
  | _ => simp at ht

theorem separator_of_scan {b : UInt8} {t : Token} (hb : structural b = some t) {u s : Str} (h : scan strtod u = (t, s)) :
    ∃ w, u = w ++ b :: s ∧ Whitespace w := by
  have hlive : t.live = true := by
    have ht := structural_token hb
    simp only [List.mem_cons, List.not_mem_nil, or_false] at ht
    rcases ht with rfl | rfl | rfl | rfl | rfl | rfl <;> rfl
  obtain ⟨w, x, rfl, hw, hx⟩ := token_of_scan h hlive
  rw [text_of_structural hb hx]
  exact ⟨w, rfl, hw⟩

theorem string_text_of_token {k x : Str} (h : TokenText strtod (.value_string k) x) :
    ∃ t, x = 0x22 :: (t ++ [0x22]) ∧ Characters t k := by
  generalize htok : Token.value_string k = tok at h
  cases h with
  | string h =>
    cases htok
    exact ⟨_, rfl, h⟩
  | structural hb =>
    have ht := structural_token hb
    rw [← htok] at ht
    simp at ht
  | @number type x _ =>
    rcases number_token_kind strtod type x with ⟨n, hn⟩ | ⟨n, hn⟩ | ⟨n, hn⟩ <;> rw [hn] at htok <;> cases htok
  | _ => cases htok

theorem numeral_of_token {tok : Token} {q : Rat} (hq : tok.number = some q) {x : Str} (h : TokenText strtod tok x) :
    ValueText strtod x (.number q) := by
  cases h with
  | number h => exact .number h hq
  | structural hb =>
    rw [structural_number hb] at hq
    cases hq
  | _ => cases hq

theorem text_of_literal {t : Token} {l : Str}
    (ht : (t, l) ∈ [(Token.literal_null, lit "null"), (.literal_true, lit "true"), (.literal_false, lit "false")]) {x : Str}
    (h : TokenText strtod t x) : x = l := by
  simp only [List.mem_cons, List.not_mem_nil, or_false, Prod.mk.injEq] at ht
  cases h with
  | structural hb =>
    have htok := structural_token hb
    rcases ht with ⟨rfl, -⟩ | ⟨rfl, -⟩ | ⟨rfl, -⟩ <;> simp at htok
  | @number type x _ =>
    rcases number_token_kind strtod type x with ⟨n, hn⟩ | ⟨n, hn⟩ | ⟨n, hn⟩ <;> simp [hn] at ht
  | string _ => simp at ht
  | _ => simpa [eq_comm] using ht

theorem elements_live {t : Token} {s : Str} {xs : List Json} {s' : Str} (h : Elements strtod t s xs s') : t.live = true := by
  cases h with
  | last value close => exact (value_token value).1
  | more value comma next elements => exact (value_token value).1

theorem members_live {t : Token} {s : Str} {ms : List (Str × Json)} {s' : Str} (h : Members strtod t s ms s') :
    t.live = true := by
  cases h <;> rfl

mutual
theorem text_of_value {t : Token} {s : Str} {v : Json} {s' : Str} : Value strtod t s v s' → ∀ {x}, TokenText strtod t x →
    ∃ y, x ++ s = y ++ s' ∧ ValueText strtod y v
  | .literal_null, x, h => ⟨lit "null", congrArg (· ++ _) (text_of_literal (by simp) h), .literal_null⟩
  | .literal_true, x, h => ⟨lit "true", congrArg (· ++ _) (text_of_literal (by simp) h), .literal_true⟩
  | .literal_false, x, h => ⟨lit "false", congrArg (· ++ _) (text_of_literal (by simp) h), .literal_false⟩
  | .string, x, h => by
    obtain ⟨t, hx, ht⟩ := string_text_of_token h
    exact ⟨x, rfl, hx ▸ .string ht⟩
  | .unsigned, x, h => ⟨x, rfl, numeral_of_token rfl h⟩
  | .integer, x, h => ⟨x, rfl, numeral_of_token rfl h⟩
  | .float, x, h => ⟨x, rfl, numeral_of_token rfl h⟩
  | .empty_array close, x, h => by
    obtain ⟨w, hs, hw⟩ := separator_of_scan (b := 0x5D) rfl close
    exact ⟨0x5B :: (w ++ [0x5D]), by simp [text_of_structural (b := 0x5B) rfl h, hs], .empty_array hw⟩
  | .array first elements, x, h => by
    obtain ⟨w, x', hs, hw, hx'⟩ := token_of_scan first (elements_live elements)
    obtain ⟨y, hy, helems⟩ := text_of_elements elements hw hx'
    exact ⟨0x5B :: (y ++ [0x5D]), by simp [text_of_structural (b := 0x5B) rfl h, hs, hy], .array helems⟩
  | .empty_object close, x, h => by
    obtain ⟨w, hs, hw⟩ := separator_of_scan (b := 0x7D) rfl close
    exact ⟨0x7B :: (w ++ [0x7D]), by simp [text_of_structural (b := 0x7B) rfl h, hs], .empty_object hw⟩
  | .object first members, x, h => by
    obtain ⟨w, x', hs, hw, hx'⟩ := token_of_scan first (members_live members)
    obtain ⟨y, hy, hmembers⟩ := text_of_members members hw hx'
    exact ⟨0x7B :: (y ++ [0x7D]), by simp [text_of_structural (b := 0x7B) rfl h, hs, hy], .object hmembers⟩

theorem text_of_elements {t : Token} {s : Str} {xs : List Json} {s' : Str} :
    Elements strtod t s xs s' → ∀ {w x}, Whitespace w →
    TokenText strtod t x → ∃ y, w ++ (x ++ s) = y ++ 0x5D :: s' ∧ ElementsText strtod y xs
  | .last value close, w, x, hw, h => by
    obtain ⟨y, hy, hvalue⟩ := text_of_value value h
    obtain ⟨w', hs₁, hw'⟩ := separator_of_scan (b := 0x5D) rfl close
    exact ⟨w ++ (y ++ w'), by simp [hy, hs₁], .last (.mk hw hvalue hw')⟩
  | .more value comma next elements, w, x, hw, h => by
    obtain ⟨y, hy, hvalue⟩ := text_of_value value h
    obtain ⟨w', hs₁, hw'⟩ := separator_of_scan (b := 0x2C) rfl comma
    obtain ⟨w'', x', hs₂, hw'', hx'⟩ := token_of_scan next (elements_live elements)
    obtain ⟨z, hz, helems⟩ := text_of_elements elements hw'' hx'
    exact ⟨w ++ (y ++ w') ++ 0x2C :: z, by simp [hy, hs₁, hs₂, hz], .more (.mk hw hvalue hw') helems⟩

theorem text_of_members {t : Token} {s : Str} {ms : List (Str × Json)} {s' : Str} :
    Members strtod t s ms s' → ∀ {w x}, Whitespace w →
    TokenText strtod t x → ∃ y, w ++ (x ++ s) = y ++ 0x7D :: s' ∧ MembersText strtod y ms
  | .last colon first value close, w, x, hw, h => by
    obtain ⟨t, hx, ht⟩ := string_text_of_token h
    obtain ⟨w₁, hs, hw₁⟩ := separator_of_scan (b := 0x3A) rfl colon
    obtain ⟨w₂, x₂, hs₁, hw₂, hx₂⟩ := token_of_scan first (value_token value).1
    obtain ⟨y, hy, hvalue⟩ := text_of_value value hx₂
    obtain ⟨w₃, hs₃, hw₃⟩ := separator_of_scan (b := 0x7D) rfl close
    refine ⟨(w ++ 0x22 :: (t ++ 0x22 :: w₁)) ++ 0x3A :: (w₂ ++ (y ++ w₃)), by simp [hx, hs, hs₁, hy, hs₃], ?_⟩
    exact .last (.mk hw ht hw₁) (.mk hw₂ hvalue hw₃)
  | .more colon first value comma next members, w, x, hw, h => by
    obtain ⟨t, hx, ht⟩ := string_text_of_token h
    obtain ⟨w₁, hs, hw₁⟩ := separator_of_scan (b := 0x3A) rfl colon
    obtain ⟨w₂, x₂, hs₁, hw₂, hx₂⟩ := token_of_scan first (value_token value).1
    obtain ⟨y, hy, hvalue⟩ := text_of_value value hx₂
    obtain ⟨w₃, hs₃, hw₃⟩ := separator_of_scan (b := 0x2C) rfl comma
    obtain ⟨w₄, x₄, hs₄, hw₄, hx₄⟩ := token_of_scan next (members_live members)
    obtain ⟨z, hz, hmembers⟩ := text_of_members members hw₄ hx₄
    refine ⟨(w ++ 0x22 :: (t ++ 0x22 :: w₁)) ++ 0x3A :: ((w₂ ++ (y ++ w₃)) ++ 0x2C :: z),
      by simp [hx, hs, hs₁, hy, hs₃, hs₄, hz], ?_⟩
    exact .more (.mk hw ht hw₁) (.mk hw₂ hvalue hw₃) hmembers
end

/-! ## Documents -/

theorem end_of_other {b : UInt8} {s : Str} (h : (scan_other strtod b s).1 = .end_of_input) : b = 0 := by
  have hliteral : ∀ {t l}, t ≠ .end_of_input → (scan_literal t l s).1 ≠ .end_of_input := by
    intro t l ht hscan
    rcases scan_literal_token t l s with h | h
    · exact ht (h.symm.trans hscan)
    · cases h.symm.trans hscan
  unfold scan_other at h
  split at h
  · exact absurd h (hliteral (by simp))
  split at h
  · exact absurd h (hliteral (by simp))
  split at h
  · exact absurd h (hliteral (by simp))
  split at h
  · unfold scan_string at h
    split at h <;> cases h
  split at h
  · rw [scan_number_first] at h
    split at h
    · rename_i t bytes rest _
      simp only at h
      rcases number_token_kind strtod t (b :: bytes) with ⟨n, hn⟩ | ⟨n, hn⟩ | ⟨n, hn⟩ <;> rw [hn] at h <;> cases h
    · cases h
  split at h
  · assumption
  · cases h

theorem end_iff {s : Str} : (scan strtod s).1 = .end_of_input ↔ ∃ w r, s = w ++ r ∧ Whitespace w ∧ Ended r := by
  constructor
  · intro h
    obtain ⟨w, hs, hw⟩ := whitespace_split s
    refine ⟨w, s.dropWhile is_whitespace, hs, hw, ?_⟩
    unfold scan at h
    split at h
    · rename_i hdrop
      rw [hdrop]
      rfl
    · rename_i b s' hdrop
      rw [hdrop]
      split at h
      · rename_i t hstruct
        have ht := structural_token hstruct
        simp only at h
        simp [h] at ht
      · exact end_of_other h
  · rintro ⟨w, r, rfl, hw, hr⟩
    rw [scan_whitespace hw]
    cases r with
    | nil => rfl
    | cons b r =>
      have hb : b = 0 := hr
      subst hb
      rfl

theorem skip_bom_some {s s₀ : Str} (h : skip_bom s = some s₀) : s = s₀ ∨ s = 0xEF :: 0xBB :: 0xBF :: s₀ := by
  unfold skip_bom at h
  split at h
  · cases h
    exact Or.inr rfl
  · cases h
  · cases h
    exact Or.inl rfl

variable (strtod) in
/-- **The parser accepts exactly the texts of the grammar**, with the values it gives them. -/
theorem parse_iff_text (s : Str) (v : Json) : parse strtod s = some v ↔ JsonText strtod s v := by
  constructor
  · intro h
    obtain ⟨s₀, s₁, hbom, hvalue, hend⟩ := document_of_parse h
    obtain ⟨t, s', hscan⟩ : ∃ t s', scan strtod s₀ = (t, s') := ⟨_, _, rfl⟩
    rw [hscan] at hvalue
    obtain ⟨w, x, hs₀, hw, hx⟩ := token_of_scan hscan (value_token hvalue).1
    obtain ⟨y, hy, htext⟩ := text_of_value hvalue hx
    obtain ⟨w', r, rfl, hw', hr⟩ := end_iff.mp hend
    have helement : ElementText strtod (w ++ (y ++ w')) v := .mk hw htext hw'
    have hsplit : s₀ = (w ++ (y ++ w')) ++ r := by
      rw [hs₀, hy]
      simp
    rcases skip_bom_some hbom with rfl | rfl
    · rw [hsplit]
      exact .plain helement hr
    · rw [hsplit]
      exact .marked helement hr
  · intro h
    have hdocument : ∀ {s r}, ElementText strtod s v → Ended r →
      ∃ s₁, Value strtod (scan strtod (s ++ r)).1 (scan strtod (s ++ r)).2 v s₁ ∧
        (scan strtod s₁).1 = .end_of_input := by
      intro s r h hr
      obtain ⟨t, s', w, hscan, hw, hvalue⟩ := element_of_text h (stops_ended hr)
      rw [hscan]
      exact ⟨w ++ r, hvalue, end_iff.mpr ⟨w, r, rfl, hw, hr⟩⟩
    cases h with
    | @plain s r _ h hr =>
      obtain ⟨s₁, hvalue, hend⟩ := hdocument h hr
      have hne : (scan strtod (s ++ r)).1 ≠ .parse_error := by
        intro herr
        have hlive := (value_token hvalue).1
        rw [herr] at hlive
        cases hlive
      exact parse_document ⟨_, s₁, skip_bom_of_scan hne, hvalue, hend⟩
    | marked h hr =>
      obtain ⟨s₁, hvalue, hend⟩ := hdocument h hr
      exact parse_document ⟨_, s₁, rfl, hvalue, hend⟩

/-! ## Parsed and dumped again -/

variable (strtod) in
structure Preserved (v : Json) : Prop where
  accepted : v.dump_error = none
  dumped : ∃ u, Dumps strtod v u
  parsed : ∀ {u}, Dumps strtod v u → parse strtod u = some v

theorem number_text_of_lexed {q : Rat} (h : Lexed strtod q) : ∃ u, NumberText strtod q u := by
  obtain ⟨s, hs⟩ := h
  obtain ⟨t, r, hscan⟩ : ∃ t r, scan strtod s = (t, r) := ⟨_, _, rfl⟩
  rw [hscan] at hs
  have hlive : t.live = true := by cases t <;> first | rfl | cases hs
  obtain ⟨w, x, -, -, hx⟩ := token_of_scan hscan hlive
  have hx := scan_token hx (r := []) fun b hb => by cases hb
  rw [List.append_nil] at hx
  exact ⟨x, t, hx, hs⟩

section
variable {number_text : Rat → Str}

mutual
/-- `text` writes one of the texts of `dump`. -/
theorem text_dumps :
    ∀ {v : Json}, Stored (fun q => NumberText strtod q (number_text q)) v → Dumps strtod v (v.text number_text)
  | .null, _ => .null
  | .boolean true, _ => .literal_true
  | .boolean false, _ => .literal_false
  | .number _, h => .number (stored_number.mp h)
  | .string _, _ => .string
  | .array _, h => .array (elems_text_dumps (stored_array.mp h))
  | .object _, h => .object (members_text_dumps (stored_object.mp h).2)

theorem elems_text_dumps : ∀ {xs : List Json}, (∀ x ∈ xs, Stored (fun q => NumberText strtod q (number_text q)) x) →
    ElementsDump strtod xs (elems_text number_text xs)
  | [], _ => .nil
  | x :: xs, h => by
    obtain ⟨hx, hxs⟩ := List.forall_mem_cons.mp h
    exact .cons (text_dumps hx) (elems_text_dumps hxs)

theorem members_text_dumps : ∀ {m : List (Str × Json)}, (∀ p ∈ m, Stored (fun q => NumberText strtod q (number_text q)) p.2) →
    MembersDump strtod m (members_text number_text m)
  | [], _ => .nil
  | (k, x) :: m, h => by
    obtain ⟨hx, hm⟩ := List.forall_mem_cons.mp h
    exact .cons (text_dumps hx) (members_text_dumps hm)
end

end

theorem exists_dump {v : Json} (h : Stored (Lexed strtod) v) : ∃ u, Dumps strtod v u := by
  classical
  let number_text : Rat → Str := fun q => if hq : Lexed strtod q then (number_text_of_lexed hq).choose else []
  refine ⟨v.text number_text, text_dumps ⟨h.ordered, fun q hq => ?_⟩⟩
  have hlexed := h.numbers q hq
  simp only [number_text, dif_pos hlexed]
  exact (number_text_of_lexed hlexed).choose_spec

theorem preserved_of_restorable {v : Json} (h : Restorable (Lexed strtod) v) : Preserved strtod v :=
  ⟨h.wellformed, exists_dump h.toStored, fun hu => parse_dump hu h⟩

/-- **What has been parsed can be dumped**, and its dump is parsed as the same value. -/
theorem parsed_is_dumped {s : Str} {v : Json} (h : parse strtod s = some v) : Preserved strtod v :=
  preserved_of_restorable (parse_restorable strtod h)

theorem nested_is_dumped :
    Preserved one_strtod (.object [(lit "a", .array [.number 1, .number (3 : Nat), .null]), (lit "b", .string (lit "x"))]) :=
  parsed_is_dumped (s := lit " \x7b\"b\": \"x\", \"a\" : [1.0,3,null] \x7d") rfl

end

end VrpcAgent.Json

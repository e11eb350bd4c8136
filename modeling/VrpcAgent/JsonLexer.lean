import VrpcAgent.Json
import VrpcAgent.Loops

/-!
# The lexer of the JSON library

`lexer` of `json.hpp`: the tokens of a text. A text is the bytes that are left of it, and
a byte of value 0 ends it. Messages and positions of errors are not kept.
-/

namespace VrpcAgent.Json

open Loops

inductive Token where
  | literal_true
  | literal_false
  | literal_null
  | value_string (s : Str)
  | value_unsigned (x : Nat)
  | value_integer (x : Int)
  /-- Not a number when the conversion overflows. -/
  | value_float (x : Option Rat)
  | begin_array
  | begin_object
  | end_array
  | end_object
  | name_separator
  | value_separator
  | parse_error
  | end_of_input
  deriving DecidableEq

/-! ## Strings -/

def hex_value (b : UInt8) : Option Nat :=
  if 0x30 ≤ b ∧ b ≤ 0x39 then some (b.toNat - 0x30)
  else if 0x41 ≤ b ∧ b ≤ 0x46 then some (b.toNat - 0x37)
  else if 0x61 ≤ b ∧ b ≤ 0x66 then some (b.toNat - 0x57)
  else none

def get_codepoint : Str → Option (Nat × Str)
  | a :: b :: c :: d :: s => do
    let a ← hex_value a
    let b ← hex_value b
    let c ← hex_value c
    let d ← hex_value d
    return (a * 0x1000 + b * 0x100 + c * 0x10 + d, s)
  | _ => none

def byte_ranges (b : UInt8) : Option (List (UInt8 × UInt8)) :=
  if 0xC2 ≤ b ∧ b ≤ 0xDF then some [(0x80, 0xBF)]
  else if b = 0xE0 then some [(0xA0, 0xBF), (0x80, 0xBF)]
  else if 0xE1 ≤ b ∧ b ≤ 0xEC ∨ 0xEE ≤ b ∧ b ≤ 0xEF then some [(0x80, 0xBF), (0x80, 0xBF)]
  else if b = 0xED then some [(0x80, 0x9F), (0x80, 0xBF)]
  else if b = 0xF0 then some [(0x90, 0xBF), (0x80, 0xBF), (0x80, 0xBF)]
  else if 0xF1 ≤ b ∧ b ≤ 0xF3 then some [(0x80, 0xBF), (0x80, 0xBF), (0x80, 0xBF)]
  else if b = 0xF4 then some [(0x80, 0x8F), (0x80, 0xBF), (0x80, 0xBF)]
  else none

def next_byte_in_range : List (UInt8 × UInt8) → Str → Option (Str × Str)
  | [], s => some ([], s)
  | _ :: _, [] => none
  | r :: ranges, b :: s =>
    if r.1 ≤ b ∧ b ≤ r.2 then (next_byte_in_range ranges s).map fun x => (b :: x.1, x.2) else none

def codepoint_bytes (codepoint : Nat) : Str :=
  if codepoint < 0x80 then [codepoint.toUInt8]
  else if codepoint ≤ 0x7FF then [(0xC0 + codepoint / 0x40).toUInt8, (0x80 + codepoint % 0x40).toUInt8]
  else if codepoint ≤ 0xFFFF then
    [(0xE0 + codepoint / 0x1000).toUInt8, (0x80 + codepoint / 0x40 % 0x40).toUInt8, (0x80 + codepoint % 0x40).toUInt8]
  else
    [(0xF0 + codepoint / 0x40000).toUInt8, (0x80 + codepoint / 0x1000 % 0x40).toUInt8,
      (0x80 + codepoint / 0x40 % 0x40).toUInt8, (0x80 + codepoint % 0x40).toUInt8]

def scan_surrogate (codepoint1 : Nat) : Str → Option (Str × Str)
  | 0x5C :: 0x75 :: s => do
    let (codepoint2, s) ← get_codepoint s
    if 0xDC00 ≤ codepoint2 ∧ codepoint2 ≤ 0xDFFF then
      some (codepoint_bytes (codepoint1 * 0x400 + codepoint2 - 0x35FDC00), s)
    else none
  | _ => none

def scan_unicode (s : Str) : Option (Str × Str) := do
  let (codepoint1, s) ← get_codepoint s
  if 0xD800 ≤ codepoint1 ∧ codepoint1 ≤ 0xDBFF then scan_surrogate codepoint1 s
  else if 0xDC00 ≤ codepoint1 ∧ codepoint1 ≤ 0xDFFF then none
  else some (codepoint_bytes codepoint1, s)

def short_escape (b : UInt8) : Option UInt8 :=
  if b = 0x22 then some 0x22
  else if b = 0x5C then some 0x5C
  else if b = 0x2F then some 0x2F
  else if b = 0x62 then some 0x08
  else if b = 0x66 then some 0x0C
  else if b = 0x6E then some 0x0A
  else if b = 0x72 then some 0x0D
  else if b = 0x74 then some 0x09
  else none

def scan_escape : Str → Option (Str × Str)
  | [] => none
  | b :: s =>
    match short_escape b with
    | some c => some ([c], s)
    | none => if b = 0x75 then scan_unicode s else none

/-- A character of a string that begins with `b`: the bytes it stands for. -/
def scan_char (b : UInt8) (s : Str) : Option (Str × Str) :=
  if b = 0x5C then scan_escape s
  else if b ≤ 0x1F then none
  else if b ≤ 0x7F then some ([b], s)
  else
    match byte_ranges b with
    | none => none
    | some ranges => (next_byte_in_range ranges s).map fun x => (b :: x.1, x.2)

/-- A round of `scan_string`: the token buffer and what is left of the text. -/
def string_step (x : Str × Str) : Next (Str × Str) (Option (Str × Str)) :=
  match x.2 with
  | [] => .halt none
  | b :: s =>
    if b = 0x22 then .halt (some (x.1, s))
    else
      match scan_char b s with
      | none => .halt none
      | some c => .go (x.1 ++ c.1, c.2)

def scan_string (s : Str) : Token × Str :=
  match run string_step (fun x => x.2.length) ([], s) with
  | some (some (token_buffer, rest)) => (.value_string token_buffer, rest)
  | _ => (.parse_error, s)

/-! ## Numbers -/

/-- The labels of `scan_number`. -/
inductive NumberState where
  | minus
  | zero
  | any1
  | decimal1
  | decimal2
  | exponent
  | sign
  | any2
  deriving DecidableEq

inductive NumberType where
  | unsigned
  | integer
  | float
  deriving DecidableEq

def is_digit (b : UInt8) : Bool := 0x30 ≤ b && b ≤ 0x39

def is_exponent (b : UInt8) : Bool := b = 0x65 || b = 0x45

/-- The state that a byte leads to; the others end the number. -/
def NumberState.next (st : NumberState) (b : UInt8) : Option NumberState :=
  match st with
  | .minus => if b = 0x30 then some .zero else if is_digit b then some .any1 else none
  | .zero => if b = 0x2E then some .decimal1 else if is_exponent b then some .exponent else none
  | .any1 =>
    if is_digit b then some .any1 else if b = 0x2E then some .decimal1 else if is_exponent b then some .exponent else none
  | .decimal1 => if is_digit b then some .decimal2 else none
  | .decimal2 => if is_digit b then some .decimal2 else if is_exponent b then some .exponent else none
  | .exponent => if b = 0x2B ∨ b = 0x2D then some .sign else if is_digit b then some .any2 else none
  | .sign => if is_digit b then some .any2 else none
  | .any2 => if is_digit b then some .any2 else none

/-- In the other states a digit is missing. -/
def NumberState.done : NumberState → Bool
  | .zero | .any1 | .decimal2 | .any2 => true
  | _ => false

def NumberState.type : NumberState → NumberType → NumberType
  | .minus, _ => .integer
  | .decimal1, _ | .exponent, _ => .float
  | _, t => t

def scan_digits (st : NumberState) (t : NumberType) : Str → Option (NumberType × Str × Str)
  | [] => if st.done then some (t, [], []) else none
  | b :: s =>
    match st.next b with
    | some st' => (scan_digits st' (st'.type t) s).map fun x => (x.1, b :: x.2.1, x.2.2)
    | none => if st.done then some (t, [], b :: s) else none

def digits_value (s : Str) : Nat := s.foldl (fun n b => 10 * n + (b.toNat - 0x30)) 0

/-- `strtoull` and `strtoll`, and `strtod` for what is out of their range. -/
def number_token (strtod : Str → Option Rat) (t : NumberType) (s : Str) : Token :=
  match t with
  | .unsigned => if digits_value s < 0x10000000000000000 then .value_unsigned (digits_value s) else .value_float (strtod s)
  | .integer =>
    if digits_value s.tail ≤ 0x8000000000000000 then .value_integer (- digits_value s.tail) else .value_float (strtod s)
  | .float => .value_float (strtod s)

def scan_number (strtod : Str → Option Rat) (b : UInt8) (s : Str) : Token × Str :=
  let st : NumberState := if b = 0x2D then .minus else if b = 0x30 then .zero else .any1
  match scan_digits st (st.type .unsigned) s with
  | some (t, bytes, rest) => (number_token strtod t (b :: bytes), rest)
  | none => (.parse_error, s)

/-! ## Tokens -/

def scan_literal (return_type : Token) : Str → Str → Token × Str
  | [], s => (return_type, s)
  | _ :: _, [] => (.parse_error, [])
  | c :: literal_text, b :: s => if b = c then scan_literal return_type literal_text s else (.parse_error, s)

def is_whitespace (b : UInt8) : Bool := b = 0x20 || b = 0x09 || b = 0x0A || b = 0x0D

def structural (b : UInt8) : Option Token :=
  if b = 0x5B then some .begin_array
  else if b = 0x5D then some .end_array
  else if b = 0x7B then some .begin_object
  else if b = 0x7D then some .end_object
  else if b = 0x3A then some .name_separator
  else if b = 0x2C then some .value_separator
  else none

def scan_other (strtod : Str → Option Rat) (b : UInt8) (s : Str) : Token × Str :=
  if b = 0x74 then scan_literal .literal_true (lit "rue") s
  else if b = 0x66 then scan_literal .literal_false (lit "alse") s
  else if b = 0x6E then scan_literal .literal_null (lit "ull") s
  else if b = 0x22 then scan_string s
  else if b = 0x2D ∨ is_digit b then scan_number strtod b s
  else if b = 0x00 then (.end_of_input, s)
  else (.parse_error, s)

def scan (strtod : Str → Option Rat) (s : Str) : Token × Str :=
  match s.dropWhile is_whitespace with
  | [] => (.end_of_input, [])
  | b :: s =>
    match structural b with
    | some t => (t, s)
    | none => scan_other strtod b s

def skip_bom : Str → Option Str
  | 0xEF :: 0xBB :: 0xBF :: s => some s
  | 0xEF :: _ => none
  | s => some s

/-! ## What is left of the text -/

theorem next_byte_in_range_append : ∀ {ranges : List (UInt8 × UInt8)} {s : Str} {x : Str × Str},
    next_byte_in_range ranges s = some x → s = x.1 ++ x.2
  | [], s, x, h => by
    cases h
    rfl
  | _ :: _, [], x, h => nomatch h
  | r :: ranges, b :: s, x, h => by
    unfold next_byte_in_range at h
    split at h
    · obtain ⟨y, hy, rfl⟩ := Option.map_eq_some_iff.mp h
      rw [next_byte_in_range_append hy]
      rfl
    · cases h

theorem get_codepoint_length {s : Str} {x : Nat × Str} (h : get_codepoint s = some x) : x.2.length < s.length := by
  unfold get_codepoint at h
  split at h
  · simp only [Option.bind_eq_bind, Option.bind_eq_some_iff] at h
    obtain ⟨a, -, b, -, c, -, d, -, h⟩ := h
    cases h
    simp only [List.length_cons]
    omega
  · cases h

theorem scan_surrogate_length {n : Nat} {s : Str} {x : Str × Str} (h : scan_surrogate n s = some x) :
    x.2.length < s.length := by
  unfold scan_surrogate at h
  split at h
  · simp only [Option.bind_eq_bind, Option.bind_eq_some_iff] at h
    obtain ⟨y, hy, h⟩ := h
    have hlt := get_codepoint_length hy
    split at h
    · rw [← Option.some.inj h]
      simp only [List.length_cons]
      omega
    · cases h
  · cases h

theorem scan_unicode_length {s : Str} {x : Str × Str} (h : scan_unicode s = some x) : x.2.length < s.length := by
  unfold scan_unicode at h
  simp only [Option.bind_eq_bind, Option.bind_eq_some_iff] at h
  obtain ⟨y, hy, h⟩ := h
  have hlt := get_codepoint_length hy
  split at h
  · exact Nat.lt_trans (scan_surrogate_length h) hlt
  · split at h
    · cases h
    · cases h
      exact hlt

theorem scan_escape_length {s : Str} {x : Str × Str} (h : scan_escape s = some x) : x.2.length < s.length := by
  cases s with
  | nil => cases h
  | cons b s =>
    simp only [scan_escape] at h
    split at h
    · cases h
      exact Nat.lt_succ_self _
    · split at h
      · exact Nat.lt_succ_of_lt (scan_unicode_length h)
      · cases h

theorem scan_char_length {b : UInt8} {s : Str} {x : Str × Str} (h : scan_char b s = some x) : x.2.length ≤ s.length := by
  unfold scan_char at h
  split at h
  · exact Nat.le_of_lt (scan_escape_length h)
  split at h
  · cases h
  split at h
  · cases h
    exact Nat.le_refl _
  split at h
  · cases h
  · obtain ⟨y, hy, rfl⟩ := Option.map_eq_some_iff.mp h
    rw [next_byte_in_range_append hy, List.length_append]
    exact Nat.le_add_left _ _

theorem string_step_go {x y : Str × Str} (h : string_step x = .go y) :
    ∃ b s c, x.2 = b :: s ∧ b ≠ 0x22 ∧ scan_char b s = some c ∧ y = (x.1 ++ c.1, c.2) := by
  unfold string_step at h
  split at h
  · cases h
  · rename_i b s hs
    split at h
    · cases h
    · rename_i hb
      split at h
      · cases h
      · rename_i c hc
        cases h
        exact ⟨b, s, c, hs, hb, hc, rfl⟩

theorem string_step_descends : Descends string_step fun x => x.2.length := by
  intro x y h
  obtain ⟨b, s, c, hs, -, hc, rfl⟩ := string_step_go h
  simp only [hs, List.length_cons]
  exact Nat.lt_succ_of_le (scan_char_length hc)

theorem string_step_halt {x : Str × Str} {y : Str × Str} (h : string_step x = .halt (some y)) :
    x.2 = 0x22 :: y.2 ∧ y.1 = x.1 := by
  unfold string_step at h
  split at h
  · cases h
  · rename_i b s hs
    split at h
    · rename_i hb
      cases h
      exact ⟨by rw [hs, hb], rfl⟩
    · split at h <;> cases h

theorem scan_string_value {s token_buffer rest : Str} (h : scan_string s = (.value_string token_buffer, rest)) :
    run string_step (fun x => x.2.length) ([], s) = some (some (token_buffer, rest)) := by
  unfold scan_string at h
  split at h
  · rename_i hrun
    cases h
    exact hrun
  · cases h

theorem scan_string_length {s rest : Str} {t : Token} (h : scan_string s = (t, rest)) (ht : t ≠ .parse_error) :
    rest.length < s.length := by
  cases t with
  | value_string token_buffer =>
    have hrun := scan_string_value h
    refine run_spec (P := fun x => x.2.length ≤ s.length) (Q := fun r => ∀ y, r = some y → y.2.length < s.length) ?_ ?_
      (Nat.le_refl _) hrun _ rfl
    · intro x y hx hgo
      exact Nat.le_trans (Nat.le_of_lt (string_step_descends hgo)) hx
    · rintro x r hx hhalt y rfl
      have hlen := congrArg List.length (string_step_halt hhalt).1
      rw [List.length_cons] at hlen
      omega
  | parse_error => exact absurd rfl ht
  | _ => unfold scan_string at h; split at h <;> cases h

theorem scan_digits_length : ∀ {s : Str} {st : NumberState} {t : NumberType} {x : NumberType × Str × Str},
    scan_digits st t s = some x → x.2.2.length ≤ s.length
  | [], st, t, x, h => by
    unfold scan_digits at h
    split at h
    · cases h
      exact Nat.le_refl _
    · cases h
  | b :: s, st, t, x, h => by
    unfold scan_digits at h
    split at h
    · obtain ⟨y, hy, rfl⟩ := Option.map_eq_some_iff.mp h
      have hle := scan_digits_length hy
      exact Nat.le_succ_of_le hle
    · split at h
      · cases h
        exact Nat.le_refl _
      · cases h

theorem scan_number_length {strtod : Str → Option Rat} {b : UInt8} {s rest : Str} {t : Token}
    (h : scan_number strtod b s = (t, rest)) :
    rest.length ≤ s.length := by
  unfold scan_number at h
  generalize (if b = 0x2D then NumberState.minus else if b = 0x30 then .zero else .any1) = st at h
  simp only at h
  split at h
  · rename_i hx
    cases h
    exact scan_digits_length hx
  · cases h
    exact Nat.le_refl _

theorem scan_literal_length {t t' : Token} : ∀ {l s rest : Str}, scan_literal t l s = (t', rest) → rest.length ≤ s.length
  | [], s, rest, h => by
    cases h
    exact Nat.le_refl _
  | _ :: _, [], rest, h => by
    cases h
    exact Nat.le_refl _
  | c :: l, b :: s, rest, h => by
    unfold scan_literal at h
    split at h
    · exact Nat.le_succ_of_le (scan_literal_length h)
    · cases h
      exact Nat.le_succ _

/-- A token that parsing can go on with. -/
def Token.live : Token → Bool
  | .parse_error | .end_of_input => false
  | _ => true

theorem scan_other_length (strtod : Str → Option Rat) (b : UInt8) (s : Str) :
    (scan_other strtod b s).2.length ≤ s.length := by
  have hlit : ∀ t l, (scan_literal t l s).2.length ≤ s.length := fun t l => scan_literal_length rfl
  unfold scan_other
  split
  · exact hlit _ _
  split
  · exact hlit _ _
  split
  · exact hlit _ _
  split
  · by_cases h : (scan_string s).1 = .parse_error
    · unfold scan_string at h ⊢
      split at h
      · cases h
      · exact Nat.le_refl _
    · exact Nat.le_of_lt (scan_string_length rfl h)
  split
  · exact scan_number_length (rfl : scan_number strtod b s = (_, _))
  split
  · exact Nat.le_refl _
  · exact Nat.le_refl _

theorem scan_length (strtod : Str → Option Rat) (s : Str) :
    (scan strtod s).2.length + (if (scan strtod s).1.live then 1 else 0) ≤ s.length := by
  have hws : (s.dropWhile is_whitespace).length ≤ s.length := (List.dropWhile_suffix _).length_le
  unfold scan
  split
  · exact Nat.zero_le _
  · rename_i b rest hrest
    rw [hrest, List.length_cons] at hws
    have hlive : ∀ t : Token, (if t.live = true then 1 else 0) ≤ 1 := by
      intro t
      split <;> omega
    have hbound : ∀ x : Token × Str, x.2.length ≤ rest.length → x.2.length + (if x.1.live = true then 1 else 0) ≤ s.length :=
      fun x hx => Nat.le_trans (Nat.add_le_add hx (hlive x.1)) hws
    refine hbound _ ?_
    split
    · exact Nat.le_refl _
    · exact scan_other_length strtod b rest

end VrpcAgent.Json

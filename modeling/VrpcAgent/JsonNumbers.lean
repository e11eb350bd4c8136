import VrpcAgent.JsonStrings
import Mathlib.Algebra.Order.Ring.Nat
import Mathlib.Algebra.Order.Ring.Int

/-!
# Integers in both directions

`dump_integer` of `json.hpp` fills its buffer from the end, two digits at a time, after it
has counted the digits. It writes the decimal text of the integer, whatever was in the
buffer, and the lexer reads that text as the integer.
-/

namespace VrpcAgent.Json

open Loops

/-! ## The writer -/

def count_step (s : Nat × Nat) : Next (Nat × Nat) Nat :=
  if s.1 < 10 then .halt s.2
  else if s.1 < 100 then .halt (s.2 + 1)
  else if s.1 < 1000 then .halt (s.2 + 2)
  else if s.1 < 10000 then .halt (s.2 + 3)
  else .go (s.1 / 10000, s.2 + 4)

def count_digits (x : Nat) : Nat := (run count_step (fun s => s.1) (x, 1)).getD 0

def digit (n : Nat) : UInt8 := (0x30 + n).toUInt8

/-- `digits_to_99[digits_index]` in front of `buffer_ptr`. -/
def put_pair (digits_index buffer_ptr : Nat) (number_buffer : Str) : Str :=
  (number_buffer.set (buffer_ptr - 1) (digit (digits_index % 10))).set (buffer_ptr - 2) (digit (digits_index / 10))

/-- A round of the loop: `abs_value`, `buffer_ptr` and the buffer. -/
def write_step (s : Nat × Nat × Str) : Next (Nat × Nat × Str) Str :=
  if 100 ≤ s.1 then .go (s.1 / 100, s.2.1 - 2, put_pair (s.1 % 100) s.2.1 s.2.2)
  else if 10 ≤ s.1 then .halt (put_pair s.1 s.2.1 s.2.2)
  else .halt (s.2.2.set (s.2.1 - 1) (digit s.1))

def dump_integer (number_buffer : Str) (x : Int) : Str :=
  if x = 0 then [0x30]
  else
    let n_chars := if x < 0 then 1 + count_digits x.natAbs else count_digits x.natAbs
    let number_buffer := if x < 0 then number_buffer.set 0 0x2D else number_buffer
    ((run write_step (fun s => s.1) (x.natAbs, n_chars, number_buffer)).getD []).take n_chars

/-! ## Decimal texts -/

def decimal (n : Nat) : Str := lit (Nat.repr n)

theorem lit_append (s t : String) : lit (s ++ t) = lit s ++ lit t := by
  simp [lit, String.toList_append]

theorem lit_digitChar : ∀ d < 10, lit (String.singleton (Nat.digitChar d)) = [digit d] := by decide

theorem decimal_of_lt {n : Nat} (h : n < 10) : decimal n = [digit n] := by
  rw [decimal, Nat.repr_of_lt h]
  exact lit_digitChar n h

theorem decimal_of_ge {n : Nat} (h : 10 ≤ n) : decimal n = decimal (n / 10) ++ [digit (n % 10)] := by
  rw [decimal, Nat.repr_of_ge h, lit_append, lit_digitChar _ (Nat.mod_lt n (by decide))]
  rfl

theorem decimal_pair {n : Nat} (h : 10 ≤ n) (h' : n < 100) : decimal n = [digit (n / 10), digit (n % 10)] := by
  rw [decimal_of_ge h, decimal_of_lt (by omega)]
  rfl

theorem decimal_hundred {n : Nat} (h : 100 ≤ n) :
    decimal n = decimal (n / 100) ++ [digit (n % 100 / 10), digit (n % 100 % 10)] := by
  rw [decimal_of_ge (by omega), decimal_of_ge (n := n / 10) (by omega), Nat.div_div_eq_div_mul, List.append_assoc,
    show n / 10 % 10 = n % 100 / 10 from by omega, show n % 10 = n % 100 % 10 from by omega]
  rfl

theorem length_decimal_of_ge {n : Nat} (h : 10 ≤ n) : (decimal n).length = (decimal (n / 10)).length + 1 := by
  rw [decimal_of_ge h, List.length_append]
  rfl

/-! ## The digits are counted -/

theorem count_step_descends : Descends count_step fun s => s.1 := by
  intro s s' h
  unfold count_step at h
  split at h
  · cases h
  split at h
  · cases h
  split at h
  · cases h
  split at h
  · cases h
  · cases h
    show s.1 / 10000 < s.1
    omega

theorem count_digits_eq (x : Nat) : count_digits x = (decimal x).length := by
  have hrun : ∀ n x, run count_step (fun s => s.1) (x, n + 1) = some (n + (decimal x).length) := by
    intro n x
    induction hm : x using Nat.strongRecOn generalizing n x with
    | _ m ih =>
      subst hm
      by_cases h1 : x < 10
      · rw [run_halt (r := n + 1) (by simp [count_step, h1]), decimal_of_lt h1]
        rfl
      by_cases h2 : x < 100
      · rw [run_halt (r := n + 1 + 1) (by simp [count_step, h1, h2]), decimal_pair (by omega) h2]
        rfl
      rw [length_decimal_of_ge (by omega)]
      by_cases h3 : x < 1000
      · rw [run_halt (r := n + 1 + 2) (by simp [count_step, h1, h2, h3]), decimal_pair (by omega) (by omega)]
        rfl
      rw [length_decimal_of_ge (n := x / 10) (by omega)]
      by_cases h4 : x < 10000
      · rw [run_halt (r := n + 1 + 3) (by simp [count_step, h1, h2, h3, h4]), decimal_pair (by omega) (by omega)]
        rfl
      · have hstep : count_step (x, n + 1) = .go (x / 10000, n + 4 + 1) := by simp [count_step, h1, h2, h3, h4]
        rw [run_go count_step_descends hstep, ih (x / 10000) (by omega) (n + 4) (x / 10000) rfl,
          length_decimal_of_ge (n := x / 10 / 10) (by omega),
          length_decimal_of_ge (n := x / 10 / 10 / 10) (by omega)]
        simp only [Nat.div_div_eq_div_mul, Nat.reduceMul]
        exact congrArg some (by omega)
  rw [count_digits, hrun 0 x, Nat.zero_add]
  rfl

theorem length_decimal_le : ∀ {k n : Nat}, n < 10 ^ (k + 1) → (decimal n).length ≤ k + 1
  | 0, n, h => by
    rw [decimal_of_lt h]
    exact Nat.le_refl _
  | k + 1, n, h => by
    by_cases hn : n < 10
    · rw [decimal_of_lt hn]
      exact Nat.le_add_left _ _
    · rw [length_decimal_of_ge (by omega)]
      refine Nat.succ_le_succ (length_decimal_le ?_)
      rw [Nat.pow_succ] at h
      exact Nat.div_lt_of_lt_mul (by rwa [Nat.mul_comm] at h)

/-! ## The digits are written -/

theorem set_here (l : Str) (x y : UInt8) (r : Str) : (l ++ x :: r).set l.length y = l ++ y :: r := by
  rw [List.set_append_right _ _ (Nat.le_refl _), Nat.sub_self]
  rfl

theorem put_pair_eq (n : Nat) (l : Str) (x y : UInt8) (r : Str) :
    put_pair n (l.length + 2) (l ++ x :: y :: r) = l ++ digit (n / 10) :: digit (n % 10) :: r := by
  have hlast := set_here (l ++ [x]) y (digit (n % 10)) r
  rw [List.length_append, List.append_assoc, List.append_assoc] at hlast
  rw [put_pair, show l.length + 2 - 1 = l.length + [x].length from rfl, show l ++ x :: y :: r = l ++ ([x] ++ y :: r) from rfl,
    hlast, Nat.add_sub_cancel]
  exact set_here l x _ _

theorem write_step_descends : Descends write_step fun s => s.1 := by
  intro s s' h
  unfold write_step at h
  split at h
  · cases h
    exact Nat.div_lt_self (by omega) (by decide)
  · split at h <;> cases h

theorem write_step_hundred {v : Nat} (h : 100 ≤ v) (l : Str) (x y : UInt8) (r : Str) :
    write_step (v, l.length + 2, l ++ x :: y :: r) =
      .go (v / 100, l.length, l ++ digit (v % 100 / 10) :: digit (v % 100 % 10) :: r) := by
  simp only [write_step, if_pos h, put_pair_eq]
  rfl

theorem write_step_ten {v : Nat} (h : 10 ≤ v) (h' : v < 100) (l : Str) (x y : UInt8) (r : Str) :
    write_step (v, l.length + 2, l ++ x :: y :: r) = .halt (l ++ digit (v / 10) :: digit (v % 10) :: r) := by
  simp only [write_step, if_neg (Nat.not_le.mpr h'), if_pos h, put_pair_eq]

theorem write_step_one {v : Nat} (h : v < 10) (l : Str) (x : UInt8) (r : Str) :
    write_step (v, l.length + 1, l ++ x :: r) = .halt (l ++ digit v :: r) := by
  simp only [write_step, if_neg (show ¬ 100 ≤ v by omega), if_neg (Nat.not_le.mpr h), Nat.add_sub_cancel, set_here]

/-- The digits take the place of what was in the buffer. -/
theorem write_run (pre : Str) {v : Nat} {gap : Str} (h : gap.length = (decimal v).length) (post : Str) :
    run write_step (fun s => s.1) (v, pre.length + gap.length, pre ++ gap ++ post) = some (pre ++ decimal v ++ post) := by
  induction hm : v using Nat.strongRecOn generalizing v gap post with
  | _ m ih =>
    subst hm
    by_cases h100 : 100 ≤ v
    · rw [decimal_hundred h100, List.length_append] at h
      obtain ⟨gap, rest, rfl, hgap⟩ : ∃ l r, gap = l ++ r ∧ l.length = (decimal (v / 100)).length :=
        ⟨gap.take _, gap.drop _, (List.take_append_drop _ _).symm, List.length_take_of_le (by omega)⟩
      obtain ⟨x, y, rfl⟩ : ∃ x y, rest = [x, y] := by
        rw [List.length_append, hgap] at h
        exact List.length_eq_two.mp (Nat.add_left_cancel h)
      have hstep := write_step_hundred h100 (pre ++ gap) x y post
      have hrest := ih (v / 100) (Nat.div_lt_self (by omega) (by decide)) hgap
        (digit (v % 100 / 10) :: digit (v % 100 % 10) :: post) rfl
      simp only [List.length_append, List.append_assoc] at hstep hrest
      rw [decimal_hundred h100]
      simp only [List.length_append, List.append_assoc, ← Nat.add_assoc]
      exact (run_go write_step_descends hstep).trans hrest
    by_cases h10 : 10 ≤ v
    · rw [decimal_pair h10 (by omega)] at h ⊢
      obtain ⟨x, y, rfl⟩ := List.length_eq_two.mp h
      have hstep := write_step_ten h10 (by omega) pre x y post
      simp only [List.append_assoc]
      exact run_halt hstep
    · rw [decimal_of_lt (by omega)] at h ⊢
      obtain ⟨x, rfl⟩ := List.length_eq_one_iff.mp h
      have hstep := write_step_one (Nat.not_le.mp h10) pre x post
      simp only [List.append_assoc]
      exact run_halt hstep

/-- `buffer_ptr` starts behind the sign. -/
theorem written (pre : Str) {v : Nat} {buffer : Str} (h : pre.length + (decimal v).length ≤ buffer.length)
    (hpre : buffer.take pre.length = pre) :
    ((run write_step (fun s => s.1) (v, pre.length + count_digits v, buffer)).getD []).take (pre.length + count_digits v) =
      pre ++ decimal v := by
  obtain ⟨gap, post, rfl, hgap⟩ : ∃ gap post, buffer = pre ++ gap ++ post ∧ gap.length = (decimal v).length := by
    refine ⟨(buffer.drop pre.length).take (decimal v).length, (buffer.drop pre.length).drop (decimal v).length, ?_, ?_⟩
    · have hbuffer := List.take_append_drop pre.length buffer
      rw [hpre] at hbuffer
      rw [List.append_assoc, List.take_append_drop, hbuffer]
    · rw [List.length_take, List.length_drop]
      omega
  have hrun := write_run pre hgap post
  rw [hgap] at hrun
  rw [count_digits_eq, hrun, Option.getD_some, ← List.length_append]
  exact List.take_left

theorem to_string_of_nonneg {x : Int} (h : 0 ≤ x) : lit (toString x) = decimal x.natAbs := by
  obtain ⟨n, rfl⟩ := Int.eq_ofNat_of_zero_le h
  rfl

theorem to_string_of_neg {x : Int} (h : x < 0) : lit (toString x) = 0x2D :: decimal x.natAbs := by
  obtain ⟨n, rfl⟩ := Int.eq_negSucc_of_lt_zero h
  exact lit_append "-" (Nat.repr (n + 1))

theorem dump_integer_eq {number_buffer : Str} {x : Int} (h : 21 ≤ number_buffer.length) (hx : x.natAbs < 10 ^ 20) :
    dump_integer number_buffer x = lit (toString x) := by
  have hlen := length_decimal_le (k := 19) hx
  unfold dump_integer
  by_cases h0 : x = 0
  · rw [if_pos h0, h0]
    rfl
  by_cases hneg : x < 0
  · obtain ⟨b, rest, rfl⟩ : ∃ b rest, number_buffer = b :: rest := List.exists_cons_of_length_pos (by omega)
    rw [to_string_of_neg hneg]
    simp only [if_neg h0, if_pos hneg, List.set_cons_zero]
    exact written [0x2D] (by simp only [List.length_cons, List.length_nil] at h ⊢; omega) rfl
  · rw [to_string_of_nonneg (by omega)]
    simp only [if_neg h0, if_neg hneg]
    have hfit : ([] : Str).length + (decimal x.natAbs).length ≤ number_buffer.length := by
      simp only [List.length_nil]
      omega
    have hwritten := written [] hfit rfl
    simpa only [List.length_nil, Nat.zero_add, List.nil_append] using hwritten

/-! ## The digits are read -/

theorem digits_of_decimal {n : Nat} (h : 0 < n) :
    ∃ b s, decimal n = b :: s ∧ is_digit b = true ∧ b ≠ 0x30 ∧ ∀ c ∈ s, is_digit c = true := by
  have hdigit : ∀ d < 10, is_digit (digit d) = true ∧ (0 < d → digit d ≠ 0x30) := by decide
  induction hm : n using Nat.strongRecOn generalizing n with
  | _ m ih =>
    subst hm
    by_cases h10 : n < 10
    · exact ⟨digit n, [], decimal_of_lt h10, (hdigit n h10).1, (hdigit n h10).2 h, List.forall_mem_nil _⟩
    · obtain ⟨b, s, hs, hb, hne, hdigits⟩ := ih (n / 10) (Nat.div_lt_self h (by decide)) (by omega) rfl
      refine ⟨b, s ++ [digit (n % 10)], by rw [decimal_of_ge (by omega), hs]; rfl, hb, hne, ?_⟩
      intro c hc
      rcases List.mem_append.mp hc with hc | hc
      · exact hdigits c hc
      · rw [List.mem_singleton.mp hc]
        exact (hdigit _ (Nat.mod_lt n (by decide))).1

theorem digits_value_decimal (n : Nat) : digits_value (decimal n) = n := by
  have hdigit : ∀ d < 10, (digit d).toNat - 0x30 = d := by decide
  induction hm : n using Nat.strongRecOn generalizing n with
  | _ m ih =>
    subst hm
    by_cases h10 : n < 10
    · rw [decimal_of_lt h10]
      show 10 * 0 + ((digit n).toNat - 0x30) = n
      rw [hdigit n h10, Nat.mul_zero, Nat.zero_add]
    · have hrest := ih (n / 10) (Nat.div_lt_self (by omega) (by decide)) (n / 10) rfl
      rw [decimal_of_ge (by omega), digits_value, List.foldl_append]
      rw [digits_value] at hrest
      rw [hrest]
      show 10 * (n / 10) + ((digit (n % 10)).toNat - 0x30) = n
      rw [hdigit _ (Nat.mod_lt n (by decide))]
      exact Nat.div_add_mod n 10

theorem scan_digits_all (t : NumberType) : ∀ {s : Str}, (∀ c ∈ s, is_digit c = true) → scan_digits .any1 t s = some (t, s, [])
  | [], _ => rfl
  | b :: s, h => by
    have hb := h b List.mem_cons_self
    have hs := scan_digits_all t fun c hc => h c (List.mem_cons_of_mem b hc)
    simp only [scan_digits, NumberState.next, hb, if_true]
    exact congrArg (Option.map fun x => (x.1, b :: x.2.1, x.2.2)) hs

def Token.number : Token → Option Rat
  | .value_unsigned x => some x
  | .value_integer x => some x
  | .value_float x => x
  | _ => none

section
variable (strtod : Str → Option Rat)

theorem scan_digit {b : UInt8} (h : is_digit b = true) (s : Str) : scan strtod (b :: s) = scan_number strtod b s := by
  have hclass : ∀ b, is_digit b = true → is_whitespace b = false ∧ structural b = none ∧ b ≠ 0x74 ∧ b ≠ 0x66 ∧
    b ≠ 0x6E ∧ b ≠ 0x22 :=
    forall_byte (by decide +kernel)
  obtain ⟨hspace, hstruct, h1, h2, h3, h4⟩ := hclass b h
  simp only [scan, List.dropWhile_cons, hspace, Bool.false_eq_true, if_false, hstruct, scan_other, if_neg h1,
    if_neg h2, if_neg h3,
    if_neg h4, h, or_true, if_true]

/-- The text of an integer is a token of its value. -/
theorem scan_integer_text {x : Int} (hmin : - 2 ^ 63 ≤ x) (hmax : x < 2 ^ 64) :
    ∃ t, scan strtod (lit (toString x)) = (t, []) ∧ t.number = some (x : Rat) := by
  by_cases hneg : x < 0
  · obtain ⟨b, s, hs, hb, hne, hdigits⟩ := digits_of_decimal (n := x.natAbs) (by omega)
    have hvalue : digits_value (b :: s) = x.natAbs := by rw [← hs, digits_value_decimal]
    have hscan : scan_number strtod 0x2D (b :: s) = (.value_integer x, []) := by
      have hrest := scan_digits_all .integer hdigits
      have hfirst : scan_digits .minus .integer (b :: s) = some (.integer, b :: s, []) := by
        simp only [scan_digits, NumberState.next, if_neg hne, hb, if_true]
        exact congrArg (Option.map fun x => (x.1, b :: x.2.1, x.2.2)) hrest
      have hle : x.natAbs ≤ 0x8000000000000000 := by omega
      simp only [scan_number, if_true, NumberState.type, hfirst, number_token, List.tail_cons, hvalue, if_pos hle]
      rw [show - (x.natAbs : Int) = x from by omega]
    refine ⟨.value_integer x, ?_, rfl⟩
    rw [to_string_of_neg hneg, hs]
    exact hscan
  · by_cases h0 : x = 0
    · subst h0
      exact ⟨.value_unsigned 0, rfl, by simp [Token.number]⟩
    obtain ⟨b, s, hs, hb, hne, hdigits⟩ := digits_of_decimal (n := x.natAbs) (by omega)
    have hvalue : digits_value (b :: s) = x.natAbs := by rw [← hs, digits_value_decimal]
    have hscan : scan_number strtod b s = (.value_unsigned x.natAbs, []) := by
      have hrest := scan_digits_all .unsigned hdigits
      have hminus : b ≠ 0x2D := by
        rintro rfl
        cases hb
      have hlt : x.natAbs < 0x10000000000000000 := by omega
      simp only [scan_number, if_neg hminus, if_neg hne, NumberState.type, hrest, number_token, hvalue, if_pos hlt]
    refine ⟨.value_unsigned x.natAbs, ?_, ?_⟩
    · rw [to_string_of_nonneg (by omega), hs, scan_digit strtod hb, hscan]
    · have habs : (x.natAbs : Int) = x := by omega
      show some ((x.natAbs : Rat)) = some (x : Rat)
      rw [← habs]
      rfl

/-! ## Numbers in front of something -/

def Stops (r : Str) : Prop := ∀ b ∈ r.head?, ∀ st : NumberState, st.next b = none

theorem scan_digits_append {r : Str} (hr : Stops r) : ∀ {s : Str} {st : NumberState} {t t' : NumberType} {bytes : Str},
    scan_digits st t s = some (t', bytes, []) → scan_digits st t (s ++ r) = some (t', bytes, r)
  | [], st, t, t', bytes, h => by
    unfold scan_digits at h
    split at h
    · rename_i hdone
      cases h
      cases r with
      | nil => simp only [List.append_nil, scan_digits, if_pos hdone]
      | cons b r => simp only [List.nil_append, scan_digits, hr b rfl st, if_pos hdone]
    · cases h
  | b :: s, st, t, t', bytes, h => by
    unfold scan_digits at h
    split at h
    · rename_i st' hst
      obtain ⟨⟨t₁, bytes₁, rest⟩, hx, hmap⟩ := Option.map_eq_some_iff.mp h
      cases hmap
      simp only [List.cons_append, scan_digits, hst, scan_digits_append hr hx, Option.map_some]
    · split at h <;> cases h

theorem scan_number_append {r : Str} (hr : Stops r) {b : UInt8} {s : Str} {t : Token} (h : scan_number strtod b s = (t, []))
    (ht : t ≠ .parse_error) : scan_number strtod b (s ++ r) = (t, r) := by
  simp only [scan_number] at h
  split at h
  · rename_i hdigits
    cases h
    simp only [scan_number, scan_digits_append hr hdigits]
  · cases h
    exact absurd rfl ht

theorem scan_literal_token (t : Token) : ∀ (l s : Str), (scan_literal t l s).1 = t ∨ (scan_literal t l s).1 = .parse_error
  | [], _ => Or.inl rfl
  | _ :: _, [] => Or.inr rfl
  | c :: l, b :: s => by
    rw [scan_literal]
    split
    · exact scan_literal_token t l s
    · exact Or.inr rfl

theorem scan_literal_number {t : Token} (ht : t.number = none) (l s : Str) : (scan_literal t l s).1.number = none := by
  rcases scan_literal_token t l s with h | h
  · rw [h, ht]
  · rw [h]
    rfl

theorem structural_token {b : UInt8} {t : Token} (h : structural b = some t) :
    t ∈ [Token.begin_array, .end_array, .begin_object, .end_object, .name_separator, .value_separator] := by
  have hall : ∀ b, ∀ t ∈ structural b,
      t ∈ [Token.begin_array, .end_array, .begin_object, .end_object, .name_separator, .value_separator] :=
    forall_byte (by decide +kernel)
  exact hall b t h

theorem structural_number {b : UInt8} {t : Token} (h : structural b = some t) : t.number = none := by
  have ht := structural_token h
  simp only [List.mem_cons, List.not_mem_nil, or_false] at ht
  rcases ht with rfl | rfl | rfl | rfl | rfl | rfl <;> rfl

theorem scan_string_number (s : Str) : (scan_string s).1.number = none := by
  unfold scan_string
  split <;> rfl

theorem scan_other_number {b : UInt8} {s : Str} (h : (scan_other strtod b s).1.number ≠ none) (u : Str) :
    scan_other strtod b u = scan_number strtod b u := by
  by_cases h1 : b = 0x74
  · subst h1
    exact absurd (scan_literal_number rfl _ s) h
  by_cases h2 : b = 0x66
  · subst h2
    exact absurd (scan_literal_number rfl _ s) h
  by_cases h3 : b = 0x6E
  · subst h3
    exact absurd (scan_literal_number rfl _ s) h
  by_cases h4 : b = 0x22
  · subst h4
    exact absurd (scan_string_number s) h
  by_cases h5 : b = 0x2D ∨ is_digit b
  · simp only [scan_other, if_neg h1, if_neg h2, if_neg h3, if_neg h4, if_pos h5]
  · simp only [scan_other, if_neg h1, if_neg h2, if_neg h3, if_neg h4, if_neg h5] at h
    split at h <;> exact absurd rfl h

/-- A number is a token of its own in front of what stops it. -/
theorem scan_append {r : Str} (hr : Stops r) {s : Str} {t : Token} {q : Rat} (h : scan strtod s = (t, []))
    (ht : t.number = some q) :
    scan strtod (s ++ r) = (t, r) := by
  unfold scan at h ⊢
  rw [List.dropWhile_append]
  cases hs : s.dropWhile is_whitespace with
  | nil =>
    rw [hs] at h
    cases h
    cases ht
  | cons b s =>
    rw [hs] at h
    simp only [List.isEmpty_cons, Bool.false_eq_true, if_false, List.cons_append] at h ⊢
    cases hstruct : structural b with
    | some t' =>
      rw [hstruct] at h
      cases h
      rw [structural_number hstruct] at ht
      cases ht
    | none =>
      rw [hstruct] at h
      simp only at h
      have hno : (scan_other strtod b s).1.number ≠ none := by
        simp [h, ht]
      rw [scan_other_number strtod hno] at h
      simp only [scan_other_number strtod hno]
      refine scan_number_append strtod hr h ?_
      rintro rfl
      cases ht

end

end VrpcAgent.Json

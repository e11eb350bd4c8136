import VrpcAgent.JsonNumbers

/-!
# Numerals

The numbers of a text: an integer part, perhaps a fraction and an exponent. The states of
`scan_number` are the parts of such a numeral that may still come.
-/

namespace VrpcAgent.Json

/-! ## The grammar -/

def AllDigits (s : Str) : Prop := ∀ b ∈ s, is_digit b = true

inductive IntegerPart : Str → Prop
  | zero : IntegerPart [0x30]
  | digits {b : UInt8} {s : Str} (hb : is_digit b = true) (h0 : b ≠ 0x30) (hs : AllDigits s) : IntegerPart (b :: s)

inductive Fraction : Str → Prop
  | none : Fraction []
  | some {b : UInt8} {s : Str} (hb : is_digit b = true) (hs : AllDigits s) : Fraction (0x2E :: b :: s)

inductive Exponent : Str → Prop
  | none : Exponent []
  | unsigned {e b : UInt8} {s : Str} (he : is_exponent e = true) (hb : is_digit b = true) (hs : AllDigits s) :
    Exponent (e :: b :: s)
  | signed {e c b : UInt8} {s : Str} (he : is_exponent e = true) (hc : c = 0x2B ∨ c = 0x2D) (hb : is_digit b = true)
    (hs : AllDigits s) : Exponent (e :: c :: b :: s)

def float_type (t : NumberType) (s : Str) : NumberType := if s = [] then t else .float

inductive Numeral : NumberType → Str → Prop
  | positive {i f e : Str} (hi : IntegerPart i) (hf : Fraction f) (he : Exponent e) :
    Numeral (float_type .unsigned (f ++ e)) (i ++ (f ++ e))
  | negative {i f e : Str} (hi : IntegerPart i) (hf : Fraction f) (he : Exponent e) :
    Numeral (float_type .integer (f ++ e)) (0x2D :: (i ++ (f ++ e)))

/-! ## The states -/

/-- From `st`, with the type `t` so far, the bytes of a numeral of type `t'`. -/
inductive Completes : NumberState → NumberType → Str → NumberType → Prop
  | stop {st : NumberState} {t : NumberType} (h : st.done = true) : Completes st t [] t
  | step {st st' : NumberState} {t t' : NumberType} {b : UInt8} {s : Str} (h : st.next b = some st')
    (hs : Completes st' (st'.type t) s t') : Completes st t (b :: s) t'

theorem completes_nil {st : NumberState} {t t' : NumberType} : Completes st t [] t' ↔ st.done = true ∧ t' = t := by
  constructor
  · intro h
    cases h with
    | stop h => exact ⟨h, rfl⟩
  · rintro ⟨h, rfl⟩
    exact .stop h

theorem completes_cons {st : NumberState} {t t' : NumberType} {b : UInt8} {s : Str} :
    Completes st t (b :: s) t' ↔ ∃ st', st.next b = some st' ∧ Completes st' (st'.type t) s t' := by
  constructor
  · intro h
    cases h with
    | step h hs => exact ⟨_, h, hs⟩
  · rintro ⟨st', h, hs⟩
    exact .step h hs

theorem completes_of_scan : ∀ {s : Str} {st : NumberState} {t t' : NumberType} {x rest : Str},
    scan_digits st t s = some (t', x, rest) → s = x ++ rest ∧ Completes st t x t'
  | [], st, t, t', x, rest, h => by
    unfold scan_digits at h
    split at h
    · rename_i hdone
      cases h
      exact ⟨rfl, .stop hdone⟩
    · cases h
  | b :: s, st, t, t', x, rest, h => by
    unfold scan_digits at h
    split at h
    · rename_i st' hst
      obtain ⟨⟨t₁, x₁, rest₁⟩, hx, heq⟩ := Option.map_eq_some_iff.mp h
      cases heq
      obtain ⟨rfl, hs⟩ := completes_of_scan hx
      exact ⟨rfl, .step hst hs⟩
    · split at h
      · rename_i hdone
        cases h
        exact ⟨rfl, .stop hdone⟩
      · cases h

theorem scan_of_completes {st : NumberState} {t t' : NumberType} {x : Str} (h : Completes st t x t') :
    scan_digits st t x = some (t', x, []) := by
  induction h with
  | stop h => rw [scan_digits, if_pos h]
  | step h _ ih => simp only [scan_digits, h, ih, Option.map_some]

/-! ## What a state completes to -/

theorem allDigits_cons {b : UInt8} {s : Str} : AllDigits (b :: s) ↔ is_digit b = true ∧ AllDigits s := List.forall_mem_cons

theorem digit_class : ∀ b : UInt8, is_digit b = true → is_exponent b = false ∧ b ≠ 0x2E ∧ b ≠ 0x2B ∧ b ≠ 0x2D :=
  forall_byte (by decide +kernel)

theorem exponent_class : ∀ b : UInt8, is_exponent b = true → is_digit b = false ∧ b ≠ 0x2E :=
  forall_byte (by decide +kernel)

section
variable {t t' : NumberType} {s : Str}

theorem completes_any2 : Completes .any2 t s t' ↔ AllDigits s ∧ t' = t := by
  induction s with
  | nil => simp [completes_nil, AllDigits, NumberState.done]
  | cons b s ih =>
    rw [completes_cons, allDigits_cons]
    simp only [NumberState.next]
    by_cases hb : is_digit b = true
    · simp [hb, NumberState.type, ih]
    · simp [hb]

theorem completes_sign : Completes .sign t s t' ↔ ∃ b r, s = b :: r ∧ is_digit b = true ∧ AllDigits r ∧ t' = t := by
  cases s with
  | nil => simp [completes_nil, NumberState.done]
  | cons b s =>
    rw [completes_cons]
    simp only [NumberState.next]
    by_cases hb : is_digit b = true
    · simp [hb, NumberState.type, completes_any2]
    · simp [hb]

theorem exponent_cons {e : UInt8} :
    Exponent (e :: s) ↔ is_exponent e = true ∧ ((∃ b r, s = b :: r ∧ is_digit b = true ∧ AllDigits r) ∨
    ∃ c b r, s = c :: b :: r ∧ (c = 0x2B ∨ c = 0x2D) ∧ is_digit b = true ∧ AllDigits r) := by
  constructor
  · intro h
    cases h with
    | unsigned he hb hs => exact ⟨he, Or.inl ⟨_, _, rfl, hb, hs⟩⟩
    | signed he hc hb hs => exact ⟨he, Or.inr ⟨_, _, _, rfl, hc, hb, hs⟩⟩
  · rintro ⟨he, ⟨b, r, rfl, hb, hr⟩ | ⟨c, b, r, rfl, hc, hb, hr⟩⟩
    · exact .unsigned he hb hr
    · exact .signed he hc hb hr

/-- Behind the letter of an exponent. -/
theorem completes_exponent {e : UInt8} (he : is_exponent e = true) :
    Completes .exponent t s t' ↔ Exponent (e :: s) ∧ t' = t := by
  rw [exponent_cons]
  simp only [he, true_and]
  cases s with
  | nil => simp [completes_nil, NumberState.done]
  | cons b s =>
    rw [completes_cons]
    simp only [NumberState.next]
    by_cases hsign : b = 0x2B ∨ b = 0x2D
    · have hb : is_digit b = false := by rcases hsign with rfl | rfl <;> rfl
      rw [if_pos hsign]
      constructor
      · rintro ⟨st', hst, hs⟩
        cases hst
        obtain ⟨c, r, rfl, hc, hr, rfl⟩ := completes_sign.mp hs
        exact ⟨Or.inr ⟨b, c, r, rfl, hsign, hc, hr⟩, rfl⟩
      · rintro ⟨⟨c, r, heq, hc, hr⟩ | ⟨c, d, r, heq, hc, hd, hr⟩, rfl⟩
        · cases heq
          rw [hb] at hc
          cases hc
        · cases heq
          exact ⟨_, rfl, completes_sign.mpr ⟨d, r, rfl, hd, hr, rfl⟩⟩
    · rw [if_neg hsign]
      by_cases hb : is_digit b = true
      · rw [if_pos hb]
        constructor
        · rintro ⟨st', hst, hs⟩
          cases hst
          obtain ⟨hr, rfl⟩ := completes_any2.mp hs
          exact ⟨Or.inl ⟨b, s, rfl, hb, hr⟩, rfl⟩
        · rintro ⟨⟨c, r, heq, hc, hr⟩ | ⟨c, d, r, heq, hc, hd, hr⟩, rfl⟩
          · cases heq
            exact ⟨_, rfl, completes_any2.mpr ⟨hr, rfl⟩⟩
          · cases heq
            exact absurd hc hsign
      · rw [if_neg hb]
        constructor
        · rintro ⟨st', hst, -⟩
          cases hst
        · rintro ⟨⟨c, r, heq, hc, hr⟩ | ⟨c, d, r, heq, hc, hd, hr⟩, rfl⟩
          · cases heq
            exact absurd hc hb
          · cases heq
            exact absurd hc hsign

theorem exponent_head {b : UInt8} (h : Exponent (b :: s)) : is_exponent b = true := (exponent_cons.mp h).1

/-- Behind a digit of a fraction. -/
theorem completes_decimal2 :
    Completes .decimal2 .float s t' ↔ (∃ d e, s = d ++ e ∧ AllDigits d ∧ Exponent e) ∧ t' = .float := by
  induction s with
  | nil =>
    rw [completes_nil]
    constructor
    · rintro ⟨-, rfl⟩
      exact ⟨⟨[], [], rfl, List.forall_mem_nil _, .none⟩, rfl⟩
    · rintro ⟨-, rfl⟩
      exact ⟨rfl, rfl⟩
  | cons b s ih =>
    rw [completes_cons]
    simp only [NumberState.next]
    by_cases hb : is_digit b = true
    · rw [if_pos hb]
      constructor
      · rintro ⟨st', hst, hs⟩
        cases hst
        obtain ⟨⟨d, e, rfl, hd, he⟩, rfl⟩ := ih.mp hs
        exact ⟨⟨b :: d, e, rfl, allDigits_cons.mpr ⟨hb, hd⟩, he⟩, rfl⟩
      · rintro ⟨⟨d, e, heq, hd, he⟩, rfl⟩
        refine ⟨_, rfl, ih.mpr ⟨?_, rfl⟩⟩
        cases d with
        | nil =>
          rw [List.nil_append] at heq
          subst heq
          have hexp := exponent_class b (exponent_head he)
          rw [hb] at hexp
          exact absurd hexp.1 (by simp)
        | cons c d =>
          cases heq
          exact ⟨d, e, rfl, (allDigits_cons.mp hd).2, he⟩
    · rw [if_neg hb]
      have hnot : ∀ {d e : Str}, b :: s = d ++ e → AllDigits d → e = b :: s := by
        intro d e heq hd
        cases d with
        | nil => exact heq.symm
        | cons c d =>
          cases heq
          exact absurd (allDigits_cons.mp hd).1 hb
      by_cases hexp : is_exponent b = true
      · rw [if_pos hexp]
        constructor
        · rintro ⟨st', hst, hs⟩
          cases hst
          obtain ⟨he, rfl⟩ := (completes_exponent hexp).mp hs
          exact ⟨⟨[], b :: s, rfl, List.forall_mem_nil _, he⟩, rfl⟩
        · rintro ⟨⟨d, e, heq, hd, he⟩, rfl⟩
          rw [hnot heq hd] at he
          exact ⟨_, rfl, (completes_exponent hexp).mpr ⟨he, rfl⟩⟩
      · rw [if_neg hexp]
        constructor
        · rintro ⟨st', hst, -⟩
          cases hst
        · rintro ⟨⟨d, e, heq, hd, he⟩, rfl⟩
          rw [hnot heq hd] at he
          exact absurd (exponent_head he) hexp

theorem fraction_cons {b : UInt8} : Fraction (b :: s) ↔ b = 0x2E ∧ ∃ c r, s = c :: r ∧ is_digit c = true ∧ AllDigits r := by
  constructor
  · intro h
    cases h with
    | some hb hs => exact ⟨rfl, _, _, rfl, hb, hs⟩
  · rintro ⟨rfl, c, r, rfl, hc, hr⟩
    exact .some hc hr

/-- Behind the point of a fraction. -/
theorem completes_decimal1 : Completes .decimal1 .float s t' ↔
    (∃ f e, s = f ++ e ∧ Fraction (0x2E :: f) ∧ Exponent e) ∧ t' = .float := by
  cases s with
  | nil =>
    rw [completes_nil]
    simp only [NumberState.done, Bool.false_eq_true, false_and, false_iff]
    rintro ⟨⟨f, e, heq, hf, -⟩, -⟩
    obtain ⟨rfl, -⟩ := List.append_eq_nil_iff.mp heq.symm
    obtain ⟨-, c, r, h, -⟩ := fraction_cons.mp hf
    cases h
  | cons b s =>
    rw [completes_cons]
    simp only [NumberState.next]
    have hdigit : ∀ {f e : Str}, b :: s = f ++ e → Fraction (0x2E :: f) → is_digit b = true ∧ ∃ d, AllDigits d ∧
        s = d ++ e := by
      intro f e heq hf
      obtain ⟨-, c, r, rfl, hc, hr⟩ := fraction_cons.mp hf
      cases heq
      exact ⟨hc, r, hr, rfl⟩
    by_cases hb : is_digit b = true
    · rw [if_pos hb]
      constructor
      · rintro ⟨st', hst, hs⟩
        cases hst
        obtain ⟨⟨d, e, rfl, hd, he⟩, rfl⟩ := completes_decimal2.mp hs
        exact ⟨⟨b :: d, e, rfl, .some hb hd, he⟩, rfl⟩
      · rintro ⟨⟨f, e, heq, hf, he⟩, rfl⟩
        obtain ⟨-, d, hd, rfl⟩ := hdigit heq hf
        exact ⟨_, rfl, completes_decimal2.mpr ⟨⟨d, e, rfl, hd, he⟩, rfl⟩⟩
    · rw [if_neg hb]
      constructor
      · rintro ⟨st', hst, -⟩
        cases hst
      · rintro ⟨⟨f, e, heq, hf, -⟩, -⟩
        exact absurd (hdigit heq hf).1 hb

/-- Behind the integer part of a numeral. -/
theorem completes_zero : Completes .zero t s t' ↔ (∃ f e, s = f ++ e ∧ Fraction f ∧ Exponent e) ∧ t' = float_type t s := by
  cases s with
  | nil =>
    rw [completes_nil]
    constructor
    · rintro ⟨-, rfl⟩
      exact ⟨⟨[], [], rfl, .none, .none⟩, rfl⟩
    · rintro ⟨-, rfl⟩
      exact ⟨rfl, rfl⟩
  | cons b s =>
    have hfloat : float_type t (b :: s) = .float := rfl
    have hsplit : ∀ {f e : Str}, b :: s = f ++ e → Fraction f → Exponent e →
        (∃ f', f = 0x2E :: f' ∧ b = 0x2E ∧ s = f' ++ e) ∨ f = [] ∧ e = b :: s := by
      intro f e heq hf he
      cases f with
      | nil => exact Or.inr ⟨rfl, heq.symm⟩
      | cons c f =>
        cases heq
        obtain ⟨rfl, -⟩ := fraction_cons.mp hf
        exact Or.inl ⟨f, rfl, rfl, rfl⟩
    rw [completes_cons, hfloat]
    simp only [NumberState.next]
    by_cases hpoint : b = 0x2E
    · subst hpoint
      rw [if_pos rfl]
      constructor
      · rintro ⟨st', hst, hs⟩
        cases hst
        obtain ⟨⟨f, e, rfl, hf, he⟩, rfl⟩ := completes_decimal1.mp hs
        exact ⟨⟨0x2E :: f, e, rfl, hf, he⟩, rfl⟩
      · rintro ⟨⟨f, e, heq, hf, he⟩, rfl⟩
        rcases hsplit heq hf he with ⟨f', rfl, -, rfl⟩ | ⟨-, rfl⟩
        · exact ⟨_, rfl, completes_decimal1.mpr ⟨⟨f', e, rfl, hf, he⟩, rfl⟩⟩
        · exact absurd (exponent_head he) (by decide)
    · rw [if_neg hpoint]
      have htail : ∀ {f e : Str}, b :: s = f ++ e → Fraction f → Exponent e → Exponent (b :: s) := by
        intro f e heq hf he
        rcases hsplit heq hf he with ⟨-, -, hb, -⟩ | ⟨-, rfl⟩
        · exact absurd hb hpoint
        · exact he
      by_cases hexp : is_exponent b = true
      · rw [if_pos hexp]
        constructor
        · rintro ⟨st', hst, hs⟩
          cases hst
          obtain ⟨he, rfl⟩ := (completes_exponent hexp).mp hs
          exact ⟨⟨[], b :: s, rfl, .none, he⟩, rfl⟩
        · rintro ⟨⟨f, e, heq, hf, he⟩, rfl⟩
          exact ⟨_, rfl, (completes_exponent hexp).mpr ⟨htail heq hf he, rfl⟩⟩
      · rw [if_neg hexp]
        constructor
        · rintro ⟨st', hst, -⟩
          cases hst
        · rintro ⟨⟨f, e, heq, hf, he⟩, -⟩
          exact absurd (exponent_head (htail heq hf he)) hexp

/-- Behind a digit of the integer part. -/
theorem completes_any1 : Completes .any1 t s t' ↔
    ∃ d f e, s = d ++ (f ++ e) ∧ AllDigits d ∧ Fraction f ∧ Exponent e ∧ t' = float_type t (f ++ e) := by
  induction s with
  | nil =>
    rw [completes_nil]
    constructor
    · rintro ⟨-, rfl⟩
      exact ⟨[], [], [], rfl, List.forall_mem_nil _, .none, .none, rfl⟩
    · rintro ⟨d, f, e, heq, -, -, -, rfl⟩
      obtain ⟨-, hfe⟩ := List.append_eq_nil_iff.mp heq.symm
      exact ⟨rfl, by rw [hfe]; rfl⟩
  | cons b s ih =>
    by_cases hb : is_digit b = true
    · rw [completes_cons]
      simp only [NumberState.next, if_pos hb]
      constructor
      · rintro ⟨st', hst, hs⟩
        cases hst
        obtain ⟨d, f, e, rfl, hd, hf, he, rfl⟩ := ih.mp hs
        exact ⟨b :: d, f, e, rfl, allDigits_cons.mpr ⟨hb, hd⟩, hf, he, rfl⟩
      · rintro ⟨d, f, e, heq, hd, hf, he, rfl⟩
        refine ⟨_, rfl, ih.mpr ?_⟩
        cases d with
        | nil =>
          rw [List.nil_append] at heq
          have hzero : Completes .zero t (b :: s) (float_type t (b :: s)) := completes_zero.mpr ⟨⟨f, e, heq, hf, he⟩, rfl⟩
          obtain ⟨st', hst, -⟩ := completes_cons.mp hzero
          obtain ⟨hexp, hpoint, -⟩ := digit_class b hb
          simp [NumberState.next, hpoint, hexp] at hst
        | cons c d =>
          cases heq
          exact ⟨d, f, e, rfl, (allDigits_cons.mp hd).2, hf, he, rfl⟩
    · -- no digit: the integer part has come to its end
      have hsame : Completes .any1 t (b :: s) t' ↔ Completes .zero t (b :: s) t' := by
        rw [completes_cons, completes_cons]
        simp only [NumberState.next, if_neg hb]
      rw [hsame, completes_zero]
      constructor
      · rintro ⟨⟨f, e, heq, hf, he⟩, rfl⟩
        exact ⟨[], f, e, heq, List.forall_mem_nil _, hf, he, by rw [heq]⟩
      · rintro ⟨d, f, e, heq, hd, hf, he, rfl⟩
        cases d with
        | nil =>
          rw [List.nil_append] at heq
          exact ⟨⟨f, e, heq, hf, he⟩, by rw [heq]⟩
        | cons c d =>
          cases heq
          exact absurd (allDigits_cons.mp hd).1 hb

theorem integerPart_cons {b : UInt8} :
    IntegerPart (b :: s) ↔ (b = 0x30 ∧ s = []) ∨ (is_digit b = true ∧ b ≠ 0x30 ∧ AllDigits s) := by
  constructor
  · intro h
    cases h with
    | zero => exact Or.inl ⟨rfl, rfl⟩
    | digits hb h0 hs => exact Or.inr ⟨hb, h0, hs⟩
  · rintro (⟨rfl, rfl⟩ | ⟨hb, h0, hs⟩)
    · exact .zero
    · exact .digits hb h0 hs

/-- From a first digit on. -/
theorem completes_first {b : UInt8} (hb : is_digit b = true) : Completes (if b = 0x30 then .zero else .any1) t s t' ↔
    ∃ i f e, b :: s = i ++ (f ++ e) ∧ IntegerPart i ∧ Fraction f ∧ Exponent e ∧ t' = float_type t (f ++ e) := by
  have hcons : ∀ {i f e : Str}, b :: s = i ++ (f ++ e) → IntegerPart i → ∃ d, i = b :: d ∧ s = d ++ (f ++ e) := by
    intro i f e heq hi
    cases i with
    | nil => cases hi
    | cons c d =>
      cases heq
      exact ⟨d, rfl, rfl⟩
  by_cases h0 : b = 0x30
  · rw [if_pos h0, completes_zero]
    constructor
    · rintro ⟨⟨f, e, rfl, hf, he⟩, rfl⟩
      exact ⟨[b], f, e, rfl, integerPart_cons.mpr (Or.inl ⟨h0, rfl⟩), hf, he, rfl⟩
    · rintro ⟨i, f, e, heq, hi, hf, he, rfl⟩
      obtain ⟨d, rfl, rfl⟩ := hcons heq hi
      rcases integerPart_cons.mp hi with ⟨-, rfl⟩ | ⟨-, hne, -⟩
      · exact ⟨⟨f, e, rfl, hf, he⟩, rfl⟩
      · exact absurd h0 hne
  · rw [if_neg h0, completes_any1]
    constructor
    · rintro ⟨d, f, e, rfl, hd, hf, he, rfl⟩
      exact ⟨b :: d, f, e, rfl, integerPart_cons.mpr (Or.inr ⟨hb, h0, hd⟩), hf, he, rfl⟩
    · rintro ⟨i, f, e, heq, hi, hf, he, rfl⟩
      obtain ⟨d, rfl, rfl⟩ := hcons heq hi
      rcases integerPart_cons.mp hi with ⟨hzero, -⟩ | ⟨-, -, hd⟩
      · exact absurd hzero h0
      · exact ⟨d, f, e, rfl, hd, hf, he, rfl⟩

end

/-! ## Numerals that are scanned -/

theorem completes_minus {t t' : NumberType} {s : Str} : Completes .minus t s t' ↔
    ∃ b r, s = b :: r ∧ is_digit b = true ∧ Completes (if b = 0x30 then .zero else .any1) t r t' := by
  cases s with
  | nil => simp [completes_nil, NumberState.done]
  | cons b s =>
    rw [completes_cons]
    simp only [NumberState.next]
    by_cases h0 : b = 0x30
    · subst h0
      simp [NumberState.type, is_digit]
    · by_cases hb : is_digit b = true
      · simp [h0, hb, NumberState.type]
      · simp [h0, hb]

def first_state (b : UInt8) : NumberState := if b = 0x2D then .minus else if b = 0x30 then .zero else .any1

theorem numeral_iff {b : UInt8} (hb : b = 0x2D ∨ is_digit b = true) {s : Str} {t : NumberType} :
    Completes (first_state b) ((first_state b).type .unsigned) s t ↔ Numeral t (b :: s) := by
  by_cases hminus : b = 0x2D
  · subst hminus
    show Completes .minus .integer s t ↔ _
    rw [completes_minus]
    constructor
    · rintro ⟨c, r, rfl, hc, hr⟩
      obtain ⟨i, f, e, heq, hi, hf, he, rfl⟩ := (completes_first hc).mp hr
      rw [heq]
      exact .negative hi hf he
    · intro h
      generalize hx : (0x2D : UInt8) :: s = x at h
      cases h with
      | positive hi hf he =>
        cases hi with
        | zero => cases hx
        | digits hb _ _ =>
          cases hx
          cases hb
      | @negative i f e hi hf he =>
        cases hx
        cases hi with
        | zero => exact ⟨_, _, rfl, rfl, (completes_first rfl).mpr ⟨[0x30], f, e, rfl, .zero, hf, he, rfl⟩⟩
        | @digits b d hb h0 hd =>
          exact ⟨b, _, rfl, hb, (completes_first hb).mpr ⟨b :: d, f, e, rfl, .digits hb h0 hd, hf, he, rfl⟩⟩
  · have hdigit : is_digit b = true := hb.resolve_left hminus
    have htype : (first_state b).type .unsigned = .unsigned := by
      rw [first_state, if_neg hminus]
      split <;> rfl
    rw [htype, first_state, if_neg hminus, completes_first hdigit]
    constructor
    · rintro ⟨i, f, e, heq, hi, hf, he, rfl⟩
      rw [heq]
      exact .positive hi hf he
    · intro h
      generalize hx : b :: s = x at h
      cases h with
      | @positive i f e hi hf he => exact ⟨i, f, e, rfl, hi, hf, he, rfl⟩
      | negative _ _ _ =>
        cases hx
        exact absurd rfl hminus

section
variable (strtod : Str → Option Rat)

theorem number_token_ok (t : NumberType) (s : Str) : number_token strtod t s ≠ .parse_error := by
  unfold number_token
  split
  · split <;> simp
  · split <;> simp
  · simp

theorem scan_number_first (b : UInt8) (s : Str) : scan_number strtod b s =
    match scan_digits (first_state b) ((first_state b).type .unsigned) s with
    | some (t, bytes, rest) => (number_token strtod t (b :: bytes), rest)
    | none => (.parse_error, s) := rfl

theorem numeral_of_scan {b : UInt8} (hb : b = 0x2D ∨ is_digit b = true) {s rest : Str} {tok : Token}
    (h : scan_number strtod b s = (tok, rest)) (htok : tok ≠ .parse_error) :
    ∃ t x, b :: s = x ++ rest ∧ Numeral t x ∧ tok = number_token strtod t x := by
  rw [scan_number_first] at h
  split at h
  · rename_i t bytes rest' hdigits
    cases h
    obtain ⟨rfl, hs⟩ := completes_of_scan hdigits
    exact ⟨t, b :: bytes, rfl, (numeral_iff hb).mp hs, rfl⟩
  · cases h
    exact absurd rfl htok

theorem numeral_first {t : NumberType} {x : Str} (h : Numeral t x) : ∃ b s, x = b :: s ∧ (b = 0x2D ∨ is_digit b = true) := by
  cases h with
  | positive hi _ _ =>
    cases hi with
    | zero => exact ⟨_, _, rfl, Or.inr rfl⟩
    | digits hb _ _ => exact ⟨_, _, rfl, Or.inr hb⟩
  | negative _ _ _ => exact ⟨_, _, rfl, Or.inl rfl⟩

/-- A numeral is a token of its own in front of what stops it. -/
theorem scan_numeral {t : NumberType} {b : UInt8} {s r : Str} (h : Numeral t (b :: s)) (hb : b = 0x2D ∨ is_digit b = true)
    (hr : Stops r) : scan_number strtod b (s ++ r) = (number_token strtod t (b :: s), r) := by
  apply scan_number_append strtod hr
  · rw [scan_number_first, scan_of_completes ((numeral_iff hb).mpr h)]
  · exact number_token_ok strtod t (b :: s)

end

end VrpcAgent.Json

import VrpcAgent.JsonStrings

/-!
# The characters of a string

What may stand between the quotes of a string, and which bytes it stands for: scalar values
of Unicode in UTF-8 and their escapes. The lexer reads exactly this, and the strings that can
be dumped are exactly the encodings of scalar values.
-/

namespace VrpcAgent.Json

open Loops

/-! ## The grammar -/

def ScalarValue (cp : Nat) : Prop := cp < 0x110000 ∧ (cp < 0xD800 ∨ 0xDFFF < cp)

inductive HexNumber : Str → Nat → Prop
  | mk {a b c d : UInt8} {w x y z : Nat} (ha : hex_value a = some w) (hb : hex_value b = some x) (hc : hex_value c = some y)
    (hd : hex_value d = some z) : HexNumber [a, b, c, d] (w * 0x1000 + x * 0x100 + y * 0x10 + z)

/-- The text of a character, and the bytes it stands for. -/
inductive Character : Str → Str → Prop
  | plain {cp : Nat} (h : ScalarValue cp) (hmin : 0x20 ≤ cp) (hquote : cp ≠ 0x22) (hbackslash : cp ≠ 0x5C) :
    Character (codepoint_bytes cp) (codepoint_bytes cp)
  | short {b c : UInt8} (h : short_escape b = some c) : Character [0x5C, b] [c]
  | unicode {s : Str} {cp : Nat} (h : HexNumber s cp) (hs : ScalarValue cp) :
    Character (0x5C :: 0x75 :: s) (codepoint_bytes cp)
  | surrogates {s s' : Str} {high low : Nat} (h : HexNumber s high) (h' : HexNumber s' low)
    (hhigh : 0xD800 ≤ high ∧ high ≤ 0xDBFF) (hlow : 0xDC00 ≤ low ∧ low ≤ 0xDFFF) :
    Character (0x5C :: 0x75 :: (s ++ 0x5C :: 0x75 :: s'))
      (codepoint_bytes (0x10000 + (high - 0xD800) * 0x400 + (low - 0xDC00)))

inductive Characters : Str → Str → Prop
  | nil : Characters [] []
  | cons {c x t s : Str} (h : Character c x) (hs : Characters t s) : Characters (c ++ t) (x ++ s)

/-! ## Encodings -/

theorem toUInt8_of_eq {n : Nat} {b : UInt8} (h : n = b.toNat) : n.toUInt8 = b := by
  rw [h, Nat.toUInt8_eq, UInt8.ofNat_toNat]

section
variable {b c d e : UInt8}

theorem codepoint_two (hb : 0xC2 ≤ b.toNat ∧ b.toNat ≤ 0xDF) (hc : 0x80 ≤ c.toNat ∧ c.toNat ≤ 0xBF) :
    codepoint_bytes ((b.toNat - 0xC0) * 0x40 + (c.toNat - 0x80)) = [b, c] := by
  have hmin : ¬ (b.toNat - 0xC0) * 0x40 + (c.toNat - 0x80) < 0x80 := by omega
  have hmax : (b.toNat - 0xC0) * 0x40 + (c.toNat - 0x80) ≤ 0x7FF := by omega
  rw [codepoint_bytes, if_neg hmin, if_pos hmax, toUInt8_of_eq (b := b) (by omega), toUInt8_of_eq (b := c) (by omega)]

theorem codepoint_three (hb : 0xE0 ≤ b.toNat ∧ b.toNat ≤ 0xEF) (hc : 0x80 ≤ c.toNat ∧ c.toNat ≤ 0xBF)
    (hd : 0x80 ≤ d.toNat ∧ d.toNat ≤ 0xBF) (hmin : b.toNat = 0xE0 → 0xA0 ≤ c.toNat) :
    codepoint_bytes ((b.toNat - 0xE0) * 0x1000 + (c.toNat - 0x80) * 0x40 + (d.toNat - 0x80)) = [b, c, d] := by
  generalize hcp : (b.toNat - 0xE0) * 0x1000 + (c.toNat - 0x80) * 0x40 + (d.toNat - 0x80) = cp
  have hone : ¬ cp < 0x80 := by omega
  have htwo : ¬ cp ≤ 0x7FF := by omega
  have hthree : cp ≤ 0xFFFF := by omega
  rw [codepoint_bytes, if_neg hone, if_neg htwo, if_pos hthree, toUInt8_of_eq (b := b) (by omega),
    toUInt8_of_eq (b := c) (by omega), toUInt8_of_eq (b := d) (by omega)]

theorem codepoint_four (hb : 0xF0 ≤ b.toNat ∧ b.toNat ≤ 0xF4) (hc : 0x80 ≤ c.toNat ∧ c.toNat ≤ 0xBF)
    (hd : 0x80 ≤ d.toNat ∧ d.toNat ≤ 0xBF) (he : 0x80 ≤ e.toNat ∧ e.toNat ≤ 0xBF) (hmin : b.toNat = 0xF0 → 0x90 ≤ c.toNat) :
    codepoint_bytes ((b.toNat - 0xF0) * 0x40000 + (c.toNat - 0x80) * 0x1000 + (d.toNat - 0x80) * 0x40 + (e.toNat - 0x80)) =
      [b, c, d, e] := by
  generalize hcp : (b.toNat - 0xF0) * 0x40000 + (c.toNat - 0x80) * 0x1000 + (d.toNat - 0x80) * 0x40 + (e.toNat - 0x80) = cp
  have hone : ¬ cp < 0x80 := by omega
  have htwo : ¬ cp ≤ 0x7FF := by omega
  have hthree : ¬ cp ≤ 0xFFFF := by omega
  rw [codepoint_bytes, if_neg hone, if_neg htwo, if_neg hthree, toUInt8_of_eq (b := b) (by omega),
    toUInt8_of_eq (b := c) (by omega), toUInt8_of_eq (b := d) (by omega), toUInt8_of_eq (b := e) (by omega)]

end

theorem next_byte_nil {s bs rest : Str} (h : next_byte_in_range [] s = some (bs, rest)) : bs = [] := by
  cases h
  rfl

theorem next_byte_cons {r : UInt8 × UInt8} {rs : List (UInt8 × UInt8)} {s bs rest : Str}
    (h : next_byte_in_range (r :: rs) s = some (bs, rest)) : ∃ c cs t, bs = c :: cs ∧
      (r.1.toNat ≤ c.toNat ∧ c.toNat ≤ r.2.toNat) ∧ next_byte_in_range rs t = some (cs, rest) := by
  cases s with
  | nil => cases h
  | cons c s =>
    rw [next_byte_in_range] at h
    split at h
    · rename_i hc
      obtain ⟨x, hx, heq⟩ := Option.map_eq_some_iff.mp h
      cases heq
      rw [UInt8.le_iff_toNat_le, UInt8.le_iff_toNat_le] at hc
      exact ⟨c, x.1, s, rfl, hc, hx⟩
    · cases h

section
variable {b : UInt8} {r : UInt8 × UInt8} {s bs rest : Str}

theorem scalar_two (hb : 0xC2 ≤ b.toNat ∧ b.toNat ≤ 0xDF) (h : next_byte_in_range [(0x80, 0xBF)] s = some (bs, rest)) :
    ∃ cp, ScalarValue cp ∧ 0x80 ≤ cp ∧ codepoint_bytes cp = b :: bs := by
  obtain ⟨c, cs, t, rfl, hc, h⟩ := next_byte_cons h
  obtain rfl := next_byte_nil h
  simp only [UInt8.reduceToNat] at hc
  exact ⟨_, ⟨by omega, by omega⟩, by omega, codepoint_two hb hc⟩

theorem scalar_three (hb : 0xE0 ≤ b.toNat ∧ b.toNat ≤ 0xEF) (hr : 0x80 ≤ r.1.toNat ∧ r.2.toNat ≤ 0xBF)
    (hmin : b.toNat = 0xE0 → 0xA0 ≤ r.1.toNat) (hs : b.toNat = 0xED → r.2.toNat ≤ 0x9F)
    (h : next_byte_in_range [r, (0x80, 0xBF)] s = some (bs, rest)) :
    ∃ cp, ScalarValue cp ∧ 0x80 ≤ cp ∧ codepoint_bytes cp = b :: bs := by
  obtain ⟨c, cs, t, rfl, hc, h⟩ := next_byte_cons h
  obtain ⟨d, ds, t, rfl, hd, h⟩ := next_byte_cons h
  obtain rfl := next_byte_nil h
  simp only [UInt8.reduceToNat] at hd
  exact ⟨_, ⟨by omega, by omega⟩, by omega, codepoint_three hb (by omega) hd (by omega)⟩

theorem scalar_four (hb : 0xF0 ≤ b.toNat ∧ b.toNat ≤ 0xF4) (hr : 0x80 ≤ r.1.toNat ∧ r.2.toNat ≤ 0xBF)
    (hmin : b.toNat = 0xF0 → 0x90 ≤ r.1.toNat) (hmax : b.toNat = 0xF4 → r.2.toNat ≤ 0x8F)
    (h : next_byte_in_range [r, (0x80, 0xBF), (0x80, 0xBF)] s = some (bs, rest)) :
    ∃ cp, ScalarValue cp ∧ 0x80 ≤ cp ∧ codepoint_bytes cp = b :: bs := by
  obtain ⟨c, cs, t, rfl, hc, h⟩ := next_byte_cons h
  obtain ⟨d, ds, t, rfl, hd, h⟩ := next_byte_cons h
  obtain ⟨e, es, t, rfl, he, h⟩ := next_byte_cons h
  obtain rfl := next_byte_nil h
  simp only [UInt8.reduceToNat] at hd he
  exact ⟨_, ⟨by omega, by omega⟩, by omega, codepoint_four hb (by omega) hd he (by omega)⟩

/-- Bytes in the ranges of a first byte encode a scalar value. -/
theorem scalar_of_ranges {rs : List (UInt8 × UInt8)} (hrs : byte_ranges b = some rs)
    (h : next_byte_in_range rs s = some (bs, rest)) :
    ∃ cp, ScalarValue cp ∧ 0x80 ≤ cp ∧ codepoint_bytes cp = b :: bs := by
  simp only [byte_ranges, UInt8.le_iff_toNat_le, ← UInt8.toNat_inj, UInt8.reduceToNat] at hrs
  split at hrs
  · rename_i hb
    cases hrs
    exact scalar_two hb h
  split at hrs
  · rename_i hb
    cases hrs
    exact scalar_three (by omega) (by decide) (fun _ => by decide) (by omega) h
  split at hrs
  · rename_i hb
    cases hrs
    exact scalar_three (by omega) (by decide) (by omega) (by omega) h
  split at hrs
  · rename_i hb
    cases hrs
    exact scalar_three (by omega) (by decide) (by omega) (fun _ => by decide) h
  split at hrs
  · rename_i hb
    cases hrs
    exact scalar_four (by omega) (by decide) (fun _ => by decide) (by omega) h
  split at hrs
  · rename_i hb
    cases hrs
    exact scalar_four (by omega) (by decide) (by omega) (by omega) h
  split at hrs
  · rename_i hb
    cases hrs
    exact scalar_four (by omega) (by decide) (by omega) (fun _ => by decide) h
  · cases hrs

end

/-! ## Characters that are scanned -/

theorem get_codepoint_iff {s rest : Str} {cp : Nat} :
    get_codepoint s = some (cp, rest) ↔ ∃ ds, s = ds ++ rest ∧ HexNumber ds cp := by
  constructor
  · intro h
    unfold get_codepoint at h
    split at h
    · rename_i a b c d s
      simp only [Option.bind_eq_bind, Option.bind_eq_some_iff] at h
      obtain ⟨w, ha, x, hb, y, hc, z, hd, h⟩ := h
      cases h
      exact ⟨[a, b, c, d], rfl, .mk ha hb hc hd⟩
    · cases h
  · rintro ⟨ds, rfl, ha, hb, hc, hd⟩
    simp [get_codepoint, ha, hb, hc, hd]

theorem hex_lt {s : Str} {cp : Nat} (h : HexNumber s cp) :
    cp < 0x10000 := get_codepoint_lt (get_codepoint_iff.mpr ⟨s, (List.append_nil s).symm, h⟩)

theorem surrogate_sum {high low : Nat} (hhigh : 0xD800 ≤ high ∧ high ≤ 0xDBFF) (hlow : 0xDC00 ≤ low ∧ low ≤ 0xDFFF) :
    high * 0x400 + low - 0x35FDC00 = 0x10000 + (high - 0xD800) * 0x400 + (low - 0xDC00) := by omega

theorem character_of_unicode {s x rest : Str} (h : scan_unicode s = some (x, rest)) :
    ∃ c, s = c ++ rest ∧ Character (0x5C :: 0x75 :: c) x := by
  simp only [scan_unicode, Option.bind_eq_bind, Option.bind_eq_some_iff] at h
  obtain ⟨⟨high, s'⟩, hhex, h⟩ := h
  obtain ⟨ds, rfl, hds⟩ := get_codepoint_iff.mp hhex
  have hlt := hex_lt hds
  split at h
  · rename_i hhigh
    unfold scan_surrogate at h
    split at h
    · rename_i hs'
      simp only at hs'
      subst hs'
      simp only [Option.bind_eq_bind, Option.bind_eq_some_iff] at h
      obtain ⟨⟨low, s'⟩, hhex', h⟩ := h
      obtain ⟨ds', rfl, hds'⟩ := get_codepoint_iff.mp hhex'
      split at h
      · rename_i hlow
        rw [surrogate_sum hhigh hlow] at h
        simp only [Option.some.injEq, Prod.mk.injEq] at h
        obtain ⟨rfl, rfl⟩ := h
        exact ⟨ds ++ 0x5C :: 0x75 :: ds', by simp, .surrogates hds hds' hhigh hlow⟩
      · cases h
    · cases h
  · split at h
    · cases h
    · cases h
      exact ⟨ds, rfl, .unicode hds ⟨by omega, by omega⟩⟩

theorem character_of_escape {s x rest : Str} (h : scan_escape s = some (x, rest)) :
    ∃ c, s = c ++ rest ∧ Character (0x5C :: c) x := by
  cases s with
  | nil => cases h
  | cons b s =>
    simp only [scan_escape] at h
    split at h
    · rename_i d hd
      cases h
      exact ⟨[b], rfl, .short hd⟩
    · split at h
      · rename_i hb
        subst hb
        obtain ⟨c, rfl, hc⟩ := character_of_unicode h
        exact ⟨0x75 :: c, rfl, hc⟩
      · cases h

theorem character_of_scan {b : UInt8} (hquote : b ≠ 0x22) {s x rest : Str} (h : scan_char b s = some (x, rest)) :
    ∃ c, b :: s = c ++ rest ∧ Character c x := by
  unfold scan_char at h
  split at h
  · rename_i hb
    subst hb
    obtain ⟨c, rfl, hc⟩ := character_of_escape h
    exact ⟨0x5C :: c, rfl, hc⟩
  rename_i hbackslash
  split at h
  · cases h
  rename_i hmin
  split at h
  · rename_i hb
    cases h
    have hcp := codepoint_bytes_ascii hb
    rw [UInt8.le_iff_toNat_le] at hmin hb
    rw [ne_eq, ← UInt8.toNat_inj] at hquote
    rw [← UInt8.toNat_inj] at hbackslash
    simp only [UInt8.reduceToNat] at hmin hb hquote hbackslash
    have hscalar : ScalarValue b.toNat := ⟨by omega, by omega⟩
    have hplain := Character.plain hscalar (by omega) hquote hbackslash
    rw [hcp] at hplain
    exact ⟨[b], rfl, hplain⟩
  split at h
  · cases h
  · rename_i rs hrs
    obtain ⟨⟨bs, rest'⟩, hbs, heq⟩ := Option.map_eq_some_iff.mp h
    cases heq
    obtain ⟨cp, hs, hmin, hcp⟩ := scalar_of_ranges hrs hbs
    rw [next_byte_in_range_append hbs, ← hcp]
    refine ⟨b :: bs, rfl, ?_⟩
    have hplain := Character.plain hs (by omega) (by omega) (by omega)
    rw [hcp] at hplain ⊢
    exact hplain

theorem next_byte_more : ∀ {rs : List (UInt8 × UInt8)} {s bs rest : Str}, next_byte_in_range rs s = some (bs, rest) →
    ∀ t, next_byte_in_range rs (s ++ t) = some (bs, rest ++ t)
  | [], s, bs, rest, h, t => by
    cases h
    rfl
  | _ :: _, [], bs, rest, h, t => by cases h
  | r :: rs, b :: s, bs, rest, h, t => by
    rw [next_byte_in_range] at h
    rw [List.cons_append, next_byte_in_range]
    split at h
    · rename_i hb
      obtain ⟨⟨bs', rest'⟩, hx, heq⟩ := Option.map_eq_some_iff.mp h
      cases heq
      rw [if_pos hb, next_byte_more hx]
      rfl
    · cases h

theorem scan_plain {cp : Nat} (h : ScalarValue cp) (hmin : 0x20 ≤ cp) (hquote : cp ≠ 0x22) (hbackslash : cp ≠ 0x5C) :
    ∃ b bs, codepoint_bytes cp = b :: bs ∧ b ≠ 0x22 ∧ ∀ t, scan_char b (bs ++ t) = some (codepoint_bytes cp, t) := by
  by_cases hcp : cp < 0x80
  · have hb : cp.toUInt8.toNat = cp := by
      rw [Nat.toUInt8_eq, UInt8.toNat_ofNat']
      omega
    have hne : cp.toUInt8 ≠ 0x22 ∧ cp.toUInt8 ≠ 0x5C ∧ ¬ cp.toUInt8 ≤ 0x1F ∧ cp.toUInt8 ≤ 0x7F := by
      simp only [UInt8.le_iff_toNat_le, ← UInt8.toNat_inj, UInt8.reduceToNat, ne_eq, hb]
      omega
    refine ⟨cp.toUInt8, [], codepoint_one hcp, hne.1, fun t => ?_⟩
    rw [codepoint_one hcp, scan_char, if_neg hne.2.1, if_neg hne.2.2.1, if_pos hne.2.2.2]
    rfl
  · obtain ⟨b, bs, rs, hbytes, hrs, hbs⟩ := codepoint_ranges (Nat.le_of_not_lt hcp) h.1 h.2
    have hhigh : ¬ b ≤ 0x7F := by
      intro hle
      rw [byte_ranges_high b hle] at hrs
      cases hrs
    refine ⟨b, bs, hbytes, fun hb => hhigh (by rw [hb]; decide), fun t => ?_⟩
    have hbackslash : ¬ b = 0x5C := fun hb => hhigh (by rw [hb]; decide)
    have hcontrol : ¬ b ≤ 0x1F := fun hb => hhigh (UInt8.le_trans hb (by decide))
    rw [scan_char, if_neg hbackslash, if_neg hcontrol, if_neg hhigh, hbytes]
    simp only [hrs, next_byte_more hbs t, List.nil_append, Option.map_some]

/-- A character is scanned, whatever follows it. -/
theorem scan_character {c x : Str} (h : Character c x) :
    ∃ b bs, c = b :: bs ∧ b ≠ 0x22 ∧ ∀ t, scan_char b (bs ++ t) = some (x, t) := by
  cases h with
  | plain h hmin hquote hbackslash => exact scan_plain h hmin hquote hbackslash
  | @short b c h =>
    refine ⟨0x5C, [b], rfl, by decide, fun t => ?_⟩
    show scan_escape (b :: t) = _
    simp only [scan_escape, h]
  | @unicode s cp h hs =>
    refine ⟨0x5C, 0x75 :: s, rfl, by decide, fun t => ?_⟩
    have hhex : get_codepoint (s ++ t) = some (cp, t) := get_codepoint_iff.mpr ⟨s, rfl, h⟩
    have hhigh : ¬ (0xD800 ≤ cp ∧ cp ≤ 0xDBFF) := by have := hs.2; omega
    have hlow : ¬ (0xDC00 ≤ cp ∧ cp ≤ 0xDFFF) := by have := hs.2; omega
    show scan_unicode (s ++ t) = _
    simp only [scan_unicode, hhex, Option.bind_eq_bind, Option.bind_some, if_neg hhigh, if_neg hlow]
  | @surrogates s s' high low h h' hhigh hlow =>
    refine ⟨0x5C, 0x75 :: (s ++ 0x5C :: 0x75 :: s'), rfl, by decide, fun t => ?_⟩
    have hhex : get_codepoint (s ++ (0x5C :: 0x75 :: (s' ++ t))) = some (high, 0x5C :: 0x75 :: (s' ++ t)) :=
      get_codepoint_iff.mpr ⟨s, rfl, h⟩
    have hhex' : get_codepoint (s' ++ t) = some (low, t) := get_codepoint_iff.mpr ⟨s', rfl, h'⟩
    show scan_unicode ((s ++ 0x5C :: 0x75 :: s') ++ t) = _
    rw [List.append_assoc, List.cons_append, List.cons_append]
    simp only [scan_unicode, hhex, Option.bind_eq_bind, Option.bind_some, if_pos hhigh, scan_surrogate, hhex', if_pos hlow,
      surrogate_sum hhigh hlow]

/-! ## Strings that are scanned -/

theorem characters_append {t s t' s' : Str} (h : Characters t s) (h' : Characters t' s') :
    Characters (t ++ t') (s ++ s') := by
  induction h with
  | nil => exact h'
  | cons hc _ ih =>
    rw [List.append_assoc, List.append_assoc]
    exact .cons hc ih

theorem characters_one {c x : Str} (h : Character c x) : Characters c x := by
  have hone := Characters.cons h .nil
  rwa [List.append_nil, List.append_nil] at hone

theorem run_characters {t s : Str} (h : Characters t s) (rest : Str) : ∀ token_buffer,
    run string_step (fun x => x.2.length) (token_buffer, t ++ 0x22 :: rest) = some (some (token_buffer ++ s, rest)) := by
  induction h with
  | nil =>
    intro token_buffer
    rw [List.append_nil]
    exact run_halt rfl
  | @cons c x t s hc _ ih =>
    intro token_buffer
    obtain ⟨b, bs, rfl, hquote, hscan⟩ := scan_character hc
    have hstep : string_step (token_buffer, b :: (bs ++ (t ++ 0x22 :: rest))) = .go (token_buffer ++ x, t ++ 0x22 :: rest) :=
      string_step_char hquote (hscan _) token_buffer
    rw [List.append_assoc, List.cons_append, run_go string_step_descends hstep, ih, List.append_assoc]

/-- The lexer reads the characters up to the closing quote. -/
theorem scan_string_iff {u s rest : Str} :
    scan_string u = (.value_string s, rest) ↔ ∃ t, u = t ++ 0x22 :: rest ∧ Characters t s := by
  constructor
  · intro h
    have hrun := scan_string_value h
    refine run_spec (P := fun x => ∃ t, u = t ++ x.2 ∧ Characters t x.1)
      (Q := fun r => ∀ y, r = some y → ∃ t, u = t ++ 0x22 :: y.2 ∧ Characters t y.1) ?_ ?_ ⟨[], rfl, .nil⟩ hrun _ rfl
    · rintro x y ⟨t, hu, ht⟩ hgo
      obtain ⟨b, s', c, hx, hquote, hc, rfl⟩ := string_step_go hgo
      obtain ⟨d, hd, hchar⟩ := character_of_scan hquote hc
      exact ⟨t ++ d, by rw [hu, hx, hd, List.append_assoc], characters_append ht (characters_one hchar)⟩
    · rintro x r ⟨t, hu, ht⟩ hhalt y rfl
      obtain ⟨hx, hy⟩ := string_step_halt hhalt
      exact ⟨t, by rw [hu, hx], hy ▸ ht⟩
  · rintro ⟨t, rfl, h⟩
    rw [scan_string, run_characters h]
    rfl

/-! ## Strings that can be dumped -/

/-- **The check of `dump` is UTF-8**: it lets exactly the encodings of scalar values through. -/
theorem wellformed_iff_scalars (s : Str) :
    dump_escaped 0 0 0 s = none ↔ ∃ cps : List Nat, (∀ cp ∈ cps, ScalarValue cp) ∧ s = cps.flatMap codepoint_bytes := by
  show Wellformed 0 s ↔ _
  constructor
  · intro h
    induction hn : s.length using Nat.strongRecOn generalizing s with
    | _ n ih =>
      cases s with
      | nil => exact ⟨[], List.forall_mem_nil _, rfl⟩
      | cons b s =>
        obtain ⟨hne, hs⟩ := wellformed_cons.mp h
        by_cases hb : b ≤ 0x7F
        · rw [decode_ascii b hb] at hs
          obtain ⟨cps, hcps, rfl⟩ := ih s.length (by rw [← hn]; exact Nat.lt_succ_self _) s hs rfl
          have hlt := UInt8.le_iff_toNat_le.mp hb
          simp only [UInt8.reduceToNat] at hlt
          refine ⟨b.toNat :: cps, List.forall_mem_cons.mpr ⟨⟨by omega, by omega⟩, hcps⟩, ?_⟩
          rw [List.flatMap_cons, codepoint_bytes_ascii hb]
          rfl
        · have hfirst := expected_first b hb
          cases hrs : byte_ranges b with
          | none =>
            rw [hrs] at hfirst
            exact absurd hfirst hne
          | some rs =>
            rw [hrs] at hfirst
            obtain ⟨bs, s', rfl, hrange, -, hs'⟩ := wellformed_split hfirst hs
            obtain ⟨cp, hcp, -, hbytes⟩ := scalar_of_ranges hrs (hrange [])
            obtain ⟨cps, hcps, rfl⟩ := ih s'.length (by rw [← hn, List.length_cons, List.length_append]; omega) s' hs' rfl
            refine ⟨cp :: cps, List.forall_mem_cons.mpr ⟨hcp, hcps⟩, ?_⟩
            rw [List.flatMap_cons, hbytes]
            rfl
  · rintro ⟨cps, hcps, rfl⟩
    apply whole_wellformed
    induction cps with
    | nil => exact whole_nil
    | cons cp cps ih =>
      obtain ⟨hcp, hcps⟩ := List.forall_mem_cons.mp hcps
      rw [List.flatMap_cons]
      exact whole_append (whole_codepoint hcp.1 hcp.2) (ih hcps)

end VrpcAgent.Json

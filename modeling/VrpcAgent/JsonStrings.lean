import VrpcAgent.JsonLexer
import VrpcAgent.Wire

/-!
# Strings in both directions

The lexer checks a string with ranges of bytes, `dump` with a state machine. They agree:
every string that is scanned can be dumped, and every string that can be dumped is scanned
back from its text.
-/

namespace VrpcAgent.Json

open Loops

/-! ## The state machine -/

def Wellformed (state : Nat) (s : Str) : Prop := dump_escaped state 0 0 s = none

theorem dump_escaped_cons (state i : Nat) (last b : UInt8) (s : Str) :
    dump_escaped state i last (b :: s) = none ↔ decode state b ≠ 1 ∧ dump_escaped (decode state b) (i + 1) b s = none := by
  rw [dump_escaped]
  split
  · rename_i h
    simp [h]
  · rename_i h
    simp [h]

theorem wellformed_iff : ∀ {s : Str} {state i : Nat} {last : UInt8}, dump_escaped state i last s = none ↔ Wellformed state s
  | [], state, i, last => by
    unfold Wellformed dump_escaped
    split <;> simp
  | b :: s, state, i, last => by
    rw [Wellformed, dump_escaped_cons, dump_escaped_cons, wellformed_iff (s := s), wellformed_iff (s := s)]

theorem wellformed_nil {state : Nat} : Wellformed state [] ↔ state = 0 := by
  unfold Wellformed dump_escaped
  split <;> simp_all

theorem wellformed_cons {state : Nat} {b : UInt8} {s : Str} :
    Wellformed state (b :: s) ↔ decode state b ≠ 1 ∧ Wellformed (decode state b) s := by
  rw [Wellformed, dump_escaped_cons, wellformed_iff]

/-! ## Ranges and states -/

/-- The ranges that a state of the check of `dump` stands for. -/
def expected : Nat → Option (List (UInt8 × UInt8))
  | 0 => some []
  | 2 => some [(0x80, 0xBF)]
  | 3 => some [(0x80, 0xBF), (0x80, 0xBF)]
  | 4 => some [(0xA0, 0xBF), (0x80, 0xBF)]
  | 5 => some [(0x80, 0x9F), (0x80, 0xBF)]
  | 6 => some [(0x90, 0xBF), (0x80, 0xBF), (0x80, 0xBF)]
  | 7 => some [(0x80, 0xBF), (0x80, 0xBF), (0x80, 0xBF)]
  | 8 => some [(0x80, 0x8F), (0x80, 0xBF), (0x80, 0xBF)]
  | _ => none

theorem expected_nil {state : Nat} (h : expected state = some []) : state = 0 := by
  unfold expected at h
  split at h <;> simp_all

/-- The check follows the ranges. -/
theorem expected_cons {state : Nat} {r : UInt8 × UInt8} {rs : List (UInt8 × UInt8)} (h : expected state = some (r :: rs)) :
    ∀ b, if r.1 ≤ b ∧ b ≤ r.2 then expected (decode state b) = some rs else decode state b = 1 := by
  unfold expected at h
  split at h
  all_goals
    cases h
    try exact forall_byte (by decide +kernel)

theorem expected_first :
    ∀ b : UInt8, ¬ b ≤ 0x7F → if (byte_ranges b).isSome then expected (decode 0 b) = byte_ranges b else decode 0 b = 1 :=
  forall_byte (by decide +kernel)

theorem decode_ascii : ∀ b : UInt8, b ≤ 0x7F → decode 0 b = 0 := forall_byte (by decide +kernel)

theorem byte_ranges_high : ∀ b : UInt8, b ≤ 0x7F → byte_ranges b = none := forall_byte (by decide +kernel)

/-! ## Strings that are scanned can be dumped -/

def Whole (c : Str) : Prop := ∀ s, Wellformed 0 (c ++ s) ↔ Wellformed 0 s

theorem whole_nil : Whole [] := fun _ => Iff.rfl

theorem whole_append {c d : Str} (hc : Whole c) (hd : Whole d) : Whole (c ++ d) := by
  intro s
  rw [List.append_assoc, hc, hd]

theorem whole_wellformed {c : Str} (h : Whole c) : Wellformed 0 c := by
  have hc := (h []).mpr (wellformed_nil.mpr rfl)
  rwa [List.append_nil] at hc

theorem whole_ascii {b : UInt8} (h : b ≤ 0x7F) : Whole [b] := by
  intro s
  rw [List.singleton_append, wellformed_cons, decode_ascii b h]
  simp

theorem next_byte_wellformed :
    ∀ {rs : List (UInt8 × UInt8)} {state : Nat} {s : Str} {x : Str × Str}, expected state = some rs →
    next_byte_in_range rs s = some x → ∀ t, Wellformed state (x.1 ++ t) ↔ Wellformed 0 t
  | [], state, s, x, hstate, h, t => by
    cases h
    rw [expected_nil hstate]
    rfl
  | _ :: _, state, [], x, _, h, t => nomatch h
  | r :: rs, state, b :: s, x, hstate, h, t => by
    unfold next_byte_in_range at h
    split at h
    · rename_i hb
      obtain ⟨y, hy, rfl⟩ := Option.map_eq_some_iff.mp h
      have hnext := expected_cons hstate b
      rw [if_pos hb] at hnext
      have hne : decode state b ≠ 1 := by
        intro h1
        rw [h1] at hnext
        cases hnext
      rw [List.cons_append, wellformed_cons, next_byte_wellformed hnext hy]
      simp [hne]
    · cases h

theorem whole_ranges {b : UInt8} {rs : List (UInt8 × UInt8)} (hb : byte_ranges b = some rs) {s : Str} {x : Str × Str}
    (h : next_byte_in_range rs s = some x) : Whole (b :: x.1) := by
  have hhigh : ¬ b ≤ 0x7F := by
    intro hle
    rw [byte_ranges_high b hle] at hb
    cases hb
  have hfirst := expected_first b hhigh
  rw [hb, Option.isSome_some, if_pos rfl] at hfirst
  have hne : decode 0 b ≠ 1 := by
    intro h1
    rw [h1] at hfirst
    cases hfirst
  intro t
  rw [List.cons_append, wellformed_cons, next_byte_wellformed hfirst h]
  simp [hne]

theorem next_byte_of_nat {r : UInt8 × UInt8} {rs : List (UInt8 × UInt8)} {n : Nat} {bs : Str} (hlo : r.1.toNat ≤ n)
    (hhi : n ≤ r.2.toNat)
    (h : next_byte_in_range rs bs = some (bs, [])) :
    next_byte_in_range (r :: rs) (n.toUInt8 :: bs) = some (n.toUInt8 :: bs, []) := by
  have hn : n.toUInt8.toNat = n := by
    have hlt := r.2.toNat_lt
    rw [Nat.toUInt8_eq, UInt8.toNat_ofNat']
    omega
  have hrange : r.1 ≤ n.toUInt8 ∧ n.toUInt8 ≤ r.2 := by
    rw [UInt8.le_iff_toNat_le, UInt8.le_iff_toNat_le, hn]
    exact ⟨hlo, hhi⟩
  rw [next_byte_in_range, if_pos hrange, h]
  rfl

/-- The first bytes of the characters of more than one byte. -/
theorem byte_ranges_of_nat : (∀ n < 256, 0xC2 ≤ n ∧ n ≤ 0xDF → byte_ranges n.toUInt8 = expected 2) ∧
    byte_ranges (Nat.toUInt8 0xE0) = expected 4 ∧
    (∀ n < 256, 0xE1 ≤ n ∧ n ≤ 0xEF ∧ n ≠ 0xED → byte_ranges n.toUInt8 = expected 3) ∧
    byte_ranges (Nat.toUInt8 0xED) = expected 5 ∧ byte_ranges (Nat.toUInt8 0xF0) = expected 6 ∧
    (∀ n < 256, 0xF1 ≤ n ∧ n ≤ 0xF3 → byte_ranges n.toUInt8 = expected 7) ∧ byte_ranges (Nat.toUInt8 0xF4) = expected 8 := by
  refine ⟨?_, rfl, ?_, rfl, rfl, ?_, rfl⟩
  all_goals decide +kernel

/-- A character of more than one byte: the first byte says which bytes follow. -/
theorem codepoint_ranges {cp : Nat} (hmin : 0x80 ≤ cp) (hmax : cp < 0x110000) (hs : cp < 0xD800 ∨ 0xDFFF < cp) :
    ∃ b bs rs, codepoint_bytes cp = b :: bs ∧ byte_ranges b = some rs ∧ next_byte_in_range rs bs = some (bs, []) := by
  obtain ⟨htwo, hE0, hthree, hED, hF0, hfour, hF4⟩ := byte_ranges_of_nat
  unfold codepoint_bytes
  rw [if_neg (Nat.not_lt.mpr hmin)]
  split
  · exact ⟨_, _, _, rfl, htwo _ (by omega) (by omega), next_byte_of_nat (show 128 ≤ _ by omega) (show _ ≤ 191 by omega) rfl⟩
  split
  · have hlast : next_byte_in_range [(0x80, 0xBF)] [(0x80 + cp % 0x40).toUInt8] = some ([(0x80 + cp % 0x40).toUInt8], []) :=
      next_byte_of_nat (show 128 ≤ _ by omega) (show _ ≤ 191 by omega) rfl
    by_cases h0 : cp / 0x1000 = 0
    · rw [h0]
      exact ⟨_, _, _, rfl, hE0, next_byte_of_nat (show 160 ≤ _ by omega) (show _ ≤ 191 by omega) hlast⟩
    by_cases hD : cp / 0x1000 = 13
    · rw [hD]
      exact ⟨_, _, _, rfl, hED, next_byte_of_nat (show 128 ≤ _ by omega) (show _ ≤ 159 by omega) hlast⟩
    exact ⟨_, _, _, rfl, hthree _ (by omega) (by omega),
      next_byte_of_nat (show 128 ≤ _ by omega) (show _ ≤ 191 by omega) hlast⟩
  · have hlast : next_byte_in_range [(0x80, 0xBF), (0x80, 0xBF)]
      [(0x80 + cp / 0x40 % 0x40).toUInt8, (0x80 + cp % 0x40).toUInt8] =
        some ([(0x80 + cp / 0x40 % 0x40).toUInt8, (0x80 + cp % 0x40).toUInt8], []) :=
      next_byte_of_nat (show 128 ≤ _ by omega) (show _ ≤ 191 by omega)
        (next_byte_of_nat (show 128 ≤ _ by omega) (show _ ≤ 191 by omega) rfl)
    by_cases h0 : cp / 0x40000 = 0
    · rw [h0]
      exact ⟨_, _, _, rfl, hF0, next_byte_of_nat (show 144 ≤ _ by omega) (show _ ≤ 191 by omega) hlast⟩
    by_cases h4 : cp / 0x40000 = 4
    · rw [h4]
      exact ⟨_, _, _, rfl, hF4, next_byte_of_nat (show 128 ≤ _ by omega) (show _ ≤ 143 by omega) hlast⟩
    exact ⟨_, _, _, rfl, hfour _ (by omega) (by omega),
      next_byte_of_nat (show 128 ≤ _ by omega) (show _ ≤ 191 by omega) hlast⟩

theorem codepoint_one {cp : Nat} (h : cp < 0x80) : codepoint_bytes cp = [cp.toUInt8] := if_pos h

theorem whole_codepoint {cp : Nat} (h : cp < 0x110000) (hs : cp < 0xD800 ∨ 0xDFFF < cp) : Whole (codepoint_bytes cp) := by
  by_cases hmin : 0x80 ≤ cp
  · obtain ⟨b, bs, rs, hcp, hrs, hbs⟩ := codepoint_ranges hmin h hs
    rw [hcp]
    exact whole_ranges hrs hbs
  · rw [codepoint_one (Nat.lt_of_not_le hmin)]
    apply whole_ascii
    rw [UInt8.le_iff_toNat_le, Nat.toUInt8_eq, UInt8.toNat_ofNat']
    show cp % 256 ≤ 127
    omega

theorem hex_value_lt {b : UInt8} {n : Nat} (h : hex_value b = some n) : n < 16 := by
  unfold hex_value at h
  simp only [UInt8.le_iff_toNat_le] at h
  have h30 : (0x30 : UInt8).toNat = 0x30 := rfl
  have h39 : (0x39 : UInt8).toNat = 0x39 := rfl
  have h41 : (0x41 : UInt8).toNat = 0x41 := rfl
  have h46 : (0x46 : UInt8).toNat = 0x46 := rfl
  have h61 : (0x61 : UInt8).toNat = 0x61 := rfl
  have h66 : (0x66 : UInt8).toNat = 0x66 := rfl
  split at h
  · cases h
    omega
  split at h
  · cases h
    omega
  split at h
  · cases h
    omega
  · cases h

theorem get_codepoint_lt {s : Str} {x : Nat × Str} (h : get_codepoint s = some x) : x.1 < 0x10000 := by
  unfold get_codepoint at h
  split at h
  · simp only [Option.bind_eq_bind, Option.bind_eq_some_iff] at h
    obtain ⟨a, ha, b, hb, c, hc, d, hd, h⟩ := h
    have ha := hex_value_lt ha
    have hb := hex_value_lt hb
    have hc := hex_value_lt hc
    have hd := hex_value_lt hd
    cases h
    show a * 0x1000 + b * 0x100 + c * 0x10 + d < 0x10000
    omega
  · cases h

theorem whole_surrogate {n : Nat} (hn : 0xD800 ≤ n) (hn' : n ≤ 0xDBFF) {s : Str} {x : Str × Str}
    (h : scan_surrogate n s = some x) :
    Whole x.1 := by
  unfold scan_surrogate at h
  split at h
  · simp only [Option.bind_eq_bind, Option.bind_eq_some_iff] at h
    obtain ⟨y, hy, h⟩ := h
    split at h
    · rename_i hy'
      have hlt : n * 0x400 + y.1 - 0x35FDC00 < 0x110000 := by omega
      have hgt : 0xDFFF < n * 0x400 + y.1 - 0x35FDC00 := by omega
      generalize n * 0x400 + y.1 - 0x35FDC00 = cp at hlt hgt h
      cases h
      exact whole_codepoint hlt (Or.inr hgt)
    · cases h
  · cases h

theorem whole_unicode {s : Str} {x : Str × Str} (h : scan_unicode s = some x) : Whole x.1 := by
  unfold scan_unicode at h
  simp only [Option.bind_eq_bind, Option.bind_eq_some_iff] at h
  obtain ⟨y, hy, h⟩ := h
  have hlt := get_codepoint_lt hy
  split at h
  · rename_i hhigh
    exact whole_surrogate hhigh.1 hhigh.2 h
  · split at h
    · cases h
    · cases h
      exact whole_codepoint (by omega) (by omega)

theorem short_escape_ascii : ∀ b : UInt8, (short_escape b).all (· ≤ 0x7F) = true := forall_byte (by decide +kernel)

theorem whole_char {b : UInt8} {s : Str} {x : Str × Str} (h : scan_char b s = some x) : Whole x.1 := by
  unfold scan_char at h
  split at h
  · cases s with
    | nil => cases h
    | cons c s =>
      simp only [scan_escape] at h
      split at h
      · rename_i d hd
        have hascii := short_escape_ascii c
        rw [hd] at hascii
        cases h
        exact whole_ascii (by simpa using hascii)
      · split at h
        · exact whole_unicode h
        · cases h
  split at h
  · cases h
  split at h
  · rename_i hb
    cases h
    exact whole_ascii hb
  split at h
  · cases h
  · rename_i rs hrs
    obtain ⟨y, hy, rfl⟩ := Option.map_eq_some_iff.mp h
    exact whole_ranges hrs hy

theorem scan_string_wellformed {s token_buffer rest : Str} (h : scan_string s = (.value_string token_buffer, rest)) :
    Wellformed 0 token_buffer := by
  refine whole_wellformed ?_
  refine run_spec (P := fun x => Whole x.1) (Q := fun r => ∀ y, r = some y → Whole y.1) ?_ ?_ whole_nil
    (scan_string_value h) _ rfl
  · intro x y hx hgo
    obtain ⟨b, s, c, -, -, hc, rfl⟩ := string_step_go hgo
    exact whole_append hx (whole_char hc)
  · rintro x r hx hhalt y rfl
    rw [(string_step_halt hhalt).2]
    exact hx

/-! ## Strings that can be dumped are scanned back -/

theorem expected_high {state : Nat} {rs : List (UInt8 × UInt8)} (h : expected state = some rs) : ∀ r ∈ rs, 0x80 ≤ r.1 := by
  unfold expected at h
  split at h
  all_goals
    cases h
    try simp

/-- A character of more than one byte in front of a well-formed string. -/
theorem wellformed_split :
    ∀ {rs : List (UInt8 × UInt8)} {state : Nat} {s : Str}, expected state = some rs → Wellformed state s →
    ∃ bs s', s = bs ++ s' ∧ (∀ t, next_byte_in_range rs (bs ++ t) = some (bs, t)) ∧ (∀ b ∈ bs, ¬ b ≤ 0x7F) ∧ Wellformed 0 s'
  | [], state, s, hstate, h => by
    rw [expected_nil hstate] at h
    exact ⟨[], s, rfl, fun t => rfl, nofun, h⟩
  | r :: rs, state, [], hstate, h => by
    rw [wellformed_nil.mp h] at hstate
    cases hstate
  | r :: rs, state, b :: s, hstate, h => by
    obtain ⟨hne, hs⟩ := wellformed_cons.mp h
    have hnext := expected_cons hstate b
    by_cases hb : r.1 ≤ b ∧ b ≤ r.2
    · rw [if_pos hb] at hnext
      obtain ⟨bs, s', rfl, hrange, hhigh, hs'⟩ := wellformed_split hnext hs
      refine ⟨b :: bs, s', rfl, fun t => ?_, ?_, hs'⟩
      · rw [List.cons_append, next_byte_in_range, if_pos hb, hrange]
        rfl
      · intro c hc
        rcases List.mem_cons.mp hc with rfl | hc
        · have hr := expected_high hstate r List.mem_cons_self
          intro hle
          have hbad := UInt8.le_trans hr (UInt8.le_trans hb.1 hle)
          exact absurd hbad (by decide)
        · exact hhigh c hc
    · rw [if_neg hb] at hnext
      exact absurd hnext hne

theorem hex_value_lower_hex : ∀ n < 16, hex_value (lower_hex n) = some n := by decide

theorem codepoint_bytes_ascii {b : UInt8} (h : b ≤ 0x7F) : codepoint_bytes b.toNat = [b] := by
  have hlt : b.toNat < 0x80 := Nat.lt_succ_of_le (UInt8.le_iff_toNat_le.mp h)
  rw [codepoint_bytes, if_pos hlt, Nat.toUInt8_eq, UInt8.ofNat_toNat]

theorem scan_control {b : UInt8} (h : b ≤ 0x1F) (s : Str) :
    scan_char 0x5C (0x75 :: 0x30 :: 0x30 :: lower_hex (b.toNat / 16) :: lower_hex (b.toNat % 16) :: s) = some ([b], s) := by
  have hlt : b.toNat ≤ 0x1F := UInt8.le_iff_toNat_le.mp h
  have hcp : get_codepoint (0x30 :: 0x30 :: lower_hex (b.toNat / 16) :: lower_hex (b.toNat % 16) :: s) =
      some (b.toNat, s) := by
    have hsum : 0 * 0x1000 + 0 * 0x100 + b.toNat / 16 * 0x10 + b.toNat % 16 = b.toNat := by omega
    simp only [get_codepoint, show hex_value 0x30 = some 0 from rfl, hex_value_lower_hex _ (show b.toNat / 16 < 16 by omega),
      hex_value_lower_hex _ (show b.toNat % 16 < 16 by omega), Option.bind_eq_bind, Option.bind_some]
    exact congrArg (fun n => some (n, s)) hsum
  have hunicode : scan_unicode (0x30 :: 0x30 :: lower_hex (b.toNat / 16) :: lower_hex (b.toNat % 16) :: s) =
      some ([b], s) := by
    have hlow : ¬ (0xD800 ≤ b.toNat ∧ b.toNat ≤ 0xDBFF) := by omega
    have hlow' : ¬ (0xDC00 ≤ b.toNat ∧ b.toNat ≤ 0xDFFF) := by omega
    simp only [scan_unicode, hcp, Option.bind_eq_bind, Option.bind_some, if_neg hlow, if_neg hlow']
    rw [codepoint_bytes_ascii (UInt8.le_trans h (by decide))]
  exact hunicode

theorem string_step_char {b : UInt8} (hb : ¬ b = 0x22) {s : Str} {c : Str × Str} (h : scan_char b s = some c)
    (token_buffer : Str) :
    string_step (token_buffer, b :: s) = .go (token_buffer ++ c.1, c.2) := by
  simp only [string_step, if_neg hb, h]

theorem string_step_ascii {b : UInt8} (h : b ≤ 0x7F) (token_buffer s : Str) :
    string_step (token_buffer, escape_sequence b ++ s) = .go (token_buffer ++ [b], s) := by
  unfold escape_sequence
  split
  · rename_i hb
    subst hb
    rfl
  split
  · rename_i hb
    subst hb
    rfl
  split
  · rename_i hb
    subst hb
    rfl
  split
  · rename_i hb
    subst hb
    rfl
  split
  · rename_i hb
    subst hb
    rfl
  split
  · rename_i hb
    subst hb
    rfl
  split
  · rename_i hb
    subst hb
    rfl
  split
  · rename_i hb
    exact string_step_char (by decide) (scan_control hb s) token_buffer
  · rename_i hquote hbackslash hcontrol
    refine string_step_char hquote (c := ([b], s)) ?_ token_buffer
    simp only [scan_char, if_neg hbackslash, if_neg hcontrol, if_pos h]
    rfl

theorem escape_sequence_high : ∀ b : UInt8, ¬ b ≤ 0x7F → escape_sequence b = [b] := forall_byte (by decide +kernel)

theorem flatMap_escape_high {bs : Str} (h : ∀ b ∈ bs, ¬ b ≤ 0x7F) : bs.flatMap escape_sequence = bs := by
  induction bs with
  | nil => rfl
  | cons b bs ih =>
    rw [List.flatMap_cons, escape_sequence_high b (h b List.mem_cons_self), ih fun c hc => h c (List.mem_cons_of_mem b hc)]
    rfl

theorem string_run {t : Str} {s : Str} (h : Wellformed 0 s) : ∀ token_buffer,
    run string_step (fun x => x.2.length) (token_buffer, s.flatMap escape_sequence ++ 0x22 :: t) =
      some (some (token_buffer ++ s, t)) := by
  induction hn : s.length using Nat.strongRecOn generalizing s with
  | _ n ih =>
    intro token_buffer
    cases s with
    | nil =>
      rw [List.append_nil]
      exact run_halt rfl
    | cons b s =>
      obtain ⟨hne, hs⟩ := wellformed_cons.mp h
      by_cases hb : b ≤ 0x7F
      · rw [decode_ascii b hb] at hs
        rw [List.flatMap_cons, List.append_assoc, run_go string_step_descends (string_step_ascii hb token_buffer _),
          ih s.length (by rw [← hn]; exact Nat.lt_succ_self _) hs rfl, List.append_assoc]
        rfl
      · have hfirst := expected_first b hb
        cases hrs : byte_ranges b with
        | none =>
          rw [hrs] at hfirst
          exact absurd hfirst hne
        | some rs =>
          rw [hrs] at hfirst
          obtain ⟨bs, s', rfl, hrange, hhigh, hs'⟩ := wellformed_split hfirst hs
          have hstep : string_step (token_buffer, b :: (bs ++ (s'.flatMap escape_sequence ++ 0x22 :: t))) =
              .go (token_buffer ++ b :: bs, s'.flatMap escape_sequence ++ 0x22 :: t) := by
            have h22 : ¬ b = 0x22 := fun h => hb (by rw [h]; decide)
            have h5C : ¬ b = 0x5C := fun h => hb (by rw [h]; decide)
            have h1F : ¬ b ≤ 0x1F := fun h => hb (UInt8.le_trans h (by decide))
            refine string_step_char h22 (c := (b :: bs, s'.flatMap escape_sequence ++ 0x22 :: t)) ?_ token_buffer
            simp only [scan_char, if_neg h5C, if_neg h1F, if_neg hb, hrs, hrange, Option.map_some]
          rw [List.flatMap_cons, List.flatMap_append, flatMap_escape_high hhigh, escape_sequence_high b hb, List.append_assoc,
            List.append_assoc, List.singleton_append, run_go string_step_descends hstep,
            ih s'.length (by rw [← hn, List.length_cons, List.length_append]; omega) hs' rfl, List.append_assoc]
          rfl

/-- The text of a string is read as the string. -/
theorem scan_string_text {s : Str} (h : Wellformed 0 s) (t : Str) :
    scan_string (s.flatMap escape_sequence ++ 0x22 :: t) = (.value_string s, t) := by
  rw [scan_string, string_run h]
  rfl

end VrpcAgent.Json

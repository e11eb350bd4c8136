import VrpcAgent.Agent
import Mathlib.Data.Set.Function

/-!
# Client identifiers

`generate_client_id` hashes the domain and the agent without a separator. The hash, its
decimal digits and the prefix of twenty bytes lose nothing; the concatenation does.
-/

namespace VrpcAgent

/-- `std::to_string` of a `size_t` of 64 bits. -/
def to_string (n : UInt64) : Str := lit (Nat.repr n.toNat)

/-- `hash` is `std::hash<std::string>`. -/
def generate_client_id (hash : Str → UInt64) (options : Options) : Str :=
  lit "va3" ++ (to_string (hash (options.domain ++ options.agent))).take 20

/-! ## Digits -/

theorem length_to_string (n : UInt64) : (to_string n).length ≤ 20 := by
  have h : n.toNat < 10 ^ 20 := n.toNat_lt.trans (by decide)
  rw [to_string, lit, List.length_map, String.length_toList]
  exact (Nat.length_repr_le_iff (by decide)).mpr h

theorem digit_byte {n : Nat} {c : Char} (h : c ∈ Nat.toDigits 10 n) : Char.ofNat c.toNat.toUInt8.toNat = c := by
  have hb : (10 : Nat) ≤ 10 := Nat.le_refl 10
  have hd : 48 ≤ c.toNat ∧ c.toNat ≤ 57 := Char.isDigit_iff_toNat.mp (Nat.isDigit_of_mem_toDigits (Nat.zero_lt_succ 9) hb h)
  have hlt : c.toNat % 256 = c.toNat := Nat.mod_eq_of_lt (by omega)
  rw [Nat.toUInt8_eq, UInt8.toNat_ofNat', hlt, Char.ofNat_toNat]

theorem to_string_digits (n : UInt64) : (to_string n).map (fun b => Char.ofNat b.toNat) = Nat.toDigits 10 n.toNat := by
  rw [to_string, lit, Nat.toList_repr, List.map_map]
  exact (List.map_congr_left fun c hc => digit_byte hc).trans (List.map_id _)

theorem to_string_injective {n n' : UInt64} (h : to_string n = to_string n') : n = n' := by
  have hd : Nat.toDigits 10 n.toNat = Nat.toDigits 10 n'.toNat := by rw [← to_string_digits, h, to_string_digits]
  have ht : n.toNat = n'.toNat := by rw [← Nat.ofDigitChars_ten_toDigits (n := n.toNat), hd, Nat.ofDigitChars_ten_toDigits]
  exact UInt64.toNat_inj.mp ht

/-! ## Identifiers -/

section
variable {hash : Str → UInt64} {o o' : Options}

theorem client_id_eq_iff (hinj : Set.InjOn hash {o.domain ++ o.agent, o'.domain ++ o'.agent}) :
    generate_client_id hash o = generate_client_id hash o' ↔ o.domain ++ o.agent = o'.domain ++ o'.agent := by
  refine ⟨fun h => ?_, fun h => by rw [generate_client_id, h]; rfl⟩
  unfold generate_client_id at h
  rw [List.take_of_length_le (length_to_string _), List.take_of_length_le (length_to_string _)] at h
  exact hinj (by simp) (by simp) (to_string_injective (List.append_cancel_left h))

def Shifted (o o' : Options) : Prop := ∃ x ≠ [], o'.domain = o.domain ++ x ∧ o.agent = x ++ o'.agent

theorem concat_eq_iff : o.domain ++ o.agent = o'.domain ++ o'.agent ↔
    (o.domain, o.agent) = (o'.domain, o'.agent) ∨ Shifted o o' ∨ Shifted o' o := by
  rw [List.append_eq_append_iff]
  constructor
  · intro h
    rcases h with ⟨x, hd, ha⟩ | ⟨x, hd, ha⟩
    · by_cases hx : x = []
      · subst hx; exact .inl (Prod.ext (by simpa using hd.symm) ha)
      · exact .inr (.inl ⟨x, hx, hd, ha⟩)
    · by_cases hx : x = []
      · subst hx; exact .inl (Prod.ext (by simpa using hd) ha.symm)
      · exact .inr (.inr ⟨x, hx, hd, ha⟩)
  · intro h
    rcases h with h | ⟨x, -, hd, ha⟩ | ⟨x, -, hd, ha⟩
    · rw [Prod.mk.injEq] at h
      exact .inl ⟨[], by rw [h.1, List.append_nil], h.2⟩
    · exact .inl ⟨x, hd, ha⟩
    · exact .inr ⟨x, hd, ha⟩

theorem shifted_ne (h : Shifted o o') : (o.domain, o.agent) ≠ (o'.domain, o'.agent) := by
  intro heq
  obtain ⟨x, hx, hd, -⟩ := h
  rw [(Prod.mk.inj heq).1] at hd
  exact hx (List.self_eq_append_right.mp hd)

/-- **Client identifiers** of two different agents differ, unless the one pair comes from
the other by moving text from the front of the agent to the end of the domain. -/
theorem client_ids_differ_iff (hinj : Set.InjOn hash {o.domain ++ o.agent, o'.domain ++ o'.agent}) :
    ((o.domain, o.agent) ≠ (o'.domain, o'.agent) → generate_client_id hash o ≠ generate_client_id hash o') ↔
      ¬ Shifted o o' ∧ ¬ Shifted o' o := by
  rw [Ne, Ne, client_id_eq_iff hinj, concat_eq_iff, ← not_or]
  constructor
  · intro h hs
    exact h (hs.elim shifted_ne fun hs => (shifted_ne hs).symm) (.inr hs)
  · intro hs hne h
    exact h.elim hne hs

end

def fnv1a (s : Str) : UInt64 := s.foldl (fun h c => (h ^^^ c.toUInt64) * 1099511628211) 14695981039346656037

def some_options (domain agent : String) : Options := ⟨lit domain, lit agent, lit "1.0", []⟩

theorem two_agents_of_a_domain :
    generate_client_id fnv1a (some_options "d" "a") ≠ generate_client_id fnv1a (some_options "d" "b") := by
  have hinj : Set.InjOn fnv1a {lit "d" ++ lit "a", lit "d" ++ lit "b"} := by
    rw [Set.injOn_pair]
    exact fun h => absurd h (by decide)
  refine (client_ids_differ_iff hinj).mpr ?_ (by decide)
  constructor
  · rintro ⟨x, hx, hd, -⟩
    exact hx (List.self_eq_append_right.mp hd)
  · rintro ⟨x, hx, hd, -⟩
    exact hx (List.self_eq_append_right.mp hd)

theorem moved_text_collides :
    ¬ ∀ (hash : Str → UInt64) (o o' : Options), Set.InjOn hash {o.domain ++ o.agent, o'.domain ++ o'.agent} →
      (o.domain, o.agent) ≠ (o'.domain, o'.agent) → generate_client_id hash o ≠ generate_client_id hash o' := by
  intro h
  refine h fnv1a (some_options "a" "bc") (some_options "ab" "c") ?_ (by decide) rfl
  rw [Set.injOn_pair]
  exact fun _ => rfl

end VrpcAgent

import VrpcAgent.Adapter
import Mathlib.Data.List.Count
import Mathlib.Data.List.TakeWhile

/-!
# Splitting and trimming

A string without the separator is its own only piece. For a separator of two
different bytes, the last piece comes from behind the last separator.
-/

namespace VrpcAgent

/-! ## strsplit -/

section
variable {sep : Str}

theorem isPrefixOf_eq_false {s : Str} (h : ¬ sep <:+: s) : ¬ sep.isPrefixOf s = true := fun hp =>
  h (List.isPrefixOf_iff_prefix.mp hp).isInfix

theorem strsplit_from_unsplit : ∀ {s acc : Str}, ¬ sep <:+: s →
    strsplit_from sep 0 acc s = if acc ++ s = [] then [] else [acc ++ s]
  | [], acc, _ => by rw [strsplit_from, List.append_nil]
  | c :: s, acc, h => by
    have hs : ¬ sep <:+: s := fun hs => h (hs.trans (List.suffix_cons c s).isInfix)
    rw [strsplit_from, if_neg (isPrefixOf_eq_false h), strsplit_from_unsplit hs, List.append_assoc]
    rfl

theorem strsplit_unsplit {s : Str} (h : ¬ sep <:+: s) : strsplit s sep = if s = [] then [] else [s] :=
  strsplit_from_unsplit h

theorem strsplit_from_first (hsep : sep ≠ []) : ∀ {s : Str} (acc : Str), sep <:+: s →
    ∃ p l, strsplit_from sep 0 acc s = p :: l ∧ p.length < acc.length + s.length
  | [], _, h => absurd (List.infix_nil.mp h) hsep
  | c :: s, acc, h => by
    rw [strsplit_from]
    split
    · exact ⟨acc, _, rfl, by simp⟩
    · rename_i hp
      have hs : sep <:+: s := (List.infix_cons_iff.mp h).resolve_left fun hp' => hp (List.isPrefixOf_iff_prefix.mpr hp')
      obtain ⟨p, l, hl, hlen⟩ := strsplit_from_first hsep (acc ++ [c]) hs
      refine ⟨p, l, hl, ?_⟩
      simp only [List.length_append, List.length_cons, List.length_nil] at hlen ⊢
      omega

theorem strsplit_from_drop (sep : Str) : ∀ (k : Nat) (acc s : Str),
    strsplit_from sep k acc s = strsplit_from sep 0 acc (s.drop k)
  | 0, _, _ => rfl
  | _ + 1, _, [] => rfl
  | k + 1, acc, _ :: s => by rw [strsplit_from, strsplit_from_drop sep k acc s, List.drop_succ_cons]

/-- The first piece ends at the first separator. -/
theorem strsplit_from_piece {b : UInt8} {l : Str} (s : Str) :
    ∀ {p : Str} (acc : Str), ¬ (b :: l) <:+: p ++ (b :: l).dropLast →
    strsplit_from (b :: l) 0 acc (p ++ (b :: l ++ s)) = (acc ++ p) :: strsplit s (b :: l)
  | [], acc, _ => by
    have hp : (b :: l).isPrefixOf (b :: (l ++ s)) = true := List.isPrefixOf_iff_prefix.mpr (List.prefix_append (b :: l) s)
    show strsplit_from (b :: l) 0 acc (b :: (l ++ s)) = _
    rw [strsplit_from, if_pos hp, strsplit_from_drop, List.length_cons, Nat.add_sub_cancel, List.drop_left, List.append_nil]
    rfl
  | c :: p, acc, h => by
    have hp : ¬ (b :: l) <+: c :: (p ++ (b :: l ++ s)) := by
      intro hp
      have hshort : c :: p ++ (b :: l).dropLast <+: c :: (p ++ (b :: l ++ s)) :=
        (List.prefix_append_right_inj (c :: p)).mpr ((List.dropLast_prefix (b :: l)).trans (List.prefix_append (b :: l) s))
      have hlen : (b :: l).length ≤ (c :: p ++ (b :: l).dropLast).length := by
        simp only [List.length_append, List.length_cons, List.length_dropLast]
        omega
      exact h (List.prefix_of_prefix_length_le hp hshort hlen).isInfix
    have hp' : ¬ (b :: l) <:+: p ++ (b :: l).dropLast := fun hp' => h (hp'.trans (List.suffix_cons c _).isInfix)
    rw [List.cons_append, strsplit_from, if_neg fun hq => hp (List.isPrefixOf_iff_prefix.mp hq), strsplit_from_piece s _ hp',
      List.append_assoc]
    rfl

/-- The pieces, joined again, are the string up to a separator at its end. -/
theorem join_strsplit_from (hsep : sep ≠ []) : ∀ (n : Nat) {s : Str} (acc : Str), s.length ≤ n →
    sep.intercalate (strsplit_from sep 0 acc s) <+: acc ++ s
  | _, [], acc, _ => by
    rw [strsplit_from]
    split
    · exact List.nil_prefix
    · rw [List.intercalate_singleton, List.append_nil]
  | n + 1, c :: s, acc, hn => by
    rw [strsplit_from]
    split
    · rename_i hp
      obtain ⟨rest, hrest⟩ := List.isPrefixOf_iff_prefix.mp hp
      have hpos := List.length_pos_of_ne_nil hsep
      have hdrop : s.drop (sep.length - 1) = rest := by
        have h : (c :: s).drop sep.length = rest := by rw [← hrest, List.drop_left]
        obtain ⟨k, hk⟩ := Nat.exists_eq_succ_of_ne_zero (Nat.ne_of_gt hpos)
        rw [hk, List.drop_succ_cons] at h
        rw [hk, Nat.succ_sub_one, h]
      have hlen : rest.length ≤ n := by
        have h := congrArg List.length hrest
        simp only [List.length_append, List.length_cons] at h hn
        omega
      have ih := join_strsplit_from hsep n [] hlen
      rw [strsplit_from_drop, hdrop, ← hrest]
      cases hl : strsplit_from sep 0 [] rest with
      | nil => rw [List.intercalate_singleton]; exact List.prefix_append acc _
      | cons p l =>
        rw [List.intercalate_cons_of_ne_nil (List.cons_ne_nil p l), ← hl, List.append_assoc]
        exact (List.prefix_append_right_inj acc).mpr ((List.prefix_append_right_inj sep).mpr ih)
    · have ih := join_strsplit_from hsep n (acc ++ [c]) (Nat.le_of_succ_le_succ hn)
      rwa [List.append_assoc] at ih

theorem join_strsplit (hsep : sep ≠ []) (s : Str) : sep.intercalate (strsplit s sep) <+: s :=
  join_strsplit_from hsep s.length [] (Nat.le_refl _)

theorem strsplit_from_ne_nil (sep : Str) : ∀ {s acc : Str}, acc ++ s ≠ [] → strsplit_from sep 0 acc s ≠ []
  | [], acc, h => by
    rw [List.append_nil] at h
    rw [strsplit_from, if_neg h]
    exact List.cons_ne_nil acc []
  | c :: s, acc, _ => by
    rw [strsplit_from]
    split
    · exact List.cons_ne_nil acc _
    · exact strsplit_from_ne_nil sep (by simp)

theorem count_piece (b : UInt8) : ∀ {s acc p : Str} {skip : Nat}, p ∈ strsplit_from sep skip acc s →
    p.count b ≤ acc.count b + s.count b
  | [], acc, p, skip, hp => by
    have hp' : p ∈ if acc = [] then [] else [acc] := by
      cases skip <;> exact hp
    split at hp'
    · cases hp'
    · rw [List.mem_singleton.mp hp']; omega
  | c :: s, acc, p, skip + 1, hp => by
    have ih : p.count b ≤ acc.count b + s.count b := count_piece b hp
    have := List.count_le_count_cons (a := b) (b := c) (l := s)
    omega
  | c :: s, acc, p, 0, hp => by
    have hcons := List.count_le_count_cons (a := b) (b := c) (l := s)
    rw [strsplit_from] at hp
    split at hp
    · rcases List.mem_cons.mp hp with rfl | hp
      · omega
      · have ih := count_piece b hp
        simp only [List.count_nil] at ih
        omega
    · have ih := count_piece b hp
      rw [List.count_append] at ih
      have : (c :: s).count b = [c].count b + s.count b := by rw [← List.count_append]; rfl
      omega

theorem count_last_piece (b : UInt8) (s : Str) : ((strsplit s sep).getLastD []).count b ≤ s.count b := by
  cases h : strsplit s sep with
  | nil => exact Nat.zero_le _
  | cons p l =>
    have hmem : (p :: l).getLastD [] ∈ strsplit s sep := by
      rw [h, List.getLastD_eq_getLast?, List.getLast?_eq_some_getLast (List.cons_ne_nil p l)]
      exact List.getLast_mem _
    have hcount := count_piece b hmem
    rwa [List.count_nil, Nat.zero_add] at hcount

end

theorem strsplit_from_last {a b : UInt8} (hab : a ≠ b) {s : Str} (hs : s ≠ []) : ∀ (pre acc : Str),
    (strsplit_from [a, b] 0 acc (pre ++ a :: b :: s)).getLastD [] = (strsplit s [a, b]).getLastD []
  | [], acc => by
    have hne : strsplit_from [a, b] 0 [] s ≠ [] := strsplit_from_ne_nil [a, b] hs
    obtain ⟨p, l, hl⟩ := List.exists_cons_of_ne_nil hne
    rw [List.nil_append, strsplit_from, if_pos (by simp)]
    show (acc :: strsplit_from [a, b] 0 [] s).getLastD [] = (strsplit_from [a, b] 0 [] s).getLastD []
    rw [hl]
    rfl
  | [c], acc => by
    have hne : ¬ [a, b].isPrefixOf (c :: a :: b :: s) = true := by
      simp only [List.isPrefixOf, Bool.and_eq_true, beq_iff_eq, not_and, and_true]
      exact fun _ h => hab h.symm
    rw [List.singleton_append, strsplit_from, if_neg hne]
    exact strsplit_from_last hab hs [] (acc ++ [c])
  | c :: d :: pre, acc => by
    simp only [List.cons_append]
    rw [strsplit_from]
    split
    · -- a separator further left
      have hne : strsplit_from [a, b] 0 [] (pre ++ a :: b :: s) ≠ [] := strsplit_from_ne_nil [a, b] (by simp)
      obtain ⟨p, l, hl⟩ := List.exists_cons_of_ne_nil hne
      have ih := strsplit_from_last hab hs pre []
      show (acc :: strsplit_from [a, b] 0 [] (pre ++ a :: b :: s)).getLastD [] = _
      rw [hl] at ih ⊢
      exact ih
    · exact strsplit_from_last hab hs (d :: pre) (acc ++ [c])

/-! ## The callee -/

def Callee.text : Callee → Str
  | .name n => n
  | .colons p f => p ++ lit "::" ++ f

theorem as_name_some {x n : Str} (h : as_name x = some n) : x = n ∧ n ≠ [] := by
  unfold as_name at h
  split at h
  · cases h
  · rename_i hx
    obtain rfl : x = n := Option.some.inj h
    exact ⟨rfl, hx⟩

theorem call_object_text {x : Str} {c : Callee} (h : call_object x = some c) : c.text <+: x ∧ c.text ≠ [] := by
  have hjoin := join_strsplit (show lit "::" ≠ [] by decide) x
  unfold call_object at h
  split at h
  · rename_i pkg fn hs
    split at h
    · rename_i p f hp hf
      obtain ⟨rfl, hp⟩ := as_name_some hp
      obtain ⟨rfl, -⟩ := as_name_some hf
      obtain rfl : Callee.colons pkg fn = c := Option.some.inj h
      rw [hs, List.intercalate_cons_cons, List.intercalate_singleton] at hjoin
      exact ⟨hjoin, by simp [Callee.text, hp]⟩
    · cases h
  · rename_i n l _ hs
    obtain ⟨n', hn, rfl⟩ := Option.map_eq_some_iff.mp h
    obtain ⟨rfl, hn⟩ := as_name_some hn
    refine ⟨List.IsPrefix.trans ?_ hjoin, hn⟩
    rw [hs]
    cases l with
    | nil => rw [List.intercalate_singleton]; exact List.prefix_rfl
    | cons p l => rw [List.intercalate_cons_cons, List.append_assoc]; exact List.prefix_append n _
  · cases h

theorem call_object_name_iff {n : Str} : call_object n = some (.name n) ↔ n ≠ [] ∧ ¬ lit "::" <:+: n := by
  constructor
  · intro h
    refine ⟨(call_object_text h).2, fun hsep => ?_⟩
    obtain ⟨p, l, hl, hlen⟩ := strsplit_from_first (show lit "::" ≠ [] by decide) [] hsep
    have hs : strsplit n (lit "::") = p :: l := hl
    unfold call_object at h
    rw [hs] at h
    split at h
    · split at h <;> cases h
    · rename_i n' l' _ heq
      obtain ⟨rfl, rfl⟩ := List.cons.inj heq
      obtain ⟨n'', hn, h⟩ := Option.map_eq_some_iff.mp h
      cases h
      obtain ⟨rfl, -⟩ := as_name_some hn
      simp at hlen
    · cases h
  · intro h
    rw [call_object, strsplit_unsplit h.2, if_neg h.1]
    simp only [as_name, if_neg h.1, Option.map_some]

/-! ## trimws -/

theorem count_dropWhile {α : Type} [DecidableEq α] {p : α → Bool} {a : α} (h : p a = false) :
    ∀ l : List α, (l.dropWhile p).count a = l.count a
  | [] => rfl
  | b :: l => by
    rw [List.dropWhile_cons]
    split
    · rename_i hb
      rw [count_dropWhile h l, List.count_cons_of_ne]
      intro heq
      rw [heq, h] at hb; cases hb
    · rfl

theorem count_trimws {b : UInt8} (h : is_white b = false) (x : Str) : (trimws x).count b = x.count b := by
  rw [trimws, List.count_reverse, count_dropWhile h, List.count_reverse, count_dropWhile h]

theorem trimws_append_white {b : UInt8} (h : is_white b = true) (x : Str) : trimws (x ++ [b]) = trimws x := by
  rw [trimws, trimws, List.dropWhile_append]
  cases hx : x.dropWhile is_white with
  | nil => simp [h]
  | cons c l =>
    have hc : (List.dropWhile is_white x).isEmpty = false := by rw [hx]; rfl
    rw [← hx, hc]
    simp [h]

/-! ## Strings of R -/

/-- A string of R, which ends at the first nul. -/
def r_string (s : Str) : Str := s.takeWhile (· ≠ 0)

theorem r_string_eq_iff {s : Str} : r_string s = s ↔ 0 ∉ s := by
  rw [r_string, List.takeWhile_eq_self_iff]
  constructor
  · intro h hmem
    exact absurd (h 0 hmem) (by decide)
  · intro h b hb
    have hne : b ≠ 0 := fun heq => h (heq ▸ hb)
    simpa using hne

theorem r_string_no_nul (s : Str) : 0 ∉ r_string s := by
  intro h
  have := List.mem_takeWhile_imp h
  simp at this

theorem r_string_dollar {s g : Str} (h : r_string s = 36 :: g) : ∃ g', s = 36 :: g' := by
  have hpre : r_string s <+: s := List.takeWhile_prefix _
  obtain ⟨t, ht⟩ := hpre
  rw [h] at ht
  exact ⟨g ++ t, ht.symm⟩

end VrpcAgent

import VrpcAgent.JsonGrammar
import VrpcAgent.JsonNumbers
import VrpcAgent.RoundTrip

/-!
# Texts and values

The text that `dump` writes for a value is parsed as the value, and what is parsed from any
text is a value that `dump` writes.
-/

namespace VrpcAgent.Json

mutual
def numbers : Json → List Rat
  | .number q => [q]
  | .array xs => elems_numbers xs
  | .object m => members_numbers m
  | _ => []
def elems_numbers : List Json → List Rat
  | [] => []
  | x :: xs => numbers x ++ elems_numbers xs
def members_numbers : List (Str × Json) → List Rat
  | [] => []
  | (_, x) :: m => numbers x ++ members_numbers m
end

/-- A value as the library keeps it, with numbers in `P`. -/
structure Stored (P : Rat → Prop) (j : Json) : Prop where
  ordered : j.Ordered
  numbers : ∀ q ∈ j.numbers, P q

/-- A value that the library keeps and `dump` writes. -/
structure Restorable (P : Rat → Prop) (j : Json) : Prop extends Stored P j where
  wellformed : j.dump_error = none

def SortedKeys (m : List (Str × Json)) : Prop := (m.map Prod.fst).Pairwise (· < ·)

def RestorableMember (P : Rat → Prop) (p : Str × Json) : Prop := Wellformed 0 p.1 ∧ Restorable P p.2

section
variable {P : Rat → Prop}

theorem stored_array {xs : List Json} : Stored P (.array xs) ↔ ∀ x ∈ xs, Stored P x := by
  induction xs with
  | nil => exact ⟨fun _ => List.forall_mem_nil _, fun _ => ⟨trivial, List.forall_mem_nil _⟩⟩
  | cons x xs ih =>
    rw [List.forall_mem_cons, ← ih]
    constructor
    · rintro ⟨ho, hn⟩
      rw [Ordered, ElemsOrdered] at ho
      exact ⟨⟨ho.1, fun q hq => hn q (List.mem_append_left _ hq)⟩, by rw [Ordered]; exact ho.2,
        fun q hq => hn q (List.mem_append_right _ hq)⟩
    · rintro ⟨⟨ho, hn⟩, ho', hn'⟩
      rw [Ordered] at ho'
      refine ⟨by rw [Ordered, ElemsOrdered]; exact ⟨ho, ho'⟩, fun q hq => ?_⟩
      rcases List.mem_append.mp hq with hq | hq
      · exact hn q hq
      · exact hn' q hq

theorem stored_object {m : List (Str × Json)} : Stored P (.object m) ↔ SortedKeys m ∧ ∀ p ∈ m, Stored P p.2 := by
  have hmembers : (MembersOrdered m ∧ ∀ q ∈ members_numbers m, P q) ↔ ∀ p ∈ m, Stored P p.2 := by
    induction m with
    | nil => simp [MembersOrdered, members_numbers]
    | cons p m ih =>
      obtain ⟨k, x⟩ := p
      rw [List.forall_mem_cons, ← ih, MembersOrdered, members_numbers]
      constructor
      · rintro ⟨⟨ho, ho'⟩, hn⟩
        exact ⟨⟨ho, fun q hq => hn q (List.mem_append_left _ hq)⟩, ho', fun q hq => hn q (List.mem_append_right _ hq)⟩
      · rintro ⟨⟨ho, hn⟩, ho', hn'⟩
        refine ⟨⟨ho, ho'⟩, fun q hq => ?_⟩
        rcases List.mem_append.mp hq with hq | hq
        · exact hn q hq
        · exact hn' q hq
  rw [← hmembers]
  constructor
  · rintro ⟨ho, hn⟩
    rw [Ordered] at ho
    exact ⟨ho.1, ho.2, hn⟩
  · rintro ⟨hs, ho, hn⟩
    refine ⟨?_, hn⟩
    rw [Ordered]
    exact ⟨hs, ho⟩

theorem stored_string (s : Str) : Stored P (.string s) := ⟨by simp [Ordered], List.forall_mem_nil _⟩

theorem stored_number {q : Rat} : Stored P (.number q) ↔ P q :=
  ⟨fun h => h.numbers q (by simp [numbers]), fun h => ⟨by simp [Ordered], by simpa [numbers] using h⟩⟩

theorem stored_null : Stored P .null := ⟨by simp [Ordered], List.forall_mem_nil _⟩

theorem stored_boolean (b : Bool) : Stored P (.boolean b) := ⟨by simp [Ordered], List.forall_mem_nil _⟩

theorem elems_error_none {xs : List Json} : elems_error xs = none ↔ ∀ x ∈ xs, x.dump_error = none := by
  induction xs with
  | nil => simp [elems_error]
  | cons x xs ih => rw [elems_error, Option.or_eq_none_iff, List.forall_mem_cons, ih]

theorem members_error_none {m : List (Str × Json)} :
    members_error m = none ↔ ∀ p ∈ m, Wellformed 0 p.1 ∧ p.2.dump_error = none := by
  induction m with
  | nil => simp [members_error]
  | cons p m ih =>
    obtain ⟨k, x⟩ := p
    rw [members_error, Option.or_eq_none_iff, Option.or_eq_none_iff, List.forall_mem_cons, ih]
    rfl

theorem restorable_array {xs : List Json} : Restorable P (.array xs) ↔ ∀ x ∈ xs, Restorable P x := by
  constructor
  · rintro ⟨hk, hw⟩ x hx
    exact ⟨stored_array.mp hk x hx, elems_error_none.mp hw x hx⟩
  · intro h
    exact ⟨stored_array.mpr fun x hx => (h x hx).toStored, elems_error_none.mpr fun x hx => (h x hx).wellformed⟩

theorem restorable_object {m : List (Str × Json)} :
    Restorable P (.object m) ↔ SortedKeys m ∧ ∀ p ∈ m, RestorableMember P p := by
  constructor
  · rintro ⟨hk, hw⟩
    obtain ⟨hs, hkept⟩ := stored_object.mp hk
    exact ⟨hs, fun p hp => ⟨(members_error_none.mp hw p hp).1, hkept p hp, (members_error_none.mp hw p hp).2⟩⟩
  · rintro ⟨hs, hall⟩
    exact ⟨stored_object.mpr ⟨hs, fun p hp => (hall p hp).2.toStored⟩,
      members_error_none.mpr fun p hp => ⟨(hall p hp).1, (hall p hp).2.wellformed⟩⟩

theorem restorable_string {s : Str} : Restorable P (.string s) ↔ Wellformed 0 s :=
  ⟨fun h => h.wellformed, fun h => ⟨stored_string s, h⟩⟩

theorem restorable_number {q : Rat} : Restorable P (.number q) ↔ P q :=
  ⟨fun h => stored_number.mp h.toStored, fun h => ⟨stored_number.mpr h, rfl⟩⟩

end

/-! ## The text of a value is a text of the value -/

section
variable (strtod : Str → Option Rat)

/-- A token of the number. The library prints a number by its kind, so that one number has several
of these: `1` and `1.0`. -/
def NumberText (q : Rat) (u : Str) : Prop := ∃ t, scan strtod u = (t, []) ∧ t.number = some q

mutual
/-- The texts that `dump` may write for a value without ill-formed strings: each number in it is
printed as a text of this number, which need not be the same in another place. -/
inductive Dumps : Json → Str → Prop
  | null : Dumps .null (lit "null")
  | literal_true : Dumps (.boolean true) (lit "true")
  | literal_false : Dumps (.boolean false) (lit "false")
  | number {q u} (h : NumberText strtod q u) : Dumps (.number q) u
  | string {s} : Dumps (.string s) (string_text s)
  | array {xs l} (elements : ElementsDump xs l) : Dumps (.array xs) (lit "[" ++ comma_separated l ++ lit "]")
  | object {m l} (members : MembersDump m l) : Dumps (.object m) (lit "\x7b" ++ comma_separated l ++ lit "\x7d")

inductive ElementsDump : List Json → List Str → Prop
  | nil : ElementsDump [] []
  | cons {x u xs l} (value : Dumps x u) (elements : ElementsDump xs l) : ElementsDump (x :: xs) (u :: l)

inductive MembersDump : List (Str × Json) → List Str → Prop
  | nil : MembersDump [] []
  | cons {k x u m l} (value : Dumps x u) (members : MembersDump m l) :
    MembersDump ((k, x) :: m) ((string_text k ++ lit ":" ++ u) :: l)
end

theorem scan_structural {b : UInt8} {t : Token} (h : structural b = some t) (s : Str) : scan strtod (b :: s) = (t, s) := by
  have hspace : ∀ b, structural b ≠ none → is_whitespace b = false := forall_byte (by decide +kernel)
  have hb : is_whitespace b = false := hspace b (by simp [h])
  simp only [scan, List.dropWhile_cons, hb, Bool.false_eq_true, if_false, h]

theorem scan_quote (s : Str) : scan strtod (0x22 :: s) = scan_string s := rfl

theorem scan_text_string {s : Str} (h : Wellformed 0 s) (r : Str) :
    scan strtod (string_text s ++ r) = (.value_string s, r) := by
  rw [show string_text s = 0x22 :: (s.flatMap escape_sequence ++ [0x22]) from rfl, List.cons_append, scan_quote,
    List.append_assoc]
  exact scan_string_text h r

theorem stops_structural {b : UInt8} {t : Token} (h : structural b = some t) (r : Str) : Stops (b :: r) := by
  have hstops : ∀ b, structural b ≠ none → ∀ st : NumberState, st.next b = none := by
    intro b hb st
    revert b
    cases st <;> exact forall_byte (by decide +kernel)
  intro c hc
  cases hc
  exact hstops b (by simp [h])

theorem value_of_number {t : Token} {q : Rat} (h : t.number = some q) (s : Str) : Value strtod t s (.number q) s := by
  cases t with
  | value_unsigned x => cases h; exact .unsigned
  | value_integer x => cases h; exact .integer
  | value_float x => cases h; exact .float
  | _ => cases h

theorem put_all_sorted {m : List (Str × Json)} (h : SortedKeys m) : put_all m [] = m := by
  have hzip : m = (m.map Prod.fst).zip (m.map Prod.snd) := List.zip_of_prod rfl rfl
  have hm := inserted_ordered h (m.map Prod.snd)
  rwa [inserted, ← hzip] at hm

variable {strtod} {P : Rat → Prop}

mutual
theorem text_value {v : Json} {u : Str} : Dumps strtod v u → Restorable P v → ∀ {r : Str}, Stops r →
    ∃ t s, scan strtod (u ++ r) = (t, s) ∧ Value strtod t s v r
  | .null, _, r, _ => ⟨_, _, rfl, .literal_null⟩
  | .literal_true, _, r, _ => ⟨_, _, rfl, .literal_true⟩
  | .literal_false, _, r, _ => ⟨_, _, rfl, .literal_false⟩
  | .number hu, _, r, hr => by
    obtain ⟨t, hscan, ht⟩ := hu
    exact ⟨t, r, scan_append strtod hr hscan ht, value_of_number strtod ht r⟩
  | .string, h, r, _ => ⟨_, _, scan_text_string strtod (restorable_string.mp h) r, .string⟩
  | .array .nil, _, r, _ => ⟨_, _, scan_structural strtod rfl _, .empty_array (scan_structural strtod rfl r)⟩
  | .array (.cons value elements), h, r, _ => by
    obtain ⟨t, s, hscan, helems⟩ := elems_value (.cons value elements) (List.cons_ne_nil _ _) (restorable_array.mp h) r
    refine ⟨.begin_array, _, scan_structural strtod (b := 0x5B) rfl _, .array ?_ helems⟩
    rw [← hscan]
    exact congrArg (scan strtod) (List.append_assoc _ (lit "]") r)
  | .object .nil, _, r, _ => ⟨_, _, scan_structural strtod rfl _, .empty_object (scan_structural strtod rfl r)⟩
  | .object (.cons (k := k) (u := u) (l := us) value members), h, r, _ => by
    obtain ⟨hs, hm⟩ := restorable_object.mp h
    obtain ⟨t, s, hscan, hmembers⟩ := members_value (.cons value members) (List.cons_ne_nil _ _) hm r
    refine ⟨.begin_object, _, scan_structural strtod (b := 0x7B) rfl _, ?_⟩
    have hvalue := Value.object hscan hmembers
    rw [put_all_sorted hs] at hvalue
    show Value strtod .begin_object (comma_separated ((string_text k ++ lit ":" ++ u) :: us) ++ lit "\x7d" ++ r) _ r
    rw [List.append_assoc]
    exact hvalue
theorem elems_value {xs : List Json} {us : List Str} : ElementsDump strtod xs us → xs ≠ [] → (∀ x ∈ xs, Restorable P x) → ∀ r,
    ∃ t s, scan strtod (comma_separated us ++ 0x5D :: r) = (t, s) ∧ Elements strtod t s xs r
  | .nil, hne, _, _ => absurd rfl hne
  | .cons (x := x) value .nil, _, h, r => by
    obtain ⟨t, s, hscan, hvalue⟩ := text_value value (h x List.mem_cons_self) (stops_structural (b := 0x5D) rfl r)
    exact ⟨t, s, hscan, .last hvalue (scan_structural strtod rfl r)⟩
  | .cons (x := x) value (.cons (u := u) (l := us) next elements), _, h, r => by
    obtain ⟨t', s', hscan', helems⟩ :=
      elems_value (.cons next elements) (List.cons_ne_nil _ _) (fun z hz => h z (List.mem_cons_of_mem x hz)) r
    obtain ⟨t, s, hscan, hvalue⟩ := text_value value (h x List.mem_cons_self)
      (stops_structural (b := 0x2C) rfl (comma_separated (u :: us) ++ 0x5D :: r))
    refine ⟨t, s, ?_, .more hvalue (scan_structural strtod rfl _) hscan' helems⟩
    rw [← hscan]
    simp only [comma_separated, List.append_assoc]
    rfl
theorem members_value {m : List (Str × Json)} {us : List Str} : MembersDump strtod m us → m ≠ [] →
    (∀ p ∈ m, RestorableMember P p) → ∀ r,
    ∃ t s, scan strtod (comma_separated us ++ 0x7D :: r) = (t, s) ∧ Members strtod t s m r
  | .nil, hne, _, _ => absurd rfl hne
  | .cons (k := k) (x := x) value .nil, _, h, r => by
    obtain ⟨hk, hx⟩ := h (k, x) List.mem_cons_self
    obtain ⟨t, s, hscan, hvalue⟩ := text_value value hx (stops_structural (b := 0x7D) rfl r)
    refine ⟨_, _, ?_, .last (scan_structural strtod (b := 0x3A) rfl _) hscan hvalue (scan_structural strtod rfl r)⟩
    rw [← scan_text_string strtod hk]
    simp only [comma_separated, List.append_assoc]
    rfl
  | .cons (k := k) (x := x) value (.cons (k := k') (u := u) (l := us) next members), _, h, r => by
    obtain ⟨hk, hx⟩ := h (k, x) List.mem_cons_self
    obtain ⟨t', s', hscan', hmembers⟩ :=
      members_value (.cons next members) (List.cons_ne_nil _ _) (fun q hq => h q (List.mem_cons_of_mem (k, x) hq)) r
    obtain ⟨t, s, hscan, hvalue⟩ := text_value value hx
      (stops_structural (b := 0x2C) rfl (comma_separated ((string_text k' ++ lit ":" ++ u) :: us) ++ 0x7D :: r))
    refine ⟨_, _, ?_, .more (scan_structural strtod (b := 0x3A) rfl _) hscan hvalue
      (scan_structural strtod rfl _) hscan' hmembers⟩
    rw [← scan_text_string strtod hk]
    simp only [comma_separated, List.append_assoc]
    rfl
end

/-- What is read as a value has no byte order mark. -/
theorem skip_bom_of_scan {s : Str} (h : (scan strtod s).1 ≠ .parse_error) : skip_bom s = some s := by
  unfold skip_bom
  split
  · exact absurd rfl h
  · exact absurd rfl h
  · rfl

/-- A restorable value is parsed from its texts. -/
theorem parse_dump {v : Json} {u : Str} (hu : Dumps strtod v u) (h : Restorable P v) : parse strtod u = some v := by
  have hstops : Stops [] := fun b hb => by cases hb
  obtain ⟨t, s, hscan, hvalue⟩ := text_value hu h hstops
  rw [List.append_nil] at hscan
  have hne : (scan strtod u).1 ≠ .parse_error := by
    rw [hscan]
    rintro rfl
    cases (value_token hvalue).1
  refine parse_document ⟨_, [], skip_bom_of_scan hne, ?_, rfl⟩
  rw [hscan]
  exact hvalue

end

/-! ## What is parsed can be dumped -/

theorem put_sorted (k : Str) (v : Json) : ∀ {m : List (Str × Json)}, SortedKeys m → SortedKeys (put k v m)
  | [], _ => List.pairwise_singleton _ _
  | (k', v') :: m, h => by
    obtain ⟨hlt, hm⟩ := List.pairwise_cons.mp h
    unfold put
    split
    · rename_i hk
      subst hk
      exact h
    split
    · rename_i hk
      refine List.pairwise_cons.mpr ⟨fun a ha => ?_, h⟩
      rcases List.mem_cons.mp ha with rfl | ha
      · exact hk
      · exact List.lt_trans hk (hlt a ha)
    · rename_i hne hge
      refine List.pairwise_cons.mpr ⟨fun a ha => ?_, put_sorted k v hm⟩
      obtain ⟨p, hp, rfl⟩ := List.mem_map.mp ha
      rcases mem_put hp with hp | hp
      · rw [hp]
        rcases List.le_iff_lt_or_eq.mp (List.not_lt.mp hge) with hlt | heq
        · exact hlt
        · exact absurd heq.symm hne
      · exact hlt _ (List.mem_map_of_mem hp)

section
variable {P : Rat → Prop}

theorem eq_of_mem_put {k : Str} {v : Json} {p : Str × Json} {m : List (Str × Json)} (h : p ∈ put k v m)
    (hp : ¬ p ∈ m) : p = (k, v) := by
  induction m with
  | nil => exact List.mem_singleton.mp h
  | cons q m ih =>
    obtain ⟨k', v'⟩ := q
    unfold put at h
    split at h
    · rcases List.mem_cons.mp h with h | h
      · exact h
      · exact absurd (List.mem_cons_of_mem _ h) hp
    split at h
    · rcases List.mem_cons.mp h with h | h
      · exact h
      · exact absurd h hp
    · rcases List.mem_cons.mp h with h | h
      · exact absurd (h ▸ List.mem_cons_self) hp
      · exact ih h fun hm => hp (List.mem_cons_of_mem _ hm)

theorem stored_put {k : Str} {v : Json} {m : List (Str × Json)} (hv : Stored P v) (hm : Stored P (.object m)) :
    Stored P (.object (put k v m)) := by
  obtain ⟨hs, hall⟩ := stored_object.mp hm
  refine stored_object.mpr ⟨put_sorted k v hs, fun p hp => ?_⟩
  by_cases hmem : p ∈ m
  · exact hall p hmem
  · rw [eq_of_mem_put hp hmem]
    exact hv

theorem restorable_put {k : Str} {v : Json} {m : List (Str × Json)} (hk : Wellformed 0 k) (hv : Restorable P v)
    (hm : Restorable P (.object m)) : Restorable P (.object (put k v m)) := by
  refine ⟨stored_put hv.toStored hm.toStored, members_error_none.mpr fun p hp => ?_⟩
  by_cases hmem : p ∈ m
  · exact members_error_none.mp hm.wellformed p hmem
  · rw [eq_of_mem_put hp hmem]
    exact ⟨hk, hv.wellformed⟩

theorem restorable_put_all {ms : List (Str × Json)} (h : ∀ p ∈ ms, RestorableMember P p) {m : List (Str × Json)}
    (hm : Restorable P (.object m)) : Restorable P (.object (put_all ms m)) := by
  induction ms generalizing m with
  | nil => exact hm
  | cons p ms ih =>
    obtain ⟨hk, hv⟩ := h p List.mem_cons_self
    exact ih (fun q hq => h q (List.mem_cons_of_mem p hq)) (restorable_put hk hv hm)

end

section
variable (strtod : Str → Option Rat)

def Lexed (q : Rat) : Prop := ∃ s, (scan strtod s).1.number = some q

theorem number_token_string (t : NumberType) (s x : Str) : number_token strtod t s ≠ .value_string x := by
  unfold number_token
  split
  · split <;> simp
  · split <;> simp
  · simp

theorem scan_number_string (b : UInt8) (s x : Str) : (scan_number strtod b s).1 ≠ .value_string x := by
  simp only [scan_number]
  split
  · exact number_token_string strtod _ _ _
  · simp

theorem scan_other_wellformed {b : UInt8} {s x : Str} (h : (scan_other strtod b s).1 = .value_string x) : Wellformed 0 x := by
  have hliteral : ∀ {t l}, t ≠ .value_string x → (scan_literal t l s).1 ≠ .value_string x := by
    intro t l ht hscan
    rcases scan_literal_token t l s with h | h
    · exact ht (h.symm.trans hscan)
    · cases h.symm.trans hscan
  unfold scan_other at h
  split at h
  · exact absurd h (hliteral (by simp))
  split at h
  · exact absurd h (hliteral (by simp))
  split at h
  · exact absurd h (hliteral (by simp))
  split at h
  · exact scan_string_wellformed (Prod.ext h rfl)
  split at h
  · exact absurd h (scan_number_string strtod b s x)
  · split at h <;> cases h

/-- The strings that the lexer makes can be dumped. -/
theorem scan_wellformed {s x : Str} (h : (scan strtod s).1 = .value_string x) : Wellformed 0 x := by
  unfold scan at h
  split at h
  · cases h
  · split at h
    · rename_i t hstruct
      cases h
      exact absurd (structural_token hstruct) (by simp)
    · exact scan_other_wellformed strtod h

mutual
theorem value_restorable {t : Token} {s : Str} {v : Json} {s' : Str} : Value strtod t s v s' → (∃ u, scan strtod u = (t, s)) →
    Restorable (Lexed strtod) v
  | .literal_null, _ => ⟨stored_null, rfl⟩
  | .literal_true, _ => ⟨stored_boolean true, rfl⟩
  | .literal_false, _ => ⟨stored_boolean false, rfl⟩
  | .string, ⟨u, hu⟩ => restorable_string.mpr (scan_wellformed strtod (congrArg Prod.fst hu))
  | .unsigned, ⟨u, hu⟩ => restorable_number.mpr ⟨u, by rw [hu]; rfl⟩
  | .integer, ⟨u, hu⟩ => restorable_number.mpr ⟨u, by rw [hu]; rfl⟩
  | .float, ⟨u, hu⟩ => restorable_number.mpr ⟨u, by rw [hu]; rfl⟩
  | .empty_array _, _ => restorable_array.mpr (List.forall_mem_nil _)
  | .array first elements, _ => restorable_array.mpr (elements_restorable elements ⟨_, first⟩)
  | .empty_object _, _ => restorable_object.mpr ⟨List.Pairwise.nil, List.forall_mem_nil _⟩
  | .object first members, _ =>
    restorable_put_all (members_restorable members ⟨_, first⟩)
      (restorable_object.mpr ⟨List.Pairwise.nil, List.forall_mem_nil _⟩)
theorem elements_restorable {t : Token} {s : Str} {xs : List Json} {s' : Str} : Elements strtod t s xs s' →
    (∃ u, scan strtod u = (t, s)) → ∀ x ∈ xs, Restorable (Lexed strtod) x
  | .last value _, hu => List.forall_mem_singleton.mpr (value_restorable value hu)
  | .more value _ next elements, hu =>
    List.forall_mem_cons.mpr ⟨value_restorable value hu, elements_restorable elements ⟨_, next⟩⟩
theorem members_restorable {t : Token} {s : Str} {ms : List (Str × Json)} {s' : Str} : Members strtod t s ms s' →
    (∃ u, scan strtod u = (t, s)) → ∀ p ∈ ms, RestorableMember (Lexed strtod) p
  | .last _ first value _, ⟨u, hu⟩ =>
    List.forall_mem_singleton.mpr ⟨scan_wellformed strtod (congrArg Prod.fst hu), value_restorable value ⟨_, first⟩⟩
  | .more _ first value _ next members, ⟨u, hu⟩ =>
    List.forall_mem_cons.mpr ⟨⟨scan_wellformed strtod (congrArg Prod.fst hu), value_restorable value ⟨_, first⟩⟩,
      members_restorable members ⟨_, next⟩⟩
end

theorem parse_restorable {s : Str} {v : Json} (h : parse strtod s = some v) : Restorable (Lexed strtod) v := by
  obtain ⟨s₀, s₁, -, hv, -⟩ := document_of_parse h
  exact value_restorable strtod hv ⟨s₀, rfl⟩

/-! ## Round trips -/

/-- **The fast writer is read back**: `dump_integer` writes the decimal text, whatever its buffer
held, and the parser makes the integer of it. -/
theorem integers_read_back {number_buffer : Str} (h : number_buffer.length = 64) {x : Int} (hmin : - 2 ^ 63 < x)
    (hmax : x < 2 ^ 64) :
    dump_integer number_buffer x = lit (toString x) ∧ parse strtod (dump_integer number_buffer x) = some (.number x) := by
  have htext : dump_integer number_buffer x = lit (toString x) := dump_integer_eq (by omega) (by omega)
  have hdump : Dumps strtod (.number x) (lit (toString x)) := .number (scan_integer_text strtod (by omega) hmax)
  refine ⟨htext, ?_⟩
  rw [htext]
  exact parse_dump (P := fun _ => True) hdump (restorable_number.mpr trivial)

theorem negative_integer_read_back : dump_integer (List.replicate 64 0x37) (-1048576) = lit (toString (-1048576 : Int)) ∧
    parse (fun _ => none) (dump_integer (List.replicate 64 0x37) (-1048576)) = some (.number (-1048576 : Int)) :=
  integers_read_back _ (by simp) (by decide) (by decide)

variable {strtod}

/-- **A value is read back from its dump** if and only if it is one that the library can hold and
write: ordered members, well-formed strings, and numbers of the lexer. -/
theorem parse_dump_iff {v : Json} {u : Str} (hu : Dumps strtod v u) :
    (v.dump_error = none ∧ parse strtod u = some v) ↔ Restorable (Lexed strtod) v :=
  ⟨fun h => parse_restorable strtod h.2, fun h => ⟨h.wellformed, parse_dump hu h⟩⟩

end

/-! ## Numbers of two kinds -/

def one_strtod (s : Str) : Option Rat := if s = lit "1.0" then some 1 else none

/-- The number 1 as it was read, an integer or not. -/
theorem one_dumps : Dumps one_strtod (.object [(lit "a", .array [.number 1, .number 1]), (lit "b", .string (lit "x\""))])
    (lit "\x7b\"a\":[1.0,1],\"b\":\"x\\\"\"\x7d") := by
  have hfloat : NumberText one_strtod 1 (lit "1.0") := ⟨.value_float (some 1), rfl, rfl⟩
  have hunsigned : NumberText one_strtod 1 (lit "1") := ⟨.value_unsigned 1, rfl, by simp [Token.number]⟩
  exact .object (.cons (.array (.cons (.number hfloat) (.cons (.number hunsigned) .nil))) (.cons .string .nil))

theorem ones_read_back :
    ((Json.object [(lit "a", .array [.number 1, .number 1]), (lit "b", .string (lit "x\""))]).dump_error = none ∧
      parse one_strtod (lit "\x7b\"a\":[1.0,1],\"b\":\"x\\\"\"\x7d") =
        some (.object [(lit "a", .array [.number 1, .number 1]), (lit "b", .string (lit "x\""))])) ↔
      Restorable (Lexed one_strtod) (.object [(lit "a", .array [.number 1, .number 1]), (lit "b", .string (lit "x\""))]) :=
  parse_dump_iff one_dumps

end VrpcAgent.Json

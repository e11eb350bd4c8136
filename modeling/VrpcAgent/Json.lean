import Mathlib.Data.List.Basic

/-!
# JSON values and their exceptions

The part of the vendored JSON library (`json.hpp`) that the agent uses: values,
`operator[]`, `get<std::string>`, `push_back`, and the UTF-8 check that `dump`
makes on every string. Strings are byte strings, as in C++; an object is a
`std::map`, kept as the list of its members in key order.
-/

namespace VrpcAgent

abbrev Str := List UInt8

instance Str.decidableMem (x : Str) (l : List Str) : Decidable (x ∈ l) := inferInstance

def lit (s : String) : Str := s.toList.map fun c => c.toNat.toUInt8

inductive Json where
  | null
  | boolean (b : Bool)
  | number (q : Rat)
  | string (s : Str)
  | array (xs : List Json)
  | object (m : List (Str × Json))
  deriving Inhabited

/-- What the JSON library, the MQTT library and R (through Rcpp) throw. -/
inductive Exn where
  | type_error (id : Nat) (msg : Str)
  | parse_error
  | packet_id_exhausted_error
  | utf8string_length_error
  | positive_overflow
  | remaining_length_error
  | r_error (msg : Str)
  deriving DecidableEq

def Exn.what : Exn → Str
  | .type_error id msg => lit "[json.exception.type_error." ++ lit (Nat.repr id) ++ lit "] " ++ msg
  | .parse_error => lit "parse error"
  | .packet_id_exhausted_error => lit "packet_id exhausted error"
  | .utf8string_length_error => lit "utf8string length error"
  | .positive_overflow => lit "bad numeric conversion: positive overflow"
  | .remaining_length_error => lit "remaining length error"
  | .r_error msg => msg

namespace Json

def type_name : Json → Str
  | .null => lit "null"
  | .boolean _ => lit "boolean"
  | .number _ => lit "number"
  | .string _ => lit "string"
  | .array _ => lit "array"
  | .object _ => lit "object"

/-! ## Objects -/

def find (k : Str) (m : List (Str × Json)) : Option Json := m.lookup k

/-- `m[k] = v` on a `std::map`. -/
def put (k : Str) (v : Json) : List (Str × Json) → List (Str × Json)
  | [] => [(k, v)]
  | (k', v') :: m =>
    if k = k' then (k, v) :: m else if k < k' then (k, v) :: (k', v') :: m else (k', v') :: put k v m

@[simp] theorem find_put_self (k : Str) (v : Json) : ∀ m, find k (put k v m) = some v
  | [] => by simp [find, put]
  | (k', v') :: m => by
    unfold put; split
    · simp [find]
    · rename_i hk
      split
      · simp [find]
      · have := find_put_self k v m
        simp only [find] at this ⊢
        rw [List.lookup_cons, beq_false_of_ne hk, this]

theorem find_put_of_ne {k k' : Str} (h : k' ≠ k) (v : Json) : ∀ m, find k' (put k v m) = find k' m
  | [] => by simp [find, put, h]
  | (a, w) :: m => by
    have ih := find_put_of_ne h v m
    unfold put; split
    · rename_i ha; subst ha
      simp only [find, List.lookup_cons, beq_false_of_ne h]
    · split
      · simp only [find, List.lookup_cons, beq_false_of_ne h]
      · simp only [find, List.lookup_cons] at ih ⊢
        rw [ih]

/-! ## Access -/

def key_error (j : Json) : Exn :=
  .type_error 305 (lit "cannot use operator[] with a string argument with " ++ j.type_name)

def idx_error (j : Json) : Exn :=
  .type_error 305 (lit "cannot use operator[] with a numeric argument with " ++ j.type_name)

/-- `j[k] = v`; a null value becomes an object first. -/
def set_key (j : Json) (k : Str) (v : Json) : Except Exn Json :=
  match j with
  | .null => .ok (.object [(k, v)])
  | .object m => .ok (.object (put k v m))
  | j => .error (key_error j)

/-- `j[k]` on a mutable value: the value read, and `j` after it (a missing key
is added with the value null). -/
def at_key (j : Json) (k : Str) : Except Exn (Json × Json) :=
  match j with
  | .null => .ok (.null, .object [(k, .null)])
  | .object m =>
    match find k m with
    | some v => .ok (v, .object m)
    | none => .ok (.null, .object (put k .null m))
  | j => .error (key_error j)

/-- The value `j[i]` on a mutable value: null when the array is filled up to
`i`. -/
def at_idx (j : Json) (i : Nat) : Except Exn Json :=
  match j with
  | .null => .ok .null
  | .array xs => .ok (xs.getD i .null)
  | j => .error (idx_error j)

def get_string : Json → Except Exn Str
  | .string s => .ok s
  | j => .error (.type_error 302 (lit "type must be string, but is " ++ j.type_name))

def tail : Json → List Json
  | .array xs => xs.drop 1
  | _ => []

/-! ## Values that take members: objects, and null, which becomes one -/

def members : Json → Option (List (Str × Json))
  | .null => some []
  | .object m => some m
  | _ => none

def member (k : Str) (m : List (Str × Json)) : Json := (find k m).getD .null

def touch (k : Str) (m : List (Str × Json)) : List (Str × Json) :=
  if (find k m).isSome then m else put k .null m

theorem set_key_eq {j : Json} {m : List (Str × Json)} (h : j.members = some m) (k : Str) (v : Json) :
    j.set_key k v = .ok (.object (put k v m)) := by
  cases j <;> cases h <;> rfl

theorem set_key_none {j : Json} (h : j.members = none) (k : Str) (v : Json) :
    j.set_key k v = .error j.key_error := by
  cases j <;> first | rfl | cases h

theorem at_key_eq {j : Json} {m : List (Str × Json)} (h : j.members = some m) (k : Str) :
    j.at_key k = .ok (member k m, .object (touch k m)) := by
  cases j with
  | null => cases h; rfl
  | object m' =>
    cases h
    cases hf : find k m <;> simp [at_key, hf, member, touch]
  | _ => cases h

@[simp] theorem member_put_self (k : Str) (v : Json) (m : List (Str × Json)) : member k (put k v m) = v := by
  simp [member]

theorem member_put_of_ne {k k' : Str} (h : k' ≠ k) (v : Json) (m : List (Str × Json)) :
    member k' (put k v m) = member k' m := by
  rw [member, find_put_of_ne h, member]

theorem find_touch_of_ne {k k' : Str} (h : k' ≠ k) (m : List (Str × Json)) :
    find k' (touch k m) = find k' m := by
  unfold touch; split
  · rfl
  · exact find_put_of_ne h _ m

@[simp] theorem member_touch (k k' : Str) (m : List (Str × Json)) : member k' (touch k m) = member k' m := by
  unfold touch; split
  · rfl
  · rename_i hk
    by_cases h : k' = k
    · subst h
      rw [member_put_self, member, Option.not_isSome_iff_eq_none.mp hk]; rfl
    · exact member_put_of_ne h _ m

theorem touch_eq {k : Str} {m : List (Str × Json)} (h : (find k m).isSome) : touch k m = m := if_pos h

/-! ## The UTF-8 check of `dump` -/

/-- The character class of a byte: the first 256 entries of `utf8d`. -/
def utf8_type (b : UInt8) : Nat :=
  let n := b.toNat
  if n < 0x80 then 0 else if n < 0x90 then 1 else if n < 0xA0 then 9 else if n < 0xC0 then 7
  else if n < 0xC2 then 8 else if n < 0xE0 then 2 else if n = 0xE0 then 0xA else if n < 0xED then 3
  else if n = 0xED then 4 else if n < 0xF0 then 3 else if n = 0xF0 then 0xB else if n < 0xF4 then 6
  else if n = 0xF4 then 5 else 8

/-- The transitions: the other entries of `utf8d`, a row for each state. -/
def utf8_rows : List (List Nat) :=
  [[0, 1, 2, 3, 5, 8, 7, 1, 1, 1, 4, 6, 1, 1, 1, 1],
   [1, 1, 1, 1, 1, 1, 1, 1, 1, 1, 1, 1, 1, 1, 1, 1],
   [1, 0, 1, 1, 1, 1, 1, 0, 1, 0, 1, 1, 1, 1, 1, 1],
   [1, 2, 1, 1, 1, 1, 1, 2, 1, 2, 1, 1, 1, 1, 1, 1],
   [1, 1, 1, 1, 1, 1, 1, 2, 1, 1, 1, 1, 1, 1, 1, 1],
   [1, 2, 1, 1, 1, 1, 1, 1, 1, 2, 1, 1, 1, 1, 1, 1],
   [1, 1, 1, 1, 1, 1, 1, 3, 1, 3, 1, 1, 1, 1, 1, 1],
   [1, 3, 1, 1, 1, 1, 1, 3, 1, 3, 1, 1, 1, 1, 1, 1],
   [1, 3, 1, 1, 1, 1, 1, 1, 1, 1, 1, 1, 1, 1, 1, 1]]

def decode (state : Nat) (byte : UInt8) : Nat := ((utf8_rows.getD state []).getD (utf8_type byte) 1)

def hex_digit (n : Nat) : UInt8 := if n < 10 then (48 + n).toUInt8 else (55 + n).toUInt8

def hex (b : UInt8) : Str := [hex_digit (b.toNat / 16), hex_digit (b.toNat % 16)]

/-- The scan of `dump_escaped` with the strict error handler, from byte `i` on
in state `state`; `last` is the byte before. -/
def dump_escaped (state i : Nat) (last : UInt8) : Str → Option Exn
  | [] =>
    if state = 0 then none
    else some (.type_error 316 (lit "incomplete UTF-8 string; last byte: 0x" ++ hex last))
  | b :: s =>
    if decode state b = 1 then
      some (.type_error 316 (lit "invalid UTF-8 byte at index " ++ lit (Nat.repr i) ++ lit ": 0x" ++ hex b))
    else dump_escaped (decode state b) (i + 1) b s

mutual
/-- What `dump` throws: the first ill-formed string, in the order it writes
them. -/
def dump_error : Json → Option Exn
  | .string s => dump_escaped 0 0 0 s
  | .array xs => elems_error xs
  | .object m => members_error m
  | _ => none
def elems_error : List Json → Option Exn
  | [] => none
  | x :: xs => (dump_error x).or (elems_error xs)
def members_error : List (Str × Json) → Option Exn
  | [] => none
  | (k, v) :: m => ((dump_escaped 0 0 0 k).or (dump_error v)).or (members_error m)
end

end Json

end VrpcAgent

import VrpcAgent.JsonLexer

/-!
# The parser of the JSON library

`parser` and `json_sax_dom_parser` of `json.hpp`: a loop over the tokens with a stack of
open arrays and objects. It accepts exactly the texts of the grammar, and makes of them
the values that the grammar gives them.
-/

namespace VrpcAgent.Json

open Loops

/-! ## Building the value -/

/-- What `ref_stack` refers to: an array, or an object and the key of its next member. -/
inductive Container where
  | array (xs : List Json)
  | object (m : List (Str × Json)) (object_element : Str)

def Container.value : Container → Json
  | .array xs => .array xs
  | .object m _ => .object m

def Container.add (v : Json) : Container → Container
  | .array xs => .array (xs ++ [v])
  | .object m k => .object (put k v m) k

/-- `json_sax_dom_parser`. A container is put in its place when it is closed, and not
referred to from there. -/
structure Sax where
  root : Json
  ref_stack : List Container

def Sax.handle_value (sax : Sax) (v : Json) : Sax :=
  match sax.ref_stack with
  | [] => ⟨v, []⟩
  | c :: st => ⟨sax.root, c.add v :: st⟩

def Sax.start_object (sax : Sax) : Sax := { sax with ref_stack := .object [] [] :: sax.ref_stack }

def Sax.start_array (sax : Sax) : Sax := { sax with ref_stack := .array [] :: sax.ref_stack }

def Sax.key (sax : Sax) (k : Str) : Sax :=
  match sax.ref_stack with
  | .object m _ :: st => { sax with ref_stack := .object (touch k m) k :: st }
  | _ => sax

/-- `end_object` and `end_array`. -/
def Sax.close (sax : Sax) : Sax :=
  match sax.ref_stack with
  | [] => sax
  | c :: st => Sax.handle_value ⟨sax.root, st⟩ c.value

/-! ## The loop -/

/-- The state of `sax_parse_internal` at the head of its loop; in `states`, an array is true. -/
structure Parser where
  input : Str
  last_token : Token
  states : List Bool
  sax : Sax
  skip_to_state_evaluation : Bool

section
variable (strtod : Str → Option Rat)

def Parser.get_token (p : Parser) : Parser :=
  { p with last_token := (scan strtod p.input).1, input := (scan strtod p.input).2 }

def Parser.parse_key (p : Parser) : Next Parser (Option (Sax × Str)) :=
  match p.last_token with
  | .value_string k =>
    let p := Parser.get_token strtod { p with sax := p.sax.key k }
    if p.last_token = .name_separator then .go (p.get_token strtod) else .halt none
  | _ => .halt none

def Parser.evaluate_state (p : Parser) : Next Parser (Option (Sax × Str)) :=
  match p.states with
  | [] => .halt (some (p.sax, p.input))
  | true :: states =>
    let p := p.get_token strtod
    if p.last_token = .value_separator then .go (p.get_token strtod)
    else if p.last_token = .end_array then
      .go { p with sax := p.sax.close, states, skip_to_state_evaluation := true }
    else .halt none
  | false :: states =>
    let p := p.get_token strtod
    if p.last_token = .value_separator then (p.get_token strtod).parse_key strtod
    else if p.last_token = .end_object then
      .go { p with sax := p.sax.close, states, skip_to_state_evaluation := true }
    else .halt none

def Parser.handle_value (p : Parser) (v : Json) : Next Parser (Option (Sax × Str)) :=
  Parser.evaluate_state strtod { p with sax := p.sax.handle_value v }

def Parser.parse_value (p : Parser) : Next Parser (Option (Sax × Str)) :=
  match p.last_token with
  | .begin_object =>
    let p := Parser.get_token strtod { p with sax := p.sax.start_object }
    if p.last_token = .end_object then Parser.evaluate_state strtod { p with sax := p.sax.close }
    else Parser.parse_key strtod { p with states := false :: p.states }
  | .begin_array =>
    let p := Parser.get_token strtod { p with sax := p.sax.start_array }
    if p.last_token = .end_array then Parser.evaluate_state strtod { p with sax := p.sax.close }
    else .go { p with states := true :: p.states }
  | .value_float none => .halt none
  | .value_float (some x) => p.handle_value strtod (.number x)
  | .literal_false => p.handle_value strtod (.boolean false)
  | .literal_null => p.handle_value strtod .null
  | .literal_true => p.handle_value strtod (.boolean true)
  | .value_integer x => p.handle_value strtod (.number x)
  | .value_string s => p.handle_value strtod (.string s)
  | .value_unsigned x => p.handle_value strtod (.number x)
  | _ => .halt none

def Parser.step (p : Parser) : Next Parser (Option (Sax × Str)) :=
  if p.skip_to_state_evaluation then Parser.evaluate_state strtod { p with skip_to_state_evaluation := false }
  else p.parse_value strtod

def Parser.size (p : Parser) : Nat := p.input.length + if p.skip_to_state_evaluation || p.last_token.live then 1 else 0

def sax_parse_internal (p : Parser) : Option (Option (Sax × Str)) := run (Parser.step strtod) Parser.size p

/-- `json::parse`; nothing where it throws. -/
def parse (s : Str) : Option Json :=
  match skip_bom s with
  | none => none
  | some s =>
    match sax_parse_internal strtod ⟨(scan strtod s).2, (scan strtod s).1, [], ⟨.null, []⟩, false⟩ with
    | some (some (sax, rest)) => if (scan strtod rest).1 = .end_of_input then some sax.root else none
    | _ => none

end

end VrpcAgent.Json

import VrpcAgent.Json
import VrpcAgent.Allocator
import VrpcAgent.Effects
import Mathlib.Logic.Function.Basic

/-!
# The agent process

`start_vrpc_agent.cpp`: the globals of the C++ process, the connack and publish
handlers, and `on_execution_done`, which a fork calls with its own copy of the
globals.
-/

namespace VrpcAgent

open Function

/-! ## Topics -/

structure Tokenizer where
  output : List Str
  /-- The bytes from `beg` on. -/
  token : Str
  in_token : Bool

/-- `std::bitset<255>`; an access past its end reads as false. -/
def delims (delimiters : Str) : List Bool :=
  delimiters.foldl (fun d code => d.set code.toNat true) (List.replicate 255 false)

def tokenize_step (d : List Bool) (t : Tokenizer) (c : UInt8) : Tokenizer :=
  if d.getD c.toNat false then
    if t.in_token then { t with output := t.output ++ [t.token], in_token := false } else t
  else if !t.in_token then { t with token := [c], in_token := true }
  else { t with token := t.token ++ [c] }

def tokenize (input delimiters : Str) : List Str :=
  let t := input.foldl (tokenize_step (delims delimiters)) ⟨[], [], false⟩
  if t.in_token then t.output ++ [t.token] else t.output

/-! ## The process state -/

inductive Packet where
  | publish (topic : Str) (payload : Json) (retain : Bool)
  | subscribe (topic_filter : Str)
  | unsubscribe (topic_filter : Str)

/-- A packet on the connection. Every packet has quality of service 1; a payload
is kept as the value whose dump it is. -/
structure Sent where
  id : Nat
  packet : Packet

structure Msg where
  topic : Str
  contents : Str

/-- What the agent takes from the JSON library, the MQTT library and the host:
`parse` is `json::parse`, `refuse` the exception a packet's constructor throws (a
topic of more than 65535 bytes, a packet beyond the largest remaining length). -/
structure Host where
  parse : Str → Option Json
  refuse : Packet → Option Exn
  hostname : Str

structure Options where
  domain : Str
  agent : Str
  version : Str
  functions : List Str

/-- The globals; `pids` is the packet identifier allocator of `client`. -/
structure Agent where
  instances : List Str
  call_id : Int32
  awaited_callbacks : Int32 → Option Json
  pids : Allocator

/-- The arguments of `vrpc_call`; `memory` is the process at that moment, which
the fork gets a copy of. -/
structure VrpcCall where
  func_name : Str
  string_args : Json
  call_id : Int32
  instance_id : Option Str
  memory : Agent

/-- A handler at work: the process, its local `j`, what it has written to the
connection, and the call it has handed to R. -/
structure Frame where
  agent : Agent
  j : Json
  out : List Sent
  call : Option VrpcCall

abbrev M := EStateM Exn Frame

def ofExcept {α : Type} : Except Exn α → M α
  | .ok a => pure a
  | .error e => throw e

/-! ## Writing to the connection -/

/-- `client->publish`, `subscribe` and `unsubscribe`: an identifier is acquired
before the packet is built, and is not given back when that throws. -/
def send (host : Host) (p : Packet) : M Unit := do
  let s ← get
  match s.agent.pids.allocate with
  | none => throw .packet_id_exhausted_error
  | some (id, pids) =>
    set { s with agent := { s.agent with pids } }
    match host.refuse p with
    | some e => throw e
    | none => modify fun s => { s with out := s.out ++ [⟨id, p⟩] }

def dump (j : Json) : M Json :=
  match j.dump_error with
  | some e => throw e
  | none => pure j

/-- `client->publish(j["s"].get<std::string>(), j.dump(), at_least_once)`. -/
def publish_reply (host : Host) : M Unit := do
  let (v, j) ← ofExcept ((← get).j.at_key (lit "s"))
  modify fun s => { s with j }
  let s ← ofExcept v.get_string
  let payload ← dump j
  send host (.publish s payload false)

def set_j (k : Str) (v : Json) : M Unit := do
  let j ← ofExcept ((← get).j.set_key k v)
  modify fun s => { s with j }

/-! ## Retained messages -/

def strings (l : List Str) : Json := .array (l.map .string)

def agent_info_topic (opts : Options) : Str := opts.domain ++ lit "/" ++ opts.agent ++ lit "/__agentInfo__"

def class_info_topic (opts : Options) : Str :=
  opts.domain ++ lit "/" ++ opts.agent ++ lit "/Session/__classInfo__"

def protocol_version : Json := .number 3

def agent_info (host : Host) (opts : Options) : Json :=
  .object <| Json.put (lit "v") protocol_version <| Json.put (lit "version") (.string opts.version) <|
    Json.put (lit "hostname") (.string host.hostname) <| Json.put (lit "status") (.string (lit "online")) []

def class_info (opts : Options) (instances : List Str) : Json :=
  .object <| Json.put (lit "v") protocol_version <| Json.put (lit "meta") .null <|
    Json.put (lit "memberFunctions") (strings ([lit "call"] ++ opts.functions)) <|
    Json.put (lit "staticFunctions") (strings ([lit "__createShared__", lit "call"] ++ opts.functions)) <|
    Json.put (lit "instances") (strings instances) <| Json.put (lit "className") (.string (lit "Session")) []

def publish_agent_info (host : Host) (opts : Options) : M Unit := do
  let payload ← dump (agent_info host opts)
  send host (.publish (agent_info_topic opts) payload true)

def publish_class_info (host : Host) (opts : Options) : M Unit := do
  let payload ← dump (class_info opts (← get).agent.instances)
  send host (.publish (class_info_topic opts) payload true)

/-! ## The connack handler -/

def base_topic (opts : Options) : Str :=
  opts.domain ++ lit "/" ++ opts.agent ++ lit "/Session/__static__/"

def subscribe_all (host : Host) (base : Str) : List Str → M Unit
  | [] => pure ()
  | x :: xs => do
    send host (.subscribe (base ++ x))
    subscribe_all host base xs

def connack_handler (host : Host) (opts : Options) : M Unit := do
  publish_agent_info host opts
  let base := base_topic opts
  send host (.subscribe (base ++ lit "__createShared__"))
  send host (.subscribe (base ++ lit "__delete__"))
  send host (.subscribe (base ++ lit "call"))
  subscribe_all host base opts.functions
  publish_class_info host opts

/-! ## The publish handler -/

def instance_filter (opts : Options) (x : Str) : Str :=
  opts.domain ++ lit "/" ++ opts.agent ++ lit "/Session/" ++ x ++ lit "/+"

/-- The Rcpp call of `vrpc_call`. `mc` is what it comes to in R: the fork is
started, or an R error is raised before the session directory is made. -/
def vrpc_call (mc : Except Str Unit) (func_name : Str) (args : Json) (inst : Option Str) : M Unit := do
  let args ← dump args
  match mc with
  | .error msg => throw (.r_error msg)
  | .ok () => modify fun s => { s with call := some ⟨func_name, args, s.agent.call_id, inst, s.agent⟩ }

def create_shared (host : Host) (opts : Options) (args : Json) : M Unit := do
  let new_instance ← ofExcept (args.at_idx 0 >>= Json.get_string)
  send host (.subscribe (instance_filter opts new_instance))
  modify fun s => { s with agent := { s.agent with instances := s.agent.instances ++ [new_instance] } }
  publish_class_info host opts
  set_j (lit "r") (.string new_instance)
  publish_reply host

def delete (host : Host) (opts : Options) (args : Json) : M Unit := do
  let del_instance ← ofExcept (args.at_idx 0 >>= Json.get_string)
  send host (.unsubscribe (instance_filter opts del_instance))
  if del_instance ∈ (← get).agent.instances then
    modify fun s => { s with agent := { s.agent with instances := s.agent.instances.erase del_instance } }
    publish_class_info host opts
    set_j (lit "r") (.boolean true)
    publish_reply host
  else
    set_j (lit "r") (.boolean false)
    publish_reply host

/-- The call branches: the generic `call` takes the name of the R function from
its first argument. -/
def call_r (mc : Except Str Unit) (function : Str) (args : Json) (inst : Option Str) : M Unit :=
  if function = lit "call" then do
    let r_function ← ofExcept (args.at_idx 0 >>= Json.get_string)
    vrpc_call mc r_function (.array args.tail) inst
  else vrpc_call mc function args inst

def handle_request (host : Host) (opts : Options) (mc : Except Str Unit) (class_name inst function : Str) :
    M Unit := do
  set_j (lit "c") (.string (if inst = lit "__static__" then class_name else inst))
  set_j (lit "f") (.string function)
  modify fun s =>
    let call_id := s.agent.call_id + 1
    { s with agent := { s.agent with
      call_id, awaited_callbacks := update s.agent.awaited_callbacks call_id (some s.j) } }
  let (args, j) ← ofExcept ((← get).j.at_key (lit "a"))
  modify fun s => { s with j }
  if inst = lit "__static__" then
    if function = lit "__createShared__" then create_shared host opts args
    else if function = lit "__delete__" then delete host opts args
    else call_r mc function args none
  else call_r mc function args (some inst)

def report_error (host : Host) (e : Exn) : M Unit := do
  set_j (lit "e") (.string (lit "Error while calling remote function: " ++ e.what))
  publish_reply host

def publish_handler (host : Host) (opts : Options) (mc : Except Str Unit) (m : Msg) : M Bool := do
  let tokens := tokenize m.topic (lit "/")
  if tokens.length = 4 ∧ tokens.getD 3 [] = lit "__clientInfo__" then return true
  if tokens.length ≠ 5 then return true
  match host.parse m.contents with
  | none => throw .parse_error
  | some j => do
    modify fun s => { s with j }
    tryCatch (handle_request host opts mc (tokens.getD 2 []) (tokens.getD 3 []) (tokens.getD 4 []))
      (report_error host)
    return true

/-! ## The reply of a fork -/

def err_mark : Str := lit "__err__"

def on_execution_done (host : Host) (id : Int32) (ret : Str) : M Unit := do
  modify fun s => { s with j := (s.agent.awaited_callbacks id).getD .null }
  modify fun s => { s with agent := { s.agent with
    awaited_callbacks := update s.agent.awaited_callbacks id none } }
  if 7 ≤ ret.length ∧ ret.take 7 = err_mark then set_j (lit "e") (.string (ret.drop 7))
  else set_j (lit "r") ((host.parse ret).getD (.string ret))
  publish_reply host

end VrpcAgent

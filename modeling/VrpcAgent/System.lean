import VrpcAgent.Requests
import VrpcAgent.Adapter
import VrpcAgent.Runs

/-!
# The agent, its forks and the connection

`Sessions` is the R side on its own: the session files and the forks. `System`
adds the parent process and the connection that all of them write to. Requests
are numbered by the events that deliver them; the fork of a request has its
number.
-/

namespace VrpcAgent

open Function Effects Runs

/-! ## The R side -/

/-- `genv` is the global environment of the agent, which every fork starts with a
copy of. -/
structure Sessions (V : Type) where
  genv : Env V
  fs : FS V
  forks : Nat → Option (Fork V)

inductive SessionEvent where
  | call (k : Nat) (c : VrpcCall) (tmp : Str)
  | step (k : Nat)

section
variable {V : Type} (host : Host) (opts : Options) (R : RLib V)

def Sessions.call (s : Sessions V) (k : Nat) (c : VrpcCall) (tmp : Str) : Sessions V :=
  match s.forks k with
  | some _ => s
  | none =>
    let components := session_components tmp c.instance_id
    { s with
      fs := create_session_dir s.fs components
      forks := update s.forks k (some ⟨c, components, s.genv, .forked⟩) }

def Sessions.step (s : Sessions V) : SessionEvent → Sessions V
  | .call k c tmp => s.call k c tmp
  | .step k =>
    match s.forks k with
    | none => s
    | some f =>
      let r := json_call_step host R s.fs f
      { s with fs := r.1, forks := update s.forks k (some { f with stage := r.2 }) }

/-! ## The whole system -/

inductive Origin where
  | connack
  | handler (k : Nat)
  | fork (k : Nat)
  deriving DecidableEq

structure Entry where
  origin : Origin
  sent : Sent

structure Delivery where
  msg : Msg
  returned : Bool

/-- `log` is what has been written to the connection, `unacked` the part of it
that has not been acknowledged. -/
structure System (V : Type) where
  agent : Agent
  running : Bool
  sessions : Sessions V
  deliveries : Nat → Option Delivery
  log : List Entry
  unacked : List Sent

/-- `mc` and `tmp` are what R does with the call of a request: whether the fork is
started, and the name of its temporary directory. -/
inductive Event where
  | deliver (k : Nat) (m : Msg) (mc : Except Str Unit) (tmp : Str)
  | step (k : Nat)
  | ack (i : Nat)

/-- The instance a request creates (true) or deletes (false). -/
def asked : Event → Option (Str × Bool)
  | .deliver _ m mc _ =>
    match (request host m).map (Request.action · mc) with
    | some (.create x) => some (x, true)
    | some (.delete x) => some (x, false)
    | _ => none
  | _ => none

def called : Event → Option Str
  | .deliver _ m mc _ =>
    match (request host m).map (Request.action · mc) with
    | some (.call _ _ inst) => inst
    | _ => none
  | _ => none

def Stage.sent : Stage V → List Sent
  | .replied _ _ _ sent => sent
  | _ => []

def Sessions.fork_writes (s : Sessions V) (k : Nat) : List Sent :=
  match s.forks k with
  | none => []
  | some f =>
    match f.stage with
    | .replied .. => []
    | _ => (json_call_step host R s.fs f).2.sent

def Sessions.start (s : Sessions V) (k : Nat) (tmp : Str) : Option VrpcCall → Sessions V
  | none => s
  | some c => s.call k c tmp

def System.deliver (s : System V) (k : Nat) (m : Msg) (mc : Except Str Unit) (tmp : Str) : System V :=
  let r := handled host opts mc m s.agent
  { agent := (after r).agent
    running := returns r
    sessions := s.sessions.start k tmp (after r).call
    deliveries := update s.deliveries k (some ⟨m, returns r⟩)
    log := s.log ++ (after r).out.map (⟨.handler k, ·⟩)
    unacked := s.unacked ++ (after r).out }

/-- The parent alone handles messages and reads acknowledgements; an exception
that leaves the handler ends it. -/
def System.step (s : System V) : Event → System V
  | .deliver k m mc tmp =>
    if s.running = true ∧ (s.deliveries k).isNone then s.deliver host opts k m mc tmp else s
  | .step k =>
    { s with
      sessions := s.sessions.step host R (.step k)
      log := s.log ++ (s.sessions.fork_writes host R k).map (⟨.fork k, ·⟩)
      unacked := s.unacked ++ s.sessions.fork_writes host R k }
  | .ack i =>
    match s.unacked[i]? with
    | none => s
    | some p =>
      if s.running then
        { s with
          agent := { s.agent with pids := s.agent.pids.deallocate p.id }
          unacked := s.unacked.eraseIdx i }
      else s

def written (log : List Entry) (o : Origin) : List Sent := (log.filter (·.origin = o)).map (·.sent)

def Agent.new : Agent := ⟨[], 0, fun _ => none, .new⟩

def System.start (genv : Env V) (fs : FS V) : System V :=
  let r := (connack_handler host opts).run ⟨Agent.new, .null, [], none⟩
  { agent := (after r).agent
    running := returns r
    sessions := ⟨genv, fs, fun _ => none⟩
    deliveries := fun _ => none
    log := (after r).out.map (⟨.connack, ·⟩)
    unacked := (after r).out }

def reached (genv : Env V) (fs : FS V) (evs : List Event) : System V :=
  run (System.step host opts R) (System.start host opts genv fs) evs

end

/-! ## A small host

It parses the texts of some requests with string arguments, and accepts every
packet. -/

def request_text (t : Str) (args : List Str) : Str :=
  lit "\x7b\"s\":" ++ quoted t ++ lit ",\"a\":[" ++ (lit ",").intercalate (args.map quoted) ++ lit "]\x7d"

def request_value (t : Str) (args : List Str) : Json := .object [(lit "a", strings args), (lit "s", .string t)]

def small_host (requests : List (Str × List Str)) : Host where
  parse text := (requests.map fun q => (request_text q.1 q.2, request_value q.1 q.2)).lookup text
  refuse _ := none
  hostname := lit "host"

def small_options : Options := ⟨lit "d", lit "a", lit "1", []⟩

def small_request (inst function : String) (t : Str) (args : List Str) : Msg :=
  ⟨lit "d/a/Session/" ++ lit inst ++ lit "/" ++ lit function, request_text t args⟩

end VrpcAgent

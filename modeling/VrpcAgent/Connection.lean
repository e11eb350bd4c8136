import VrpcAgent.Replies
import VrpcAgent.Wire
import VrpcAgent.SharedStream

/-!
# The byte stream of the connection

All processes write to one socket. A process is in its write loop until the
socket has taken every byte of its packets, and nothing keeps another process
from writing in between. The stream is well framed as long as no process begins
a packet while another one is in the middle of one.
-/

namespace VrpcAgent

open Function Runs

/-! ## Processes and their writes -/

inductive Process where
  | parent
  | fork (k : Nat)
  deriving DecidableEq

def Origin.process : Origin → Process
  | .fork k => .fork k
  | _ => .parent

def Event.process : Event → Process
  | .step k => .fork k
  | _ => .parent

def Entry.wire (x : Entry) : WirePacket := .sent x.sent

/-- `handed` is what the processes have handed to the socket, `line` what the socket
has taken of it, both from the accepted connection on. -/
structure Connection (V : Type) where
  system : System V
  handed : List (Process × WirePacket)
  line : SharedStream.State Process WirePacket UInt8

inductive SocketEvent where
  | sys (e : Event)
  | puback (id : Nat)
  | write (p : Process) (n : Nat)

def Connection.blocked {V : Type} (s : Connection V) (p : Process) : Prop := s.line.rest p ≠ [] ∨ s.line.queue p ≠ []

instance {V : Type} (s : Connection V) (p : Process) : Decidable (s.blocked p) :=
  decidable_of_iff ((s.line.rest p).isEmpty = false ∨ (s.line.queue p).isEmpty = false) (by
    simp [Connection.blocked])

section
variable {V : Type} (text : Json → Str) (host : Host) (opts : Options) (R : RLib V)

def Connection.hand (s : Connection V) (p : Process) (ps : List WirePacket) : Connection V :=
  { s with
    handed := s.handed ++ ps.map (p, ·)
    line := SharedStream.step (wire_bytes text) s.line (.post p ps) }

/-- A blocked process does not go on. The acknowledgement of an incoming message is
written by the parent. -/
def Connection.step (s : Connection V) : SocketEvent → Connection V
  | .sys e =>
    if s.blocked e.process then s
    else
      let system := s.system.step host opts R e
      { s with system }.hand text e.process
        ((system.log.drop s.system.log.length).map Entry.wire)
  | .puback id => if s.blocked .parent then s else s.hand text .parent [.puback id]
  | .write p n => { s with line := SharedStream.step (wire_bytes text) s.line (.write p n) }

def Connection.start (genv : Env V) (fs : FS V) : Connection V :=
  let system := System.start host opts genv fs
  Connection.hand text ⟨system, [], SharedStream.init⟩ .parent (system.log.map Entry.wire)

/-! ## The invariant -/

def WritesAlone (s : Connection V) : SocketEvent → Prop
  | .write p n => SharedStream.BeginsAlone s.line (.write p n)
  | _ => True

def sent_entry : Process × WirePacket → Option (Process × Sent)
  | (p, .sent x) => some (p, x)
  | (_, .puback _) => none

/-- What has been handed over is what the processes have written, and what the
socket has begun or still has to take. -/
structure Carried (s : Connection V) : Prop where
  handed : s.handed.filterMap sent_entry = s.system.log.map fun e => (e.origin.process, e.sent)
  posted : ∀ p, SharedStream.posted s.line p = SharedStream.packets_of p s.handed

theorem log_step (s : System V) (e : Event) :
    ∃ new, (s.step host opts R e).log = s.log ++ new ∧ ∀ x ∈ new, x.origin.process = e.process := by
  cases e with
  | deliver k m mc tmp =>
    simp only [System.step]
    split
    · refine ⟨_, rfl, fun x hx => ?_⟩
      obtain ⟨y, -, rfl⟩ := List.mem_map.mp hx
      rfl
    · exact ⟨[], (List.append_nil _).symm, fun x hx => by cases hx⟩
  | step k =>
    refine ⟨_, rfl, fun x hx => ?_⟩
    obtain ⟨y, -, rfl⟩ := List.mem_map.mp hx
    rfl
  | ack i =>
    refine ⟨[], ?_, fun x hx => by cases hx⟩
    simp only [System.step, List.append_nil]
    split
    · rfl
    · split <;> rfl

theorem sent_entries {p : Process} : ∀ {l : List Entry}, (∀ x ∈ l, x.origin.process = p) →
    ((l.map Entry.wire).map (p, ·)).filterMap sent_entry = l.map fun e => (e.origin.process, e.sent)
  | [], _ => rfl
  | x :: l, h => by
    have ih := sent_entries fun y hy => h y (List.mem_cons_of_mem x hy)
    have hx := h x List.mem_cons_self
    simp only [List.map_cons, List.filterMap_cons, Entry.wire, sent_entry] at ih ⊢
    rw [ih, hx]

theorem posted_hand (s : Connection V) (p : Process) (ps : List WirePacket)
    (h : ∀ q, SharedStream.posted s.line q = SharedStream.packets_of q s.handed) (q : Process) :
    SharedStream.posted (s.hand text p ps).line q = SharedStream.packets_of q (s.hand text p ps).handed := by
  simp only [Connection.hand, SharedStream.posted_post, SharedStream.packets_of_append, h q]
  by_cases hq : q = p
  · subst hq
    rw [if_pos rfl, SharedStream.packets_of_map_self]
  · rw [if_neg hq, SharedStream.packets_of_map_of_ne (Ne.symm hq)]

theorem carried_start (genv : Env V) (fs : FS V) : Carried (Connection.start text host opts genv fs) where
  handed := by
    have h : ∀ x ∈ (System.start host opts genv fs).log, x.origin.process = .parent := by
      intro x hx
      obtain ⟨y, -, rfl⟩ := List.mem_map.mp hx
      rfl
    simp only [Connection.start, Connection.hand, List.nil_append]
    exact sent_entries h
  posted := posted_hand text _ _ _ fun q => rfl

theorem carried_step {s : Connection V} (h : Carried s) (e : SocketEvent) :
    Carried (s.step text host opts R e) := by
  cases e with
  | sys e =>
    simp only [Connection.step]
    split
    · exact h
    · obtain ⟨new, hlog, hnew⟩ := log_step host opts R s.system e
      constructor
      · simp only [Connection.hand, List.filterMap_append, h.handed, hlog, List.drop_left, List.map_append]
        rw [sent_entries hnew]
      · exact posted_hand text _ _ _ h.posted
  | puback id =>
    simp only [Connection.step]
    split
    · exact h
    · constructor
      · simp only [Connection.hand, List.filterMap_append, h.handed]
        exact List.append_nil _
      · exact posted_hand text _ _ _ h.posted
  | write p n =>
    refine ⟨h.handed, fun q => ?_⟩
    simp only [Connection.step, SharedStream.posted_write]
    exact h.posted q

theorem framed_socket_step {s : Connection V} {p : Process} (h : SharedStream.Framed (wire_bytes text) s.line p)
    {e : SocketEvent} (he : WritesAlone s e) :
    ∃ q, SharedStream.Framed (wire_bytes text) (s.step text host opts R e).line q := by
  cases e with
  | sys e =>
    simp only [Connection.step]
    split
    · exact ⟨p, h⟩
    · exact ⟨p, h.others, h.bytes⟩
  | puback id =>
    simp only [Connection.step]
    split
    · exact ⟨p, h⟩
    · exact ⟨p, h.others, h.bytes⟩
  | write q n =>
    have halone : SharedStream.BeginsAlone s.line (.write q n) := he
    exact SharedStream.framed_step (wire_bytes text) h halone

theorem run_carried {s : Connection V} {p : Process} (hc : Carried s)
    (hf : SharedStream.Framed (wire_bytes text) s.line p) {evs : List SocketEvent}
    (hrun : Along (Connection.step text host opts R) WritesAlone s evs) :
    Carried (run (Connection.step text host opts R) s evs) ∧
      ∃ q, SharedStream.Framed (wire_bytes text) (run (Connection.step text host opts R) s evs).line q := by
  refine run_inv (P := fun s => Carried s ∧ ∃ q, SharedStream.Framed (wire_bytes text) s.line q) ?_
    ⟨hc, p, hf⟩ hrun
  intro s e hs he
  obtain ⟨hc, q, hf⟩ := hs
  exact ⟨carried_step text host opts R hc e, framed_socket_step text host opts R hf he⟩

/-! ## The stream -/

/-- The stream, with the rest of a packet that some process is in the middle of, is
made of packets that the processes have written, each process's in its order. -/
structure WellFramed (s : Connection V) (packets : List (Process × WirePacket)) (rest : Str) : Prop where
  bytes : s.line.stream ++ rest = packets.flatMap fun q => wire_bytes text q.2
  written : ∀ p, SharedStream.packets_of p packets <+: SharedStream.packets_of p s.handed
  rest : rest ≠ [] → ∃ p, s.line.rest p = rest
  whole : (∀ p, ¬ s.blocked p) → ∀ p, SharedStream.packets_of p packets = SharedStream.packets_of p s.handed

/-- **The stream is well framed** in every run in which the processes write their
packets one at a time. -/
theorem stream_is_framed (genv : Env V) (fs : FS V) {evs : List SocketEvent}
    (hrun : Along (Connection.step text host opts R) WritesAlone
      (Connection.start text host opts genv fs) evs) :
    let s := run (Connection.step text host opts R) (Connection.start text host opts genv fs) evs
    (∃ packets rest, WellFramed text s packets rest) ∧
      s.handed.filterMap sent_entry = s.system.log.map fun e => (e.origin.process, e.sent) := by
  have hframed : SharedStream.Framed (wire_bytes text)
      (Connection.start text host opts genv fs).line .parent :=
    SharedStream.framed_post _ (SharedStream.framed_init _ _) _ _
  obtain ⟨hc, p, hf⟩ := run_carried text host opts R
    (carried_start text host opts genv fs) hframed hrun
  refine ⟨⟨_, _, hf.bytes, fun q => ?_, fun _ => ⟨p, rfl⟩, fun hnone q => ?_⟩, hc.handed⟩
  · rw [← hc.posted q]
    exact List.prefix_append _ _
  · have hq : (run (Connection.step text host opts R)
        (Connection.start text host opts genv fs) evs).line.queue q = [] := by
      by_contra hne
      exact hnone q (Or.inr hne)
    rw [← hc.posted q, SharedStream.posted, hq, List.append_nil]

/-! ## Turns -/

/-- Each process writes its packets to their ends before another one writes; `p` is the last that
has written. -/
def one_at_a_time (s : Connection V) (p : Process) : List SocketEvent → Bool
  | [] => true
  | .write q n :: evs =>
    (decide (q = p) || (s.line.rest p).isEmpty) && one_at_a_time (s.step text host opts R (.write q n)) q evs
  | e :: evs => one_at_a_time (s.step text host opts R e) p evs

theorem along_one_at_a_time : ∀ {evs : List SocketEvent} {s : Connection V} {p : Process}, SharedStream.OneWriter s.line p →
    one_at_a_time text host opts R s p evs = true → Along (Connection.step text host opts R) WritesAlone s evs
  | [], _, _, _, _ => trivial
  | .write q n :: evs, s, p, h, hone => by
    rw [one_at_a_time, Bool.and_eq_true, Bool.or_eq_true, decide_eq_true_eq, List.isEmpty_iff] at hone
    obtain ⟨halone, hnext⟩ := SharedStream.one_writer_write (wire_bytes text) h hone.1 n
    exact ⟨halone, along_one_at_a_time hnext hone.2⟩
  | .sys e :: evs, s, p, h, hone => by
    refine ⟨trivial, along_one_at_a_time (p := p) (fun j hj => ?_) hone⟩
    simp only [Connection.step]
    split <;> exact h j hj
  | .puback id :: evs, s, p, h, hone => by
    refine ⟨trivial, along_one_at_a_time (p := p) (fun j hj => ?_) hone⟩
    simp only [Connection.step]
    split <;> exact h j hj

end

/-! ## Two forks at once -/

def digit_text : Json → Str := Json.text fun q => [(48 + q.num.toNat).toUInt8]

abbrev socket_start : Connection Str :=
  Connection.start digit_text two_calls_host small_options (fun _ => none) (fun _ => none)

abbrev socket_run (evs : List SocketEvent) : Connection Str :=
  run (Connection.step digit_text two_calls_host small_options small_R) socket_start evs

def writers_in_turn : List SocketEvent :=
  List.replicate 5 (.write .parent 1000) ++ two_calls.map .sys ++
    [.write (.fork 0) 0, .write (.fork 0) 1000, .write (.fork 1) 1000]

theorem forks_in_turn_are_framed :
    let s := socket_run writers_in_turn
    (∃ packets rest, WellFramed digit_text s packets rest) ∧
      s.handed.filterMap sent_entry = s.system.log.map fun e => (e.origin.process, e.sent) := by
  have hturns : one_at_a_time digit_text two_calls_host small_options small_R socket_start .parent writers_in_turn =
      true := by
    decide +kernel
  have halone := along_one_at_a_time digit_text two_calls_host small_options small_R (fun _ _ => rfl) hturns
  unfold socket_run socket_start
  unfold socket_start at halone
  exact stream_is_framed digit_text two_calls_host small_options small_R (fun _ => none) (fun _ => none) halone

/-- Both forks have replies to write. The first one writes a byte, the second one all
of its reply, and the first one the rest. -/
def two_writers : List SocketEvent :=
  List.replicate 5 (.write .parent 1000) ++ two_calls.map .sys ++
    [.write (.fork 0) 0, .write (.fork 1) 1000, .write (.fork 0) 1000]

theorem two_forks_break_the_stream :
    ¬ ∀ evs, (∀ q ∈ (socket_run evs).handed, ¬ (socket_run evs).blocked q.1) →
      ∃ packets : List (Process × WirePacket), (∀ q ∈ packets, q ∈ (socket_run evs).handed) ∧
        (socket_run evs).line.stream = packets.flatMap fun q => wire_bytes digit_text q.2 := by
  intro h
  have hnone : ∀ q ∈ (socket_run two_writers).handed, ¬ (socket_run two_writers).blocked q.1 := by decide +kernel
  obtain ⟨packets, hmem, hstream⟩ := h two_writers hnone
  rw [List.flatMap_def] at hstream
  have hne : ∀ w ∈ (socket_run two_writers).handed.map (fun q => wire_bytes digit_text q.2), w ≠ [] := by decide +kernel
  have hwords : ∀ w ∈ packets.map (fun q => wire_bytes digit_text q.2),
      w ∈ (socket_run two_writers).handed.map fun q => wire_bytes digit_text q.2 := by
    intro w hw
    obtain ⟨q, hq, rfl⟩ := List.mem_map.mp hw
    exact List.mem_map_of_mem (hmem q hq)
  have hlength : (packets.map fun q => wire_bytes digit_text q.2).flatten.length ≤ 2000 := by
    rw [← hstream]; decide +kernel
  have hsplit := SharedStream.splits_flatten hne hwords hlength
  rw [← hstream] at hsplit
  exact absurd hsplit (by decide +kernel)

end VrpcAgent

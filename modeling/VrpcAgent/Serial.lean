import VrpcAgent.Forks
import VrpcAgent.Register
import Mathlib.Data.List.Permutation

/-!
# Serializability of the calls on one session

A call on a session is a transaction on its `.RData`: it reads the file when it
attaches the session and writes it when it saves. Nothing orders two calls, so
one may lose the other's assignments; when no call attaches the session while
another one is between attaching and saving it, every interleaving has the
effect of a serial run.
-/

namespace VrpcAgent

open Function Runs PartialMap

section
variable {V : Type}

/-! ## A call as a transaction -/

/-- The session directory after the first call: where it is, if it can be entered,
and whether the session files can be written there. -/
structure Place where
  cwd : Option Path
  writable : Bool

def place (fs : FS V) (components : List Str) : Place :=
  let fs := create_session_dir fs components
  match walk fs [] components with
  | none => ⟨none, false⟩
  | some cwd => ⟨some cwd, session_files.all fun f => !Node.isDir (fs (cwd ++ [f]))⟩

variable (host : Host) (R : RLib V)

def transaction (genv : Env V) (pl : Place) (c : VrpcCall) (v : Option (Node V)) : Option (Node V) × Outcome :=
  match pl.cwd with
  | none => (v, none)
  | some _ =>
    match load genv v with
    | none => (v, none)
    | some sc =>
      match evaluate_call R c.func_name c.string_args sc with
      | none => (v, none)
      | some ev => (some (.rdata ev.scope.genv), if pl.writable then reply host R c ev else none)

section
variable {host R} {genv : Env V} {pl : Place} {c : VrpcCall} {v : Option (Node V)} {sc : Scope V} {ev : Evaluation V}

theorem transaction_unloaded (h : ∀ cwd, pl.cwd = some cwd → load genv v = none) :
    transaction host R genv pl c v = (v, none) := by
  unfold transaction
  cases hc : pl.cwd with
  | none => rfl
  | some cwd => simp only [h cwd hc]

theorem transaction_unevaluated (hl : load genv v = some sc) (he : evaluate_call R c.func_name c.string_args sc = none) :
    transaction host R genv pl c v = (v, none) := by
  unfold transaction
  cases hc : pl.cwd with
  | none => rfl
  | some cwd => simp only [hl, he]

theorem transaction_evaluated {cwd : Path} (hc : pl.cwd = some cwd) (hl : load genv v = some sc)
    (he : evaluate_call R c.func_name c.string_args sc = some ev) :
    transaction host R genv pl c v = (some (.rdata ev.scope.genv), if pl.writable then reply host R c ev else none) := by
  simp only [transaction, hc, hl, he]

end

/-! ## The simulation -/

def Holds (genv : Env V) (c : VrpcCall) (held : Option (Option (Node V))) (outcome : Option Outcome) : Stage V → Prop
  | .forked => held = none ∧ outcome = none
  | .attached sc => outcome = none ∧ ∃ v, held = some v ∧ load genv v = some sc
  | .evaluated sc ev => outcome = none ∧ ∃ v, held = some v ∧ load genv v = some sc ∧
      evaluate_call R c.func_name c.string_args sc = some ev
  | .saved _ ev => held = none ∧ outcome = some (reply host R c ev)
  | .replied _ _ out sent => held = none ∧ outcome = some (some (out, sent))
  | .dead => held = none ∧ outcome = some none

abbrev Txn (V : Type) := Register.State Nat (Option (Node V)) Outcome

/-- `s` is a state of the calls on a session that started in `s₀`, and `r` the
state of the transactions. -/
structure Simulates (s₀ : Sessions V) (components : List Str) (calls : Nat → VrpcCall) (s : Sessions V) (r : Txn V) :
    Prop where
  genv : s.genv = s₀.genv
  dirs : ∀ p, Node.isDir (create_session_dir s.fs components p) =
    Node.isDir (create_session_dir s₀.fs components p)
  fresh : (∀ k, s.forks k = none) → s.fs = s₀.fs
  ready : ∀ k f, s.forks k = some f → create_session_dir s.fs components = s.fs
  value : ∀ cwd, (place s₀.fs components).cwd = some cwd →
    r.value = create_session_dir s.fs components (cwd ++ [lit ".RData"])
  idle : ∀ k, s.forks k = none → r.held k = none ∧ r.result k = none
  fork : ∀ k f, s.forks k = some f → f.call = calls k ∧ f.session_dir = components ∧ f.genv = s₀.genv ∧
    Holds host R s₀.genv (calls k) (r.held k) (r.result k) f.stage

variable {s₀ : Sessions V} {x : Str} {calls : Nat → VrpcCall} {s : Sessions V} {r : Txn V}

theorem place_cwd (fs : FS V) (cs : List Str) : (place fs cs).cwd = walk (create_session_dir fs cs) [] cs := by
  unfold place
  cases h : walk (create_session_dir fs cs) [] cs <;> simp [h]

theorem place_writable {fs : FS V} {cs : List Str} {cwd : Path} (h : (place fs cs).cwd = some cwd) :
    (place fs cs).writable = true ↔
      ∀ f ∈ session_files, Node.isDir (create_session_dir fs cs (cwd ++ [f])) = false := by
  rw [place_cwd] at h
  simp [place, h]

theorem Simulates.walk_eq {cs : List Str} (h : Simulates host R s₀ cs calls s r) {k : Nat} {f : Fork V}
    (hf : s.forks k = some f) : walk s.fs [] cs = (place s₀.fs cs).cwd := by
  rw [place_cwd, ← h.ready k f hf]
  exact walk_congr h.dirs cs []

theorem Simulates.move {cs : List Str} (h : Simulates host R s₀ cs calls s r) {k : Nat} {f : Fork V}
    (hf : s.forks k = some f) {fs' : FS V} {st : Stage V} {r' : Txn V}
    (hdirs : ∀ p, Node.isDir (fs' p) = Node.isDir (s.fs p))
    (hvalue : ∀ cwd, (place s₀.fs cs).cwd = some cwd → r'.value = fs' (cwd ++ [lit ".RData"]))
    (hfs : (place s₀.fs cs).cwd = none → fs' = s.fs)
    (hother : ∀ k', k' ≠ k → r'.held k' = r.held k' ∧ r'.result k' = r.result k')
    (hholds : Holds host R s₀.genv (calls k) (r'.held k) (r'.result k) st) :
    Simulates host R s₀ cs calls
      { s with fs := fs', forks := update s.forks k (some { f with stage := st }) } r' := by
  have hready : create_session_dir fs' cs = fs' := by
    have hw := h.walk_eq host R hf
    cases hc : (place s₀.fs cs).cwd with
    | none => rw [hfs hc]; exact h.ready k f hf
    | some cwd =>
      rw [hc, ← walk_congr hdirs] at hw
      exact create_session_dir_of_walk hw
  refine ⟨h.genv, fun p => ?_, fun hnone => ?_, fun _ _ _ => hready, fun cwd hc => ?_, fun k' hk' => ?_,
    fun k' f' hk' => ?_⟩
  · rw [hready, hdirs, ← h.ready k f hf]; exact h.dirs p
  · have := hnone k; simp at this
  · rw [hready]; exact hvalue cwd hc
  · obtain ⟨hne, hk'⟩ := update_eq_none_iff.mp hk'
    rw [(hother k' hne).1, (hother k' hne).2]
    exact h.idle k' hk'
  · rcases update_eq_some_iff.mp hk' with ⟨rfl, rfl⟩ | ⟨hne, hk'⟩
    · obtain ⟨hc, hd, hg, -⟩ := h.fork k' f hf
      exact ⟨hc, hd, hg, hholds⟩
    · rw [(hother k' hne).1, (hother k' hne).2]
      exact h.fork k' f' hk'

/-! ## Steps of a fork -/

def txn (s₀ : Sessions V) (cs : List Str) (calls : Nat → VrpcCall) (k : Nat) :
    Option (Node V) → Option (Node V) × Outcome :=
  transaction host R s₀.genv (place s₀.fs cs) (calls k)

section
variable {cs : List Str} {k : Nat} {f : Fork V} (h : Simulates host R s₀ cs calls s r) (hf : s.forks k = some f)
include h hf

theorem Simulates.value_eq {cwd : Path} (hw : walk s.fs [] cs = some cwd) :
    r.value = s.fs (cwd ++ [lit ".RData"]) := by
  rw [h.walk_eq host R hf] at hw
  rw [h.value cwd hw, h.ready k f hf]

theorem Simulates.holds {st : Stage V} (hst : f.stage = st) :
    Holds host R s₀.genv (calls k) (r.held k) (r.result k) st := hst ▸ (h.fork k f hf).2.2.2

theorem Simulates.move_quiet {st : Stage V} {r' : Txn V} (hv : r'.value = r.value)
    (hother : ∀ k', k' ≠ k → r'.held k' = r.held k' ∧ r'.result k' = r.result k')
    (hholds : Holds host R s₀.genv (calls k) (r'.held k) (r'.result k) st) :
    Simulates host R s₀ cs calls { s with fs := s.fs, forks := update s.forks k (some { f with stage := st }) } r' :=
  h.move host R hf (fun _ => rfl)
    (fun cwd hc => by rw [hv, h.value_eq host R hf (by rw [h.walk_eq host R hf, hc])]) (fun _ => rfl) hother hholds

theorem Simulates.dies : Simulates host R s₀ cs calls
    { s with fs := s.fs, forks := update s.forks k (some { f with stage := .dead }) }
    ⟨r.value, update r.held k none, update r.result k (some none)⟩ :=
  h.move_quiet host R hf rfl (fun _ hk => ⟨update_of_ne hk .., update_of_ne hk ..⟩) ⟨update_self .., update_self ..⟩

def Matched (s₀ : Sessions V) (cs : List Str) (calls : Nat → VrpcCall) (k : Nat) (s' : Sessions V) (r : Txn V) : Prop :=
  ∃ ops, Along (Register.step (txn host R s₀ cs calls)) (fun r op => Register.Exclusive r op ∧ op.owner = k) r ops ∧
    Simulates host R s₀ cs calls s' (run (Register.step (txn host R s₀ cs calls)) r ops)

theorem Simulates.step_forked (hid : (calls k).instance_id = some x) (hst : f.stage = .forked)
    (hfree : ∀ k', r.held k' = none) : Matched host R s₀ cs calls k (s.step host R (.step k)) r := by
  obtain ⟨hc, hd, hg, -⟩ := h.fork k f hf
  obtain ⟨hh, hr⟩ : r.held k = none ∧ r.result k = none := h.holds host R hf hst
  have hstep : s.step host R (.step k) = { s with
      fs := (json_call_step host R s.fs f).1
      forks := update s.forks k (some { f with stage := (json_call_step host R s.fs f).2 }) } := by
    simp only [Sessions.step, hf]
  have hload : ∀ cwd, walk s.fs [] cs = some cwd →
      attach_session s.fs cwd f.call.instance_id f.genv = load s₀.genv r.value := by
    intro cwd hw
    rw [hc, hid, hg, attach_session_some, h.value_eq host R hf hw]
  rw [hstep]
  rcases VrpcAgent.step_forked host R s.fs hst with ⟨hj, hno⟩ | ⟨cwd, sc, hw, ha, hj⟩
  · refine ⟨[.read k, .write k], ⟨⟨⟨hfree, hr⟩, rfl⟩, ⟨trivial, rfl⟩, trivial⟩, ?_⟩
    have ht : txn host R s₀ cs calls k r.value = (r.value, none) := transaction_unloaded fun cwd hcwd => by
      have hw : walk s.fs [] cs = some cwd := by rw [h.walk_eq host R hf, hcwd]
      rw [← hload cwd hw]; exact hno cwd (by rw [hd]; exact hw)
    simp only [run_cons, run_nil, Register.step, update_self, ht, update_idem, hj]
    exact h.dies host R hf
  · refine ⟨[.read k], ⟨⟨⟨hfree, hr⟩, rfl⟩, trivial⟩, ?_⟩
    rw [hd] at hw
    rw [hload cwd hw] at ha
    simp only [run_cons, run_nil, Register.step, hj]
    exact h.move_quiet host R hf rfl (fun _ hk => ⟨update_of_ne hk .., rfl⟩) ⟨hr, r.value, update_self .., ha⟩

theorem Simulates.step_attached {sc : Scope V} (hst : f.stage = .attached sc)
    (hheld : ∀ u, r.held k = some u → u = r.value) : Matched host R s₀ cs calls k (s.step host R (.step k)) r := by
  obtain ⟨hc, -, -, -⟩ := h.fork k f hf
  obtain ⟨hr, v, hh, hl⟩ := h.holds host R hf hst
  obtain rfl := hheld v hh
  simp only [Sessions.step, hf]
  rcases VrpcAgent.step_attached host R s.fs hst with ⟨he, hj⟩ | ⟨ev, he, hj⟩
  · refine ⟨[.write k], ⟨⟨trivial, rfl⟩, trivial⟩, ?_⟩
    rw [hc] at he
    have ht : txn host R s₀ cs calls k r.value = (r.value, none) := transaction_unevaluated hl he
    simp only [run_cons, run_nil, Register.step, hh, ht, hj]
    exact h.dies host R hf
  · refine ⟨[], trivial, ?_⟩
    simp only [run_nil, hj]
    exact h.move_quiet host R hf rfl (fun _ _ => ⟨rfl, rfl⟩) ⟨hr, r.value, hh, hl, hc ▸ he⟩

theorem Simulates.step_evaluated (hid : (calls k).instance_id = some x) {sc : Scope V} {ev : Evaluation V}
    (hst : f.stage = .evaluated sc ev) (hheld : ∀ u, r.held k = some u → u = r.value) :
    Matched host R s₀ cs calls k (s.step host R (.step k)) r := by
  obtain ⟨hc, hd, -, -⟩ := h.fork k f hf
  obtain ⟨hr, v, hh, hl, he⟩ := h.holds host R hf hst
  obtain rfl := hheld v hh
  have hw' := h.walk_eq host R hf
  refine ⟨[.write k], ⟨⟨trivial, rfl⟩, trivial⟩, ?_⟩
  simp only [Sessions.step, hf, run_cons, run_nil, Register.step, hh]
  rcases VrpcAgent.step_evaluated host R s.fs hst with ⟨hw, hj⟩ | ⟨cwd, hw, hj⟩
  · rw [hd, hw'] at hw
    have ht : txn host R s₀ cs calls k r.value = (r.value, none) :=
      transaction_unloaded fun cwd hcwd => by rw [hw] at hcwd; cases hcwd
    simp only [ht, hj]
    exact h.dies host R hf
  · rw [hd] at hw
    rw [hc, hid] at hj
    have hcwd : (place s₀.fs cs).cwd = some cwd := by rw [← hw', hw]
    have ht : txn host R s₀ cs calls k r.value = (some (.rdata ev.scope.genv),
        if (place s₀.fs cs).writable then reply host R (calls k) ev else none) := transaction_evaluated hcwd hl he
    have hdir : Node.isDir (s.fs (cwd ++ [lit ".RData"])) = false := by
      rw [← h.value_eq host R hf hw]; exact load_not_dir hl
    have hok : (save_session s.fs cwd (some x) ev.scope).2 = (place s₀.fs cs).writable := by
      rw [Bool.eq_iff_iff, save_session_ok_iff, place_writable hcwd]
      simp only [Option.isSome_some, forall_const, ← h.dirs, h.ready k f hf]
    simp only [ht, hj, hok]
    refine h.move host R hf (fun p => isDir_save_session s.fs cwd (some x) ev.scope p) (fun cwd' hc' => ?_)
      (fun hn => by rw [hcwd] at hn; cases hn) (fun _ hk => ⟨update_of_ne hk .., update_of_ne hk ..⟩) ?_
    · rw [hcwd] at hc'; cases hc'
      rw [save_session_rdata, hdir]; rfl
    · cases (place s₀.fs cs).writable with
      | true => exact ⟨update_self .., update_self ..⟩
      | false => exact ⟨update_self .., update_self ..⟩

theorem Simulates.step_saved {sc : Scope V} {ev : Evaluation V} (hst : f.stage = .saved sc ev) :
    Matched host R s₀ cs calls k (s.step host R (.step k)) r := by
  obtain ⟨hc, -, -, -⟩ := h.fork k f hf
  obtain ⟨hh, hr⟩ := h.holds host R hf hst
  refine ⟨[], trivial, ?_⟩
  simp only [Sessions.step, hf, run_nil]
  rcases VrpcAgent.step_saved host R s.fs hst with ⟨hrep, hj⟩ | ⟨out, sent, hrep, hj⟩
  all_goals
    rw [hc] at hrep; rw [hrep] at hr
    simp only [hj]
    exact h.move_quiet host R hf rfl (fun _ _ => ⟨rfl, rfl⟩) ⟨hh, hr⟩

theorem Simulates.step_terminated (hst : f.stage.terminated = true) :
    Matched host R s₀ cs calls k (s.step host R (.step k)) r := by
  refine ⟨[], trivial, ?_⟩
  simp only [Sessions.step, hf, run_nil, VrpcAgent.step_terminated host R s.fs hst]
  exact h.move_quiet host R hf rfl (fun _ _ => ⟨rfl, rfl⟩) (h.holds host R hf rfl)

end

/-! ## Runs -/

def Stage.in_session : Stage V → Bool
  | .attached _ => true
  | .evaluated _ _ => true
  | _ => false

/-- A fork attaches the session while no other fork is between attaching and
saving it. -/
def LoadsAlone (s : Sessions V) : SessionEvent → Prop
  | .call .. => True
  | .step k => ∀ f, s.forks k = some f → f.stage = .forked →
      ∀ k' f', s.forks k' = some f' → f'.stage.in_session = false

section
variable {cs : List Str}

theorem Simulates.held_none (h : Simulates host R s₀ cs calls s r) {k : Nat}
    (hk : ∀ f, s.forks k = some f → f.stage.in_session = false) : r.held k = none := by
  cases hf : s.forks k with
  | none => exact (h.idle k hf).1
  | some f =>
    have hh := h.holds host R hf rfl
    have hin := hk f hf
    cases hst : f.stage with
    | attached => rw [hst] at hin; cases hin
    | evaluated => rw [hst] at hin; cases hin
    | _ => rw [hst] at hh; exact hh.1

theorem Simulates.result_isSome (h : Simulates host R s₀ cs calls s r) {k : Nat} {f : Fork V} (hf : s.forks k = some f)
    (ht : f.stage.terminated = true) : (r.result k).isSome := by
  have hh := h.holds host R hf rfl
  cases hst : f.stage with
  | replied => rw [hst] at hh; rw [hh.2]; rfl
  | dead => rw [hst] at hh; rw [hh.2]; rfl
  | _ => rw [hst] at ht; cases ht

theorem Simulates.call (h : Simulates host R s₀ cs calls s r) (k : Nat) (tmp : Str)
    (hcs : session_components tmp (calls k).instance_id = cs) :
    Simulates host R s₀ cs calls (s.call k (calls k) tmp) r := by
  unfold Sessions.call
  cases hf : s.forks k with
  | some f => exact h
  | none =>
    simp only [hcs]
    refine ⟨h.genv, fun p => ?_, fun hnone => ?_, fun _ _ _ => create_session_dir_twice s.fs cs, fun cwd hc => ?_,
      fun k' hk' => ?_, fun k' f' hk' => ?_⟩
    · rw [create_session_dir_twice]; exact h.dirs p
    · have := hnone k; simp at this
    · rw [create_session_dir_twice]; exact h.value cwd hc
    · exact h.idle k' (update_eq_none_iff.mp hk').2
    · rcases update_eq_some_iff.mp hk' with ⟨rfl, rfl⟩ | ⟨-, hk'⟩
      · exact ⟨rfl, rfl, h.genv, h.idle k' hf⟩
      · exact h.fork k' f' hk'

def first_session (s₀ : Sessions V) (cs : List Str) : Option (Node V) :=
  saved_session (create_session_dir s₀.fs cs) cs

theorem simulates_init (hnone : ∀ k, s₀.forks k = none) :
    Simulates host R s₀ cs calls s₀ (Register.init (first_session s₀ cs)) where
  genv := rfl
  dirs _ := rfl
  fresh _ := rfl
  ready k f h := by rw [hnone k] at h; cases h
  value cwd hc := by
    rw [place_cwd] at hc
    simp only [Register.init, first_session, saved_session, hc, Option.bind_some]
  idle _ _ := ⟨rfl, rfl⟩
  fork k f h := by rw [hnone k] at h; cases h

/-- `s` is reached by the calls of `order`, one after the other, and by others
that have not saved the session. -/
def Serves (s₀ : Sessions V) (cs : List Str) (calls : Nat → VrpcCall) (order : List Nat) (s : Sessions V) : Prop :=
  ∃ r, Simulates host R s₀ cs calls s r ∧
    Register.Serialized (txn host R s₀ cs calls) (first_session s₀ cs) order r

variable (hid : ∀ k, (calls k).instance_id = some x)
include hid

theorem serves_step {order : List Nat} (h : Serves host R s₀ (session_components [] (some x)) calls order s)
    {e : SessionEvent} (hc : Hands calls e) (he : LoadsAlone s e) :
    ∃ order', (order' = order ∨ order' = order ++ [e.fork]) ∧
      Serves host R s₀ (session_components [] (some x)) calls order' (s.step host R e) := by
  obtain ⟨r, hsim, hser⟩ := h
  cases e with
  | call k c tmp =>
    obtain rfl := hc k c tmp rfl
    exact ⟨order, Or.inl rfl, r, hsim.call host R k tmp (by rw [hid]; rfl), hser⟩
  | step k =>
    cases hf : s.forks k with
    | none => exact ⟨order, Or.inl rfl, r, by simpa only [Sessions.step, hf] using hsim, hser⟩
    | some f =>
      have hheld : ∀ u, r.held k = some u → u = r.value := fun u hu => (hser.held k u hu).1
      have hm : Matched host R s₀ (session_components [] (some x)) calls k (s.step host R (.step k)) r := by
        cases hst : f.stage with
        | forked => exact hsim.step_forked host R hf (hid k) hst fun k' => hsim.held_none host R (he f hf hst k')
        | attached sc => exact hsim.step_attached host R hf hst hheld
        | evaluated sc ev => exact hsim.step_evaluated host R hf (hid k) hst hheld
        | saved sc ev => exact hsim.step_saved host R hf hst
        | replied => exact hsim.step_terminated host R hf (by rw [hst]; rfl)
        | dead => exact hsim.step_terminated host R hf (by rw [hst]; rfl)
      obtain ⟨ops, hops, hsim'⟩ := hm
      obtain ⟨order', ho, hser'⟩ := Register.serialized_run _ hser hops
      exact ⟨order', ho, _, hsim', hser'⟩

theorem serves_run {evs : List SessionEvent} (hc : ∀ e ∈ evs, Hands calls e) (hnone : ∀ k, s₀.forks k = none)
    (ha : Along (Sessions.step host R) LoadsAlone s₀ evs) :
    ∃ order, Serves host R s₀ (session_components [] (some x)) calls order (run (Sessions.step host R) s₀ evs) := by
  have h₀ : Serves host R s₀ (session_components [] (some x)) calls [] s₀ :=
    ⟨_, simulates_init host R hnone, Register.serialized_init _ _⟩
  refine run_inv (P := fun s => ∃ order, Serves host R s₀ (session_components [] (some x)) calls order s)
    ?_ ⟨[], h₀⟩ (ha.and (along_of_mem fun e he _ => hc e he))
  intro s e hs hG
  obtain ⟨order, ho⟩ := hs
  obtain ⟨he, hce⟩ := hG
  obtain ⟨order', -, ho'⟩ := serves_step host R hid ho hce he
  exact ⟨order', ho'⟩

structure Owned (s₀ : Sessions V) (x : Str) (calls : Nat → VrpcCall) (order : List Nat) (k : Nat) (s s' : Sessions V) :
    Prop where
  serves : ∃ order', (order' = order ∨ order' = order ++ [k]) ∧
    Serves host R s₀ (session_components [] (some x)) calls order' s'
  others : ∀ k', k' ≠ k → s'.forks k' = s.forks k'

theorem owned_step {order : List Nat} {k : Nat} {s' : Sessions V} (h : Owned host R s₀ x calls order k s s')
    (hterm : ∀ k f, s.forks k = some f → f.stage.terminated = true) {e : SessionEvent} (he : e.fork = k)
    (hc : Hands calls e) : Owned host R s₀ x calls order k s (s'.step host R e) := by
  have halone : LoadsAlone s' e := by
    cases e with
    | call => trivial
    | step k₁ =>
      obtain rfl : k₁ = k := he
      intro f hf hst k' f' hf'
      by_cases hne : k' = k₁
      · subst hne; rw [hf] at hf'; cases hf'; rw [hst]; rfl
      · rw [h.others k' hne] at hf'
        have := hterm k' f' hf'
        cases hst' : f'.stage <;> rw [hst'] at this <;> first | rfl | cases this
  refine ⟨?_, fun k' hne => by rw [step_forks_of_ne host R (he ▸ hne), h.others k' hne]⟩
  obtain ⟨order', ho, hs⟩ := h.serves
  obtain ⟨order'', ho', hs'⟩ := serves_step host R hid hs hc halone
  rw [he] at ho'
  rcases ho' with rfl | rfl
  · exact ⟨_, ho, hs'⟩
  · rcases ho with rfl | rfl
    · exact ⟨_, Or.inr rfl, hs'⟩
    · obtain ⟨_, -, hser⟩ := hs'
      have := hser.nodup
      simp [List.nodup_append] at this

theorem serves_call {order : List Nat} (h : Serves host R s₀ (session_components [] (some x)) calls order s)
    (hterm : ∀ k f, s.forks k = some f → f.stage.terminated = true) {k : Nat} (hk : s.forks k = none) :
    Serves host R s₀ (session_components [] (some x)) calls (order ++ [k])
      (run (Sessions.step host R) s (serve_call k (calls k))) := by
  have hk' : k ∉ order := by
    obtain ⟨r, hsim, hser⟩ := h
    rw [hser.mem, (hsim.idle k hk).2]; simp
  have hown : Owned host R s₀ x calls order k s (run (Sessions.step host R) s (serve_call k (calls k))) :=
    run_inv (P := Owned host R s₀ x calls order k s) (G := fun _ e => e.fork = k ∧ Hands calls e)
      (fun s' e hs' he => owned_step host R hid hs' hterm he.1 he.2) ⟨⟨order, Or.inl rfl, h⟩, fun _ _ => rfl⟩
      (along_of_mem fun e he _ => ⟨serve_call_fork he, serve_call_hands he⟩)
  obtain ⟨f, hf, hft⟩ := run_serve_call host R hk (calls k)
  obtain ⟨order', ho, hs'⟩ := hown.serves
  rcases ho with rfl | rfl
  · obtain ⟨r, hsim, hser⟩ := hs'
    exact absurd ((hser.mem k).mpr (hsim.result_isSome host R hf hft)) hk'
  · exact hs'

theorem serves_serve (s₀ : Sessions V) (hnone : ∀ k, s₀.forks k = none) {order : List Nat} (hnd : order.Nodup) :
    Serves host R s₀ (session_components [] (some x)) calls order
        (run (Sessions.step host R) s₀ (serve calls order)) ∧
      ∀ k, (k ∉ order → (run (Sessions.step host R) s₀ (serve calls order)).forks k = none) ∧
        ∀ f, (run (Sessions.step host R) s₀ (serve calls order)).forks k = some f → f.stage.terminated = true := by
  induction order using List.reverseRecOn with
  | nil =>
    refine ⟨⟨_, simulates_init host R hnone, Register.serialized_init _ _⟩, fun k => ⟨fun _ => hnone k, fun f hf => ?_⟩⟩
    rw [show (run (Sessions.step host R) s₀ (serve calls [])).forks k = none from hnone k] at hf; cases hf
  | append_singleton l k ih =>
    obtain ⟨hl, hd⟩ := List.nodup_append'.mp hnd |>.imp id fun h => h.2
    obtain ⟨hs, hforks⟩ := ih hl
    have hk : k ∉ l := fun h => hd h (List.mem_singleton_self k)
    have hrun : run (Sessions.step host R) s₀ (serve calls (l ++ [k])) =
        run (Sessions.step host R) (run (Sessions.step host R) s₀ (serve calls l)) (serve_call k (calls k)) := by
      rw [serve, List.flatMap_append, run_append]; simp [serve]
    rw [hrun]
    refine ⟨serves_call host R hid hs (fun k' => (hforks k').2) ((hforks k).1 hk), fun k' => ?_⟩
    by_cases hne : k' = k
    · subst hne
      obtain ⟨f, hf, hft⟩ := run_serve_call host R ((hforks k').1 hk) (calls k')
      exact ⟨fun h => by simp at h, fun f' hf' => by rw [hf] at hf'; cases hf'; exact hft⟩
    · rw [run_forks_of_ne host R (fun e he => by rw [serve_call_fork he]; exact hne)]
      exact ⟨fun h => (hforks k').1 fun h' => h (List.mem_append_left _ h'), (hforks k').2⟩

end

/-! ## Serializability -/

/-- The saved session of `x` and the replies are those of the calls one after the
other, in some order. -/
def SerialEffect (s₀ : Sessions V) (x : Str) (calls : Nat → VrpcCall) (s : Sessions V) : Prop :=
  ∃ order : List Nat, order.Nodup ∧ (∀ k, k ∈ order ↔ (s.forks k).isSome) ∧
    saved_session s.fs (session_components [] (some x)) =
      saved_session (run (Sessions.step host R) s₀ (serve calls order)).fs (session_components [] (some x)) ∧
    ∀ k, (s.forks k).bind (·.stage.reply) =
      ((run (Sessions.step host R) s₀ (serve calls order)).forks k).bind (·.stage.reply)

theorem Simulates.saved_session_eq {cs : List Str} (h : Simulates host R s₀ cs calls s r) {k : Nat} {f : Fork V}
    (hf : s.forks k = some f) : saved_session s.fs cs = (place s₀.fs cs).cwd.bind fun _ => r.value := by
  unfold saved_session
  rw [h.walk_eq host R hf]
  cases hc : (place s₀.fs cs).cwd with
  | none => rfl
  | some cwd => rw [Option.bind_some, Option.bind_some, h.value_eq host R hf (by rw [h.walk_eq host R hf, hc])]

theorem Simulates.reply_eq {cs : List Str} (h : Simulates host R s₀ cs calls s r) {k : Nat}
    (ht : ∀ f, s.forks k = some f → f.stage.terminated = true) :
    (s.forks k).bind (·.stage.reply) = (r.result k).join := by
  cases hf : s.forks k with
  | none => rw [(h.idle k hf).2]; rfl
  | some f =>
    have hh := h.holds host R hf rfl
    have hft := ht f hf
    cases hst : f.stage with
    | replied => rw [hst] at hh; rw [hh.2]; simp [Stage.reply, hst]
    | dead => rw [hst] at hh; rw [hh.2]; simp [Stage.reply, hst]
    | _ => rw [hst] at hft; cases hft

/-- **Calls that load alone are serializable.** When every fork attaches the
session while no other fork is between attaching and saving it, the session and
the replies are those of a serial run. -/
theorem calls_serializable (genv : Env V) (fs : FS V) (x : Str) (calls : Nat → VrpcCall)
    (hid : ∀ k, (calls k).instance_id = some x) (evs : List SessionEvent)
    (hc : ∀ e ∈ evs, Hands calls e)
    (ha : Along (Sessions.step host R) LoadsAlone ⟨genv, fs, fun _ => none⟩ evs)
    (hdone : ∀ k f, (run (Sessions.step host R) ⟨genv, fs, fun _ => none⟩ evs).forks k = some f →
      f.stage.terminated = true) :
    SerialEffect host R ⟨genv, fs, fun _ => none⟩ x calls
      (run (Sessions.step host R) ⟨genv, fs, fun _ => none⟩ evs) := by
  obtain ⟨order, r, hsim, hser⟩ := serves_run host R hid hc (fun _ => rfl) ha
  obtain ⟨⟨r', hsim', hser'⟩, hforks'⟩ := serves_serve host R hid ⟨genv, fs, fun _ => none⟩ (fun _ => rfl) hser.nodup
  -- both runs have done the transactions of `order`
  have hrr : (r.value, r.result) = (r'.value, r'.result) := by rw [← hser.serial, ← hser'.serial]
  have hval : r.value = r'.value := congrArg Prod.fst hrr
  have hres : r.result = r'.result := congrArg Prod.snd hrr
  have hmem : ∀ k, k ∈ order ↔
      ((run (Sessions.step host R) ⟨genv, fs, fun _ => none⟩ evs).forks k).isSome := by
    intro k
    rw [hser.mem]
    cases hf : (run (Sessions.step host R) ⟨genv, fs, fun _ => none⟩ evs).forks k with
    | none => rw [(hsim.idle k hf).2]; simp
    | some f => simp [hsim.result_isSome host R hf (hdone k f hf)]
  refine ⟨order, hser.nodup, hmem, ?_, fun k => ?_⟩
  · cases order with
    | nil =>
      rw [hsim.fresh fun k => Option.not_isSome_iff_eq_none.mp (by rw [← hmem]; simp)]; rfl
    | cons k l =>
      obtain ⟨f, hf⟩ := Option.isSome_iff_exists.mp ((hmem k).mp List.mem_cons_self)
      have hk' : (r'.result k).isSome := (hser'.mem k).mp List.mem_cons_self
      obtain ⟨f', hf'⟩ : ∃ f', (run (Sessions.step host R) ⟨genv, fs, fun _ => none⟩
          (serve calls (k :: l))).forks k = some f' := by
        by_contra hno
        rw [(hsim'.idle k (Option.eq_none_iff_forall_ne_some.mpr fun f' h => hno ⟨f', h⟩)).2] at hk'
        cases hk'
      rw [hsim.saved_session_eq host R hf, hsim'.saved_session_eq host R hf', hval]
  · rw [hsim.reply_eq host R (hdone k), hsim'.reply_eq host R (hforks' k).2, hres]

/-! ## Two assignments -/

def loads_alone (l : List Nat) (s : Sessions V) : SessionEvent → Bool
  | .call .. => true
  | .step k => (s.forks k).all fun f => f.stage.left < 4 || l.all fun k' =>
      (s.forks k').all fun f' => !f'.stage.in_session

theorem loadsAlone_of_loads_alone {l : List Nat} {s : Sessions V} (hl : ∀ k, k ∉ l → s.forks k = none)
    {e : SessionEvent} (h : loads_alone l s e = true) : LoadsAlone s e := by
  cases e with
  | call => trivial
  | step k =>
    intro f hf hst k' f' hf'
    have hk' : k' ∈ l := by by_contra hk; rw [hl k' hk] at hf'; cases hf'
    have hall : l.all (fun k' => (s.forks k').all fun f' => !f'.stage.in_session) = true := by
      simpa [loads_alone, hf, hst, Stage.left] using h
    have := List.all_eq_true.mp hall k' hk'
    rw [hf'] at this
    simpa using this

theorem along_loadsAlone {l : List Nat} {s : Sessions V} {evs : List SessionEvent} (hl : ∀ e ∈ evs, e.fork ∈ l)
    (hnone : ∀ k, k ∉ l → s.forks k = none) (h : Along (Sessions.step host R) (fun s e => loads_alone l s e = true) s evs) :
    Along (Sessions.step host R) LoadsAlone s evs := by
  have hfork : Along (Sessions.step host R) (fun _ e => e.fork ∈ l) s evs := along_of_mem fun e he _ => hl e he
  have hinv := along_inv (P := fun s : Sessions V => ∀ k, k ∉ l → s.forks k = none)
    (G := fun s e => loads_alone l s e = true ∧ e.fork ∈ l)
    (fun s e hs he k hk => by rw [step_forks_of_ne host R (fun h => hk (by rw [h]; exact he.2)), hs k hk]) hnone (h.and hfork)
  exact hinv.mono fun s e hs => loadsAlone_of_loads_alone hs.1 hs.2.1

end

def assigns (k : Nat) : VrpcCall :=
  ⟨lit "assign", strings [if k = 0 then lit "a" else lit "b", lit "1"], 0, some (lit "x"),
    { Agent.new with awaited_callbacks := fun _ => some (.object [(lit "s", .string (lit "t"))]) }⟩

abbrev assigned (evs : List SessionEvent) : Sessions Str :=
  run (Sessions.step (small_host []) small_R) ⟨fun _ => none, fun _ => none, fun _ => none⟩ evs

theorem assigned_forks (evs : List SessionEvent) (h : ∀ e ∈ evs, e.fork ∈ [0, 1]) {k : Nat} (hk : k ∉ [0, 1]) :
    (assigned evs).forks k = none :=
  run_forks_of_ne (small_host []) small_R (fun e he hke => hk (by rw [hke]; exact h e he)) _

def one_by_one : List SessionEvent :=
  [.call 0 (assigns 0) [], .call 1 (assigns 1) []] ++ List.replicate 4 (.step 0) ++ List.replicate 4 (.step 1)

theorem calls_serializable_one_by_one :
    SerialEffect (small_host []) small_R ⟨fun _ => none, fun _ => none, fun _ => none⟩ (lit "x") assigns
      (assigned one_by_one) := by
  refine calls_serializable (small_host []) small_R (fun _ => none) (fun _ => none) (lit "x") assigns
    (fun _ => rfl) one_by_one ?_ ?_ ?_
  · intro e he k c tmp heq
    subst heq
    simp only [one_by_one, List.mem_append, List.mem_cons, List.not_mem_nil, or_false, List.mem_replicate,
      reduceCtorEq, and_false, or_false] at he
    rcases he with h | h <;> cases h <;> rfl
  · exact along_loadsAlone (l := [0, 1]) _ _ (by decide) (fun _ _ => rfl) (by decide +kernel)
  · intro k f hf
    by_cases hk : k ∈ [0, 1]
    · have h : ∀ k ∈ [0, 1], ((assigned one_by_one).forks k).all (·.stage.terminated) = true := by decide +kernel
      simpa [hf] using h k hk
    · rw [assigned_forks _ (by decide) hk] at hf; cases hf

/-- Both forks attach the session before one of them saves it. -/
def overlapped : List SessionEvent :=
  [.call 0 (assigns 0) [], .call 1 (assigns 1) [], .step 0, .step 1, .step 0, .step 1, .step 0, .step 1, .step 0, .step 1]

def saved_value (s : Sessions Str) (n : Str) : Option Str :=
  match saved_session s.fs (session_components [] (some (lit "x"))) with
  | some (.rdata env) => env n
  | _ => none

/-- The assignment to `a` is lost. -/
theorem overlapped_calls_lose_assignment :
    (∀ k f, (assigned overlapped).forks k = some f → f.stage.terminated = true) ∧
      ¬ SerialEffect (small_host []) small_R ⟨fun _ => none, fun _ => none, fun _ => none⟩ (lit "x") assigns
        (assigned overlapped) := by
  constructor
  · intro k f hf
    by_cases hk : k ∈ [0, 1]
    · have h : ∀ k ∈ [0, 1], ((assigned overlapped).forks k).all (·.stage.terminated) = true := by decide +kernel
      simpa [hf] using h k hk
    · rw [assigned_forks _ (by decide) hk] at hf; cases hf
  · intro h
    obtain ⟨order, hnd, hmem, hsave, -⟩ := h
    have hforks : ∀ k, k ∈ order ↔ k ∈ [0, 1] := by
      intro k
      rw [hmem]
      by_cases hk : k ∈ [0, 1]
      · have h : ∀ k ∈ [0, 1], ((assigned overlapped).forks k).isSome = true := by decide +kernel
        simp only [hk, h k hk]
      · rw [assigned_forks _ (by decide) hk]
        simp only [hk, Option.isSome_none, Bool.false_eq_true]
    -- in both serial orders `a` stays assigned
    have ha : saved_value (assigned (serve assigns order)) (lit "a") = some (lit "1") := by
      rcases List.perm_pair.mp ((List.perm_ext_iff_of_nodup hnd (by decide)).mpr hforks) with rfl | rfl <;>
        decide +kernel
    have hlost : saved_value (assigned overlapped) (lit "a") = none := by decide +kernel
    simp only [saved_value] at ha hlost
    rw [hsave] at hlost
    rw [hlost] at ha
    cases ha

end VrpcAgent

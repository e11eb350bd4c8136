import VrpcAgent.Forks
import VrpcAgent.Strings

/-!
# Which function a call invokes

R looks for the function of a call through the enclosures of the evaluation
environment. Those of a static call pass the adapter and base R before they come to
the functions of the agent; those of a call on an instance begin with these.
-/

namespace VrpcAgent

open Function Runs PartialMap

section
variable {V : Type} (is_function : V → Bool)

def find_function : List (Env V) → Str → Option V
  | [], _ => none
  | env :: envs, f => ((env f).filter is_function).or (find_function envs f)

def Scope.enclosures (R : RLib V) (sc : Scope V) : List (Env V) :=
  match sc.fresh with
  | none => [sc.genv, R.search]
  | some env => [env, R.frame, R.vrpc_ns, R.imports, R.base_ns, sc.genv, R.search]

/-- The function object that a call by `json_call` without a namespace invokes. -/
def invoked (R : RLib V) (sc : Scope V) (object_name : Str) : Option V :=
  match call_object object_name with
  | some (.name f) => find_function is_function (sc.enclosures R) f
  | _ => none

/-! ## Looking through enclosures -/

theorem find_function_append (es es' : List (Env V)) (f : Str) :
    find_function is_function (es ++ es') f = (find_function is_function es f).or (find_function is_function es' f) := by
  induction es with
  | nil => rfl
  | cons e es ih => rw [List.cons_append, find_function, find_function, ih, Option.or_assoc]

variable {is_function} {f : Str} {v : V}

theorem find_function_bound {e : Env V} (hv : e f = some v) (hfun : is_function v = true) (es : List (Env V)) :
    find_function is_function (e :: es) f = some v := by
  rw [find_function, hv, Option.filter_some_pos hfun, Option.some_or]

theorem invoked_name (hf : f ≠ []) (hsep : ¬ lit "::" <:+: f) (R : RLib V) (sc : Scope V) :
    invoked is_function R sc f = find_function is_function (sc.enclosures R) f := by
  rw [invoked, call_object_name_iff.mpr ⟨hf, hsep⟩]

def inner (R : RLib V) : List (Env V) := [R.frame, R.vrpc_ns, R.imports, R.base_ns]

theorem find_function_static (R : RLib V) {genv : Env V} (hv : genv f = some v) (hfun : is_function v = true) :
    find_function is_function (Scope.enclosures R ⟨some fun _ => none, genv⟩) f =
      (find_function is_function (inner R) f).or (some v) := by
  show find_function is_function (inner R ++ [genv, R.search]) f = _
  rw [find_function_append, find_function_bound hv hfun]

/-! ## Static calls and calls on a fresh instance -/

variable (host : Host) (R : RLib V)

structure Enters (s : Sessions V) (k : Nat) (f : Str) (inst : Option Str) (sc : Scope V) : Prop where
  fork : ∃ fk, s.forks k = some fk ∧ fk.call.func_name = f ∧ fk.call.instance_id = inst ∧ fk.stage = .forked ∧
    (json_call_step host R s.fs fk).2 = .attached sc

def Unsaved (s : Sessions V) (k : Nat) : Prop :=
  ∀ fk, s.forks k = some fk → saved_session s.fs fk.session_dir = none

variable {host R} {genv : Env V} {fs : FS V} {evs : List SessionEvent} {k : Nat} {sc : Scope V}

theorem run_sound (evs : List SessionEvent) : Sound (run (Sessions.step host R) ⟨genv, fs, fun _ => none⟩ evs) := by
  apply run_inv (P := Sound) (fun s e hs _ => sound_step host R hs e) _ (along_true _ evs)
  exact ⟨fun k f hf => (by cases hf), fun k f hf => (by cases hf)⟩

theorem static_scope (h : Enters host R (run (Sessions.step host R) ⟨genv, fs, fun _ => none⟩ evs) k f none sc) :
    sc = ⟨some fun _ => none, genv⟩ := by
  obtain ⟨fk, hk, -, hid, hst, hatt⟩ := h.fork
  have hg : fk.genv = genv := ((run_sound evs).genv k fk hk).trans (run_genv host R _ evs)
  rcases step_forked host R _ hst with ⟨hj, -⟩ | ⟨cwd, sc', -, ha, hj⟩
  · rw [hj] at hatt; cases hatt
  · rw [hj] at hatt
    obtain rfl : sc' = sc := Stage.attached.inj hatt
    rw [hid, hg] at ha
    exact (Option.some.inj ha).symm

theorem fresh_scope {x : Str} (h : Enters host R (run (Sessions.step host R) ⟨genv, fs, fun _ => none⟩ evs) k f (some x) sc)
    (hfresh : Unsaved (run (Sessions.step host R) ⟨genv, fs, fun _ => none⟩ evs) k) : sc = ⟨none, genv⟩ := by
  obtain ⟨fk, hk, -, hid, hst, hatt⟩ := h.fork
  have hg : fk.genv = genv := ((run_sound evs).genv k fk hk).trans (run_genv host R _ evs)
  rcases step_forked host R _ hst with ⟨hj, -⟩ | ⟨cwd, sc', hw, ha, hj⟩
  · rw [hj] at hatt; cases hatt
  · rw [hj] at hatt
    obtain rfl : sc' = sc := Stage.attached.inj hatt
    have hnone := hfresh fk hk
    rw [saved_session, hw, Option.bind_some] at hnone
    rw [hid, hg, attach_session_some, hnone] at ha
    exact (Option.some.inj ha).symm

variable (host R) {evs' : List SessionEvent} {k' : Nat} {sc' : Scope V} {x : Str}

/-- **Static calls and calls on a fresh instance** both invoke the function of the agent
exactly when no other function of that name stands in between. -/
theorem resolves_alike_iff (hf : f ≠ []) (hsep : ¬ lit "::" <:+: f) (hv : genv f = some v) (hfun : is_function v = true)
    (hstatic : Enters host R (run (Sessions.step host R) ⟨genv, fs, fun _ => none⟩ evs) k f none sc)
    (hmember : Enters host R (run (Sessions.step host R) ⟨genv, fs, fun _ => none⟩ evs') k' f (some x) sc')
    (hfresh : Unsaved (run (Sessions.step host R) ⟨genv, fs, fun _ => none⟩ evs') k') :
    (invoked is_function R sc f = some v ∧ invoked is_function R sc' f = some v) ↔
      ∀ w, find_function is_function (inner R) f = some w → w = v := by
  obtain rfl := static_scope hstatic
  obtain rfl := fresh_scope hmember hfresh
  have hm : invoked is_function R ⟨none, genv⟩ f = some v := by
    rw [invoked_name hf hsep]
    exact find_function_bound hv hfun [R.search]
  rw [invoked_name hf hsep, find_function_static R hv hfun, and_iff_left hm]
  cases find_function is_function (inner R) f with
  | none => simp
  | some w => simp

end

/-! ## Two functions of an agent -/

def base_R : RLib Str := { small_R with base_ns := update (fun _ => none) (lit "sum") (some (lit "base")) }

def own_function (f : Str) : Env Str := update (fun _ => none) f (some (lit "own"))

def call_without_args (f : Str) (inst : Option Str) : VrpcCall := ⟨f, .array [], 0, inst, Agent.new⟩

def call_handed (f : Str) (inst : Option Str) : Sessions Str :=
  run (Sessions.step (small_host []) base_R) ⟨own_function f, fun _ => none, fun _ => none⟩
    [.call 0 (call_without_args f inst) []]

theorem call_handed_forks (f : Str) (inst : Option Str) : (call_handed f inst).forks 0 =
    some ⟨call_without_args f inst, session_components [] inst, own_function f, .forked⟩ := by
  unfold call_handed
  simp only [run_cons, run_nil, Sessions.step]
  rw [call_forks, if_pos rfl]
  rfl

theorem static_enters (f : Str) :
    Enters (small_host []) base_R (call_handed f none) 0 f none ⟨some fun _ => none, own_function f⟩ :=
  ⟨_, call_handed_forks f none, rfl, rfl, rfl, rfl⟩

theorem member_enters (f : Str) : Enters (small_host []) base_R (call_handed f (some (lit "x"))) 0 f (some (lit "x"))
    ⟨none, own_function f⟩ :=
  ⟨_, call_handed_forks f (some (lit "x")), rfl, rfl, rfl, rfl⟩

theorem member_fresh (f : Str) : Unsaved (call_handed f (some (lit "x"))) 0 := by
  intro fk hk
  rw [call_handed_forks] at hk
  obtain rfl := Option.some.inj hk
  rfl

theorem own_name_resolves_alike :
    invoked (fun _ => true) base_R ⟨some fun _ => none, own_function (lit "f")⟩ (lit "f") = some (lit "own") ∧
      invoked (fun _ => true) base_R ⟨none, own_function (lit "f")⟩ (lit "f") = some (lit "own") := by
  apply (resolves_alike_iff (small_host []) base_R (by decide) (by decide) (update_self ..) rfl
    (static_enters (lit "f")) (member_enters (lit "f")) (member_fresh (lit "f"))).mpr
  intro w hw
  have hnone : find_function (fun _ => true) (inner base_R) (lit "f") = none := by decide
  rw [hnone] at hw
  cases hw

theorem base_name_shadows_static_call :
    ¬ ∀ (f : Str) (sc sc' : Scope Str), Enters (small_host []) base_R (call_handed f none) 0 f none sc →
      Enters (small_host []) base_R (call_handed f (some (lit "x"))) 0 f (some (lit "x")) sc' →
        Unsaved (call_handed f (some (lit "x"))) 0 →
          invoked (fun _ => true) base_R sc f = some (lit "own") ∧
            invoked (fun _ => true) base_R sc' f = some (lit "own") := by
  intro h
  have hs := (h (lit "sum") _ _ (static_enters _) (member_enters _) (member_fresh _)).1
  exact absurd hs (by decide)

end VrpcAgent

import VrpcAgent.Callees
import VrpcAgent.Persistence
import VrpcAgent.RoundTrip

/-!
# The arguments of a call

The argument loop of `json_call` replaces each `"$g"` by the value that the session
keeps under `.g`. Assigning NULL to an element deletes it. `evaluate` then makes the call
from its text and the call object: a language object in it is evaluated again, and what has
no text, an environment for example, cannot be passed. Any other value arrives as it was
returned.
-/

namespace VrpcAgent

open Function Effects Runs PartialMap

/-! ## The argument loop -/

section
variable {V : Type} (R : RLib V)

def Resolves (sc : Scope V) (v w : V) : Prop :=
  match reference R v with
  | none => w = v
  | some ref => sc.get R (paste0 (lit ".") ref) = some w ∧ R.is_null w = false

def ResolvesArg (sc : Scope V) (p q : Option Str × V) : Prop := p.1 = q.1 ∧ Resolves R sc p.2 q.2

variable {R} {sc : Scope V}

theorem resolves_literal {v : V} (h : reference R v = none) (w : V) : Resolves R sc v w ↔ w = v := by
  unfold Resolves
  rw [h]

theorem resolves_reference {v : V} {ref : Str} (h : reference R v = some ref) (w : V) :
    Resolves R sc v w ↔ sc.get R (paste0 (lit ".") ref) = some w ∧ R.is_null w = false := by
  unfold Resolves
  rw [h]

theorem length_resolve_args : ∀ {n i : Nat} {args args' : Args V}, resolve_args R sc n i args = some args' →
    args'.length ≤ args.length
  | 0, _, args, args', h => by
    rw [resolve_args] at h
    rw [Option.some.inj h]
  | n + 1, i, args, args', h => by
    rw [resolve_args] at h
    split at h
    · cases h
    · split at h
      · exact length_resolve_args h
      · split at h
        · cases h
        · refine Nat.le_trans (length_resolve_args h) ?_
          split
          · exact List.length_eraseIdx_le args i
          · rw [List.length_set]

/-- The loop keeps the number of arguments exactly when it resolves each of them. -/
theorem resolve_args_iff (sc : Scope V) : ∀ (rest done args' : Args V),
    (resolve_args R sc rest.length done.length (done ++ rest) = some args' ∧ args'.length = (done ++ rest).length) ↔
      ∃ rest', args' = done ++ rest' ∧ List.Forall₂ (ResolvesArg R sc) rest rest'
  | [], done, args' => by
    rw [List.append_nil, List.length_nil, resolve_args, Option.some_inj]
    constructor
    · intro h
      exact ⟨[], by rw [List.append_nil, h.1], .nil⟩
    · intro h
      obtain ⟨rest', rfl, hrest⟩ := h
      cases hrest
      rw [List.append_nil]
      exact ⟨rfl, rfl⟩
  | (name, v) :: rest, done, args' => by
    have hi : (done ++ (name, v) :: rest)[done.length]? = some (name, v) := by
      rw [List.getElem?_append_right (Nat.le_refl _), Nat.sub_self, List.getElem?_cons_zero]
    have hnext : ∀ w, (resolve_args R sc rest.length (done.length + 1) (done ++ (name, w) :: rest) = some args' ∧
        args'.length = (done ++ (name, v) :: rest).length) ↔
          ∃ rest', args' = done ++ (name, w) :: rest' ∧ List.Forall₂ (ResolvesArg R sc) rest rest' := by
      intro w
      have ih := resolve_args_iff sc rest (done ++ [(name, w)]) args'
      rw [List.length_append, List.length_singleton] at ih
      simp only [List.append_assoc, List.singleton_append] at ih
      rw [← ih]
      simp only [List.length_append, List.length_cons]
    have hcons : (∃ rest', args' = done ++ rest' ∧ List.Forall₂ (ResolvesArg R sc) ((name, v) :: rest) rest') ↔
        ∃ w, Resolves R sc v w ∧ ∃ rest', args' = done ++ (name, w) :: rest' ∧
          List.Forall₂ (ResolvesArg R sc) rest rest' := by
      constructor
      · intro h
        obtain ⟨rest', hargs, hrest⟩ := h
        obtain ⟨⟨name', w⟩, rest'', ⟨hname, hw⟩, hrest'', rfl⟩ := List.forall₂_cons_left_iff.mp hrest
        obtain rfl : name = name' := hname
        exact ⟨w, hw, rest'', hargs, hrest''⟩
      · intro h
        obtain ⟨w, hw, rest', hargs, hrest⟩ := h
        exact ⟨_, hargs, .cons ⟨rfl, hw⟩ hrest⟩
    rw [hcons, List.length_cons, resolve_args, hi]
    dsimp only
    cases href : reference R v with
    | none => simp only [resolves_literal href, exists_eq_left, hnext]
    | some ref =>
      simp only [resolves_reference href]
      cases hget : sc.get R (paste0 (lit ".") ref) with
      | none => simp
      | some u =>
        simp only [Option.some_inj]
        cases hnull : R.is_null u with
        | true =>
          -- the element is gone, and the list is too short from then on
          refine iff_of_false (fun h => ?_) (fun h => ?_)
          · have hlen := length_resolve_args h.1
            rw [if_pos rfl, List.eraseIdx_append_of_length_le (Nat.le_refl _), Nat.sub_self, List.eraseIdx_cons_zero] at hlen
            have hlen' := h.2
            simp only [List.length_append, List.length_cons] at hlen hlen'
            omega
          · obtain ⟨w, ⟨rfl, hw⟩, -⟩ := h
            rw [hnull] at hw; cases hw
        | false =>
          rw [if_neg Bool.false_ne_true, List.set_append_right _ _ (Nat.le_refl _), Nat.sub_self, List.set_cons_zero, hnext]
          constructor
          · intro h
            exact ⟨u, ⟨rfl, hnull⟩, h⟩
          · intro h
            obtain ⟨w, ⟨rfl, -⟩, h⟩ := h
            exact h

end

/-! ## The values that arrive -/

/-- What `evaluate` does with a call object: the value that an element of it comes to as an
argument, if it can be passed, and what happens when one of them cannot. -/
structure Calling (V : Type) where
  arg : Scope V → V → Option V
  refuse : Callee → Args V → Scope V → Evaluation V

section
variable {V : Type} (E : Calling V) (R : RLib V)

def Calling.values (sc : Scope V) : Args V → Option (Args V)
  | [] => some []
  | (name, v) :: args => do
    let w ← E.arg sc v
    let vals ← Calling.values sc args
    some ((name, w) :: vals)

/-- `apply` is the invocation of a function with the values of its arguments. -/
def Calling.evaluate (apply : Callee → Args V → Scope V → Evaluation V) (callee : Callee) (args : Args V) (sc : Scope V) :
    Evaluation V :=
  match E.values sc args with
  | some vals => apply callee vals sc
  | none => E.refuse callee args sc

def Calling.lib (apply : Callee → Args V → Scope V → Evaluation V) : RLib V := { R with evaluate := E.evaluate apply }

def Arrives (sc : Scope V) (a : Json) (w : V) : Prop := ∃ u, Resolves R sc (R.fromJSON a) u ∧ E.arg sc u = some w

/-- Evaluating the call object comes to `vals` as the arguments of `callee`, whatever the function does. -/
def Applies (func_name : Str) (string_args : Json) (sc : Scope V) (callee : Callee) (vals : Args V) : Prop :=
  ∀ apply, evaluate_call (E.lib R apply) func_name string_args sc = some (recorded func_name (apply callee vals sc))

variable {E R} {sc : Scope V}

theorem values_cons (name : Option Str) (v : V) (args : Args V) : E.values sc ((name, v) :: args) =
    (E.arg sc v).bind fun w => (E.values sc args).bind fun vals => some ((name, w) :: vals) := rfl

theorem values_iff : ∀ {args : Args V} {ws : List V}, (∀ p ∈ args, p.1 = none) →
    (E.values sc args = some (ws.map (none, ·)) ↔ args.map (fun p => E.arg sc p.2) = ws.map some)
  | [], ws, _ => by cases ws <;> simp [Calling.values]
  | (name, v) :: args, [], _ => by
    rw [values_cons]
    cases E.arg sc v <;> cases E.values sc args <;> simp
  | (name, v) :: args, w :: ws, hn => by
    obtain rfl : name = none := hn (name, v) List.mem_cons_self
    have hargs : ∀ p ∈ args, p.1 = none := fun p hp => hn p (List.mem_cons_of_mem _ hp)
    rw [values_cons, List.map_cons, List.map_cons, List.map_cons, List.cons.injEq, ← values_iff hargs]
    cases E.arg sc v <;> cases E.values sc args <;> simp

theorem length_values : ∀ {args vals : Args V}, E.values sc args = some vals → args.length = vals.length
  | [], vals, h => by
    cases h
    rfl
  | (name, v) :: args, vals, h => by
    rw [values_cons] at h
    obtain ⟨w, -, h⟩ := Option.bind_eq_some_iff.mp h
    obtain ⟨vals', hvals, h⟩ := Option.bind_eq_some_iff.mp h
    cases h
    rw [List.length_cons, List.length_cons, length_values hvals]

theorem resolve_args_lib (apply : Callee → Args V → Scope V → Evaluation V) : ∀ (n i : Nat) (args : Args V),
    resolve_args (E.lib R apply) sc n i args = resolve_args R sc n i args
  | 0, _, _ => rfl
  | n + 1, i, args => by
    rw [resolve_args, resolve_args]
    simp only [resolve_args_lib apply n]
    rfl

theorem call_args_lib (apply : Callee → Args V → Scope V → Evaluation V) (string_args : Json) :
    call_args (E.lib R apply) sc string_args = call_args R sc string_args := by
  cases string_args with
  | array xs => exact resolve_args_lib apply xs.length 0 _
  | object m => exact resolve_args_lib apply m.length 0 _
  | _ => rfl

theorem applies_iff {func_name : Str} {string_args : Json} {callee : Callee} {vals : Args V} :
    Applies E R func_name string_args sc callee vals ↔ call_object func_name = some callee ∧
      ∃ args, call_args R sc string_args = some args ∧ E.values sc args = some vals := by
  have heval : ∀ apply, evaluate_call (E.lib R apply) func_name string_args sc = (call_object func_name).bind fun c =>
      (call_args R sc string_args).map fun args => recorded func_name (E.evaluate apply c args sc) := by
    intro apply
    rw [evaluate_call_eq, call_args_lib]
    rfl
  unfold Applies
  simp only [heval]
  constructor
  · intro h
    -- a function that tells whether it was called so
    classical
    let fails (msg : Str) : Evaluation V := ⟨sc, .error ⟨msg, none⟩, []⟩
    have hfails : ∀ msg, recorded func_name (fails msg) = fails msg := fun _ => rfl
    have hmsg : ∀ msg msg', fails msg = fails msg' → msg = msg' := by
      intro msg msg' heq
      have hout := congrArg Evaluation.outcome heq
      exact (Condition.mk.inj (Except.error.inj hout)).1
    have hcall := h fun c args _ => if c = callee ∧ args = vals then fails [] else fails [0]
    obtain ⟨c, hc, hcall⟩ := Option.bind_eq_some_iff.mp hcall
    obtain ⟨args, hargs, hcall⟩ := Option.map_eq_some_iff.mp hcall
    rw [if_pos ⟨rfl, rfl⟩, hfails] at hcall
    cases hv : E.values sc args with
    | none =>
      have hother := h fun _ _ _ => fails [0]
      rw [hc, Option.bind_some, hargs, Option.map_some] at hother
      simp only [Calling.evaluate, hv] at hcall hother
      rw [hcall, hfails] at hother
      cases hmsg _ _ (Option.some.inj hother)
    | some vals' =>
      simp only [Calling.evaluate, hv] at hcall
      by_cases hsame : c = callee ∧ vals' = vals
      · exact ⟨by rw [hc, hsame.1], args, hargs, by rw [hv, hsame.2]⟩
      · rw [if_neg hsame, hfails] at hcall
        cases hmsg _ _ hcall
  · intro h apply
    obtain ⟨hc, args, hargs, hv⟩ := h
    rw [hc, Option.bind_some, hargs, Option.map_some, Calling.evaluate, hv]

theorem args_arrive_iff : ∀ {as : List Json} {ws : List V},
    (∃ args, List.Forall₂ (ResolvesArg R sc) (as.map fun a => (none, R.fromJSON a)) args ∧
        args.map (fun p => E.arg sc p.2) = ws.map some) ↔ List.Forall₂ (Arrives E R sc) as ws
  | [], ws => by
    rw [List.map_nil, List.forall₂_nil_left_iff]
    constructor
    · intro h
      obtain ⟨args, hargs, hws⟩ := h
      cases hargs
      exact List.map_eq_nil_iff.mp hws.symm
    · intro h
      exact ⟨[], .nil, by rw [h]; rfl⟩
  | a :: as, ws => by
    rw [List.map_cons, List.forall₂_cons_left_iff]
    constructor
    · intro h
      obtain ⟨args, hargs, hws⟩ := h
      obtain ⟨q, args', hq, hargs', rfl⟩ := List.forall₂_cons_left_iff.mp hargs
      cases ws with
      | nil => cases hws
      | cons w ws =>
        obtain ⟨hw, hws⟩ := List.cons.inj hws
        exact ⟨w, ws, ⟨q.2, hq.2, hw⟩, args_arrive_iff.mp ⟨args', hargs', hws⟩, rfl⟩
    · intro h
      obtain ⟨w, ws', ⟨u, hu, hw⟩, hws, rfl⟩ := h
      obtain ⟨args, hargs, hmap⟩ := args_arrive_iff.mpr hws
      exact ⟨(none, u) :: args, .cons ⟨rfl, hu⟩ hargs, by rw [List.map_cons, List.map_cons, hmap, hw]⟩

theorem unnamed_of_resolves {as : List Json} {args : Args V}
    (h : List.Forall₂ (ResolvesArg R sc) (as.map fun a => (none, R.fromJSON a)) args) : ∀ p ∈ args, p.1 = none := by
  induction as generalizing args with
  | nil =>
    cases h
    exact List.forall_mem_nil _
  | cons a as ih =>
    obtain ⟨q, args', hq, hargs', rfl⟩ := List.forall₂_cons_left_iff.mp h
    exact List.forall_mem_cons.mpr ⟨hq.1.symm, ih hargs'⟩

/-- As many values as elements arrive exactly when each of them does. -/
theorem call_args_iff {as : List Json} {ws : List V} (hlen : as.length = ws.length) :
    (∃ args, call_args R sc (.array as) = some args ∧ E.values sc args = some (ws.map (none, ·))) ↔
      List.Forall₂ (Arrives E R sc) as ws := by
  have hiff := resolve_args_iff (R := R) sc (as.map fun a => ((none : Option Str), R.fromJSON a)) []
  simp only [List.nil_append, List.length_nil, List.length_map, exists_eq_left'] at hiff
  rw [← args_arrive_iff]
  constructor
  · intro h
    obtain ⟨args, hargs, hvals⟩ := h
    have hlength : args.length = as.length := by rw [length_values hvals, List.length_map, hlen]
    have hres := (hiff args).mp ⟨hargs, hlength⟩
    exact ⟨args, hres, (values_iff (unnamed_of_resolves hres)).mp hvals⟩
  · intro h
    obtain ⟨args, hres, hmap⟩ := h
    exact ⟨args, ((hiff args).mpr hres).1, (values_iff (unnamed_of_resolves hres)).mpr hmap⟩

end

/-! ## The values that the session keeps -/

theorem eval_var_name_inj {g h : Str} (heq : eval_var_name g = eval_var_name h) : g = h :=
  List.append_cancel_left heq

section
variable {V : Type} (R : RLib V)

def LeavesDotted (c : VrpcCall) (env : Env V) : Prop :=
  ∀ callee args, call_object c.func_name = some callee → call_args R ⟨none, env⟩ c.string_args = some args →
    (R.evaluate callee args ⟨none, env⟩).scope.fresh = none ∧
      ∀ g, (R.evaluate callee args ⟨none, env⟩).scope.genv (eval_var_name g) = env (eval_var_name g) ∨
        (R.evaluate callee args ⟨none, env⟩).scope.genv (eval_var_name g) = none

variable {R}

theorem dotted_after {c : VrpcCall} {env : Env V} (hd : LeavesDotted R c env) {ev : Evaluation V}
    (he : evaluate_call R c.func_name c.string_args ⟨none, env⟩ = some ev) :
    (∀ w, ev.outcome = .ok w → ev.scope.genv (eval_var_name c.func_name) = some w) ∧
      ∀ g, (c.func_name = g → ∀ w, ev.outcome ≠ .ok w) →
        ev.scope.genv (eval_var_name g) = env (eval_var_name g) ∨ ev.scope.genv (eval_var_name g) = none := by
  unfold evaluate_call at he
  obtain ⟨callee, hcallee, he⟩ := Option.bind_eq_some_iff.mp he
  obtain ⟨args, hargs, he⟩ := Option.bind_eq_some_iff.mp he
  obtain ⟨hfresh, hleaves⟩ := hd callee args hcallee hargs
  cases ho : (R.evaluate callee args ⟨none, env⟩).outcome with
  | ok val =>
    simp only [ho] at he
    obtain rfl := Option.some.inj he
    simp only [Scope.assign, hfresh, Except.ok.injEq]
    refine ⟨fun w hw => ?_, fun g hg => ?_⟩
    · rw [← hw]; exact update_self ..
    · by_cases hfn : c.func_name = g
      · exact absurd rfl (hg hfn val)
      · rw [update_of_ne fun heq => hfn (eval_var_name_inj heq).symm]
        exact hleaves g
  | error e =>
    simp only [ho] at he
    obtain rfl := Option.some.inj he
    refine ⟨fun w hw => ?_, fun g _ => hleaves g⟩
    rw [ho] at hw; cases hw

end

section
variable {V : Type} (host : Host) (R : RLib V) (genv : Env V) (fs : FS V) (calls : Nat → VrpcCall)

def Returned (n : Nat) (w : V) : Prop :=
  ∃ env ev, starts host R genv fs calls n = some env ∧
    evaluate_call R (calls n).func_name (calls n).string_args ⟨none, env⟩ = some ev ∧ ev.outcome = .ok w

structure LastReturned (N : Nat) (g : Str) (n : Nat) (w : V) : Prop where
  before : n < N
  function : (calls n).func_name = g
  value : Returned host R genv fs calls n w
  last : ∀ m, n < m → m < N → (calls m).func_name = g → ∀ w', ¬ Returned host R genv fs calls m w'

def KeepsResult (N : Nat) (g : Str) (n : Nat) : Prop :=
  ∀ m, n < m → m < N → ∃ env, saved_session (served_calls host R genv fs calls (m + 1)).fs
    (session_components [] (calls m).instance_id) = some (.rdata env) ∧ env (eval_var_name g) ≠ none

variable {host R genv fs calls} {x : Str} (hid : ∀ k, (calls k).instance_id = some x) {N : Nat}
  (hd : ∀ n < N, ∀ env, starts host R genv fs calls n = some env → LeavesDotted R (calls n) env)
include hid hd

theorem returned_saved {n : Nat} (hn : n < N) {w : V} (h : Returned host R genv fs calls n w) :
    ∃ env, saved_session (served_calls host R genv fs calls (n + 1)).fs (session_components [] (some x)) = some (.rdata env) ∧
      env (eval_var_name (calls n).func_name) = some w := by
  obtain ⟨env, ev, hs, he, hw⟩ := h
  rcases served_call host R genv fs calls hid hs with ⟨hnone, -⟩ | ⟨ev', he', hsave⟩
  · rw [he] at hnone; cases hnone
  · obtain rfl : ev = ev' := Option.some.inj (he.symm.trans he')
    exact ⟨_, hsave, (dotted_after (hd n hn env hs) he).1 w hw⟩

theorem dotted_next {n : Nat} (hn : n < N) {env : Env V}
    (hsaved : saved_session (served_calls host R genv fs calls n).fs (session_components [] (some x)) = some (.rdata env)) :
    ∃ env', saved_session (served_calls host R genv fs calls (n + 1)).fs (session_components [] (some x)) =
    some (.rdata env') ∧
      ∀ g, ((calls n).func_name = g → ∀ w, ¬ Returned host R genv fs calls n w) →
        env' (eval_var_name g) = env (eval_var_name g) ∨
          env' (eval_var_name g) = overlay env genv (eval_var_name g) ∨ env' (eval_var_name g) = none := by
  have hs := starts_of_saved host R genv fs calls hid hsaved
  rcases served_call host R genv fs calls hid hs with ⟨-, hsame⟩ | ⟨ev, he, hsave⟩
  · -- the call has not been evaluated, and the files are as they were
    obtain ⟨cwd, hw, hv⟩ := Option.bind_eq_some_iff.mp hsaved
    rw [create_session_dir_of_walk hw, hsaved] at hsame
    exact ⟨env, hsame, fun g _ => Or.inl rfl⟩
  · refine ⟨ev.scope.genv, hsave, fun g hg => Or.inr ?_⟩
    exact (dotted_after (hd n hn _ hs) he).2 g fun hfn w hw => hg hfn w ⟨_, ev, hs, he, hw⟩

/-- What the session binds `.g` to: the value that was returned or, once it has been
removed, what the agent binds. -/
theorem kept_binding {g : Str} {n : Nat} {w : V} (hl : LastReturned host R genv fs calls N g n w) :
    ∀ m, n < m → m ≤ N → ∃ env,
      saved_session (served_calls host R genv fs calls m).fs (session_components [] (some x)) = some (.rdata env) ∧
      (KeepsResult host R genv fs calls m g n → env (eval_var_name g) = some w) ∧
      (¬ KeepsResult host R genv fs calls m g n → overlay env genv (eval_var_name g) = genv (eval_var_name g)) := by
  intro m
  induction m with
  | zero => intro h; cases h
  | succ m ih =>
    intro hm hN
    by_cases hnm : m = n
    · subst hnm
      obtain ⟨env, hsaved, hw⟩ := returned_saved hid hd hN hl.value
      rw [hl.function] at hw
      refine ⟨env, hsaved, fun _ => hw, fun h => absurd (fun m' h₁ h₂ => ?_) h⟩
      omega
    · have hlt : n < m := by omega
      obtain ⟨env, hsaved, hkept, hlost⟩ := ih hlt (Nat.le_of_succ_le hN)
      obtain ⟨env', hsaved', hleave⟩ := dotted_next hid hd hN hsaved
      have hleave := hleave g (hl.last m hlt hN)
      have hkeeps : KeepsResult host R genv fs calls (m + 1) g n ↔
          KeepsResult host R genv fs calls m g n ∧ env' (eval_var_name g) ≠ none := by
        constructor
        · intro h
          obtain ⟨env'', hs, hne⟩ := h m hlt (Nat.lt_succ_self m)
          rw [hid m, hsaved'] at hs
          cases hs
          exact ⟨fun m' h₁ h₂ => h m' h₁ (Nat.lt_succ_of_lt h₂), hne⟩
        · intro h m' h₁ h₂
          rcases Nat.lt_succ_iff_lt_or_eq.mp h₂ with h₂ | rfl
          · exact h.1 m' h₁ h₂
          · exact ⟨env', by rw [hid m', hsaved'], h.2⟩
      refine ⟨env', hsaved', fun h => ?_, fun h => ?_⟩
      · obtain ⟨hk, hne⟩ := hkeeps.mp h
        have hw := hkept hk
        rcases hleave with heq | heq | heq
        · rw [heq, hw]
        · rw [heq, overlay_of_some hw]
        · exact absurd heq hne
      · by_cases hne : env' (eval_var_name g) = none
        · exact overlay_of_none hne genv
        · have hagent := hlost fun hk => h (hkeeps.mpr ⟨hk, hne⟩)
          rcases hleave with heq | heq | heq
          · unfold overlay at hagent ⊢
            rw [heq, hagent]
          · unfold overlay
            rw [heq, hagent, Option.or_self]
          · exact absurd heq hne

end

/-! ## References -/

structure JsonStrings {V : Type} (R : RLib V) : Prop where
  string : ∀ s, R.character (R.fromJSON (.string s)) = some (r_string s)
  other : ∀ v, (∀ s, v ≠ .string s) → R.character (R.fromJSON v) = none

section
variable {V : Type} {R : RLib V} (hj : JsonStrings R)
include hj

theorem literal_no_reference {a : Json} (h : ∀ g, a ≠ .string (36 :: g)) : reference R (R.fromJSON a) = none := by
  by_cases hs : ∃ s, a = .string s
  · obtain ⟨s, rfl⟩ := hs
    rw [reference, hj.string]
    split
    · rename_i g hg
      obtain ⟨g', rfl⟩ := r_string_dollar (Option.some.inj hg)
      exact absurd rfl (h g')
    · rfl
  · rw [reference, hj.other a fun s heq => hs ⟨s, heq⟩]

theorem string_reference {g : Str} (h : 0 ∉ g) : reference R (R.fromJSON (.string (36 :: g))) = some g := by
  have hs : r_string (36 :: g) = 36 :: g := r_string_eq_iff.mpr (by simpa using h)
  rw [reference, hj.string, hs]
  rfl

end

theorem forall₂_congr_mem {α β : Type} {S Q : α → β → Prop} {T : α → Prop} {as : List α} {ws : List β}
    (h : List.Forall₂ S as ws)
    (hQ : ∀ a w, S a w → (Q a w ↔ T a)) : List.Forall₂ Q as ws ↔ ∀ a ∈ as, T a := by
  induction h with
  | nil => simp
  | cons haw _ ih => rw [List.forall₂_cons, hQ _ _ haw, ih, List.forall_mem_cons]

section
variable {V : Type} (E : Calling V) (host : Host) (R : RLib V) (apply : Callee → Args V → Scope V → Evaluation V)
    (genv : Env V)
  (fs : FS V) (calls : Nat → VrpcCall)

def Stands (N : Nat) (a : Json) (w : V) : Prop :=
  ((∀ g, a ≠ .string (36 :: g)) ∧ w = R.fromJSON a) ∨
    ∃ g n, a = .string (36 :: g) ∧ LastReturned host (E.lib R apply) genv fs calls N g n w

def Invoked (N : Nat) (ws : List V) : Prop :=
  ∃ env callee, starts host (E.lib R apply) genv fs calls N = some env ∧
    Applies E R (calls N).func_name (calls N).string_args ⟨none, env⟩ callee (ws.map (none, ·))

/-- What is found under `.g`, the value returned or, once it has been removed, the agent's
own, is not NULL and is passed as the value returned. -/
def Passes (env : Env V) (N : Nat) (g : Str) (n : Nat) (w : V) : Prop :=
  ∃ u, (KeepsResult host (E.lib R apply) genv fs calls N g n ∧ u = w ∨
      ¬ KeepsResult host (E.lib R apply) genv fs calls N g n ∧
        (genv (eval_var_name g)).or (R.search (eval_var_name g)) = some u) ∧
    R.is_null u = false ∧ E.arg ⟨none, env⟩ u = some w

def PassesJson : Prop := ∀ sc v, E.arg sc (R.fromJSON v) = some (R.fromJSON v)

variable {E host R apply genv fs calls} {N : Nat}

theorem returned_unique {n : Nat} {w w' : V} (h : Returned host R genv fs calls n w)
    (h' : Returned host R genv fs calls n w') :
    w = w' := by
  obtain ⟨env, ev, hs, he, hw⟩ := h
  obtain ⟨env', ev', hs', he', hw'⟩ := h'
  obtain rfl : env = env' := Option.some.inj (hs.symm.trans hs')
  obtain rfl : ev = ev' := Option.some.inj (he.symm.trans he')
  exact Except.ok.inj (hw.symm.trans hw')

theorem lastReturned_unique {g : Str} {n n' : Nat} {w w' : V} (h : LastReturned host R genv fs calls N g n w)
    (h' : LastReturned host R genv fs calls N g n' w') : n = n' ∧ w = w' := by
  rcases Nat.lt_trichotomy n n' with hlt | rfl | hlt
  · exact absurd h'.value (h.last n' hlt h'.before h'.function w')
  · exact ⟨rfl, returned_unique h.value h'.value⟩
  · exact absurd h.value (h'.last n hlt h.before h.function w)

variable {x : Str} (hid : ∀ k, (calls k).instance_id = some x)
  (hd : ∀ n < N, ∀ env, starts host (E.lib R apply) genv fs calls n = some env → LeavesDotted (E.lib R apply) (calls n) env)
  (hnul : ∀ n < N, 0 ∉ (calls n).func_name) (hj : JsonStrings R) (hpass : PassesJson E R)
include hid hd hnul hj

theorem reference_arrives_iff {env : Env V} (hs : starts host (E.lib R apply) genv fs calls N = some env) {g : Str} {n : Nat}
    {w : V} (hl : LastReturned host (E.lib R apply) genv fs calls N g n w) :
    Arrives E R ⟨none, env⟩ (.string (36 :: g)) w ↔ Passes E host R apply genv fs calls env N g n w := by
  have hg : 0 ∉ g := by
    rw [← hl.function]
    exact hnul n hl.before
  obtain ⟨session, hsaved, hkept, hlost⟩ := kept_binding hid hd hl N hl.before (Nat.le_refl N)
  obtain rfl : env = overlay session genv :=
    Option.some.inj (hs.symm.trans (starts_of_saved host (E.lib R apply) genv fs calls hid hsaved))
  have hget : Scope.get R ⟨none, overlay session genv⟩ (paste0 (lit ".") g) =
      (overlay session genv (eval_var_name g)).or (R.search (eval_var_name g)) := rfl
  refine exists_congr fun u => ?_
  rw [resolves_reference (string_reference hj hg), hget, and_assoc]
  refine and_congr_left fun _ => ?_
  by_cases hk : KeepsResult host (E.lib R apply) genv fs calls N g n
  · simp [hk, overlay_of_some (hkept hk), eq_comm]
  · simp [hk, hlost hk]

include hpass

theorem stands_arrives_iff {env : Env V} (hs : starts host (E.lib R apply) genv fs calls N = some env) {a : Json} {w : V}
    (h : Stands E host R apply genv fs calls N a w) : Arrives E R ⟨none, env⟩ a w ↔
    ∀ g n w, a = .string (36 :: g) → LastReturned host (E.lib R apply) genv fs calls N g n w →
      Passes E host R apply genv fs calls env N g n w := by
  rcases h with ⟨hlit, rfl⟩ | ⟨g, n, rfl, hl⟩
  · exact iff_of_true ⟨_, (resolves_literal (literal_no_reference hj hlit) _).mpr rfl, hpass _ a⟩
      fun g n w heq => absurd heq (hlit g)
  · rw [reference_arrives_iff hid hd hnul hj hs hl]
    constructor
    · intro h g' n' w' heq hl'
      cases heq
      obtain ⟨rfl, rfl⟩ := lastReturned_unique hl hl'
      exact h
    · intro h
      exact h g n w rfl hl

/-- **Arguments are passed faithfully** exactly when the session can be attached, the name
makes a call, and every value that is referred to is still kept, is not NULL, and stays
itself as an argument. -/
theorem arguments_faithful_iff {as : List Json} {ws : List V} (hargs : (calls N).string_args = .array as)
    (hws : List.Forall₂ (Stands E host R apply genv fs calls N) as ws) :
    Invoked E host R apply genv fs calls N ws ↔ ∃ env,
      Attaches genv (create_session_dir (served_calls host (E.lib R apply) genv fs calls N).fs
        (session_components [] (some x))) x
          ⟨none, env⟩ ∧
        call_object (calls N).func_name ≠ none ∧
        ∀ g n w, .string (36 :: g) ∈ as → LastReturned host (E.lib R apply) genv fs calls N g n w →
          Passes E host R apply genv fs calls env N g n w := by
  refine exists_congr fun env => ?_
  rw [← starts_iff host (E.lib R apply) genv fs calls hid, exists_and_left]
  refine and_congr_right fun hs => ?_
  have helem : List.Forall₂ (Arrives E R ⟨none, env⟩) as ws ↔
      ∀ a ∈ as, ∀ g n w, a = .string (36 :: g) → LastReturned host (E.lib R apply) genv fs calls N g n w →
        Passes E host R apply genv fs calls env N g n w :=
    forall₂_congr_mem hws fun a w h => stands_arrives_iff hid hd hnul hj hpass hs h
  simp only [applies_iff, hargs, call_args_iff hws.length_eq, helem, exists_and_right, ← Option.ne_none_iff_exists']
  refine and_congr_right fun _ => ?_
  constructor
  · intro h g n w hmem hl
    exact h _ hmem g n w rfl hl
  · intro h a hmem g n w heq hl
    exact h g n w (heq ▸ hmem) hl

end

/-! ## Two references -/

def echo_calling : Calling RData :=
  ⟨fun _ v => some v, fun _ _ sc => ⟨sc, .error ⟨lit "unexpected '<'", none⟩, []⟩⟩

abbrev echo_lib : RLib RData := echo_calling.lib echo_R echo_R.evaluate

def echo_call (args : List Json) : VrpcCall := { call_on_x (lit "echo") [] with string_args := .array args }

def echoes_back (a : Json) (n : Nat) : VrpcCall :=
  if n = 0 then echo_call [a] else echo_call [.boolean true, .string (lit "$echo")]

theorem echo_leaves (c : VrpcCall) (env : Env RData) : LeavesDotted echo_lib c env := by
  intro callee args _ _
  have hscope : (echo_lib.evaluate callee args ⟨none, env⟩).scope = ⟨none, env⟩ := by
    show (echo_calling.evaluate echo_R.evaluate callee args ⟨none, env⟩).scope = _
    unfold Calling.evaluate
    split
    · simp only [echo_R]
      split <;> rfl
    · rfl
  rw [hscope]
  exact ⟨rfl, fun g => Or.inl rfl⟩

theorem echo_strings : JsonStrings echo_R := by
  refine ⟨fun s => rfl, fun v h => ?_⟩
  cases v with
  | string s => exact absurd rfl (h s)
  | _ => rfl

def same_text (v w : RData) : Bool :=
  match v, w with
  | .null, .null => true
  | .character s, .character t => s == t
  | _, _ => false

theorem same_text_eq {v w : RData} (h : same_text v w = true) : w = v := by
  unfold same_text at h
  split at h
  · rfl
  · rw [beq_iff_eq.mp h]
  · cases h

def first_returned (a : Json) : Option RData := do
  let env ← starts (small_host []) echo_lib echo_genv (fun _ => none) (echoes_back a) 0
  let ev ← evaluate_call echo_lib (lit "echo") (.array [a]) ⟨none, env⟩
  ev.outcome.toOption

theorem echo_last_returned {a : Json} {w : RData} (h : (first_returned a).any (same_text w) = true) :
    LastReturned (small_host []) echo_lib echo_genv (fun _ => none) (echoes_back a) 1 (lit "echo") 0 w := by
  obtain ⟨w', hw', hsame⟩ := (Option.any_eq_true _ _).mp h
  obtain rfl := same_text_eq hsame
  unfold first_returned at hw'
  obtain ⟨env, hs, hw'⟩ := Option.bind_eq_some_iff.mp hw'
  obtain ⟨ev, he, hw⟩ := Option.bind_eq_some_iff.mp hw'
  have hok : ev.outcome = .ok w' := by
    cases ho : ev.outcome with
    | error e => rw [ho] at hw; cases hw
    | ok v => rw [ho] at hw; rw [Option.some.inj hw]
  exact ⟨Nat.one_pos, rfl, ⟨env, ev, hs, he, hok⟩, fun m h₁ h₂ => by omega⟩

theorem text_arrives :
    Invoked echo_calling (small_host []) echo_R echo_R.evaluate echo_genv (fun _ => none) (echoes_back (.string (lit "v"))) 1
      [.logical true, .character (lit "v")] := by
  have hl := echo_last_returned (a := .string (lit "v")) (w := .character (lit "v")) (by decide +kernel)
  have hid : ∀ k, (echoes_back (.string (lit "v")) k).instance_id = some (lit "x") := by
    intro k
    unfold echoes_back
    split <;> rfl
  have hattached : (starts (small_host []) echo_lib echo_genv (fun _ => none) (echoes_back (.string (lit "v"))) 1).isSome =
      true := by decide +kernel
  obtain ⟨env, hs⟩ := Option.isSome_iff_exists.mp hattached
  have hnul : ∀ n < 1, 0 ∉ (echoes_back (.string (lit "v")) n).func_name := by
    intro n hn
    obtain rfl : n = 0 := by omega
    decide
  have htrue : Stands echo_calling (small_host []) echo_R echo_R.evaluate echo_genv (fun _ => none)
      (echoes_back (.string (lit "v"))) 1 (.boolean true) (.logical true) := Or.inl ⟨fun g h => (by cases h), rfl⟩
  apply (arguments_faithful_iff hid (fun n _ env _ => echo_leaves _ env) hnul echo_strings (fun _ _ => rfl) rfl
    (.cons htrue (.cons (Or.inr ⟨lit "echo", 0, rfl, hl⟩) .nil))).mpr
  refine ⟨env, (starts_iff _ _ _ _ _ hid).mp hs, show call_object (lit "echo") ≠ none by decide, fun g n w hmem hl' => ?_⟩
  obtain rfl : g = lit "echo" := by
    rcases List.mem_cons.mp hmem with h | hmem
    · cases h
    · exact (List.cons.inj (Json.string.inj (List.mem_singleton.mp hmem))).2
  obtain ⟨rfl, rfl⟩ := lastReturned_unique hl hl'
  exact ⟨_, Or.inl ⟨fun m h₁ h₂ => by omega, rfl⟩, rfl, rfl⟩

theorem null_does_not_arrive :
    ¬ ∀ ws, List.Forall₂ (Stands echo_calling (small_host []) echo_R echo_R.evaluate echo_genv (fun _ => none)
          (echoes_back .null) 1) [.boolean true, .string (lit "$echo")] ws →
      Invoked echo_calling (small_host []) echo_R echo_R.evaluate echo_genv (fun _ => none) (echoes_back .null) 1 ws := by
  intro h
  have hl := echo_last_returned (a := .null) (w := .null) (by decide +kernel)
  have htrue : Stands echo_calling (small_host []) echo_R echo_R.evaluate echo_genv (fun _ => none)
      (echoes_back .null) 1 (.boolean true) (.logical true) := Or.inl ⟨fun g h => (by cases h), rfl⟩
  obtain ⟨env, callee, -, happ⟩ := h [.logical true, .null] (.cons htrue (.cons (Or.inr ⟨lit "echo", 0, rfl, hl⟩) .nil))
  obtain ⟨-, args, hargs, hvals⟩ := applies_iff.mp happ
  have hargs : call_args echo_R ⟨none, env⟩ (.array [.boolean true, .string (lit "$echo")]) = some args := hargs
  have harrive := (call_args_iff (by rfl)).mp ⟨args, hargs, hvals⟩
  obtain ⟨-, harrive⟩ := List.forall₂_cons.mp harrive
  obtain ⟨⟨u, hu, hw⟩, -⟩ := List.forall₂_cons.mp harrive
  obtain rfl : u = .null := Option.some.inj hw
  cases ((resolves_reference (string_reference echo_strings (g := lit "echo") (by decide)) _).mp hu).2

end VrpcAgent

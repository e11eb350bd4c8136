import VrpcAgent.Forks

/-!
# Sessions as a store

What the session directories are for: an environment saved under each instance
name. Forks load it, evaluate and save it again, and nothing about files can go
wrong. Dropping some calls from a run is not seen by the others, as long as the
calls on one name are dropped or kept together.
-/

namespace VrpcAgent

open Function Runs PartialMap

structure Store (V : Type) where
  saved : Str → Option (Env V)
  forks : Nat → Option (VrpcCall × Stage V)

section
variable {V : Type} (host : Host) (R : RLib V) (genv : Env V)

def Store.empty : Store V := ⟨fun _ => none, fun _ => none⟩

def attach_saved (saved : Str → Option (Env V)) : Option Str → Scope V
  | none => ⟨some fun _ => none, genv⟩
  | some x => ⟨none, overlay ((saved x).getD fun _ => none) genv⟩

def save_env (saved : Str → Option (Env V)) (sc : Scope V) : Option Str → Str → Option (Env V)
  | none => saved
  | some x => update saved x (some sc.genv)

def advance (saved : Str → Option (Env V)) (c : VrpcCall) : Stage V → (Str → Option (Env V)) × Stage V
  | .forked => (saved, .attached (attach_saved genv saved c.instance_id))
  | .attached sc =>
    match evaluate_call R c.func_name c.string_args sc with
    | none => (saved, .dead)
    | some ev => (saved, .evaluated sc ev)
  | .evaluated sc ev => (save_env saved ev.scope c.instance_id, .saved sc ev)
  | .saved sc ev =>
    match reply host R c ev with
    | none => (saved, .dead)
    | some (out, sent) => (saved, .replied sc ev out sent)
  | st => (saved, st)

def Store.step (s : Store V) : SessionEvent → Store V
  | .call k c _ =>
    match s.forks k with
    | some _ => s
    | none => { s with forks := update s.forks k (some (c, .forked)) }
  | .step k =>
    match s.forks k with
    | none => s
    | some (c, st) =>
      ⟨(advance host R genv s.saved c st).1, update s.forks k (some (c, (advance host R genv s.saved c st).2))⟩

/-! ## One step -/

theorem store_call_forks (s : Store V) (k : Nat) (c : VrpcCall) (tmp : Str) (k' : Nat) :
    (s.step host R genv (.call k c tmp)).forks k' =
      if k' = k then some ((s.forks k).getD (c, .forked)) else s.forks k' := by
  simp only [Store.step]
  cases hf : s.forks k with
  | none =>
    by_cases hk : k' = k
    · subst hk; simp
    · simp [hk]
  | some p =>
    by_cases hk : k' = k
    · subst hk; simp [hf]
    · simp [hk]

theorem store_step_forks (s : Store V) (k k' : Nat) :
    (s.step host R genv (.step k)).forks k' =
      if k' = k then (s.forks k).map fun p => (p.1, (advance host R genv s.saved p.1 p.2).2) else s.forks k' := by
  simp only [Store.step]
  cases hf : s.forks k with
  | none =>
    by_cases hk : k' = k
    · subst hk; simp [hf]
    · simp [hk]
  | some p =>
    by_cases hk : k' = k
    · subst hk; simp
    · simp [hk]

theorem store_call_saved (s : Store V) (k : Nat) (c : VrpcCall) (tmp : Str) :
    (s.step host R genv (.call k c tmp)).saved = s.saved := by
  simp only [Store.step]; split <;> rfl

theorem store_step_saved (s : Store V) (k : Nat) (x : Str) :
    (s.step host R genv (.step k)).saved x =
      (s.forks k).elim (s.saved x) fun p => (advance host R genv s.saved p.1 p.2).1 x := by
  simp only [Store.step]; cases s.forks k <;> rfl

theorem advance_congr {saved saved' : Str → Option (Env V)} {c : VrpcCall}
    (h : ∀ x, c.instance_id = some x → saved x = saved' x) (st : Stage V) :
    (advance host R genv saved c st).2 = (advance host R genv saved' c st).2 ∧
      ∀ x, c.instance_id = some x → (advance host R genv saved c st).1 x = (advance host R genv saved' c st).1 x := by
  cases st with
  | forked =>
    refine ⟨?_, h⟩
    cases hid : c.instance_id with
    | none => simp only [advance, hid, attach_saved]
    | some x => simp only [advance, hid, attach_saved, h x hid]
  | attached sc =>
    simp only [advance]
    cases evaluate_call R c.func_name c.string_args sc <;> exact ⟨rfl, h⟩
  | evaluated sc ev =>
    refine ⟨rfl, fun x hx => ?_⟩
    simp only [advance, hx, save_env, update_self]
  | saved sc ev =>
    simp only [advance]
    cases reply host R c ev <;> exact ⟨rfl, h⟩
  | _ => exact ⟨rfl, h⟩

theorem advance_of_ne (saved : Str → Option (Env V)) (c : VrpcCall) (st : Stage V) {x : Str}
    (h : c.instance_id ≠ some x) : (advance host R genv saved c st).1 x = saved x := by
  cases st with
  | attached sc => simp only [advance]; cases evaluate_call R c.func_name c.string_args sc <;> rfl
  | evaluated sc ev =>
    simp only [advance]
    cases hid : c.instance_id with
    | none => rfl
    | some y =>
      have hne : x ≠ y := by
        intro heq
        subst heq
        exact h hid
      simp only [save_env, update_of_ne hne]
  | saved sc ev => simp only [advance]; cases reply host R c ev <;> rfl
  | _ => rfl

/-! ## Dropping calls -/

section
variable (calls : Nat → VrpcCall) (keep : Nat → Bool)

def Numbered (s : Store V) : Prop := ∀ k c st, s.forks k = some (c, st) → c = calls k

def Kept (x : Str) : Prop := ∀ k, (calls k).instance_id = some x → keep k = true

structure SameKept (s t : Store V) : Prop where
  numbered : Numbered calls s
  forks : ∀ k, keep k = true → s.forks k = t.forks k
  saved : ∀ x, Kept calls keep x → s.saved x = t.saved x

variable {calls keep} {s t : Store V} {e : SessionEvent}

theorem numbered_step (h : Numbered calls s) (hc : Hands calls e) : Numbered calls (s.step host R genv e) := by
  intro k c st hk
  cases e with
  | call k' c' tmp =>
    rw [store_call_forks] at hk
    split at hk
    · rename_i hkk; subst hkk
      cases hf : s.forks k with
      | none => rw [hf] at hk; cases hk; exact hc k c tmp rfl
      | some p => rw [hf] at hk; cases hk; exact h k c st hf
    · exact h k c st hk
  | step k' =>
    rw [store_step_forks] at hk
    split at hk
    · rename_i hkk; subst hkk
      obtain ⟨p, hf, hp⟩ := Option.map_eq_some_iff.mp hk
      cases hp
      exact h k p.1 p.2 hf
    · exact h k c st hk

theorem numbered_empty : Numbered calls (Store.empty : Store V) := by
  intro k c st h; cases h

theorem run_numbered {evs : List SessionEvent} (hc : ∀ e ∈ evs, Hands calls e) :
    Numbered calls (run (Store.step host R genv) Store.empty evs) :=
  run_inv (P := Numbered calls) (fun _ _ hs he => numbered_step host R genv hs he) numbered_empty
    (along_of_mem fun e he _ => hc e he)

theorem sameKept_drop (h : SameKept calls keep s t) (hc : Hands calls e) (he : keep e.fork = false) :
    SameKept calls keep (s.step host R genv e) t := by
  refine ⟨numbered_step host R genv h.numbered hc, fun k hk => ?_, fun x hx => ?_⟩
  · rw [← h.forks k hk]
    have hne : k ≠ e.fork := by
      intro heq
      subst heq
      rw [he] at hk; cases hk
    cases e with
    | call k' c tmp => rw [store_call_forks]; exact if_neg hne
    | step k' => rw [store_step_forks]; exact if_neg hne
  · rw [← h.saved x hx]
    cases e with
    | call k c tmp => rw [store_call_saved]
    | step k =>
      rw [store_step_saved]
      cases hf : s.forks k with
      | none => rfl
      | some p =>
        obtain ⟨c, st⟩ := p
        obtain rfl := h.numbered k c st hf
        refine advance_of_ne host R genv s.saved _ st fun hid => ?_
        rw [SessionEvent.fork, hx k hid] at he; cases he

theorem sameKept_keep (hkeep : ∀ k x, keep k = true → (calls k).instance_id = some x → Kept calls keep x)
    (h : SameKept calls keep s t) (hc : Hands calls e) (he : keep e.fork = true) :
    SameKept calls keep (s.step host R genv e) (t.step host R genv e) := by
  refine ⟨numbered_step host R genv h.numbered hc, fun k hk => ?_, fun x hx => ?_⟩
  · cases e with
    | call k' c tmp => rw [store_call_forks, store_call_forks, h.forks k hk, h.forks k' he]
    | step k' =>
      rw [store_step_forks, store_step_forks, h.forks k hk, ← h.forks k' he]
      congr 1
      cases hf : s.forks k' with
      | none => rfl
      | some p =>
        obtain ⟨c, st⟩ := p
        obtain rfl := h.numbered k' c st hf
        have := (advance_congr host R genv (fun x hx => h.saved x (hkeep k' x he hx)) st).1
        simp only [Option.map_some, this]
  · cases e with
    | call k c tmp => rw [store_call_saved, store_call_saved, h.saved x hx]
    | step k =>
      rw [store_step_saved, store_step_saved, ← h.forks k he]
      cases hf : s.forks k with
      | none => exact h.saved x hx
      | some p =>
        obtain ⟨c, st⟩ := p
        obtain rfl := h.numbered k c st hf
        show (advance host R genv s.saved (calls k) st).1 x = (advance host R genv t.saved (calls k) st).1 x
        by_cases hid : (calls k).instance_id = some x
        · exact (advance_congr host R genv (fun y hy => h.saved y (hkeep k y he hy)) st).2 x hid
        · rw [advance_of_ne _ _ _ _ _ _ hid, advance_of_ne _ _ _ _ _ _ hid, h.saved x hx]

/-- **Dropped calls are not seen** by the calls on other names. -/
theorem store_purge (keep : Nat → Bool) (hkeep : ∀ k x, keep k = true → (calls k).instance_id = some x → Kept calls keep x)
    {evs : List SessionEvent} (hc : ∀ e ∈ evs, Hands calls e) :
    SameKept calls keep (run (Store.step host R genv) Store.empty evs)
      (run (Store.step host R genv) Store.empty (evs.filter fun e => keep e.fork)) := by
  have hk : ∀ s t e, SameKept calls keep s t → Hands calls e → keep e.fork = true →
      SameKept calls keep (s.step host R genv e) (t.step host R genv e) :=
    fun _ _ _ h hc he => sameKept_keep host R genv hkeep h hc he
  have hd : ∀ s t e, SameKept calls keep s t → Hands calls e → keep e.fork = false →
      SameKept calls keep (s.step host R genv e) t :=
    fun _ _ _ h hc he => sameKept_drop host R genv h hc he
  exact run_purge (fun e : SessionEvent => keep e.fork) hk hd
    ⟨numbered_empty, fun _ _ => rfl, fun _ _ => rfl⟩ hc

end

/-! ## Static calls -/

def static_reply (c : VrpcCall) : Outcome :=
  (evaluate_call R c.func_name c.string_args ⟨some fun _ => none, genv⟩).bind (reply host R c)

def StaticStage (c : VrpcCall) : Stage V → Prop
  | .forked => True
  | .attached sc => sc = ⟨some fun _ => none, genv⟩
  | .evaluated _ ev => evaluate_call R c.func_name c.string_args ⟨some fun _ => none, genv⟩ = some ev
  | .saved _ ev => evaluate_call R c.func_name c.string_args ⟨some fun _ => none, genv⟩ = some ev
  | .replied _ _ out sent => static_reply host R genv c = some (out, sent)
  | .dead => static_reply host R genv c = none

theorem static_advance {saved : Str → Option (Env V)} {c : VrpcCall} (hid : c.instance_id = none) {st : Stage V}
    (h : StaticStage host R genv c st) : StaticStage host R genv c (advance host R genv saved c st).2 := by
  cases st with
  | forked => simp only [advance, hid, attach_saved]; rfl
  | attached sc =>
    obtain rfl : sc = ⟨some fun _ => none, genv⟩ := h
    simp only [advance]
    cases he : evaluate_call R c.func_name c.string_args ⟨some fun _ => none, genv⟩ with
    | none => simp only [StaticStage, static_reply, he, Option.bind_none]
    | some ev => exact he
  | evaluated sc ev => exact h
  | saved sc ev =>
    have he : evaluate_call R c.func_name c.string_args ⟨some fun _ => none, genv⟩ = some ev := h
    simp only [advance]
    cases hr : reply host R c ev with
    | none => simp only [StaticStage, static_reply, he, Option.bind_some, hr]
    | some p => simp only [StaticStage, static_reply, he, Option.bind_some, hr]
  | _ => exact h

/-- **Static calls** only depend on themselves and on the agent. -/
theorem store_static (evs : List SessionEvent) {k : Nat} {c : VrpcCall} {st : Stage V}
    (h : (run (Store.step host R genv) Store.empty evs).forks k = some (c, st)) (hid : c.instance_id = none) :
    StaticStage host R genv c st := by
  refine run_inv (P := fun s : Store V => ∀ k c st, s.forks k = some (c, st) → c.instance_id = none →
    StaticStage host R genv c st) (fun s e hs _ k c st hk hid => ?_) (fun _ _ _ hk => ?_)
    (along_true Store.empty evs) k c st h hid
  · cases e with
    | call k' c' tmp =>
      rw [store_call_forks] at hk
      split at hk
      · cases hf : s.forks k' with
        | none => rw [hf] at hk; cases hk; trivial
        | some p => rw [hf] at hk; cases hk; exact hs k' c st hf hid
      · exact hs k c st hk hid
    | step k' =>
      rw [store_step_forks] at hk
      split at hk
      · obtain ⟨p, hf, hp⟩ := Option.map_eq_some_iff.mp hk
        cases hp
        exact static_advance host R genv hid (hs k' p.1 p.2 hf hid)
      · exact hs k c st hk hid
  · cases hk

theorem StaticStage.reply_eq {c : VrpcCall} {st : Stage V} (h : StaticStage host R genv c st) (ht : st.terminated = true) :
    st.reply = static_reply host R genv c := by
  cases st with
  | replied => exact h.symm
  | dead => exact h.symm
  | _ => cases ht

end

end VrpcAgent

import VrpcAgent.Isolation
import VrpcAgent.Routing

/-!
# The files the adapter touches

Whatever is sent to the agent, its adapter makes directories only directly below
`vrpc`, writes only the session files of instances that were called, and removes
nothing.
-/

namespace VrpcAgent

open Function Effects Runs PartialMap

section
variable {V : Type}

/-! ## Operations on files -/

theorem mkdirs_cases {p : Path} : ∀ (cs : List Str) (cur : Path) (fs : FS V),
    mkdirs fs cur cs p = fs p ∨ (p ∈ visits cur cs ∧ fs p = none ∧ mkdirs fs cur cs p = some .dir)
  | [], _, _ => Or.inl rfl
  | c :: cs, cur, fs => by
    unfold visits
    by_cases h1 : c = [] ∨ c = lit "."
    · rw [mkdirs_skip cs h1, if_pos h1]; exact mkdirs_cases cs cur fs
    · rw [if_neg h1]
      by_cases h2 : c = lit ".."
      · rw [mkdirs_up cs h1 h2, if_pos h2]; exact mkdirs_cases cs cur.dropLast fs
      · rw [if_neg h2]
        cases hn : fs (cur ++ [c]) with
        | none =>
          rw [mkdirs_new cs h1 h2 hn]
          by_cases hp : p = cur ++ [c]
          · subst hp
            exact Or.inr ⟨List.mem_cons_self, hn, mkdirs_of_some (update_self ..)⟩
          · have ih := mkdirs_cases (p := p) cs (cur ++ [c]) (update fs (cur ++ [c]) (some .dir))
            rw [update_of_ne hp] at ih
            exact ih.imp_right fun h => ⟨List.mem_cons_of_mem _ h.1, h.2⟩
        | some m =>
          by_cases hd : m = .dir
          · subst hd
            rw [mkdirs_dir cs h1 h2 hn]
            exact (mkdirs_cases cs (cur ++ [c]) fs).imp_right fun h => ⟨List.mem_cons_of_mem _ h.1, h.2⟩
          · rw [mkdirs_file cs h1 h2 hn hd]; exact Or.inl rfl

theorem create_session_dir_cases (fs : FS V) (cs : List Str) (p : Path) :
    create_session_dir fs cs p = fs p ∨
      (p ∈ visits [] cs ∧ fs p = none ∧ create_session_dir fs cs p = some .dir) := by
  unfold create_session_dir
  split
  · exact Or.inl rfl
  · exact mkdirs_cases cs [] fs

theorem write_files_cases {cwd p : Path} : ∀ (l : List (Str × Node V)) (fs : FS V),
    (write_files cwd l fs).1 p = fs p ∨
      ∃ x ∈ l, p = cwd ++ [x.1] ∧ Node.isDir (fs p) = false ∧ (write_files cwd l fs).1 p = some x.2
  | [], _ => Or.inl rfl
  | (f, n) :: l, fs => by
    unfold write_files
    split
    · exact Or.inl rfl
    · rename_i hd
      simp only [Bool.not_eq_true] at hd
      have ih := @write_files_cases cwd p l (update fs (cwd ++ [f]) (some n))
      by_cases hp : p = cwd ++ [f]
      · subst hp
        rw [update_self] at ih
        rcases ih with h | ⟨x, hx, hxp, -, h⟩
        · exact Or.inr ⟨(f, n), List.mem_cons_self, rfl, hd, h⟩
        · exact Or.inr ⟨x, List.mem_cons_of_mem _ hx, hxp, hd, h⟩
      · rw [update_of_ne hp] at ih
        rcases ih with h | ⟨x, hx, h⟩
        · exact Or.inl h
        · exact Or.inr ⟨x, List.mem_cons_of_mem _ hx, h⟩

theorem save_session_cases (fs : FS V) (cwd : Path) (x : Str) (sc : Scope V) (p : Path) :
    (save_session fs cwd (some x) sc).1 p = fs p ∨
      ∃ f ∈ session_files, p = cwd ++ [f] ∧ Node.isDir (fs p) = false ∧
        ∃ n, Node.isDir (some n) = false ∧ (save_session fs cwd (some x) sc).1 p = some n := by
  refine (write_files_cases (session_nodes sc.genv) fs).imp_right fun ⟨y, hy, hp, hd, h⟩ => ?_
  exact ⟨y.1, session_nodes_names hy, hp, hd, y.2, session_nodes_files sc.genv y hy, h⟩

/-! ## What becomes of a path -/

def SessionDir (p : Path) : Prop := p = [vrpc_dir] ∨ ∃ c, p = [vrpc_dir, c]

def SessionFile (U : Str → Prop) (p : Path) : Prop := ∃ x, U x ∧ ∃ f ∈ session_files, p = home x ++ [f]

/-- A path that `tempfile()` gives. -/
def TempFile (p : Path) : Prop := ∃ s, p = [lit "file" ++ s]

/-- A path keeps what it has, becomes a session directory, is written as a session file, or
has a file that was left behind. -/
inductive Touched (U : Str → Prop) (p : Path) : Option (Node V) → Option (Node V) → Prop
  | same (n : Option (Node V)) : Touched U p n n
  | made : SessionDir p → Touched U p none (some .dir)
  | written {n : Option (Node V)} {n' : Node V} : SessionFile U p → Node.isDir n = false →
      Node.isDir (some n') = false → Touched U p n (some n')
  | left : TempFile p → Touched U p none (some .other)

theorem Touched.trans {U : Str → Prop} {p : Path} {n n' n'' : Option (Node V)} (h : Touched U p n n')
    (h' : Touched U p n' n'') : Touched U p n n'' := by
  cases h with
  | same => exact h'
  | made hp =>
    cases h' with
    | same => exact .made hp
    | written hf hd hn => cases hd
  | written hf hd hn =>
    cases h' with
    | same => exact .written hf hd hn
    | written hf' hd' hn' => exact .written hf hd hn'
  | left hp =>
    cases h' with
    | same => exact .left hp
    | written hf hd hn => exact .written hf rfl hn

theorem session_dir_of_visits {tmp : Str} {id : Option Str} (hl : ∀ x, id = some x → Level x) {p : Path}
    (hp : p ∈ visits [] (session_components tmp id)) : SessionDir p := by
  cases id with
  | none => exact (visits_cases hp).imp_right fun h => ⟨_, h⟩
  | some x =>
    rw [components_of_level (hl x rfl)] at hp
    exact (visits_cases hp).imp_right fun h => ⟨_, h⟩

/-! ## Confinement -/

variable (host : Host) (opts : Options) (R : RLib V)

/-- The files `fs` of the start have become those of `s`, and the forks serve static
calls and the instances in `U`. -/
structure Confined (U : Str → Prop) (fs : FS V) (s : Sessions V) : Prop where
  sound : Sound s
  names : ∀ k f x, s.forks k = some f → f.call.instance_id = some x → U x
  touched : ∀ p, Touched U p (fs p) (s.fs p)

variable {U : Str → Prop} {fs : FS V} {s : Sessions V}

include host R in
theorem Confined.call (h : Confined U fs s) (hl : ∀ x, U x → Level x) (k : Nat) {c : VrpcCall} (tmp : Str)
    (hc : ∀ x, c.instance_id = some x → U x) : Confined U fs (s.call k c tmp) := by
  cases hf : s.forks k with
  | some f => simpa only [Sessions.call, hf] using h
  | none =>
    refine ⟨sound_step host R h.sound (.call k c tmp), fun k' f x hk' => ?_, fun p => (h.touched p).trans ?_⟩
    · rw [call_forks] at hk'
      split at hk'
      · rw [hf] at hk'; cases hk'; exact hc x
      · exact h.names k' f x hk'
    · simp only [Sessions.call, hf]
      rcases create_session_dir_cases s.fs (session_components tmp c.instance_id) p with hp | ⟨hp, hn, hd⟩
      · rw [hp]; apply Touched.same
      · rw [hn, hd]; exact .made (session_dir_of_visits (fun x hx => hl x (hc x hx)) hp)

theorem Confined.home (h : Confined U fs s) {k : Nat} {f : Fork V} (hf : s.forks k = some f) {cwd : Path}
    (hw : walk s.fs [] f.session_dir = some cwd) {x : Str} (hid : f.call.instance_id = some x) : cwd = home x := by
  obtain ⟨tmp, hd⟩ := h.sound.dir k f hf
  rw [walk_eq_dest hw, hd, hid]
  rfl

theorem Confined.json_call (h : Confined U fs s) {k : Nat} {f : Fork V} (hf : s.forks k = some f) (p : Path) :
    Touched U p (s.fs p) ((json_call_step host R s.fs f).1 p) := by
  rcases json_call_writes host R s.fs f with hj | ⟨sc, ev, cwd, -, hw, hj⟩
  · rw [hj]; apply Touched.same
  · rw [hj]
    cases hid : f.call.instance_id with
    | none => apply Touched.same
    | some x =>
      -- the fork is in the directory of its instance
      obtain rfl := h.home hf hw hid
      rcases save_session_cases s.fs (VrpcAgent.home x) x ev.scope p with hp | ⟨g, hg, hp, hdir, n, hn, hw'⟩
      · rw [hp]; apply Touched.same
      · rw [hw']; exact .written ⟨x, h.names k f x hf hid, g, hg, hp⟩ hdir hn

theorem Confined.step (h : Confined U fs s) (k : Nat) : Confined U fs (s.step host R (.step k)) := by
  cases hf : s.forks k with
  | none => simpa only [Sessions.step, hf] using h
  | some f =>
    refine ⟨sound_step host R h.sound (.step k), fun k' f' x hk' hid => ?_, fun p => (h.touched p).trans ?_⟩
    · rw [step_forks] at hk'
      split at hk'
      · rename_i hkk; subst hkk
        rw [hf] at hk'; cases hk'
        exact h.names k' f x hf hid
      · exact h.names k' f' x hk' hid
    · simp only [Sessions.step, hf]
      exact h.json_call host R hf p

/-! ## Every run -/

theorem called_of_call {k : Nat} {m : Msg} {mc : Except Str Unit} {tmp : Str} {a : Agent} {c : VrpcCall}
    (h : (after (handled host opts mc m a)).call = some c) :
    called host (.deliver k m mc tmp) = c.instance_id := by
  obtain ⟨r, fn, args, inst, hr, ha, rfl⟩ := call_of_handled host opts h
  simp only [called, hr, Option.map_some, ha]

theorem action_inst {mc : Except Str Unit} {inst function fn x : Str} {args args' : Json}
    (h : action mc inst function args = .call fn args' (some x)) : x = inst ∧ inst ≠ lit "__static__" := by
  unfold action first_string at h
  split at h
  · split at h
    · split at h <;> cases h
    · split at h
      · split at h <;> cases h
      · rcases call_action_cases mc function args none with ⟨fn', args'', hc⟩ | ⟨e, hc⟩ <;> rw [hc] at h <;> cases h
  · rename_i hstatic
    rcases call_action_cases mc function args (some inst) with ⟨fn', args'', hc⟩ | ⟨e, hc⟩ <;> rw [hc] at h <;> cases h
    exact ⟨rfl, hstatic⟩

theorem level_of_called {e : Event} {x : Str} (h : called host e = some x) : Level x := by
  cases e with
  | deliver k m mc tmp =>
    simp only [called] at h
    split at h
    · rename_i fn args inst hm
      obtain ⟨r, hr, ha⟩ := Option.map_eq_some_iff.mp hm
      subst h
      obtain ⟨rfl, -⟩ := action_inst ha
      obtain ⟨d, a, j, htok, -, -⟩ := request_some host hr
      apply single_of_token (x := m.topic)
      rw [htok]; simp
    · cases h
  | step k => cases h
  | ack i => cases h

def Called (evs : List Event) (x : Str) : Prop := ∃ e ∈ evs, called host e = some x

theorem confined_step {s : System V} (hl : ∀ x, U x → Level x) (h : Confined U fs s.sessions) {e : Event}
    (he : ∀ x, called host e = some x → U x) : Confined U fs (s.step host opts R e).sessions := by
  cases e with
  | deliver k m mc tmp =>
    simp only [System.step]
    split
    · simp only [System.deliver]
      cases hc : (after (handled host opts mc m s.agent)).call with
      | none => exact h
      | some c =>
        have hcall : called host (.deliver k m mc tmp) = c.instance_id := called_of_call host opts hc
        exact h.call host R hl k tmp fun x hx => he x (hcall.trans hx)
    · exact h
  | step k => exact h.step host R k
  | ack i =>
    simp only [System.step]
    split
    · exact h
    · split <;> exact h

end

end VrpcAgent

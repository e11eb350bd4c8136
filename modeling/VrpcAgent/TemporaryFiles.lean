import VrpcAgent.Confinement
import Mathlib.Data.Set.Function

/-!
# What stays in the temporary directory

A fork that cannot print a plot leaves the file of the SVG device in `tempdir()`. No
session looks there: beside these files, the agent and its forks do what they do without
them.
-/

namespace VrpcAgent

open Function Effects Runs

section
variable {V : Type}

/-! ## File systems that agree on some paths -/

section
variable {S : Set Path} {fs fs' : FS V}

theorem walk_agrees (h : Set.EqOn fs fs' S) : ∀ {cs : List Str} {cur : Path}, (∀ d ∈ visits cur cs, d ∈ S) →
    walk fs cur cs = walk fs' cur cs
  | [], _, _ => rfl
  | c :: cs, cur, hv => by
    unfold visits at hv
    unfold walk
    split
    · rename_i h1
      rw [if_pos h1] at hv
      exact walk_agrees h hv
    · rename_i h1
      rw [if_neg h1] at hv
      split
      · rename_i h2
        rw [if_pos h2] at hv
        exact walk_agrees h hv
      · rename_i h2
        rw [if_neg h2] at hv
        rw [h (hv _ List.mem_cons_self), walk_agrees h fun d hd => hv d (List.mem_cons_of_mem _ hd)]

theorem update_agrees (h : Set.EqOn fs fs' S) (p : Path) (n : Option (Node V)) :
    Set.EqOn (update fs p n) (update fs' p n) S := by
  intro q hq
  by_cases hp : q = p
  · subst hp
    rw [update_self, update_self]
  · rw [update_of_ne hp, update_of_ne hp, h hq]

theorem mkdirs_agrees : ∀ {cs : List Str} {cur : Path} {fs fs' : FS V}, Set.EqOn fs fs' S → (∀ d ∈ visits cur cs, d ∈ S) →
    Set.EqOn (mkdirs fs cur cs) (mkdirs fs' cur cs) S
  | [], _, _, _, h, _ => h
  | c :: cs, cur, fs, fs', h, hv => by
    unfold visits at hv
    by_cases h1 : c = [] ∨ c = lit "."
    · rw [if_pos h1] at hv
      rw [mkdirs_skip cs h1, mkdirs_skip cs h1]
      exact mkdirs_agrees h hv
    · rw [if_neg h1] at hv
      by_cases h2 : c = lit ".."
      · rw [if_pos h2] at hv
        rw [mkdirs_up cs h1 h2, mkdirs_up cs h1 h2]
        exact mkdirs_agrees h hv
      · rw [if_neg h2] at hv
        have hc := h (hv _ List.mem_cons_self)
        have hrest := fun d hd => hv d (List.mem_cons_of_mem _ hd)
        cases hn : fs (cur ++ [c]) with
        | none =>
          rw [mkdirs_new cs h1 h2 hn, mkdirs_new cs h1 h2 (hc.symm.trans hn)]
          exact mkdirs_agrees (update_agrees h ..) hrest
        | some n =>
          by_cases hd : n = .dir
          · subst hd
            rw [mkdirs_dir cs h1 h2 hn, mkdirs_dir cs h1 h2 (hc.symm.trans hn)]
            exact mkdirs_agrees h hrest
          · rw [mkdirs_file cs h1 h2 hn hd, mkdirs_file cs h1 h2 (hc.symm.trans hn) hd]
            exact h

theorem create_session_dir_agrees (h : Set.EqOn fs fs' S) {cs : List Str} (hv : ∀ d ∈ visits [] cs, d ∈ S) :
    Set.EqOn (create_session_dir fs cs) (create_session_dir fs' cs) S := by
  unfold create_session_dir
  rw [walk_agrees h hv]
  split
  · exact h
  · exact mkdirs_agrees h hv

theorem write_files_agrees {cwd : Path} : ∀ {l : List (Str × Node V)} {fs fs' : FS V}, Set.EqOn fs fs' S →
    (∀ x ∈ l, cwd ++ [x.1] ∈ S) →
    (write_files cwd l fs).2 = (write_files cwd l fs').2 ∧ Set.EqOn (write_files cwd l fs).1 (write_files cwd l fs').1 S
  | [], _, _, h, _ => ⟨rfl, h⟩
  | (f, n) :: l, fs, fs', h, hl => by
    obtain ⟨hf, hrest⟩ := List.forall_mem_cons.mp hl
    unfold write_files
    rw [h hf]
    split
    · exact ⟨rfl, h⟩
    · exact write_files_agrees (update_agrees h ..) hrest

end

/-! ## Temporary files -/

/-- `tempfile` gives a name that is not in use. -/
def leave (left : Option Path) (fs : FS V) : FS V :=
  match left with
  | none => fs
  | some p =>
    match fs p with
    | none => update fs p (some .other)
    | some _ => fs

def Fork.leaves (R : RLib V) (f : Fork V) : Option Path :=
  match f.stage with
  | .saved _ ev => output_left R f.call.func_name ev
  | _ => none

def Sessions.with_files (s : Sessions V) (fs : FS V) : Sessions V := { s with fs := fs }

def System.with_files (s : System V) (fs : FS V) : System V := { s with sessions := s.sessions.with_files fs }

def System.leaves (R : RLib V) (s : System V) : Event → Option Path
  | .step k => (s.sessions.forks k).bind (Fork.leaves R)
  | _ => none

def System.step_leaving (host : Host) (opts : Options) (R : RLib V) (s : System V) (e : Event) : System V :=
  (s.step host opts R e).with_files (leave (s.leaves R e) (s.step host opts R e).sessions.fs)

theorem leave_cases (left : Option Path) (fs : FS V) (p : Path) :
    leave left fs p = fs p ∨ left = some p ∧ fs p = none ∧ leave left fs p = some .other := by
  cases left with
  | none => exact Or.inl rfl
  | some q =>
    cases hn : fs q with
    | none =>
      have hleave : leave (some q) fs = update fs q (some .other) := by simp only [leave, hn]
      rw [hleave]
      by_cases hp : p = q
      · subst hp
        exact Or.inr ⟨rfl, hn, update_self ..⟩
      · exact Or.inl (update_of_ne hp ..)
    | some n => exact Or.inl (by simp only [leave, hn])

theorem temp_of_leaves {R : RLib V} {s : System V} {e : Event} {p : Path} (h : s.leaves R e = some p) : TempFile p := by
  have hgfx : ∀ {q : Plot}, gfx_left q = some p → TempFile p := by
    intro q hq
    unfold gfx_left at hq
    split at hq
    · exact ⟨q.gfx_file, (Option.some.inj hq).symm⟩
    · cases hq
  have hout : ∀ {fn : Str} {ev : Evaluation V}, output_left R fn ev = some p → TempFile p := by
    intro fn ev hev
    unfold output_left at hev
    split at hev
    · cases hev
    · split at hev
      · cases hev
      · split at hev
        · obtain ⟨q, -, hq⟩ := Option.bind_eq_some_iff.mp hev
          exact hgfx hq
        · cases hev
  cases e with
  | step k =>
    obtain ⟨f, -, hf⟩ := Option.bind_eq_some_iff.mp h
    unfold Fork.leaves at hf
    split at hf
    · exact hout hf
    · cases hf
  | _ => cases h

theorem leave_agrees {left : Option Path} (hleft : ∀ p, left = some p → TempFile p) (fs : FS V) :
    Set.EqOn (leave left fs) fs {p | ¬ TempFile p} := by
  intro p hp
  rcases leave_cases left fs p with h | ⟨h, -⟩
  · exact h
  · exact absurd (hleft p h) hp

/-! ## Sessions do not look there -/

theorem session_file_apart {f : Str} (hf : f ∈ session_files) (cwd : Path) : ¬ TempFile (cwd ++ [f]) := by
  rintro ⟨s, hs⟩
  have hcwd : cwd = [] := by
    have hlen := congrArg List.length hs
    rw [List.length_append, List.length_singleton, List.length_singleton] at hlen
    exact List.length_eq_zero_iff.mp (by omega)
  subst hcwd
  have hhead : f.head? = some 102 := by
    rw [List.nil_append] at hs
    rw [List.cons.inj hs |>.1]
    rfl
  have hnames : ∀ f ∈ session_files, f.head? ≠ some 102 := by decide +kernel
  exact hnames f hf hhead

theorem session_dir_apart {p : Path} (h : SessionDir p) : ¬ TempFile p := by
  rintro ⟨s, rfl⟩
  rcases h with h | ⟨c, h⟩
  · have hhead : some (102 : UInt8) = some 118 := congrArg (fun p : Path => (p.headD []).head?) h
    exact absurd hhead (by decide)
  · have hlen := congrArg List.length h
    cases hlen

variable (host : Host) (opts : Options) (R : RLib V)

section
variable {fs fs' : FS V} (h : Set.EqOn fs fs' {p | ¬ TempFile p}) (cwd : Path)
include h

theorem attach_session_agrees (id : Option Str) (genv : Env V) :
    attach_session fs cwd id genv = attach_session fs' cwd id genv := by
  unfold attach_session
  rw [h (session_file_apart (f := lit ".RData") (by decide) cwd)]

theorem save_session_agrees (id : Option Str) (sc : Scope V) :
    (save_session fs cwd id sc).2 = (save_session fs' cwd id sc).2 ∧
      Set.EqOn (save_session fs cwd id sc).1 (save_session fs' cwd id sc).1 {p | ¬ TempFile p} := by
  cases id with
  | none => exact ⟨rfl, h⟩
  | some x => exact write_files_agrees h fun y hy => session_file_apart (session_nodes_names hy) cwd

theorem json_call_step_agrees {f : Fork V} (hf : ∀ d ∈ visits [] f.session_dir, ¬ TempFile d) :
    (json_call_step host R fs f).2 = (json_call_step host R fs' f).2 ∧
      Set.EqOn (json_call_step host R fs f).1 (json_call_step host R fs' f).1 {p | ¬ TempFile p} := by
  have hw := walk_agrees h hf
  unfold json_call_step
  rw [hw]
  split
  · split
    · exact ⟨rfl, h⟩
    · rw [attach_session_agrees h]
      split <;> exact ⟨rfl, h⟩
  · split <;> exact ⟨rfl, h⟩
  · rename_i sc ev _
    split
    · exact ⟨rfl, h⟩
    · rename_i cwd _
      obtain ⟨hok, hfiles⟩ := save_session_agrees h cwd f.call.instance_id ev.scope
      split <;> split <;> simp_all
  · split
    · exact ⟨rfl, h⟩
    · split <;> exact ⟨rfl, h⟩
  · exact ⟨rfl, h⟩
  · exact ⟨rfl, h⟩

end

def DirsApart (s : Sessions V) : Prop := ∀ k f, s.forks k = some f → ∀ d ∈ visits [] f.session_dir, ¬ TempFile d

section
variable {s : Sessions V} {fs : FS V} (h : Set.EqOn s.fs fs {p | ¬ TempFile p}) (hs : DirsApart s) (k : Nat)
include h

theorem call_with_files {c : VrpcCall} {tmp : Str}
    (hc : ∀ d ∈ visits [] (session_components tmp c.instance_id), ¬ TempFile d) :
    ∃ fs', (s.with_files fs).call k c tmp = (s.call k c tmp).with_files fs' ∧
      Set.EqOn (s.call k c tmp).fs fs' {p | ¬ TempFile p} := by
  cases hf : s.forks k with
  | some f =>
    refine ⟨fs, ?_, ?_⟩
    · simp only [Sessions.call, Sessions.with_files, hf]
    · simpa only [Sessions.call, hf] using h
  | none =>
    refine ⟨create_session_dir fs (session_components tmp c.instance_id), ?_, ?_⟩
    · simp only [Sessions.call, Sessions.with_files, hf]
    · simp only [Sessions.call, hf]
      exact create_session_dir_agrees h hc

include hs

theorem step_with_files :
    (∃ fs', (s.with_files fs).step host R (.step k) = (s.step host R (.step k)).with_files fs' ∧
      Set.EqOn (s.step host R (.step k)).fs fs' {p | ¬ TempFile p}) ∧
    (s.with_files fs).fork_writes host R k = s.fork_writes host R k := by
  cases hf : s.forks k with
  | none =>
    refine ⟨⟨fs, ?_, ?_⟩, ?_⟩
    · simp only [Sessions.step, Sessions.with_files, hf]
    · simpa only [Sessions.step, hf] using h
    · simp only [Sessions.fork_writes, Sessions.with_files, hf]
  | some f =>
    obtain ⟨hstage, hfiles⟩ := json_call_step_agrees host R h (hs k f hf)
    refine ⟨⟨(json_call_step host R fs f).1, ?_, ?_⟩, ?_⟩
    · simp only [Sessions.step, Sessions.with_files, hf, hstage]
    · simpa only [Sessions.step, hf] using hfiles
    · simp only [Sessions.fork_writes, Sessions.with_files, hf, hstage]

end

/-- `t` is `s` with files that have been left behind. -/
def Beside (s t : System V) : Prop :=
  DirsApart s.sessions ∧ ∃ fs, t = s.with_files fs ∧ Set.EqOn s.sessions.fs fs {p | ¬ TempFile p}

theorem call_dir_apart {k : Nat} {m : Msg} {mc : Except Str Unit} {tmp : Str} {a : Agent} {c : VrpcCall}
    (h : (after (handled host opts mc m a)).call = some c) :
    ∀ d ∈ visits [] (session_components tmp c.instance_id), ¬ TempFile d := by
  have hid : called host (.deliver k m mc tmp) = c.instance_id := called_of_call host opts h
  intro d hd
  exact session_dir_apart (session_dir_of_visits (fun x hx => level_of_called host (hid.trans hx)) hd)

theorem dirs_apart_step {s : System V} (h : DirsApart s.sessions) (e : Event) :
    DirsApart (s.step host opts R e).sessions := by
  cases e with
  | deliver k m mc tmp =>
    simp only [System.step]
    split
    · simp only [System.deliver]
      cases hc : (after (handled host opts mc m s.agent)).call with
      | none => exact h
      | some c =>
        intro k' f hf
        rw [Sessions.start, call_forks] at hf
        split at hf
        · cases hk : s.sessions.forks k with
          | none =>
            rw [hk] at hf
            cases hf
            exact call_dir_apart host opts (k := k) hc
          | some g =>
            rw [hk] at hf
            cases hf
            exact h k g hk
        · exact h k' f hf
    · exact h
  | step k =>
    intro k' f hf
    simp only [System.step] at hf
    rw [step_forks] at hf
    split at hf
    · obtain ⟨g, hg, rfl⟩ := Option.map_eq_some_iff.mp hf
      exact h k g hg
    · exact h k' f hf
  | ack i =>
    simp only [System.step]
    split
    · exact h
    · split <;> exact h

theorem beside_step {s t : System V} (h : Beside s t) (e : Event) :
    Beside (s.step host opts R e) (t.step_leaving host opts R e) := by
  obtain ⟨hdirs, fs, rfl, hfs⟩ := h
  refine ⟨dirs_apart_step host opts R hdirs e, ?_⟩
  obtain ⟨fs', hstep, hfs'⟩ : ∃ fs', (s.with_files fs).step host opts R e = (s.step host opts R e).with_files fs' ∧
      Set.EqOn (s.step host opts R e).sessions.fs fs' {p | ¬ TempFile p} := by
    cases e with
    | deliver k m mc tmp =>
      by_cases hrun : s.running = true ∧ (s.deliveries k).isNone
      · have hstart : ∃ fs', (s.sessions.with_files fs).start k tmp (after (handled host opts mc m s.agent)).call =
            (s.sessions.start k tmp (after (handled host opts mc m s.agent)).call).with_files fs' ∧
            Set.EqOn (s.sessions.start k tmp (after (handled host opts mc m s.agent)).call).fs fs' {p | ¬ TempFile p} := by
          cases hc : (after (handled host opts mc m s.agent)).call with
          | none => exact ⟨fs, rfl, hfs⟩
          | some c => exact call_with_files hfs k (call_dir_apart host opts (k := k) hc)
        obtain ⟨fs', hcall, hfs'⟩ := hstart
        refine ⟨fs', ?_, ?_⟩
        · simp only [System.step, System.with_files, hrun, and_self, if_true, System.deliver] at hcall ⊢
          rw [hcall]
        · simpa only [System.step, hrun, and_self, if_true, System.deliver] using hfs'
      · refine ⟨fs, ?_, ?_⟩
        · simp only [System.step, System.with_files, hrun, if_false]
        · simpa only [System.step, hrun, if_false] using hfs
    | step k =>
      obtain ⟨⟨fs', hrun, hfs'⟩, hwrites⟩ := step_with_files host R hfs hdirs k
      refine ⟨fs', ?_, hfs'⟩
      simp only [System.step, System.with_files] at hrun ⊢
      rw [hrun, hwrites]
    | ack i =>
      refine ⟨fs, ?_, ?_⟩
      · cases hi : s.unacked[i]? with
        | none => simp only [System.step, System.with_files, hi]
        | some p => cases hr : s.running <;> simp [System.step, System.with_files, hi, hr]
      · simp only [System.step]
        split
        · exact hfs
        · split <;> exact hfs
  refine ⟨leave ((s.with_files fs).leaves R e) fs', ?_, hfs'.trans (leave_agrees (fun p hp => temp_of_leaves hp) fs').symm⟩
  rw [System.step_leaving, hstep]
  rfl

/-! ## Every run -/

variable {U : Str → Prop} {fs : FS V}

theorem Confined.leave {s : Sessions V} (h : Confined U fs s) {left : Option Path} (hleft : ∀ p, left = some p → TempFile p) :
    Confined U fs (s.with_files (leave left s.fs)) := by
  refine ⟨⟨h.sound.genv, h.sound.dir⟩, h.names, fun p => ?_⟩
  rcases leave_cases left s.fs p with hp | ⟨hp, hn, hn'⟩
  · rw [show (s.with_files (VrpcAgent.leave left s.fs)).fs p = s.fs p from hp]
    exact h.touched p
  · refine (h.touched p).trans ?_
    rw [hn, show (s.with_files (VrpcAgent.leave left s.fs)).fs p = some .other from hn']
    exact .left (hleft p hp)

/-- **The adapter is confined.** Whatever is delivered, in whatever order the forks
run: the instances that are called are single path components, and a path is as it was, or
`vrpc` or one directly below it and now a directory, or a session file of an instance
that was called, or the file of a plot that could not be printed. The session files are in
`vrpc/x`; `.` has them in `vrpc` and `..` beside it. But for the files that are left behind,
the system is the one in which none are. -/
theorem files_confined (genv : Env V) (fs : FS V) (evs : List Event) :
    let s := run (System.step_leaving host opts R) (System.start host opts genv fs) evs
    (∀ x, Called host evs x →
      Level x ∧ (x = lit "." ∧ home x = [vrpc_dir] ∨ x = lit ".." ∧ home x = [] ∨ home x = [vrpc_dir, x])) ∧
    (∀ p, Touched (Called host evs) p (fs p) (s.sessions.fs p)) ∧
    ∃ fs', s = (reached host opts R genv fs evs).with_files fs' ∧
      Set.EqOn (reached host opts R genv fs evs).sessions.fs fs' {p | ¬ TempFile p} := by
  have hl : ∀ x, Called host evs x → Level x := fun x ⟨e, _, hx⟩ => level_of_called host hx
  have h0 : Confined (Called host evs) fs (System.start host opts genv fs).sessions :=
    ⟨⟨nofun, nofun⟩, nofun, fun p => .same (fs p)⟩
  have hstep : ∀ (s : System V) (e : Event), Confined (Called host evs) fs s.sessions →
      (∀ x, called host e = some x → Called host evs x) →
      Confined (Called host evs) fs (s.step_leaving host opts R e).sessions :=
    fun s e hs he => (confined_step host opts R hl hs he).leave fun p hp => temp_of_leaves hp
  have hrun := run_inv (P := fun s : System V => Confined (Called host evs) fs s.sessions)
    (G := fun _ e => ∀ x, called host e = some x → Called host evs x) hstep h0
    (along_of_mem fun e he _ x hx => ⟨e, he, hx⟩)
  have hstart : Beside (System.start host opts genv fs) (System.start host opts genv fs) :=
    ⟨nofun, fs, rfl, Set.eqOn_refl _ _⟩
  have hbeside : Beside (reached host opts R genv fs evs)
      (run (System.step_leaving host opts R) (System.start host opts genv fs) evs) :=
    run_lockstep (R := Beside) (fun s t e h => beside_step host opts R h e) hstart
  exact ⟨fun x hx => ⟨hl x hx, home_cases (hl x hx)⟩, hrun.touched, hbeside.2⟩

end

end VrpcAgent

import VrpcAgent.Store

/-!
# Sessions do not interfere

The files of the sessions refine the store, as long as no session has its
directory where another one has a file. Instance names that are one topic level
can only clash in one way: `.` keeps its files beside the directories of the
others, so that a session of the name of a session file is in its way.
-/

namespace VrpcAgent

open Function Runs PartialMap

section
variable {V : Type}

/-! ## Where sessions are -/

def Level (x : Str) : Prop := x ≠ [] ∧ 47 ∉ x

def home (x : Str) : Path := dest [] (session_components [] (some x))

theorem components_of_level {x : Str} (h : Level x) (tmp : Str) : session_components tmp (some x) = [vrpc_dir, x] := by
  rw [session_components, List.splitOn_eq_singleton h.2]

theorem home_cases {x : Str} (h : Level x) :
    x = lit "." ∧ home x = [vrpc_dir] ∨ x = lit ".." ∧ home x = [] ∨ home x = [vrpc_dir, x] := by
  rw [home, components_of_level h]
  by_cases h1 : x = lit "."
  · subst h1; exact Or.inl ⟨rfl, by decide⟩
  · by_cases h2 : x = lit ".."
    · subst h2; exact Or.inr (Or.inl ⟨rfl, by decide⟩)
    · refine Or.inr (Or.inr ?_)
      simp only [dest, h.1, h1, h2, or_self, if_false]
      rfl

theorem home_injective {x y : Str} (hx : Level x) (hy : Level y) (h : home x = home y) : x = y := by
  rcases home_cases hx with ⟨rfl, h1⟩ | ⟨rfl, h1⟩ | h1 <;> rcases home_cases hy with ⟨rfl, h2⟩ | ⟨rfl, h2⟩ | h2 <;>
    simp_all

theorem visits_cases {c : Str} {d : Path} (hd : d ∈ visits [] [vrpc_dir, c]) : d = [vrpc_dir] ∨ d = [vrpc_dir, c] := by
  have hv : visits [] [vrpc_dir, c] = [vrpc_dir] :: visits [vrpc_dir] [c] := rfl
  rw [hv, List.mem_cons] at hd
  refine hd.imp_right fun hd => ?_
  simp only [visits] at hd
  split at hd
  · cases hd
  · split at hd
    · cases hd
    · exact List.mem_singleton.mp hd

def InUse (U : Str → Prop) (cs : List Str) : Prop :=
  (∃ x, U x ∧ cs = session_components [] (some x)) ∨ ∃ tmp, cs = session_components tmp none

/-- No session directory is a session file, or above one. -/
def Apart (U : Str → Prop) : Prop :=
  ∀ cs, InUse U cs → ∀ d ∈ visits [] cs, ∀ x, U x → ∀ f ∈ session_files, d ≠ home x ++ [f]

def NoClash (U : Str → Prop) : Prop := U (lit ".") → ∀ f ∈ session_files, ¬ U f

theorem apart_of_noClash {U : Str → Prop} (hl : ∀ x, U x → Level x) (h : NoClash U) : Apart U := by
  -- a directory is `vrpc` or `vrpc/c`, and a file of `.` is `vrpc/f`
  have key : ∀ c, (∀ f ∈ session_files, U (lit ".") → c ≠ f) → ∀ d ∈ visits [] [vrpc_dir, c], ∀ x, U x →
      ∀ f ∈ session_files, d ≠ home x ++ [f] := by
    intro c hc d hd x hx f hf hdf
    have hv : f ≠ vrpc_dir := by
      intro heq
      subst heq
      exact absurd hf (by decide)
    rcases visits_cases hd with rfl | rfl <;> rcases home_cases (hl x hx) with ⟨rfl, h1⟩ | ⟨rfl, h1⟩ | h1 <;>
      rw [h1] at hdf <;> simp at hdf
    · exact hv hdf.symm
    · exact hc f hf hx hdf
  intro cs hcs
  rcases hcs with ⟨x, hx, rfl⟩ | ⟨tmp, rfl⟩
  · rw [components_of_level (hl x hx)]
    exact key x fun f hf hdot hxf => h hdot f hf (hxf ▸ hx)
  · refine key _ fun f hf _ hfs => ?_
    subst hfs
    simp [session_files, lit] at hf

/-! ## The refinement -/

variable (host : Host) (R : RLib V) (genv : Env V)

def initial (genv : Env V) : Sessions V := ⟨genv, fun _ => none, fun _ => none⟩

structure Refines (U : Str → Prop) (s : Sessions V) (t : Store V) : Prop where
  sound : Sound s
  genv : s.genv = genv
  names : ∀ k f x, s.forks k = some f → f.call.instance_id = some x → U x
  forks : ∀ k, (s.forks k).map (fun f => (f.call, f.stage)) = t.forks k
  walked : ∀ k f, s.forks k = some f → ∀ d ∈ visits [] f.session_dir, s.fs d = some .dir
  dirs : ∀ p, s.fs p = some .dir → ∃ cs, InUse U cs ∧ p ∈ visits [] cs
  files : ∀ p n, s.fs p = some n → n ≠ .dir → ∃ x, U x ∧ ∃ f ∈ session_files, p = home x ++ [f]
  saved : ∀ x, U x → s.fs (home x ++ [lit ".RData"]) = (t.saved x).map .rdata
  made : ∀ x env, t.saved x = some env → U x ∧ ∀ d ∈ visits [] (session_components [] (some x)), s.fs d = some .dir

variable {genv} {U : Str → Prop} {s : Sessions V} {t : Store V}

theorem refines_initial : Refines genv U (initial genv) Store.empty where
  sound := ⟨nofun, nofun⟩
  genv := rfl
  names := nofun
  forks _ := rfl
  walked := nofun
  dirs := nofun
  files := nofun
  saved _ _ := rfl
  made := nofun

theorem Refines.free (h : Refines genv U s t) (hU : Apart U) {cs : List Str} (hcs : InUse U cs) :
    ∀ d ∈ visits [] cs, s.fs d = none ∨ s.fs d = some .dir := by
  intro d hd
  cases hn : s.fs d with
  | none => exact Or.inl rfl
  | some n =>
    by_cases hdir : n = .dir
    · exact Or.inr (by rw [hdir])
    · obtain ⟨x, hx, f, hf, rfl⟩ := h.files d n hn hdir
      exact absurd rfl (hU cs hcs _ hd x hx f hf)

theorem Refines.call (h : Refines genv U s t) (hU : Apart U) (k : Nat) {c : VrpcCall} (tmp : Str)
    (hc : ∀ x, c.instance_id = some x → U x) :
    Refines genv U (s.call k c tmp) (t.step host R genv (.call k c tmp)) := by
  have hcs : InUse U (session_components tmp c.instance_id) := by
    cases hid : c.instance_id with
    | none => exact Or.inr ⟨tmp, rfl⟩
    | some x => exact Or.inl ⟨x, hc x hid, rfl⟩
  cases hf : s.forks k with
  | some f =>
    have ht : t.forks k = some (f.call, f.stage) := by rw [← h.forks k, hf]; rfl
    simpa only [Sessions.call, Store.step, hf, ht] using h
  | none =>
    have hfs : (s.call k c tmp).fs = fun p => if p ∈ visits [] (session_components tmp c.instance_id) then some .dir
        else s.fs p := by
      simp only [Sessions.call, hf]; exact create_session_dir_eq (h.free hU hcs)
    have hnew : (s.call k c tmp).forks k = some ⟨c, session_components tmp c.instance_id, s.genv, .forked⟩ := by
      rw [call_forks, if_pos rfl, hf]; rfl
    have hold : ∀ k', k' ≠ k → (s.call k c tmp).forks k' = s.forks k' := fun k' hk => by rw [call_forks, if_neg hk]
    have hdir : ∀ p, s.fs p = some .dir → (s.call k c tmp).fs p = some .dir := by
      intro p hp; rw [hfs]; dsimp only; split
      · rfl
      · exact hp
    refine ⟨sound_step host R h.sound (.call k c tmp), (step_genv host R s (.call k c tmp)).trans h.genv,
      fun k' f x hk' => ?_, fun k' => ?_, fun k' f hk' => ?_, fun p hp => ?_, fun p n hp hn => ?_, fun x hx => ?_,
      fun x env hx => ?_⟩
    · by_cases hkk : k' = k
      · subst hkk; rw [hnew] at hk'; cases hk'; exact hc x
      · rw [hold k' hkk] at hk'; exact h.names k' f x hk'
    · rw [store_call_forks, ← h.forks k', ← h.forks k, hf]
      by_cases hkk : k' = k
      · subst hkk; rw [hnew, if_pos rfl]; rfl
      · rw [hold k' hkk, if_neg hkk]
    · by_cases hkk : k' = k
      · subst hkk; rw [hnew] at hk'; cases hk'
        intro d hd; rw [hfs]; exact if_pos hd
      · rw [hold k' hkk] at hk'
        exact fun d hd => hdir d (h.walked k' f hk' d hd)
    · rw [hfs] at hp; dsimp only at hp
      split at hp
      · exact ⟨_, hcs, ‹_›⟩
      · exact h.dirs p hp
    · rw [hfs] at hp; dsimp only at hp
      split at hp
      · cases hp; exact absurd rfl hn
      · exact h.files p n hp hn
    · rw [hfs, store_call_saved]; dsimp only
      rw [if_neg fun hd => hU _ hcs _ hd x hx _ List.mem_cons_self rfl]
      exact h.saved x hx
    · rw [store_call_saved] at hx
      exact ⟨(h.made x env hx).1, fun d hd => hdir d ((h.made x env hx).2 d hd)⟩

theorem load_saved (genv : Env V) (e : Option (Env V)) :
    load genv (e.map .rdata) = some ⟨none, overlay (e.getD fun _ => none) genv⟩ := by
  cases e with
  | none => rw [Option.getD_none, none_overlay]; rfl
  | some env => rfl

structure Tracks (U : Str → Prop) (fs fs' : FS V) (saved : Str → Option (Env V)) : Prop where
  dirs : ∀ p, Node.isDir (fs' p) = Node.isDir (fs p)
  files : ∀ p, fs' p = fs p ∨ ∃ x, U x ∧ ∃ f ∈ session_files, p = home x ++ [f]
  saved : ∀ x, U x → fs' (home x ++ [lit ".RData"]) = (saved x).map .rdata

section
variable {k : Nat} {f : Fork V} (h : Refines genv U s t) (hl : ∀ x, U x → Level x) (hU : Apart U)
  (hf : s.forks k = some f)
include h

theorem Refines.tracks : Tracks U s.fs s.fs t.saved := ⟨fun _ => rfl, fun _ => Or.inl rfl, h.saved⟩

include hf

theorem Refines.walk : ∃ cwd, walk s.fs [] f.session_dir = some cwd ∧
    ∀ x, f.call.instance_id = some x → cwd = home x := by
  refine ⟨_, walk_of_visits (h.walked k f hf), fun x hx => ?_⟩
  obtain ⟨tmp, hd⟩ := h.sound.dir k f hf
  rw [hd, hx]; rfl

theorem Refines.attach {cwd : Path} (hcwd : ∀ x, f.call.instance_id = some x → cwd = home x) :
    attach_session s.fs cwd f.call.instance_id f.genv = some (attach_saved genv t.saved f.call.instance_id) := by
  rw [h.sound.genv k f hf, h.genv]
  cases hid : f.call.instance_id with
  | none => rfl
  | some x => rw [attach_session_some, hcwd x hid, h.saved x (h.names k f x hf hid), load_saved]; rfl

include hl hU in
theorem Refines.save {cwd : Path} (hcwd : ∀ x, f.call.instance_id = some x → cwd = home x) (sc : Scope V) :
    (save_session s.fs cwd f.call.instance_id sc).2 = true ∧
      Tracks U s.fs (save_session s.fs cwd f.call.instance_id sc).1 (save_env t.saved sc f.call.instance_id) := by
  cases hid : f.call.instance_id with
  | none => exact ⟨rfl, h.tracks⟩
  | some x =>
    obtain rfl := hcwd x hid
    have hx := h.names k f x hf hid
    have hnd : ∀ f ∈ session_files, Node.isDir (s.fs (home x ++ [f])) = false := by
      intro f hf
      by_contra hd
      obtain ⟨cs, hcs, hv⟩ := h.dirs _ (isDir_eq_true.mp (Bool.not_eq_false _ ▸ hd))
      exact hU cs hcs _ hv x hx f hf rfl
    refine ⟨(save_session_ok_iff sc).mpr fun _ => hnd, isDir_save_session s.fs (home x) (some x) sc, fun p => ?_,
      fun y hy => ?_⟩
    · by_cases hp : ∃ f ∈ session_files, p = home x ++ [f]
      · exact Or.inr ⟨x, hx, hp⟩
      · exact Or.inl (save_session_of_ne (fun f hf hpf => hp ⟨f, hf, hpf⟩) _ _)
    · by_cases hyx : y = x
      · subst hyx
        rw [save_session_rdata, hnd _ List.mem_cons_self]
        simp [save_env]
      · have hne : ∀ f ∈ session_files, home y ++ [lit ".RData"] ≠ home x ++ [f] := fun f _ hp =>
          hyx (home_injective (hl y hy) (hl x hx) (List.append_inj' hp rfl).1)
        rw [save_session_of_ne hne, h.saved y hy]
        simp only [save_env, update_of_ne hyx]

include hl hU in
theorem Refines.advances :
    (json_call_step host R s.fs f).2 = (advance host R genv t.saved f.call f.stage).2 ∧
      Tracks U s.fs (json_call_step host R s.fs f).1 (advance host R genv t.saved f.call f.stage).1 := by
  obtain ⟨cwd, hw, hcwd⟩ := h.walk hf
  cases hst : f.stage with
  | forked =>
    rcases step_forked host R s.fs hst with ⟨-, hno⟩ | ⟨cwd', sc, hw', ha, hj⟩
    · have := hno cwd hw
      rw [h.attach hf hcwd] at this; cases this
    · obtain rfl := Option.some.inj (hw.symm.trans hw')
      rw [h.attach hf hcwd] at ha; cases ha
      rw [hj]; exact ⟨rfl, h.tracks⟩
  | attached sc =>
    rcases step_attached host R s.fs hst with ⟨he, hj⟩ | ⟨ev, he, hj⟩ <;>
      (rw [hj]; simp only [advance, he]; exact ⟨trivial, h.tracks⟩)
  | evaluated sc ev =>
    rcases step_evaluated host R s.fs hst with ⟨hw', -⟩ | ⟨cwd', hw', hj⟩
    · rw [hw] at hw'; cases hw'
    · obtain rfl := Option.some.inj (hw.symm.trans hw')
      obtain ⟨hok, htr⟩ := h.save hl hU hf hcwd ev.scope
      rw [hj, if_pos hok]; exact ⟨rfl, htr⟩
  | saved sc ev =>
    rcases step_saved host R s.fs hst with ⟨hr, hj⟩ | ⟨out, sent, hr, hj⟩ <;>
      (rw [hj]; simp only [advance, hr]; exact ⟨trivial, h.tracks⟩)
  | replied => rw [step_terminated host R _ (by rw [hst]; rfl), hst]; exact ⟨rfl, h.tracks⟩
  | dead => rw [step_terminated host R _ (by rw [hst]; rfl), hst]; exact ⟨rfl, h.tracks⟩

end

theorem Refines.step (h : Refines genv U s t) (hl : ∀ x, U x → Level x) (hU : Apart U) (k : Nat) :
    Refines genv U (s.step host R (.step k)) (t.step host R genv (.step k)) := by
  cases hf : s.forks k with
  | none =>
    have ht : t.forks k = none := by rw [← h.forks k, hf]; rfl
    simpa only [Sessions.step, Store.step, hf, ht] using h
  | some f =>
    obtain ⟨hstage, htr⟩ := h.advances host R hl hU hf
    have ht : t.forks k = some (f.call, f.stage) := by rw [← h.forks k, hf]; rfl
    have hfs : (s.step host R (.step k)).fs = (json_call_step host R s.fs f).1 := by simp only [Sessions.step, hf]
    have hsaved : ∀ x, (t.step host R genv (.step k)).saved x = (advance host R genv t.saved f.call f.stage).1 x :=
      fun x => by rw [store_step_saved, ht]; rfl
    have hdir : ∀ p, (s.step host R (.step k)).fs p = some .dir ↔ s.fs p = some .dir := fun p => by
      rw [hfs, ← isDir_eq_true, ← isDir_eq_true, htr.dirs]
    have hold : ∀ k' f', (s.step host R (.step k)).forks k' = some f' → ∃ f, s.forks k' = some f ∧
        f'.call = f.call ∧ f'.session_dir = f.session_dir := by
      intro k' f' hk'
      rw [step_forks] at hk'
      split at hk'
      · rename_i hkk; subst hkk
        obtain ⟨f₀, hf₀, rfl⟩ := Option.map_eq_some_iff.mp hk'
        exact ⟨f₀, hf₀, rfl, rfl⟩
      · exact ⟨f', hk', rfl, rfl⟩
    refine ⟨sound_step host R h.sound _, (step_genv host R s _).trans h.genv, fun k' f' x hk' hid => ?_, fun k' => ?_,
      fun k' f' hk' d hd => ?_, fun p hp => h.dirs p ((hdir p).mp hp), fun p n hp hn => ?_, fun x hx => ?_,
      fun x env hx => ?_⟩
    · obtain ⟨f₀, hf₀, hc, -⟩ := hold k' f' hk'
      exact h.names k' f₀ x hf₀ (hc ▸ hid)
    · rw [step_forks, store_step_forks, ← h.forks k', ht, hf]
      by_cases hkk : k' = k
      · rw [if_pos hkk, if_pos hkk]; simp only [Option.map_some, hstage]
      · rw [if_neg hkk, if_neg hkk]
    · obtain ⟨f₀, hf₀, -, hd₀⟩ := hold k' f' hk'
      exact (hdir d).mpr (h.walked k' f₀ hf₀ d (hd₀ ▸ hd))
    · rcases htr.files p with hp' | hp'
      · exact h.files p n (by rw [← hp', ← hfs]; exact hp) hn
      · exact hp'
    · rw [hfs, hsaved, htr.saved x hx]
    · rw [hsaved] at hx
      by_cases hid : f.call.instance_id = some x
      · obtain ⟨tmp, hd⟩ := h.sound.dir k f hf
        refine ⟨h.names k f x hf hid, fun d hdv => (hdir d).mpr (h.walked k f hf d ?_)⟩
        rw [hd, hid]; exact hdv
      · rw [advance_of_ne host R genv t.saved f.call f.stage hid] at hx
        obtain ⟨hx', hmade⟩ := h.made x env hx
        exact ⟨hx', fun d hd => (hdir d).mpr (hmade d hd)⟩

/-- **The files refine the store.** -/
theorem run_refines (hl : ∀ x, U x → Level x) (hU : Apart U) {evs : List SessionEvent}
    (hc : ∀ k c tmp x, .call k c tmp ∈ evs → c.instance_id = some x → U x) :
    Refines genv U (run (Sessions.step host R) (initial genv) evs) (run (Store.step host R genv) Store.empty evs) := by
  have hstep : ∀ (s : Sessions V) (t : Store V) (e : SessionEvent), Refines genv U s t →
      (∀ k c tmp x, e = .call k c tmp → c.instance_id = some x → U x) →
      Refines genv U (s.step host R e) (run (Store.step host R genv) t [e]) := by
    intro s t e h he
    cases e with
    | call k c tmp => exact h.call host R hU k tmp fun x hx => he k c tmp x rfl hx
    | step k => exact h.step host R hl hU k
  have ha : Along (Sessions.step host R) (fun _ e => ∀ k c tmp x, e = .call k c tmp → c.instance_id = some x → U x)
      (initial genv) evs := along_of_mem fun e he _ k c tmp x hec hx => hc k c tmp x (hec ▸ he) hx
  have hrun := run_sim (f := fun e => [e]) hstep refines_initial ha
  rwa [List.flatMap_singleton'] at hrun

def saved_env (fs : FS V) (x : Str) : Option (Env V) :=
  match saved_session fs (session_components [] (some x)) with
  | some (.rdata env) => some env
  | _ => none

theorem rdata_of_saved_session {fs : FS V} {x : Str} {n : Node V}
    (h : saved_session fs (session_components [] (some x)) = some n) : fs (home x ++ [lit ".RData"]) = some n := by
  obtain ⟨cwd, hw, hv⟩ := Option.bind_eq_some_iff.mp h
  rwa [walk_eq_dest hw] at hv

theorem saved_env_eq_none {fs : FS V} {x : Str} (h : ∀ env, fs (home x ++ [lit ".RData"]) ≠ some (.rdata env)) :
    saved_env fs x = none := by
  unfold saved_env
  split
  · rename_i env hs
    exact absurd (rdata_of_saved_session hs) (h env)
  · rfl

theorem Refines.saved_env_eq (h : Refines genv U s t) (hl : ∀ x, U x → Level x) {x : Str} (hx : Level x) :
    saved_env s.fs x = t.saved x := by
  cases hs : t.saved x with
  | some env =>
    obtain ⟨hU, hmade⟩ := h.made x env hs
    have hrd := h.saved x hU
    rw [hs] at hrd
    have : saved_session s.fs (session_components [] (some x)) = some (.rdata env) := by
      rw [saved_session, walk_of_visits hmade]; exact hrd
    rw [saved_env, this]
  | none =>
    refine saved_env_eq_none fun env hv => ?_
    obtain ⟨y, hy, f, hf, hp⟩ := h.files _ _ hv (by simp)
    -- only the session of `x` has its `.RData` there
    have hxy : x = y := home_injective hx (hl y hy) (List.append_inj' hp rfl).1
    have hrd := h.saved y hy
    rw [← hxy, hs, hv] at hrd
    cases hrd

/-! ## Isolation -/

section
def Named (evs : List SessionEvent) (x : Str) : Prop := ∃ k c tmp, .call k c tmp ∈ evs ∧ c.instance_id = some x

variable (genv) (calls : Nat → VrpcCall)

abbrev sessions_after (evs : List SessionEvent) : Sessions V := run (Sessions.step host R) (initial genv) evs

theorem run_refines_named {evs : List SessionEvent} (hl : ∀ x, Named evs x → Level x) (hclash : NoClash (Named evs)) :
    Refines genv (Named evs) (sessions_after host R genv evs) (run (Store.step host R genv) Store.empty evs) :=
  run_refines host R hl (apart_of_noClash hl hclash) fun k c tmp _ he hx => ⟨k, c, tmp, he, hx⟩

theorem Refines.reply_eq {U : Str → Prop} {s : Sessions V} {t : Store V} (h : Refines genv U s t) (k : Nat) :
    (s.forks k).bind (·.stage.reply) = (t.forks k).bind (·.2.reply) := by
  rw [← h.forks k]; cases s.forks k <;> rfl

/-- **The R sides of instances and static calls do not interfere** in a run that does not use
both `.` and the name of a session file. -/
theorem sessions_isolated {keep : Nat → Bool}
    (hkeep : ∀ k x, keep k = true → (calls k).instance_id = some x → Kept calls keep x)
    {evs : List SessionEvent} (hc : ∀ e ∈ evs, Hands calls e) (hl : ∀ x, Named evs x → Level x)
    (hclash : NoClash (Named evs)) :
    (∀ a, Level a → Kept calls keep a → saved_env (sessions_after host R genv evs).fs a =
        saved_env (sessions_after host R genv (evs.filter fun e => keep e.fork)).fs a) ∧
    (∀ k, keep k = true → ((sessions_after host R genv evs).forks k).bind (·.stage.reply) =
        ((sessions_after host R genv (evs.filter fun e => keep e.fork)).forks k).bind (·.stage.reply)) ∧
    ∀ k f, (calls k).instance_id = none → (sessions_after host R genv evs).forks k = some f →
      f.stage.terminated = true → f.stage.reply = static_reply host R genv (calls k) := by
  have href := run_refines_named host R genv hl hclash
  have hsub : ∀ x, Named (evs.filter fun e => keep e.fork) x → Named evs x := by
    intro x hx
    obtain ⟨k, c, tmp, he, hx⟩ := hx
    exact ⟨k, c, tmp, (List.mem_filter.mp he).1, hx⟩
  have href' := run_refines_named host R genv (fun x hx => hl x (hsub x hx))
    fun hdot f hf hn => hclash (hsub _ hdot) f hf (hsub _ hn)
  have hsame := store_purge host R genv keep hkeep hc
  refine ⟨fun a ha hka => ?_, fun k hk => ?_, ?_⟩
  · rw [href.saved_env_eq hl ha, href'.saved_env_eq (fun x hx => hl x (hsub x hx)) ha]
    exact hsame.saved a hka
  · rw [href.reply_eq, href'.reply_eq, hsame.forks k hk]
  · intro k f hk hf ht
    have hfork : (run (Store.step host R genv) Store.empty evs).forks k = some (f.call, f.stage) := by
      rw [← href.forks k, hf]; rfl
    have hcall := run_numbered host R genv hc k _ _ hfork
    rw [hcall] at hfork
    exact (store_static host R genv evs hfork hk).reply_eq host R genv ht

end

end

end VrpcAgent

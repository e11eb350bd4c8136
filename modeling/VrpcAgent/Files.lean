import VrpcAgent.Adapter

/-!
# Session directories and session files

The operations on the file system only add directories and rewrite files: a
directory stays one, and what leads to it keeps leading to it.
-/

namespace VrpcAgent

open Function PartialMap

variable {V : Type}

/-! ## Walking -/

theorem walk_congr {fs fs' : FS V} (h : ∀ p, Node.isDir (fs p) = Node.isDir (fs' p)) :
    ∀ (cs : List Str) (cur : Path), walk fs cur cs = walk fs' cur cs
  | [], _ => rfl
  | c :: cs, cur => by simp only [walk, h, walk_congr h cs]

theorem isDir_eq_true {n : Option (Node V)} : Node.isDir n = true ↔ n = some .dir := by
  cases n with
  | none => simp [Node.isDir]
  | some n => cases n <;> simp [Node.isDir]

/-! ## Making directories -/

section
variable {fs : FS V} {cur : Path} {c : Str} (cs : List Str)

theorem mkdirs_skip (h : c = [] ∨ c = lit ".") : mkdirs fs cur (c :: cs) = mkdirs fs cur cs := by
  rw [mkdirs, if_pos h]

variable (h : ¬ (c = [] ∨ c = lit "."))
include h

theorem mkdirs_up (hc : c = lit "..") : mkdirs fs cur (c :: cs) = mkdirs fs cur.dropLast cs := by
  rw [mkdirs, if_neg h, if_pos hc]

theorem mkdirs_new (hc : c ≠ lit "..") (hn : fs (cur ++ [c]) = none) :
    mkdirs fs cur (c :: cs) = mkdirs (update fs (cur ++ [c]) (some .dir)) (cur ++ [c]) cs := by
  rw [mkdirs, if_neg h, if_neg hc, hn]

theorem mkdirs_dir (hc : c ≠ lit "..") (hn : fs (cur ++ [c]) = some .dir) :
    mkdirs fs cur (c :: cs) = mkdirs fs (cur ++ [c]) cs := by
  rw [mkdirs, if_neg h, if_neg hc, hn]

theorem mkdirs_file (hc : c ≠ lit "..") {n : Node V} (hn : fs (cur ++ [c]) = some n) (hd : n ≠ .dir) :
    mkdirs fs cur (c :: cs) = fs := by
  rw [mkdirs, if_neg h, if_neg hc, hn]
  cases n with
  | dir => exact absurd rfl hd
  | _ => rfl

end

theorem mkdirs_of_some {p : Path} {n : Node V} : ∀ {cs : List Str} {cur : Path} {fs : FS V},
    fs p = some n → mkdirs fs cur cs p = some n
  | [], _, _, h => h
  | c :: cs, cur, fs, h => by
    by_cases h1 : c = [] ∨ c = lit "."
    · rw [mkdirs_skip cs h1]; exact mkdirs_of_some h
    · by_cases h2 : c = lit ".."
      · rw [mkdirs_up cs h1 h2]; exact mkdirs_of_some h
      · cases hn : fs (cur ++ [c]) with
        | none =>
          rw [mkdirs_new cs h1 h2 hn]
          have hp : p ≠ cur ++ [c] := by
            intro heq
            subst heq
            rw [hn] at h; cases h
          exact mkdirs_of_some (by rw [update_of_ne hp, h])
        | some m =>
          by_cases hd : m = .dir
          · subst hd; rw [mkdirs_dir cs h1 h2 hn]; exact mkdirs_of_some h
          · rw [mkdirs_file cs h1 h2 hn hd]; exact h

theorem mkdirs_mkdirs : ∀ (cs : List Str) (cur : Path) (fs : FS V),
    mkdirs (mkdirs fs cur cs) cur cs = mkdirs fs cur cs
  | [], _, _ => rfl
  | c :: cs, cur, fs => by
    by_cases h1 : c = [] ∨ c = lit "."
    · rw [mkdirs_skip cs h1, mkdirs_skip cs h1, mkdirs_mkdirs cs]
    · by_cases h2 : c = lit ".."
      · rw [mkdirs_up cs h1 h2, mkdirs_up cs h1 h2, mkdirs_mkdirs cs]
      · cases hn : fs (cur ++ [c]) with
        | none =>
          rw [mkdirs_new cs h1 h2 hn, mkdirs_dir cs h1 h2 (mkdirs_of_some (update_self ..)), mkdirs_mkdirs cs]
        | some m =>
          by_cases hd : m = .dir
          · subst hd
            rw [mkdirs_dir cs h1 h2 hn, mkdirs_dir cs h1 h2 (mkdirs_of_some hn), mkdirs_mkdirs cs]
          · rw [mkdirs_file cs h1 h2 hn hd, mkdirs_file cs h1 h2 hn hd]

theorem create_session_dir_twice (fs : FS V) (cs : List Str) :
    create_session_dir (create_session_dir fs cs) cs = create_session_dir fs cs := by
  by_cases h : (walk fs [] cs).isSome
  · have h1 : create_session_dir fs cs = fs := if_pos h
    rw [h1, h1]
  · have h1 : create_session_dir fs cs = mkdirs fs [] cs := if_neg h
    rw [h1, create_session_dir]
    split
    · rfl
    · exact mkdirs_mkdirs cs [] fs

theorem create_session_dir_of_walk {fs : FS V} {cs : List Str} {cwd : Path} (h : walk fs [] cs = some cwd) :
    create_session_dir fs cs = fs := by
  rw [create_session_dir, h]; rfl

/-! ## The directories on the way

Where components lead and what they pass does not depend on the files. -/

def dest : Path → List Str → Path
  | cur, [] => cur
  | cur, c :: cs =>
    if c = [] ∨ c = lit "." then dest cur cs
    else if c = lit ".." then dest cur.dropLast cs
    else dest (cur ++ [c]) cs

def visits : Path → List Str → List Path
  | _, [] => []
  | cur, c :: cs =>
    if c = [] ∨ c = lit "." then visits cur cs
    else if c = lit ".." then visits cur.dropLast cs
    else (cur ++ [c]) :: visits (cur ++ [c]) cs

theorem walk_of_visits {fs : FS V} : ∀ {cs : List Str} {cur : Path}, (∀ d ∈ visits cur cs, fs d = some .dir) →
    walk fs cur cs = some (dest cur cs)
  | [], _, _ => rfl
  | c :: cs, cur, h => by
    unfold visits at h
    unfold walk dest
    split
    · rename_i h1; rw [if_pos h1] at h; exact walk_of_visits h
    · rename_i h1
      rw [if_neg h1] at h
      split
      · rename_i h2; rw [if_pos h2] at h; exact walk_of_visits h
      · rename_i h2
        rw [if_neg h2] at h
        rw [if_pos (isDir_eq_true.mpr (h _ List.mem_cons_self))]
        exact walk_of_visits fun d hd => h d (List.mem_cons_of_mem _ hd)

theorem visits_of_walk {fs : FS V} : ∀ {cs : List Str} {cur : Path}, (walk fs cur cs).isSome →
    ∀ d ∈ visits cur cs, fs d = some .dir
  | [], _, _, _, hd => by cases hd
  | c :: cs, cur, h, d, hd => by
    unfold visits at hd
    unfold walk at h
    split at h
    · rename_i h1; rw [if_pos h1] at hd; exact visits_of_walk h d hd
    · rename_i h1
      rw [if_neg h1] at hd
      split at h
      · rename_i h2; rw [if_pos h2] at hd; exact visits_of_walk h d hd
      · rename_i h2
        rw [if_neg h2] at hd
        split at h
        · rename_i h3
          rcases List.mem_cons.mp hd with rfl | hd
          · exact isDir_eq_true.mp h3
          · exact visits_of_walk h d hd
        · cases h

theorem walk_eq_dest {fs : FS V} {cs : List Str} {cur cwd : Path} (h : walk fs cur cs = some cwd) :
    cwd = dest cur cs := by
  have hv := walk_of_visits (visits_of_walk (by rw [h]; rfl : (walk fs cur cs).isSome))
  exact Option.some.inj (h.symm.trans hv)

theorem mkdirs_eq : ∀ {cs : List Str} {cur : Path} {fs : FS V}, (∀ d ∈ visits cur cs, fs d = none ∨ fs d = some .dir) →
    mkdirs fs cur cs = fun p => if p ∈ visits cur cs then some .dir else fs p
  | [], _, _, _ => by funext p; simp [mkdirs, visits]
  | c :: cs, cur, fs, h => by
    unfold visits at h ⊢
    by_cases h1 : c = [] ∨ c = lit "."
    · simp only [if_pos h1] at h ⊢
      rw [mkdirs_skip cs h1]; exact mkdirs_eq h
    · by_cases h2 : c = lit ".."
      · simp only [if_neg h1, if_pos h2] at h ⊢
        rw [mkdirs_up cs h1 h2]; exact mkdirs_eq h
      · simp only [if_neg h1, if_neg h2, List.mem_cons, forall_eq_or_imp] at h ⊢
        obtain ⟨hc, hrest⟩ := h
        rcases hc with hn | hn
        · rw [mkdirs_new cs h1 h2 hn, mkdirs_eq fun d hd => ?_]
          · funext p
            by_cases hp : p = cur ++ [c]
            · subst hp; simp
            · simp [hp]
          · by_cases hp : d = cur ++ [c]
            · subst hp; exact Or.inr (update_self ..)
            · rw [update_of_ne hp]; exact hrest d hd
        · rw [mkdirs_dir cs h1 h2 hn, mkdirs_eq hrest]
          funext p
          by_cases hp : p = cur ++ [c]
          · subst hp; simp [hn]
          · simp [hp]

theorem create_session_dir_eq {fs : FS V} {cs : List Str} (h : ∀ d ∈ visits [] cs, fs d = none ∨ fs d = some .dir) :
    create_session_dir fs cs = fun p => if p ∈ visits [] cs then some .dir else fs p := by
  unfold create_session_dir
  split
  · rename_i hw
    funext p
    split
    · rename_i hp; exact visits_of_walk hw p hp
    · rfl
  · exact mkdirs_eq h

/-! ## Writing files -/

theorem isDir_write_files (cwd : Path) : ∀ (l : List (Str × Node V)), (∀ x ∈ l, Node.isDir (some x.2) = false) →
    ∀ (fs : FS V) (p : Path), Node.isDir ((write_files cwd l fs).1 p) = Node.isDir (fs p)
  | [], _, _, _ => rfl
  | (f, n) :: l, hl, fs, p => by
    unfold write_files
    split
    · rfl
    · rename_i hd
      rw [isDir_write_files cwd l (fun x hx => hl x (List.mem_cons_of_mem _ hx))]
      by_cases hp : p = cwd ++ [f]
      · subst hp
        rw [update_self, hl (f, n) List.mem_cons_self]
        exact (Bool.not_eq_true _ ▸ hd : Node.isDir (fs (cwd ++ [f])) = false).symm
      · rw [update_of_ne hp]

theorem write_files_of_ne {cwd p : Path} : ∀ {l : List (Str × Node V)}, (∀ x ∈ l, p ≠ cwd ++ [x.1]) →
    ∀ fs : FS V, (write_files cwd l fs).1 p = fs p
  | [], _, _ => rfl
  | (f, n) :: l, h, fs => by
    unfold write_files
    split
    · rfl
    · rw [write_files_of_ne (fun x hx => h x (List.mem_cons_of_mem _ hx)),
        update_of_ne (h (f, n) List.mem_cons_self)]

theorem write_files_ok_iff {cwd : Path} : ∀ {l : List (Str × Node V)}, (∀ x ∈ l, Node.isDir (some x.2) = false) →
    ∀ {fs : FS V}, (write_files cwd l fs).2 = true ↔ ∀ x ∈ l, Node.isDir (fs (cwd ++ [x.1])) = false
  | [], _, _ => by simp [write_files]
  | (f, n) :: l, hl, fs => by
    unfold write_files
    have hl' : ∀ x ∈ l, Node.isDir (some x.2) = false := fun x hx => hl x (List.mem_cons_of_mem _ hx)
    split
    · rename_i hd; simp [hd]
    · rename_i hd
      simp only [Bool.not_eq_true] at hd
      rw [write_files_ok_iff hl']
      simp only [List.mem_cons, forall_eq_or_imp, hd, true_and]
      refine forall_congr' fun x => imp_congr_right fun _ => ?_
      -- a name written before is not a directory, before or after
      by_cases hx : cwd ++ [x.1] = cwd ++ [f]
      · rw [hx, update_self, hl (f, n) List.mem_cons_self, hd]
      · rw [update_of_ne hx]

theorem session_nodes_files (env : Env V) : ∀ x ∈ session_nodes env, Node.isDir (some x.2) = false := by
  intro x hx
  obtain ⟨f, -, rfl⟩ := List.mem_map.mp hx
  dsimp only
  split <;> rfl

theorem session_nodes_names {env : Env V} {x : Str × Node V} (h : x ∈ session_nodes env) : x.1 ∈ session_files := by
  obtain ⟨f, hf, rfl⟩ := List.mem_map.mp h
  exact hf

/-! ## Saving -/

theorem isDir_save_session (fs : FS V) (cwd : Path) (id : Option Str) (sc : Scope V) (p : Path) :
    Node.isDir ((save_session fs cwd id sc).1 p) = Node.isDir (fs p) := by
  cases id with
  | none => rfl
  | some x => exact isDir_write_files cwd _ (session_nodes_files sc.genv) fs p

theorem save_session_of_ne {fs : FS V} {cwd : Path} {p : Path} (h : ∀ f ∈ session_files, p ≠ cwd ++ [f])
    (id : Option Str) (sc : Scope V) : (save_session fs cwd id sc).1 p = fs p := by
  cases id with
  | none => rfl
  | some x => exact write_files_of_ne (fun y hy => h y.1 (session_nodes_names hy)) fs

theorem save_session_ok_iff {fs : FS V} {cwd : Path} {id : Option Str} (sc : Scope V) :
    (save_session fs cwd id sc).2 = true ↔
      (id.isSome → ∀ f ∈ session_files, Node.isDir (fs (cwd ++ [f])) = false) := by
  cases id with
  | none => simp [save_session]
  | some x =>
    rw [save_session, write_files_ok_iff (session_nodes_files sc.genv)]
    simp [session_nodes]

theorem save_session_rdata (fs : FS V) (cwd : Path) (x : Str) (sc : Scope V) :
    (save_session fs cwd (some x) sc).1 (cwd ++ [lit ".RData"]) =
      if Node.isDir (fs (cwd ++ [lit ".RData"])) then fs (cwd ++ [lit ".RData"]) else some (.rdata sc.genv) := by
  have hl : session_nodes sc.genv = (lit ".RData", .rdata sc.genv) :: (session_nodes sc.genv).tail := rfl
  have hne : ∀ y ∈ (session_nodes sc.genv).tail, cwd ++ [lit ".RData"] ≠ cwd ++ [y.1] := by
    intro y hy h
    have hname : lit ".RData" = y.1 := by simpa using h
    have hy' : y.1 ∈ session_files.tail := by
      rw [session_nodes, ← List.map_tail] at hy
      obtain ⟨f, hf, rfl⟩ := List.mem_map.mp hy
      exact hf
    exact absurd (hname ▸ hy') (by decide)
  rw [save_session, hl]
  unfold write_files
  split
  · rfl
  · rw [write_files_of_ne hne, update_self]

/-! ## Loading -/

def saved_session (fs : FS V) (components : List Str) : Option (Node V) :=
  (walk fs [] components).bind fun cwd => fs (cwd ++ [lit ".RData"])

/-- `attach_session` as a function of what `.RData` is. -/
def load (genv : Env V) : Option (Node V) → Option (Scope V)
  | none => some ⟨none, genv⟩
  | some (.rdata env) => some ⟨none, overlay env genv⟩
  | some _ => none

theorem attach_session_some (fs : FS V) (cwd : Path) (x : Str) (genv : Env V) :
    attach_session fs cwd (some x) genv = load genv (fs (cwd ++ [lit ".RData"])) := by
  unfold attach_session load
  cases fs (cwd ++ [lit ".RData"]) with
  | none => rfl
  | some n => cases n <;> rfl

theorem load_not_dir {genv : Env V} {v : Option (Node V)} {sc : Scope V} (h : load genv v = some sc) :
    Node.isDir v = false := by
  cases v with
  | none => rfl
  | some n => cases n <;> first | rfl | cases h

theorem load_scope {genv : Env V} {v : Option (Node V)} {sc : Scope V} (h : load genv v = some sc) :
    sc = ⟨none, sc.genv⟩ := by
  cases v with
  | none => cases h; rfl
  | some n => cases n <;> first | cases h; rfl | cases h

end VrpcAgent

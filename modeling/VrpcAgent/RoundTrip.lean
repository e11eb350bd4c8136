import VrpcAgent.Answers
import VrpcAgent.Strings
import VrpcAgent.Wire
import Mathlib.Data.Rat.Floor

/-!
# Values through R and back

An argument is decoded by `jsonlite::fromJSON(simplifyVector = FALSE)` and, when a
function returns it, encoded again by `jsonlite::toJSON(auto_unbox = TRUE)`. Both are
modelled on R's own data: null becomes NULL and NULL an empty object, numbers are
printed with four decimals, names are never empty, and strings end at the first nul.
-/

namespace VrpcAgent

open Function Effects Runs

/-- What `fromJSON` makes: NULL, vectors of length one, and lists. -/
inductive RData where
  | null
  | logical (b : Bool)
  | numeric (q : Rat)
  | character (s : Str)
  | list (xs : List RData)
  | named (m : List (Str × RData))

def Decimals (n : Nat) (q : Rat) : Prop := ∃ z : Int, q * 10 ^ n = z

/-- How `toJSON` prints by default: numbers with `digits = 4`, and the names of a list
as `cleannames` leaves them. -/
structure Printing where
  digits : Rat → Rat
  cleannames : List Str → List Str
  digits_decimals : ∀ q, Decimals 4 (digits q)
  digits_of_decimals : ∀ q, Decimals 4 q → digits q = q
  names_nonempty : ∀ l, ∀ n ∈ cleannames l, n ≠ []
  names_no_nul : ∀ l, (∀ n ∈ l, 0 ∉ n) → ∀ n ∈ cleannames l, 0 ∉ n
  names_of_nodup : ∀ l, l.Nodup → (∀ n ∈ l, n ≠ []) → cleannames l = l

def inserted (names : List Str) (values : List Json) : List (Str × Json) :=
  (names.zip values).foldl (fun m p => Json.put p.1 p.2 m) []

namespace RData

mutual
def fromJSON : Json → RData
  | .null => .null
  | .boolean b => .logical b
  | .number q => .numeric q
  | .string s => .character (r_string s)
  | .array xs => .list (elems_fromJSON xs)
  | .object m => .named (members_fromJSON m)
def elems_fromJSON : List Json → List RData
  | [] => []
  | x :: xs => fromJSON x :: elems_fromJSON xs
def members_fromJSON : List (Str × Json) → List (Str × RData)
  | [] => []
  | (k, v) :: m => (r_string k, fromJSON v) :: members_fromJSON m
end

mutual
/-- The value of the text that `toJSON` prints. -/
def toJSON (P : Printing) : RData → Json
  | .null => .object []
  | .logical b => .boolean b
  | .numeric q => .number (P.digits q)
  | .character s => .string s
  | .list xs => .array (elems_toJSON P xs)
  | .named m => .object (inserted (P.cleannames (m.map Prod.fst)) (values_toJSON P m))
def elems_toJSON (P : Printing) : List RData → List Json
  | [] => []
  | x :: xs => toJSON P x :: elems_toJSON P xs
def values_toJSON (P : Printing) : List (Str × RData) → List Json
  | [] => []
  | (_, x) :: m => toJSON P x :: values_toJSON P m
end

end RData

namespace Json

mutual
def Ordered : Json → Prop
  | .array xs => ElemsOrdered xs
  | .object m => (m.map Prod.fst).Pairwise (· < ·) ∧ MembersOrdered m
  | _ => True
def ElemsOrdered : List Json → Prop
  | [] => True
  | x :: xs => Ordered x ∧ ElemsOrdered xs
def MembersOrdered : List (Str × Json) → Prop
  | [] => True
  | (_, x) :: m => Ordered x ∧ MembersOrdered m
end

mutual
/-- No null, no number of more than four decimals, no nul in a string or a key, and no
empty key. -/
def Survives : Json → Prop
  | .null => False
  | .boolean _ => True
  | .number q => Decimals 4 q
  | .string s => 0 ∉ s
  | .array xs => ElemsSurvive xs
  | .object m => (∀ k ∈ m.map Prod.fst, k ≠ [] ∧ 0 ∉ k) ∧ MembersSurvive m
def ElemsSurvive : List Json → Prop
  | [] => True
  | x :: xs => Survives x ∧ ElemsSurvive xs
def MembersSurvive : List (Str × Json) → Prop
  | [] => True
  | (_, x) :: m => Survives x ∧ MembersSurvive m
end

/-! ## Objects as maps -/

theorem mem_put {k : Str} {v : Json} {p : Str × Json} : ∀ {m : List (Str × Json)}, p ∈ put k v m → p.1 = k ∨ p ∈ m
  | [], h => Or.inl (by rw [List.mem_singleton.mp h])
  | (k', v') :: m, h => by
    unfold put at h
    split at h
    · rcases List.mem_cons.mp h with rfl | h
      · exact Or.inl rfl
      · exact Or.inr (List.mem_cons_of_mem _ h)
    · split at h
      · rcases List.mem_cons.mp h with rfl | h
        · exact Or.inl rfl
        · exact Or.inr h
      · rcases List.mem_cons.mp h with rfl | h
        · exact Or.inr List.mem_cons_self
        · exact (mem_put h).imp_right (List.mem_cons_of_mem _)

theorem put_of_lt {k : Str} (v : Json) : ∀ {m : List (Str × Json)}, (∀ p ∈ m, p.1 < k) → put k v m = m ++ [(k, v)]
  | [], _ => rfl
  | (k', v') :: m, h => by
    have hlt : k' < k := h _ List.mem_cons_self
    have hne : k ≠ k' := fun heq => absurd (heq ▸ hlt) (List.lt_irrefl k)
    rw [put, if_neg hne, if_neg (List.lt_asymm hlt), put_of_lt v fun p hp => h p (List.mem_cons_of_mem _ hp)]
    rfl

end Json

theorem inserted_from {acc : List (Str × Json)} : ∀ {names : List Str} {values : List Json},
    names.Pairwise (· < ·) → (∀ p ∈ acc, ∀ n ∈ names, p.1 < n) →
      (names.zip values).foldl (fun m p => Json.put p.1 p.2 m) acc = acc ++ names.zip values
  | [], _, _, _ => by simp
  | _ :: _, [], _, _ => by simp
  | n :: names, v :: values, hs, h => by
    obtain ⟨hn, hs⟩ := List.pairwise_cons.mp hs
    rw [List.zip_cons_cons, List.foldl_cons, Json.put_of_lt v fun p hp => h p hp n List.mem_cons_self,
      inserted_from hs, List.append_assoc]
    · rfl
    · intro p hp n' hn'
      rcases List.mem_append.mp hp with hp | hp
      · exact h p hp n' (List.mem_cons_of_mem _ hn')
      · rw [List.mem_singleton.mp hp]; exact hn n' hn'

theorem inserted_ordered {names : List Str} (h : names.Pairwise (· < ·)) (values : List Json) :
    inserted names values = names.zip values := by
  rw [inserted, inserted_from h (by simp), List.nil_append]

theorem key_of_inserted {p : Str × Json} : ∀ {names : List Str} {values : List Json} {acc : List (Str × Json)},
    p ∈ (names.zip values).foldl (fun m p => Json.put p.1 p.2 m) acc → p.1 ∈ names ∨ p ∈ acc
  | [], _, _, h => Or.inr (by simpa using h)
  | _ :: _, [], _, h => Or.inr (by simpa using h)
  | n :: names, v :: values, acc, h => by
    rw [List.zip_cons_cons, List.foldl_cons] at h
    rcases key_of_inserted h with hp | hp
    · exact Or.inl (List.mem_cons_of_mem _ hp)
    · rcases Json.mem_put hp with rfl | hp
      · exact Or.inl List.mem_cons_self
      · exact Or.inr hp

/-! ## Decoding and encoding -/

theorem names_fromJSON (m : List (Str × Json)) : (RData.members_fromJSON m).map Prod.fst = (m.map Prod.fst).map r_string := by
  induction m with
  | nil => rfl
  | cons p m ih => rw [RData.members_fromJSON, List.map_cons, List.map_cons, List.map_cons, ih]

theorem length_values_toJSON (P : Printing) (m : List (Str × Json)) :
    (RData.values_toJSON P (RData.members_fromJSON m)).length = m.length := by
  induction m with
  | nil => rfl
  | cons p m ih => rw [RData.members_fromJSON, RData.values_toJSON, List.length_cons, List.length_cons, ih]

section
variable (P : Printing)

theorem keys_of_round_trip {m : List (Str × Json)}
    (h : RData.toJSON P (RData.fromJSON (.object m)) = .object m) : ∀ k ∈ m.map Prod.fst, k ≠ [] ∧ 0 ∉ k := by
  intro k hk
  obtain ⟨p, hp, rfl⟩ := List.mem_map.mp hk
  rw [RData.fromJSON, RData.toJSON, Json.object.injEq] at h
  rw [← h] at hp
  rcases key_of_inserted hp with hp | hp
  · refine ⟨P.names_nonempty _ _ hp, P.names_no_nul _ (fun n hn => ?_) _ hp⟩
    rw [names_fromJSON] at hn
    obtain ⟨n', -, rfl⟩ := List.mem_map.mp hn
    exact r_string_no_nul n'
  · cases hp

theorem object_round_trip_iff {m : List (Str × Json)} (ho : (m.map Prod.fst).Pairwise (· < ·))
    (hk : ∀ k ∈ m.map Prod.fst, k ≠ [] ∧ 0 ∉ k) :
    RData.toJSON P (RData.fromJSON (.object m)) = .object m ↔
      RData.values_toJSON P (RData.members_fromJSON m) = m.map Prod.snd := by
  have hnames : (RData.members_fromJSON m).map Prod.fst = m.map Prod.fst := by
    rw [names_fromJSON]
    exact (List.map_congr_left fun k hmem => r_string_eq_iff.mpr (hk k hmem).2).trans (List.map_id _)
  have hnodup : (m.map Prod.fst).Nodup := ho.imp fun hlt heq => absurd (heq ▸ hlt) (List.lt_irrefl _)
  rw [RData.fromJSON, RData.toJSON, hnames, P.names_of_nodup _ hnodup fun k hmem => (hk k hmem).1, inserted_ordered ho,
    Json.object.injEq]
  constructor
  · intro h
    have hsnd := congrArg (List.map Prod.snd) h
    rwa [List.map_snd_zip (by rw [length_values_toJSON, List.length_map])] at hsnd
  · intro h
    rw [h]
    exact (List.zip_of_prod rfl rfl).symm

mutual
/-- **A value comes back** unchanged exactly when it survives. -/
theorem round_trip_iff : ∀ {v : Json}, v.Ordered → (RData.toJSON P (RData.fromJSON v) = v ↔ v.Survives)
  | .null, _ => by simp [RData.fromJSON, RData.toJSON, Json.Survives]
  | .boolean b, _ => by simp [RData.fromJSON, RData.toJSON, Json.Survives]
  | .number q, _ => by
    rw [RData.fromJSON, RData.toJSON, Json.Survives, Json.number.injEq]
    constructor
    · intro h
      rw [← h]
      exact P.digits_decimals q
    · exact P.digits_of_decimals q
  | .string s, _ => by rw [RData.fromJSON, RData.toJSON, Json.Survives, Json.string.injEq, r_string_eq_iff]
  | .array xs, ho => by
    rw [Json.Ordered] at ho
    rw [RData.fromJSON, RData.toJSON, Json.Survives, Json.array.injEq, elems_round_trip_iff ho]
  | .object m, ho => by
    rw [Json.Ordered] at ho
    rw [Json.Survives, ← values_round_trip_iff ho.2]
    constructor
    · intro h
      have hk := keys_of_round_trip P h
      exact ⟨hk, (object_round_trip_iff P ho.1 hk).mp h⟩
    · intro h
      exact (object_round_trip_iff P ho.1 h.1).mpr h.2
theorem elems_round_trip_iff : ∀ {xs : List Json}, Json.ElemsOrdered xs →
    (RData.elems_toJSON P (RData.elems_fromJSON xs) = xs ↔ Json.ElemsSurvive xs)
  | [], _ => by simp [RData.elems_fromJSON, RData.elems_toJSON, Json.ElemsSurvive]
  | x :: xs, ho => by
    rw [Json.ElemsOrdered] at ho
    rw [RData.elems_fromJSON, RData.elems_toJSON, Json.ElemsSurvive, List.cons.injEq, round_trip_iff ho.1,
      elems_round_trip_iff ho.2]
theorem values_round_trip_iff : ∀ {m : List (Str × Json)}, Json.MembersOrdered m →
    (RData.values_toJSON P (RData.members_fromJSON m) = m.map Prod.snd ↔ Json.MembersSurvive m)
  | [], _ => by simp [RData.members_fromJSON, RData.values_toJSON, Json.MembersSurvive]
  | (k, x) :: m, ho => by
    rw [Json.MembersOrdered] at ho
    rw [RData.members_fromJSON, RData.values_toJSON, Json.MembersSurvive, List.map_cons, List.cons.injEq,
      round_trip_iff ho.1, values_round_trip_iff ho.2]
end

end

/-! ## A function that returns its argument -/

def RData.text : RData → Option Str
  | .character s => some s
  | _ => none

section
variable {V : Type} (host : Host) (opts : Options) (R : RLib V)

/-- `jsonlite` on the value `v`; `data` are the R values that are data. -/
structure Jsonlite (P : Printing) (data : RData → V) (v : Json) : Prop where
  decode : R.fromJSON v = data (.fromJSON v)
  character : R.character (data (.fromJSON v)) = (RData.fromJSON v).text
  encode : ∃ out, R.toJSON (data (.fromJSON v)) = some out ∧ host.parse out = some (RData.toJSON P (.fromJSON v)) ∧
    out.take 7 ≠ err_mark

def Returns (x : V) (k : Nat) (s : System V) (e : Event) : Prop :=
  ∀ f sc, e = .step k → s.sessions.forks k = some f → f.stage = .attached sc → ∃ callee,
    call_object f.call.func_name = some callee ∧ (R.evaluate callee [(none, x)] sc).outcome = .ok x ∧
      (R.evaluate callee [(none, x)] sc).plots = []

/-- The steps of fork `k` find their files, and a reply with `r = w` can be sent. -/
def Delivers (w : Json) (k : Nat) (s : System V) (e : Event) : Prop :=
  ∀ f, e = .step k → s.sessions.forks k = some f →
    match f.stage with
    | .attached _ => True
    | .saved _ _ => ∀ m, f.call.memory.awaited_callbacks f.call.call_id = some (.object m) →
        Repliable host f.call.memory.pids (Json.touch (lit "s") (Json.put (lit "r") w m))
    | _ => Proceeds host R s.sessions.fs f

def Passed (v : Json) (k : Nat) (s : System V) : Prop := ∀ f, s.sessions.forks k = some f → f.call.string_args = .array [v]

def Echoed (x : V) (c : VrpcCall) : Stage V → Prop
  | .evaluated _ ev => call_output R c.func_name ev = R.toJSON x
  | .saved _ ev => call_output R c.func_name ev = R.toJSON x
  | .replied _ _ out _ => R.toJSON x = some out
  | _ => True

variable {host opts R} {P : Printing} {data : RData → V} {v : Json} {k : Nat}

theorem no_reference (hlib : Jsonlite host R P data v) (hv : ∀ s, v ≠ .string (36 :: s)) :
    reference R (R.fromJSON v) = none := by
  rw [reference, hlib.decode, hlib.character]
  cases v with
  | string s =>
    simp only [RData.fromJSON, RData.text]
    split
    · rename_i g hg
      obtain ⟨g', rfl⟩ := r_string_dollar (Option.some.inj hg)
      exact absurd rfl (hv g')
    · rfl
  | _ => rfl

theorem echo_args (hlib : Jsonlite host R P data v) (hv : ∀ s, v ≠ .string (36 :: s)) (sc : Scope V) :
    call_args R sc (.array [v]) = some [(none, R.fromJSON v)] := by
  simp only [call_args, List.map_cons, List.map_nil, List.length_cons, List.length_nil, resolve_args, List.getElem?_cons_zero,
    no_reference hlib hv]

theorem get_assigned (sc : Scope V) (n : Str) (x : V) : (sc.assign n x).get R n = some x := by
  unfold Scope.assign Scope.get
  cases sc.fresh with
  | none => simp
  | some env => exact PartialMap.overlay_of_some (update_self ..) _

theorem echo_output {x : V} (hx : R.toJSON x ≠ none) {func_name : Str} {args : Json} {sc : Scope V} {ev : Evaluation V}
    (hargs : call_args R sc args = some [(none, x)]) {callee : Callee} (hcallee : call_object func_name = some callee)
    (hok : (R.evaluate callee [(none, x)] sc).outcome = .ok x) (hplots : (R.evaluate callee [(none, x)] sc).plots = [])
    (hev : evaluate_call R func_name args sc = some ev) : call_output R func_name ev = R.toJSON x := by
  obtain ⟨out, hout⟩ := Option.ne_none_iff_exists'.mp hx
  simp only [evaluate_call, hcallee, hargs, hok, Option.bind_eq_bind, Option.bind_some, Option.some.injEq] at hev
  subst hev
  simp only [call_output, get_assigned, hplots, extract_graphics, List.getLast?_nil, prepare_output, hout]
  split <;> rfl

theorem echo_members (hlib : Jsonlite host R P data v) {out : Str} (hout : R.toJSON (R.fromJSON v) = some out)
    (m : List (Str × Json)) :
    reply_members host out m = Json.put (lit "r") (RData.toJSON P (.fromJSON v)) m := by
  obtain ⟨out', hout', hparse, hmark⟩ := hlib.encode
  rw [← hlib.decode, hout] at hout'
  obtain rfl := Option.some.inj hout'
  rw [reply_members, if_neg fun h => hmark h.2, hparse, Option.getD_some]

/-! ## The fork of such a call -/

theorem passed_back {s : System V} {evs : List Event} (hp : Passed v k (run (System.step host opts R) s evs)) :
    Along (System.step host opts R) (fun s _ => Passed v k s) s evs := by
  refine (along_of_run (I := fun _ => True) (P := Passed v k) (fun _ _ _ => trivial) (fun s e _ h => ?_) trivial hp).2
  have hs : Passed v k s := by
    intro f hf
    obtain ⟨st, hst⟩ := fork_next host R opts hf e
    have hargs := h _ hst
    exact hargs
  exact ⟨hs, hs⟩

theorem echoed_step (hlib : Jsonlite host R P data v) (hv : ∀ s, v ≠ .string (36 :: s)) {s : System V} {f : Fork V}
    (hf : s.sessions.forks k = some f) (hp : Passed v k s) (hret : Returns R (R.fromJSON v) k s (.step k))
    (h : Echoed R (R.fromJSON v) f.call f.stage) :
    Echoed R (R.fromJSON v) f.call (json_call_step host R s.sessions.fs f).2 := by
  have hx : R.toJSON (R.fromJSON v) ≠ none := by
    obtain ⟨out, hout, -⟩ := hlib.encode
    rw [hlib.decode, hout]
    exact Option.some_ne_none out
  cases hst : f.stage with
  | forked => rcases step_forked host R s.sessions.fs hst with ⟨hj, -⟩ | ⟨cwd, sc, -, -, hj⟩ <;> rw [hj] <;> trivial
  | attached sc =>
    rcases step_attached host R s.sessions.fs hst with ⟨-, hj⟩ | ⟨ev, he, hj⟩
    · rw [hj]; trivial
    · obtain ⟨callee, hcallee, hok, hplots⟩ := hret f sc rfl hf hst
      rw [hj]
      exact echo_output hx (by rw [hp f hf, echo_args hlib hv]) hcallee hok hplots he
  | evaluated sc ev =>
    rw [hst] at h
    rcases step_evaluated host R s.sessions.fs hst with ⟨-, hj⟩ | ⟨cwd, -, hj⟩
    · rw [hj]; trivial
    · rw [hj]
      dsimp only
      split
      · exact h
      · trivial
  | saved sc ev =>
    rw [hst] at h
    rcases step_saved host R s.sessions.fs hst with ⟨-, hj⟩ | ⟨out, sent, hr, hj⟩
    · rw [hj]; trivial
    · rw [hj]
      have hout : R.toJSON (R.fromJSON v) = some out := by
        rw [← h]
        unfold reply at hr
        split at hr
        · cases hr
        · rename_i hcall
          split at hr
          · cases hr; exact hcall
          · cases hr
      exact hout
  | replied => rw [step_terminated host R _ (by rw [hst]; rfl)]; exact h
  | dead => rw [step_terminated host R _ (by rw [hst]; rfl)]; exact h

theorem delivers_iff (hlib : Jsonlite host R P data v) (hv : ∀ s, v ≠ .string (36 :: s)) {s : System V}
    (ht : Traced host opts s)
    (he : ∀ f, s.sessions.forks k = some f → Echoed R (R.fromJSON v) f.call f.stage) (hp : Passed v k s) {e : Event}
    (hret : Returns R (R.fromJSON v) k s e) :
    Delivers host R (RData.toJSON P (.fromJSON v)) k s e ↔ StepsProceed host R k s e := by
  refine forall_congr' fun f => forall_congr' fun hk => forall_congr' fun hf => ?_
  have hf : s.sessions.forks k = some f := hf
  cases hst : f.stage with
  | attached sc =>
    obtain ⟨callee, hcallee, -⟩ := hret f sc hk hf hst
    simp only [Proceeds, hst, hcallee, hp f hf, echo_args hlib hv]
    exact iff_of_true trivial ⟨nofun, nofun⟩
  | saved sc ev =>
    obtain ⟨r, haw⟩ := ht.fork_awaits host opts hf
    have hcall := he f hf
    rw [hst] at hcall
    obtain ⟨out, hout, -⟩ := hlib.encode
    rw [← hlib.decode] at hout
    have hcall : call_output R f.call.func_name ev = some out := hcall.trans hout
    simp [Proceeds, hst, hcall, haw, echo_members hlib hout]
  | _ => exact Iff.rfl

/-- What holds along the run of a call that is passed `v` and returns it. -/
theorem along_echoed (hlib : Jsonlite host R P data v) (hv : ∀ s, v ≠ .string (36 :: s)) {s : System V} (h₀ : Fresh s)
    {evs : List Event} (hp : Passed v k (run (System.step host opts R) s evs))
    (hret : Along (System.step host opts R) (Returns R (R.fromJSON v) k) s evs) :
    (∀ f, (run (System.step host opts R) s evs).sessions.forks k = some f → Echoed R (R.fromJSON v) f.call f.stage) ∧
      (Along (System.step host opts R) (Delivers host R (RData.toJSON P (.fromJSON v)) k) s evs ↔
        Along (System.step host opts R) (StepsProceed host R k) s evs) := by
  have hstep : ∀ s e, (Traced host opts s ∧ ∀ f, s.sessions.forks k = some f → Echoed R (R.fromJSON v) f.call f.stage) →
      Passed v k s ∧ Returns R (R.fromJSON v) k s e → Traced host opts (s.step host opts R e) ∧
        ∀ f, (s.step host opts R e).sessions.forks k = some f → Echoed R (R.fromJSON v) f.call f.stage := by
    intro s e hs he
    refine ⟨traced_step host opts R hs.1 e, fun f' hf' => ?_⟩
    rcases hs.1.fork_step host opts R hf' with hold | ⟨m, mc, tmp, c, -, -, rfl⟩ | ⟨f, rfl, hf, rfl⟩
    · exact hs.2 f' hold
    · trivial
    · exact echoed_step hlib hv hf he.1 he.2 (hs.2 f hf)
  have hstart : Traced host opts s ∧ ∀ f, s.sessions.forks k = some f → Echoed R (R.fromJSON v) f.call f.stage :=
    ⟨h₀.traced host opts, fun f hf => by rw [h₀.forks k] at hf; cases hf⟩
  have hall := along_inv hstep hstart ((passed_back hp).and hret)
  refine ⟨(run_inv hstep hstart ((passed_back hp).and hret)).2, fun h => ?_, fun h => ?_⟩
  · exact (hall.and h).mono fun s e hs => (delivers_iff hlib hv hs.1.1.1 hs.1.1.2 hs.1.2.1 hs.1.2.2).mp hs.2
  · exact (hall.and h).mono fun s e hs => (delivers_iff hlib hv hs.1.1.1 hs.1.1.2 hs.1.2.1 hs.1.2.2).mpr hs.2

variable (host opts R)

/-- **JSON values survive the round trip** through a function that returns its argument
exactly when nothing in them is lost on the way and the reply can be delivered. -/
theorem value_survives_iff (hlib : Jsonlite host R P data v) (ho : v.Ordered) (hv : ∀ s, v ≠ .string (36 :: s)) (genv : Env V)
    (fs : FS V) {evs : List Event} {f : Fork V}
    (hf : (run (System.step host opts R) (System.start host opts genv fs) evs).sessions.forks k = some f)
    (hargs : f.call.string_args = .array [v]) (hterm : f.stage.terminated = true)
    (hret : Along (System.step host opts R) (Returns R (R.fromJSON v) k) (System.start host opts genv fs) evs) :
    (∃ id t j, written (run (System.step host opts R) (System.start host opts genv fs) evs).log (.fork k) =
        [⟨id, .publish t (.object j) false⟩] ∧ Json.find (lit "r") j = some v) ↔
      v.Survives ∧ Along (System.step host opts R) (Delivers host R (RData.toJSON P (.fromJSON v)) k)
        (System.start host opts genv fs) evs := by
  have h₀ := fresh_start host opts genv fs
  have ht := run_traced host opts R h₀ evs
  have hc := run_computed host opts R h₀ evs hf
  obtain ⟨r, haw⟩ := ht.fork_awaits host opts hf
  have hp : Passed v k (run (System.step host opts R) (System.start host opts genv fs) evs) := by
    intro f' hf'
    rw [← Option.some.inj (hf.symm.trans hf')]
    exact hargs
  obtain ⟨hech, hdel⟩ := along_echoed hlib hv h₀ hp hret
  have hech := hech f hf
  rw [hdel, along_proceeds_iff host opts R h₀, ht.fork k, hf, ← round_trip_iff P ho]
  cases hst : f.stage with
  | replied sc ev out sent =>
    rw [hst] at hc hech
    obtain ⟨-, id, t, rfl⟩ := sent_of_reply host haw hc.2
    have hr : Json.find (lit "r") (Json.touch (lit "s") (reply_members host out r.context)) =
        some (RData.toJSON P (.fromJSON v)) := by
      rw [Json.find_touch_of_ne (by decide), echo_members hlib hech, Json.find_put_self]
    simp only [hst, Stage.sent]
    constructor
    · intro h
      obtain ⟨id', t', j, hj, hfind⟩ := h
      cases hj
      rw [hr] at hfind
      refine ⟨Option.some.inj hfind, fun f' hf' => ?_⟩
      rw [← Option.some.inj hf', hst]
      intro hdead
      cases hdead
    · intro h
      exact ⟨id, t, _, rfl, by rw [hr, h.1]⟩
  | dead =>
    refine iff_of_false (fun h => ?_) fun h => h.2 f rfl hst
    obtain ⟨id, t, j, hj, -⟩ := h
    simp only [hst, Stage.sent] at hj
    cases hj
  | _ => rw [hst] at hterm; cases hterm

end

/-! ## Two values -/

def round_digits (q : Rat) : Rat := round (q * 10 ^ 4) / 10 ^ 4

/-- It agrees with `cleannames` on names that are not empty and differ. -/
def fill_names (l : List Str) : List Str := if l.Nodup ∧ ∀ n ∈ l, n ≠ [] then l else l.map (lit "X" ++ ·)

def echo_printing : Printing where
  digits := round_digits
  cleannames := fill_names
  digits_decimals q := ⟨round (q * 10 ^ 4), by rw [round_digits, div_mul_cancel₀]; decide⟩
  digits_of_decimals q h := by
    obtain ⟨z, hz⟩ := h
    rw [round_digits, hz, round_intCast, ← hz, mul_div_cancel_right₀]
    decide
  names_nonempty l n hn := by
    unfold fill_names at hn
    split at hn
    · rename_i h; exact h.2 n hn
    · obtain ⟨n', -, rfl⟩ := List.mem_map.mp hn
      simp [lit]
  names_no_nul l h n hn := by
    unfold fill_names at hn
    split at hn
    · exact h n hn
    · obtain ⟨n', hn', rfl⟩ := List.mem_map.mp hn
      have h0 := h n' hn'
      simp [lit, h0]
  names_of_nodup l h hne := if_pos ⟨h, hne⟩

def integer_text (q : Rat) : Str := lit (toString q.num)

def text_host (vs : List Json) : Host where
  parse text := vs.find? fun v => v.text integer_text == text
  refuse _ := none
  hostname := lit "host"

theorem parse_second {v w : Json} (h : (v.text integer_text == w.text integer_text) = false) :
    (text_host [v, w]).parse (w.text integer_text) = some w := by
  simp only [text_host]
  rw [List.find?_cons_of_neg (by simpa using h), List.find?_cons_of_pos (by simp)]

def closure : RData := .character (lit "function (x) x")

def RData.is_closure : RData → Bool
  | .character s => s == lit "function (x) x"
  | _ => false

def calls_closure (callee : Callee) (sc : Scope RData) : Bool :=
  match callee with
  | .name n => (sc.genv n).any RData.is_closure
  | .colons _ _ => false

def echo_R : RLib RData where
  is_null d := match d with
    | .null => true
    | _ => false
  character := RData.text
  string := .character
  fromJSON := RData.fromJSON
  set_elt d := some [(none, d)]
  toJSON d := some ((RData.toJSON echo_printing d).text integer_text)
  serializeJSON _ := none
  frame _ := none
  vrpc_ns _ := none
  imports _ := none
  base_ns _ := none
  search _ := none
  evaluate callee args sc := match calls_closure callee sc, args with
    | true, [(_, x)] => ⟨sc, .ok x, []⟩
    | true, _ => ⟨sc, .error ⟨lit "unused argument", none⟩, []⟩
    | false, _ => ⟨sc, .error ⟨lit "could not find function", none⟩, []⟩

def echo_genv : Env RData := update (fun _ => none) (lit "echo") (some closure)

def echo_request (v : Json) : Json := .object [(lit "a", .array [v]), (lit "s", .string (lit "t"))]

def echo_host (v : Json) : Host := text_host [echo_request v, RData.toJSON echo_printing (.fromJSON v)]

def echo_events (v : Json) : List Event :=
  .deliver 0 ⟨lit "d/a/Session/__static__/echo", (echo_request v).text integer_text⟩ (.ok ()) [] :: List.replicate 4 (.step 0)

def echo_start (v : Json) : System RData := System.start (echo_host v) small_options echo_genv (fun _ => none)

def echo_run (v : Json) : System RData := run (System.step (echo_host v) small_options echo_R) (echo_start v) (echo_events v)

def echo_value : Json := .array [.boolean true, .string (lit "x")]

theorem echo_jsonlite : Jsonlite (echo_host echo_value) echo_R echo_printing id echo_value := by
  refine ⟨rfl, rfl, _, rfl, ?_, by decide +kernel⟩
  have hrequest : ((echo_request echo_value).text integer_text ==
      (RData.toJSON echo_printing (.fromJSON echo_value)).text integer_text) = false := by decide +kernel
  exact parse_second hrequest

def passes_echo_value (args : Json) : Bool :=
  match args with
  | .array [.array [.boolean true, .string s]] => s == lit "x"
  | _ => false

theorem passes_echo_value_eq {args : Json} (h : passes_echo_value args = true) : args = .array [echo_value] := by
  unfold passes_echo_value at h
  split at h
  · rename_i s
    rw [echo_value, beq_iff_eq.mp h]
  · cases h

def reaches_closure (s : System RData) : Bool :=
  (s.sessions.forks 0).all fun f => match f.stage with
    | .attached sc => f.call.func_name == lit "echo" && calls_closure (.name (lit "echo")) sc
    | _ => true

theorem echo_returns :
    Along (System.step (echo_host echo_value) small_options echo_R) (Returns echo_R (echo_R.fromJSON echo_value) 0)
    (echo_start echo_value) (echo_events echo_value) := by
  have h : Along (System.step (echo_host echo_value) small_options echo_R) (fun s _ => reaches_closure s = true)
      (echo_start echo_value) (echo_events echo_value) := by decide +kernel
  refine h.mono fun s e hs => fun f sc _ hf hst => ?_
  rw [reaches_closure, hf, Option.all_some, hst, Bool.and_eq_true, beq_iff_eq] at hs
  have hname : call_object (lit "echo") = some (.name (lit "echo")) := by decide
  refine ⟨.name (lit "echo"), by rw [hs.1, hname], ?_, ?_⟩
  · simp only [echo_R, hs.2]
  · simp only [echo_R, hs.2]

theorem true_and_text_survive : ∃ id t j, written (echo_run echo_value).log (.fork 0) =
    [⟨id, .publish t (.object j) false⟩] ∧ Json.find (lit "r") j = some echo_value := by
  have hsome : ((echo_run echo_value).sessions.forks 0).any
      (fun f => passes_echo_value f.call.string_args && f.stage.terminated) = true := by decide +kernel
  obtain ⟨f, hf, h⟩ := (Option.any_eq_true _ _).mp hsome
  obtain ⟨hcall, hterm⟩ := Bool.and_eq_true_iff.mp h
  have hargs := passes_echo_value_eq hcall
  have hv : ∀ s, echo_value ≠ .string (36 :: s) := fun s h => by cases h
  have h₀ := fresh_start (echo_host echo_value) small_options echo_genv (fun _ => none)
  have hp : Passed echo_value 0 (echo_run echo_value) := by
    intro f' hf'
    rw [← Option.some.inj (hf.symm.trans hf')]
    exact hargs
  have hproceeds : Along (System.step (echo_host echo_value) small_options echo_R)
      (StepsProceed (echo_host echo_value) echo_R 0)
      (System.start (echo_host echo_value) small_options echo_genv fun _ => none) (echo_events echo_value) :=
    along_stepsProceed (echo_host echo_value) small_options echo_R h₀ (by decide +kernel)
  unfold echo_run echo_start at hf hp ⊢
  refine (value_survives_iff (echo_host echo_value) small_options echo_R echo_jsonlite (by simp [echo_value, Json.Ordered,
    Json.ElemsOrdered]) hv echo_genv (fun _ => none) hf hargs hterm echo_returns).mpr ⟨?_, ?_⟩
  · simp [echo_value, Json.Survives, Json.ElemsSurvive, lit]
  · exact (along_echoed echo_jsonlite hv h₀ hp echo_returns).2.mpr hproceeds

def answers_empty_object (q : Sent) : Bool :=
  match q.packet with
  | .publish _ (.object j) _ =>
    match Json.find (lit "r") j with
    | some (.object []) => true
    | _ => false
  | _ => false

theorem null_becomes_an_object :
    ¬ ∀ v : Json, v.Ordered → (∀ s, v ≠ .string (36 :: s)) → ∃ id t j, written (echo_run v).log (.fork 0) =
      [⟨id, .publish t (.object j) false⟩] ∧ Json.find (lit "r") j = some v := by
  intro h
  obtain ⟨id, t, j, hw, hr⟩ := h .null (by simp [Json.Ordered]) (by simp)
  have hempty : (written (echo_run .null).log (.fork 0)).any answers_empty_object = true := by decide +kernel
  rw [hw] at hempty
  simp [answers_empty_object, hr] at hempty

end VrpcAgent

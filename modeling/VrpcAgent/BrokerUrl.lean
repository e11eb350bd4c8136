import VrpcAgent.Json
import VrpcAgent.MaximalRuns

/-!
# Broker URLs

`extract_broker_info` looks for the first byte of `"://"` where it means the separator
itself, and skips three bytes behind it. The grammar is a scheme, the separator, a host,
and a port behind a colon.
-/

namespace VrpcAgent

/-- The fields of `Options` that come from the URL. -/
structure BrokerInfo where
  is_ssl : Bool
  host : Str
  port : Str
deriving DecidableEq

inductive UrlError where
  | runtime_error (what : Str)
  | out_of_range
deriving DecidableEq

def find_first_of (s chars : Str) : Option Nat := s.findIdx? fun c => decide (c ∈ chars)

def substr (s : Str) (pos : Nat) : Except UrlError Str := if pos ≤ s.length then .ok (s.drop pos) else .error .out_of_range

def missing_scheme : Str := lit "Missing scheme in broker url (use e.g. mqtts://<hostname>)"

def secure (scheme : Str) : Bool := decide (scheme = lit "ssl") || decide (scheme = lit "mqtts")

def default_port (is_ssl : Bool) : Str := if is_ssl then lit "8883" else lit "1883"

def extract_broker_info (url : Str) : Except UrlError BrokerInfo :=
  match find_first_of url (lit "://") with
  | none => .error (.runtime_error missing_scheme)
  | some pos1 => do
    let is_ssl := secure (url.take pos1)
    let host ← substr url (pos1 + 3)
    match find_first_of host (lit ":") with
    | none => return ⟨is_ssl, host, default_port is_ssl⟩
    | some pos2 => do
      let port ← substr host (pos2 + 1)
      return ⟨is_ssl, host.take pos2, port⟩

/-! ## The grammar -/

def InBrackets (host : Str) : Prop := ∃ b, host = 91 :: b ++ [93] ∧ 91 ∉ b ∧ 93 ∉ b

def authority (host : Str) : Option Str → Str
  | none => host
  | some port => host ++ 58 :: port

def SchemeName (scheme : Str) : Prop := 58 ∉ scheme ∧ 47 ∉ scheme

structure BrokerUrl where
  scheme : Str
  host : Str
  port : Option Str
  scheme_name : SchemeName scheme
  host_name : 58 ∉ host ∨ InBrackets host
  /-- What can be read as an address in brackets is read so. -/
  whole : ∀ h p, InBrackets h → authority h p = authority host port → h = host

def BrokerUrl.text (u : BrokerUrl) : Str := u.scheme ++ (lit "://" ++ authority u.host u.port)

def BrokerUrl.info (u : BrokerUrl) : BrokerInfo :=
  ⟨secure u.scheme, u.host, u.port.getD (default_port (secure u.scheme))⟩

structure FollowsGrammar (url : Str) (r : Except UrlError BrokerInfo) : Prop where
  missing : r = .error (.runtime_error missing_scheme) ↔ ¬ lit "://" <:+: url
  returns : lit "://" <:+: url → ∃ b, r = .ok b
  parses : ∀ u : BrokerUrl, u.text = url → r = .ok u.info
  /-- The host is all that stands between the first separator and the port. -/
  uncut : ∀ b, r = .ok b → ∃ scheme port, ¬ lit "://" <:+: scheme ∧
    url = scheme ++ (lit "://" ++ authority b.host port) ∧ b.port = port.getD (default_port b.is_ssl)

/-! ## Separators -/

section
variable {a b s t chars : Str} {c d : UInt8}

theorem find_first_of_none (h : ∀ c ∈ s, c ∉ chars) : find_first_of s chars = none := by
  unfold find_first_of
  rw [List.findIdx?_eq_none_iff]
  intro c hc
  exact decide_eq_false (h c hc)

theorem find_first_of_append (ha : ∀ x ∈ a, x ∉ chars) (hc : c ∈ chars) :
    find_first_of (a ++ c :: b) chars = some a.length := by
  have hnone : a.findIdx? (fun x => decide (x ∈ chars)) = none := find_first_of_none ha
  unfold find_first_of
  rw [List.findIdx?_append, hnone, List.findIdx?_cons, if_pos (by simpa using hc)]
  simp

theorem mem_separator : c ∈ lit "://" ↔ c = 58 ∨ c = 47 := by simp [lit]

theorem SchemeName.notMem (h : SchemeName s) : ∀ c ∈ s, c ∉ lit "://" := by
  intro c hc hm
  rcases mem_separator.mp hm with rfl | rfl
  · exact h.1 hc
  · exact h.2 hc

theorem split_cases (h : a ++ c :: b = s ++ c :: t) :
    a = s ∧ b = t ∨ (∃ x, s = a ++ c :: x ∧ b = x ++ c :: t) ∨ ∃ x, a = s ++ c :: x ∧ t = x ++ c :: b := by
  rcases List.append_eq_append_iff.mp h with ⟨x, hx, hy⟩ | ⟨x, hx, hy⟩
  · cases x with
    | nil => exact .inl ⟨by rw [hx, List.append_nil], (List.cons.inj hy).2⟩
    | cons y x =>
      obtain ⟨rfl, hb⟩ := List.cons.inj hy
      exact .inr (.inl ⟨x, hx, hb⟩)
  · cases x with
    | nil => exact .inl ⟨by rw [hx, List.append_nil], (List.cons.inj hy).2.symm⟩
    | cons y x =>
      obtain ⟨rfl, ht⟩ := List.cons.inj hy
      exact .inr (.inr ⟨x, hx, ht⟩)

theorem last_split (hb : c ∉ b) (ht : c ∉ t) (h : a ++ c :: b = s ++ c :: t) : b = t := by
  rcases split_cases h with ⟨-, h⟩ | ⟨x, -, h⟩ | ⟨x, -, h⟩
  · exact h
  · exact absurd (h ▸ by simp) hb
  · exact absurd (h ▸ by simp) ht

theorem first_split (ha : c ∉ a) (hs : c ∉ s) (h : a ++ c :: b = s ++ c :: t) : a = s ∧ b = t := by
  rcases split_cases h with h | ⟨x, h, -⟩ | ⟨x, h, -⟩
  · exact h
  · exact absurd (h ▸ by simp) hs
  · exact absurd (h ▸ by simp) ha

theorem SchemeName.no_separator (h : SchemeName s) : ¬ lit "://" <:+: s := fun hs => h.1 (hs.subset (by decide))

theorem exists_first (url : Str) :
    SchemeName url ∨ ∃ s c t, url = s ++ c :: t ∧ SchemeName s ∧ c ∈ lit "://" := by
  obtain ⟨s, rest, rfl, hs, hrest⟩ := MaximalRuns.exists_span (fun c => !decide (c ∈ lit "://")) url
  have hname : SchemeName s := by
    constructor
    · exact fun hc => absurd (hs 58 hc) (by decide)
    · exact fun hc => absurd (hs 47 hc) (by decide)
  cases rest with
  | nil => rw [List.append_nil]; exact .inl hname
  | cons c t => exact .inr ⟨s, c, t, rfl, hname, by simpa using hrest c rfl⟩

theorem exists_authority (rest : Str) : ∃ host port, 58 ∉ host ∧ rest = authority host port := by
  by_cases h : 58 ∈ rest
  · obtain ⟨host, port, hrest, hhost⟩ := List.eq_append_cons_of_mem h
    exact ⟨host, some port, hhost, hrest⟩
  · exact ⟨rest, none, h, rfl⟩

theorem in_brackets_unique {p p' : Option Str} (hs : InBrackets s) (ht : InBrackets t)
    (h : authority s p = authority t p') : s = t := by
  have hparts : ∀ {h : Str} (q : Option Str), InBrackets h → ∃ a l, 93 ∉ a ∧ h = a ++ [93] ∧
      authority h q = a ++ 93 :: l := by
    intro h q hb
    obtain ⟨b, rfl, -, hb⟩ := hb
    have hmem : 93 ∉ 91 :: b := by simpa using hb
    cases q with
    | none => exact ⟨91 :: b, [], hmem, rfl, rfl⟩
    | some q => exact ⟨91 :: b, 58 :: q, hmem, rfl, by simp [authority]⟩
  obtain ⟨a, l, ha, has, hl⟩ := hparts p hs
  obtain ⟨a', l', ha', hat, hl'⟩ := hparts p' ht
  rw [hl, hl'] at h
  rw [has, hat, (first_split ha ha' h).1]

/-! ## Parsing -/

theorem extract_missing (h : SchemeName s) : extract_broker_info s = .error (.runtime_error missing_scheme) := by
  unfold extract_broker_info
  rw [find_first_of_none h.notMem]

theorem extract_short (hs : SchemeName s) (hc : c ∈ lit "://") (ht : t.length < 2) :
    extract_broker_info (s ++ c :: t) = .error .out_of_range := by
  have hlen : ¬ s.length + 3 ≤ (s ++ c :: t).length := by
    rw [List.length_append, List.length_cons]
    omega
  unfold extract_broker_info
  rw [find_first_of_append hs.notMem hc]
  simp only [substr, if_neg hlen]
  rfl

/-- The two bytes behind the first one of `"://"` are skipped unseen. -/
theorem extract_authority (hs : SchemeName s) (hc : c ∈ lit "://") (x y : UInt8) {host : Str} (hhost : 58 ∉ host)
    (port : Option Str) :
    extract_broker_info (s ++ c :: x :: y :: authority host port) =
      .ok ⟨secure s, host, port.getD (default_port (secure s))⟩ := by
  have hcolon : ∀ x ∈ host, x ∉ lit ":" := by
    intro x hx hm
    obtain rfl : x = 58 := by simpa [lit] using hm
    exact hhost hx
  have htake : (s ++ c :: x :: y :: authority host port).take s.length = s := by simp
  have hdrop : substr (s ++ c :: x :: y :: authority host port) (s.length + 3) = .ok (authority host port) := by simp [substr]
  unfold extract_broker_info
  rw [find_first_of_append hs.notMem hc]
  simp only [htake, hdrop]
  cases port with
  | none =>
    show (match find_first_of host (lit ":") with | none => _ | some _ => _) = _
    rw [find_first_of_none hcolon]
    rfl
  | some port =>
    show (match find_first_of (host ++ 58 :: port) (lit ":") with | none => _ | some _ => _) = _
    rw [find_first_of_append hcolon (by decide)]
    simp [authority, substr]

theorem extract_url (hs : SchemeName s) {host : Str} (hhost : 58 ∉ host) (port : Option Str) :
    extract_broker_info (s ++ (lit "://" ++ authority host port)) =
      .ok ⟨secure s, host, port.getD (default_port (secure s))⟩ :=
  extract_authority hs (by decide) 47 47 hhost port

/-! ## The cases -/

theorem follows_missing (h : SchemeName s) : FollowsGrammar s (extract_broker_info s) := by
  have hr := extract_missing h
  refine ⟨iff_of_true hr h.no_separator, fun hsep => absurd hsep h.no_separator, fun u hu => ?_, fun b hb => ?_⟩
  · have hsep : lit "://" <:+: u.text := ⟨u.scheme, authority u.host u.port, by simp [BrokerUrl.text]⟩
    rw [hu] at hsep
    exact absurd hsep h.no_separator
  · rw [hr] at hb
    cases hb

theorem follows_url (hs : SchemeName s) {rest : Str} (hbr : ∀ h p, InBrackets h → rest = authority h p → 58 ∉ h) :
    FollowsGrammar (s ++ (lit "://" ++ rest)) (extract_broker_info (s ++ (lit "://" ++ rest))) := by
  obtain ⟨host, port, hhost, rfl⟩ := exists_authority rest
  have hr := extract_url hs hhost port
  have hsep : lit "://" <:+: s ++ (lit "://" ++ authority host port) := ⟨s, authority host port, List.append_assoc _ _ _⟩
  refine ⟨iff_of_false (fun h => ?_) (not_not_intro hsep), fun _ => ⟨_, hr⟩, fun u hu => ?_, fun b hb => ?_⟩
  · rw [hr] at h
    cases h
  · obtain ⟨-, htail⟩ := first_split (c := 58) u.scheme_name.1 hs.1 hu
    have hrest : authority host port = authority u.host u.port := (List.append_cancel_left htail).symm
    have hu58 : 58 ∉ u.host := by
      rcases u.host_name with h | h
      · exact h
      · exact hbr u.host u.port h hrest
    rw [← hu]
    exact extract_url u.scheme_name hu58 u.port
  · rw [hr] at hb
    cases hb
    exact ⟨s, port, hs.no_separator, rfl, rfl⟩

theorem no_colon_in_brackets (hs : SchemeName s) {rest : Str}
    (hg : FollowsGrammar (s ++ (lit "://" ++ rest)) (extract_broker_info (s ++ (lit "://" ++ rest)))) :
    ∀ h p, InBrackets h → rest = authority h p → 58 ∉ h := by
  intro h p hb heq
  subst heq
  let u : BrokerUrl := ⟨s, h, p, hs, .inr hb, fun h' p' hb' heq => in_brackets_unique hb' hb heq⟩
  have hu := hg.parses u rfl
  obtain ⟨host, port, hhost, hrest⟩ := exists_authority (authority h p)
  rw [hrest, extract_url hs hhost port] at hu
  have hhosts : host = h := congrArg BrokerInfo.host (Except.ok.inj hu)
  rw [← hhosts]
  exact hhost

/-- Where the code keeps the whole host, the text begins with the scheme it has read. -/
theorem same_authority (hs : 58 ∉ s) (x y : UInt8) {host s' : Str} (hhost : 58 ∉ host) {port port' : Option Str}
    {is_ssl : Bool}
    (hport : port.getD (default_port is_ssl) = port'.getD (default_port is_ssl))
    (h : s ++ c :: x :: y :: authority host port = s' ++ (lit "://" ++ authority host port')) :
    authority host port = authority host port' := by
  have hlen := congrArg List.length h
  have hsep : (lit "://").length = 3 := rfl
  simp only [List.length_append, List.length_cons, hsep] at hlen
  cases port with
  | none =>
    cases port' with
    | none => rfl
    | some q =>
      -- the scheme that was read would reach behind the separator
      simp only [authority, List.length_append, List.length_cons] at hlen
      have hle : s.length ≤ s'.length := by
        rcases List.append_eq_append_iff.mp h with ⟨z, hz, -⟩ | ⟨z, hz, hy⟩
        · rw [hz, List.length_append]; omega
        · cases z with
          | nil => rw [hz, List.append_nil]
          | cons d z =>
            obtain rfl : d = 58 := ((List.cons.inj hy).1).symm
            exact absurd (hz ▸ by simp) hs
      omega
  | some q =>
    cases port' with
    | some q' =>
      obtain rfl : q = q' := hport
      rfl
    | none =>
      obtain rfl : q = default_port is_ssl := hport
      have hq : 58 ∉ default_port is_ssl := by cases is_ssl <;> decide
      have hlast : default_port is_ssl = 47 :: 47 :: host := by
        refine last_split (a := s ++ c :: x :: y :: host) (s := s') hq (by simpa using hhost) ?_
        simpa [authority, lit] using h
      cases is_ssl <;> cases hlast

theorem begins_with_scheme (hs : SchemeName s) (hc : c ∈ lit "://")
    (hg : FollowsGrammar (s ++ c :: t) (extract_broker_info (s ++ c :: t))) : ∃ rest, c :: t = lit "://" ++ rest := by
  by_cases ht : t.length < 2
  · rw [extract_short hs hc ht] at hg
    by_cases hsep : lit "://" <:+: s ++ c :: t
    · obtain ⟨b, hb⟩ := hg.returns hsep
      cases hb
    · cases hg.missing.mpr hsep
  · obtain ⟨x, y, rest, rfl⟩ : ∃ x y rest, t = x :: y :: rest := by
      cases t with
      | nil => simp at ht
      | cons x t =>
        cases t with
        | nil => simp at ht
        | cons y t => exact ⟨x, y, t, rfl⟩
    obtain ⟨host, port, hhost, rfl⟩ := exists_authority rest
    obtain ⟨s', port', -, htext, hport⟩ := hg.uncut _ (extract_authority hs hc x y hhost port)
    have hrest := same_authority hs.1 x y hhost hport htext
    have hsame : (s ++ [c, x, y]) ++ authority host port = (s' ++ lit "://") ++ authority host port := by
      rw [List.append_assoc, List.append_assoc]
      conv_rhs => rw [hrest]
      exact htext
    have hfront : [c, x, y] = lit "://" := (List.append_inj' (List.append_cancel_right hsame) rfl).2
    exact ⟨authority host port, by rw [← hfront]; rfl⟩

/-- **Broker URLs** are parsed by their grammar, exactly when the URL has neither a colon
nor a slash, or begins with a scheme and its separator and has no bracketed host with a
colon behind them. -/
theorem extract_broker_info_iff (url : Str) :
    FollowsGrammar url (extract_broker_info url) ↔
      SchemeName url ∨ ∃ scheme rest, SchemeName scheme ∧ url = scheme ++ (lit "://" ++ rest) ∧
        ∀ h p, InBrackets h → rest = authority h p → 58 ∉ h := by
  constructor
  · intro hg
    rcases exists_first url with hurl | ⟨s, c, t, rfl, hs, hc⟩
    · exact .inl hurl
    · obtain ⟨rest, hrest⟩ := begins_with_scheme hs hc hg
      rw [hrest] at hg ⊢
      exact .inr ⟨s, rest, hs, rfl, no_colon_in_brackets hs hg⟩
  · intro h
    rcases h with hurl | ⟨s, rest, hs, rfl, hbr⟩
    · exact follows_missing hurl
    · exact follows_url hs hbr

end

/-- The host is the end of the port. -/
theorem port_without_scheme : ¬ FollowsGrammar (lit "localhost:1883") (extract_broker_info (lit "localhost:1883")) := by
  have hr : extract_broker_info (lit "localhost:1883") = .ok ⟨false, lit "83", lit "1883"⟩ := by rfl
  intro h
  have hno : ¬ lit "://" <:+: lit "localhost:1883" := fun hs => absurd (hs.subset (by decide : 47 ∈ lit "://")) (by decide)
  rw [hr] at h
  cases h.missing.mpr hno

end VrpcAgent

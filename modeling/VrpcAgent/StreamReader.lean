import Mathlib.Data.List.Basic

/-!
# Readers of a stream that arrives in pieces

A reader takes one item from the front of what has arrived, waits for more, or gives up.
A steady reader does not change its mind when more arrives, so that it does not matter
where the stream is cut.
-/

namespace StreamReader

variable {ε α β π : Type*}

inductive ReadOutcome (ε α β : Type*) where
  | done (a : α) (rest : List β)
  | more
  | fail (e : ε)

structure Steady (r : List β → ReadOutcome ε α β) : Prop where
  nil : r [] = .more
  done : ∀ {s a rest}, r s = .done a rest → rest.length < s.length ∧ ∀ t, r (s ++ t) = .done a (rest ++ t)
  fail : ∀ {s e}, r s = .fail e → ∀ t, r (s ++ t) = .fail e

inductive Rest (ε β : Type*) where
  | waiting (s : List β)
  | failed (e : ε)

def drain (r : List β → ReadOutcome ε α β) : Nat → List β → List α × Rest ε β
  | 0, s => ([], .waiting s)
  | n + 1, s =>
    match r s with
    | .done a rest => (a :: (drain r n rest).1, (drain r n rest).2)
    | .more => ([], .waiting s)
    | .fail e => ([], .failed e)

def read (r : List β → ReadOutcome ε α β) (s : List β) : List α × Rest ε β := drain r (s.length + 1) s

def feed (r : List β → ReadOutcome ε α β) (x : List α × Rest ε β) (chunk : List β) : List α × Rest ε β :=
  match x.2 with
  | .waiting s => (x.1 ++ (read r (s ++ chunk)).1, (read r (s ++ chunk)).2)
  | .failed _ => x

section
variable {r : List β → ReadOutcome ε α β} (hr : Steady r)

include hr in
theorem drain_eq_read : ∀ {n : Nat} {s : List β}, s.length < n → drain r n s = read r s
  | n + 1, s, hn => by
    show drain r (n + 1) s = drain r (s.length + 1) s
    unfold drain
    cases h : r s with
    | done a rest =>
      have hlt := (hr.done h).1
      have hfuel : drain r n rest = drain r s.length rest := by
        rw [drain_eq_read (n := n) (by omega), drain_eq_read (n := s.length) hlt]
      simp only [hfuel]
    | more => rfl
    | fail e => rfl

include hr in
theorem read_done {s rest : List β} {a : α} (h : r s = .done a rest) :
    read r s = (a :: (read r rest).1, (read r rest).2) := by
  have hlt := (hr.done h).1
  rw [← drain_eq_read hr hlt, read, drain, h]

theorem read_more {s : List β} (h : r s = .more) : read r s = ([], .waiting s) := by
  rw [read, drain, h]

theorem read_fail {s : List β} {e : ε} (h : r s = .fail e) : read r s = ([], .failed e) := by
  rw [read, drain, h]

/-! ## Chunks -/

include hr in
/-- What has been read stays read when more arrives. -/
theorem read_append (s t : List β) : read r (s ++ t) = feed r (read r s) t := by
  induction hn : s.length using Nat.strongRecOn generalizing s with
  | _ n ih =>
    cases h : r s with
    | done a rest =>
      obtain ⟨hlt, happ⟩ := hr.done h
      have ih := ih rest.length (by omega) rest rfl
      rw [read_done hr (happ t), read_done hr h, ih]
      cases hrest : (read r rest).2 <;> simp [feed, hrest]
    | more => rw [read_more h]; rfl
    | fail e => rw [read_fail h, read_fail (hr.fail h t)]; rfl

include hr in
theorem feed_all (chunks : List (List β)) :
    chunks.foldl (feed r) ([], .waiting []) = read r chunks.flatten := by
  have hchunks : ∀ s, chunks.foldl (feed r) (read r s) = read r (s ++ chunks.flatten) := by
    induction chunks with
    | nil => intro s; simp
    | cons c cs ih =>
      intro s
      rw [List.foldl_cons, ← read_append hr, ih, List.flatten_cons, List.append_assoc]
  have h := hchunks []
  rw [read_more hr.nil] at h
  exact h

/-! ## Where items begin -/

/-- The reader comes to `t` when it takes items from the front of `s`. -/
inductive Front (r : List β → ReadOutcome ε α β) : List β → List β → Prop where
  | here (s : List β) : Front r s s
  | next {s rest t : List β} {a : α} (h : r s = .done a rest) (ht : Front r rest t) : Front r s t

/-- `P` holds of what stands where the reader begins with an item. -/
def Throughout (P : List β → Prop) (r : List β → ReadOutcome ε α β) (s : List β) : Prop := ∀ t, Front r s t → P t

variable {P : List β → Prop}

theorem throughout_here {s : List β} (h : Throughout P r s) : P s := h s (.here s)

theorem throughout_next {s rest : List β} {a : α} (h : Throughout P r s) (hs : r s = .done a rest) : Throughout P r rest :=
  fun t ht => h t (.next hs ht)

theorem throughout_cons {s rest : List β} {a : α} (h : r s = .done a rest) (hs : P s) (hrest : Throughout P r rest) :
    Throughout P r s := by
  intro t ht
  cases ht with
  | here => exact hs
  | next h' ht =>
    rw [h] at h'
    cases h'
    exact hrest t ht

theorem throughout_end {s : List β} (h : ∀ a rest, r s ≠ .done a rest) (hs : P s) : Throughout P r s := by
  intro t ht
  cases ht with
  | here => exact hs
  | next h' _ => exact absurd h' (h _ _)

/-! ## Two readers -/

/-- In front of what satisfies `P`, `r'` takes the items that `r` takes, and sees its errors after `n`
more bytes at the latest. -/
structure Follows (P : List β → Prop) (r' r : List β → ReadOutcome ε α β) (n : Nat) : Prop where
  done : ∀ {s a rest}, P s → r s = .done a rest → r' s = .done a rest
  fail : ∀ {s e}, P s → r s = .fail e → ∀ t, n ≤ t.length → r' (s ++ t) = .fail e

variable {r' : List β → ReadOutcome ε α β} {n : Nat} (hr' : Steady r')

include hr hr' in
theorem read_follows (h : Follows P r' r n) (h' : Follows P r r' n) {s : List β} (hP : Throughout P r s) :
    (read r' s).1 = (read r s).1 ∧
      ∀ e, (read r s).2 = .failed e → ∀ t, n ≤ t.length → read r' (s ++ t) = ((read r s).1, .failed e) := by
  induction hn : s.length using Nat.strongRecOn generalizing s with
  | _ m ih =>
    have hs := throughout_here hP
    have hnone : (∀ a rest, r s ≠ .done a rest) → (read r' s).1 = [] := by
      intro hr
      cases hs' : r' s with
      | done a rest => exact absurd (h'.done hs hs') (hr a rest)
      | more => rw [read_more hs']
      | fail e => rw [read_fail hs']
    cases hrs : r s with
    | done a rest =>
      have hrs' := h.done hs hrs
      obtain ⟨hlt, -⟩ := hr.done hrs
      obtain ⟨hitems, hfail⟩ := ih rest.length (by omega) (throughout_next hP hrs) rfl
      rw [read_done hr hrs, read_done hr' hrs', hitems]
      refine ⟨rfl, fun e he t ht => ?_⟩
      rw [read_done hr' ((hr'.done hrs').2 t), hfail e he t ht]
    | more =>
      rw [read_more hrs]
      refine ⟨hnone (by simp [hrs]), fun e he => ?_⟩
      cases he
    | fail e =>
      rw [read_fail hrs]
      refine ⟨hnone (by simp [hrs]), fun e' he t ht => ?_⟩
      cases he
      exact read_fail (h.fail hs hrs t ht)

/-! ## Streams of encoded items -/

def ReadsAs (r : List β → ReadOutcome ε α β) (encode : π → List β) (f : π → α) (p : π) : Prop :=
  ∀ t, r (encode p ++ t) = .done (f p) t

variable {encode : π → List β} {f : π → α}

include hr in
theorem read_encoded (t : List β) : ∀ {ps : List π}, (∀ p ∈ ps, ReadsAs r encode f p) →
    read r (ps.flatMap encode ++ t) = (ps.map f ++ (read r t).1, (read r t).2)
  | [], _ => rfl
  | p :: ps, h => by
    have hp := h p List.mem_cons_self (ps.flatMap encode ++ t)
    rw [List.flatMap_cons, List.append_assoc, read_done hr hp,
      read_encoded t fun q hq => h q (List.mem_cons_of_mem p hq)]
    rfl

include hr in
/-- A part of an item waits for the rest of it. -/
theorem more_of_part {p : π} (h : ReadsAs r encode f p) {s t : List β} (hst : s ++ t = encode p) (ht : t ≠ []) :
    r s = .more := by
  have hall : r (s ++ t) = .done (f p) [] := by
    rw [hst, ← List.append_nil (encode p)]
    exact h []
  cases hs : r s with
  | done a rest =>
    have happ := (hr.done hs).2 t
    rw [hall] at happ
    obtain ⟨-, hnil⟩ := List.append_eq_nil_iff.mp (ReadOutcome.done.inj happ).2.symm
    exact absurd hnil ht
  | more => rfl
  | fail e =>
    have happ := hr.fail hs t
    rw [hall] at happ
    cases happ

include hr in
/-- Of a stream of items that has not arrived as a whole, the reader takes those that have, and
waits in the middle of the next one. -/
theorem read_of_prefix : ∀ {ps : List π} {s rest : List β}, (∀ p ∈ ps, ReadsAs r encode f p) → s ++ rest = ps.flatMap encode →
    ∃ n part, read r s = ((ps.take n).map f, .waiting part) ∧ s = (ps.take n).flatMap encode ++ part ∧
      (part = [] ∨ ∃ q t, ps[n]? = some q ∧ part ++ t = encode q ∧ t ≠ [])
  | [], s, rest, _, hs => by
    obtain ⟨rfl, -⟩ := List.append_eq_nil_iff.mp hs
    exact ⟨0, [], read_more hr.nil, rfl, Or.inl rfl⟩
  | p :: ps, s, rest, h, hs => by
    rw [List.flatMap_cons] at hs
    have hp := h p List.mem_cons_self
    rcases List.append_eq_append_iff.mp hs with ⟨t, hpart, -⟩ | ⟨s', rfl, hs'⟩
    · by_cases ht : t = []
      · subst ht
        rw [List.append_nil] at hpart
        refine ⟨1, [], ?_, by simp [hpart], Or.inl rfl⟩
        have hread := read_encoded hr [] (List.forall_mem_singleton.mpr hp)
        simpa [hpart, read_more hr.nil] using hread
      · refine ⟨0, s, by simpa using read_more (more_of_part hr hp hpart.symm ht), by simp,
          Or.inr ⟨p, t, rfl, hpart.symm, ht⟩⟩
    · obtain ⟨n, part, hread, hsplit, hnext⟩ := read_of_prefix (fun q hq => h q (List.mem_cons_of_mem p hq)) hs'.symm
      refine ⟨n + 1, part, ?_, ?_, hnext⟩
      · rw [read_done hr (hp s'), hread]
        rfl
      · rw [List.take_succ_cons, List.flatMap_cons, List.append_assoc, ← hsplit]

end

/-! ## Readers of a grammar -/

structure ReadsBy (P : List β → Prop) (r : List β → ReadOutcome ε α β) (G : List β → α → Prop) : Prop where
  takes : ∀ {bs a}, G bs a → ∀ rest, r (bs ++ rest) = .done a rest
  taken : ∀ {s a rest}, P s → r s = .done a rest → ∃ bs, s = bs ++ rest ∧ G bs a

def Parsed (G : List β → α → Prop) (s : List β) (items : List α) (rest : List β) : Prop :=
  ∃ pieces, List.Forall₂ G pieces items ∧ s = pieces.flatten ++ rest ∧ ∀ bs t a, rest = bs ++ t → ¬ G bs a

section
variable {r : List β → ReadOutcome ε α β} (hr : Steady r) {P : List β → Prop} {G : List β → α → Prop} (hG : ReadsBy P r G)

include hG in
theorem parsed_nil {s : List β} (h : ∀ a rest, r s ≠ .done a rest) : Parsed G s [] s := by
  refine ⟨[], .nil, rfl, fun bs t a hs hg => ?_⟩
  rw [hs] at h
  exact h a t (hG.takes hg t)

theorem parsed_cons {bs s rest : List β} {a : α} {items : List α} (hg : G bs a) (h : Parsed G s items rest) :
    Parsed G (bs ++ s) (a :: items) rest := by
  obtain ⟨pieces, hpieces, rfl, hrest⟩ := h
  exact ⟨bs :: pieces, .cons hg hpieces, by simp, hrest⟩

include hr hG in
/-- Such a stream is parsed, and the reader has taken the items. -/
theorem parsed_read {s : List β} (hP : Throughout P r s) : ∃ rest, Parsed G s (read r s).1 rest := by
  induction hn : s.length using Nat.strongRecOn generalizing s with
  | _ n ih =>
    cases h : r s with
    | done a rest =>
      obtain ⟨bs, rfl, hg⟩ := hG.taken (throughout_here hP) h
      obtain ⟨rest', hrest⟩ := ih rest.length (by have := (hr.done h).1; omega) (throughout_next hP h) rfl
      rw [read_done hr h]
      exact ⟨rest', parsed_cons hg hrest⟩
    | more =>
      rw [read_more h]
      exact ⟨s, parsed_nil hG (by simp [h])⟩
    | fail e =>
      rw [read_fail h]
      exact ⟨s, parsed_nil hG (by simp [h])⟩

include hr hG in
/-- What the reader makes of a stream is what it makes of the part that is not parsed. -/
theorem read_of_parsed {s rest : List β} {items : List α} (h : Parsed G s items rest) (t : List β) :
    read r (s ++ t) = (items ++ (read r (rest ++ t)).1, (read r (rest ++ t)).2) := by
  obtain ⟨pieces, hpieces, rfl, -⟩ := h
  induction hpieces with
  | nil => rfl
  | @cons bs a pieces items hg _ ih =>
    rw [List.flatten_cons, List.append_assoc, List.append_assoc, ← List.append_assoc pieces.flatten,
      read_done hr (hG.takes hg _), ih]
    rfl

include hG in
/-- The reader comes to the part that is not parsed. -/
theorem front_of_parsed {s rest : List β} {items : List α} (h : Parsed G s items rest) : Front r s rest := by
  obtain ⟨pieces, hpieces, rfl, -⟩ := h
  induction hpieces with
  | nil => exact .here _
  | @cons bs a pieces items hg _ ih =>
    rw [List.flatten_cons, List.append_assoc]
    exact .next (hG.takes hg _) ih

include hG in
theorem read_unparsed {s rest : List β} {items : List α} (hP : Throughout P r s) (h : Parsed G s items rest) :
    (read r rest).1 = [] := by
  have hrest := hP rest (front_of_parsed hG h)
  obtain ⟨-, -, -, hnone⟩ := h
  cases hs : r rest with
  | done a t =>
    obtain ⟨bs, hbs, hg⟩ := hG.taken hrest hs
    exact absurd hg (hnone bs t a hbs)
  | more => rw [read_more hs]
  | fail e => rw [read_fail hs]

include hr hG in
theorem read_items_iff {s : List β} (hP : Throughout P r s) {items : List α} :
    (read r s).1 = items ↔ ∃ rest, Parsed G s items rest := by
  constructor
  · rintro rfl
    exact parsed_read hr hG hP
  · rintro ⟨rest, h⟩
    have hread := read_of_parsed hr hG h []
    rw [List.append_nil, List.append_nil] at hread
    rw [hread, read_unparsed hG hP h, List.append_nil]

include hr hG in
/-- Reading ends in front of the part that is not parsed. -/
theorem read_failed_iff {s : List β} (hP : Throughout P r s) (e : ε) :
    (read r s).2 = .failed e ↔ ∃ items rest, Parsed G s items rest ∧ r rest = .fail e := by
  have hread : ∀ {items rest}, Parsed G s items rest → (read r s).2 = (read r rest).2 := by
    intro items rest h
    have hread := read_of_parsed hr hG h []
    rw [List.append_nil, List.append_nil] at hread
    rw [hread]
  constructor
  · intro h
    obtain ⟨rest, hrest⟩ := parsed_read hr hG hP
    refine ⟨_, rest, hrest, ?_⟩
    rw [hread hrest] at h
    cases hs : r rest with
    | done a t =>
      have hnone := read_unparsed hG hP hrest
      rw [read_done hr hs] at hnone
      cases hnone
    | more => rw [read_more hs] at h; cases h
    | fail e' => rw [read_fail hs] at h; cases h; rfl
  · rintro ⟨items, rest, h, hs⟩
    rw [hread h, read_fail hs]

end

end StreamReader

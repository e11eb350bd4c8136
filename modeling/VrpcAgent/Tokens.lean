import VrpcAgent.Agent
import VrpcAgent.MaximalRuns
import Mathlib.Data.List.GetD

/-!
# The tokenizer

`tokenize` returns the maximal runs of its input between delimiters. Its bitset has 255
bits, so that the byte 255, alone of all bytes, is looked up behind its end.
-/

namespace VrpcAgent

open MaximalRuns

/-! ## The loop -/

theorem length_delims (l : Str) : ∀ d : List Bool, (l.foldl (fun d code => d.set code.toNat true) d).length = d.length := by
  induction l with
  | nil => exact fun d => rfl
  | cons a l ih =>
    intro d
    rw [List.foldl_cons, ih, List.length_set]

theorem getD_delims (c : UInt8) (l : Str) : ∀ d : List Bool,
    (l.foldl (fun d code => d.set code.toNat true) d).getD c.toNat false =
      (decide (c ∈ l ∧ c.toNat < d.length) || d.getD c.toNat false) := by
  induction l with
  | nil => intro d; simp
  | cons a l ih =>
    intro d
    rw [List.foldl_cons, ih, List.length_set, List.getD_eq_getElem?_getD, List.getElem?_set, List.getD_eq_getElem?_getD]
    by_cases hc : a = c
    · subst hc
      by_cases hlt : a.toNat < d.length <;> simp [hlt]
    · have hne : a.toNat ≠ c.toNat := fun h => hc (UInt8.toNat_inj.mp h)
      simp [hne, Ne.symm hc]

theorem in_bitset (c : UInt8) : c.toNat < 255 ↔ c ≠ 255 := by
  rw [← UInt8.toNat_inj.ne]
  have := c.toNat_lt
  simp
  omega

theorem delims_get (delimiters : Str) (c : UInt8) :
    (delims delimiters).getD c.toNat false = decide (c ∈ delimiters ∧ c ≠ 255) := by
  have hnone : (List.replicate 255 false).getD c.toNat false = false := by
    rw [List.getD_eq_getElem?_getD, List.getElem?_getD_replicate_default_eq]
  rw [delims, getD_delims, List.length_replicate, hnone, Bool.or_false]
  simp only [in_bitset]

def Tokenizer.tokens (t : Tokenizer) : List Str := if t.in_token then t.output ++ [t.token] else t.output

/-- Between tokens, or at the end of the token read so far. -/
theorem tokens_fold {d : List Bool} {p : UInt8 → Bool} (hd : ∀ c, d.getD c.toNat false = p c) (s : Str) :
    (∀ out tok, (s.foldl (tokenize_step d) ⟨out, tok, false⟩).tokens = out ++ pieces p s) ∧
      ∀ out tok, tok ≠ [] → (∀ c ∈ tok, p c = false) →
        (s.foldl (tokenize_step d) ⟨out, tok, true⟩).tokens = out ++ pieces p (tok ++ s) := by
  induction s with
  | nil =>
    refine ⟨fun out tok => ?_, fun out tok hne ht => ?_⟩
    · rw [pieces_nil, List.append_nil]; rfl
    · rw [pieces_run hne ht (by simp)]; rfl
  | cons c s ih =>
    simp only [List.foldl_cons, tokenize_step, hd]
    cases hc : p c with
    | true =>
      refine ⟨fun out tok => ?_, fun out tok hne ht => ?_⟩
      · rw [pieces_sep hc]
        exact ih.1 out tok
      · rw [pieces_run hne ht (by simpa using hc), pieces_sep hc]
        exact (ih.1 (out ++ [tok]) tok).trans (List.append_assoc out [tok] _)
    | false =>
      refine ⟨fun out tok => ?_, fun out tok hne ht => ?_⟩
      · exact ih.2 out [c] (List.cons_ne_nil c []) (by simpa using hc)
      · have h := ih.2 out (tok ++ [c]) (by simp) (by simpa [or_imp, forall_and, hc] using ht)
        rw [List.append_assoc] at h
        exact h

theorem tokenize_eq_pieces (input delimiters : Str) :
    tokenize input delimiters = pieces (fun c => decide (c ∈ delimiters ∧ c ≠ 255)) input :=
  (tokens_fold (delims_get delimiters) input).1 [] []

/-! ## The accesses to the bitset -/

def set_bit (d : List Bool) (code : UInt8) : Option (List Bool) :=
  if code.toNat < d.length then some (d.set code.toNat true) else none

/-- One round of the loop; nothing when `delims[*it & 0xff]` is behind the end. -/
def checked_step (d : List Bool) (t : Tokenizer) (c : UInt8) : Option Tokenizer :=
  if c.toNat < d.length then some (tokenize_step d t c) else none

/-- `tokenize`, as long as it stays within its bitset. -/
def tokenize_checked (input delimiters : Str) : Option (List Str) := do
  let d ← delimiters.foldlM set_bit (List.replicate 255 false)
  let t ← input.foldlM (checked_step d) ⟨[], [], false⟩
  return t.tokens

theorem foldlM_guarded {σ : Type} {f : σ → UInt8 → σ} {g : σ → UInt8 → Option σ} {I : σ → Prop}
    (hf : ∀ s c, I s → I (f s c)) (hg : ∀ s c, I s → g s c = if c ≠ 255 then some (f s c) else none) :
    ∀ (l : Str) (s : σ), I s → l.foldlM g s = if 255 ∈ l then none else some (l.foldl f s)
  | [], s, _ => rfl
  | c :: l, s, hs => by
    rw [List.foldlM_cons, hg s c hs]
    by_cases hc : c = 255
    · subst hc; simp
    · rw [if_pos hc, Option.bind_eq_bind, Option.bind_some, foldlM_guarded hf hg l _ (hf s c hs)]
      simp [Ne.symm hc]

theorem tokenize_checked_eq (input delimiters : Str) :
    tokenize_checked input delimiters =
      if 255 ∈ delimiters ∨ 255 ∈ input then none else some (tokenize input delimiters) := by
  have hd := foldlM_guarded (f := fun d code => d.set code.toNat true) (g := set_bit) (I := fun d => d.length = 255)
    (fun d c h => by rw [List.length_set, h]) (fun d c h => by simp only [set_bit, h, in_bitset])
    delimiters (List.replicate 255 false) List.length_replicate
  have ht := fun t => foldlM_guarded (f := tokenize_step (delims delimiters)) (g := checked_step (delims delimiters))
    (I := fun _ => True) (fun _ _ _ => trivial)
    (fun t c _ => by simp only [checked_step, delims, length_delims, List.length_replicate, in_bitset]) input t trivial
  rw [tokenize_checked, hd]
  by_cases h : 255 ∈ delimiters
  · simp [h]
  · rw [if_neg h, Option.bind_eq_bind, Option.bind_some]
    show (input.foldlM (checked_step (delims delimiters)) _).bind _ = _
    rw [ht]
    by_cases h' : 255 ∈ input
    · simp [h']
    · rw [if_neg h', if_neg (by simp [h, h'])]
      rfl

/-- **The tokenizer** stays within its bitset, and returns the maximal runs of its input,
exactly when the byte 255 is neither in the input nor among the delimiters. -/
theorem tokenize_exact_iff (input delimiters : Str) :
    (∃ output, tokenize_checked input delimiters = some output ∧
        Runs (fun c => decide (c ∈ delimiters)) input output ∧
        output = (input.splitOnP fun c => decide (c ∈ delimiters)).filter (· ≠ [])) ↔
      255 ∉ delimiters ∧ 255 ∉ input := by
  rw [tokenize_checked_eq]
  by_cases h : 255 ∈ delimiters ∨ 255 ∈ input
  · rw [if_pos h]
    refine iff_of_false (fun h' => ?_) (not_and_or.mpr (by simpa using h))
    obtain ⟨output, hout, -⟩ := h'
    cases hout
  · rw [if_neg h]
    obtain ⟨hd, hi⟩ := not_or.mp h
    refine iff_of_true ⟨_, rfl, ?_⟩ ⟨hd, hi⟩
    have hne : ∀ c ∈ delimiters, c ≠ 255 := fun c hc heq => hd (heq ▸ hc)
    have hp : (fun c : UInt8 => decide (c ∈ delimiters ∧ c ≠ 255)) = fun c => decide (c ∈ delimiters) := by
      funext c
      exact decide_eq_decide.mpr (and_iff_left_of_imp (hne c))
    rw [tokenize_eq_pieces, hp]
    exact ⟨runs_pieces input, rfl⟩

theorem byte_255_is_behind_the_end :
    ¬ ∃ output, tokenize_checked [255] (lit "/") = some output ∧
        Runs (fun c => decide (c ∈ lit "/")) [255] output ∧
        output = (List.splitOnP (fun c => decide (c ∈ lit "/")) [255]).filter (· ≠ []) := by
  intro h
  obtain ⟨output, hout, -⟩ := h
  rw [tokenize_checked_eq, if_pos (Or.inr (by decide))] at hout
  cases hout

end VrpcAgent

import Beaverc.SourceLexer

/-!
# String escapes

A string literal is read twice: the lexer finds its end, `StringConstant` decodes
what stands between the quotes. The lexer admits the escapes for the backslash,
the quote, the end of the line and the tab. The decoder has no case for the quote
and keeps its backslash, so `decodes_iff`: a literal gives its string back if and
only if there is no quote in it.
-/

namespace Beaverc.Source

/-! ## The literal of a string -/

/-- A string with backslash, quote, end of line and tab replaced by escapes. -/
def escape : List Char → List Char
  | [] => []
  | c :: rest =>
    if c = '\\' then '\\' :: '\\' :: escape rest
    else if c = '"' then '\\' :: '"' :: escape rest
    else if c = '\n' then '\\' :: 'n' :: escape rest
    else if c = '\t' then '\\' :: 't' :: escape rest
    else c :: escape rest

def literal (s : List Char) : List Char :=
  '"' :: (escape s ++ ['"'])

/-! ## The decoder -/

/-- The loop of `StringConstant::StringConstant`. -/
def decode : List Char → List Char
  | [] => []
  | [c] => [c]
  | c :: d :: rest =>
    if c = '\\' then
      if d = '\\' then '\\' :: decode rest
      else if d = 'n' then '\n' :: decode rest
      else if d = 't' then '\t' :: decode rest
      else '\\' :: d :: decode rest
    else c :: decode (d :: rest)

/-- `StringConstant::StringConstant`. -/
def stringConstant (value : List Char) : List Char :=
  if value.contains '\\' then decode value else value

/-- The decoder with a case for the quote. -/
def unescape : List Char → List Char
  | [] => []
  | [c] => [c]
  | c :: d :: rest =>
    if c = '\\' then
      if d = 'n' then '\n' :: unescape rest
      else if d = 't' then '\t' :: unescape rest
      else d :: unescape rest
    else c :: unescape (d :: rest)

/-- The literal of `s` is one string token, whose value is `s`. -/
def Decodes (s : List Char) : Prop :=
  ∃ raw, lex (literal s) = [.str raw] ∧ stringConstant raw = s

/-- What the decoder makes of an escaped string. -/
def keepQuotes : List Char → List Char
  | [] => []
  | c :: rest => if c = '"' then '\\' :: '"' :: keepQuotes rest else c :: keepQuotes rest

namespace StringEscapesLemmas

theorem isBody_escape (s : List Char) : IsBody (escape s) := by
  induction s with
  | nil => exact .nil
  | cons c s ih =>
    rw [escape]
    split
    · exact .escape rfl ih
    split
    · exact .escape rfl ih
    split
    · exact .escape rfl ih
    split
    · exact .escape rfl ih
    · next hb hq _ _ => exact .plain hq hb ih

theorem noNul_escape {s : List Char} (h : Char.ofNat 0 ∉ s) : Char.ofNat 0 ∉ escape s := by
  induction s with
  | nil => exact List.not_mem_nil
  | cons c s ih =>
    obtain ⟨hc, hs⟩ := not_or.mp (List.mem_cons.not.mp h)
    have htwo {a b : Char} (ha : Char.ofNat 0 ≠ a) (hb : Char.ofNat 0 ≠ b) :
        Char.ofNat 0 ∉ a :: b :: escape s := by
      rw [List.mem_cons, List.mem_cons, not_or, not_or]
      exact ⟨ha, hb, ih hs⟩
    rw [escape]
    split
    · exact htwo (by decide) (by decide)
    split
    · exact htwo (by decide) (by decide)
    split
    · exact htwo (by decide) (by decide)
    split
    · exact htwo (by decide) (by decide)
    · exact List.mem_cons.not.mpr (not_or.mpr ⟨hc, ih hs⟩)

theorem decode_plain {c : Char} (hc : c ≠ '\\') (rest : List Char) :
    decode (c :: rest) = c :: decode rest := by
  cases rest with
  | nil => rfl
  | cons d rest => rw [decode, if_neg hc]

/-- A value without a backslash is what the loop would copy. -/
theorem stringConstant_eq (value : List Char) : stringConstant value = decode value := by
  unfold stringConstant
  split
  · rfl
  · next h =>
    rw [List.contains_iff_mem] at h
    induction value with
    | nil => rfl
    | cons c rest ih =>
      obtain ⟨hc, hrest⟩ := not_or.mp (List.mem_cons.not.mp h)
      rw [decode_plain (Ne.symm hc), ← ih hrest]

theorem decode_escape (s : List Char) : decode (escape s) = keepQuotes s := by
  induction s with
  | nil => rfl
  | cons c s ih =>
    rw [escape, keepQuotes]
    by_cases hb : c = '\\'
    · subst hb
      rw [if_pos rfl, if_neg (by decide), decode, if_pos rfl, if_pos rfl, ih]
    by_cases hq : c = '"'
    · subst hq
      rw [if_neg hb, if_pos rfl, if_pos rfl, decode, if_pos rfl, if_neg (by decide),
        if_neg (by decide), if_neg (by decide), ih]
    by_cases hn : c = '\n'
    · subst hn
      rw [if_neg hb, if_neg hq, if_pos rfl, if_neg hq, decode, if_pos rfl, if_neg (by decide),
        if_pos rfl, ih]
    by_cases ht : c = '\t'
    · subst ht
      rw [if_neg hb, if_neg hq, if_neg hn, if_pos rfl, if_neg hq, decode, if_pos rfl,
        if_neg (by decide), if_neg (by decide), if_pos rfl, ih]
    · rw [if_neg hb, if_neg hq, if_neg hn, if_neg ht, if_neg hq, decode_plain hb, ih]

theorem unescape_escape (s : List Char) : unescape (escape s) = s := by
  induction s with
  | nil => rfl
  | cons c s ih =>
    rw [escape]
    by_cases hb : c = '\\'
    · subst hb
      rw [if_pos rfl, unescape, if_pos rfl, if_neg (by decide), if_neg (by decide), ih]
    by_cases hq : c = '"'
    · subst hq
      rw [if_neg hb, if_pos rfl, unescape, if_pos rfl, if_neg (by decide), if_neg (by decide), ih]
    by_cases hn : c = '\n'
    · subst hn
      rw [if_neg hb, if_neg hq, if_pos rfl, unescape, if_pos rfl, if_pos rfl, ih]
    by_cases ht : c = '\t'
    · subst ht
      rw [if_neg hb, if_neg hq, if_neg hn, if_pos rfl, unescape, if_pos rfl, if_neg (by decide),
        if_pos rfl, ih]
    · rw [if_neg hb, if_neg hq, if_neg hn, if_neg ht]
      cases hs : escape s with
      | nil =>
        rw [hs] at ih
        rw [← ih]
        rfl
      | cons d rest =>
        rw [hs] at ih
        rw [unescape, if_neg hb, ih]

/-- Each quote makes the value one character longer. -/
theorem length_keepQuotes (s : List Char) : (keepQuotes s).length = s.length + s.count '"' := by
  induction s with
  | nil => rfl
  | cons c s ih =>
    rw [keepQuotes, List.count_cons]
    split
    · next hq =>
      rw [if_pos (beq_iff_eq.mpr hq), List.length_cons, List.length_cons, List.length_cons, ih]
      omega
    · next hq =>
      rw [if_neg fun he => hq (beq_iff_eq.mp he), List.length_cons, List.length_cons, ih]
      omega

theorem keepQuotes_eq_iff (s : List Char) : keepQuotes s = s ↔ '"' ∉ s := by
  constructor
  · intro h
    have hlen := length_keepQuotes s
    rw [h] at hlen
    exact List.count_eq_zero.mp (Nat.left_eq_add.mp hlen)
  · intro h
    induction s with
    | nil => rfl
    | cons c s ih =>
      obtain ⟨hc, hs⟩ := not_or.mp (List.mem_cons.not.mp h)
      rw [keepQuotes, if_neg (Ne.symm hc), ih hs]

end StringEscapesLemmas

open StringEscapesLemmas

/-- The literal of a string is one token, with the escaped string in it. -/
theorem lex_literal {s : List Char} (h : Char.ofNat 0 ∉ s) :
    lex (literal s) = [.str (escape s)] :=
  lex_scan (List.cons_ne_nil _ _) (scan_str (isBody_escape s) (noNul_escape h) [])

/-- The literals of different strings differ. -/
theorem literal_injective : Function.Injective literal := by
  intro s s' h
  have he : escape s = escape s' := List.append_cancel_right (List.cons.inj h).2
  rw [← unescape_escape s, he, unescape_escape]

/-- A string is the value of its literal exactly if it contains no quote. -/
theorem decodes_iff (s : List Char) (h : Char.ofNat 0 ∉ s) : Decodes s ↔ '"' ∉ s := by
  unfold Decodes
  rw [lex_literal h]
  constructor
  · rintro ⟨raw, hraw, hs⟩
    cases hraw
    rw [stringConstant_eq, decode_escape] at hs
    exact (keepQuotes_eq_iff s).mp hs
  · intro hq
    refine ⟨escape s, rfl, ?_⟩
    rw [stringConstant_eq, decode_escape]
    exact (keepQuotes_eq_iff s).mpr hq

theorem decodes_iff_backslashes :
    Decodes "\\\\n\t\n".toList ↔ '"' ∉ "\\\\n\t\n".toList :=
  decodes_iff _ (by decide)

/-- No literal has the value of a single quote. -/
theorem stringConstant_ne_quote {body : List Char} (hb : IsBody body) :
    stringConstant body ≠ ['"'] := by
  rw [stringConstant_eq]
  intro h
  cases hb with
  | nil => cases h
  | @escape c rest hc hrest =>
    rw [decode, if_pos rfl] at h
    split at h
    · exact absurd (List.cons.inj h).1 (by decide)
    split at h
    · exact absurd (List.cons.inj h).1 (by decide)
    split at h
    · exact absurd (List.cons.inj h).1 (by decide)
    · exact absurd (List.cons.inj h).1 (by decide)
  | plain hq hb' hrest =>
    rw [decode_plain hb'] at h
    exact hq (List.cons.inj h).1

/-- The literal of a quote is a backslash and a quote. -/
theorem quote_not_decoded : ¬ ∀ s : List Char, Char.ofNat 0 ∉ s → Decodes s := by
  intro h
  obtain ⟨raw, hraw, hs⟩ := h ['"'] (by decide)
  rw [show lex (literal ['"']) = [.str ['\\', '"']] by decide] at hraw
  cases hraw
  revert hs
  decide

end Beaverc.Source

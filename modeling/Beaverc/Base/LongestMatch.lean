import Mathlib.Data.List.Basic

/-!
# Longest match, first rule

A scanner with a list of rules. A rule tells the length of its longest match at
the start of a text and what it does with it: deliver a token or skip. The rule
with the longest match acts, of several the first. A symbol that no rule matches
is dropped.

`best_eq_find?` turns the choice into a search for the first rule that reaches a
given length; `tokens_scan` is the step of the loop.
-/

namespace Beaverc.LongestMatch

section Scanner

variable {ρ σ τ : Type} (longest : ρ → List σ → Nat) (action : ρ → List σ → Option τ)

/-- The first of the rules with the longest match, if any matches a symbol. -/
def best (rules : List ρ) (text : List σ) : Option ρ :=
  match rules with
  | [] => none
  | r :: rest =>
    match best rest text with
    | none => if 0 < longest r text then some r else none
    | some q => if longest q text ≤ longest r text then some r else some q

/-- One match: the token, if any, and the text after it. -/
def scan (rules : List ρ) (text : List σ) : Option τ × List σ :=
  match best longest rules text with
  | none => (none, text.tail)
  | some r => (action r (text.take (longest r text)), text.drop (longest r text))

/-- The loop, for at most so many matches. -/
def run (rules : List ρ) : Nat → List σ → List τ
  | 0, _ => []
  | fuel + 1, text =>
    match text with
    | [] => []
    | c :: rest =>
      let (token, text) := scan longest action rules (c :: rest)
      token.toList ++ run rules fuel text

/-- The tokens of a text. -/
def tokens (rules : List ρ) (text : List σ) : List τ :=
  run longest action rules text.length text

end Scanner

variable {ρ σ τ : Type} {longest : ρ → List σ → Nat} {action : ρ → List σ → Option τ}
  {rules : List ρ} {text : List σ}

theorem best_mem {r : ρ} (h : best longest rules text = some r) :
    r ∈ rules ∧ 0 < longest r text := by
  induction rules generalizing r with
  | nil => cases h
  | cons q rest ih =>
    rw [best] at h
    cases hb : best longest rest text with
    | none =>
      rw [hb] at h
      dsimp only at h
      split at h
      · next hpos =>
        cases h
        exact ⟨List.mem_cons_self, hpos⟩
      · cases h
    | some q' =>
      obtain ⟨hm, hpos⟩ := ih hb
      rw [hb] at h
      dsimp only at h
      split at h
      · next hle =>
        cases h
        exact ⟨List.mem_cons_self, Nat.lt_of_lt_of_le hpos hle⟩
      · cases h
        exact ⟨List.mem_cons_of_mem q hm, hpos⟩

/-- If no match is longer than `n` and one has this length, the first such rule is chosen. -/
theorem best_eq_find? {n : Nat} (hle : ∀ r ∈ rules, longest r text ≤ n) (hn : 0 < n)
    (hex : ∃ r ∈ rules, longest r text = n) :
    best longest rules text = rules.find? fun r => longest r text = n := by
  induction rules with
  | nil =>
    obtain ⟨r, hr, -⟩ := hex
    exact absurd hr List.not_mem_nil
  | cons r rest ih =>
    have hrest : ∀ q ∈ rest, longest q text ≤ n := fun q hq => hle q (List.mem_cons_of_mem r hq)
    rw [best, List.find?_cons]
    by_cases hr : longest r text = n
    · rw [decide_eq_true hr]
      cases hb : best longest rest text with
      | none => exact if_pos (hr ▸ hn)
      | some q => exact if_pos (hr ▸ hrest q (best_mem hb).1)
    · obtain ⟨q, hq, hqn⟩ := hex
      have hq' : q ∈ rest := (List.mem_cons.mp hq).resolve_left fun he => hr (he ▸ hqn)
      rw [decide_eq_false hr, ih hrest ⟨q, hq', hqn⟩]
      cases hf : rest.find? fun r => longest r text = n with
      | none =>
        exact absurd hqn (of_decide_eq_false (by simpa using List.find?_eq_none.mp hf q hq'))
      | some q' =>
        have hq'n : longest q' text = n := by simpa using List.find?_some hf
        have hlt : longest r text < n := Nat.lt_of_le_of_ne (hle r List.mem_cons_self) hr
        exact if_neg fun hge => Nat.lt_irrefl _ (Nat.lt_of_lt_of_le hlt (hq'n ▸ hge))

/-- The rule `r` acts if no rule before it matches as much and none after it more. -/
theorem scan_split {before after : List ρ} {r : ρ} (hrules : rules = before ++ r :: after)
    (hr : 0 < longest r text) (hbefore : ∀ q ∈ before, longest q text < longest r text)
    (hafter : ∀ q ∈ after, longest q text ≤ longest r text) :
    scan longest action rules text =
      (action r (text.take (longest r text)), text.drop (longest r text)) := by
  have hle : ∀ q ∈ rules, longest q text ≤ longest r text := by
    intro q hq
    rw [hrules, List.mem_append, List.mem_cons] at hq
    rcases hq with hq | rfl | hq
    · exact Nat.le_of_lt (hbefore q hq)
    · exact Nat.le_refl _
    · exact hafter q hq
  have hfirst : rules.find? (fun q => longest q text = longest r text) = some r := by
    have hnone : before.find? (fun q => longest q text = longest r text) = none := by
      refine List.find?_eq_none.mpr fun q hq he => ?_
      exact Nat.ne_of_lt (hbefore q hq) (of_decide_eq_true he)
    rw [hrules, List.find?_append, hnone, Option.none_or, List.find?_cons, decide_eq_true rfl]
  unfold scan
  rw [best_eq_find? hle hr ⟨r, List.mem_of_find?_eq_some hfirst, rfl⟩, hfirst]

theorem scan_length (text : List σ) (h : text ≠ []) :
    (scan longest action rules text).2.length < text.length := by
  have hpos := List.length_pos_iff.mpr h
  unfold scan
  cases hb : best longest rules text with
  | none =>
    dsimp only
    rw [List.length_tail]
    exact Nat.sub_lt hpos Nat.one_pos
  | some r =>
    dsimp only
    rw [List.length_drop]
    exact Nat.sub_lt hpos (best_mem hb).2

/-- More fuel than the length of the text changes nothing. -/
theorem run_fuel {fuel fuel' : Nat} (h : text.length ≤ fuel) (h' : text.length ≤ fuel') :
    run longest action rules fuel text = run longest action rules fuel' text := by
  induction fuel generalizing text fuel' with
  | zero =>
    obtain rfl := List.length_eq_zero_iff.mp (Nat.le_zero.mp h)
    cases fuel' <;> rfl
  | succ fuel ih =>
    obtain _ | ⟨c, rest⟩ := text
    · cases fuel' <;> rfl
    obtain _ | fuel' := fuel'
    · exact absurd h' (Nat.not_succ_le_zero _)
    have hlt : (scan longest action rules (c :: rest)).2.length < rest.length + 1 :=
      scan_length _ (List.cons_ne_nil c rest)
    have hle := Nat.le_of_lt_succ hlt
    rw [run, run]
    exact congrArg _ (ih (Nat.le_trans hle (Nat.le_of_succ_le_succ h))
      (Nat.le_trans hle (Nat.le_of_succ_le_succ h')))

/-- The first match of a text and the rest of the loop. -/
theorem tokens_scan {token : Option τ} {rest : List σ} (h : text ≠ [])
    (hs : scan longest action rules text = (token, rest)) :
    tokens longest action rules text = token.toList ++ tokens longest action rules rest := by
  obtain ⟨c, cs, rfl⟩ := List.exists_cons_of_ne_nil h
  have hlt : (scan longest action rules (c :: cs)).2.length < cs.length + 1 := scan_length _ h
  rw [hs] at hlt
  rw [tokens, List.length_cons, run, hs]
  exact congrArg _ (run_fuel (Nat.le_of_lt_succ hlt) (Nat.le_refl _))

/-- The loop as an induction: from what is left after a match to the text before it. -/
theorem scan_induction {motive : List σ → Prop} (nil : motive [])
    (step : ∀ text, text ≠ [] → motive (scan longest action rules text).2 → motive text)
    (text : List σ) : motive text := by
  induction hn : text.length using Nat.strongRecOn generalizing text with
  | _ n ih =>
    by_cases ht : text = []
    · exact ht ▸ nil
    · refine step text ht (ih _ ?_ _ rfl)
      exact hn ▸ scan_length text ht

/-- A token comes from the rule that acts; the rest is what its match leaves. -/
theorem scan_some {token : τ} (h : (scan longest action rules text).1 = some token) :
    ∃ r ∈ rules, 0 < longest r text ∧ action r (text.take (longest r text)) = some token ∧
      (scan longest action rules text).2 = text.drop (longest r text) := by
  unfold scan at h ⊢
  cases hb : best longest rules text with
  | none =>
    rw [hb] at h
    cases h
  | some r =>
    rw [hb] at h
    exact ⟨r, (best_mem hb).1, (best_mem hb).2, h, rfl⟩

theorem scan_suffix (text : List σ) : (scan longest action rules text).2 <:+ text := by
  unfold scan
  split
  · exact List.tail_suffix text
  · exact List.drop_suffix _ text

end Beaverc.LongestMatch

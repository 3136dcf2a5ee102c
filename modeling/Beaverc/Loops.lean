import Beaverc.Changes

/-!
# Passes as loops

What a loop over the instructions keeps, and code that is changed place by
place: nothing moves, so the labels stay where they are.
-/

namespace Beaverc.Ir
open Results

/-- What holds of the instructions done, the rest, the operand objects and the
obsolete temps is kept by a loop each of whose visits keeps it. -/
theorem loop_keeps {visit : Nat → Instruction → Operands → Except Fault Visited}
    {inv : List Instruction → List Instruction → Operands → List Nat → Prop}
    (step : ∀ {done i rest o obsolete v}, inv done (i :: rest) o obsolete →
      visit done.length i o = .ok v →
      inv (done ++ [v.instruction]) rest v.operands (obsolete ++ v.obsolete))
    {done rest code : List Instruction} {o o' : Operands} {obsolete obsolete' : List Nat}
    (h : inv done rest o obsolete)
    (hl : loop visit done.length rest o = .ok (code, o', obsolete')) :
    inv (done ++ code) [] o' (obsolete ++ obsolete') := by
  induction rest generalizing done code o obsolete obsolete' with
  | nil =>
    cases hl
    rwa [List.append_nil, List.append_nil]
  | cons i rest ih =>
    obtain ⟨v, hv, hl⟩ := bind_ok.mp hl
    obtain ⟨⟨code₁, o₁, obsolete₁⟩, hl₁, hr⟩ := bind_ok.mp hl
    cases hr
    have hlen : (done ++ [v.instruction]).length = done.length + 1 := by simp
    have hall := ih (step h hv) (hlen ▸ hl₁)
    rwa [List.append_assoc, List.append_assoc] at hall

/-- The rule for a whole loop. -/
theorem loop_invariant {visit : Nat → Instruction → Operands → Except Fault Visited}
    (inv : List Instruction → List Instruction → Operands → List Nat → Prop)
    (step : ∀ {done i rest o obsolete v}, inv done (i :: rest) o obsolete →
      visit done.length i o = .ok v →
      inv (done ++ [v.instruction]) rest v.operands (obsolete ++ v.obsolete))
    {rest code : List Instruction} {o o' : Operands} {obsolete : List Nat}
    (h : inv [] rest o []) (hl : loop visit 0 rest o = .ok (code, o', obsolete)) :
    inv code [] o' obsolete :=
  loop_keeps step h hl

/-! ## Place by place -/

/-- Each instruction of `code'` is related to the one in its place in `code`. -/
structure Pointwise (R : Nat → Instruction → Instruction → Prop) (code code' : List Instruction) :
    Prop where
  length : code'.length = code.length
  related : ∀ {p i}, code[p]? = some i → ∃ i', code'[p]? = some i' ∧ R p i i'

namespace LoopsLemmas

/-- A loop whose visits leave the operand objects alone. -/
theorem loop_pointwise {visit : Nat → Instruction → Operands → Except Fault Visited}
    {R : Nat → Instruction → Instruction → Prop} {o : Operands}
    (step : ∀ {p i v}, visit p i o = .ok v → v.operands = o ∧ R p i v.instruction)
    {code code' : List Instruction} {o' : Operands} {obsolete : List Nat}
    (hl : loop visit 0 code o = .ok (code', o', obsolete)) : Pointwise R code code' ∧ o' = o := by
  have hinv := loop_invariant
    (fun done rest o₁ _ => o₁ = o ∧ done.length + rest.length = code.length ∧
      rest = code.drop done.length ∧
      ∀ p i, p < done.length → code[p]? = some i → ∃ i', done[p]? = some i' ∧ R p i i')
    (fun {done i rest o₁ _ v} h hv => by
      obtain ⟨rfl, hlen, hrest, hrel⟩ := h
      obtain ⟨ho, hR⟩ := step hv
      have hi : code[done.length]? = some i := by
        rw [← List.head?_drop, ← hrest]
        rfl
      refine ⟨ho, ?_, ?_, fun p j hp hj => ?_⟩
      · rw [List.length_append, List.length_singleton, ← hlen, List.length_cons]
        omega
      · rw [List.length_append, List.length_singleton, ← List.drop_drop, ← hrest]
        rfl
      · rw [List.length_append, List.length_singleton] at hp
        rcases Nat.lt_succ_iff_lt_or_eq.mp hp with hp | rfl
        · obtain ⟨j', hj', hR'⟩ := hrel p j hp hj
          exact ⟨j', by rw [List.getElem?_append_left hp, hj'], hR'⟩
        · rw [hi, Option.some.injEq] at hj
          subst hj
          exact ⟨_, by simp, hR⟩)
    ⟨rfl, by simp, rfl, fun p i hp => absurd hp (Nat.not_lt_zero p)⟩ hl
  obtain ⟨ho, hlen, -, hrel⟩ := hinv
  refine ⟨⟨by simpa using hlen, fun {p i} hi => ?_⟩, ho⟩
  have hp := (List.getElem?_eq_some_iff.mp hi).1
  exact hrel p i (by simp at hlen; omega) hi

theorem idxOf_pointwise {R : Nat → Instruction → Instruction → Prop}
    {code code' : List Instruction} (h : Pointwise R code code') {l : Nat}
    (hR : ∀ {p i i'}, R p i i' → (i = .outputLabel l ↔ i' = .outputLabel l)) :
    position code' l = position code l := by
  unfold position
  induction code generalizing code' R with
  | nil => rw [List.length_eq_zero_iff.mp h.length]
  | cons i rest ih =>
    cases code' with
    | nil => cases h.length
    | cons i' rest' =>
      obtain ⟨j, hj, hij⟩ := h.related (p := 0) rfl
      cases hj
      have htail : Pointwise (fun p => R (p + 1)) rest rest' :=
        ⟨Nat.succ.inj h.length, fun {p k} hk => h.related (p := p + 1) hk⟩
      have hbeq : (i' == .outputLabel l) = (i == .outputLabel l) := by
        rw [Bool.eq_iff_iff, beq_iff_eq, beq_iff_eq]
        exact (hR hij).symm
      rw [List.idxOf_cons, List.idxOf_cons, ih htail hR, hbeq]

end LoopsLemmas

end Beaverc.Ir

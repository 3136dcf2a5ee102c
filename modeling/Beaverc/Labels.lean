import Mathlib.Data.List.Induction
import Beaverc.Discipline

/-!
# Labels and depths of emitted code

What a `Segment` says about the whole code list: its depth, that its labels are
distinct, that each jump goes to one of them, and that the label map of a well
emitted function gives the position of each label.
-/

namespace Beaverc

/-- The label an instruction binds. -/
def Instruction.label? : Instruction → Option Nat
  | .label l => some l
  | _ => none

/-- The label an instruction may jump to. -/
def Instruction.target? : Instruction → Option Nat
  | .goto l | .ifTrue l => some l
  | _ => none

/-- The labels of a code list in their order. -/
def labelsIn (code : List Instruction) : List Nat :=
  code.filterMap Instruction.label?

namespace LabelsLemmas
open DisciplineLemmas

@[simp] theorem labelsIn_append (a b : List Instruction) :
    labelsIn (a ++ b) = labelsIn a ++ labelsIn b :=
  List.filterMap_append

@[simp] theorem labelsIn_nil : labelsIn [] = [] :=
  rfl

@[simp] theorem labelsIn_cons (i : Instruction) (code : List Instruction) :
    labelsIn (i :: code) = i.label?.toList ++ labelsIn code := by
  unfold labelsIn
  cases h : i.label? with
  | none => rw [List.filterMap_cons_none h]; rfl
  | some l => rw [List.filterMap_cons_some h]; rfl

@[simp] theorem mem_labelsIn {l : Nat} {code : List Instruction} :
    l ∈ labelsIn code ↔ .label l ∈ code := by
  unfold labelsIn
  rw [List.mem_filterMap]
  constructor
  · rintro ⟨i, hi, hl⟩
    cases i <;> simp only [Instruction.label?, reduceCtorEq, Option.some.injEq] at hl
    exact hl ▸ hi
  · exact fun h => ⟨_, h, rfl⟩

theorem plain_labelsIn {code : List Instruction} (h : Plain code) : labelsIn code = [] := by
  refine List.filterMap_eq_nil_iff.mpr fun i hi => ?_
  have hp := h i hi
  cases i <;> first | rfl | exact absurd hp (by simp [Instruction.isPlain])

theorem plain_target {code : List Instruction} (h : Plain code) {i : Instruction} {l : Nat}
    (hi : i ∈ code) : i.target? ≠ some l := by
  have hp := h i hi
  cases i <;> simp [Instruction.target?, Instruction.isPlain] at hp ⊢

theorem depth_of_prefix {d m : Nat} {a b : List Instruction} (h : depth d (a ++ b) = some m) :
    ∃ k, depth d a = some k ∧ depth k b = some m := by
  rw [depth_append] at h
  exact Option.bind_eq_some_iff.mp h

/-- The depth in front of an instruction of code with a depth. -/
theorem depth_at {d m : Nat} {code : List Instruction} (h : depth d code = some m) {n : Nat}
    {i : Instruction} (hi : code[n]? = some i) :
    ∃ k k', depth d (code.take n) = some k ∧ i.depth k = some k' ∧
      depth d (code.take (n + 1)) = some k' := by
  have hsplit : code.take (n + 1) ++ code.drop (n + 1) = code := List.take_append_drop _ _
  obtain ⟨k', hk', -⟩ := depth_of_prefix (hsplit.symm ▸ h)
  have htake : code.take (n + 1) = code.take n ++ [i] := by
    rw [List.take_add_one, hi]
    rfl
  obtain ⟨k, hk, hd⟩ := depth_of_prefix (htake ▸ hk')
  refine ⟨k, k', hk, ?_, hk'⟩
  simpa [depth, Option.bind_eq_some_iff] using hd

end LabelsLemmas

open LabelsLemmas DisciplineLemmas

/-! ## Segments -/

namespace Segment

theorem le {lo hi : Nat} {code : List Instruction} (h : Segment lo hi code) : lo ≤ hi := by
  induction h with
  | plain h _ _ => exact h
  | append _ _ h₁ h₂ => exact h₁.trans h₂
  | branch h _ _ _ h₁ h₂ => omega
  | loop h _ _ h₁ => omega

/-- A segment leaves the operand stack as empty as it found it. -/
theorem depth_eq {lo hi : Nat} {code : List Instruction} (h : Segment lo hi code) :
    depth 0 code = some 0 := by
  induction h with
  | plain _ _ h => exact h
  | append _ _ h₁ h₂ =>
    rw [depth_append, h₁]
    exact h₂
  | branch _ hc _ _ h₁ h₂ =>
    have hcond := hc.2 0
    simp only [depth_append, depth, Instruction.depth, Instruction.effect, hcond, h₁, h₂,
      Option.bind_some, ↓reduceIte, Nat.zero_add]
  | loop _ hc _ h₁ =>
    have hcond := hc.2 0
    simp only [depth_append, depth, Instruction.depth, Instruction.effect, hcond, h₁,
      Option.bind_some, ↓reduceIte, Nat.zero_add]

/-- The labels of a segment come from its range. -/
theorem label_range {lo hi : Nat} {code : List Instruction} (h : Segment lo hi code) {l : Nat}
    (hl : .label l ∈ code) : lo ≤ l ∧ l < hi := by
  induction h with
  | plain _ hp _ => exact absurd (hp _ hl) (by simp [Instruction.isPlain])
  | append h₁ h₂ ih₁ ih₂ =>
    have := h₁.le
    have := h₂.le
    rcases List.mem_append.mp hl with hl | hl
    · have := ih₁ hl
      omega
    · have := ih₂ hl
      omega
  | branch hn hc h₁ h₂ ih₁ ih₂ =>
    have := h₁.le
    have := h₂.le
    rw [← mem_labelsIn] at hl
    simp only [labelsIn_append, plain_labelsIn hc.1, List.mem_append, mem_labelsIn,
      List.mem_cons, Instruction.label.injEq, reduceCtorEq, List.not_mem_nil, or_false,
      false_or] at hl
    rcases hl with (((hl | hl) | hl) | hl) | hl
    · omega
    · have := ih₁ hl
      omega
    · omega
    · have := ih₂ hl
      omega
    · omega
  | loop hn hc h₁ ih₁ =>
    have := h₁.le
    rw [← mem_labelsIn] at hl
    simp only [labelsIn_append, plain_labelsIn hc.1, List.mem_append, mem_labelsIn,
      List.mem_cons, Instruction.label.injEq, reduceCtorEq, List.not_mem_nil, or_false,
      false_or] at hl
    rcases hl with ((hl | hl) | hl) | hl
    · omega
    · omega
    · have := ih₁ hl
      omega
    · omega

/-- No label of a segment is bound twice. -/
theorem labels_nodup {lo hi : Nat} {code : List Instruction} (h : Segment lo hi code) :
    (labelsIn code).Nodup := by
  induction h with
  | plain _ hp _ => rw [plain_labelsIn hp]; exact List.nodup_nil
  | append h₁ h₂ ih₁ ih₂ =>
    rw [labelsIn_append]
    refine List.nodup_append.mpr ⟨ih₁, ih₂, fun a ha b hb hab => ?_⟩
    have := h₁.label_range (mem_labelsIn.mp ha)
    have := h₂.label_range (mem_labelsIn.mp hb)
    omega
  | @branch n lo mid hi cond c₁ c₂ hn hc h₁ h₂ ih₁ ih₂ =>
    -- the two blocks use disjoint ranges of labels, above those of the branch itself
    have r₁ : ∀ l, .label l ∈ c₁ → lo ≤ l ∧ l < mid := fun l hl => h₁.label_range hl
    have r₂ : ∀ l, .label l ∈ c₂ → mid ≤ l ∧ l < hi := fun l hl => h₂.label_range hl
    have := h₁.le
    have := h₂.le
    have hlabels : labelsIn (cond ++ [.ifTrue n, .goto (n + 1), .label n] ++ c₁ ++
        [.goto (n + 2), .label (n + 1)] ++ c₂ ++ [.label (n + 2)]) =
        n :: (labelsIn c₁ ++ (n + 1) :: (labelsIn c₂ ++ [n + 2])) := by
      simp only [labelsIn_append, plain_labelsIn hc.1]
      simp [Instruction.label?]
    rw [hlabels]
    simp only [List.nodup_cons, List.nodup_append, List.mem_append, List.mem_cons, mem_labelsIn,
      List.not_mem_nil, or_false, not_or, ih₁, ih₂, List.nodup_nil, true_and, not_false_iff]
    refine ⟨⟨fun hl => ?_, by omega, fun hl => ?_, by omega⟩, ⟨⟨fun hl => ?_, by omega⟩, ?_⟩, ?_⟩
    · have := r₁ _ hl; omega
    · have := r₂ _ hl; omega
    · have := r₂ _ hl; omega
    · rintro a ha b rfl; have := r₂ _ ha; omega
    · rintro a ha b (rfl | hb | rfl)
      · have := r₁ _ ha; omega
      · have := r₁ _ ha; have := r₂ _ hb; omega
      · have := r₁ _ ha; omega
  | @loop n lo hi cond body hn hc h₁ ih₁ =>
    have r₁ : ∀ l, .label l ∈ body → lo ≤ l ∧ l < hi := fun l hl => h₁.label_range hl
    have hlabels : labelsIn ([.label n, .garbageCollect] ++ cond ++
        [.ifTrue (n + 1), .goto (n + 2), .label (n + 1)] ++ body ++
        [.goto n, .label (n + 2)]) = n :: (n + 1) :: (labelsIn body ++ [n + 2]) := by
      simp only [labelsIn_append, plain_labelsIn hc.1]
      simp [Instruction.label?]
    rw [hlabels]
    simp only [List.nodup_cons, List.nodup_append, List.mem_append, List.mem_cons, mem_labelsIn,
      List.not_mem_nil, or_false, not_or, ih₁, List.nodup_nil, true_and, not_false_iff]
    refine ⟨⟨by omega, fun hl => ?_, by omega⟩, ⟨fun hl => ?_, by omega⟩, ?_⟩
    · have := r₁ _ hl; omega
    · have := r₁ _ hl; omega
    · rintro a ha b rfl; have := r₁ _ ha; omega

/-- Each jump of a segment goes to a label of the segment. -/
theorem target_bound {lo hi : Nat} {code : List Instruction} (h : Segment lo hi code)
    {i : Instruction} (hi' : i ∈ code) {l : Nat} (hl : i.target? = some l) : .label l ∈ code := by
  induction h with
  | plain _ hp _ => exact absurd hl (plain_target hp hi')
  | append _ _ ih₁ ih₂ =>
    rcases List.mem_append.mp hi' with hi' | hi'
    · exact List.mem_append_left _ (ih₁ hi')
    · exact List.mem_append_right _ (ih₂ hi')
  | branch hn hc _ _ ih₁ ih₂ =>
    simp only [List.mem_append, List.mem_cons, List.not_mem_nil, or_false] at hi' ⊢
    rcases hi' with ((((hi' | rfl | rfl | rfl) | hi') | rfl | rfl) | hi') | rfl
    · exact absurd hl (plain_target hc.1 hi')
    all_goals simp only [Instruction.target?, Option.some.injEq, reduceCtorEq] at hl
    · simp [hl]
    · simp [hl]
    · simp [ih₁ hi']
    · simp [hl]
    · simp [ih₂ hi']
  | loop hn hc _ ih₁ =>
    simp only [List.mem_append, List.mem_cons, List.not_mem_nil, or_false] at hi' ⊢
    rcases hi' with ((((rfl | rfl) | hi') | rfl | rfl | rfl) | hi') | rfl | rfl
    · exact absurd hl nofun
    · exact absurd hl nofun
    · exact absurd hl (plain_target hc.1 hi')
    all_goals simp only [Instruction.target?, Option.some.injEq, reduceCtorEq] at hl
    · simp [hl]
    · simp [hl]
    · simp [ih₁ hi']
    · simp [hl]

end Segment

/-! ## The label map -/

namespace LabelsLemmas

theorem labelTable_lookup {code : List Instruction} {l : Nat} (h : .label l ∈ code) :
    ∃ n, (labelTable code).lookup l = some n ∧ code[n]? = some (.label l) := by
  induction code using List.reverseRec with
  | nil => exact absurd h List.not_mem_nil
  | append_singleton code i ih =>
    rw [labelTable_snoc]
    have keep : ∀ n : Nat, code[n]? = some (Instruction.label l) →
        (code ++ [i])[n]? = some (Instruction.label l) := by
      intro n hn
      rw [List.getElem?_append_left (List.getElem?_eq_some_iff.mp hn).1, hn]
    have found : i = .label l ∨ .label l ∈ code := by
      rcases List.mem_append.mp h with h | h
      · exact .inr h
      · exact .inl (List.mem_singleton.mp h).symm
    by_cases hi : i = .label l
    · subst hi
      exact ⟨code.length, List.lookup_cons_self, by simp⟩
    · obtain ⟨n, hn, hc⟩ := ih (found.resolve_left hi)
      refine ⟨n, ?_, keep n hc⟩
      cases i with
      | label k =>
        have hne : ¬ l = k := fun hlk => hi (by rw [hlk])
        rw [List.singleton_append, List.lookup_cons, beq_eq_false_iff_ne.mpr hne]
        exact hn
      | _ => exact hn

end LabelsLemmas

open LabelsLemmas

/-- `f.labels` maps each label of the code to where it stands. -/
theorem labelPosition_eq {f : Function} (h : WellEmitted f) {l : Nat}
    (hl : .label l ∈ f.instructions) : f.instructions[f.labelPosition l]? = some (.label l) := by
  obtain ⟨n, hn, hc⟩ := labelTable_lookup hl
  unfold Function.labelPosition
  rw [h.2, hn]
  exact hc

/-- A jump of a well emitted function lands on its label. -/
theorem jump_lands {f : Function} (h : WellEmitted f) {n : Nat} {i : Instruction}
    (hi : f.instructions[n]? = some i) {l : Nat} (hl : i.target? = some l) :
    f.instructions[f.labelPosition l]? = some (.label l) := by
  obtain ⟨⟨lo, hi', hseg⟩, -⟩ := id h
  exact labelPosition_eq h (hseg.target_bound (List.mem_of_getElem? hi) hl)

end Beaverc

import Mathlib.Logic.Relation
import Beaverc.StackDiscipline

/-!
# Control flow of emitted code

A piece of emitted code is entered at its first instruction and left at its
end. `Flow` is a `Segment` together with a flag that says whether control can
get from the one to the other; for a placed piece this is shown to be exactly
so.
-/

namespace Beaverc
open Relation LabelsLemmas DisciplineLemmas

/-- Control can get from position `p` to position `q`. -/
abbrev Function.Path (f : Function) : Nat → Nat → Prop :=
  ReflTransGen f.Edge

/-- Control goes on after each instruction. -/
def straight (code : List Instruction) : Bool :=
  code.all Instruction.continues

/-- Segments whose end can be reached if the flag is true. -/
inductive Flow : Bool → Nat → Nat → List Instruction → Prop
  | plain {lo hi : Nat} {code : List Instruction} :
      lo ≤ hi → Plain code → depth 0 code = some 0 → Flow (straight code) lo hi code
  | append {b₁ b₂ : Bool} {lo mid hi : Nat} {c₁ c₂ : List Instruction} :
      Flow b₁ lo mid c₁ → Flow b₂ mid hi c₂ → Flow (b₁ && b₂) lo hi (c₁ ++ c₂)
  | branch {b₁ b₂ : Bool} {n lo mid hi : Nat} {cond c₁ c₂ : List Instruction} :
      n + 3 ≤ lo → Effect 0 1 cond → Flow b₁ lo mid c₁ → Flow b₂ mid hi c₂ →
      Flow (straight cond && (b₁ || b₂)) n hi (cond ++ [.ifTrue n, .goto (n + 1), .label n] ++
        c₁ ++ [.goto (n + 2), .label (n + 1)] ++ c₂ ++ [.label (n + 2)])
  | loop {b : Bool} {n lo hi : Nat} {cond body : List Instruction} :
      n + 3 ≤ lo → Effect 0 1 cond → Flow b lo hi body →
      Flow (straight cond) n hi ([.label n, .garbageCollect] ++ cond ++
        [.ifTrue (n + 1), .goto (n + 2), .label (n + 1)] ++ body ++ [.goto n, .label (n + 2)])

theorem Flow.segment {b : Bool} {lo hi : Nat} {code : List Instruction} (h : Flow b lo hi code) :
    Segment lo hi code := by
  induction h with
  | plain hle hp hd => exact .plain hle hp hd
  | append _ _ h₁ h₂ => exact .append h₁ h₂
  | branch hn hc _ _ h₁ h₂ => exact .branch hn hc h₁ h₂
  | loop hn hc _ h₁ => exact .loop hn hc h₁

/-- The code of `f` from position `a` on begins with `code`. -/
def Function.Placed (f : Function) (a : Nat) (code : List Instruction) : Prop :=
  ∀ k i, code[k]? = some i → f.instructions[a + k]? = some i

namespace ControlFlowLemmas

variable {f : Function}

/-! ## Placed code -/

theorem placed_append {a : Nat} {c₁ c₂ : List Instruction} :
    f.Placed a (c₁ ++ c₂) ↔ f.Placed a c₁ ∧ f.Placed (a + c₁.length) c₂ := by
  constructor
  · refine fun h => ⟨fun k i hk => h k i ?_, fun k i hk => ?_⟩
    · rw [List.getElem?_append_left (List.getElem?_eq_some_iff.mp hk).1, hk]
    · rw [Nat.add_assoc]
      refine h _ i ?_
      rw [List.getElem?_append_right (Nat.le_add_right _ _), Nat.add_sub_cancel_left, hk]
  · rintro ⟨h₁, h₂⟩ k i hk
    by_cases hlt : k < c₁.length
    · rw [List.getElem?_append_left hlt] at hk
      exact h₁ k i hk
    · rw [List.getElem?_append_right (by omega)] at hk
      have h := h₂ _ i hk
      rwa [show a + c₁.length + (k - c₁.length) = a + k by omega] at h

theorem placed_cons {a : Nat} {i : Instruction} {code : List Instruction} :
    f.Placed a (i :: code) ↔ f.instructions[a]? = some i ∧ f.Placed (a + 1) code := by
  rw [← List.singleton_append, placed_append]
  refine and_congr ⟨fun h => h 0 i rfl, fun h k j hk => ?_⟩ Iff.rfl
  cases k with
  | zero => cases hk; exact h
  | succ k => cases hk

theorem placed_self : f.Placed 0 f.instructions :=
  fun k i hk => by rwa [Nat.zero_add]

/-- A label stands at one position. -/
theorem label_unique (h : WellEmitted f) {l m n : Nat}
    (hm : f.instructions[m]? = some (.label l)) (hn : f.instructions[n]? = some (.label l)) :
    m = n := by
  obtain ⟨⟨lo, hi, hseg⟩, -⟩ := h
  have once : ∀ m n : Nat, m < n → f.instructions[m]? = some (.label l) →
      f.instructions[n]? ≠ some (.label l) := by
    intro m n hlt hm hn
    have hnodup := hseg.labels_nodup
    rw [← List.take_append_drop n f.instructions, labelsIn_append] at hnodup
    have hleft : .label l ∈ f.instructions.take n :=
      List.mem_of_getElem? (by rw [List.getElem?_take_of_lt hlt, hm])
    have hright : .label l ∈ f.instructions.drop n :=
      List.mem_of_getElem? (i := 0) (by rw [List.getElem?_drop, Nat.add_zero, hn])
    exact (List.nodup_append.mp hnodup).2.2 l (mem_labelsIn.mpr hleft) l
      (mem_labelsIn.mpr hright) rfl
  rcases Nat.lt_trichotomy m n with hlt | rfl | hlt
  · exact absurd hn (once m n hlt hm)
  · rfl
  · exact absurd hm (once n m hlt hn)

theorem labelPosition_of_getElem (h : WellEmitted f) {l n : Nat}
    (hn : f.instructions[n]? = some (.label l)) : f.labelPosition l = n :=
  label_unique h (labelPosition_eq h (List.mem_of_getElem? hn)) hn

/-! ## Paths -/

/-- How a path begins. -/
theorem path_head {p e : Nat} {i : Instruction} (hi : f.instructions[p]? = some i)
    (h : f.Path p e) (hne : p ≠ e) : (i.continues = true ∧ f.Path (p + 1) e) ∨
      ∃ l, i.target? = some l ∧ f.Path (f.labelPosition l) e := by
  rcases h.cases_head with rfl | ⟨q, hq, hqe⟩
  · exact absurd rfl hne
  · cases hq with
    | @next j hj hc =>
      rw [hi] at hj
      cases hj
      exact .inl ⟨hc, hqe⟩
    | @jump j l hj hl =>
      rw [hi] at hj
      cases hj
      exact .inr ⟨l, hl, hqe⟩

/-- Control that is in the positions from `a` to `b` stays there until it comes
to `b`. -/
def Closed (f : Function) (a b : Nat) : Prop :=
  ∀ p q, f.Edge p q → a ≤ p → p < b → a ≤ q ∧ q ≤ b

/-- A path out of a closed piece goes through its end. -/
theorem path_through {a b e : Nat} (hc : Closed f a b) (hab : a ≤ b) (hbe : b ≤ e)
    (h : f.Path a e) : f.Path a b ∧ f.Path b e := by
  have hgen : ∀ p, f.Path p e → a ≤ p → p ≤ b → f.Path p b ∧ f.Path b e := by
    intro p hp
    induction hp using ReflTransGen.head_induction_on with
    | refl =>
      intro _ hle
      rw [Nat.le_antisymm hle hbe]
      exact ⟨.refl, .refl⟩
    | head hpq hqe ih =>
      intro hap hpb
      rcases Nat.lt_or_eq_of_le hpb with hlt | rfl
      · obtain ⟨haq, hqb⟩ := hc _ _ hpq hap hlt
        obtain ⟨h₁, h₂⟩ := ih haq hqb
        exact ⟨h₁.head hpq, h₂⟩
      · exact ⟨.refl, hqe.head hpq⟩
  exact hgen a h le_rfl hab

theorem closed_of_plain {a : Nat} {code : List Instruction} (hp : Plain code)
    (h : f.Placed a code) : Closed f a (a + code.length) := by
  intro p q hpq hap hpb
  have hi : code[p - a]? = some code[p - a] := List.getElem?_eq_getElem (by omega)
  have hf := h _ _ hi
  rw [show a + (p - a) = p by omega] at hf
  cases hpq with
  | next => omega
  | jump hj hl =>
    rw [hf] at hj
    cases hj
    exact absurd hl (plain_target hp (List.mem_of_getElem? hi))

theorem closed_of_segment (hf : WellEmitted f) {lo hi a : Nat} {code : List Instruction}
    (hs : Segment lo hi code) (h : f.Placed a code) : Closed f a (a + code.length) := by
  intro p q hpq hap hpb
  have hi : code[p - a]? = some code[p - a] := List.getElem?_eq_getElem (by omega)
  have hfi := h _ _ hi
  rw [show a + (p - a) = p by omega] at hfi
  cases hpq with
  | next => omega
  | jump hj hl =>
    rw [hfi] at hj
    cases hj
    obtain ⟨k, hk⟩ := List.getElem?_of_mem (hs.target_bound (List.mem_of_getElem? hi) hl)
    rw [labelPosition_of_getElem hf (h k _ hk)]
    have := (List.getElem?_eq_some_iff.mp hk).1
    omega

/-- Plain code is left at its end if control goes on after each instruction. -/
theorem plain_path_iff {a : Nat} {code : List Instruction} (hp : Plain code)
    (h : f.Placed a code) : f.Path a (a + code.length) ↔ straight code = true := by
  induction code generalizing a with
  | nil => exact ⟨fun _ => rfl, fun _ => .refl⟩
  | cons i code ih =>
    obtain ⟨hi, hrest⟩ := placed_cons.mp h
    have ih' := ih (fun j hj => hp j (List.mem_cons_of_mem i hj)) hrest
    rw [show a + 1 + code.length = a + (i :: code).length by rw [List.length_cons]; omega] at ih'
    have hstraight : straight (i :: code) = (i.continues && straight code) := List.all_cons
    rw [hstraight, Bool.and_eq_true, ← ih']
    constructor
    · intro hpath
      rcases path_head hi hpath (by simp) with hnext | ⟨l, hl, -⟩
      · exact hnext
      · exact absurd hl (plain_target hp (List.mem_cons_self ..))
    · rintro ⟨hc, hpath⟩
      exact hpath.head (.next hi hc)

theorem path_next {p : Nat} {i : Instruction} (hi : f.instructions[p]? = some i)
    (hc : i.continues = true) : f.Path p (p + 1) :=
  .single (.next hi hc)

/-- A jump to a label comes to where the label stands. -/
theorem path_jump (h : WellEmitted f) {p q l : Nat} {i : Instruction}
    (hi : f.instructions[p]? = some i) (hl : i.target? = some l)
    (hq : f.instructions[q]? = some (.label l)) : f.Path p q := by
  have hpath : f.Path p (f.labelPosition l) := .single (.jump hi hl)
  rwa [labelPosition_of_getElem h hq] at hpath

/-- An if statement: the condition ends at `m`, the first block at `t₁`, the
second one at `t₂`. -/
theorem branch_path (h : WellEmitted f) {n a m t₁ t₂ : Nat} (hcond : Closed f a m)
    (hc₁ : Closed f (m + 3) t₁) (hc₂ : Closed f (t₁ + 2) t₂) (ham : a ≤ m) (hm : m + 3 ≤ t₁)
    (ht : t₁ + 2 ≤ t₂) (hif : f.instructions[m]? = some (.ifTrue n))
    (helse : f.instructions[m + 1]? = some (.goto (n + 1)))
    (hthen : f.instructions[m + 2]? = some (.label n))
    (hskip : f.instructions[t₁]? = some (.goto (n + 2)))
    (hlabel : f.instructions[t₁ + 1]? = some (.label (n + 1)))
    (hend : f.instructions[t₂]? = some (.label (n + 2))) :
    f.Path a (t₂ + 1) ↔ f.Path a m ∧ (f.Path (m + 3) t₁ ∨ f.Path (t₁ + 2) t₂) := by
  have out : f.Path t₂ (t₂ + 1) := path_next hend rfl
  constructor
  · intro hpath
    obtain ⟨h₀, hrest⟩ := path_through hcond ham (by omega) hpath
    have enter : f.Path (m + 1) (t₂ + 1) ∨ f.Path (m + 2) (t₂ + 1) := by
      rcases path_head hif hrest (by omega) with ⟨-, hp⟩ | ⟨l, hl, hp⟩
      · exact .inl hp
      · cases hl
        rw [labelPosition_of_getElem h hthen] at hp
        exact .inr hp
    refine ⟨h₀, ?_⟩
    rcases enter with hp | hp
    · right
      rcases path_head helse hp (by omega) with ⟨hc, -⟩ | ⟨l, hl, hp⟩
      · cases hc
      · cases hl
        rw [labelPosition_of_getElem h hlabel] at hp
        rcases path_head hlabel hp (by omega) with ⟨-, hp⟩ | ⟨l, hl, -⟩
        · exact (path_through hc₂ ht (by omega) hp).1
        · cases hl
    · left
      rcases path_head hthen hp (by omega) with ⟨-, hp⟩ | ⟨l, hl, -⟩
      · exact (path_through hc₁ hm (by omega) hp).1
      · cases hl
  · rintro ⟨h₀, hp | hp⟩
    · have into : f.Path m (m + 3) := (path_jump h hif rfl hthen).trans (path_next hthen rfl)
      exact ((h₀.trans into).trans hp).trans ((path_jump h hskip rfl hend).trans out)
    · have into : f.Path m (t₁ + 2) :=
        ((path_next hif rfl).trans (path_jump h helse rfl hlabel)).trans (path_next hlabel rfl)
      exact ((h₀.trans into).trans hp).trans out

/-- A while statement: the condition begins at `a + 2` and ends at `m`. -/
theorem loop_path (h : WellEmitted f) {n a m e : Nat} (hcond : Closed f (a + 2) m)
    (ham : a + 2 ≤ m) (hm : m < e) (hstart : f.instructions[a]? = some (.label n))
    (hgc : f.instructions[a + 1]? = some .garbageCollect)
    (hif : f.instructions[m]? = some (.ifTrue (n + 1)))
    (hskip : f.instructions[m + 1]? = some (.goto (n + 2)))
    (hend : f.instructions[e]? = some (.label (n + 2))) :
    f.Path a (e + 1) ↔ f.Path (a + 2) m := by
  constructor
  · intro hpath
    rcases path_head hstart hpath (by omega) with ⟨-, hp⟩ | ⟨l, hl, -⟩
    · rcases path_head hgc hp (by omega) with ⟨-, hp⟩ | ⟨l, hl, -⟩
      · exact (path_through hcond ham (by omega) hp).1
      · cases hl
    · cases hl
  · intro hp
    have into : f.Path a (a + 2) := (path_next hstart rfl).trans (path_next hgc rfl)
    have out : f.Path m (e + 1) :=
      ((path_next hif rfl).trans (path_jump h hskip rfl hend)).trans (path_next hend rfl)
    exact (into.trans hp).trans out

end ControlFlowLemmas

open ControlFlowLemmas

/-! ## Flows -/

/-- Control gets from the beginning of a placed flow to its end exactly if the
flag says so. -/
theorem Flow.path_iff {f : Function} (hf : WellEmitted f) {b : Bool} {lo hi a : Nat}
    {code : List Instruction} (h : Flow b lo hi code) (hp : f.Placed a code) :
    f.Path a (a + code.length) ↔ b = true := by
  induction h generalizing a with
  | plain _ hplain _ => exact plain_path_iff hplain hp
  | @append b₁ b₂ lo mid hi c₁ c₂ h₁ h₂ ih₁ ih₂ =>
    obtain ⟨hp₁, hp₂⟩ := placed_append.mp hp
    rw [Bool.and_eq_true, ← ih₁ hp₁, ← ih₂ hp₂, List.length_append, ← Nat.add_assoc]
    constructor
    · exact path_through (closed_of_segment hf h₁.segment hp₁) (Nat.le_add_right _ _)
        (Nat.le_add_right _ _)
    · exact fun h => h.1.trans h.2
  | @branch b₁ b₂ n lo mid hi cond c₁ c₂ hn hc h₁ h₂ ih₁ ih₂ =>
    simp only [placed_append, placed_cons, List.length_append, List.length_cons, List.length_nil,
      ← Nat.add_assoc, Nat.zero_add] at hp ⊢
    obtain ⟨⟨⟨⟨⟨hcond, hif, helse, hthen, -⟩, hp₁⟩, hskip, hlabel, -⟩, hp₂⟩, hend, -⟩ := hp
    rw [Bool.and_eq_true, Bool.or_eq_true, ← plain_path_iff hc.1 hcond, ← ih₁ hp₁, ← ih₂ hp₂]
    exact branch_path hf (closed_of_plain hc.1 hcond) (closed_of_segment hf h₁.segment hp₁)
      (closed_of_segment hf h₂.segment hp₂) (Nat.le_add_right _ _) (Nat.le_add_right _ _)
      (Nat.le_add_right _ _) hif helse hthen hskip hlabel hend
  | @loop b n lo hi cond body hn hc h₁ ih₁ =>
    simp only [placed_append, placed_cons, List.length_append, List.length_cons, List.length_nil,
      ← Nat.add_assoc, Nat.zero_add] at hp ⊢
    obtain ⟨⟨⟨⟨⟨hstart, hgc, -⟩, hcond⟩, hif, hskip, -⟩, hp₁⟩, -, hend, -⟩ := hp
    rw [← plain_path_iff hc.1 hcond]
    exact loop_path hf (closed_of_plain hc.1 hcond) (Nat.le_add_right _ _) (by omega) hstart hgc
      hif hskip hend

end Beaverc

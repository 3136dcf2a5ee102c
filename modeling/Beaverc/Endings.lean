import Beaverc.Emitted
import Beaverc.TopLevel

/-!
# Where control ends

In the function of a literal each path of control goes on for ever or ends at a
return or at the report of an unknown name. In the top-level function this is
so unless the default return is left out, because there is a return somewhere,
although control can get past the last statement.
-/

namespace Beaverc
open Relation LabelsLemmas ControlFlowLemmas TopLevelLemmas EmittedLemmas

/-- The labels are bound as the jumps need them, and control does not step past
the last instruction. -/
structure Function.ControlStays (f : Function) : Prop where
  jumps : ∀ i ∈ f.instructions, ∀ l, i.target? = some l →
    ∃ n, f.labels.lookup l = some n ∧ f.instructions[n]? = some (.label l)
  once : ∀ (l m n : Nat), f.instructions[m]? = some (.label l) →
    f.instructions[n]? = some (.label l) → m = n
  stays : ∀ p, f.Path 0 p → ∃ i, f.instructions[p]? = some i ∧
    (i = .ret ∨ (∃ x, i = .throwUninitialized x) ∨ ∃ q, f.Edge p q)

/-- The summary of the top-level code. -/
def Block.topLevel (prog : Program) : Summary :=
  prog.summary builtins

/-- The top-level code has a return and can be left without one. -/
def Block.runsOff (prog : Program) : Bool :=
  prog.topLevel.returns && prog.topLevel.passes

namespace EndingsLemmas

variable {f : Function}

theorem wellEmitted_jumps (h : WellEmitted f) {i : Instruction} (hi : i ∈ f.instructions) {l : Nat}
    (hl : i.target? = some l) :
    ∃ n, f.labels.lookup l = some n ∧ f.instructions[n]? = some (.label l) := by
  obtain ⟨⟨lo, hi', hseg⟩, hlabels⟩ := h
  rw [hlabels]
  exact labelTable_lookup (hseg.target_bound hi hl)

theorem edge_lt {p q : Nat} (h : f.Edge p q) : p < f.instructions.length := by
  cases h with
  | next hi | jump hi => exact (List.getElem?_eq_some_iff.mp hi).1

theorem path_le (h : WellEmitted f) {p : Nat} (hp : f.Path 0 p) : p ≤ f.instructions.length := by
  obtain ⟨⟨lo, hi, hseg⟩, -⟩ := id h
  have hc := closed_of_segment h hseg placed_self
  rw [Nat.zero_add] at hc
  cases hp with
  | refl => exact Nat.zero_le _
  | tail _ hpq => exact (hc _ _ hpq (Nat.zero_le _) (edge_lt hpq)).2

/-- An instruction after which control does not go on. -/
theorem edge_or_end (p : Nat) {i : Instruction} (hi : f.instructions[p]? = some i) :
    i = .ret ∨ (∃ x, i = .throwUninitialized x) ∨ ∃ q, f.Edge p q := by
  cases i with
  | ret => exact .inl rfl
  | throwUninitialized x => exact .inr (.inl ⟨x, rfl⟩)
  | goto l => exact .inr (.inr ⟨_, .jump hi rfl⟩)
  | _ => exact .inr (.inr ⟨_, .next hi rfl⟩)

theorem controlStays_iff (h : WellEmitted f) :
    f.ControlStays ↔ ¬ f.Path 0 f.instructions.length := by
  constructor
  · intro hs hp
    obtain ⟨i, hi, -⟩ := hs.stays _ hp
    exact absurd (List.getElem?_eq_some_iff.mp hi).1 (Nat.lt_irrefl _)
  · intro hn
    refine ⟨fun i hi l hl => wellEmitted_jumps h hi hl, fun l m n hm hn => label_unique h hm hn,
      fun p hp => ?_⟩
    rcases Nat.lt_or_eq_of_le (path_le h hp) with hlt | heq
    · have hi : f.instructions[p]? = some f.instructions[p] := List.getElem?_eq_getElem hlt
      exact ⟨_, hi, edge_or_end p hi⟩
    · exact absurd (heq ▸ hp) hn

/-- Code that ends with a return is not left at its end. -/
theorem controlStays_of_ret (h : WellEmitted f) {code : List Instruction}
    (hcode : f.instructions = code ++ [.ret]) : f.ControlStays := by
  refine (controlStays_iff h).mpr fun hp => ?_
  rw [hcode, List.length_append, List.length_singleton] at hp
  have hlast : f.instructions[code.length]? = some .ret := by simp [hcode]
  rcases hp.cases_tail with heq | ⟨p, -, hpq⟩
  · omega
  · generalize hq : code.length + 1 = q at hpq
    cases hpq with
    | @next i hi hc =>
      rw [Nat.add_right_cancel hq] at hlast
      rw [hlast] at hi
      cases hi
      cases hc
    | jump hi hl =>
      have := (List.getElem?_eq_some_iff.mp (jump_lands h hi hl)).1
      rw [hcode, List.length_append, List.length_singleton, ← hq] at this
      omega

theorem literal_controlStays {up : List Node} {l : Literal} (h : WellEmitted f)
    (he : l.EmittedAs up f) : f.ControlStays := by
  obtain ⟨parent, n, rfl⟩ := he
  exact controlStays_of_ret h rfl

theorem initialState_isMain : initialState.node.IsMain :=
  ⟨rfl, rfl⟩

/-- The code of the top-level function is a flow. -/
theorem compile_flow (prog : Program) :
    ∃ lo hi, Flow prog.runsOff lo hi (compile prog).instructions := by
  obtain ⟨code, hs, hf⟩ := prog.transpile_flow initialState initialState_isMain
  have hinit : Flow (straight initialState.node.function.instructions) 0 0
      initialState.node.function.instructions :=
    .plain le_rfl (by unfold Plain; decide) (by decide)
  rw [show straight initialState.node.function.instructions = true by decide] at hinit
  have hall : Flow prog.topLevel.passes 0 _ (initialState.node.function.instructions ++ code) :=
    .append hinit hf
  have hret : (prog.transpile [] initialState).node.returned = prog.topLevel.returns := hs.returned
  unfold compile visitProgram Block.runsOff
  cases hr : prog.topLevel.returns with
  | true =>
    simp only [hret, hr, ↓reduceIte, hs.code_eq]
    exact ⟨_, _, hall⟩
  | false =>
    simp only [hret, hr, Bool.false_eq_true, ↓reduceIte]
    set s := prog.transpile [] initialState
    have hlast : Flow (straight [.loadConst (Tables.insertIndex s.node.function.constants
        (.integer 0)), .ret]) s.labelNum s.labelNum _ :=
      .plain le_rfl (by simp [Plain, Instruction.isPlain]) rfl
    have hwhole := hall.append hlast
    have hcode : ((s.loadConst (.integer 0)).outputReturn).node.function.instructions =
        initialState.node.function.instructions ++ code ++ [.loadConst (Tables.insertIndex
          s.node.function.constants (.integer 0)), .ret] := by
      show s.node.function.instructions ++ [_] ++ [_] = _
      rw [hs.code_eq, List.append_assoc _ [_] [_]]
      rfl
    rw [hcode]
    exact ⟨_, _, (Bool.and_false _ : (prog.topLevel.passes && false) = false) ▸ hwhole⟩

/-- The top-level function. -/
theorem main_controlStays_iff (prog : Program) :
    (compile prog).ControlStays ↔ prog.runsOff = false := by
  obtain ⟨lo, hi, hflow⟩ := compile_flow prog
  have hmain := compile_wellEmitted prog (.refl _)
  have hiff := hflow.path_iff hmain placed_self
  rw [Nat.zero_add] at hiff
  rw [controlStays_iff hmain, hiff, Bool.not_eq_true]

end EndingsLemmas

open EndingsLemmas

/-- Control stays inside every function of a compiled program exactly if the
top-level code does not run off its end. -/
theorem compile_controlStays_iff (prog : Program) :
    (∀ f, SubFunction (compile prog) f → f.ControlStays) ↔ prog.runsOff = false := by
  rw [← main_controlStays_iff prog]
  constructor
  · exact fun h => h _ (.refl _)
  · intro hmain f hf
    rcases subFunction_emitted hf with rfl | ⟨up, l, -, he⟩
    · exact hmain
    · exact literal_controlStays (compile_wellEmitted prog hf) he

/-- `if (false) { return 1; }` -/
def maybeReturn : Program :=
  .cons (.ifStatement (.boolConst false) (.cons (.ret (.intConst 1)) .nil) .nil) .nil

/-- There is no default return after the two labels at the end. -/
theorem maybeReturn_runsOff :
    (compile maybeReturn).instructions.drop 12 = [.goto 2, .label 1, .label 2] ∧
      ¬ ∀ f, SubFunction (compile maybeReturn) f → f.ControlStays := by
  refine ⟨by decide, fun h => ?_⟩
  have hoff := (main_controlStays_iff maybeReturn).mp (h _ (.refl _))
  exact absurd hoff (by decide)

end Beaverc

import Beaverc.Compiler
import Beaverc.Loops

/-!
# Short jumps

`ShortJumpOptimization` makes a jump short when its target is near. It compares
the index of the jump in the optimised code with the place of the label in the
bytecode, which is another list, and as unsigned numbers, so that a label behind the
jump is never near. What it finds is right unless the two lists have drifted apart at
the label by just the length of the jump (`shortJumps_near_iff`).
-/

namespace Beaverc.Ir
open Results LoopsLemmas

/-- At most `SHORT_JUMP_MAX` instructions apart. -/
def Near (i j : Nat) : Prop :=
  ((i : Int) - j).natAbs ≤ 1

instance (i j : Nat) : Decidable (Near i j) :=
  inferInstanceAs (Decidable (_ ≤ _))

/-- How far the place of a label in the bytecode is behind its place in the code. -/
def Compiler.drift (c : Compiler) (l : Nat) : Int :=
  (c.bytecode.labelPosition l : Int) - position c.instructions l

/-- The jumps of `c` that are short in `final` are near their labels, in both. -/
def ShortJumpsNear (c final : Compiler) : Prop :=
  ∀ i l, c.instructions[i]? = some (.jump l) → final.instructions[i]? = some (.shortJump l) →
    Near i (position c.instructions l) ∧ Near i (position final.instructions l)

/-- A jump to a label that is not near goes back, as an unsigned number, neither by the
drift of the label nor by one instruction more. -/
def DriftApart (c : Compiler) : Prop :=
  ∀ i l, c.instructions[i]? = some (.jump l) → Near i (position c.instructions l) ∨
    1 < ((i : Int) - position c.instructions l - c.drift l) % 0x10000000000000000

namespace ShortJumpsLemmas

/-- The place of the label in the bytecode, from the drift. -/
theorem distance_eq (c : Compiler) (i l : Nat) :
    (i : Int) - position c.instructions l - c.drift l = i - c.bytecode.labelPosition l := by
  unfold Compiler.drift
  omega

/-- A loop that replaces no instruction. -/
theorem loop_same {g : Nat → Instruction → Operands → Operands} {count : Nat}
    {code code' : List Instruction} {o o' : Operands} {obsolete : List Nat}
    (h : loop (fun count i o => .ok ⟨i, g count i o, []⟩) count code o =
      .ok (code', o', obsolete)) : code' = code := by
  induction code generalizing count code' o o' obsolete with
  | nil =>
    cases h
    rfl
  | cons i rest ih =>
    obtain ⟨v, hv, h⟩ := bind_ok.mp h
    obtain ⟨⟨code₁, o₁, obsolete₁⟩, h₁, h⟩ := bind_ok.mp h
    cases hv
    cases h
    rw [ih h₁]

/-- What comes after the pass leaves the code alone. -/
theorem instructions_after {oc₁ oc₂ oc₃ oc₄ : OptimizingCompiler}
    (h₁ : oc₁.run .varLiveness = .ok oc₂) (h₂ : oc₂.run .tempLiveness = .ok oc₃)
    (h₃ : oc₃.run .registerAllocation = .ok oc₄) :
    oc₄.compiler.instructions = oc₁.compiler.instructions := by
  obtain ⟨⟨code₂, o₂, obsolete₂⟩, hl₂, h₁⟩ := bind_ok.mp h₁
  cases h₁
  obtain ⟨⟨code₃, o₃, obsolete₃⟩, hl₃, h₂⟩ := bind_ok.mp h₂
  cases h₂
  obtain ⟨c, hc, h₃⟩ := bind_ok.mp h₃
  cases h₃
  obtain ⟨s, -, hc⟩ := bind_ok.mp hc
  cases hc
  exact (loop_same hl₃).trans (loop_same hl₂)

theorem shortJump_pointwise {oc oc' : OptimizingCompiler} (h : oc.run .shortJump = .ok oc') :
    Pointwise (fun p i i' => i' = shortJump oc.compiler p i) oc.compiler.instructions
      oc'.compiler.instructions := by
  obtain ⟨⟨code, o, obsolete⟩, hl, h⟩ := bind_ok.mp h
  cases h
  refine (loop_pointwise (fun {p i v} hv => ?_) hl).1
  cases hv
  exact ⟨rfl, rfl⟩

theorem shortJump_label (c : Compiler) (p l : Nat) (i : Instruction) :
    i = .outputLabel l ↔ shortJump c p i = .outputLabel l := by
  unfold shortJump
  split
  · split
    · exact ⟨nofun, nofun⟩
    · exact Iff.rfl
  · exact Iff.rfl

/-- The passes from `ShortJumpOptimization` on, one after another. -/
theorem stands_shortJump {shared : Operands} {f : Function} {oc oc' : OptimizingCompiler}
    (h : Stands shared f 27 oc) (h' : Stands shared f 31 oc') :
    ∃ oc₁, oc.run .shortJump = .ok oc₁ ∧
      oc'.compiler.instructions = oc₁.compiler.instructions := by
  obtain ⟨c, hc, hrun⟩ := h
  obtain ⟨c', hc', hrun'⟩ := h'
  cases hc.symm.trans hc'
  have hsplit : allPasses.take 31 = allPasses.take 27 ++
      [.shortJump, .varLiveness, .tempLiveness, .registerAllocation] := rfl
  rw [hsplit, List.foldlM_append, hrun] at hrun'
  obtain ⟨oc₀, h₀, hrun'⟩ := bind_ok.mp hrun'
  cases h₀
  obtain ⟨oc₁, h₁, hrun'⟩ := bind_ok.mp hrun'
  obtain ⟨oc₂, h₂, hrun'⟩ := bind_ok.mp hrun'
  obtain ⟨oc₃, h₃, hrun'⟩ := bind_ok.mp hrun'
  obtain ⟨oc₄, h₄, hrun'⟩ := bind_ok.mp hrun'
  cases hrun'
  exact ⟨oc₁, h₁, instructions_after h₂ h₃ h₄⟩

end ShortJumpsLemmas

open ShortJumpsLemmas

/-- Where nothing has drifted the short jumps are near. -/
theorem driftApart_of_no_drift {c : Compiler} (hlen : c.instructions.length < 0x8000000000000000)
    (h : ∀ l, c.drift l = 0) : DriftApart c := by
  intro i l hi
  have hlt := (List.getElem?_eq_some_iff.mp hi).1
  have hle : position c.instructions l ≤ c.instructions.length := List.idxOf_le_length
  rw [h l, Int.sub_zero, Near]
  omega

/-- The jumps that are made short are near their labels if and only if no jump is as
long as the drift of its label. -/
theorem shortJumps_near_iff (shared : Operands) (f : Function) (oc oc' : OptimizingCompiler)
    (h : Stands shared f 27 oc) (h' : Stands shared f 31 oc') :
    ShortJumpsNear oc.compiler oc'.compiler ↔ DriftApart oc.compiler := by
  obtain ⟨oc₁, hrun, hcode⟩ := stands_shortJump h h'
  have hpoint := shortJump_pointwise hrun
  rw [← hcode] at hpoint
  have hposition (l : Nat) :
      position oc'.compiler.instructions l = position oc.compiler.instructions l :=
    idxOf_pointwise hpoint fun {p i i'} hR => hR ▸ shortJump_label oc.compiler p l i
  have hreplaced {i l : Nat} (hi : oc.compiler.instructions[i]? = some (.jump l)) :
      oc'.compiler.instructions[i]? = some (.shortJump l) ↔
        ((i : Int) - position oc.compiler.instructions l - oc.compiler.drift l) %
          0x10000000000000000 ≤ 1 := by
    obtain ⟨i', hi', rfl⟩ := hpoint.related hi
    rw [hi', distance_eq, Option.some_inj, shortJump]
    split
    · next hle => exact ⟨fun _ => hle, fun _ => rfl⟩
    · next hle => exact ⟨nofun, fun hle' => absurd hle' hle⟩
  constructor
  · intro hnear i l hi
    by_cases hle :
        ((i : Int) - position oc.compiler.instructions l - oc.compiler.drift l) %
          0x10000000000000000 ≤ 1
    · exact .inl (hnear i l hi ((hreplaced hi).mpr hle)).1
    · exact .inr (Int.not_le.mp hle)
  · intro happart i l hi hshort
    rw [hposition, and_self]
    exact (happart i l hi).resolve_right (Int.not_lt.mpr ((hreplaced hi).mp hshort))

/-! ## A long short jump -/

/-- `f = fun(c) { y = 1; y = 1; y = 1; while (c) { c = false; } };` -/
def driftedLoop : Program :=
  let store : Statement := .assignment (.name "y") (.intConst 1)
  .cons (.assignment (.name "f") (.function ["c"]
    (.cons store (.cons store (.cons store
    (.cons (.whileLoop (.lhs (.name "c"))
      (.cons (.assignment (.name "c") (.boolConst false)) .nil)) .nil)))))) .nil

/-- The function in it. -/
def driftedLoopFunction : Function :=
  (Beaverc.compile driftedLoop).functions.headD {}

/-- Its code before the pass, where the label of the loop is 5 places before its place
in the bytecode; `back` is the jump back to it. -/
def driftedLoopCode (back : Instruction) : List Instruction :=
  [.forceLoad 0, .outputLabel 0, .callHelper .garbageCollect [], .assign 3 (.var 0), .condJump 3 1,
    .jump 2, .outputLabel 1, back, .outputLabel 2, .assign 5 (.const .none), .ret 5]

namespace ShortJumpsLemmas

/-- The codes before the pass and at the end. -/
def stages (f : Function) : Option (List (List Instruction)) := do
  let c ← Compiler.compile .fresh f
  let oc ← ((allPasses.take 27).foldlM OptimizingCompiler.run ⟨c, []⟩).toOption
  let oc' ← ((allPasses.take 31).foldlM OptimizingCompiler.run ⟨c, []⟩).toOption
  return [oc.compiler.instructions, oc'.compiler.instructions]

theorem driftedLoop_stages : stages driftedLoopFunction =
    some [driftedLoopCode (.jump 0), driftedLoopCode (.shortJump 0)] := by
  decide +kernel

/-- Where the compilation stands at the two stages. -/
theorem stands_of_stages {f : Function} {code code' : List Instruction}
    (h : stages f = some [code, code']) :
    ∃ oc oc', Stands .fresh f 27 oc ∧ Stands .fresh f 31 oc' ∧
      oc.compiler.instructions = code ∧ oc'.compiler.instructions = code' := by
  obtain ⟨c, hcompile, h⟩ := Option.bind_eq_some_iff.mp h
  obtain ⟨oc, hoc, h⟩ := Option.bind_eq_some_iff.mp h
  obtain ⟨oc', hoc', h⟩ := Option.bind_eq_some_iff.mp h
  obtain ⟨hcode, h⟩ := List.cons.inj (Option.some.inj h)
  obtain ⟨hcode', -⟩ := List.cons.inj h
  exact ⟨oc, oc', ⟨c, hcompile, toOption_eq_some hoc⟩, ⟨c, hcompile, toOption_eq_some hoc'⟩, hcode,
    hcode'⟩

end ShortJumpsLemmas

theorem shortJumps_near_iff_driftedLoop : ∃ oc oc',
    Stands .fresh driftedLoopFunction 27 oc ∧ Stands .fresh driftedLoopFunction 31 oc' ∧
      (ShortJumpsNear oc.compiler oc'.compiler ↔ DriftApart oc.compiler) := by
  obtain ⟨oc, oc', h, h', -⟩ := stands_of_stages driftedLoop_stages
  exact ⟨oc, oc', h, h', shortJumps_near_iff .fresh driftedLoopFunction oc oc' h h'⟩

/-- The jump back over the whole loop is made short. -/
theorem driftedLoop_not_near : ∃ oc oc',
    SubFunction (Beaverc.compile driftedLoop) driftedLoopFunction ∧
      Stands .fresh driftedLoopFunction 27 oc ∧ Stands .fresh driftedLoopFunction 31 oc' ∧
      ¬ ShortJumpsNear oc.compiler oc'.compiler := by
  obtain ⟨oc, oc', h, h', hcode, hcode'⟩ := stands_of_stages driftedLoop_stages
  refine ⟨oc, oc', .step (.refl _) (List.mem_singleton.mpr rfl), h, h', fun hnear => ?_⟩
  have hlong := (hnear 7 0 (by rw [hcode]; rfl) (by rw [hcode']; rfl)).1
  rw [hcode] at hlong
  revert hlong
  decide

end Beaverc.Ir

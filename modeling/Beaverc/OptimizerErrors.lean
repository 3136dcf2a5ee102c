import Beaverc.ConstantHints

/-!
# What stops the optimiser

The passes ask constants for their values, and the accessors throw if the value
is of another type. All but one look at the hints before: constant folding asks
the divisor of a division of constants for an integer, whatever it is. So
compilation comes to its end except where it meets such a division: by a constant
that is no integer, or (on the machine that compiles) one whose quotient of
`int`s is not defined.
-/

namespace Beaverc.Ir
open Results SingleUseLemmas TranslationLemmas DefinedTempsLemmas ConstantHintsLemmas
  LinearScanLemmas

/-- A loop over the instructions comes to `i` with the operand objects `o`. -/
inductive Meets (visit : Nat → Instruction → Operands → Except Fault Visited) :
    Nat → List Instruction → Operands → Instruction → Operands → Prop
  | here {count : Nat} {i : Instruction} {rest : List Instruction} {o : Operands} :
      Meets visit count (i :: rest) o i o
  | later {count : Nat} {i j : Instruction} {rest : List Instruction} {o o' : Operands}
      {v : Visited} : visit count i o = .ok v → Meets visit (count + 1) rest v.operands j o' →
      Meets visit count (i :: rest) o j o'

/-- Constant folding, run on `oc`, comes to `i` with the operand objects `o`. -/
def OptimizingCompiler.FoldsAt (oc : OptimizingCompiler) (i : Instruction) (o : Operands) : Prop :=
  Meets (fun _ i o => constantFolding i o) 0 oc.compiler.instructions oc.compiler.operands i o

/-- Every division of constants that a constant folding pass meets while `f` is
compiled is fine. -/
def DivisionsFine (shared : Operands) (f : Function) : Prop :=
  ∀ n oc i o, Stands shared f n oc → allPasses[n]? = some .constantFolding → oc.FoldsAt i o →
    DivisionFine i o

/-- The tables of `Deref` and `Glob` after the compilation of functions of any programs. -/
inductive Shared : Operands → Prop
  | fresh : Shared .fresh
  | compiled {shared : Operands} {prog : Program} {g : Function} {oc : OptimizingCompiler} :
      Shared shared → SubFunction (Beaverc.compile prog) g →
      OptimizingCompiler.compile shared g true = some (.ok oc) → Shared oc.compiler.operands

/-- What holds between two passes. -/
structure OptimizingCompiler.Told (lit : Value → Prop) (stored : Nat → Prop)
    (oc : OptimizingCompiler) : Prop where
  fine : ∀ i ∈ oc.compiler.instructions, i.Fine lit stored
  noConstants : oc.compiler.operands.NoConstants
  tellConstants : oc.compiler.operands.TellConstants lit stored
  vars : oc.compiler.vars.Nodup

namespace OptimizerErrorsLemmas

/-! ### The visits -/

section Visits

variable {lit : Value → Prop} {stored : Nat → Prop} {o : Operands}

/-- A visit comes to its end and keeps what is known of the operand objects. -/
structure Visits (lit : Value → Prop) (stored : Nat → Prop) (r : Except Fault Visited) : Prop where
  completes : ∃ v, r = .ok v ∧ v.instruction.Fine lit stored ∧ v.operands.NoConstants ∧
    v.operands.TellConstants lit stored

theorem visits_same {i : Instruction} (hi : i.Fine lit stored) (hn : o.NoConstants)
    (ht : o.TellConstants lit stored) {obsolete : List Nat} :
    Visits lit stored (.ok ⟨i, o, obsolete⟩) :=
  ⟨⟨_, rfl, hi, hn, ht⟩⟩

theorem visits_constantFolding (hlit : FoldClosed lit) {i : Instruction} (hi : i.Fine lit stored)
    (hn : o.NoConstants)
    (ht : o.TellConstants lit stored) (hd : DivisionFine i o) :
    Visits lit stored (constantFolding i o) := by
  have hfold (dest : Nat) (srcs : List Nat) (r : Except Fault (Option Value))
      (hr : (∀ t ∈ srcs, (o.temp t).typeHint.constSrc = true) → Folds lit r) :
      Visits lit stored (foldTo i dest srcs r o) := by
    unfold foldTo
    split
    · next hall =>
      obtain ⟨⟨v, hv⟩, hl⟩ := hr fun t htm => List.all_eq_true.mp hall t htm
      cases v with
      | none =>
        rw [hv]
        exact visits_same hi hn ht
      | some v =>
        have hfine : (Instruction.assign dest (.const v)).Fine lit stored := fine_assign (hl v hv)
        rw [hv]
        exact visits_same hfine (noConstants_construct hn _) (tellConstants_construct hn ht hfine)
    · exact visits_same hi hn ht
  cases i with
  | binOp op dest src1 src2 =>
    refine hfold dest [src1, src2] _ fun hall => ?_
    have hsrc (t : Nat) (hm : t ∈ [src1, src2]) : (o.temp t).toOperand.Tells lit :=
      ht t (hi.reads nofun t hm) (hall t hm)
    refine folds_binOp hlit (hsrc src1 (by simp)) (hsrc src2 (by simp)) fun hop => ?_
    subst hop
    exact hd dest src1 src2 rfl (hall src1 (by simp)) (hall src2 (by simp))
  | unOp op dest src =>
    refine hfold dest [src] _ fun hall =>
      folds_unOp hlit op (ht src (hi.reads nofun src ?_) (hall src ?_))
    · exact List.mem_singleton_self _
    · exact List.mem_singleton_self _
  | _ => exact visits_same hi hn ht

theorem visits_typeSpecialization {i : Instruction} (hi : i.Fine lit stored) (hn : o.NoConstants)
    (ht : o.TellConstants lit stored) : Visits lit stored (.ok (typeSpecialization i o)) := by
  unfold typeSpecialization
  split
  · next op dest src1 src2 =>
    dsimp only
    split
    · exact visits_same hi hn ht
    · have hfine : (Instruction.binOp (op.specialize (o.temp src1).toOperand
          (o.temp src2).toOperand) dest src1 src2).Fine lit stored :=
        ⟨nofun, fun _ => hi.reads nofun, nofun⟩
      exact visits_same hfine (noConstants_construct hn _) (tellConstants_construct hn ht hfine)
  · exact visits_same hi hn ht

theorem visits_removeObsolete (hlit : FoldClosed lit) {i : Instruction} (hi : i.Fine lit stored)
    (hn : o.NoConstants)
    (ht : o.TellConstants lit stored) (obsolete : List Nat) :
    Visits lit stored (removeObsolete obsolete i o) := by
  unfold removeObsolete
  split
  · refine visits_same ?_ hn ht
    split
    · exact fine_noop
    · exact hi
  · next a arg =>
    split
    · exact visits_same fine_noop hn ht
    · have hpasses : ∃ b, a.passes (o.temp arg).toOperand = .ok b := by
        cases a with
        | int | bool => exact ⟨_, rfl⟩
        | notZero =>
          unfold Assert.passes
          dsimp only
          split
          · next hc =>
            obtain ⟨hint, hconst⟩ := Bool.and_eq_true_iff.mp hc
            have htells := ht arg (hi.reads nofun arg (List.mem_singleton_self _)) hconst
            obtain ⟨n, hn, hg⟩ := getInteger_ok hlit htells hint
            rw [hn]
            simp only [bind, Except.bind, hg]
            exact ⟨_, rfl⟩
          · exact ⟨_, rfl⟩
      obtain ⟨b, hb⟩ := hpasses
      rw [hb]
      refine visits_same ?_ hn ht
      cases b with
      | true => exact fine_noop
      | false => exact hi
  · exact visits_same hi hn ht

theorem visits_deadVariableAssignment {i : Instruction} (hi : i.Fine lit stored)
    (hn : o.NoConstants)
    (ht : o.TellConstants lit stored) (count : Nat) :
    Visits lit stored (.ok (deadVariableAssignment count i o)) := by
  unfold deadVariableAssignment
  split
  · split
    · exact visits_same fine_noop hn ht
    · exact visits_same hi hn ht
  · exact visits_same hi hn ht

theorem visits_shortJump {i : Instruction} (hi : i.Fine lit stored) (hn : o.NoConstants)
    (ht : o.TellConstants lit stored) (c : Compiler) (count : Nat) :
    Visits lit stored (.ok ⟨shortJump c count i, o, []⟩) := by
  refine visits_same ?_ hn ht
  unfold shortJump
  split
  · split
    · exact ⟨nofun, fun _ => nofun, nofun⟩
    · exact hi
  · exact hi

end Visits

/-! ### Loops -/

theorem loop_completes {lit : Value → Prop} {stored : Nat → Prop}
    {visit : Nat → Instruction → Operands → Except Fault Visited} {count : Nat}
    {code : List Instruction} {o : Operands} (hc : ∀ i ∈ code, i.Fine lit stored)
    (hn : o.NoConstants)
    (ht : o.TellConstants lit stored)
    (step : ∀ count' {i o'}, i.Fine lit stored → o'.NoConstants → o'.TellConstants lit stored →
      Meets visit count code o i o' → Visits lit stored (visit count' i o')) :
    ∃ code' o' obsolete, loop visit count code o = .ok (code', o', obsolete) ∧
      (∀ i ∈ code', i.Fine lit stored) ∧ o'.NoConstants ∧ o'.TellConstants lit stored := by
  induction code generalizing count o with
  | nil => exact ⟨[], o, [], rfl, nofun, hn, ht⟩
  | cons i rest ih =>
    obtain ⟨⟨v, hv, hfine, hn', ht'⟩⟩ := step count (hc i List.mem_cons_self) hn ht .here
    obtain ⟨code', o', obsolete, hl, hfine', hn'', ht''⟩ :=
      @ih (count + 1) v.operands (fun j hj => hc j (List.mem_cons_of_mem _ hj)) hn' ht'
        fun count' _ _ hi hn ht hm => step count' hi hn ht (.later hv hm)
    refine ⟨v.instruction :: code', o', v.obsolete ++ obsolete, ?_, fun j hj => ?_, hn'', ht''⟩
    · rw [loop, hv]
      show (loop visit (count + 1) rest v.operands >>= _) = _
      rw [hl]
      rfl
    · rcases List.mem_cons.mp hj with rfl | hj
      · exact hfine
      · exact hfine' j hj

/-- A loop that comes to its end comes to the end of each visit. -/
theorem meets_ok {visit : Nat → Instruction → Operands → Except Fault Visited} {count : Nat}
    {code : List Instruction} {o o' : Operands} {i : Instruction}
    (hm : Meets visit count code o i o')
    {r : List Instruction × Operands × List Nat} (h : loop visit count code o = .ok r) :
    ∃ count' v, visit count' i o' = .ok v := by
  induction hm generalizing r with
  | @here count i rest o =>
    obtain ⟨v, hv, -⟩ := bind_ok.mp h
    exact ⟨count, v, hv⟩
  | later hv _ ih =>
    obtain ⟨v', hv', h⟩ := bind_ok.mp h
    rw [hv] at hv'
    cases hv'
    obtain ⟨r', hr', -⟩ := bind_ok.mp h
    exact ih hr'

/-! ### The passes -/

section Passes

variable {lit : Value → Prop} {stored : Nat → Prop} {oc : OptimizingCompiler}

theorem optimize_completes {visit : Nat → Instruction → Operands → Except Fault Visited}
    (h : oc.Told lit stored)
    (step : ∀ count {i o}, i.Fine lit stored → o.NoConstants → o.TellConstants lit stored →
      Meets visit 0 oc.compiler.instructions oc.compiler.operands i o →
      Visits lit stored (visit count i o)) :
    ∃ oc', oc.optimize visit = .ok oc' ∧ oc'.Told lit stored := by
  obtain ⟨code, o, obsolete, hl, hf, hn, ht⟩ :=
    loop_completes h.fine h.noConstants h.tellConstants step
  refine ⟨⟨{ oc.compiler with instructions := code, operands := o }, oc.obsolete ++ obsolete⟩, ?_,
    hf, hn, ht, h.vars⟩
  unfold OptimizingCompiler.optimize
  rw [hl]
  rfl

/-- A pass that only keeps live intervals. -/
theorem optimize_same {f : Nat → Instruction → Operands → Operands} (h : oc.Told lit stored)
    (hf : ∀ count i o, SameHints o (f count i o)) :
    ∃ oc', (oc.optimize fun count i o => .ok ⟨i, f count i o, []⟩) = .ok oc' ∧
      oc'.Told lit stored :=
  optimize_completes h fun count {i o} hi hn ht _ =>
    visits_same hi (noConstants_same hn (hf count i o)) (tellConstants_same ht (hf count i o))

theorem run_completes (hlit : FoldClosed lit) (h : oc.Told lit stored) (p : Pass)
    (hd : p = .constantFolding → ∀ i o, oc.FoldsAt i o → DivisionFine i o) :
    ∃ oc', oc.run p = .ok oc' ∧ (p ≠ .registerAllocation → oc'.Told lit stored) := by
  have hkeep {visit : Nat → Instruction → Operands → Except Fault Visited}
      (hr : ∃ oc', oc.optimize visit = .ok oc' ∧ oc'.Told lit stored) :
      ∃ oc', oc.optimize visit = .ok oc' ∧ (p ≠ .registerAllocation → oc'.Told lit stored) := by
    obtain ⟨oc', hr, ht⟩ := hr
    exact ⟨oc', hr, fun _ => ht⟩
  cases p with
  | loadParams =>
    -- the parameters get a live start and keep their hints
    have hsame := sameHints_foldl (f := fun o n =>
      o.modifyVar n (Var.modify fun v => { v with liveStart := 0 }))
      (fun o n => sameHints_modifyVar o n fun _ => rfl)
      ((List.range oc.compiler.bytecode.parameterCount).filter (· ∈ oc.compiler.vars))
      oc.compiler.operands
    refine ⟨_, rfl, fun _ => ⟨fun i hi => ?_, noConstants_same h.noConstants hsame,
      tellConstants_same h.tellConstants hsame, h.vars⟩⟩
    rcases List.mem_append.mp hi with hi | hi
    · obtain ⟨n, -, rfl⟩ := List.mem_map.mp hi
      exact ⟨nofun, fun _ => nofun, nofun⟩
    · exact h.fine i hi
  | propagateTypes =>
    exact hkeep (optimize_completes h fun _ {i o} hi hn ht _ =>
      visits_same hi (noConstants_propagateTypes hn i) (tellConstants_propagateTypes hn ht hi))
  | constantFolding =>
    exact hkeep (optimize_completes h fun _ {i o} hi hn ht hm =>
      visits_constantFolding hlit hi hn ht (hd rfl i o hm))
  | typeSpecialization =>
    exact hkeep (optimize_completes h fun _ {i o} hi hn ht _ => visits_typeSpecialization hi hn ht)
  | removeObsolete =>
    obtain ⟨oc₁, hr, ht⟩ : ∃ oc₁, (oc.optimize fun _ i o => removeObsolete oc.obsolete i o) =
        .ok oc₁ ∧ oc₁.Told lit stored :=
      optimize_completes h fun _ {i o} hi hn ht _ => visits_removeObsolete hlit hi hn ht oc.obsolete
    refine ⟨{ oc₁ with obsolete := [] }, ?_, fun _ => ⟨ht.fine, ht.noConstants, ht.tellConstants,
      ht.vars⟩⟩
    show (oc.optimize _ >>= _) = _
    rw [hr]
    rfl
  | removeNoop =>
    exact ⟨_, rfl, fun _ => ⟨fun i hi => h.fine i (List.mem_filter.mp hi).1, h.noConstants,
      h.tellConstants, h.vars⟩⟩
  | varLiveness => exact hkeep (optimize_same h (sameHints_varLiveness oc.compiler))
  | deadVariableAssignment =>
    exact hkeep (optimize_completes h fun count {i o} hi hn ht _ =>
      visits_deadVariableAssignment hi hn ht count)
  | tempLiveness => exact hkeep (optimize_same h sameHints_tempLiveness)
  | deadTemp => exact hkeep (optimize_completes h fun _ {i o} hi hn ht _ => visits_same hi hn ht)
  | shortJump =>
    exact hkeep (optimize_completes h fun count {i o} hi hn ht _ =>
      visits_shortJump hi hn ht oc.compiler count)
  | registerAllocation =>
    -- the last pass: nothing is asked of the hints after it
    obtain ⟨c, hc⟩ := linearScanAllocate_completes h.vars
    refine ⟨{ oc with compiler := c }, ?_, fun hne => absurd rfl hne⟩
    show (oc.compiler.linearScanAllocate >>= _) = _
    rw [hc]
    rfl

end Passes

/-! ### The compiled code -/

section Compiled

variable {lit : Value → Prop} {shared : Operands} {f : Function}

/-- What a `CallAssert` looks at is used by the instruction it is for; constants
come from the table of constants. -/
theorem translate_asserts {i : Beaverc.Instruction} {stack : List Nat} {n : Nat} {e : Emission}
    (he : translate f i stack n = some e) :
    (∀ a t, .callAssert a t ∈ e.code → ∃ j ∈ e.code, t ∈ j.uses ∧ ∀ k s, j ≠ .store (.var k) s) ∧
      ∀ dest v, .assign dest (.const v) ∈ e.code → ∃ c ∈ f.constants, v = constantToValue c := by
  cases translate_cases he with
  | @loadConst k c _ hk =>
    refine ⟨by simp, fun dest v hv => ?_⟩
    cases List.mem_singleton.mp hv
    exact ⟨c, List.mem_of_getElem? hk, rfl⟩
  | neg | not | ifTrue =>
    exact ⟨by simp [Instruction.uses, Instruction.isAssert, Instruction.reads], by simp⟩
  | sub | mul | div | gt | geq | and | or =>
    refine ⟨?_, by simp⟩
    simp [Instruction.uses, Instruction.isAssert, Instruction.reads]
    grind
  | _ => exact ⟨by simp, by simp⟩

/-- The same of a whole compiler. -/
structure Sourced (f : Function) (c : Compiler) : Prop where
  asserts : ∀ a t, .callAssert a t ∈ c.instructions →
    ∃ j ∈ c.instructions, t ∈ j.uses ∧ ∀ k s, j ≠ .store (.var k) s
  literal : ∀ dest v, .assign dest (.const v) ∈ c.instructions →
    ∃ c ∈ f.constants, v = constantToValue c
  bytecode : c.bytecode = f
  vars : c.vars.Nodup

theorem step_vars {c c' : Compiler} {i : Beaverc.Instruction} (h : c.step i = some c')
    (hc : c.vars.Nodup) : c'.vars.Nodup := by
  unfold Compiler.step at h
  obtain ⟨e, he, hc'⟩ := Option.bind_eq_some_iff.mp h
  cases hc'
  cases localOperand i with
  | none => exact hc
  | some k => exact Tables.nodup_setInsert k hc

theorem sourced_foldlM {code : List Beaverc.Instruction} {c c' : Compiler}
    (h : code.foldlM Compiler.step c = some c') (hc : Sourced f c) : Sourced f c' := by
  induction code generalizing c with
  | nil => cases h; exact hc
  | cons i is ih =>
    rw [List.foldlM_cons] at h
    obtain ⟨c₁, h₁, h₂⟩ := Option.bind_eq_some_iff.mp h
    obtain ⟨e, he, hb, -, -, hcode⟩ := step_inv h₁
    rw [hc.bytecode] at he
    obtain ⟨ha, hl⟩ := translate_asserts he
    refine ih h₂ ⟨fun a t hm => ?_, fun dest v hm => ?_, hb.trans hc.bytecode, step_vars h₁ hc.vars⟩
    · rw [hcode] at hm ⊢
      rcases List.mem_append.mp hm with hm | hm
      · obtain ⟨j, hj, hrest⟩ := hc.asserts a t hm
        exact ⟨j, List.mem_append_left _ hj, hrest⟩
      · obtain ⟨j, hj, hrest⟩ := ha a t hm
        exact ⟨j, List.mem_append_right _ hj, hrest⟩
    · rw [hcode] at hm
      rcases List.mem_append.mp hm with hm | hm
      · exact hc.literal dest v hm
      · exact hl dest v hm

/-- The temps that are stored in a variable. -/
def Stored (c : Compiler) (t : Nat) : Prop :=
  ∃ n, .store (.var n) t ∈ c.instructions

/-- The instruction that uses a temp. -/
theorem uses_unique {code : List Instruction} (h : (uses code).Nodup) {i j : Instruction}
    (hi : i ∈ code) (hj : j ∈ code) {t : Nat} (hti : t ∈ i.uses) (htj : t ∈ j.uses) : i = j := by
  have hpairwise := (List.nodup_flatMap.mp h).2
  by_contra hne
  have hsymm : Std.Symm (Function.onFun List.Disjoint Instruction.uses) :=
    ⟨fun _ _ hd _ h h' => hd h' h⟩
  exact hpairwise.forall hi hj hne hti htj

theorem compile_fine (hk : ∀ k ∈ f.constants, lit (constantToValue k)) (hw : WellEmitted f)
    {c : Compiler} (h : Compiler.compile shared f = some c) :
    (∀ i ∈ c.instructions, i.Fine lit (Stored c)) ∧ c.vars.Nodup := by
  have hnodup := (List.nodup_append.mp (compile_linear hw h).nodup).1
  have hsourced : Sourced f c := sourced_foldlM h ⟨nofun, nofun, rfl, List.nodup_nil⟩
  have hother {j : Instruction} (hj : j ∈ c.instructions) {t : Nat} (ht : t ∈ j.uses)
      (hne : ∀ n src, j ≠ .store (.var n) src) : ¬ Stored c t := by
    rintro ⟨n, hs⟩
    exact hne n t (uses_unique hnodup hj hs ht (List.mem_singleton_self _))
  refine ⟨fun i hi => ⟨?_, fun hne t ht => ?_, ?_⟩, hsourced.vars⟩
  · rintro n src rfl
    exact ⟨n, hi⟩
  · cases hassert : i.isAssert with
    | false =>
      refine hother hi ?_ hne
      rwa [Instruction.uses, hassert, if_neg Bool.false_ne_true]
    | true =>
      cases i with
      | callAssert a arg =>
        cases List.mem_singleton.mp ht
        obtain ⟨j, hj, hu, hne'⟩ := hsourced.asserts a t hi
        exact hother hj hu hne'
      | _ => cases hassert
  · rintro dest v rfl
    obtain ⟨k, hk', rfl⟩ := hsourced.literal dest v hi
    exact hk k hk'

theorem noConstants_step {c c' : Compiler} {i : Beaverc.Instruction} (h : c.step i = some c')
    (hn : c.operands.NoConstants) : c'.operands.NoConstants := by
  have hfold (l : List Instruction) {o : Operands} (ho : o.NoConstants) :
      (l.foldl Instruction.construct o).NoConstants := by
    induction l generalizing o with
    | nil => exact ho
    | cons j l ih => exact ih (noConstants_construct ho j)
  unfold Compiler.step at h
  obtain ⟨e, he, hc'⟩ := Option.bind_eq_some_iff.mp h
  cases hc'
  have hcode := hfold e.code hn
  cases i with
  | loadLocal k => exact noConstants_modifyTemp hcode _ _
  | _ => exact hcode

theorem noConstants_foldlM {code : List Beaverc.Instruction} {c c' : Compiler}
    (h : code.foldlM Compiler.step c = some c') (hn : c.operands.NoConstants) :
    c'.operands.NoConstants := by
  induction code generalizing c with
  | nil => cases h; exact hn
  | cons i is ih =>
    rw [List.foldlM_cons] at h
    obtain ⟨c₁, h₁, h₂⟩ := Option.bind_eq_some_iff.mp h
    exact ih h₂ (noConstants_step h₁ hn)

theorem tellConstants_step {lit : Value → Prop} {stored : Nat → Prop}
    {c c' : Compiler} {i : Beaverc.Instruction}
    (h : c.step i = some c') (hf : ∀ i ∈ c'.instructions, i.Fine lit stored)
    (hn : c.operands.NoConstants) (ht : c.operands.TellConstants lit stored) :
    c'.operands.TellConstants lit stored := by
  have hfold (l : List Instruction) {o : Operands} (hl : ∀ j ∈ l, j.Fine lit stored)
      (ho : o.NoConstants) (ht : o.TellConstants lit stored) :
      (l.foldl Instruction.construct o).TellConstants lit stored := by
    induction l generalizing o with
    | nil => exact ht
    | cons j l ih =>
      exact ih (fun k hk => hl k (List.mem_cons_of_mem _ hk)) (noConstants_construct ho j)
        (tellConstants_construct ho ht (hl j List.mem_cons_self))
  unfold Compiler.step at h
  obtain ⟨e, he, hc'⟩ := Option.bind_eq_some_iff.mp h
  cases hc'
  have hcode := hfold e.code (fun j hj => hf j (List.mem_append_right _ hj)) hn ht
  cases i with
  | loadLocal k =>
    cases he
    -- the temp has its hints from the variable, so it is no constant
    refine tellConstants_modifyTemp hcode _ fun _ hconst => ?_
    have hvar : ((c.operands.modifyTemp c.temps (Temp.transferHint
        (c.operands.var k).toOperand)).temp c.temps).typeHint = (c.operands.var k).typeHint := by
      rw [temp_modifyTemp, if_pos rfl]
      rfl
    have hfalse := (congrArg Hint.constSrc hvar).trans (hn.var k)
    exact absurd (hfalse.symm.trans hconst) nofun
  | _ => exact hcode

theorem tellConstants_foldlM {lit : Value → Prop} {stored : Nat → Prop}
    {code : List Beaverc.Instruction}
    {c c' : Compiler} (h : code.foldlM Compiler.step c = some c')
    (hf : ∀ i ∈ c'.instructions, i.Fine lit stored) (hn : c.operands.NoConstants)
    (ht : c.operands.TellConstants lit stored) : c'.operands.TellConstants lit stored := by
  induction code generalizing c with
  | nil => cases h; exact ht
  | cons i is ih =>
    rw [List.foldlM_cons] at h
    obtain ⟨c₁, h₁, h₂⟩ := Option.bind_eq_some_iff.mp h
    have hf₁ : ∀ i ∈ c₁.instructions, i.Fine lit stored := fun i hi =>
      hf i ((foldlM_extends h₂).subset hi)
    exact ih h₂ (noConstants_step h₁ hn) (tellConstants_step h₁ hf₁ hn ht)

theorem told_compile (hk : ∀ k ∈ f.constants, lit (constantToValue k)) (hs : shared.NoConstants)
    (hw : WellEmitted f) {c : Compiler}
    (h : Compiler.compile shared f = some c) :
    (⟨c, []⟩ : OptimizingCompiler).Told lit (Stored c) := by
  obtain ⟨hf, hv⟩ := compile_fine hk hw h
  have hn : (Compiler.new shared f).operands.NoConstants := ⟨fun _ => rfl, hs.deref, hs.glob⟩
  refine ⟨hf, noConstants_foldlM h hn, tellConstants_foldlM h hf hn fun t _ hc => ?_, hv⟩
  cases hc

end Compiled

/-! ### The registers -/

theorem sameHints_setReg (x : Item) (r : Option Reg) (o : Operands) :
    SameHints o (x.setReg r o) := by
  cases x with
  | var n =>
    rw [Item.setReg]
    exact sameHints_modifyVar o n fun _ => rfl
  | temp n =>
    rw [Item.setReg]
    exact sameHints_modifyTemp o n fun _ => ⟨rfl, rfl⟩

theorem sameHints_leaveReg (x : Item) (r : Reg) (o : Operands) :
    SameHints o (Allocation.leaveReg x r o) := by
  unfold Allocation.leaveReg
  split
  · exact sameHints_refl o
  · split
    · refine sameHints_trans (sameHints_modifyTemp _ _ ?_) (sameHints_modifyVar _ _ ?_)
      · exact fun _ => ⟨rfl, rfl⟩
      · exact fun _ => rfl
    · exact sameHints_refl o

theorem sameHints_expire {x : Item} {l : List Item} {s s' : Allocation}
    (h : Allocation.expire x l s = .ok s') : SameHints s.operands s'.operands := by
  induction l generalizing s with
  | nil => cases h; exact sameHints_refl _
  | cons y rest ih =>
    rw [Allocation.expire] at h
    split at h
    · cases h
      exact sameHints_refl _
    · obtain ⟨s₁, h₁, h⟩ := bind_ok.mp h
      refine sameHints_trans ?_ (ih h)
      unfold Allocation.deallocateReg at h₁
      split at h₁
      · cases h₁
        exact sameHints_leaveReg ..
      · cases h₁

theorem sameHints_step {s s' : Allocation} {x : Item} (h : s.step x = .ok s') :
    SameHints s.operands s'.operands := by
  obtain ⟨s₁, h₁, h⟩ := bind_ok.mp h
  refine sameHints_trans (sameHints_expire h₁) ?_
  split at h
  · next r _ =>
    cases h
    cases x with
    | var n => exact sameHints_refl _
    | temp n =>
      exact sameHints_modifyTemp s₁.operands n
        (f := fun t => { t with reg := some r, sharedReg := true }) fun _ => ⟨rfl, rfl⟩
  · split at h
    · obtain ⟨⟨r, s₂⟩, h₂, h⟩ := bind_ok.mp h
      cases h
      have hs₂ : s₂.operands = s₁.operands := by
        unfold Allocation.allocateReg at h₂
        split at h₂
        · cases h₂
          rfl
        · cases h₂
      exact hs₂ ▸ sameHints_setReg x (some r) s₂.operands
    · unfold Allocation.spillAtInterval at h
      split at h
      · cases h
      · dsimp only at h
        split at h
        · cases h
          exact sameHints_trans (sameHints_setReg x _ _) (sameHints_setReg _ none _)
        · cases h
          exact sameHints_setReg x none _

theorem sameHints_allocate {c c' : Compiler} (h : c.linearScanAllocate = .ok c') :
    SameHints c.operands c'.operands := by
  obtain ⟨s, hs, h⟩ := bind_ok.mp h
  cases h
  have hscan (l : List Item) {s s' : Allocation} (h : l.foldlM Allocation.step s = .ok s') :
      SameHints s.operands s'.operands := by
    induction l generalizing s with
    | nil => cases h; exact sameHints_refl _
    | cons x l ih =>
      rw [List.foldlM_cons] at h
      obtain ⟨s₁, h₁, h⟩ := bind_ok.mp h
      exact sameHints_trans (sameHints_step h₁) (ih h)
  exact hscan _ hs

/-! ### Runs -/

section Runs

variable {shared : Operands} {f : Function}

theorem stands_zero {c : Compiler} (hc : Compiler.compile shared f = some c) :
    Stands shared f 0 ⟨c, []⟩ :=
  ⟨c, hc, rfl⟩

theorem stands_succ {n : Nat} {p : Pass} (hp : allPasses[n]? = some p) {oc oc' : OptimizingCompiler}
    (h : Stands shared f n oc) (hr : oc.run p = .ok oc') : Stands shared f (n + 1) oc' := by
  obtain ⟨c, hc, h⟩ := h
  refine ⟨c, hc, ?_⟩
  rw [List.take_add_one, hp, List.foldlM_append, h]
  show (oc.run p >>= _) = _
  rw [hr]
  rfl

/-- Every constant is a literal. -/
theorem foldClosed_literal : FoldClosed (isLiteral · = true) :=
  ⟨fun _ => id, fun _ => rfl, fun _ => rfl, fun _ => rfl, fun _ _ => rfl⟩

theorem literal_constants (f : Function) :
    ∀ k ∈ f.constants, isLiteral (constantToValue k) = true := by
  intro k _
  cases k <;> rfl

/-- The run lemma: every pass before the last one comes to its end. -/
theorem stands_told {lit : Value → Prop} (hlit : FoldClosed lit)
    (hk : ∀ k ∈ f.constants, lit (constantToValue k)) (hs : shared.NoConstants) (hw : WellEmitted f)
    {c : Compiler}
    (hc : Compiler.compile shared f = some c) (hd : DivisionsFine shared f) {n : Nat}
    (hn : n < allPasses.length) : ∃ oc, Stands shared f n oc ∧ oc.Told lit (Stored c) := by
  induction n with
  | zero => exact ⟨_, stands_zero hc, told_compile hk hs hw hc⟩
  | succ n ih =>
    obtain ⟨oc, hst, htold⟩ := ih (Nat.lt_of_succ_lt hn)
    have hp := List.getElem?_eq_getElem (Nat.lt_of_succ_lt hn)
    obtain ⟨oc', hr, htold'⟩ := run_completes hlit htold allPasses[n] fun he i o hm =>
      hd n oc i o hst (he ▸ hp) hm
    have hlast : allPasses[n] ≠ .registerAllocation := by
      have hall : ∀ k < 30, allPasses[k]? ≠ some .registerAllocation := by decide
      exact fun he => hall n (Nat.lt_of_succ_lt_succ hn) (he ▸ hp)
    exact ⟨oc', stands_succ hp hst hr, htold' hlast⟩

theorem compile_ok_iff {c : Compiler} (hc : Compiler.compile shared f = some c) :
    (∃ oc, OptimizingCompiler.compile shared f true = some (.ok oc)) ↔
      ∃ oc, Stands shared f allPasses.length oc := by
  have hrun : OptimizingCompiler.compile shared f true =
      some (allPasses.foldlM OptimizingCompiler.run ⟨c, []⟩) := by
    unfold OptimizingCompiler.compile
    rw [hc]
    rfl
  constructor
  · rintro ⟨oc, h⟩
    rw [hrun] at h
    exact ⟨oc, c, hc, by rw [List.take_length]; exact Option.some.inj h⟩
  · rintro ⟨oc, c', hc', h⟩
    rw [hc] at hc'
    cases hc'
    rw [List.take_length] at h
    exact ⟨oc, by rw [hrun, h]⟩

/-- The last pass comes to its end, and keeps the shared operands. -/
theorem compile_completes (hs : shared.NoConstants) (hw : WellEmitted f) {c : Compiler}
    (hc : Compiler.compile shared f = some c) (hd : DivisionsFine shared f) :
    ∃ oc, OptimizingCompiler.compile shared f true = some (.ok oc) := by
  obtain ⟨oc, hst, htold⟩ :=
    stands_told foldClosed_literal (literal_constants f) hs hw hc hd (n := 30) (by decide)
  obtain ⟨oc', hr, -⟩ := run_completes foldClosed_literal htold .registerAllocation nofun
  exact (compile_ok_iff hc).mpr ⟨oc', stands_succ rfl hst hr⟩

/-- Where all passes come to their ends, each of them does. -/
theorem stands_of_le {n m : Nat} (hnm : n ≤ m) {oc : OptimizingCompiler}
    (h : Stands shared f m oc) : ∃ oc', Stands shared f n oc' := by
  obtain ⟨c, hc, h⟩ := h
  have hsplit : allPasses.take n ++ (allPasses.take m).drop n = allPasses.take m := by
    have htake : (allPasses.take m).take n = allPasses.take n := by
      rw [List.take_take, Nat.min_eq_left hnm]
    rw [← htake, List.take_append_drop]
  rw [← hsplit, List.foldlM_append] at h
  obtain ⟨oc', h', -⟩ := bind_ok.mp h
  exact ⟨oc', c, hc, h'⟩

/-- A division that is folded, or left as it is, is fine. -/
theorem divisionFine_of_ok {i : Instruction} {o : Operands} {v : Visited}
    (hv : constantFolding i o = .ok v) : DivisionFine i o := by
  intro dest src1 src2 hi hc₁ hc₂
  subst hi
  have hall : [src1, src2].all fun t => (o.temp t).typeHint.constSrc := by simp [hc₁, hc₂]
  unfold constantFolding foldTo at hv
  dsimp only at hv
  rw [if_pos hall] at hv
  obtain ⟨r', hfold, -⟩ := bind_ok.mp hv
  rw [BinOp.fold] at hfold
  obtain ⟨w, hw, hdivisor⟩ := bind_ok.mp hfold
  obtain ⟨b, hb, hquotient⟩ := bind_ok.mp hdivisor
  have hsrc : (o.temp src2).srcVal = .value w := by
    unfold Operand.getConst at hw
    split at hw
    · next w' hw' => cases hw; exact hw'
    · cases hw
  have hwb : w = .integer b := by
    cases w with
    | integer i => cases hb; rfl
    | _ => cases hb
  subst hwb
  refine ⟨b, hsrc, fun hb0 hi₁ hi₂ a ha => ?_⟩
  rw [if_neg hb0] at hquotient
  unfold foldIntsBinOp at hquotient
  rw [hi₁, hi₂] at hquotient
  have hga : (o.temp src1).getConst = .ok (.integer a) := by rw [Operand.getConst, ha]
  have hgb : (o.temp src2).getConst = .ok (.integer b) := by rw [Operand.getConst, hsrc]
  by_contra hq
  have hbad : toInt b = 0 ∨ toInt a = -0x80000000 ∧ toInt b = -1 :=
    Decidable.not_not.mp fun hn => hq (decide_eq_true hn)
  rw [hga, hgb] at hquotient
  simp only [Bool.and_self, if_true, bind, Except.bind, accessed, Value.getInteger,
    Except.mapError, if_pos hbad] at hquotient
  cases hquotient

/-- Constant folding that comes to its end has met no bad division. -/
theorem divisionFine_of_runs {oc oc' : OptimizingCompiler} (hr : oc.run .constantFolding = .ok oc')
    {i : Instruction} {o : Operands} (hm : oc.FoldsAt i o) : DivisionFine i o := by
  obtain ⟨r, hl, -⟩ := bind_ok.mp hr
  obtain ⟨-, v, hv⟩ := meets_ok hm hl
  exact divisionFine_of_ok hv

/-- The pass that leads to the next stage. -/
theorem stands_run {n : Nat} {p : Pass} (hp : allPasses[n]? = some p) {oc' : OptimizingCompiler}
    (h : Stands shared f (n + 1) oc') : ∃ oc, Stands shared f n oc ∧ oc.run p = .ok oc' := by
  obtain ⟨c, hc, h⟩ := h
  rw [List.take_add_one, hp, List.foldlM_append] at h
  obtain ⟨oc, h₁, h⟩ := bind_ok.mp h
  obtain ⟨oc₂, hrun, h₂⟩ := bind_ok.mp h
  cases h₂
  exact ⟨oc, ⟨c, hc, h₁⟩, hrun⟩

theorem stands_unique {n : Nat} {oc oc' : OptimizingCompiler} (h : Stands shared f n oc)
    (h' : Stands shared f n oc') : oc = oc' := by
  obtain ⟨c, hc, h⟩ := h
  obtain ⟨c', hc', h'⟩ := h'
  rw [hc] at hc'
  cases hc'
  rw [h] at h'
  exact Except.ok.inj h'

/-- A compilation that comes to its end has met no bad division. -/
theorem divisionsFine_of_completes
    (h : ∃ oc, OptimizingCompiler.compile shared f true = some (.ok oc)) :
    DivisionsFine shared f := by
  intro n oc i o hst hp hmeets
  obtain ⟨c, hc, -⟩ := id hst
  obtain ⟨ocEnd, hend⟩ := (compile_ok_iff hc).mp h
  have hn : n + 1 ≤ allPasses.length := (List.getElem?_eq_some_iff.mp hp).1
  obtain ⟨oc', hst'⟩ := stands_of_le hn hend
  obtain ⟨oc₁, hst₁, hrun⟩ := stands_run hp hst'
  cases stands_unique hst hst₁
  exact divisionFine_of_runs hrun hmeets

/-- What holds where compilation stands, whether it comes to its end or not. -/
theorem told_of_stands {lit : Value → Prop} (hlit : FoldClosed lit)
    (hk : ∀ k ∈ f.constants, lit (constantToValue k)) (hs : shared.NoConstants)
    (hw : WellEmitted f) {c : Compiler} (hc : Compiler.compile shared f = some c) {n : Nat}
    (hn : n < allPasses.length) {oc : OptimizingCompiler} (h : Stands shared f n oc) :
    oc.Told lit (Stored c) := by
  induction n generalizing oc with
  | zero =>
    cases stands_unique h (stands_zero hc)
    exact told_compile hk hs hw hc
  | succ n ih =>
    have hp := List.getElem?_eq_getElem (Nat.lt_of_succ_lt hn)
    obtain ⟨oc₀, hst₀, hrun⟩ := stands_run hp h
    obtain ⟨oc', hr, htold⟩ := run_completes hlit (ih (Nat.lt_of_succ_lt hn) hst₀) allPasses[n]
      fun he i o hm => divisionFine_of_runs (he ▸ hrun) hm
    rw [hrun] at hr
    cases hr
    have hlast : allPasses[n] ≠ .registerAllocation := by
      have hall : ∀ k < 30, allPasses[k]? ≠ some .registerAllocation := by decide
      exact fun he => hall n (Nat.lt_of_succ_lt_succ hn) (he ▸ hp)
    exact htold hlast

theorem stands_of_compile {oc : OptimizingCompiler}
    (h : OptimizingCompiler.compile shared f true = some (.ok oc)) :
    Stands shared f allPasses.length oc := by
  unfold OptimizingCompiler.compile at h
  obtain ⟨c, hc, h⟩ := Option.map_eq_some_iff.mp h
  exact ⟨c, hc, by rw [List.take_length]; exact h⟩

/-- The last pass does not touch the hints. -/
theorem noConstants_compile (hs : shared.NoConstants) (hw : WellEmitted f)
    {oc : OptimizingCompiler} (h : OptimizingCompiler.compile shared f true = some (.ok oc)) :
    oc.compiler.operands.NoConstants := by
  obtain ⟨c, hc, hr⟩ := stands_of_compile h
  obtain ⟨oc₁, ⟨c', hc', hr'⟩, htold⟩ :=
    stands_told foldClosed_literal (literal_constants f) hs hw hc
      (divisionsFine_of_completes ⟨oc, h⟩) (n := 30) (by decide)
  rw [hc] at hc'
  cases hc'
  have hsplit : allPasses.take allPasses.length = allPasses.take 30 ++ [.registerAllocation] := rfl
  rw [hsplit, List.foldlM_append, hr'] at hr
  obtain ⟨oc₂, h₂, hr⟩ := bind_ok.mp hr
  cases h₂
  obtain ⟨oc₃, hrun, hrest⟩ := bind_ok.mp hr
  cases hrest
  obtain ⟨c₂, hc₂, he⟩ := bind_ok.mp hrun
  cases he
  exact noConstants_same htold.noConstants (sameHints_allocate hc₂)

end Runs

/-! ### The constants of the code -/

theorem foldlM_constants {f : Function} {code : List Beaverc.Instruction} {c c' : Compiler}
    (h : code.foldlM Compiler.step c = some c') (hb : c.bytecode = f) :
    ∀ k, .loadConst k ∈ code → k < f.constants.length := by
  induction code generalizing c with
  | nil => exact fun k hk => absurd hk List.not_mem_nil
  | cons i is ih =>
    rw [List.foldlM_cons] at h
    obtain ⟨c₁, h₁, h₂⟩ := Option.bind_eq_some_iff.mp h
    obtain ⟨e, he, hb₁, -⟩ := step_inv h₁
    intro k hk
    rcases List.mem_cons.mp hk with rfl | hk
    · rw [hb] at he
      obtain ⟨v, hv, -⟩ := Option.bind_eq_some_iff.mp he
      exact (List.getElem?_eq_some_iff.mp hv).1
    · exact ih h₂ (hb₁.trans hb) k hk

end OptimizerErrorsLemmas

open OptimizerErrorsLemmas

theorem shared_noConstants {shared : Operands} (h : Shared shared) : shared.NoConstants := by
  induction h with
  | fresh => exact ⟨fun _ => rfl, fun _ => rfl, fun _ => rfl⟩
  | compiled _ hg hc ih => exact noConstants_compile ih (compile_wellEmitted _ hg) hc

/-- Compiling a function of a compiled program with the optimiser comes to its end
if and only if the function has all constants it loads and its passes meet no
division by a constant that is no integer, or without a quotient. -/
theorem optimizer_completes_iff (prog : Program) {f : Function}
    (hf : SubFunction (Beaverc.compile prog) f) {shared : Operands} (hs : Shared shared) :
    (∃ oc, OptimizingCompiler.compile shared f true = some (.ok oc)) ↔
      ConstantsInRange f ∧ DivisionsFine shared f := by
  have hw := compile_wellEmitted prog hf
  constructor
  · intro h
    obtain ⟨oc, hoc⟩ := id h
    obtain ⟨c, hc, -⟩ := stands_of_compile hoc
    exact ⟨foldlM_constants hc rfl, divisionsFine_of_completes h⟩
  · rintro ⟨hk, hd⟩
    obtain ⟨c, hc, -⟩ := upto_tracks shared hw hk (Nat.le_refl _)
    exact compile_completes (shared_noConstants hs) hw (compile_eq_upto.trans hc) hd

theorem optimizer_completes_folded :
    ConstantsInRange foldedFunction ∧ DivisionsFine .fresh foldedFunction := by
  have hf : SubFunction (Beaverc.compile folded) foldedFunction := by
    refine .step (.refl _) ?_
    have hfs : (Beaverc.compile folded).functions = [foldedFunction] := rfl
    rw [hfs]
    exact List.mem_singleton.mpr rfl
  have hok : (match OptimizingCompiler.compile .fresh foldedFunction true with
      | some r => r.isOk
      | none => false) = true := by decide +kernel
  refine (optimizer_completes_iff folded hf .fresh).mp ?_
  split at hok
  · next r hr =>
    cases r with
    | ok oc => exact ⟨oc, hr⟩
    | error e => cases hok
  · cases hok

/-- `f = fun(c) { if (c) { return 1 / "a"; } return 0; };` -/
def badDivision : Program :=
  .cons (.assignment (.name "f") (.function ["c"]
    (.cons (.ifStatement (.lhs (.name "c"))
      (.cons (.ret (.binaryOp .div (.intConst 1) (.strConst "a"))) .nil) .nil)
    (.cons (.ret (.intConst 0)) .nil)))) .nil

/-- The function in it. -/
def badDivisionFunction : Function :=
  (Beaverc.compile badDivision).functions.headD {}

/-- Whether compiling it raises an exception. -/
def badDivisionRaises : Bool :=
  match OptimizingCompiler.compile .fresh badDivisionFunction true with
  | some (.error (.stop (.raised .illegalCast _))) => true
  | _ => false

/-- Whether the division is executed or not, compiling it raises an exception. -/
theorem badDivision_raises : SubFunction (Beaverc.compile badDivision) badDivisionFunction ∧
    ∃ message, OptimizingCompiler.compile .fresh badDivisionFunction true =
      some (.error (.stop (.raised .illegalCast message))) := by
  constructor
  · refine .step (.refl _) ?_
    have hfs : (Beaverc.compile badDivision).functions = [badDivisionFunction] := rfl
    rw [hfs]
    exact List.mem_singleton.mpr rfl
  · have hraises : badDivisionRaises = true := by decide +kernel
    unfold badDivisionRaises at hraises
    split at hraises
    · next message h => exact ⟨message, h⟩
    · cases hraises

end Beaverc.Ir

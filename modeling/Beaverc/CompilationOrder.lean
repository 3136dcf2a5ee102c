import Beaverc.OptimizerErrors

/-!
# Compilation and what was compiled before

The operand objects of references and globals are in tables that all compilers of
the process share, by their number in the function at hand. So what one function
stores in its first global is a hint about the first global of the next one. A
compilation that finds no hints at the numbers its function names comes to the
same code, with the same hints, as in a process that has compiled nothing.
-/

namespace Beaverc.Ir
open Results SingleUseLemmas TranslationLemmas

/-! ## The numbers that a function names -/

/-- Some of the shared operand objects, by their numbers. -/
structure Part where
  deref : Nat → Bool
  glob : Nat → Bool

/-- The operand objects without the shared ones outside the part. -/
def Operands.restrict (p : Part) (o : Operands) : Operands :=
  { o with
    deref := fun n => if p.deref n then o.deref n else {}
    glob := fun n => if p.glob n then o.glob n else {} }

def Source.Within (p : Part) : Source → Prop
  | .deref n => p.deref n = true
  | .glob n => p.glob n = true
  | _ => True

def Target.Within (p : Part) : Target → Prop
  | .deref n => p.deref n = true
  | .glob n => p.glob n = true
  | .var _ => True

/-- The shared operand objects of an instruction are in the part. -/
def Instruction.Within (p : Part) : Instruction → Prop
  | .assign _ src => src.Within p
  | .store dest _ => dest.Within p
  | _ => True

/-- The shared operand objects that the compiler of a function asks for. -/
def part (f : Function) : Part where
  deref n := .loadReference n ∈ f.instructions ∨ .storeReference n ∈ f.instructions
  glob n := .loadGlobal n ∈ f.instructions ∨ .storeGlobal n ∈ f.instructions

def Compiler.restrict (p : Part) (c : Compiler) : Compiler :=
  { c with operands := c.operands.restrict p }

/-- What the compilation of a function made, without the operand objects of others. -/
def OptimizingCompiler.restrict (p : Part) (oc : OptimizingCompiler) : OptimizingCompiler :=
  { oc with compiler := oc.compiler.restrict p }

def Allocation.restrict (p : Part) (s : Allocation) : Allocation :=
  { s with operands := s.operands.restrict p }

def Visited.restrict (p : Part) (v : Visited) : Visited :=
  { v with operands := v.operands.restrict p }

/-- The same hints at the numbers of a part. -/
structure Agree (p : Part) (o o' : Operands) : Prop where
  deref : ∀ n, p.deref n = true → o.deref n = o'.deref n
  glob : ∀ n, p.glob n = true → o.glob n = o'.glob n

namespace CompilationOrderLemmas

variable {p : Part} {o : Operands}

/-! ### Operand objects -/

theorem modifyDeref_restrict {n : Nat} (hn : p.deref n = true) (f : Operand → Operand) :
    (o.restrict p).modifyDeref n f = (o.modifyDeref n f).restrict p := by
  unfold Operands.modifyDeref Operands.restrict
  simp only [Operands.mk.injEq, and_true, true_and]
  funext m
  by_cases hm : m = n
  · rw [hm, Function.update_self, Function.update_self, if_pos hn, if_pos hn]
  · rw [Function.update_of_ne hm, Function.update_of_ne hm]

theorem modifyGlob_restrict {n : Nat} (hn : p.glob n = true) (f : Operand → Operand) :
    (o.restrict p).modifyGlob n f = (o.modifyGlob n f).restrict p := by
  unfold Operands.modifyGlob Operands.restrict
  simp only [Operands.mk.injEq, true_and]
  funext m
  by_cases hm : m = n
  · rw [hm, Function.update_self, Function.update_self, if_pos hn, if_pos hn]
  · rw [Function.update_of_ne hm, Function.update_of_ne hm]

theorem source_restrict {src : Source} (h : src.Within p) :
    src.operand (o.restrict p) = src.operand o := by
  cases src with
  | deref n | glob n => exact if_pos h
  | _ => rfl

theorem target_restrict {dest : Target} (h : dest.Within p) (src : Nat) :
    dest.transferHint src (o.restrict p) = (dest.transferHint src o).restrict p := by
  cases dest with
  | var n => rfl
  | deref n => exact modifyDeref_restrict h _
  | glob n => exact modifyGlob_restrict h _

theorem construct_restrict {i : Instruction} (h : i.Within p) :
    i.construct (o.restrict p) = (i.construct o).restrict p := by
  cases i with
  | assign dest src =>
    show (o.restrict p).modifyTemp dest (Temp.transferHint (src.operand (o.restrict p))) = _
    rw [source_restrict h]
    rfl
  | store dest src => exact target_restrict h src
  | _ => rfl

theorem foldl_restrict {α : Type} {f : Operands → α → Operands} {l : List α}
    (h : ∀ o, ∀ a ∈ l, f (o.restrict p) a = (f o a).restrict p) (o : Operands) :
    l.foldl f (o.restrict p) = (l.foldl f o).restrict p := by
  induction l generalizing o with
  | nil => rfl
  | cons a l ih =>
    rw [List.foldl_cons, List.foldl_cons, h o a List.mem_cons_self]
    exact ih (fun o b hb => h o b (List.mem_cons_of_mem _ hb)) _

/-! ### The compiler -/

theorem translate_within {f : Function} {i : Beaverc.Instruction} (hi : i ∈ f.instructions)
    {stack : List Nat} {n : Nat} {e : Emission} (he : translate f i stack n = some e) :
    ∀ j ∈ e.code, j.Within (part f) := by
  cases translate_cases he with
  | loadReference | loadGlobal => simpa [Instruction.Within, Source.Within, part] using .inl hi
  | storeReference | storeGlobal => simpa [Instruction.Within, Target.Within, part] using .inr hi
  | _ => simp [Instruction.Within, Source.Within, Target.Within]

theorem step_restrict {f : Function} {c : Compiler} (hb : c.bytecode = f) {i : Beaverc.Instruction}
    (hi : i ∈ f.instructions) :
    (c.restrict (part f)).step i = (c.step i).map (Compiler.restrict (part f)) := by
  unfold Compiler.step
  show (translate c.bytecode i c.stack c.temps >>= _) = _
  cases he : translate c.bytecode i c.stack c.temps with
  | none => rfl
  | some e =>
    have hw := translate_within hi (hb ▸ he)
    have hcode := foldl_restrict (f := Instruction.construct)
      (fun o j hj => construct_restrict (o := o) (hw j hj)) c.operands
    show some _ = some _
    unfold Compiler.restrict
    rw [hcode]
    cases i <;> rfl

theorem foldlM_restrict {f : Function} {code : List Beaverc.Instruction}
    (hcode : ∀ i ∈ code, i ∈ f.instructions) {c : Compiler} (hb : c.bytecode = f)
    (hw : ∀ i ∈ c.instructions, i.Within (part f)) :
    code.foldlM Compiler.step (c.restrict (part f)) =
      (code.foldlM Compiler.step c).map (Compiler.restrict (part f)) ∧
      ∀ c', code.foldlM Compiler.step c = some c' → ∀ i ∈ c'.instructions, i.Within (part f) := by
  induction code generalizing c with
  | nil => exact ⟨rfl, fun c' h => by cases h; exact hw⟩
  | cons i code ih =>
    rw [List.foldlM_cons, List.foldlM_cons, step_restrict hb (hcode i List.mem_cons_self)]
    cases hs : c.step i with
    | none => exact ⟨rfl, fun _ h => by cases h⟩
    | some c₁ =>
      obtain ⟨e, he, hb₁, -, -, hinst⟩ := step_inv hs
      rw [hb] at he
      refine ih (fun j hj => hcode j (List.mem_cons_of_mem _ hj)) (hb₁.trans hb) fun j hj => ?_
      rw [hinst] at hj
      rcases List.mem_append.mp hj with hj | hj
      · exact hw j hj
      · exact translate_within (hcode i List.mem_cons_self) he j hj

/-! ### The passes -/

/-- A visit that does not look outside the part, nor names anything there. -/
structure Inside (p : Part) (visit : Nat → Instruction → Operands → Except Fault Visited) :
    Prop where
  restrict : ∀ count i o, i.Within p →
    visit count i (o.restrict p) = (visit count i o).map (Visited.restrict p)
  within : ∀ count i o v, i.Within p → visit count i o = .ok v → v.instruction.Within p

theorem loop_restrict {visit : Nat → Instruction → Operands → Except Fault Visited}
    (hv : Inside p visit) {code : List Instruction} (hw : ∀ i ∈ code, i.Within p) (count : Nat)
    (o : Operands) :
    loop visit count code (o.restrict p) =
      (loop visit count code o).map (fun r => (r.1, r.2.1.restrict p, r.2.2)) ∧
      ∀ r, loop visit count code o = .ok r → ∀ i ∈ r.1, i.Within p := by
  induction code generalizing count o with
  | nil => exact ⟨rfl, fun r h => by cases h; exact hw⟩
  | cons i rest ih =>
    have hi := hw i List.mem_cons_self
    rw [loop, loop, hv.restrict count i o hi]
    cases hvisit : visit count i o with
    | error e => exact ⟨rfl, fun _ h => by cases h⟩
    | ok v =>
      obtain ⟨hrest, hrestw⟩ := ih (fun j hj => hw j (List.mem_cons_of_mem _ hj)) (count + 1)
        v.operands
      constructor
      · show (loop visit (count + 1) rest (v.operands.restrict p) >>= _) =
          Except.map _ (loop visit (count + 1) rest v.operands >>= _)
        rw [hrest]
        cases loop visit (count + 1) rest v.operands <;> rfl
      · intro r hr
        obtain ⟨v', hv', hr⟩ := bind_ok.mp hr
        cases hv'
        obtain ⟨r', hr', hr⟩ := bind_ok.mp hr
        cases hr
        intro j hj
        rcases List.mem_cons.mp hj with rfl | hj
        · exact hv.within count i o v hi hvisit
        · exact hrestw r' hr' j hj

/-- A visit that keeps the instruction, and does not touch what is shared. -/
theorem inside_same {f : Nat → Instruction → Operands → Operands}
    (h : ∀ count i o, i.Within p → f count i (o.restrict p) = (f count i o).restrict p) :
    Inside p fun count i o => .ok ⟨i, f count i o, []⟩ := by
  refine ⟨fun count i o hi => ?_, fun count i o v hi hv => by cases hv; exact hi⟩
  rw [h count i o hi]
  rfl

theorem propagateTypes_restrict {i : Instruction} (h : i.Within p) :
    propagateTypes i (o.restrict p) = (propagateTypes i o).restrict p := by
  cases i with
  | assign dest src =>
    have hsrc := construct_restrict (o := o) h
    cases src with
    | retVal | ref _ | function _ => rfl
    | var _ | const _ | deref _ | glob _ => exact hsrc
  | store dest src =>
    cases dest with
    | var n => rfl
    | deref n => exact modifyDeref_restrict h _
    | glob n => exact modifyGlob_restrict h _
  | _ => rfl

theorem inside_constantFolding : Inside p fun _ i o => constantFolding i o := by
  have hfold (i : Instruction) (dest : Nat) (srcs : List Nat) (r : Except Fault (Option Value))
      (o : Operands) : foldTo i dest srcs r (o.restrict p) =
        (foldTo i dest srcs r o).map (Visited.restrict p) := by
    show (if srcs.all fun t => (o.temp t).typeHint.constSrc then _ else _) = _
    unfold foldTo
    split
    · cases r with
      | error e => rfl
      | ok v => cases v <;> rfl
    · rfl
  have hin (i : Instruction) (dest : Nat) (srcs : List Nat) (r : Except Fault (Option Value))
      (o : Operands) (v : Visited) (hi : i.Within p) (h : foldTo i dest srcs r o = .ok v) :
      v.instruction.Within p := by
    unfold foldTo at h
    split at h
    · obtain ⟨x, -, h⟩ := bind_ok.mp h
      cases x <;> cases h
      · exact hi
      · exact trivial
    · cases h
      exact hi
  constructor
  · intro _ i o _
    cases i with
    | binOp op dest src1 src2 => exact hfold ..
    | unOp op dest src => exact hfold ..
    | _ => rfl
  · intro _ i o v hi h
    cases i with
    | binOp op dest src1 src2 => exact hin _ _ _ _ _ _ hi h
    | unOp op dest src => exact hin _ _ _ _ _ _ hi h
    | _ => cases h; exact hi

theorem inside_typeSpecialization : Inside p fun _ i o => .ok (typeSpecialization i o) := by
  constructor
  · intro _ i o _
    cases i with
    | binOp op dest src1 src2 =>
      let op' := op.specialize (o.temp src1).toOperand (o.temp src2).toOperand
      show Except.ok (if op' = op then _ else _) =
        Except.ok (Visited.restrict p (if op' = op then _ else _))
      by_cases h : op' = op
      · rw [if_pos h, if_pos h]
        rfl
      · rw [if_neg h, if_neg h]
        rfl
    | _ => rfl
  · intro _ i o v hi h
    cases h
    cases i with
    | binOp op dest src1 src2 =>
      show Instruction.Within p (Visited.instruction (if _ = op then _ else _))
      split <;> exact trivial
    | _ => exact hi

theorem inside_removeObsolete (obsolete : List Nat) :
    Inside p fun _ i o => removeObsolete obsolete i o := by
  constructor
  · intro _ i o _
    cases i with
    | callAssert a arg =>
      show (if arg ∈ obsolete then _ else a.passes (o.temp arg).toOperand >>= _) =
        Except.map _ (if arg ∈ obsolete then _ else a.passes (o.temp arg).toOperand >>= _)
      split
      · rfl
      · cases a.passes (o.temp arg).toOperand <;> rfl
    | _ => rfl
  · intro _ i o v hi h
    unfold removeObsolete at h
    split at h
    · cases h
      dsimp only
      split
      · exact trivial
      · exact hi
    · split at h
      · cases h
        exact trivial
      · obtain ⟨b, -, h⟩ := bind_ok.mp h
        cases h
        cases b <;> exact trivial
    · cases h
      exact hi

theorem varLiveness_restrict (c : Compiler) (count : Nat) (i : Instruction) :
    varLiveness (c.restrict p) count i (o.restrict p) = (varLiveness c count i o).restrict p := by
  have hjump (l : Nat) :
      adjustLiveEnds c.instructions (c.bytecode.labelPosition l) count (o.restrict p) =
        (adjustLiveEnds c.instructions (c.bytecode.labelPosition l) count o).restrict p := by
    refine foldl_restrict (fun o j _ => ?_) o
    cases j with
    | assign dest src => cases src <;> rfl
    | _ => rfl
  cases i with
  | assign dest src => cases src <;> rfl
  | store dest src => cases dest <;> rfl
  | jump l => exact hjump l
  | condJump cond l => exact hjump l
  | _ => rfl

theorem inside_deadVariableAssignment :
    Inside p fun count i o => .ok (deadVariableAssignment count i o) := by
  constructor
  · intro count i o _
    cases i with
    | store dest src =>
      cases dest with
      | var n =>
        show Except.ok (if (o.var n).liveEnd ≤ _ then _ else _) =
          Except.ok (Visited.restrict p (if (o.var n).liveEnd ≤ _ then _ else _))
        split <;> rfl
      | _ => rfl
    | _ => rfl
  · intro count i o v hi h
    cases h
    unfold deadVariableAssignment
    split
    · split
      · exact trivial
      · exact hi
    · exact hi

theorem dead_restrict (count : Nat) (o : Operands) (t : Nat) :
    dead count (o.restrict p) t = (dead count o t).restrict p := by
  let f : Temp → Temp := Temp.modify fun t => { t with liveEnd := ((count : Int) : WithTop Int) }
  have hvar : (((o.restrict p).modifyTemp t f).temp t).var? = ((o.modifyTemp t f).temp t).var? :=
    rfl
  unfold dead
  dsimp only
  rw [hvar]
  cases ((o.modifyTemp t f).temp t).var? <;> rfl

theorem tempLiveness_restrict (count : Nat) (i : Instruction) :
    tempLiveness count i (o.restrict p) = (tempLiveness count i o).restrict p := by
  unfold tempLiveness
  rw [foldl_restrict fun o t _ => dead_restrict count o t]
  exact foldl_restrict (fun _ _ _ => rfl) _

/-! ### Register allocation -/

section Allocation
open Allocation

variable {s : Allocation} {x : Item}

theorem operand_restrict (x : Item) (o : Operands) : x.operand (o.restrict p) = x.operand o := by
  cases x <;> rfl

theorem setReg_restrict (x : Item) (r : Option Reg) (o : Operands) :
    x.setReg r (o.restrict p) = (x.setReg r o).restrict p := by
  cases x <;> rfl

theorem activate_restrict (x : Item) (s : Allocation) :
    (s.restrict p).activate x = (s.activate x).restrict p := by
  unfold activate Allocation.restrict
  simp only [operand_restrict]

theorem leaveReg_restrict (x : Item) (r : Reg) (o : Operands) :
    leaveReg x r (o.restrict p) = (leaveReg x r o).restrict p := by
  cases x with
  | var n => rfl
  | temp n =>
    have hvar : ((o.restrict p).temp n).var? = (o.temp n).var? := rfl
    unfold leaveReg
    dsimp only
    rw [hvar]
    cases (o.temp n).var? <;> rfl

theorem deallocateReg_restrict (y : Item) (s : Allocation) :
    (s.restrict p).deallocateReg y =
      (s.deallocateReg y).map (Allocation.restrict p) := by
  unfold deallocateReg Allocation.restrict
  simp only [operand_restrict, leaveReg_restrict]
  cases (y.operand s.operands).reg <;> rfl

theorem expire_restrict (x : Item) (l : List Item) (s : Allocation) :
    expire x l (s.restrict p) = (expire x l s).map (Allocation.restrict p) := by
  induction l generalizing s with
  | nil => rfl
  | cons y rest ih =>
    rw [expire, expire]
    have hx : x.operand (s.restrict p).operands = x.operand s.operands :=
      operand_restrict x _
    have hy : y.operand (s.restrict p).operands = y.operand s.operands :=
      operand_restrict y _
    rw [hx, hy, deallocateReg_restrict]
    split
    · rfl
    · cases s.deallocateReg y with
      | error e => rfl
      | ok s₁ => exact ih s₁

theorem spill_restrict (x : Item) (s : Allocation) :
    (s.restrict p).spillAtInterval x =
      (s.spillAtInterval x).map (Allocation.restrict p) := by
  have hactive : (s.restrict p).active = s.active := rfl
  unfold spillAtInterval
  rw [hactive]
  cases s.active.getLast? with
  | none => rfl
  | some spill =>
    dsimp only
    have hop (y : Item) : y.operand (s.restrict p).operands = y.operand s.operands :=
      operand_restrict y _
    simp only [hop]
    split
    · show Except.ok _ = Except.ok _
      rw [← activate_restrict]
      unfold Allocation.restrict
      simp only [setReg_restrict]
    · show Except.ok _ = Except.ok _
      unfold Allocation.restrict
      rw [setReg_restrict]

theorem allocateReg_restrict (x : Item) (s : Allocation) :
    (s.restrict p).allocateReg x =
      (s.allocateReg x).map fun r => (r.1, r.2.restrict p) := by
  have hlast : (s.restrict p).lastReg x = s.lastReg x := by
    cases x <;> rfl
  have huse : (s.restrict p).inUse = s.inUse := rfl
  unfold allocateReg
  rw [hlast, huse]
  cases (s.lastReg x).or (regPool.find? (· ∉ s.inUse)) <;> rfl

theorem allocationStep_restrict (x : Item) (s : Allocation) :
    (s.restrict p).step x = (s.step x).map (Allocation.restrict p) := by
  unfold Allocation.step expireOldIntervals
  show (expire x s.active (s.restrict p) >>= _) = _
  rw [expire_restrict]
  cases expire x s.active s with
  | error e => rfl
  | ok s₁ =>
    have hshared : (s₁.restrict p).sharedReg x = s₁.sharedReg x := by
      cases x <;> rfl
    simp only [Except.map, ok_bind]
    rw [hshared]
    cases s₁.sharedReg x with
    | some r => cases x <;> rfl
    | none =>
      show (if s₁.hasFreeReg then (s₁.restrict p).allocateReg x >>= _ else _) =
        Except.map _ (if s₁.hasFreeReg then s₁.allocateReg x >>= _ else _)
      split
      · rw [allocateReg_restrict]
        cases s₁.allocateReg x with
        | error e => rfl
        | ok r =>
          show Except.ok _ = Except.ok _
          rw [← activate_restrict]
          unfold Allocation.restrict
          simp only [setReg_restrict]
      · exact spill_restrict x s₁

theorem allocation_restrict (c : Compiler) :
    (c.restrict p).linearScanAllocate = c.linearScanAllocate.map (Compiler.restrict p) := by
  have hsorted : (c.restrict p).sorted = c.sorted := by
    unfold Compiler.sorted Compiler.restrict
    simp only [operand_restrict]
  have hscan (l : List Item) (s : Allocation) : l.foldlM Allocation.step (s.restrict p) =
      (l.foldlM Allocation.step s).map (Allocation.restrict p) := by
    induction l generalizing s with
    | nil => rfl
    | cons x l ih =>
      rw [List.foldlM_cons, List.foldlM_cons, allocationStep_restrict]
      cases s.step x with
      | error e => rfl
      | ok s₁ => exact ih s₁
  unfold Compiler.linearScanAllocate
  rw [hsorted]
  show (c.sorted.foldlM Allocation.step (Allocation.restrict p { operands := c.operands }) >>= _) =
    _
  rw [hscan]
  cases c.sorted.foldlM Allocation.step { operands := c.operands } <;> rfl

end Allocation

/-! ### The pipeline -/

section Pipeline

variable {oc : OptimizingCompiler}

theorem optimize_restrict {visit : Nat → Instruction → Operands → Except Fault Visited}
    (hv : Inside p visit) (hw : ∀ i ∈ oc.compiler.instructions, i.Within p) :
    (oc.restrict p).optimize visit = (oc.optimize visit).map (OptimizingCompiler.restrict p) ∧
      ∀ oc', oc.optimize visit = .ok oc' → ∀ i ∈ oc'.compiler.instructions, i.Within p := by
  obtain ⟨hl, hin⟩ := loop_restrict hv hw 0 oc.compiler.operands
  constructor
  · show (loop visit 0 oc.compiler.instructions (oc.compiler.operands.restrict p) >>= _) = _
    rw [hl]
    unfold OptimizingCompiler.optimize
    cases loop visit 0 oc.compiler.instructions oc.compiler.operands <;> rfl
  · intro oc' h
    obtain ⟨r, hr, h⟩ := bind_ok.mp h
    cases h
    exact hin r hr

/-- Every pass. -/
theorem run_restrict (hw : ∀ i ∈ oc.compiler.instructions, i.Within p) (q : Pass) :
    (oc.restrict p).run q = (oc.run q).map (OptimizingCompiler.restrict p) ∧
      ∀ oc', oc.run q = .ok oc' → ∀ i ∈ oc'.compiler.instructions, i.Within p := by
  cases q with
  | loadParams =>
    refine ⟨?_, fun oc' h => ?_⟩
    · show Except.ok _ = Except.ok _
      unfold OptimizingCompiler.restrict Compiler.restrict Compiler.loadParams
      have hparams := foldl_restrict (p := p)
        (l := (List.range oc.compiler.bytecode.parameterCount).filter
        (· ∈ oc.compiler.vars)) (f := fun o n =>
          o.modifyVar n (Var.modify fun v => { v with liveStart := 0 })) (fun _ _ _ => rfl)
        oc.compiler.operands
      dsimp only
      rw [hparams]
    · cases h
      intro i hi
      rcases List.mem_append.mp hi with hi | hi
      · obtain ⟨n, -, rfl⟩ := List.mem_map.mp hi
        exact trivial
      · exact hw i hi
  | propagateTypes =>
    exact optimize_restrict (inside_same fun _ _ _ hi => propagateTypes_restrict hi) hw
  | constantFolding => exact optimize_restrict inside_constantFolding hw
  | typeSpecialization => exact optimize_restrict inside_typeSpecialization hw
  | removeObsolete =>
    obtain ⟨hr, hin⟩ := optimize_restrict (inside_removeObsolete oc.obsolete) hw
    constructor
    · show ((oc.restrict p).optimize (fun _ i o => removeObsolete oc.obsolete i o) >>= _) =
        Except.map _ (oc.optimize (fun _ i o => removeObsolete oc.obsolete i o) >>= _)
      rw [hr]
      cases oc.optimize fun _ i o => removeObsolete oc.obsolete i o <;> rfl
    · intro oc' h
      obtain ⟨oc₁, h₁, h⟩ := bind_ok.mp h
      cases h
      exact hin oc₁ h₁
  | removeNoop =>
    refine ⟨rfl, fun oc' h => ?_⟩
    cases h
    exact fun i hi => hw i (List.mem_filter.mp hi).1
  | varLiveness =>
    exact optimize_restrict (inside_same fun count i _ _ =>
      varLiveness_restrict oc.compiler count i) hw
  | deadVariableAssignment => exact optimize_restrict inside_deadVariableAssignment hw
  | tempLiveness =>
    exact optimize_restrict (inside_same fun count i _ _ => tempLiveness_restrict count i) hw
  | deadTemp =>
    refine optimize_restrict ⟨fun _ _ _ _ => rfl, fun _ i o v hi h => ?_⟩ hw
    cases h
    exact hi
  | shortJump =>
    -- a jump becomes a short jump to the same label
    refine optimize_restrict ⟨fun _ _ _ _ => rfl, fun count i o v hi h => ?_⟩ hw
    cases h
    unfold shortJump
    split
    · split
      · exact trivial
      · exact hi
    · exact hi
  | registerAllocation =>
    constructor
    · show ((oc.compiler.restrict p).linearScanAllocate >>= _) =
        Except.map _ (oc.compiler.linearScanAllocate >>= _)
      rw [allocation_restrict]
      cases oc.compiler.linearScanAllocate <;> rfl
    · intro oc' h
      obtain ⟨c, hc, h⟩ := bind_ok.mp h
      cases h
      obtain ⟨s, -, hs⟩ := bind_ok.mp hc
      cases hs
      exact hw

/-- The run lemma: all passes. -/
theorem passes_restrict (ps : List Pass) (hw : ∀ i ∈ oc.compiler.instructions, i.Within p) :
    ps.foldlM OptimizingCompiler.run (oc.restrict p) =
      (ps.foldlM OptimizingCompiler.run oc).map (OptimizingCompiler.restrict p) := by
  induction ps generalizing oc with
  | nil => rfl
  | cons q ps ih =>
    obtain ⟨hr, hin⟩ := run_restrict hw q
    rw [List.foldlM_cons, List.foldlM_cons, hr]
    cases hq : oc.run q with
    | error e => rfl
    | ok oc₁ => exact ih (hin oc₁ hq)

end Pipeline

/-- What a compilation makes, seen from the function, depends on the tables at the
numbers that the function names only. -/
theorem compile_agree {f : Function} {s s' : Operands} (h : Agree (part f) s s') :
    (OptimizingCompiler.compile s f true).map (Except.map (OptimizingCompiler.restrict (part f))) =
      (OptimizingCompiler.compile s' f true).map
        (Except.map (OptimizingCompiler.restrict (part f))) := by
  have hcompile (s : Operands) : (OptimizingCompiler.compile s f true).map
      (Except.map (OptimizingCompiler.restrict (part f))) =
      (f.instructions.foldlM Compiler.step ((Compiler.new s f).restrict (part f))).map
        fun c => allPasses.foldlM OptimizingCompiler.run ⟨c, []⟩ := by
    obtain ⟨hr, hin⟩ := foldlM_restrict (f := f) (c := Compiler.new s f) (fun _ => id) rfl nofun
    rw [hr]
    unfold OptimizingCompiler.compile Compiler.compile
    cases hc : f.instructions.foldlM Compiler.step (Compiler.new s f) with
    | none => rfl
    | some c =>
      show some _ = some _
      exact congrArg some (@passes_restrict _ ⟨c, []⟩ allPasses (hin c hc)).symm
  have hnew : (Compiler.new s f).restrict (part f) = (Compiler.new s' f).restrict (part f) := by
    unfold Compiler.new Compiler.restrict Operands.restrict
    dsimp only
    congr 2
    · funext n
      split
      · next hn => exact h.deref n hn
      · rfl
    · funext n
      split
      · next hn => exact h.glob n hn
      · rfl
  rw [hcompile, hcompile, hnew]

end CompilationOrderLemmas

open CompilationOrderLemmas

/-! ## The compilations of a process -/

/-- A function is compiled on its first call. -/
structure Compilation where
  shared : Operands
  function : Function
  result : OptimizingCompiler

/-- The compilations a process has made, of functions of any programs in any order,
and the tables after them. -/
inductive Compiled : List Compilation → Operands → Prop
  | start : Compiled [] .fresh
  | next {done : List Compilation} {shared : Operands} {prog : Program} {f : Function}
      {oc : OptimizingCompiler} : Compiled done shared → SubFunction (Beaverc.compile prog) f →
      OptimizingCompiler.compile shared f true = some (.ok oc) →
      Compiled (done ++ [⟨shared, f, oc⟩]) oc.compiler.operands

/-- The tables hold no hints at the numbers that the function names. -/
def Compilation.Unhinted (c : Compilation) : Prop :=
  Agree (part c.function) c.shared .fresh

/-- The function compiled as the first one of a process gives the same code, with the
same temps, variables and hints. -/
def Compilation.Independent (c : Compilation) : Prop :=
  ∃ oc, OptimizingCompiler.compile .fresh c.function true = some (.ok oc) ∧
    c.result.restrict (part c.function) = oc.restrict (part c.function)

namespace CompilationOrderLemmas

/-- The step lemma: a compilation that finds no hints. -/
theorem independent_of_unhinted {c : Compilation} (h : c.Unhinted)
    (hc : OptimizingCompiler.compile c.shared c.function true = some (.ok c.result)) :
    c.Independent := by
  have hagree := compile_agree h
  rw [hc] at hagree
  cases hfresh : OptimizingCompiler.compile .fresh c.function true with
  | none =>
    rw [hfresh] at hagree
    cases hagree
  | some r =>
    rw [hfresh] at hagree
    cases r with
    | error e => cases hagree
    | ok oc => exact ⟨oc, hfresh, Except.ok.inj (Option.some.inj hagree)⟩

theorem compiled_results {done : List Compilation} {shared : Operands}
    (h : Compiled done shared) :
    ∀ c ∈ done, OptimizingCompiler.compile c.shared c.function true = some (.ok c.result) := by
  induction h with
  | start => exact nofun
  | next _ _ hc ih =>
    intro c hm
    rcases List.mem_append.mp hm with hm | hm
    · exact ih c hm
    · cases List.mem_singleton.mp hm
      exact hc

end CompilationOrderLemmas

/-- Whatever functions of whatever programs a process compiles, in whatever order: if
each compilation finds no hints at the numbers its function names, each makes what
it makes in a process that has compiled nothing. -/
theorem compilations_independent {done : List Compilation} {shared : Operands}
    (h : Compiled done shared) (hc : ∀ c ∈ done, c.Unhinted) : ∀ c ∈ done, c.Independent :=
  fun c hm => independent_of_unhinted (hc c hm) (compiled_results h c hm)

/-- `g = fun() { global a; global b; x = a; b = 1; };` and
`f = fun() { global c; return c + 1; };` -/
def secondGlobal : Program :=
  .cons (.assignment (.name "g") (.function []
    (.cons (.global "a") (.cons (.global "b")
    (.cons (.assignment (.name "x") (.lhs (.name "a")))
    (.cons (.assignment (.name "b") (.intConst 1)) .nil))))))
  (.cons (.assignment (.name "f") (.function []
    (.cons (.global "c")
    (.cons (.ret (.binaryOp .plus (.lhs (.name "c")) (.intConst 1))) .nil)))) .nil)

/-- The two functions. -/
def storesSecond : Function :=
  (Beaverc.compile secondGlobal).functions.headD {}

def addsFirst : Function :=
  (Beaverc.compile secondGlobal).functions.getD 1 {}

/-- Whether `g` leaves hints at its second global only, and `f` is compiled after it. -/
def hintsSecond : Bool :=
  match OptimizingCompiler.compile .fresh storesSecond true with
  | some (.ok g) =>
    match OptimizingCompiler.compile g.compiler.operands addsFirst true with
    | some (.ok _) => g.compiler.operands.glob 0 = {} ∧ g.compiler.operands.glob 1 ≠ {}
    | _ => false
  | _ => false

/-- `g` hints that its second global is an integer; `f`, compiled after it, names its
first global only. -/
theorem compilations_independent_second : ∃ g oc, Compiled [⟨.fresh, storesSecond, g⟩,
    ⟨g.compiler.operands, addsFirst, oc⟩] oc.compiler.operands ∧
    g.compiler.operands.glob 1 ≠ Operands.fresh.glob 1 ∧
    ∀ c ∈ [Compilation.mk .fresh storesSecond g, ⟨g.compiler.operands, addsFirst, oc⟩],
      c.Independent := by
  have hsecond : hintsSecond = true := by decide +kernel
  have hfs : (Beaverc.compile secondGlobal).functions = [storesSecond, addsFirst] := rfl
  have hg : SubFunction (Beaverc.compile secondGlobal) storesSecond := by
    refine .step (.refl _) ?_
    rw [hfs]
    exact List.mem_cons_self
  have hf : SubFunction (Beaverc.compile secondGlobal) addsFirst := by
    refine .step (.refl _) ?_
    rw [hfs]
    exact List.mem_cons_of_mem _ (List.mem_singleton_self _)
  have hcode : addsFirst.instructions =
      [.loadGlobal 0, .loadConst 0, .add, .ret, .loadConst 1, .ret] := rfl
  unfold hintsSecond at hsecond
  split at hsecond
  · next g hcg =>
    split at hsecond
    · next oc hcf =>
      obtain ⟨hfirst, hhint⟩ := of_decide_eq_true hsecond
      have hrun := Compiled.next (.next .start hg hcg) hf hcf
      refine ⟨g, oc, hrun, hhint, compilations_independent hrun ?_⟩
      intro c hm
      rcases List.mem_pair.mp hm with rfl | rfl
      · exact ⟨fun _ _ => rfl, fun _ _ => rfl⟩
      · constructor
        · intro n hn
          simp [part, hcode] at hn
        · intro n hn
          have hzero : n = 0 := by simpa [part, hcode] using hn
          rw [hzero]
          exact hfirst
    · cases hsecond
  · cases hsecond

/-- `g = fun() { global a; a = 1; };` and `f = fun() { global b; return b + 1; };` -/
def twoGlobals : Program :=
  .cons (.assignment (.name "g") (.function []
    (.cons (.global "a") (.cons (.assignment (.name "a") (.intConst 1)) .nil))))
  (.cons (.assignment (.name "f") (.function []
    (.cons (.global "b")
    (.cons (.ret (.binaryOp .plus (.lhs (.name "b")) (.intConst 1))) .nil)))) .nil)

/-- The two functions. -/
def storesGlobal : Function :=
  (Beaverc.compile twoGlobals).functions.headD {}

def addsGlobal : Function :=
  (Beaverc.compile twoGlobals).functions.getD 1 {}

/-- Whether `f` has other code after `g` than as the first function. -/
def hintsLeak : Bool :=
  match OptimizingCompiler.compile .fresh storesGlobal true,
    OptimizingCompiler.compile .fresh addsGlobal true with
  | some (.ok g), some (.ok first) =>
    match OptimizingCompiler.compile g.compiler.operands addsGlobal true with
    | some (.ok second) => second.compiler.instructions ≠ first.compiler.instructions
    | _ => false
  | _, _ => false

/-- `g` hints that its first global is an integer; after it, `f` adds its own first
global as an integer, whatever it is. -/
theorem compilations_dependent : ∃ g oc, Compiled [⟨.fresh, storesGlobal, g⟩,
    ⟨g.compiler.operands, addsGlobal, oc⟩] oc.compiler.operands ∧
    ¬ (Compilation.mk g.compiler.operands addsGlobal oc).Independent := by
  have hleak : hintsLeak = true := by decide +kernel
  have hfs : (Beaverc.compile twoGlobals).functions = [storesGlobal, addsGlobal] := rfl
  have hg : SubFunction (Beaverc.compile twoGlobals) storesGlobal := by
    refine .step (.refl _) ?_
    rw [hfs]
    exact List.mem_cons_self
  have hf : SubFunction (Beaverc.compile twoGlobals) addsGlobal := by
    refine .step (.refl _) ?_
    rw [hfs]
    exact List.mem_cons_of_mem _ (List.mem_singleton_self _)
  unfold hintsLeak at hleak
  split at hleak
  · next g first hcg hfirst =>
    split at hleak
    · next second hsecond =>
      refine ⟨g, second, .next (.next .start hg hcg) hf hsecond, ?_⟩
      rintro ⟨oc, hoc, hsame⟩
      rw [hfirst] at hoc
      cases hoc
      have hcode : second.compiler.instructions = first.compiler.instructions :=
        congrArg (fun c => c.compiler.instructions) hsame
      exact of_decide_eq_true hleak hcode
    · cases hleak
  · cases hleak

end Beaverc.Ir

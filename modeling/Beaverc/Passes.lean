import Beaverc.RegisterAllocation
import Beaverc.IrMachine

/-!
# The optimisation passes

`IR::OptimizingCompiler` and its passes. Most passes are one loop over the
instructions that may replace the instruction in hand, write hints and live
intervals, and mark temps as obsolete; `loop` is that loop. The option that
turns the errors found by constant folding into exceptions is off, so
`throw_exception` does nothing.
-/

namespace Beaverc.Ir

/-- What stands in the place of an instruction, the operand objects after it,
and the temps that became obsolete. -/
structure Visited where
  instruction : Instruction
  operands : Operands
  obsolete : List Nat := []

/-- The loop of a pass; `visit` gets the position (`count`) of the instruction. -/
def loop (visit : Nat → Instruction → Operands → Except Fault Visited) :
    Nat → List Instruction → Operands → Except Fault (List Instruction × Operands × List Nat)
  | _, [], o => .ok ([], o, [])
  | count, i :: rest, o => do
    let v ← visit count i o
    let (code, o, obsolete) ← loop visit (count + 1) rest v.operands
    .ok (v.instruction :: code, o, v.obsolete ++ obsolete)

/-- The value accessors throw inside the passes. -/
def accessed {α : Type} (x : Except Stop α) : Except Fault α :=
  x.mapError .stop

/-- `getConst()`: the word in `src_val`; the number of a variable is no value. -/
def Operand.getConst (o : Operand) : Except Fault Value :=
  match o.srcVal with
  | .value v => .ok v
  | .number _ => .error (.stop .undefined)

/-! ## Hints -/

/-- `PropagateTypesOptimization`. -/
def propagateTypes (i : Instruction) (o : Operands) : Operands :=
  match i with
  | .assign dest src =>
    match src with
    | .var _ | .const _ | .deref _ | .glob _ =>
      o.modifyTemp dest (Temp.transferHint (src.operand o))
    | .retVal | .ref _ | .function _ => o
  | .store dest src =>
    match dest with
    | .var n => dest.transferHint src (o.modifyTemp src (Temp.modify (Operand.hintVar n)))
    | .deref _ | .glob _ => dest.transferHint src o
  | _ => o

/-! ## Constant folding -/

/-- The conversion of an `int64_t` to `int`. -/
def toInt (i : Int) : Int :=
  i.bmod 0x100000000

/-- `foldIntsBinOp`: the constant in the place of the operation, if both
operands are integers. `f` computes on `int`s. -/
def foldIntsBinOp (f : Int → Int → Except Fault Int) (src1 src2 : Operand) :
    Except Fault (Option Value) :=
  if src1.typeHint.isInt && src2.typeHint.isInt then do
    let i1 ← accessed (← src1.getConst).getInteger
    let i2 ← accessed (← src2.getConst).getInteger
    return some (.makeInteger (toInt (← f (toInt i1) (toInt i2))))
  else return none

/-- `foldBoolBinOp`. -/
def foldBoolBinOp (f : Bool → Bool → Bool) (src1 src2 : Operand) : Except Fault (Option Value) :=
  if src1.typeHint.isBool && src2.typeHint.isBool then do
    let b1 ← accessed (← src1.getConst).getBoolean
    let b2 ← accessed (← src2.getConst).getBoolean
    return some (.boolean (f b1 b2))
  else return none

/-- `getStringConstant()`. -/
def getStringConstant (v : Value) : Except Fault String :=
  match v with
  | .stringConstant s => .ok s
  | _ => .error (.stop (.raised .illegalCast "Value is not a string constant"))

/-- The constant that the result of a binary operation on constants is folded to. -/
def BinOp.fold (op : BinOp) (src1 src2 : Operand) : Except Fault (Option Value) :=
  match op with
  | .add =>
    if src1.typeHint.isString && src2.typeHint.isString then do
      let s1 ← getStringConstant (← src1.getConst)
      let s2 ← getStringConstant (← src2.getConst)
      return some (.stringConstant (s1 ++ s2))
    else foldIntsBinOp (fun a b => .ok (a + b)) src1 src2
  | .intAdd => foldIntsBinOp (fun a b => .ok (a + b)) src1 src2
  | .sub => foldIntsBinOp (fun a b => .ok (b - a)) src1 src2
  | .mul => foldIntsBinOp (fun a b => .ok (a * b)) src1 src2
  | .div => do
    let b ← accessed (← src2.getConst).getInteger
    if b = 0 then return none
    else
      -- the divisor can still be 0 as an `int`, and the quotient need not be an `int`
      foldIntsBinOp (fun a b =>
        if b = 0 ∨ a = -0x80000000 ∧ b = -1 then .error (.stop .undefined) else .ok (a.tdiv b))
        src1 src2
  | .fastEq => do
    -- once two booleans are folded the source asks the deleted operation whether its operands
    -- are integers; that has no defined result, and the fold ends here
    match ← foldBoolBinOp (fun a b => a = b) src1 src2 with
    | some v => return some v
    | none =>
      if src1.typeHint.isInt && src2.typeHint.isInt then do
        let i1 ← accessed (← src1.getConst).getInteger
        let i2 ← accessed (← src2.getConst).getInteger
        return some (.boolean (i1 = i2))
      else return none
  | .and => foldBoolBinOp (fun a b => a && b) src1 src2
  | .or => foldBoolBinOp (fun a b => a || b) src1 src2
  | .gt | .geq | .eq => return none

def UnOp.fold (op : UnOp) (src : Operand) : Except Fault (Option Value) :=
  match op with
  | .neg =>
    if src.typeHint.isInt then do
      return some (.makeInteger (-(← accessed (← src.getConst).getInteger)))
    else return none
  | .not =>
    if src.typeHint.isBool then do
      return some (.boolean (!(← accessed (← src.getConst).getBoolean)))
    else return none

/-- An operation whose operands are constants becomes the assignment of its
result. -/
def foldTo (i : Instruction) (dest : Nat) (srcs : List Nat)
    (fold : Except Fault (Option Value)) (o : Operands) : Except Fault Visited :=
  if srcs.all fun t => (o.temp t).typeHint.constSrc then do
    match ← fold with
    | some v =>
      let assign : Instruction := .assign dest (.const v)
      return ⟨assign, assign.construct o, srcs⟩
    | none => return ⟨i, o, []⟩
  else return ⟨i, o, []⟩

/-- `ConstantFoldingOptimization`. -/
def constantFolding (i : Instruction) (o : Operands) : Except Fault Visited :=
  match i with
  | .binOp op dest src1 src2 =>
    foldTo i dest [src1, src2] (op.fold (o.temp src1).toOperand (o.temp src2).toOperand) o
  | .unOp op dest src => foldTo i dest [src] (op.fold (o.temp src).toOperand) o
  | i => return ⟨i, o, []⟩

/-! ## Type specialisation -/

/-- The operation that an operation on operands of known types is replaced by. -/
def BinOp.specialize (op : BinOp) (src1 src2 : Operand) : BinOp :=
  match op with
  | .add => if src1.typeHint.isInt && src2.typeHint.isInt then .intAdd else .add
  | .eq =>
    if src1.typeHint.isInt && src2.typeHint.isInt ||
        src1.typeHint.isBool && src2.typeHint.isBool then
      .fastEq
    else .eq
  | op => op

/-- `TypeSpecializationOptimization`; the new operation hints its destination. -/
def typeSpecialization (i : Instruction) (o : Operands) : Visited :=
  match i with
  | .binOp op dest src1 src2 =>
    let op' := op.specialize (o.temp src1).toOperand (o.temp src2).toOperand
    if op' = op then ⟨i, o, []⟩
    else
      let i : Instruction := .binOp op' dest src1 src2
      ⟨i, i.construct o, []⟩
  | i => ⟨i, o, []⟩

/-! ## Deletion -/

/-- Whether the hints of a temp tell that a check of it passes. -/
def Assert.passes (a : Assert) (arg : Operand) : Except Fault Bool :=
  match a with
  | .int => return arg.typeHint.isInt
  | .notZero =>
    if arg.typeHint.isInt && arg.typeHint.constSrc then do
      return (← accessed (← arg.getConst).getInteger) ≠ 0
    else return false
  | .bool => return arg.typeHint.isBool

/-- `RemoveObsoleteOptimization`. -/
def removeObsolete (obsolete : List Nat) (i : Instruction) (o : Operands) :
    Except Fault Visited :=
  match i with
  | .assign dest _ => return ⟨if dest ∈ obsolete then .noop else i, o, []⟩
  | .callAssert a arg =>
    if arg ∈ obsolete then return ⟨.noop, o, []⟩
    else return ⟨if ← a.passes (o.temp arg).toOperand then .noop else i, o, []⟩
  | i => return ⟨i, o, []⟩

/-! ## Liveness -/

/-- `VarLivenessOptimization::write`. -/
def Operand.write (count : Nat) (v : Operand) : Operand :=
  { v with
    liveStart := if v.liveStart = -1 ∨ (count : Int) < v.liveStart then count else v.liveStart
    liveEnd := if v.liveEnd = ⊤ then ((count : Int) : WithTop Int) else v.liveEnd }

/-- `VarLivenessOptimization::read`. -/
def Operand.read (count : Nat) (v : Operand) : Operand :=
  { v with
    liveStart := if v.liveStart = -1 ∨ (count : Int) < v.liveStart then count else v.liveStart
    liveEnd := ((count : Int) : WithTop Int) }

/-- A live interval that ends before `count` is made to end there. -/
def Operand.extend (count : Nat) (v : Operand) : Operand :=
  if v.liveEnd < ((count : Int) : WithTop Int) then
    { v with liveEnd := ((count : Int) : WithTop Int) }
  else v

/-- `adjust_live_ends`, from the position the label has in the bytecode on. -/
def adjustLiveEnds (code : List Instruction) (instno count : Nat) (o : Operands) : Operands :=
  ((code.take (count + 1)).drop instno).foldl
    (fun o i =>
      match i with
      | .assign _ (.var n) => o.modifyVar n (Var.modify (Operand.extend count))
      | _ => o) o

/-- `VarLivenessOptimization`. -/
def varLiveness (c : Compiler) (count : Nat) (i : Instruction) (o : Operands) : Operands :=
  match i with
  | .assign _ (.var n) => o.modifyVar n (Var.modify (Operand.read count))
  | .store (.var n) _ => o.modifyVar n (Var.modify (Operand.write count))
  | .jump l | .condJump _ l =>
    adjustLiveEnds c.instructions (c.bytecode.labelPosition l) count o
  | _ => o

/-- `DeadVariableAssignmentOptimization`. -/
def deadVariableAssignment (count : Nat) (i : Instruction) (o : Operands) : Visited :=
  match i with
  | .store (.var n) src =>
    if (o.var n).liveEnd ≤ ((count : Int) : WithTop Int) then ⟨.noop, o, [src]⟩ else ⟨i, o, []⟩
  | i => ⟨i, o, []⟩

/-- The temps an instruction reads, in the order in which they die. -/
def Instruction.reads : Instruction → List Nat
  | .assign .. | .forceLoad _ | .outputLabel _ | .jump _ | .shortJump _ | .noop => []
  | .store _ src => [src]
  | .binOp _ _ src1 src2 => [src1, src2]
  | .unOp _ _ src => [src]
  | .call closure args => args.reverse ++ [closure]
  | .allocClosure function refs => function :: refs
  | .ret val => [val]
  | .condJump cond _ => [cond]
  | .callHelper _ args => args
  | .callAssert _ arg => [arg]
  | .fork src _ _ => [src]

/-- The temps an instruction writes. -/
def Instruction.dests : Instruction → List Nat
  | .assign dest _ | .binOp _ dest _ _ | .unOp _ dest _ => [dest]
  | .fork _ dest1 dest2 => [dest1, dest2]
  | _ => []

/-- `TempLivenessOptimization::alive`. -/
def alive (count : Nat) (o : Operands) (t : Nat) : Operands :=
  o.modifyTemp t (Temp.modify fun t => { t with liveStart := count })

/-- `TempLivenessOptimization::dead`. -/
def dead (count : Nat) (o : Operands) (t : Nat) : Operands :=
  let o := o.modifyTemp t (Temp.modify fun t => { t with liveEnd := ((count : Int) : WithTop Int) })
  match (o.temp t).var? with
  | some n => o.modifyVar n (Var.modify (Operand.extend count))
  | none => o

/-- `TempLivenessOptimization`. -/
def tempLiveness (count : Nat) (i : Instruction) (o : Operands) : Operands :=
  i.dests.foldl (alive count) (i.reads.foldl (dead count) o)

/-- `DeadTempOptimization`; there are no aliases without an `Assign<Temp>`. -/
def deadTemp (i : Instruction) (o : Operands) : Visited :=
  ⟨i, o, i.dests.filter fun t => (o.temp t).liveEnd = ⊤⟩

/-! ## Short jumps -/

/-- `ShortJumpOptimization`. The distance is a difference of two `size_t`s, in which
`abs` has no sign to drop. -/
def shortJump (c : Compiler) (count : Nat) (i : Instruction) : Instruction :=
  match i with
  | .jump l =>
    if ((count : Int) - c.bytecode.labelPosition l) % 0x10000000000000000 ≤ 1 then .shortJump l
    else i
  | i => i

/-! ## The pipeline -/

inductive Pass where
  | loadParams
  | propagateTypes
  | constantFolding
  | typeSpecialization
  | removeObsolete
  | removeNoop
  | varLiveness
  | deadVariableAssignment
  | tempLiveness
  | deadTemp
  | shortJump
  | registerAllocation
deriving DecidableEq, Repr

/-- `OptimizingCompiler`. -/
structure OptimizingCompiler where
  compiler : Compiler
  obsolete : List Nat := []

/-- `LoadParamsOptimization`. -/
def Compiler.loadParams (c : Compiler) : Compiler :=
  let params := (List.range c.bytecode.parameterCount).filter (· ∈ c.vars)
  { c with
    operands := params.foldl
      (fun o n => o.modifyVar n (Var.modify fun v => { v with liveStart := 0 })) c.operands
    instructions := params.map .forceLoad ++ c.instructions }

/-- `RemoveNoopOptimization`. -/
def Compiler.removeNoop (c : Compiler) : Compiler :=
  { c with instructions := c.instructions.filter (· ≠ .noop) }

namespace OptimizingCompiler

/-- `optimize<T>()` for a pass that is a loop. -/
def optimize (visit : Nat → Instruction → Operands → Except Fault Visited)
    (oc : OptimizingCompiler) : Except Fault OptimizingCompiler := do
  let (code, o, obsolete) ← loop visit 0 oc.compiler.instructions oc.compiler.operands
  .ok ⟨{ oc.compiler with instructions := code, operands := o }, oc.obsolete ++ obsolete⟩

/-- A pass as `runAllPasses` runs it. -/
def run (oc : OptimizingCompiler) : Pass → Except Fault OptimizingCompiler
  | .loadParams => .ok { oc with compiler := oc.compiler.loadParams }
  | .propagateTypes => oc.optimize fun _ i o => .ok ⟨i, Ir.propagateTypes i o, []⟩
  | .constantFolding => oc.optimize fun _ i o => Ir.constantFolding i o
  | .typeSpecialization => oc.optimize fun _ i o => .ok (Ir.typeSpecialization i o)
  | .removeObsolete => do
    let oc ← oc.optimize fun _ i o => Ir.removeObsolete oc.obsolete i o
    .ok { oc with obsolete := [] }
  | .removeNoop => .ok { oc with compiler := oc.compiler.removeNoop }
  | .varLiveness => oc.optimize fun count i o => .ok ⟨i, Ir.varLiveness oc.compiler count i o, []⟩
  | .deadVariableAssignment => oc.optimize fun count i o =>
      .ok (Ir.deadVariableAssignment count i o)
  | .tempLiveness => oc.optimize fun count i o => .ok ⟨i, Ir.tempLiveness count i o, []⟩
  | .deadTemp => oc.optimize fun _ i o => .ok (Ir.deadTemp i o)
  | .shortJump => oc.optimize fun count i o => .ok ⟨Ir.shortJump oc.compiler count i, o, []⟩
  | .registerAllocation => do .ok { oc with compiler := ← oc.compiler.linearScanAllocate }

end OptimizingCompiler

/-- A round of `runAllPasses`. -/
def round : List Pass :=
  [.propagateTypes, .constantFolding, .typeSpecialization, .propagateTypes, .removeObsolete,
    .removeNoop, .varLiveness, .deadVariableAssignment, .removeObsolete, .tempLiveness, .deadTemp,
    .removeObsolete, .removeNoop]

/-- `runAllPasses`, with `NUM_PASSES` rounds. -/
def allPasses : List Pass :=
  .loadParams :: round ++ round ++ [.shortJump, .varLiveness, .tempLiveness, .registerAllocation]

/-- Where the compilation of `f` stands after the first `n` passes. -/
def Stands (shared : Operands) (f : Function) (n : Nat) (oc : OptimizingCompiler) : Prop :=
  ∃ c, Compiler.compile shared f = some c ∧
    (allPasses.take n).foldlM OptimizingCompiler.run ⟨c, []⟩ = .ok oc

/-- `OptimizingCompiler::compile`. -/
def OptimizingCompiler.compile (shared : Operands) (f : Function) (optimize : Bool) :
    Option (Except Fault OptimizingCompiler) :=
  (Compiler.compile shared f).map fun c =>
    if optimize then allPasses.foldlM OptimizingCompiler.run ⟨c, []⟩ else .ok ⟨c, []⟩

end Beaverc.Ir

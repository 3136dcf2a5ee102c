import Beaverc.Scanner
import Beaverc.Bytecode

/-!
# The bytecode compiler

`BC::Compiler`. The visitor's state is the `FunctionLinkedList` node of the
function being compiled and the process-wide label counter. The nodes of the
enclosing functions (`up`, innermost first) do not change while a nested
function is compiled, so they are an argument; the visitor's flag `storing` is
an argument of the left-hand-side visitor. The option that turns unresolved
names into compile errors is off.
-/

namespace Beaverc
open Tables

/-- `FunctionLinkedList` without its link to the enclosing node. -/
structure Node where
  function : Function := {}
  freeReferenceVars : List String := []
  globals : List String := []
  storing : String := ""
  returned : Bool := false

/-- The node in hand and the static counter of `reserveLabel`. -/
structure State where
  node : Node
  labelNum : Nat

namespace State

def modifyNode (f : Node → Node) (s : State) : State :=
  { s with node := f s.node }

def modifyFunction (f : Function → Function) (s : State) : State :=
  s.modifyNode fun n => { n with function := f n.function }

def count (s : State) : Nat :=
  s.node.function.instructions.length

def output (i : Instruction) (s : State) : State :=
  s.modifyFunction fun f => { f with instructions := f.instructions ++ [i] }

def loadConst (c : Constant) (s : State) : State :=
  let i := insertIndex s.node.function.constants c
  (s.modifyFunction fun f => { f with constants := insert f.constants c }).output (.loadConst i)

def outputReturn (s : State) : State :=
  (s.output .ret).modifyNode fun n => { n with returned := true }

def outputLabel (label : Nat) (s : State) : State :=
  (s.modifyFunction fun f => { f with labels := (label, s.count) :: f.labels }).output
    (.label label)

/-- `insert(current().names_, x)`; the index is `nameIndex x` of the old state. -/
def insertName (x : String) (s : State) : State :=
  s.modifyFunction fun f => { f with names := insert f.names x }

def nameIndex (x : String) (s : State) : Nat :=
  insertIndex s.node.function.names x

end State

/-- `Builtins`, in the order in which they get the function indices -1, -2, -3. -/
def builtins : List String := ["print", "input", "intcast"]

/-- `visit(Name&)`; `isGlobal` says that the top-level function is compiled. -/
def visitName (isGlobal storing : Bool) (x : String) (s : State) : State :=
  let f := s.node.function
  if x ∈ s.node.globals then
    let i := (index f.names x).getD 0
    s.output (if storing then .storeGlobal i else .loadGlobal i)
  else match index f.freeVars x with
  | some i =>
    let i := f.localReferenceVars.length + i
    s.output (if storing then .storeReference i else .loadReference i)
  | none =>
    match index f.localReferenceVars x with
    | some i => s.output (if storing then .storeReference i else .loadReference i)
    | none =>
      match index f.localVars x with
      | some i => s.output (if storing then .storeLocal i else .loadLocal i)
      | none =>
        let i := s.nameIndex x
        let s := s.insertName x
        if storing && isGlobal then
          (s.modifyNode fun n => { n with globals := insert n.globals x }).output (.storeGlobal i)
        else
          (s.output (if storing then .pop else .loadConst 0)).output (.throwUninitialized i)

/-- `CompilerDependenciesScanner`: a name that no table of the function holds
is looked up in the `globals` of the enclosing nodes, and then compared with
the name the top-level code is about to store. -/
def dependenciesScanner (up : List Node) : Scanner Node where
  visitName := fun _ x n =>
    if x ∈ n.function.freeVars ∨ x ∈ n.function.localVars ∨ x ∈ n.function.names then n
    else if (∃ node ∈ up, x ∈ node.globals) ∨ (up.getLast?.any fun root => root.storing = x) then
      { n with globals := insert n.globals x
               function := { n.function with names := insert n.function.names x } }
    else n
  enterFunction := none

/-- The captures of a function literal: what `localRef0sScanner` and
`freeRef0sScanner` find against the enclosing node. -/
def localRef0s (parent : Node) (body : Block) : List String :=
  getOuterRefs parent.function.localReferenceVars (getLocals (getGlobals body) body)
    (getGlobals body) body

def freeRef0s (parent : Node) (body : Block) : List String :=
  getOuterRefs parent.freeReferenceVars (getLocals (getGlobals body) body) (getGlobals body) body

/-- The tables of a new function, filled before its body is transpiled. -/
def enterFunction (parent : Node) (up : List Node) (arguments : List String) (body : Block) :
    Node :=
  let globals := getGlobals body
  let localVars := insertAll (insertAll [] arguments) (getLocals globals body)
  let freeVars := insertAll (insertAll [] (localRef0s parent body)) (freeRef0s parent body)
  let node : Node :=
    { function :=
        { parameterCount := arguments.length
          localVars := localVars
          localReferenceVars := insertAll [] (getInnerRefs localVars body)
          freeVars := freeVars
          names := insertAll [] globals }
      freeReferenceVars := insertAll [] (getInnerRefs freeVars body)
      globals := insertAll [] globals }
  body.scan (dependenciesScanner (parent :: up)) node

/-- `arg_mapping`: the box of a parameter, or -1 for one that is a plain local. The
source reads `local_vars_` once for each parameter. Where a repeated name leaves fewer
variables than parameters, that goes beyond the end, which is undefined behaviour: the
mapping ends there, and a call of the function, which reads the rest, is undefined. -/
def argMappingOf (f : Function) : List Int :=
  (f.localVars.take f.parameterCount).map fun x =>
    match index f.localReferenceVars x with
    | some k => (k : Int)
    | none => -1

/-- The boxes a closure captures, in the order `AllocClosure` pops them, as
indices into the boxes of the enclosing function. -/
def captures (parent : Node) (body : Block) : List Nat :=
  let f := parent.function
  (localRef0s parent body).map (fun x => (index f.localReferenceVars x).getD 0) ++
    (freeRef0s parent body).map (fun x => f.localReferenceVars.length + (index f.freeVars x).getD 0)

/-- What is left of `visit(AST::Function&)` once the body is transpiled: the
new function is closed, the references are pushed backwards, and the closure
is allocated. -/
def leaveFunction (body : Block) (inner : State) (s : State) : State :=
  let f := inner.node.function
  let f := { f with argMapping := argMappingOf f }
  let s := { s with labelNum := inner.labelNum }
  let s := s.modifyFunction fun g => { g with functions := g.functions ++ [f] }
  let refs := captures s.node body
  let s := refs.reverse.foldl (fun s i => s.output (.pushReference i)) s
  let s := s.output (.loadFunc (s.node.function.functions.length - 1 : Nat))
  s.output (.allocClosure refs.length)

/-- The operation a binary operator ends with, and whether its operands are
transpiled right to left. -/
def BinOpSym.operation : BinOpSym → Instruction × Bool
  | .or => (.or, false)
  | .and => (.and, false)
  | .lt => (.gt, true)
  | .lte => (.geq, true)
  | .gt => (.gt, false)
  | .gte => (.geq, false)
  | .eq => (.eq, false)
  | .plus => (.add, false)
  | .minus => (.sub, false)
  | .mul => (.mul, false)
  | .div => (.div, false)

def UnOpSym.operation : UnOpSym → Instruction
  | .not => .not
  | .neg => .neg

mutual
def LHS.transpile (up : List Node) (storing : Bool) : LHS → State → State
  | .name x, s => visitName up.isEmpty storing x s
  | .index base idx, s =>
    if storing then
      let s := (base.transpile up false s).output .swap
      let s := (idx.transpile up s).output .swap
      s.output .indexStore
    else
      (idx.transpile up (base.transpile up false s)).output .indexLoad
  | .field base field, s =>
    let i := s.nameIndex field
    let s := base.transpile up false (s.insertName field)
    if storing then (s.output .swap).output (.fieldStore i) else s.output (.fieldLoad i)

def Expression.transpile (up : List Node) : Expression → State → State
  | .lhs l, s => l.transpile up false s
  | .call target arguments, s =>
    (target.transpile up false (arguments.transpile up s)).output (.call arguments.size)
  | .function arguments body, s =>
    let entered := enterFunction s.node up arguments body
    let inner := body.transpile (s.node :: up) ⟨entered, s.labelNum⟩
    leaveFunction body (inner.loadConst .none).outputReturn s
  | .record fields, s => fields.transpile up (s.output .allocRecord)
  | .boolConst b, s => s.loadConst (.boolean b)
  | .strConst v, s => s.loadConst (.string v)
  | .intConst i, s => s.loadConst (.integer i)
  | .nullConst, s => s.loadConst .none
  | .binaryOp op left right, s =>
    let s :=
      if op.operation.2 then left.transpile up (right.transpile up s)
      else right.transpile up (left.transpile up s)
    s.output op.operation.1
  | .unaryOp op expr, s => (expr.transpile up s).output op.operation

def Arguments.transpile (up : List Node) : Arguments → State → State
  | .nil, s => s
  | .cons head tail, s => tail.transpile up (head.transpile up s)

def Fields.transpile (up : List Node) : Fields → State → State
  | .nil, s => s
  | .cons key value tail, s =>
    let s := value.transpile up (s.output .dup)
    tail.transpile up ((s.insertName key).output (.fieldStore (s.nameIndex key)))

def Statement.transpile (up : List Node) : Statement → State → State
  | .assignment lhs expr, s =>
    let s := match lhs with
      | .name x => s.modifyNode fun n => { n with storing := x }
      | _ => s
    lhs.transpile up true (expr.transpile up s)
  | .callStatement target arguments, s =>
    let s := (target.transpile up false (arguments.transpile up s)).output (.call arguments.size)
    (s.output .pop).output .garbageCollect
  | .global _, s => s
  | .ifStatement cond thenBlock elseBlock, s =>
    let thenLabel := s.labelNum
    let elseLabel := s.labelNum + 1
    let skipElseLabel := s.labelNum + 2
    let s := cond.transpile up { s with labelNum := s.labelNum + 3 }
    let s := (s.output (.ifTrue thenLabel)).output (.goto elseLabel)
    let s := thenBlock.transpile up (s.outputLabel thenLabel)
    let s := (s.output (.goto skipElseLabel)).outputLabel elseLabel
    (elseBlock.transpile up s).outputLabel skipElseLabel
  | .whileLoop cond body, s =>
    let loopStartLabel := s.labelNum
    let bodyLabel := s.labelNum + 1
    let skipBodyLabel := s.labelNum + 2
    let s := { s with labelNum := s.labelNum + 3 }
    let s := cond.transpile up ((s.outputLabel loopStartLabel).output .garbageCollect)
    let s := (s.output (.ifTrue bodyLabel)).output (.goto skipBodyLabel)
    let s := body.transpile up (s.outputLabel bodyLabel)
    (s.output (.goto loopStartLabel)).outputLabel skipBodyLabel
  | .ret expr, s => (expr.transpile up s).outputReturn

def Block.transpile (up : List Node) : Block → State → State
  | .nil, s => s
  | .cons head tail, s => tail.transpile up (head.transpile up s)
end

/-- `addNativeFunction` for native function number `n` (counted from 1). -/
def addNativeFunction (s : State) (name : String) (n : Nat) : State :=
  let s := s.output (.loadFunc (-(n : Int)))
  let s := s.modifyNode fun node => { node with globals := insert node.globals name }
  (s.insertName name).output (.storeGlobal (s.nameIndex name))

/-- The state after the constructor `Compiler()`. -/
def initialState : State :=
  builtins.zipIdx.foldl (fun s b => addNativeFunction s b.1 (b.2 + 1)) ⟨{}, 0⟩

/-- `visit(Program&)`. -/
def visitProgram (prog : Program) : State :=
  let s := prog.transpile [] initialState
  if s.node.returned then s else (s.loadConst (.integer 0)).outputReturn

/-- The main function the compiler produces for a program. -/
def compile (prog : Program) : Function :=
  (visitProgram prog).node.function

end Beaverc

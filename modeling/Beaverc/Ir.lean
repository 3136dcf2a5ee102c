import Mathlib.Data.Int.Order.Basic
import Mathlib.Order.WithBot
import Beaverc.Base.Tables
import Beaverc.World

/-!
# The intermediate representation

`IR::Operand` with its hints, `IR::Instruction`, and `IR::Compiler`, which turns
the stack code of a function into instructions on numbered temps. Temps,
variables, references and globals are named by their numbers; what the code
keeps in the operand objects (`type_hint`, `src_val`, the live interval, the
register) is in a table of `Operands`.
-/

namespace Beaverc.Ir

/-! ## Operands -/

/-- The order on positions in the code, where `⊤` is `INT_MAX`. -/
instance positionOrder : LinearOrder (WithTop Int) :=
  @WithTop.linearOrder Int Int.instLinearOrder

instance positionLT : LT (WithTop Int) :=
  (@WithTop.linearOrder Int Int.instLinearOrder).toLT

instance positionLE : LE (WithTop Int) :=
  (@WithTop.linearOrder Int Int.instLinearOrder).toLE

/-- The bits of `type_hint`. -/
structure Hint where
  constSrc : Bool := false
  varSrc : Bool := false
  int : Bool := false
  bool : Bool := false
  string : Bool := false
  none : Bool := false
deriving DecidableEq, Repr

namespace Hint

/-- `|=`. -/
def union (h k : Hint) : Hint :=
  ⟨h.constSrc || k.constSrc, h.varSrc || k.varSrc, h.int || k.int, h.bool || k.bool,
    h.string || k.string, h.none || k.none⟩

/-- `& ~SRC_HINT_MASK`. -/
def types (h : Hint) : Hint :=
  { h with constSrc := false, varSrc := false }

def isInt (h : Hint) : Bool :=
  h.types = { int := true }

def isBool (h : Hint) : Bool :=
  h.types = { bool := true }

def isString (h : Hint) : Bool :=
  h.types = { string := true }

/-- `hasHint()`. -/
def any (h : Hint) : Bool :=
  h ≠ {}

end Hint

/-- `src_val`: the number of a variable, or the word of a constant. -/
inductive SrcVal where
  | number (n : Nat)
  | value (v : Value)
deriving DecidableEq, Repr

/-- The registers of `reg_pool`. -/
inductive Reg where
  | r8 | r9 | r10 | r11 | r12 | r13 | r14 | r15
deriving DecidableEq, Repr

/-- `Operand`. The `live_end` that has not been set, `INT_MAX`, is `⊤`. -/
structure Operand where
  liveStart : Int := -1
  liveEnd : WithTop Int := ⊤
  typeHint : Hint := {}
  srcVal : SrcVal := .number 0
  reg : Option Reg := none
deriving DecidableEq

namespace Operand

def hintVar (num : Nat) (o : Operand) : Operand :=
  { o with srcVal := .number num, typeHint := { o.typeHint with varSrc := true } }

def hintConst (v : Value) (o : Operand) : Operand :=
  { o with srcVal := .value v, typeHint := { o.typeHint with constSrc := true } }

def hintInt (o : Operand) : Operand :=
  { o with typeHint := { o.typeHint with int := true } }

def hintBool (o : Operand) : Operand :=
  { o with typeHint := { o.typeHint with bool := true } }

/-- `Operand::transferHint`. -/
def transferHint (src o : Operand) : Operand :=
  { o with typeHint := o.typeHint.union src.typeHint.types }

end Operand

/-- `Temp`, without its number. -/
structure Temp extends Operand where
  sharedReg : Bool := false
deriving DecidableEq

/-- `Temp::transferHint`. -/
def Temp.transferHint (src : Operand) (t : Temp) : Temp :=
  { t with srcVal := src.srcVal, typeHint := src.typeHint }

def Temp.modify (f : Operand → Operand) (t : Temp) : Temp :=
  { t with toOperand := f t.toOperand }

/-- `Var`, without its number. -/
structure Var extends Operand where
  lastReg : Option Reg := none
deriving DecidableEq

def Var.modify (f : Operand → Operand) (v : Var) : Var :=
  { v with toOperand := f v.toOperand }

/-- `Var(num)`. -/
def Var.new (num : Nat) : Var :=
  { toOperand := Operand.hintVar num {} }

/-- The hints a `Const` gets from its value. -/
def constHint : Value → Hint
  | .integer _ => { int := true }
  | .stringConstant _ | .stringValue _ => { string := true }
  | .boolean _ => { bool := true }
  | .none => { none := true }
  | .pointer _ => {}

/-- `Const(value)`. -/
def Const.new (v : Value) : Operand :=
  Operand.hintConst v { typeHint := constHint v }

/-- The operand objects of a compiler by their numbers. The tables of `Deref`
and `Glob` are shared by all compilers of the process. -/
structure Operands where
  temp : Nat → Temp
  var : Nat → Var
  deref : Nat → Operand
  glob : Nat → Operand

namespace Operands

/-- The operands of a process that has compiled nothing. -/
def fresh : Operands :=
  ⟨fun _ => {}, Var.new, fun _ => {}, fun _ => {}⟩

def modifyTemp (n : Nat) (f : Temp → Temp) (o : Operands) : Operands :=
  { o with temp := Function.update o.temp n (f (o.temp n)) }

def modifyVar (n : Nat) (f : Var → Var) (o : Operands) : Operands :=
  { o with var := Function.update o.var n (f (o.var n)) }

def modifyDeref (n : Nat) (f : Operand → Operand) (o : Operands) : Operands :=
  { o with deref := Function.update o.deref n (f (o.deref n)) }

def modifyGlob (n : Nat) (f : Operand → Operand) (o : Operands) : Operands :=
  { o with glob := Function.update o.glob n (f (o.glob n)) }

end Operands

/-! ## Instructions -/

/-- What an `Assign` reads. `Assign<Temp>` is left out: only `CopyOptimization`
makes one, and it is not run. -/
inductive Source where
  | var (num : Nat)
  | const (value : Value)
  | retVal
  | ref (num : Nat)
  | deref (num : Nat)
  | glob (num : Nat)
  | function (num : Int)
deriving DecidableEq, Repr

/-- What a `Store` writes. -/
inductive Target where
  | var (num : Nat)
  | deref (num : Nat)
  | glob (num : Nat)
deriving DecidableEq, Repr

/-- The subclasses of `BinOp`. -/
inductive BinOp where
  | add | intAdd | sub | mul | div | gt | geq | eq | fastEq | and | or
deriving DecidableEq, Repr

/-- The subclasses of `UnOp`. -/
inductive UnOp where
  | neg | not
deriving DecidableEq, Repr

/-- `Helper` with the number some of them take. -/
inductive Helper where
  | garbageCollect
  | allocRecord
  | fieldLoad (i : Nat)
  | fieldStore (i : Nat)
  | indexLoad
  | indexStore
  | throwUninitialized (i : Nat)
deriving DecidableEq, Repr

/-- `Assert`. -/
inductive Assert where
  | int
  | notZero
  | bool
deriving DecidableEq, Repr

/-- `IR::Instruction`. -/
inductive Instruction where
  | assign (dest : Nat) (src : Source)
  | forceLoad (src : Nat)
  | store (dest : Target) (src : Nat)
  | binOp (op : BinOp) (dest src1 src2 : Nat)
  | unOp (op : UnOp) (dest src : Nat)
  | call (closure : Nat) (args : List Nat)
  | allocClosure (function : Nat) (refs : List Nat)
  | ret (val : Nat)
  | outputLabel (label : Nat)
  | jump (label : Nat)
  | shortJump (label : Nat)
  | condJump (cond label : Nat)
  | callHelper (helper : Helper) (args : List Nat)
  | callAssert (assert : Assert) (arg : Nat)
  | noop
  | fork (src dest1 dest2 : Nat)
deriving DecidableEq, Repr

/-- The operand object an `Assign` takes its hints from. -/
def Source.operand (o : Operands) : Source → Operand
  | .var n => (o.var n).toOperand
  | .const v => Const.new v
  | .deref n => o.deref n
  | .glob n => o.glob n
  | .retVal | .ref _ | .function _ => {}

/-- `dest->transferHint(src)` for the destination of a `Store`. -/
def Target.transferHint (src : Nat) (o : Operands) : Target → Operands
  | .var n => o.modifyVar n fun v => v.modify (Operand.transferHint (o.temp src).toOperand)
  | .deref n => o.modifyDeref n (Operand.transferHint (o.temp src).toOperand)
  | .glob n => o.modifyGlob n (Operand.transferHint (o.temp src).toOperand)

/-- What the constructor of a binary operation hints about its destination. -/
def BinOp.hint : BinOp → Operand → Operand
  | .add => id
  | .intAdd | .sub | .mul | .div => Operand.hintInt
  | .gt | .geq | .eq | .fastEq | .and | .or => Operand.hintBool

def UnOp.hint : UnOp → Operand → Operand
  | .neg => Operand.hintInt
  | .not => Operand.hintBool

/-- The hints an instruction gives when it is constructed. -/
def Instruction.construct (o : Operands) : Instruction → Operands
  | .assign dest src => o.modifyTemp dest (Temp.transferHint (src.operand o))
  | .store dest src => dest.transferHint src o
  | .binOp op dest _ _ => o.modifyTemp dest (Temp.modify op.hint)
  | .unOp op dest _ => o.modifyTemp dest (Temp.modify op.hint)
  | .fork src dest1 dest2 =>
    let o := o.modifyTemp dest1 (Temp.transferHint (o.temp src).toOperand)
    o.modifyTemp dest2 (Temp.transferHint (o.temp src).toOperand)
  | _ => o

/-! ## The compiler -/

/-- What one bytecode instruction adds: the instructions, the operand stack
after it and the number of temps. -/
structure Emission where
  code : List Instruction
  stack : List Nat
  temps : Nat
deriving DecidableEq, Repr

/-- `assign(t)`: a new temp on the stack. -/
def assign (src : Source) (stack : List Nat) (n : Nat) : Option Emission :=
  some ⟨[.assign n src], n :: stack, n + 1⟩

def store (dest : Target) (stack : List Nat) (n : Nat) : Option Emission :=
  match stack with
  | t :: rest => some ⟨[.store dest t], rest, n⟩
  | [] => none

/-- `helper_binop`. -/
def helperBinop (op : BinOp) (a : Assert) (stack : List Nat) (n : Nat) : Option Emission :=
  match stack with
  | arg1 :: arg2 :: rest =>
    some ⟨[.callAssert a arg1, .callAssert a arg2, .binOp op n arg1 arg2], n :: rest, n + 1⟩
  | _ => none

/-- `helper_unop`. -/
def helperUnop (op : UnOp) (a : Assert) (stack : List Nat) (n : Nat) : Option Emission :=
  match stack with
  | arg :: rest => some ⟨[.callAssert a arg, .unOp op n arg], n :: rest, n + 1⟩
  | [] => none

/-- Instructions that leave their result in `RetVal`, and its assignment. -/
def withResult (i : Instruction) (rest : List Nat) (n : Nat) : Option Emission :=
  some ⟨[i, .assign n .retVal], n :: rest, n + 1⟩

/-- A case of the switch of `compile`; `none` when it would pop an empty stack
or read outside `constants_`. -/
def translate (func : Function) (i : Beaverc.Instruction) (stack : List Nat) (n : Nat) :
    Option Emission :=
  match i, stack with
  | .call k, closure :: rest =>
    if k ≤ rest.length then withResult (.call closure (rest.take k).reverse) (rest.drop k) n
    else none
  | .loadReference k, _ => assign (.deref k) stack n
  | .pushReference k, _ => assign (.ref k) stack n
  | .loadFunc k, _ => assign (.function k) stack n
  | .loadGlobal k, _ => assign (.glob k) stack n
  | .loadLocal k, _ => assign (.var k) stack n
  | .loadConst k, _ => do assign (.const (constantToValue (← func.constants[k]?))) stack n
  | .storeReference k, _ => store (.deref k) stack n
  | .storeLocal k, _ => store (.var k) stack n
  | .storeGlobal k, _ => store (.glob k) stack n
  | .eq, arg1 :: arg2 :: rest => some ⟨[.binOp .eq n arg2 arg1], n :: rest, n + 1⟩
  | .add, arg1 :: arg2 :: rest => some ⟨[.binOp .add n arg2 arg1], n :: rest, n + 1⟩
  | .sub, _ => helperBinop .sub .int stack n
  | .mul, _ => helperBinop .mul .int stack n
  | .div, arg1 :: arg2 :: rest =>
    some ⟨[.callAssert .int arg1, .callAssert .int arg2, .callAssert .notZero arg1,
      .binOp .div n arg2 arg1], n :: rest, n + 1⟩
  | .gt, _ => helperBinop .gt .int stack n
  | .geq, _ => helperBinop .geq .int stack n
  | .and, _ => helperBinop .and .bool stack n
  | .or, _ => helperBinop .or .bool stack n
  | .neg, _ => helperUnop .neg .int stack n
  | .not, _ => helperUnop .not .bool stack n
  | .ret, val :: rest => some ⟨[.ret val], rest, n⟩
  | .garbageCollect, _ => some ⟨[.callHelper .garbageCollect []], stack, n⟩
  | .allocRecord, _ => withResult (.callHelper .allocRecord []) stack n
  | .fieldLoad k, record :: rest => withResult (.callHelper (.fieldLoad k) [record]) rest n
  | .fieldStore k, value :: record :: rest =>
    some ⟨[.callHelper (.fieldStore k) [record, value]], rest, n⟩
  | .indexLoad, index :: record :: rest =>
    withResult (.callHelper .indexLoad [record, index]) rest n
  | .indexStore, value :: index :: record :: rest =>
    some ⟨[.callHelper .indexStore [record, index, value]], rest, n⟩
  | .allocClosure k, function :: rest =>
    if k ≤ rest.length then withResult (.allocClosure function (rest.take k)) (rest.drop k) n
    else none
  | .label l, _ => some ⟨[.outputLabel l], stack, n⟩
  | .goto l, _ => some ⟨[.jump l], stack, n⟩
  | .ifTrue l, cond :: rest => some ⟨[.callAssert .bool cond, .condJump cond l], rest, n⟩
  | .dup, src :: rest => some ⟨[.fork src n (n + 1)], (n + 1) :: n :: rest, n + 2⟩
  | .swap, t1 :: t2 :: rest => some ⟨[], t2 :: t1 :: rest, n⟩
  | .pop, _ :: rest => some ⟨[], rest, n⟩
  | .throwUninitialized k, _ => some ⟨[.callHelper (.throwUninitialized k) []], stack, n⟩
  | _, _ => none

/-- `IR::Compiler`. `vars` holds the numbers of the variables that have an
operand object, in the order of the map. -/
structure Compiler where
  bytecode : Function
  stack : List Nat := []
  temps : Nat := 0
  vars : List Nat := []
  operands : Operands
  instructions : List Instruction := []

/-- The variable a bytecode instruction makes an operand object for. -/
def localOperand : Beaverc.Instruction → Option Nat
  | .loadLocal k | .storeLocal k => some k
  | _ => none

/-- The hints a bytecode instruction gives once its instructions are there. -/
def hintLoaded (i : Beaverc.Instruction) (n : Nat) (o : Operands) : Operands :=
  match i with
  | .loadLocal k => o.modifyTemp n (Temp.modify (Operand.hintVar k))
  | _ => o

namespace Compiler

/-- One round of the loop of `compile`. -/
def step (c : Compiler) (i : Beaverc.Instruction) : Option Compiler := do
  let e ← translate c.bytecode i c.stack c.temps
  return { c with
    stack := e.stack
    temps := e.temps
    vars := (localOperand i).elim c.vars fun k => Tables.setInsert (· ≤ ·) k c.vars
    operands := hintLoaded i c.temps (e.code.foldl Instruction.construct c.operands)
    instructions := c.instructions ++ e.code }

/-- The compiler before its first instruction; `shared` are the hints the
process-wide operands have by then. -/
def new (shared : Operands) (f : Function) : Compiler :=
  { bytecode := f, operands := { shared with temp := fun _ => {}, var := Var.new } }

/-- `compile(func)`. -/
def compile (shared : Operands) (f : Function) : Option Compiler :=
  f.instructions.foldlM step (new shared f)

end Compiler

end Beaverc.Ir

import Mathlib.Logic.Function.Basic
import Beaverc.Ast
import Beaverc.Base.Evaluations

/-!
# The AST interpreter

`BasicInterpreter` (`interpreter/Interpreter.cpp`, `Heap.h`, `Stack.h`,
`Value.h`, `FunctionScanner.cpp`). A `Value*` is an optional value, so that a null
pointer can be met wherever the source can meet one. Frames and records live at
numbers; the number of a frame is its identity. A node of the tree is known by its
position, the edges from the root with the last one first, which also stands for
the address of the block of a function.

`exec` is `Interpreter::exec`: its argument `asval` is the top of `asvals`, its
result is `retval`. The visitors take it as a parameter. It records an
`Evaluations.CallTree` of the nodes it visits. The first argument bounds the depth of
the recursion and the number of rounds of a loop.
-/

namespace Beaverc.BasicInterpreter
open Evaluations

/-! ## Values -/

abbrev FrameId := Nat
abbrev RecordId := Nat

/-- From a node of the tree to one of its parts. -/
inductive Edge where
  | target
  | argument (i : Nat)
  | field (i : Nat)
  | left
  | right
  | operand
  | base
  | index
  | value
  | destination
  | cond
  | thenBlock
  | elseBlock
  | loopBody
  | statement (i : Nat)
  | call
  | code
deriving DecidableEq

abbrev Position := List Edge

inductive Native where
  | print
  | input
  | intcast
deriving DecidableEq

/-- `FunctionValue` and its subclass `NativeFunction`. -/
inductive FunctionValue where
  | closure (frame : FrameId) (code : Position) (body : Block) (arguments : List String)
  | native (f : Native)

inductive Value where
  | none
  | boolean (b : Bool)
  | integer (i : Int)
  | string (s : String)
  | function (f : FunctionValue)
  | record (r : RecordId)

/-- `Value*`. -/
abbrev Pointer := Option Value

def Native.arguments : Native → List String
  | .print | .intcast => ["s"]
  | .input => []

def FunctionValue.arguments : FunctionValue → List String
  | .closure _ _ _ arguments => arguments
  | .native f => f.arguments

namespace Value

def boolean? : Value → Option Bool
  | .boolean b => some b
  | _ => Option.none

def integer? : Value → Option Int
  | .integer i => some i
  | _ => Option.none

def string? : Value → Option String
  | .string s => some s
  | _ => Option.none

def function? : Value → Option FunctionValue
  | .function f => some f
  | _ => Option.none

def record? : Value → Option RecordId
  | .record r => some r
  | _ => Option.none

/-- `equals`. All native functions share one frame and one block. -/
def equals : Value → Pointer → Bool
  | .none, some .none => true
  | .boolean b, some (.boolean c) => b == c
  | .integer i, some (.integer j) => i == j
  | .string s, some (.string t) => s == t
  | .function (.closure f c _ _), some (.function (.closure g d _ _)) => f == g && c == d
  | .function (.native _), some (.function (.native _)) => true
  | .record r, some (.record q) => r == q
  | _, _ => false

end Value

/-- The subclasses of `InterpreterException`. -/
inductive Exception where
  | uninitializedVariable
  | illegalCast
  | illegalArithmetic
  | runtime
deriving DecidableEq

/-- How a run stops before its end: an exception of the interpreter; the
`out_of_range` of `stoi`; a call through a null pointer; an operation of the
machine without a result; more recursion than the bound allows. -/
inductive Stop where
  | raised (exception : Exception) (message : String)
  | outOfRange
  | nullPointer
  | undefined
  | endless
deriving DecidableEq

/-! ## Frames -/

/-- `StackFrame`. `ancestors` is the chain of `parent` pointers, nearest first. -/
structure StackFrame where
  ret : Pointer := none
  vars : String → Option Pointer := fun _ => none
  ancestors : List FrameId := []
  globals : List String := []

namespace StackFrame

def update (var : String) (val : Pointer) (frame : StackFrame) : StackFrame :=
  { frame with vars := Function.update frame.vars var (some val) }

def initializeVar (var : String) (frame : StackFrame) : StackFrame :=
  frame.update var (some .none)

def contains (var : String) (frame : StackFrame) : Bool :=
  (frame.vars var).isSome

def read (var : String) (frame : StackFrame) : Pointer :=
  if frame.contains var then (frame.vars var).getD none else none

def setReturn (ret : Pointer) (frame : StackFrame) : StackFrame :=
  { frame with ret }

def returned (frame : StackFrame) : Bool :=
  frame.ret.isSome

end StackFrame

mutual
/-- `FunctionScanner`. -/
def scanStatement : Statement → StackFrame → StackFrame
  | .assignment (.name x) _, frame => frame.initializeVar x
  | .assignment _ _, frame | .callStatement _ _, frame | .ret _, frame => frame
  | .global x, frame => { frame with globals := x :: frame.globals }
  | .ifStatement _ thenBlock elseBlock, frame => scanBlock elseBlock (scanBlock thenBlock frame)
  | .whileLoop _ body, frame => scanBlock body frame

def scanBlock : Block → StackFrame → StackFrame
  | .nil, frame => frame
  | .cons head tail, frame => scanBlock tail (scanStatement head frame)
end

/-- The `Heap`, the records and the streams. The frame `0` is `heap.global`. -/
structure State where
  frames : FrameId → StackFrame
  nextFrame : FrameId
  stack : List FrameId
  records : RecordId → List (String × Pointer)
  nextRecord : RecordId
  input : List String
  output : List String

namespace State

/-- `heap.current()`. -/
def current (s : State) : FrameId :=
  s.stack.headD 0

def onFrame (f : FrameId) (g : StackFrame → StackFrame) (s : State) : State :=
  { s with frames := Function.update s.frames f (g (s.frames f)) }

/-- `heap.current()->returned()`. -/
def returned (s : State) : Bool :=
  (s.frames s.current).returned

def updateVar (var : String) (val : Pointer) (s : State) : State :=
  if var ∈ (s.frames s.current).globals then s.onFrame 0 (StackFrame.update var val)
  else s.onFrame s.current (StackFrame.update var val)

/-- The frame at which the loop of `ReadVar` stops. -/
def designated (var : String) (s : State) : Option FrameId :=
  (s.current :: (s.frames s.current).ancestors).find? fun f =>
    var ∈ (s.frames f).globals || (s.frames f).contains var

/-- `ReadVar`. -/
def readVar (var : String) (s : State) : Except Stop Pointer :=
  match s.designated var with
  | some f =>
    if var ∈ (s.frames f).globals then .ok ((s.frames 0).read var) else .ok ((s.frames f).read var)
  | none => .error (.raised .uninitializedVariable var)

/-- `RecordValue::Update`. -/
def updateField (r : RecordId) (key : String) (val : Pointer) (s : State) : State :=
  let rec insert : List (String × Pointer) → List (String × Pointer)
    | [] => [(key, val)]
    | p :: rest => if p.1 = key then (key, val) :: rest else p :: insert rest
  { s with records := Function.update s.records r (insert (s.records r)) }

/-- `RecordValue::Read`. -/
def readField (r : RecordId) (key : String) (s : State) : Pointer :=
  match (s.records r).lookup key with
  | some val => val
  | none => some .none

/-- `toString()`, to a bounded depth. -/
def toStringDepth (s : State) : Nat → Pointer → Except Stop String
  | 0, _ => .error .endless
  | _, none => .error .nullPointer
  | _, some .none => .ok "None"
  | _, some (.boolean b) => .ok (if b then "True" else "False")
  | _, some (.integer i) => .ok (toString i)
  | _, some (.string t) => .ok t
  | _, some (.function _) => .ok "FUNCTION"
  | depth + 1, some (.record r) => do
    let fields ← (s.records r).mapM fun p => do
      let t ← s.toStringDepth depth p.2
      .ok (p.1 ++ ":" ++ t ++ " ")
    .ok ("\x7b" ++ String.join fields ++ "\x7d")

/-- `toString()`. A path through more records than there are repeats one. -/
def toText (s : State) (p : Pointer) : Except Stop String :=
  s.toStringDepth (s.nextRecord + 1) p

end State

/-! ### What the updates change -/

theorem StackFrame.vars_update (frame : StackFrame) (var : String) (val : Pointer) (x : String) :
    (frame.update var val).vars x = if x = var then some val else frame.vars x := by
  rw [StackFrame.update]
  exact Function.update_apply ..

theorem State.frames_onFrame (s : State) (f : FrameId) (g : StackFrame → StackFrame)
    (f' : FrameId) :
    (s.onFrame f g).frames f' = if f' = f then g (s.frames f) else s.frames f' := by
  rw [State.onFrame]
  exact Function.update_apply ..

theorem State.records_updateField (s : State) (r : RecordId) (key : String) (val : Pointer)
    (r' : RecordId) : (s.updateField r key val).records r' =
      if r' = r then State.updateField.insert key val (s.records r) else s.records r' := by
  rw [State.updateField]
  exact Function.update_apply ..

/-! ## Visits -/

inductive Node where
  | expression (e : Expression)
  | lhs (l : LHS)
  | statement (s : Statement)
  | block (b : Block)

/-- An `LHS` is an expression. -/
def nodeOf : Expression → Node
  | .lhs l => .lhs l
  | e => .expression e

def Node.isExpression : Node → Bool
  | .expression _ | .lhs _ => true
  | _ => false

theorem isExpression_nodeOf (e : Expression) : (nodeOf e).isExpression = true := by
  cases e <;> rfl

/-- One `accept` of a node. -/
structure Visit where
  before : State
  position : Position
  node : Node
  asval : Pointer
  outcome : Except Stop Pointer

/-- What a run shows: the visits, the returns and the ends of calls. -/
inductive Event where
  | visit (v : Visit)
  | returned (frame : FrameId) (position : Position) (val : Pointer)
  | left (frame : FrameId) (val : Pointer)

abbrev M := Eval State Stop Event

/-- The type of `exec`. -/
abbrev Exec := Node → Position → Pointer → M Pointer

def lift {α : Type} : Except Stop α → M α
  | .ok a => pure a
  | .error e => Eval.stop e

def raise {α : Type} (exception : Exception) (message : String) : M α :=
  Eval.stop (.raised exception message)

def toText (p : Pointer) : M String := do
  let s ← Eval.get
  lift (s.toText p)

/-- `interp_cast<T>`. The exception asks the value for its text. -/
def interpCast {α : Type} (cast : Value → Option α) (p : Pointer) : M α :=
  match p.bind cast with
  | some a => pure a
  | none => do
    let t ← toText p
    raise .illegalCast t

section Visitors

variable (exec : Exec)

/-- `eval(exp)`. -/
def eval (e : Expression) (pos : Position) : M Pointer :=
  exec (nodeOf e) pos none

/-! ### Functions of the standard library and native functions -/

/-- `stoi`. -/
def stoi (s : String) : Option (Except Stop Int) :=
  let text := s.toList.dropWhile fun c => c = ' ' || '\t' ≤ c && c ≤ '\r'
  let unsigned := if text.head? = some '-' || text.head? = some '+' then text.tail else text
  let digits := unsigned.takeWhile Char.isDigit
  if digits.isEmpty then none
  else
    let n : Int := digits.foldl (fun n c => 10 * n + (c.toNat - 48)) 0
    let i := if text.head? = some '-' then -n else n
    some (if -0x80000000 ≤ i ∧ i < 0x80000000 then .ok i else .error .outOfRange)

def callNative (f : Native) (args : List Pointer) : M Pointer :=
  match f, args with
  | .print, arg :: _ => do
    let t ← toText arg
    Eval.modify fun s => { s with output := s.output ++ [t] }
    pure (some .none)
  | .input, _ => do
    let s ← Eval.get
    Eval.modify fun s => { s with input := s.input.tail }
    pure (some (.string (s.input.headD "")))
  | .intcast, arg :: _ => do
    let t ← interpCast Value.string? arg
    match stoi t with
    | some r => do
      let i ← lift r
      pure (some (.integer i))
    | none => raise .illegalCast t
  | _, [] => Eval.stop .undefined

/-! ### Names, fields and indices -/

def visitName (x : String) (asval : Pointer) : M Pointer := do
  match asval with
  | some v => do
    Eval.modify (State.updateVar x (some v))
    pure none
  | none => do
    let s ← Eval.get
    lift (s.readVar x)

/-- The end of `FieldDereference` and `IndexExpression`. -/
def accessField (r : RecordId) (key : String) (asval : Pointer) : M Pointer := do
  match asval with
  | some v => do
    Eval.modify (State.updateField r key (some v))
    pure none
  | none => do
    let s ← Eval.get
    pure (s.readField r key)

def visitFieldDereference (base : LHS) (field : String) (pos : Position) (asval : Pointer) :
    M Pointer := do
  let base ← exec (.lhs base) (.base :: pos) none
  let record ← interpCast Value.record? base
  accessField record field asval

def visitIndexExpression (base : LHS) (index : Expression) (pos : Position) (asval : Pointer) :
    M Pointer := do
  let base ← exec (.lhs base) (.base :: pos) none
  let record ← interpCast Value.record? base
  let index ← eval exec index (.index :: pos)
  let field ← toText index
  accessField record field asval

/-! ### Operators -/

/-- The value of an `int`. -/
def wrap (i : Int) : Int :=
  i.bmod 0x100000000

/-- Both operands, each cast before the next one is evaluated. -/
def evalOperands {α : Type} (cast : Value → Option α) (left right : Expression) (pos : Position) :
    M (α × α) := do
  let left ← eval exec left (.left :: pos)
  let left ← interpCast cast left
  let right ← eval exec right (.right :: pos)
  let right ← interpCast cast right
  pure (left, right)

def visitBoolOp (left right : Expression) (pos : Position) (func : Bool → Bool → Bool) :
    M Pointer := do
  let (left, right) ← evalOperands exec Value.boolean? left right pos
  pure (some (.boolean (func left right)))

def visitComparison (left right : Expression) (pos : Position) (func : Int → Int → Bool) :
    M Pointer := do
  let (left, right) ← evalOperands exec Value.integer? left right pos
  pure (some (.boolean (func left right)))

def visitIntOp (left right : Expression) (pos : Position) (func : Int → Int → Except Stop Int) :
    M Pointer := do
  let (left, right) ← evalOperands exec Value.integer? left right pos
  let i ← lift (func left right)
  pure (some (.integer i))

def visitEq (left right : Expression) (pos : Position) : M Pointer := do
  let left ← eval exec left (.left :: pos)
  let right ← eval exec right (.right :: pos)
  match left with
  | some left => pure (some (.boolean (left.equals right)))
  | none => Eval.stop .nullPointer

/-- `dynamic_cast<StringValue*>`. -/
def isString (p : Pointer) : Bool :=
  (p.bind Value.string?).isSome

def visitPlus (left right : Expression) (pos : Position) : M Pointer := do
  let l ← eval exec left (.left :: pos)
  let r ← eval exec right (.right :: pos)
  if isString l || isString r then do
    let l ← toText l
    let r ← toText r
    pure (some (.string (l ++ r)))
  else
    -- the operands are evaluated once more
    visitIntOp exec left right pos fun a b => .ok (wrap (a + b))

/-- `a / b` of two `int`s. -/
def divide (a b : Int) : Except Stop Int :=
  if b = 0 then .error (.raised .illegalArithmetic "divide by zero")
  else if a = -0x80000000 ∧ b = -1 then .error .undefined
  else .ok (a.tdiv b)

def visitBinaryOp (op : BinOpSym) (left right : Expression) (pos : Position) : M Pointer :=
  match op with
  | .or => visitBoolOp exec left right pos (· || ·)
  | .and => visitBoolOp exec left right pos (· && ·)
  | .lt => visitComparison exec left right pos fun a b => a < b
  | .lte => visitComparison exec left right pos fun a b => a ≤ b
  | .gt => visitComparison exec left right pos fun a b => a > b
  | .gte => visitComparison exec left right pos fun a b => a ≥ b
  | .eq => visitEq exec left right pos
  | .plus => visitPlus exec left right pos
  | .minus => visitIntOp exec left right pos fun a b => .ok (wrap (a - b))
  | .mul => visitIntOp exec left right pos fun a b => .ok (wrap (a * b))
  | .div => visitIntOp exec left right pos divide

def visitUnaryOp (op : UnOpSym) (expr : Expression) (pos : Position) : M Pointer := do
  let val ← eval exec expr (.operand :: pos)
  match op with
  | .not => do
    let b ← interpCast Value.boolean? val
    pure (some (.boolean (!b)))
  | .neg => do
    let i ← interpCast Value.integer? val
    pure (some (.integer (wrap (-i))))

/-! ### Records, functions and calls -/

def evalFields (record : RecordId) (pos : Position) : Fields → Nat → M Unit
  | .nil, _ => pure ()
  | .cons key value tail, i => do
    let val ← eval exec value (.field i :: pos)
    Eval.modify (State.updateField record key val)
    evalFields record pos tail (i + 1)

def visitRecord (fields : Fields) (pos : Position) : M Pointer := do
  let s ← Eval.get
  Eval.modify fun s => { s with
    records := Function.update s.records s.nextRecord []
    nextRecord := s.nextRecord + 1 }
  evalFields exec s.nextRecord pos fields 0
  pure (some (.record s.nextRecord))

def visitFunction (arguments : List String) (body : Block) (pos : Position) : M Pointer := do
  let s ← Eval.get
  pure (some (.function (.closure s.current (.code :: pos) body arguments)))

/-- The arguments of a native function. -/
def evalArguments (pos : Position) : Arguments → Nat → M (List Pointer)
  | .nil, _ => pure []
  | .cons head tail, i => do
    let arg ← eval exec head (.argument i :: pos)
    let args ← evalArguments pos tail (i + 1)
    pure (arg :: args)

/-- `frame->Update(func->arguments[i], eval(call.arguments[i]))`, for every `i`. -/
def bindArguments (frame : FrameId) (pos : Position) : List String → Arguments → Nat → M Unit
  | name :: names, .cons head tail, i => do
    let arg ← eval exec head (.argument i :: pos)
    Eval.modify (State.onFrame frame (StackFrame.update name arg))
    bindArguments frame pos names tail (i + 1)
  | _, _, _ => pure ()

/-- `func->frame->CreateChild()`, scanned. -/
def createChild (parent : FrameId) (body : Block) : M FrameId := do
  let s ← Eval.get
  Eval.modify fun s => { s with
    frames := Function.update s.frames s.nextFrame
      (scanBlock body { ancestors := parent :: (s.frames parent).ancestors })
    nextFrame := s.nextFrame + 1 }
  pure s.nextFrame

/-- The body of a function, and the return. -/
def enter (frame : FrameId) (code : Position) (body : Block) : M Pointer := do
  Eval.modify fun s => { s with stack := frame :: s.stack }
  let _ ← exec (.block body) code none
  Eval.modify fun s =>
    if (s.frames frame).returned then s else s.onFrame frame (StackFrame.setReturn (some .none))
  Eval.modify fun s => { s with stack := s.stack.tail }
  let s ← Eval.get
  Eval.mark (.left frame (s.frames frame).ret)
  pure (s.frames frame).ret

def visitCall (target : LHS) (arguments : Arguments) (pos : Position) : M Pointer := do
  let target ← exec (.lhs target) (.target :: pos) none
  let func ← interpCast Value.function? target
  if arguments.size ≠ func.arguments.length then raise .runtime "invalid number of arguments!"
  else
    match func with
    | .native f => do
      let args ← evalArguments exec pos arguments 0
      callNative f args
    | .closure parent code body names => do
      let frame ← createChild parent body
      bindArguments exec frame pos names arguments 0
      enter exec frame code body

/-! ### Statements -/

def visitAssignment (lhs : LHS) (expr : Expression) (pos : Position) : M Pointer := do
  let asval ← eval exec expr (.value :: pos)
  exec (.lhs lhs) (.destination :: pos) asval

def visitIfStatement (cond : Expression) (thenBlock elseBlock : Block) (pos : Position) :
    M Pointer := do
  let cond ← eval exec cond (.cond :: pos)
  let boolean ← interpCast Value.boolean? cond
  if boolean then exec (.block thenBlock) (.thenBlock :: pos) none
  else exec (.block elseBlock) (.elseBlock :: pos) none

/-- `interp_cast<BooleanValue>(eval(wl.cond))`. -/
def evalCond (cond : Expression) (pos : Position) : M Bool := do
  let cond ← eval exec cond (.cond :: pos)
  interpCast Value.boolean? cond

/-- The rounds of a loop after the first look at its condition. -/
def loop (cond : Expression) (body : Block) (pos : Position) : Nat → Bool → M Pointer
  | 0, _ => Eval.stop .endless
  | rounds + 1, boolean => do
    let s ← Eval.get
    if boolean && !s.returned then do
      let _ ← exec (.block body) (.loopBody :: pos) none
      let boolean ← evalCond exec cond pos
      loop cond body pos rounds boolean
    else pure none

def visitWhileLoop (rounds : Nat) (cond : Expression) (body : Block) (pos : Position) :
    M Pointer := do
  let boolean ← evalCond exec cond pos
  loop exec cond body pos rounds boolean

def visitReturn (expr : Expression) (pos : Position) : M Pointer := do
  let ret ← eval exec expr (.value :: pos)
  let s ← Eval.get
  Eval.modify (State.onFrame s.current (StackFrame.setReturn ret))
  Eval.mark (.returned s.current pos ret)
  pure none

def visitBlock (pos : Position) : Block → Nat → M Pointer
  | .nil, _ => pure none
  | .cons head tail, i => do
    let _ ← exec (.statement head) (.statement i :: pos) none
    let s ← Eval.get
    if s.returned then pure none else visitBlock pos tail (i + 1)

/-! ### The dispatch of `accept` -/

def visitLHS (l : LHS) (pos : Position) (asval : Pointer) : M Pointer :=
  match l with
  | .name x => visitName x asval
  | .index base index => visitIndexExpression exec base index pos asval
  | .field base field => visitFieldDereference exec base field pos asval

def visitExpression (e : Expression) (pos : Position) : M Pointer :=
  match e with
  | .lhs l => visitLHS exec l pos none
  | .call target arguments => visitCall exec target arguments pos
  | .function arguments body => visitFunction arguments body pos
  | .record fields => visitRecord exec fields pos
  | .boolConst b => pure (some (.boolean b))
  | .strConst s => pure (some (.string s))
  | .intConst i => pure (some (.integer i))
  | .nullConst => pure (some .none)
  | .binaryOp op left right => visitBinaryOp exec op left right pos
  | .unaryOp op expr => visitUnaryOp exec op expr pos

def visitStatement (rounds : Nat) (s : Statement) (pos : Position) : M Pointer :=
  match s with
  | .assignment lhs expr => visitAssignment exec lhs expr pos
  | .callStatement target arguments =>
    exec (.expression (.call target arguments)) (.call :: pos) none
  | .global _ => pure none
  | .ifStatement cond thenBlock elseBlock => visitIfStatement exec cond thenBlock elseBlock pos
  | .whileLoop cond body => visitWhileLoop exec rounds cond body pos
  | .ret expr => visitReturn exec expr pos

def visit (rounds : Nat) (node : Node) (pos : Position) (asval : Pointer) : M Pointer :=
  match node with
  | .expression e => visitExpression exec e pos
  | .lhs l => visitLHS exec l pos asval
  | .statement s => visitStatement exec rounds s pos
  | .block b => visitBlock exec pos b 0

end Visitors

/-- `Interpreter::exec`. -/
def exec : Nat → Exec
  | 0, _, _, _ => Eval.stop .endless
  | fuel + 1, node, pos, asval =>
    Eval.record (fun s r => .visit ⟨s, pos, node, asval, r⟩) (visit (exec fuel) fuel node pos asval)

/-- The constructor `Interpreter()`. -/
def start (input : List String) : State where
  frames := fun f => if f = 0 then
      StackFrame.update "intcast" (some (.function (.native .intcast)))
        (StackFrame.update "input" (some (.function (.native .input)))
          (StackFrame.update "print" (some (.function (.native .print))) {}))
    else {}
  nextFrame := 1
  stack := [0]
  records := fun _ => []
  nextRecord := 0
  input := input
  output := []

/-- A run of a program. -/
def run (fuel : Nat) (prog : Program) (input : List String) : Except Stop Pointer :=
  (exec fuel (.block prog) [] none).outcome (start input)

/-- What a run visits. -/
def trees (fuel : Nat) (prog : Program) (input : List String) : List (CallTree Event) :=
  (exec fuel (.block prog) [] none).trees (start input)

end Beaverc.BasicInterpreter

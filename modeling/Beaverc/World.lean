import Beaverc.Heap

/-!
# The state outside the frames

The heap, the global variables and the streams (`World`), and the operations
that a frame performs on them (`Action`, `perform`): what the cases of
`Interpreter::run_function` and the helpers of compiled code do once their
operands have been fetched (`operations.cpp`, `Value.cpp`, `Helpers.cpp`).
-/

namespace Beaverc

/-- `Interpreter` without its frames. The input is a list of the words that
`cin >>` reads. -/
structure World where
  heap : CollectedHeap
  mainClosure : Addr
  globals : List (String × Value)
  input : List String
  output : List String

/-! ## Values -/

namespace Value

def getInteger : Value → Except Stop Int
  | .integer i => .ok i
  | _ => .error (.raised .illegalCast "Value is not a integer")

def getBoolean : Value → Except Stop Bool
  | .boolean b => .ok b
  | _ => .error (.raised .illegalCast "Value is not a boolean")

def getPointerValue (v : Value) : Except Stop Addr :=
  match v.pointer? with
  | some a => .ok a
  | Option.none => .error (.raised .illegalCast "Can't cast this value to a pointer type.")

/-- `getPointer<T>()`: `is` says which payloads belong to `T`. -/
def getPointer (is : Payload → Bool) (v : Value) (h : CollectedHeap) : Except Stop Addr := do
  let a ← v.getPointerValue
  let o ← h.deref a
  if is o.payload then .ok a
  else .error (.raised .illegalCast "Can't cast the pointer to the needed type")

/-- `toString()`, to a bounded depth. -/
def toStringDepth (h : CollectedHeap) : Nat → Value → Except Stop String
  | 0, _ => .error .endless
  | depth + 1, v =>
    match v with
    | .integer i => .ok (toString i)
    | .none => .ok "None"
    | .boolean b => .ok (if b then "True" else "False")
    | .stringConstant s => .ok s
    | .stringValue a | .pointer a => do
      let o ← h.deref a
      match o.payload with
      | .string text => .ok text
      | .tree left right => do
        let l ← toStringDepth h depth left
        let r ← toStringDepth h depth right
        .ok (l ++ r)
      | .record values => do
        let fields ← (h.options.iterationOrder (values.map Prod.fst)).mapM fun key => do
          let s ← toStringDepth h depth ((values.lookup key).getD .none)
          .ok (key ++ ":" ++ s ++ " ")
        .ok ("\x7b" ++ String.join fields ++ "\x7d")
      | .reference _ => .error (.raised .runtime "You have uncovered a bug :(")
      | .bareFunction _ | .closure _ _ | .builtInFunction _ => .ok "FUNCTION"

/-- `toString()`. A path through more objects than were ever allocated repeats
one, so a longer descent has no end. -/
def toText (h : CollectedHeap) (v : Value) : Except Stop String :=
  toStringDepth h (h.next + 1) v

end Value

def Payload.isRecord : Payload → Bool
  | .record _ => true
  | _ => false

def Payload.isReference : Payload → Bool
  | .reference _ => true
  | _ => false

def Payload.isBareFunction : Payload → Bool
  | .bareFunction _ => true
  | _ => false

/-- `AbstractFunctionValue`. -/
def Payload.isFunction : Payload → Bool
  | .bareFunction _ | .closure _ _ | .builtInFunction _ => true
  | _ => false

/-- `constant_to_value`. -/
def constantToValue : Constant → Value
  | .none => .none
  | .integer i => .makeInteger i
  | .string s => .stringConstant s
  | .boolean b => .boolean b

def safeIndex {α : Type} (l : List α) (i : Nat) : Except Stop α :=
  match l[i]? with
  | some x => .ok x
  | none => .error (.raised .runtime "Tried to access an index out of bounds.")

/-- An array access without a check. -/
def rawIndex {α : Type} (l : List α) (i : Nat) : Except Stop α :=
  match l[i]? with
  | some x => .ok x
  | none => .error .undefined

/-! ## Arithmetic -/

/-- The binary operations on integers and booleans. -/
inductive Arithmetic where
  | sub
  | mul
  | div
  | gt
  | geq
  | and
  | or
deriving DecidableEq, Repr

/-- The operation applied to its left and its right operand. The C++ operators
`&&` and `||` do not look at the right operand, nor check that it is a boolean,
when the left one decides. -/
def Arithmetic.apply (op : Arithmetic) (left right : Value) : Except Stop Value := do
  match op with
  | .sub => return .makeInteger ((← left.getInteger) - (← right.getInteger))
  | .mul => return .makeInteger ((← left.getInteger) * (← right.getInteger))
  | .div =>
    let divisor ← right.getInteger
    if divisor = 0 then .error (.raised .illegalArithmetic "divide by zero")
    else return .makeInteger ((← left.getInteger).tdiv divisor)
  | .gt => return .boolean ((← left.getInteger) > (← right.getInteger))
  | .geq => return .boolean ((← left.getInteger) ≥ (← right.getInteger))
  | .and =>
    if ← left.getBoolean then return .boolean (← right.getBoolean) else return .boolean false
  | .or => if ← left.getBoolean then return .boolean true else return .boolean (← right.getBoolean)

def Value.negate (v : Value) : Except Stop Value := do
  return .makeInteger (-(← v.getInteger))

def Value.not (v : Value) : Except Stop Value := do
  return .boolean (!(← v.getBoolean))

/-! ## Operations on the world -/

namespace World

def allocate (p : Payload) (w : World) : Addr × World :=
  ((w.heap.allocate p).1, { w with heap := (w.heap.allocate p).2 })

/-- `add` and the constructor `StringValue(heap, l, r)`: an operand that is a
record or a function is first turned into a flat string. -/
def flatten (v : Value) (w : World) : Except Stop (Value × World) :=
  match v with
  | .pointer _ => do
    let s ← v.toText w.heap
    let (a, w) := w.allocate (.string s)
    .ok (.stringValue a, w)
  | _ => .ok (v, w)

def add (left right : Value) (w : World) : Except Stop (Value × World) :=
  if right.isString || left.isString then
    if w.heap.options.stringTrees then do
      let (l, w) ← w.flatten left
      let (r, w) ← w.flatten right
      let (a, w) := w.allocate (.tree l r)
      .ok (.stringValue a, w)
    else do
      let l ← left.toText w.heap
      let r ← right.toText w.heap
      let (a, w) := w.allocate (.string (l ++ r))
      .ok (.stringValue a, w)
  else
    match right, left with
    | .integer r, .integer l => .ok (.makeInteger (r + l), w)
    | _, _ => .error (.raised .illegalCast "Can't perform addition")

/-- `equals`: two strings are compared by their text. -/
def equals (left right : Value) (w : World) : Except Stop Value :=
  if left.isString && right.isString then do
    let l ← left.toText w.heap
    let r ← right.toText w.heap
    .ok (.boolean (l == r))
  else .ok (.boolean (left = right))

/-- `allocateFunction`. -/
def allocateFunction (closure : Addr) (index : Int) (w : World) : Except Stop (Value × World) :=
  match index with
  | .negSucc n =>
    if n < 3 then
      let (a, w) := w.allocate (.builtInFunction n)
      .ok (.pointer a, w)
    else .error (.raised .runtime "Tried to access an index out of bounds.")
  | .ofNat n => do
    let o ← w.heap.deref closure
    match o.payload with
    | .closure f _ => do
      let g ← safeIndex f.functions n
      let (a, w) := w.allocate (.bareFunction g)
      .ok (.pointer a, w)
    | _ => .error .undefined

/-- The references of a new closure, one `add_reference` each. -/
def addReferences (closure : Addr) : List Value → World → Except Stop World
  | [], w => .ok w
  | v :: rest, w => do
    let r ← v.getPointer Payload.isReference w.heap
    let heap ← w.heap.addReference closure r
    addReferences closure rest { w with heap := heap }

/-- `AllocClosure`, with the references in the order in which they are popped. -/
def allocClosure (function : Value) (references : List Value) (w : World) :
    Except Stop (Value × World) := do
  let f ← function.getPointer Payload.isBareFunction w.heap
  let o ← w.heap.deref f
  match o.payload with
  | .bareFunction g => do
    let (a, w) := w.allocate (.closure g [])
    let w ← w.addReferences a references
    .ok (.pointer a, w)
  | _ => .error .undefined

def getField (record : Value) (key : String) (w : World) : Except Stop (Value × World) := do
  let a ← record.getPointer Payload.isRecord w.heap
  let (v, heap) ← w.heap.recordGet a key
  .ok (v, { w with heap := heap })

def setField (record : Value) (key : String) (v : Value) (w : World) :
    Except Stop (Value × World) := do
  let a ← record.getPointer Payload.isRecord w.heap
  let heap ← w.heap.recordInsert a key v
  .ok (.none, { w with heap := heap })

end World

/-! ## Actions -/

/-- An operation on the world with its operands. -/
inductive Action where
  | loadFunc (closure : Addr) (i : Int)
  | loadGlobal (name : String)
  | storeGlobal (name : String) (v : Value)
  | loadReference (r : Addr)
  | storeReference (r : Addr) (v : Value)
  | allocRecord
  | fieldLoad (record : Value) (name : String)
  | fieldStore (record : Value) (name : String) (v : Value)
  | indexLoad (record index : Value)
  | indexStore (record index v : Value)
  | allocClosure (function : Value) (references : List Value)
  | add (left right : Value)
  | eq (left right : Value)
deriving DecidableEq, Repr

/-- The result of an action and the world after it; an action that computes
nothing gives `none`. -/
def perform (action : Action) (w : World) : Except Stop (Value × World) :=
  match action with
  | .loadFunc closure i => w.allocateFunction closure i
  | .loadGlobal name =>
    match w.globals.lookup name with
    | some v => .ok (v, w)
    | none => .error (.raised .uninitializedVariable
        (name ++ " has not been assigned yet, but it has been used"))
  | .storeGlobal name v => .ok (.none, { w with globals := assign name v w.globals })
  | .loadReference r => do
    let o ← w.heap.deref r
    match o.payload with
    | .reference v => .ok (v, w)
    | _ => .error .undefined
  | .storeReference r v => do
    let heap ← w.heap.referenceWrite r v
    .ok (.none, { w with heap := heap })
  | .allocRecord =>
    let (a, w) := w.allocate (.record [])
    .ok (.pointer a, w)
  | .fieldLoad record name => w.getField record name
  | .fieldStore record name v => w.setField record name v
  | .indexLoad record index => do
    let name ← index.toText w.heap
    w.getField record name
  | .indexStore record index v => do
    let name ← index.toText w.heap
    w.setField record name v
  | .allocClosure function references => w.allocClosure function references
  | .add left right => w.add left right
  | .eq left right => do
    let v ← w.equals left right
    .ok (v, w)

end Beaverc

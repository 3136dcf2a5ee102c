import Beaverc.Base.Process
import Beaverc.World

/-!
# The bytecode interpreter

`Interpreter::run_function` is `Frame.exec`, one case per operation;
`ClosureFunctionValue::call` is `enterClosure`. The recursion of the C++ stack
is the list of frames of a `Machine`, the running one first. Whether a
`GarbageCollect` instruction collects is a choice of the step.
-/

namespace Beaverc

/-- A running `run_function`. -/
structure Frame where
  closure : Addr
  function : Function
  references : List Addr
  locals : List Value
  stack : List Value
  ip : Nat

/-- What a step of a frame shows to the outside. -/
inductive Event where
  | act (a : Action)
  | storeLocal (i : Nat) (v : Value)
  | label (l : Nat)
deriving DecidableEq, Repr

/-- What an instruction asks of the machine. -/
inductive Outcome where
  | next (f : Frame) (w : World) (event : Option Event)
  | call (function : Value) (arguments : List Value) (f : Frame)
  | collect (f : Frame)
  | ret (v : Value)

def insufficentStack {α : Type} : Except Stop α :=
  .error (.raised .insufficentStack "Can't pop any more elements off the stack!")

namespace Frame

def advance (stack : List Value) (f : Frame) : Frame :=
  { f with stack := stack, ip := f.ip + 1 }

/-- A step that pushes `v` and touches nothing else. -/
def push (v : Value) (stack : List Value) (w : World) (f : Frame) : Except Stop Outcome :=
  .ok (.next (f.advance (v :: stack)) w none)

/-- A step that performs an action and pushes its result. -/
def load (a : Action) (stack : List Value) (w : World) (f : Frame) : Except Stop Outcome := do
  let (v, w) ← perform a w
  .ok (.next (f.advance (v :: stack)) w (some (.act a)))

/-- A step that performs an action without a result. -/
def store (a : Action) (stack : List Value) (w : World) (f : Frame) : Except Stop Outcome := do
  let (_, w) ← perform a w
  .ok (.next (f.advance stack) w (some (.act a)))

def arithmetic (op : Arithmetic) (w : World) (f : Frame) : Except Stop Outcome :=
  match f.stack with
  | right :: left :: stack => do f.push (← op.apply left right) stack w
  | _ => insufficentStack

/-- `safe_pop`, `n` times. Where there are fewer values, `check` is made of those that
are there before the stack is found empty. -/
def popMany {α : Type} (check : Except Stop α) (n : Nat) (stack : List Value) :
    Except Stop (List Value × List Value) :=
  if n ≤ stack.length then .ok (stack.splitAt n) else do
    let _ ← check
    insufficentStack

/-- One iteration of the loop of `run_function`. -/
def exec (i : Instruction) (f : Frame) (w : World) : Except Stop Outcome :=
  match i with
  | .loadConst i => do f.push (constantToValue (← safeIndex f.function.constants i)) f.stack w
  | .loadFunc i => f.load (.loadFunc f.closure i) f.stack w
  | .loadLocal i => do f.push (← rawIndex f.locals i) f.stack w
  | .storeLocal i =>
    match f.stack with
    | v :: stack =>
      if i < f.locals.length then
        .ok (.next { f.advance stack with locals := f.locals.set i v } w (some (.storeLocal i v)))
      else .error .undefined
    | _ => insufficentStack
  | .loadGlobal i => do f.load (.loadGlobal (← safeIndex f.function.names i)) f.stack w
  | .storeGlobal i => do
    let name ← safeIndex f.function.names i
    match f.stack with
    | v :: stack => f.store (.storeGlobal name v) stack w
    | _ => insufficentStack
  | .pushReference i => do f.push (.pointer (← rawIndex f.references i)) f.stack w
  | .loadReference i => do f.load (.loadReference (← rawIndex f.references i)) f.stack w
  | .storeReference i =>
    match f.stack with
    | v :: stack => do f.store (.storeReference (← rawIndex f.references i) v) stack w
    | _ => insufficentStack
  | .allocRecord => f.load .allocRecord f.stack w
  | .fieldLoad i => do
    let name ← safeIndex f.function.names i
    match f.stack with
    | record :: stack => f.load (.fieldLoad record name) stack w
    | _ => insufficentStack
  | .fieldStore i => do
    let name ← safeIndex f.function.names i
    match f.stack with
    | v :: record :: stack => f.store (.fieldStore record name v) stack w
    | _ => insufficentStack
  | .indexLoad =>
    match f.stack with
    | index :: record :: stack => f.load (.indexLoad record index) stack w
    | [index] => do
      -- the index is turned into a string before the record is popped
      let _ ← index.toText w.heap
      insufficentStack
    | _ => insufficentStack
  | .indexStore =>
    match f.stack with
    | v :: index :: record :: stack => f.store (.indexStore record index v) stack w
    | [_, index] => do
      let _ ← index.toText w.heap
      insufficentStack
    | _ => insufficentStack
  | .allocClosure n =>
    match f.stack with
    | function :: stack => do
      let (references, stack) ← popMany (w.allocClosure function stack) n stack
      f.load (.allocClosure function references) stack w
    | _ => insufficentStack
  | .call n =>
    match f.stack with
    | function :: stack => do
      let (arguments, stack) ←
        popMany (function.getPointer Payload.isFunction w.heap) n stack
      .ok (.call function arguments.reverse (f.advance stack))
    | _ => insufficentStack
  | .ret =>
    match f.stack with
    | v :: _ => .ok (.ret v)
    | _ => .error (.raised .insufficentStack "Can't peek off an empty stack!")
  | .add =>
    match f.stack with
    | right :: left :: stack => f.load (.add left right) stack w
    | _ => insufficentStack
  | .sub => f.arithmetic .sub w
  | .mul => f.arithmetic .mul w
  | .div => f.arithmetic .div w
  | .neg =>
    match f.stack with
    | v :: stack => do f.push (← v.negate) stack w
    | _ => insufficentStack
  | .gt => f.arithmetic .gt w
  | .geq => f.arithmetic .geq w
  | .eq =>
    match f.stack with
    | right :: left :: stack => f.load (.eq left right) stack w
    | _ => insufficentStack
  | .and => f.arithmetic .and w
  | .or => f.arithmetic .or w
  | .not =>
    match f.stack with
    | v :: stack => do f.push (← v.not) stack w
    | _ => insufficentStack
  | .goto label => .ok (.next { f with ip := f.function.labelPosition label } w none)
  | .ifTrue label =>
    match f.stack with
    | v :: stack => do
      if ← v.getBoolean then
        .ok (.next { f with stack := stack, ip := f.function.labelPosition label } w none)
      else .ok (.next (f.advance stack) w none)
    | _ => insufficentStack
  | .dup =>
    match f.stack with
    | v :: stack => .ok (.next (f.advance (v :: v :: stack)) w none)
    | _ => .error (.raised .insufficentStack "Can't peek off an empty stack!")
  | .swap =>
    match f.stack with
    | v₁ :: v₂ :: stack => .ok (.next (f.advance (v₂ :: v₁ :: stack)) w none)
    | _ => insufficentStack
  | .pop =>
    match f.stack with
    | _ :: stack => .ok (.next (f.advance stack) w none)
    | _ => insufficentStack
  | .garbageCollect => .ok (.collect (f.advance f.stack))
  | .label l => .ok (.next (f.advance f.stack) w (some (.label l)))
  | .throwUninitialized i => do
    let name ← rawIndex f.function.names i
    .error (.raised .uninitializedVariable name)

end Frame

/-! ## A function on its own -/

/-- What a running function asks of the rest of the system: to call a value, or
to collect with what the function roots. -/
inductive Request where
  | call (function : Value) (arguments : List Value)
  | collect (locals : List Value) (references : List Addr) (operands : List Value)
deriving DecidableEq, Repr

/-- A running function: it works on the world between its requests, and ends
with a value, or with none where control runs off the end of the code. -/
abbrev Activity (σ : Type) :=
  Process (σ × World) Stop Event (Request × World) (Value × World) (Option Value × World)

/-- `run_function` as a process. -/
def Frame.move : Activity Frame := fun s =>
  match s.1.function.instructions[s.1.ip]? with
  | none => .ok (.stop (none, s.2))
  | some i => do
    match ← s.1.exec i s.2 with
    | .next f w event => .ok (.step event.toList (f, w))
    | .ret v => .ok (.stop (some v, s.2))
    | .call function arguments f =>
      .ok (.ask (.call function arguments, s.2) fun a => ({ f with stack := a.1 :: f.stack }, a.2))
    | .collect f =>
      .ok (.ask (.collect f.locals f.references f.stack, s.2) fun a => (f, a.2))

/-! ## Calls -/

/-- The value of a string of digits, as `atoi` reads it. -/
def digits (s : List Char) : Nat :=
  (s.takeWhile Char.isDigit).foldl (fun n c => 10 * n + (c.toNat - '0'.toNat)) 0

/-- `atoi`: `strtol` with its saturation, cut to an `int`. `\v` and `\f` are spaces too. -/
def atoi (s : String) : Int :=
  let s := s.toList.dropWhile fun c => c = ' ' || '\t' ≤ c && c ≤ '\r'
  let value : Int :=
    match s with
    | '-' :: rest => max (-0x8000000000000000) (-(digits rest : Int))
    | '+' :: rest => min 0x7fffffffffffffff (digits rest : Int)
    | _ => min 0x7fffffffffffffff (digits s : Int)
  value.bmod 0x100000000

/-- `BuiltInFunctionValue::call`. -/
def callBuiltIn (type : Nat) (arguments : List Value) (w : World) : Except Stop (Value × World) :=
  match type, arguments with
  | 0, [v] => do
    let text ← v.toText w.heap
    .ok (.none, { w with output := w.output ++ [text] })
  | 0, _ => .error (.raised .runtime "Wrong number of arguments to print")
  | 1, [] =>
    let (a, w') := w.allocate (.string (w.input.headD ""))
    .ok (.stringValue a, { w' with input := w.input.tail })
  | 1, _ => .error (.raised .runtime "Wrong number of arguments to input")
  | 2, [v] =>
    if v.isString then do
      let text ← v.toText w.heap
      .ok (.makeInteger (atoi text), w)
    else .error (.raised .illegalCast "A string wasn't passed to intcast")
  | 2, _ => .error (.raised .runtime "Wrong number of arguments to intcast")
  | _, _ => .error (.raised .runtime "Reached end of builtin function execution")

/-- The boxes of the local reference variables. -/
def allocateBoxes : Nat → World → List Addr × World
  | 0, w => ([], w)
  | n + 1, w =>
    let (a, w) := w.allocate (.reference .none)
    let (boxes, w) := allocateBoxes n w
    (a :: boxes, w)

/-- The arguments from number `i` on go to their locals or boxes. -/
def storeArguments (f : Function) (references : List Addr) :
    Nat → List Value → List Value → World → Except Stop (List Value × World)
  | _, [], locals, w => .ok (locals, w)
  | i, v :: rest, locals, w => do
    let box ← rawIndex f.argMapping i
    if box = -1 then
      if i < locals.length then storeArguments f references (i + 1) rest (locals.set i v) w
      else .error .undefined
    else do
      let r ← rawIndex references box.toNat
      let heap ← w.heap.referenceWrite r v
      storeArguments f references (i + 1) rest locals { w with heap := heap }

/-- `ClosureFunctionValue::call`, up to the start of `run_function`. -/
def enterClosure (closure : Addr) (f : Function) (captured : List Addr) (arguments : List Value)
    (w : World) : Except Stop (Frame × World) :=
  if f.parameterCount ≠ arguments.length then
    .error (.raised .runtime "An incorrect number of parameters was passed to the function")
  else do
    let (boxes, w) := allocateBoxes f.localReferenceVars.length w
    let free ← (List.range f.freeVars.length).mapM (rawIndex captured)
    let references := boxes ++ free
    let (locals, w) ← storeArguments f references 0 arguments
      (List.replicate f.localVars.length .none) w
    .ok (⟨closure, f, references, locals, [], 0⟩, w)

/-- A call: a new frame, or the value of a native function. -/
inductive Entered where
  | frame (f : Frame) (w : World)
  | value (v : Value) (w : World)

/-- `call` of an `AbstractFunctionValue`. -/
def enter (function : Value) (arguments : List Value) (w : World) : Except Stop Entered := do
  let a ← function.getPointer Payload.isFunction w.heap
  let o ← w.heap.deref a
  match o.payload with
  | .closure f captured => do
    let (frame, w) ← enterClosure a f captured arguments w
    .ok (.frame frame w)
  | .builtInFunction type => do
    let (v, w) ← callBuiltIn type arguments w
    .ok (.value v w)
  | _ => .error (.raised .runtime "call on a BareFunctionValue")

/-! ## The machine -/

structure Machine where
  frames : List Frame
  world : World

/-- What a machine does next: go on, or end with the result of the program. -/
inductive Progress where
  | running (m : Machine)
  | finished (v : Value) (w : World)

def pointersIn (values : List Value) : List Addr :=
  values.filterMap Value.pointer?

/-- The root vector of `potentially_garbage_collect`. -/
def Machine.roots (m : Machine) : List Addr :=
  let frames := m.frames.reverse
  m.world.mainClosure :: (frames.flatMap fun f => pointersIn f.locals) ++
    (frames.flatMap fun f => f.references) ++ (frames.flatMap fun f => pointersIn f.stack) ++
    pointersIn (m.world.globals.map Prod.snd)

/-- A frame has returned `v`. -/
def resume (v : Value) (callers : List Frame) (w : World) : Progress :=
  match callers with
  | [] => .finished v w
  | f :: rest => .running ⟨{ f with stack := v :: f.stack } :: rest, w⟩

/-- A step of the machine. -/
def Machine.step (collect : Bool) (m : Machine) : Except Stop Progress :=
  match m.frames with
  | [] => .error .undefined
  | f :: callers =>
    match f.function.instructions[f.ip]? with
    | none => .ok (resume .none callers m.world)
    | some i => do
      match ← f.exec i m.world with
      | .next f w _ => .ok (.running ⟨f :: callers, w⟩)
      | .ret v => .ok (resume v callers m.world)
      | .call function arguments f =>
        match ← enter function arguments m.world with
        | .frame callee w => .ok (.running ⟨callee :: f :: callers, w⟩)
        | .value v w => .ok (resume v (f :: callers) w)
      | .collect f =>
        if collect then do
          let (heap, _) ← m.world.heap.gcFull (Machine.roots ⟨f :: callers, m.world⟩)
          .ok (.running ⟨f :: callers, { m.world with heap := heap }⟩)
        else .ok (.running ⟨f :: callers, m.world⟩)

/-- The machine at the start of `interpret()`. -/
def Machine.start (options : HeapOptions) (input : List String) (main : Function) :
    Except Stop Machine := do
  let (a, heap) := (CollectedHeap.empty options).allocate (.closure main [])
  let (frame, w) ← enterClosure a main [] [] ⟨heap, a, [], input, []⟩
  .ok ⟨[frame], w⟩

end Beaverc

import Beaverc.Ir
import Beaverc.Interpreter
import Beaverc.Base.Results

/-!
# Running the intermediate representation

Each instruction is read as the operation of the VM it stands for. The machine
operations on integers and booleans do not look at the tags of their operands:
what they make of an operand of another type is left open (`undefined`), and it
is the `CallAssert`s that raise. Reading a temp that has not been written is
`undefined` too.
-/

namespace Beaverc.Ir

/-- A running function with its temps. `retVal` is the register that calls and
helpers leave their result in. -/
structure Activation where
  closure : Addr
  function : Function
  code : List Instruction
  references : List Addr
  locals : List Value
  temps : Nat → Option Value
  retVal : Value
  ip : Nat

/-- The machine operations on two integers or booleans; `add` and `eq` are
calls of helpers. -/
def BinOp.machine (op : BinOp) (left right : Value) : Except Stop Value :=
  match op, left, right with
  | .intAdd, .integer l, .integer r => .ok (.makeInteger (l + r))
  | .sub, .integer l, .integer r => .ok (.makeInteger (l - r))
  | .mul, .integer l, .integer r => .ok (.makeInteger (l * r))
  | .div, .integer l, .integer r =>
    if r = 0 then .error .undefined else .ok (.makeInteger (l.tdiv r))
  | .gt, .integer l, .integer r => .ok (.boolean (l > r))
  | .geq, .integer l, .integer r => .ok (.boolean (l ≥ r))
  | .and, .boolean l, .boolean r => .ok (.boolean (l && r))
  | .or, .boolean l, .boolean r => .ok (.boolean (l || r))
  | .fastEq, l, r =>
    -- two strings are equal words only if they are the same object
    if l.isString && r.isString then .error .undefined else .ok (.boolean (l = r))
  | _, _, _ => .error .undefined

def UnOp.machine (op : UnOp) (v : Value) : Except Stop Value :=
  match op, v with
  | .neg, .integer i => .ok (.makeInteger (-i))
  | .not, .boolean b => .ok (.boolean (!b))
  | _, _ => .error .undefined

/-- The operations that take their left operand from `src1`. -/
def BinOp.leftFirst : BinOp → Bool
  | .add | .eq | .div => true
  | _ => false

/-- `helper_throw_not_int`, `helper_throw_zero`, `helper_throw_not_bool`. -/
def Assert.check (a : Assert) (v : Value) : Except Stop Unit :=
  match a, v with
  | .int, .integer _ | .bool, .boolean _ => .ok ()
  | .int, _ => .error (.raised .illegalCast "Value is not a integer")
  | .bool, _ => .error (.raised .illegalCast "Value is not a boolean")
  | .notZero, v =>
    if v = .integer 0 then .error (.raised .illegalArithmetic "divide by zero") else .ok ()

/-- An action as compiled code performs it: `helper_read_global` does not look
whether the global has a value, and `helper_index_load` and `helper_index_store`
take the record before they turn the index into a string. -/
def performHelper (action : Action) (w : World) : Except Stop (Value × World) :=
  match action with
  | .loadGlobal name =>
    match w.globals.lookup name with
    | some v => .ok (v, w)
    | none => .ok (.none, { w with globals := Beaverc.assign name .none w.globals })
  | .indexLoad record index => do
    let _ ← record.getPointer Payload.isRecord w.heap
    w.getField record (← index.toText w.heap)
  | .indexStore record index v => do
    let _ ← record.getPointer Payload.isRecord w.heap
    w.setField record (← index.toText w.heap) v
  | action => perform action w

/-- Where a label stands. -/
def position (code : List Instruction) (label : Nat) : Nat :=
  code.idxOf (.outputLabel label)

/-- A move of a function that runs IR code. -/
abbrev Step :=
  Except Stop (Move (Activation × World) Event (Request × World) (Value × World)
    (Option Value × World))

namespace Activation

def advance (f : Activation) : Activation :=
  { f with ip := f.ip + 1 }

def setTemp (n : Nat) (v : Value) (f : Activation) : Activation :=
  { f with temps := Function.update f.temps n (some v) }

def read (f : Activation) (n : Nat) : Except Stop Value :=
  match f.temps n with
  | some v => .ok v
  | none => .error .undefined

/-- A step that shows nothing and leaves the world as it is. -/
def silent (f : Activation) (w : World) : Step :=
  .ok (.step [] (f, w))

/-- An action whose result goes to a temp. -/
def load (a : Action) (dest : Nat) (f : Activation) (w : World) : Step := do
  let (v, w) ← performHelper a w
  .ok (.step [.act a] (f.advance.setTemp dest v, w))

/-- An action whose result goes to `RetVal`. -/
def help (a : Action) (f : Activation) (w : World) : Step := do
  let (v, w) ← performHelper a w
  .ok (.step [.act a] ({ f.advance with retVal := v }, w))

/-- An action without a result. -/
def act (a : Action) (f : Activation) (w : World) : Step := do
  let (_, w) ← performHelper a w
  .ok (.step [.act a] (f.advance, w))

/-- The action of a helper, with the values of its arguments. -/
def helperAction (f : Activation) (h : Helper) (args : List Value) : Except Stop Action :=
  match h, args with
  | .allocRecord, [] => .ok .allocRecord
  | .fieldLoad i, [record] => do return .fieldLoad record (← rawIndex f.function.names i)
  | .fieldStore i, [record, v] => do return .fieldStore record (← rawIndex f.function.names i) v
  | .indexLoad, [record, index] => .ok (.indexLoad record index)
  | .indexStore, [record, index, v] => .ok (.indexStore record index v)
  | _, _ => .error .undefined

def Helper.hasResult : Helper → Bool
  | .allocRecord | .fieldLoad _ | .indexLoad => true
  | _ => false

/-- The instruction in hand. -/
def exec (i : Instruction) (f : Activation) (w : World) : Step :=
  match i with
  | .assign dest src =>
    match src with
    | .var n => do (f.advance.setTemp dest (← rawIndex f.locals n)).silent w
    | .const v => (f.advance.setTemp dest v).silent w
    | .retVal => (f.advance.setTemp dest f.retVal).silent w
    | .ref n => do (f.advance.setTemp dest (.pointer (← rawIndex f.references n))).silent w
    | .deref n => do f.load (.loadReference (← rawIndex f.references n)) dest w
    | .glob n => do f.load (.loadGlobal (← rawIndex f.function.names n)) dest w
    | .function n => f.load (.loadFunc f.closure n) dest w
  | .forceLoad _ => f.advance.silent w
  | .store dest src => do
    let v ← f.read src
    match dest with
    | .var n =>
      if n < f.locals.length then
        .ok (.step [.storeLocal n v] ({ f.advance with locals := f.locals.set n v }, w))
      else .error .undefined
    | .deref n => f.act (.storeReference (← rawIndex f.references n) v) w
    | .glob n => f.act (.storeGlobal (← rawIndex f.function.names n) v) w
  | .binOp op dest src1 src2 => do
    let v1 ← f.read src1
    let v2 ← f.read src2
    let (left, right) := if op.leftFirst then (v1, v2) else (v2, v1)
    match op with
    | .add => f.load (.add left right) dest w
    | .eq => f.load (.eq left right) dest w
    | op => (f.advance.setTemp dest (← op.machine left right)).silent w
  | .unOp op dest src => do (f.advance.setTemp dest (← op.machine (← f.read src))).silent w
  | .call closure args => do
    let function ← f.read closure
    let arguments ← args.mapM f.read
    .ok (.ask (.call function arguments, w) fun a => ({ f.advance with retVal := a.1 }, a.2))
  | .allocClosure function refs => do
    let v ← f.read function
    f.help (.allocClosure v (← refs.mapM f.read)) w
  | .ret val => do .ok (.stop (some (← f.read val), w))
  | .outputLabel l => .ok (.step [.label l] (f.advance, w))
  | .jump l | .shortJump l => ({ f with ip := position f.code l } : Activation).silent w
  | .condJump cond l => do
    if (← f.read cond) = .boolean true then
      ({ f with ip := position f.code l } : Activation).silent w
    else f.advance.silent w
  | .callHelper h args => do
    let values ← args.mapM f.read
    match h with
    | .garbageCollect =>
      .ok (.ask (.collect f.locals f.references [], w) fun a => (f.advance, a.2))
    | .throwUninitialized i =>
      let name ← rawIndex f.function.names i
      .error (.raised .uninitializedVariable name)
    | h =>
      let a ← f.helperAction h values
      if Helper.hasResult h then f.help a w else f.act a w
  | .callAssert a arg => do
    a.check (← f.read arg)
    f.advance.silent w
  | .noop => f.advance.silent w
  | .fork src dest1 dest2 => do
    let v ← f.read src
    ((f.advance.setTemp dest1 v).setTemp dest2 v).silent w

/-- Compiled code as a process. -/
def move : Activity Activation := fun s =>
  match s.1.code[s.1.ip]? with
  | none => .error .undefined
  | some i => s.1.exec i s.2

/-- Machine code as a process: it does what the IR says, but for the product. `imul` and
`sar` on the tagged words keep 58 bits of it. -/
def emitted : Activity Activation := fun s =>
  match s.1.code[s.1.ip]? with
  | some (.binOp .mul dest src1 src2) => do
    let right ← s.1.read src1
    let left ← s.1.read src2
    match left, right with
    | .integer l, .integer r =>
      (s.1.advance.setTemp dest (.integer ((l * r).bmod 0x400000000000000))).silent s.2
    | _, _ => .error .undefined
  | _ => move s

/-- Compiled code in the place of a frame that is about to start. -/
def of (fr : Frame) (c : Compiler) (temps : Nat → Option Value) (retVal : Value) : Activation :=
  { closure := fr.closure, function := fr.function, code := c.instructions
    references := fr.references, locals := fr.locals, temps, retVal, ip := 0 }

end Activation

/-! ## Readings -/

/-- The instruction is no product of integers that do not fit. -/
def Activation.Exact (fit : Int → Int → Prop) (f : Activation) : Instruction → Prop
  | .binOp .mul _ src1 src2 => ∀ l r, f.read src2 = .ok (.integer l) →
      f.read src1 = .ok (.integer r) → fit l r
  | _ => True

/-- A way to run IR code: each instruction does what `exec` says, a product at least where
it fits. -/
class Reading (P : Activity Activation) where
  fit : Int → Int → Prop
  move_end : ∀ {q : Activation × World}, q.1.code[q.1.ip]? = none → P q = .error .undefined
  move_eq : ∀ {q : Activation × World} {i : Instruction}, q.1.code[q.1.ip]? = some i →
    q.1.Exact fit i → P q = q.1.exec i q.2

/-- Products that the 58 bits of `imul` and `sar` hold. -/
def ProductFits (l r : Int) : Prop :=
  Value.makeInteger (l * r) = .integer ((l * r).bmod 0x400000000000000)

instance (l r : Int) : Decidable (ProductFits l r) :=
  inferInstanceAs (Decidable (_ = _))

theorem Activation.exact_true (f : Activation) (i : Instruction) :
    f.Exact (fun _ _ => True) i := by
  unfold Exact
  split
  · exact fun _ _ _ _ => trivial
  · trivial

instance readingMove : Reading Activation.move where
  fit _ _ := True
  move_end h := by
    unfold Activation.move
    rw [h]
  move_eq h _ := by
    unfold Activation.move
    rw [h]

instance readingEmitted : Reading Activation.emitted where
  fit := ProductFits
  move_end h := by
    unfold Activation.emitted Activation.move
    rw [h]
  move_eq {q i} h hexact := by
    have hmove : Activation.move q = q.1.exec i q.2 :=
      readingMove.move_eq h (q.1.exact_true i)
    unfold Activation.emitted
    rw [h]
    split
    · next dest src1 src2 hi =>
      cases hi
      simp only [Activation.exec, BinOp.leftFirst, Bool.false_eq_true, if_false]
      cases hr : q.1.read src1 with
      | error e => simp only [Results.error_bind]
      | ok right =>
        cases hl : q.1.read src2 with
        | error e => simp only [Results.ok_bind, Results.error_bind]
        | ok left =>
          simp only [Results.ok_bind]
          cases left with
          | integer l =>
            cases right with
            | integer r =>
              have hfits : Value.makeInteger (l * r) = .integer ((l * r).bmod 0x400000000000000) :=
                hexact l r hl hr
              simp only [BinOp.machine, hfits, Results.ok_bind]
            | _ => simp only [BinOp.machine, Results.error_bind]
          | _ => simp only [BinOp.machine, Results.error_bind]
    · exact hmove

/-- The next instruction makes no product that is cut off. -/
def ProductsFit (s : Activation × World) : Prop :=
  ∀ i, s.1.code[s.1.ip]? = some i → s.1.Exact ProductFits i

theorem emitted_move {s : Activation × World} (h : ProductsFit s) :
    Activation.emitted s = Activation.move s := by
  cases hi : s.1.code[s.1.ip]? with
  | none => rw [readingEmitted.move_end hi, readingMove.move_end hi]
  | some i => rw [readingEmitted.move_eq hi (h i hi), readingMove.move_eq hi (s.1.exact_true i)]

end Beaverc.Ir

import Beaverc.Orders
import Beaverc.CompilerCorrectness
import Beaverc.Roots

/-!
# Evaluation order

The order in which the AST interpreter (`interpreter/Interpreter.cpp`) evaluates
the parts of an expression, and the order in which the bytecode does. Each of the
two is an instance of `Operations`: what a visitor does with a node is `interpreted`
(`Expression.visited`), and what the code of the node does is `executed`
(`Expression.coded`).

The orders differ at `<` and `<=` (the compiler swaps the operands of `Gt` and
`Geq`), at calls (the target comes last), where a cast of the interpreter comes
before the next operand, at `+`, which the interpreter evaluates again when no
operand is a string, and where `Div` finds a zero or `And` and `Or` need no second
operand. `evaluationOrder_kept_iff` says that they agree everywhere else.
-/

namespace Beaverc
open BasicInterpreter (Edge)

/-! ## The AST interpreter -/

namespace BasicInterpreter
open Evaluations

def constantPointer : Constant → Pointer
  | .none => some .none
  | .integer i => some (.integer i)
  | .string s => some (.string s)
  | .boolean b => some (.boolean b)

/-- A function whose arguments are being bound; `names` are those of the next ones. -/
inductive Callee where
  | native (f : Native) (args : List Pointer)
  | closure (frame : FrameId) (code : Position) (body : Block) (names : List String)

def computeIntegers (op : BinOpSym) (a b : Int) : M Pointer :=
  match op with
  | .lt => pure (some (.boolean (a < b)))
  | .lte => pure (some (.boolean (a ≤ b)))
  | .gt => pure (some (.boolean (a > b)))
  | .gte => pure (some (.boolean (a ≥ b)))
  | .plus => pure (some (.integer (wrap (a + b))))
  | .minus => pure (some (.integer (wrap (a - b))))
  | .mul => pure (some (.integer (wrap (a * b))))
  | .div => do
    let i ← lift (divide a b)
    pure (some (.integer i))
  | .or | .and | .eq => Eval.stop .undefined

def bindArgument (callee : Callee) (arg : Pointer) : M Callee :=
  match callee with
  | .native f args => pure (.native f (args ++ [arg]))
  | .closure frame code body (name :: names) => do
    Eval.modify (State.onFrame frame (StackFrame.update name arg))
    pure (.closure frame code body names)
  | .closure frame code body [] => pure (.closure frame code body [])

/-- `Interpreter::visit(Call&)`, before and after the arguments. -/
def beginCall (target : Pointer) (n : Nat) : M Callee := do
  let func ← interpCast Value.function? target
  if n ≠ func.arguments.length then raise .runtime "invalid number of arguments!"
  else
    match func with
    | .native f => pure (.native f [])
    | .closure parent code body names => do
      let frame ← createChild parent body
      pure (.closure frame code body names)

def endCall (exec : Exec) : Callee → M Pointer
  | .native f args => callNative f args
  | .closure frame code body _ => enter exec frame code body

/-- The operations of the visitors at a node. -/
@[reducible] def operations (exec : Exec) (pos : Position) : Operations M where
  Val := Pointer
  Rec := RecordId
  Key := String
  Callee := Callee
  Done := Pointer
  constant := constantPointer
  isString := isString
  integer? p := p.bind Value.integer?
  boolean? p := p.bind Value.boolean?
  castFails _ p := do
    let t ← toText p
    raise .illegalCast t
  zeroDivides := raise .illegalArithmetic "divide by zero"
  compute := computeIntegers
  ofBool b := some (.boolean b)
  equal l r :=
    match l with
    | some l => pure (some (.boolean (l.equals r)))
    | none => Eval.stop .nullPointer
  concat l r := do
    let l ← toText l
    let r ← toText r
    pure (some (.string (l ++ r)))
  unary op v :=
    match op with
    | .not => do
      let b ← interpCast Value.boolean? v
      pure (some (.boolean (!b)))
    | .neg => do
      let i ← interpCast Value.integer? v
      pure (some (.integer (wrap (-i))))
  read x := visitName x none
  write x v := visitName x v
  closure arguments body := visitFunction arguments body pos
  newRecord := do
    let s ← Eval.get
    Eval.modify fun s => { s with
      records := Function.update s.records s.nextRecord []
      nextRecord := s.nextRecord + 1 }
    pure s.nextRecord
  setField record key v := Eval.modify (State.updateField record key v)
  ofRecord record := some (.record record)
  record := interpCast Value.record?
  text := toText
  fieldLoad base x := do
    let record ← interpCast Value.record? base
    accessField record x none
  fieldStore base x v := do
    let record ← interpCast Value.record? base
    accessField record x v
  indexLoad record key := accessField record key none
  indexStore record key v := accessField record key v
  callee := beginCall
  argument := bindArgument
  invoke := endCall exec

/-- The parts of a node, as its visitor evaluates them. -/
def parts (exec : Exec) (pos : Position) : Parts (M Pointer) :=
  fun e edge => eval exec e (edge :: pos)

namespace EvaluationOrderLemmas

variable (exec : Exec) (pos : Position)

theorem integer_interpCast (op : BinOpSym) (p : Pointer) :
    (operations exec pos).integer op p = interpCast Value.integer? p := by
  have hcast : (operations exec pos).integer? p = p.bind Value.integer? := rfl
  unfold Operations.integer interpCast
  rw [hcast]
  cases p.bind Value.integer? <;> rfl

theorem boolean_interpCast (op : BinOpSym) (p : Pointer) :
    (operations exec pos).boolean op p = interpCast Value.boolean? p := by
  have hcast : (operations exec pos).boolean? p = p.bind Value.boolean? := rfl
  unfold Operations.boolean interpCast
  rw [hcast]
  cases p.bind Value.boolean? <;> rfl

theorem visitIntOp_interpreted (op : BinOpSym) (left right : Expression)
    (func : Int → Int → Except Stop Int) (f : Int → Int → M Pointer)
    (hf : ∀ a b, f a b = lift (func a b) >>= fun i => pure (some (.integer i))) :
    visitIntOp exec left right pos func = (operations exec pos).interpretedIntegers op
      (parts exec pos left .left) (parts exec pos right .right) f := by
  unfold visitIntOp evalOperands Operations.interpretedIntegers
  simp only [bind_assoc, pure_bind, hf, integer_interpCast]
  rfl

theorem visitComparison_interpreted (op : BinOpSym) (left right : Expression)
    (func : Int → Int → Bool) (f : Int → Int → M Pointer)
    (hf : ∀ a b, f a b = pure (some (.boolean (func a b)))) :
    visitComparison exec left right pos func = (operations exec pos).interpretedIntegers op
      (parts exec pos left .left) (parts exec pos right .right) f := by
  unfold visitComparison evalOperands Operations.interpretedIntegers
  simp only [bind_assoc, pure_bind, hf, integer_interpCast]
  rfl

theorem visitBoolOp_interpreted (op : BinOpSym) (left right : Expression)
    (func : Bool → Bool → Bool) :
    visitBoolOp exec left right pos func = (operations exec pos).interpretedBooleans op
      (parts exec pos left .left) (parts exec pos right .right) func := by
  unfold visitBoolOp evalOperands Operations.interpretedBooleans
  simp only [bind_assoc, pure_bind, boolean_interpCast]
  rfl

theorem divide_interpreted (a b : Int) : (operations exec pos).divide a b =
    lift (divide a b) >>= fun i => pure (some (.integer i)) := by
  unfold Operations.divide
  split
  · next h =>
    rw [divide, if_pos h]
    rfl
  · rfl

theorem visitPlus_interpreted (left right : Expression) :
    visitPlus exec left right pos = (operations exec pos).interpretedBinary .plus
      (parts exec pos left .left) (parts exec pos right .right) := by
  refine bind_congr fun l => bind_congr fun r => ?_
  exact congrArg (ite _ _) (visitIntOp_interpreted exec pos .plus left right _ _ fun _ _ => rfl)

theorem visitBinaryOp_interpreted (op : BinOpSym) (left right : Expression) :
    visitBinaryOp exec op left right pos = (operations exec pos).interpretedBinary op
      (parts exec pos left .left) (parts exec pos right .right) := by
  cases op with
  | or => exact visitBoolOp_interpreted exec pos .or left right _
  | and => exact visitBoolOp_interpreted exec pos .and left right _
  | lt =>
    exact visitComparison_interpreted exec pos .lt left right (fun a b => a < b) _ fun _ _ => rfl
  | lte =>
    exact visitComparison_interpreted exec pos .lte left right (fun a b => a ≤ b) _ fun _ _ => rfl
  | gt =>
    exact visitComparison_interpreted exec pos .gt left right (fun a b => a > b) _ fun _ _ => rfl
  | gte =>
    exact visitComparison_interpreted exec pos .gte left right (fun a b => a ≥ b) _ fun _ _ => rfl
  | eq => rfl
  | plus => exact visitPlus_interpreted exec pos left right
  | minus =>
    exact visitIntOp_interpreted exec pos .minus left right (fun a b => .ok (wrap (a - b))) _
      fun _ _ => rfl
  | mul =>
    exact visitIntOp_interpreted exec pos .mul left right (fun a b => .ok (wrap (a * b))) _
      fun _ _ => rfl
  | div => exact visitIntOp_interpreted exec pos .div left right _ _ (divide_interpreted exec pos)

theorem evalFields_interpreted (record : RecordId) : (fields : Fields) → (i : Nat) →
    evalFields exec record pos fields i =
      (operations exec pos).setFields record (fields.parts (parts exec pos) i)
  | .nil, _ => rfl
  | .cons key value tail, i => by
    show (eval exec value (.field i :: pos) >>= fun val => _) = (_ >>= fun v => _)
    refine bind_congr fun v => bind_congr fun _ => ?_
    exact evalFields_interpreted record tail (i + 1)

theorem visitRecord_interpreted (fields : Fields) : visitRecord exec fields pos =
    (operations exec pos).makeRecord (fields.parts (parts exec pos) 0) := by
  unfold visitRecord Operations.makeRecord
  simp only [bind_assoc, pure_bind, evalFields_interpreted]

/-- The arguments of a native function are kept. -/
theorem bindArguments_native (f : Native) : (arguments : Arguments) → (i : Nat) →
    (args : List Pointer) →
    (operations exec pos).bindArguments (.native f args) (arguments.parts (parts exec pos) i) =
      evalArguments exec pos arguments i >>= fun rest => pure (.native f (args ++ rest))
  | .nil, i, args => by
    show pure _ = pure _
    rw [List.append_nil]
  | .cons head tail, i, args => by
    unfold evalArguments
    simp only [bind_assoc, pure_bind]
    refine bind_congr fun arg => ?_
    refine (bindArguments_native f tail (i + 1) (args ++ [arg])).trans ?_
    simp only [List.append_assoc, List.singleton_append]

/-- Those of a closure are stored in its frame. -/
theorem bindArguments_closure (frame : FrameId) (code : Position) (body : Block) :
    (arguments : Arguments) → (names : List String) → (i : Nat) →
    arguments.size = names.length →
    (operations exec pos).bindArguments (.closure frame code body names)
        (arguments.parts (parts exec pos) i) =
      bindArguments exec frame pos names arguments i >>= fun _ =>
        pure (.closure frame code body [])
  | .nil, [], i, _ => rfl
  | .cons head tail, name :: names, i, h => by
    unfold bindArguments
    simp only [bind_assoc]
    refine bind_congr fun arg => ?_
    refine Eq.trans ?_ (bind_congr fun _ =>
      bindArguments_closure frame code body tail names (i + 1) (Nat.succ.inj h))
    rfl

theorem length_parts {V : Type} (part : Parts V) : (arguments : Arguments) → (i : Nat) →
    (arguments.parts part i).length = arguments.size
  | .nil, _ => rfl
  | .cons _ tail, i => congrArg (· + 1) (length_parts part tail (i + 1))

theorem visitCall_interpreted (target : LHS) (arguments : Arguments) :
    visitCall exec target arguments pos = (operations exec pos).interpretedCall
      (parts exec pos (.lhs target) .target) (arguments.parts (parts exec pos) 0) := by
  unfold visitCall Operations.interpretedCall
  rw [length_parts]
  refine bind_congr fun target => ?_
  show _ = beginCall target arguments.size >>= _
  unfold beginCall
  simp only [bind_assoc]
  refine bind_congr fun func => ?_
  split
  · rfl
  · next h =>
    cases func with
    | native f =>
      show _ = (operations exec pos).bindArguments (.native f []) _ >>= _
      rw [bindArguments_native]
      simp only [bind_assoc, pure_bind, List.nil_append]
      rfl
    | closure parent code body names =>
      show _ = (createChild parent body >>= fun frame =>
        pure (Callee.closure frame code body names)) >>= _
      rw [bind_assoc]
      refine bind_congr fun frame => ?_
      rw [pure_bind,
        bindArguments_closure exec pos frame code body arguments names 0 (not_not.mp h)]
      simp only [bind_assoc, pure_bind]
      rfl

theorem visitLHS_interpreted (l : LHS) (asval : Pointer) : visitLHS exec l pos asval =
    l.interpretedStore (operations exec pos) (parts exec pos) asval := by
  cases l with
  | name x => rfl
  | index base idx => rfl
  | field base x => rfl

theorem visitExpression_interpreted (e : Expression) :
    visitExpression exec e pos = e.interpreted (operations exec pos) (parts exec pos) := by
  cases e with
  | lhs l => cases l <;> rfl
  | call target arguments => exact visitCall_interpreted exec pos target arguments
  | record fields => exact visitRecord_interpreted exec pos fields
  | binaryOp op left right => exact visitBinaryOp_interpreted exec pos op left right
  | unaryOp op expr => cases op <;> rfl
  | _ => rfl

end EvaluationOrderLemmas
end BasicInterpreter

/-! ## The bytecode -/

/-- The literals evaluated before the `i`-th argument. -/
def Arguments.before : Arguments → Nat → Nat
  | .cons head tail, i + 1 => head.literals.length + tail.before i
  | _, _ => 0

def Fields.before : Fields → Nat → Nat
  | .cons _ value tail, i + 1 => value.literals.length + tail.before i
  | _, _ => 0

def LHS.before : LHS → Edge → Nat
  | .index base _, .index => base.literals.length
  | _, _ => 0

/-- The literals of a node that the code evaluates before one of its parts. -/
def Expression.before : Expression → Edge → Nat
  | .lhs l, edge => l.before edge
  | .call _ arguments, .target => arguments.literals.length
  | .call _ arguments, .argument i => arguments.before i
  | .record fields, .field i => fields.before i
  | .binaryOp op _ right, .left => if op.swapped then right.literals.length else 0
  | .binaryOp op left _, .right => if op.swapped then 0 else left.literals.length
  | _, _ => 0

/-- A part of a running function: its result and the world after it. -/
abbrev Activation := StateT World Computation

/-- A check that leaves the value and the world as they are. -/
def checked {α : Type} (check : World → Except Stop α) (v : Value) : Activation Value :=
  fun w => (Behavior.ofExcept (check w)).bind fun _ => .done (v, w)

/-- The world is part of how a store ends. -/
def completed (c : World → Computation Completion) : Activation Completion :=
  fun w => (c w).bind fun completion => .done (completion, w)

def computeIntegers (op : BinOpSym) (a b : Int) : Activation Value :=
  match op with
  | .lt => pure (.boolean (a < b))
  | .lte => pure (.boolean (a ≤ b))
  | .gt => pure (.boolean (a > b))
  | .gte => pure (.boolean (a ≥ b))
  | .plus => (Action.add (.integer a) (.integer b)).run
  | .minus => pure (.makeInteger (a - b))
  | .mul => pure (.makeInteger (a * b))
  | .div => pure (.makeInteger (a.tdiv b))
  | .or | .and | .eq => fun _ => .fail .undefined

/-- The exception of a failing cast, whatever the value is. -/
def castError (op : BinOpSym) : Stop :=
  match op with
  | .or | .and => .raised .illegalCast "Value is not a boolean"
  | .plus => .raised .illegalCast "Can't perform addition"
  | _ => .raised .illegalCast "Value is not a integer"

/-- The operations of the bytecode at a node, before which the function has evaluated
`k` of its literals. -/
@[reducible] def Scope.operations (S : Scope) (A : Variables) (k : Nat) :
    Operations Activation where
  Val := Value
  Rec := Value
  Key := Value
  Callee := Value × List Value
  Done := Completion
  constant := constantToValue
  isString := Value.isString
  integer? v :=
    match v with
    | .integer i => some i
    | _ => none
  boolean? v :=
    match v with
    | .boolean b => some b
    | _ => none
  castFails op _ := fun _ => .fail (castError op)
  zeroDivides := fun _ => .fail (.raised .illegalArithmetic "divide by zero")
  compute := computeIntegers
  ofBool := .boolean
  equal l r := (Action.eq l r).run
  concat l r := (Action.add l r).run
  unary op v := op.apply v
  read x := S.read A x
  write x v := completed (S.write A x v)
  closure _ body := S.closure A body k
  newRecord := Action.allocRecord.run
  setField record key v := fun w =>
    ((Action.fieldStore record key v).run w).bind fun r => .done ((), r.2)
  ofRecord record := record
  record v := checked (fun w => v.getPointer Payload.isRecord w.heap) v
  text v := checked (fun w => v.toText w.heap) v
  fieldLoad base x := (Action.fieldLoad base x).run
  fieldStore base x v := completed fun w => thenNormal A ((Action.fieldStore base x v).run w)
  indexLoad record key := (Action.indexLoad record key).run
  indexStore record key v := completed fun w =>
    thenNormal A ((Action.indexStore record key v).run w)
  callee function _ := pure (function, [])
  argument callee v := pure (callee.1, callee.2 ++ [v])
  invoke callee := call callee.1 callee.2

/-- The values of the parts of `e`. -/
def Scope.parts (S : Scope) (A : Variables) (before : Edge → Nat) (k : Nat) :
    Parts (Activation Value) :=
  fun d edge => d.eval S A (k + before edge)

namespace EvaluationOrderLemmas

variable (S : Scope) (A : Variables) (k : Nat)

theorem parts_knowConstants (before : Edge → Nat) :
    KnowsConstants (S.operations A k) (S.parts A before k) := by
  intro e edge c h
  cases e with
  | boolConst b => exact Option.some.inj h ▸ rfl
  | strConst s => exact Option.some.inj h ▸ rfl
  | intConst i => exact Option.some.inj h ▸ rfl
  | nullConst => exact Option.some.inj h ▸ rfl
  | _ => cases h

theorem constant_text (c : Constant) (h : CollectedHeap) :
    ∃ t, (constantToValue c).toText h = .ok t := by
  cases c with
  | none => exact ⟨_, rfl⟩
  | integer i => exact ⟨_, rfl⟩
  | string s => exact ⟨_, rfl⟩
  | boolean b => exact ⟨_, rfl⟩

theorem dividend_nonzero {i : Int} (h : i.bmod 0x100000000 ≠ 0) :
    i.bmod 0x2000000000000000 ≠ 0 := by
  intro hzero
  have hdvd : ((0x2000000000000000 : Nat) : Int) ∣ i := Int.dvd_of_bmod_eq_zero hzero
  exact h (Int.bmod_eq_zero_of_dvd (Int.dvd_trans (by decide) hdvd))

theorem operations_lawful : (S.operations A k).Lawful where
  castFails _ _ _ _ := rfl
  isString c := by cases c <;> rfl
  integer c := by
    cases c with
    | integer i =>
      show (some (i.bmod 0x2000000000000000)).isSome = (some (i.bmod 0x100000000)).isSome
      simp only [Option.isSome_some]
    | _ => rfl
  divisor c h := by
    cases c with
    | integer i =>
      intro he
      exact dividend_nonzero (fun h0 => h (congrArg some h0)) (Option.some.inj he)
    | none => exact fun he => by cases he
    | string s => exact fun he => by cases he
    | boolean b => exact fun he => by cases he
  boolean c := by cases c <;> rfl
  text c := by
    refine ⟨constantToValue c, funext fun w => ?_⟩
    obtain ⟨t, ht⟩ := constant_text c w.heap
    show (Behavior.ofExcept ((constantToValue c).toText w.heap)).bind _ = _
    rw [ht]
    rfl

section Checked

variable {α β : Type} {check : World → Except Stop α} {v : Value} {w : World}
  (f : Value → Activation β)

theorem checked_ok {x : α} (h : check w = .ok x) : (checked check v >>= f) w = f v w := by
  show ((Behavior.ofExcept (check w)).bind _).bind _ = _
  rw [h]
  rfl

theorem checked_error {e : Stop} (h : check w = .error e) :
    (checked check v >>= f) w = .fail e := by
  show ((Behavior.ofExcept (check w)).bind _).bind _ = _
  rw [h]
  rfl

end Checked

theorem run_error {a : Action} {w : World} {e : Stop} (h : perform a w = .error e) :
    a.run w = .fail e := by
  rw [Action.run, h]

/-- What `IndexLoad` and `IndexStore` look at before they do anything. -/
def indexChecks (record index : Value) (w : World) : Except Stop Addr :=
  index.toText w.heap >>= fun _ => record.getPointer Payload.isRecord w.heap

theorem error_bind {α β γ : Type} {x : Except Stop α} {y : Except Stop β} {e : Stop}
    (f : α → β → Except Stop γ) (h : (x >>= fun _ => y) = .error e) :
    (x >>= fun a => y >>= f a) = .error e := by
  cases x with
  | error d =>
    cases h
    rfl
  | ok a =>
    have hy : y = .error e := h
    show (y >>= f a) = _
    rw [hy]
    rfl

theorem indexLoad_error {record index : Value} {w : World} {e : Stop}
    (h : indexChecks record index w = .error e) : perform (.indexLoad record index) w = .error e :=
  error_bind _ h

theorem indexStore_error {record index v : Value} {w : World} {e : Stop}
    (h : indexChecks record index w = .error e) :
    perform (.indexStore record index v) w = .error e :=
  error_bind _ h

/-- An access that looks at its operands can be preceded by the same checks. -/
theorem access_checked {β : Type} (access : Value → Value → Activation β) (record index : Value)
    (hfail : ∀ w e, indexChecks record index w = .error e → access record index w = .fail e) :
    access record index = (S.operations A k).text index >>= fun key =>
      (S.operations A k).record record >>= fun record => access record key := by
  funext w
  cases htext : index.toText w.heap with
  | error e =>
    rw [checked_error _ htext]
    exact hfail w e (by rw [indexChecks, htext]; rfl)
  | ok t =>
    rw [checked_ok _ htext]
    cases hrecord : record.getPointer Payload.isRecord w.heap with
    | ok r =>
      symm
      exact checked_ok (fun record => access record index) hrecord
    | error e =>
      rw [checked_error _ hrecord]
      exact hfail w e (by rw [indexChecks, htext]; exact hrecord)

theorem bindArguments_pure (function : Value) (vs us : List Value) :
    (S.operations A k).bindArguments (function, us) (vs.map pure) = pure (function, us ++ vs) := by
  induction vs generalizing us with
  | nil =>
    rw [List.append_nil]
    rfl
  | cons v vs ih =>
    refine (ih (us ++ [v])).trans ?_
    rw [List.append_assoc]
    rfl

theorem call_pure (function : Value) (vs : List Value) :
    (S.operations A k).call function vs = call function vs := by
  show (S.operations A k).bindArguments (function, []) (vs.map pure) >>= _ = _
  rw [bindArguments_pure]
  rfl

theorem arguments_executed (part : Parts (Activation Value)) : (as : Arguments) → (i k' : Nat) →
    (∀ d j, part d (.argument (i + j)) = d.eval S A (k' + as.before j)) →
    (S.operations A k).evalArguments (as.parts part i) = as.eval S A k'
  | .nil, _, _, _ => rfl
  | .cons head tail, i, k', h => by
    have htail := arguments_executed part tail (i + 1) (k' + head.literals.length) fun d j => by
      rw [Nat.add_assoc, Nat.add_comm 1 j, h d (j + 1), Nat.add_assoc]
      rfl
    have hhead : part head (.argument i) = head.eval S A k' := h head 0
    show (part head (.argument i) >>= fun v => _) = _
    rw [hhead, htail]
    rfl

theorem fields_executed (part : Parts (Activation Value)) (record : Value) :
    (fs : Fields) → (i k' : Nat) →
    (∀ d j, part d (.field (i + j)) = d.eval S A (k' + fs.before j)) →
    (S.operations A k).setFields record (fs.parts part i) =
      fun w => (fs.eval S A record k' w).bind fun w => .done ((), w)
  | .nil, _, _, _ => rfl
  | .cons key value tail, i, k', h => by
    have htail := fields_executed part record tail (i + 1) (k' + value.literals.length)
        fun d j => by
      rw [Nat.add_assoc, Nat.add_comm 1 j, h d (j + 1), Nat.add_assoc]
      rfl
    have hvalue : part value (.field i) = value.eval S A k' := h value 0
    show (part value (.field i) >>= fun v => _) = _
    rw [hvalue, htail]
    funext w
    show (value.eval S A k' w).bind (fun v =>
      (((Action.fieldStore record key v.1).run v.2).bind fun r => .done ((), r.2)).bind fun r =>
        (tail.eval S A record (k' + value.literals.length) r.2).bind fun w => .done ((), w)) =
      ((value.eval S A k' w).bind fun v =>
        ((Action.fieldStore record key v.1).run v.2).bind fun r =>
        tail.eval S A record (k' + value.literals.length) r.2).bind fun w => .done ((), w)
    simp only [Behavior.bind_assoc]
    rfl

/-- What is computed without the world. -/
def raised {α : Type} (x : Except Stop α) : Activation α :=
  fun w => (Behavior.ofExcept x).bind fun a => .done (a, w)

theorem raised_bind {α β : Type} (x : Except Stop α) (f : α → Except Stop β) :
    raised (x >>= f) = raised x >>= fun a => raised (f a) := by
  cases x <;> rfl

theorem integer_raised (op : BinOpSym) (hop : castError op = castError .minus) (v : Value) :
    (S.operations A k).integer op v = raised v.getInteger := by
  cases v with
  | integer i => rfl
  | _ => exact funext fun _ => congrArg Behavior.fail hop

theorem boolean_raised (op : BinOpSym) (hop : castError op = castError .and) (v : Value) :
    (S.operations A k).boolean op v = raised v.getBoolean := by
  cases v with
  | boolean b => rfl
  | _ => exact funext fun _ => congrArg Behavior.fail hop

theorem integers_raised (op : BinOpSym) (hop : castError op = castError .minus) (l r : Value)
    (f : Int → Int → Value) :
    raised (l.getInteger >>= fun a => r.getInteger >>= fun b => .ok (f a b)) =
      (S.operations A k).integer op l >>= fun a => (S.operations A k).integer op r >>= fun b =>
        (pure (f a b) : Activation Value) := by
  simp only [raised_bind, integer_raised S A k op hop]
  rfl

theorem disjunction_executed (l r : Value) : (BinOpSym.or.apply l r : Activation Value) =
    (S.operations A k).executedOperation .or l r := by
  show raised (l.getBoolean >>= fun a => if a then Except.ok (Value.boolean true)
    else r.getBoolean >>= fun b => Except.ok (Value.boolean b)) = _
  rw [raised_bind, ← boolean_raised S A k .or rfl l]
  refine bind_congr fun a => ?_
  cases a with
  | true => rfl
  | false =>
    show raised (r.getBoolean >>= fun b => Except.ok (Value.boolean b)) = _
    rw [raised_bind, ← boolean_raised S A k .or rfl r]
    rfl

theorem conjunction_executed (l r : Value) : (BinOpSym.and.apply l r : Activation Value) =
    (S.operations A k).executedOperation .and l r := by
  show raised (l.getBoolean >>= fun a => if a then
    r.getBoolean >>= fun b => Except.ok (Value.boolean b) else Except.ok (Value.boolean false)) = _
  rw [raised_bind, ← boolean_raised S A k .and rfl l]
  refine bind_congr fun a => ?_
  cases a with
  | false => rfl
  | true =>
    show raised (r.getBoolean >>= fun b => Except.ok (Value.boolean b)) = _
    rw [raised_bind, ← boolean_raised S A k .and rfl r]
    rfl

theorem division_executed (l r : Value) : (BinOpSym.div.apply l r : Activation Value) =
    (S.operations A k).executedOperation .div l r := by
  show raised (r.getInteger >>= fun b => if b = 0 then
      Except.error (Stop.raised .illegalArithmetic "divide by zero")
    else l.getInteger >>= fun a => Except.ok (Value.makeInteger (a.tdiv b))) = _
  rw [raised_bind, ← integer_raised S A k .div rfl r]
  refine bind_congr fun b => ?_
  by_cases hb : b = 0
  · rw [if_pos hb, if_pos hb]
    rfl
  · rw [if_neg hb, if_neg hb, raised_bind, ← integer_raised S A k .div rfl l]
    rfl

theorem binary_executed (op : BinOpSym) (l r : Value) :
    (op.apply l r : Activation Value) = (S.operations A k).executedOperation op l r := by
  cases op with
  | or => exact disjunction_executed S A k l r
  | and => exact conjunction_executed S A k l r
  | lt => exact integers_raised S A k .lt rfl r l fun b a => .boolean (b > a)
  | lte => exact integers_raised S A k .lte rfl r l fun b a => .boolean (b ≥ a)
  | gt => exact integers_raised S A k .gt rfl l r fun a b => .boolean (a > b)
  | gte => exact integers_raised S A k .gte rfl l r fun a b => .boolean (a ≥ b)
  | eq => rfl
  | plus => cases l <;> cases r <;> rfl
  | minus => exact integers_raised S A k .minus rfl l r fun a b => .makeInteger (a - b)
  | mul => exact integers_raised S A k .mul rfl l r fun a b => .makeInteger (a * b)
  | div => exact division_executed S A k l r

theorem binaryOp_executed (op : BinOpSym) (left right : Expression) :
    (Expression.binaryOp op left right).eval S A k =
      (S.operations A k).executedBinary op
        (left.eval S A (k + if op.swapped then right.literals.length else 0))
        (right.eval S A (k + if op.swapped then 0 else left.literals.length)) := by
  have heval : (Expression.binaryOp op left right).eval S A k = fun w =>
      if op.swapped then
        (right.eval S A k w).bind fun r =>
          (left.eval S A (k + right.literals.length) r.2).bind fun l => op.apply l.1 r.1 l.2
      else
        (left.eval S A k w).bind fun l =>
          (right.eval S A (k + left.literals.length) l.2).bind fun r => op.apply l.1 r.1 r.2 := rfl
  unfold Operations.executedBinary
  rw [heval]
  simp only [← binary_executed]
  cases op.swapped with
  | true => rfl
  | false => rfl

theorem eval_executed (e : Expression) :
    e.eval S A k = e.executed (S.operations A k) (S.parts A e.before k) := by
  cases e with
  | lhs l =>
    cases l with
    | name x => rfl
    | field base x => rfl
    | index base idx =>
      show (base.eval S A k >>= fun record =>
        idx.eval S A (k + base.literals.length) >>= fun index =>
        (Action.indexLoad record index).run : Activation Value) = _
      refine bind_congr fun record => bind_congr fun index => ?_
      exact access_checked S A k (fun record index => (Action.indexLoad record index).run)
        record index fun w e h => run_error (indexLoad_error h)
  | call target arguments =>
    show (arguments.eval S A k >>= fun vs => target.eval S A (k + arguments.literals.length) >>=
      fun function => call function vs : Activation Value) =
      (S.operations A k).evalArguments (arguments.parts _ 0) >>= fun vs => _
    rw [arguments_executed S A k _ arguments 0 k fun d j => by rw [Nat.zero_add]; rfl]
    refine bind_congr fun vs => bind_congr fun function => ?_
    exact (call_pure S A k function vs).symm
  | record fields =>
    show (Action.allocRecord.run >>= fun record => fun w =>
      (fields.eval S A record k w).bind fun w => .done (record, w) : Activation Value) =
      Action.allocRecord.run >>= fun record =>
        (S.operations A k).setFields record (fields.parts _ 0) >>= fun _ => pure record
    refine bind_congr fun record => ?_
    rw [fields_executed S A k _ record fields 0 k fun d j => by rw [Nat.zero_add]; rfl]
    funext w
    show _ = ((fields.eval S A record k w).bind fun w => .done ((), w)).bind
      fun r => .done (record, r.2)
    rw [Behavior.bind_assoc]
    rfl
  | binaryOp op left right => exact binaryOp_executed S A k op left right
  | unaryOp op expr => rfl
  | _ => rfl

theorem completed_bind (c : World → Computation Completion) (w : World) :
    (completed c w).bind (fun r => .done r.1) = c w := by
  show ((c w).bind _).bind _ = _
  rw [Behavior.bind_assoc]
  exact Behavior.bind_done (c w)

theorem indexStore_executed (base : LHS) (idx : Expression) (v : Value) :
    (LHS.index base idx).executedStore (S.operations A k)
        (S.parts A (LHS.index base idx).before k) v =
      base.eval S A k >>= fun record => idx.eval S A (k + base.literals.length) >>= fun index =>
        completed fun w => thenNormal A ((Action.indexStore record index v).run w) := by
  refine bind_congr fun record => bind_congr fun index => ?_
  symm
  refine access_checked S A k (fun record index => completed fun w =>
    thenNormal A ((Action.indexStore record index v).run w)) record index fun w e h => ?_
  show ((thenNormal A ((Action.indexStore record index v).run w)).bind _) = _
  rw [run_error (indexStore_error h)]
  rfl

theorem store_executed (l : LHS) (v : Value) (w : World) :
    l.store S A v k w =
      (l.executedStore (S.operations A k) (S.parts A l.before k) v w).bind fun r => .done r.1 := by
  cases l with
  | name x => exact (completed_bind _ w).symm
  | field base x =>
    show (base.eval S A k w).bind _ = ((base.eval S A k w).bind _).bind _
    rw [Behavior.bind_assoc]
    refine congrArg (Behavior.bind _) (funext fun record => ?_)
    exact (completed_bind (fun w => thenNormal A ((Action.fieldStore record.1 x v).run w))
      record.2).symm
  | index base idx =>
    rw [indexStore_executed]
    show (base.eval S A k w).bind _ = ((base.eval S A k w).bind fun record =>
      (idx.eval S A (k + base.literals.length) record.2).bind _).bind _
    rw [Behavior.bind_assoc]
    refine congrArg (Behavior.bind _) (funext fun record => ?_)
    rw [Behavior.bind_assoc]
    refine congrArg (Behavior.bind _) (funext fun index => ?_)
    exact (completed_bind (fun w => thenNormal A ((Action.indexStore record.1 index.1 v).run w))
      index.2).symm

end EvaluationOrderLemmas

/-! ## Expressions and statements -/

mutual
/-- The nodes of a piece of syntax. The bodies of its function literals are statements
of their own. -/
def LHS.nodes : LHS → List Expression
  | .name x => [.lhs (.name x)]
  | .index base idx => .lhs (.index base idx) :: (base.nodes ++ idx.nodes)
  | .field base x => .lhs (.field base x) :: base.nodes

def Expression.nodes : Expression → List Expression
  | .lhs l => l.nodes
  | .call target arguments => .call target arguments :: (target.nodes ++ arguments.nodes)
  | .function arguments body => [.function arguments body]
  | .record fields => .record fields :: fields.nodes
  | .boolConst b => [.boolConst b]
  | .strConst s => [.strConst s]
  | .intConst i => [.intConst i]
  | .nullConst => [.nullConst]
  | .binaryOp op left right => .binaryOp op left right :: (left.nodes ++ right.nodes)
  | .unaryOp op expr => .unaryOp op expr :: expr.nodes

def Arguments.nodes : Arguments → List Expression
  | .nil => []
  | .cons head tail => head.nodes ++ tail.nodes

def Fields.nodes : Fields → List Expression
  | .nil => []
  | .cons _ value tail => value.nodes ++ tail.nodes
end

/-- The nodes of the parts of an `LHS` that is assigned to. -/
def LHS.partNodes : LHS → List Expression
  | .name _ => []
  | .index base idx => base.nodes ++ idx.nodes
  | .field base _ => base.nodes

mutual
def Statement.nodes : Statement → List Expression
  | .assignment lhs expr => expr.nodes ++ lhs.partNodes
  | .callStatement target arguments => (Expression.call target arguments).nodes
  | .global _ => []
  | .ifStatement cond thenBlock elseBlock => cond.nodes ++ thenBlock.nodes ++ elseBlock.nodes
  | .whileLoop cond body => cond.nodes ++ body.nodes
  | .ret expr => expr.nodes

def Block.nodes : Block → List Expression
  | .nil => []
  | .cons head tail => head.nodes ++ tail.nodes
end

mutual
/-- What a statement assigns to. -/
def Statement.destinations : Statement → List LHS
  | .assignment lhs _ => [lhs]
  | .ifStatement _ thenBlock elseBlock => thenBlock.destinations ++ elseBlock.destinations
  | .whileLoop _ body => body.destinations
  | .callStatement _ _ | .global _ | .ret _ => []

def Block.destinations : Block → List LHS
  | .nil => []
  | .cons head tail => head.destinations ++ tail.destinations
end

def Expression.OrderKept (e : Expression) : Prop :=
  ∀ d ∈ e.nodes, d.NodeKept

def Expression.ordered (e : Expression) : Bool :=
  e.nodes.all Expression.keepsOrder

def Statement.OrderKept (st : Statement) : Prop :=
  (∀ d ∈ st.nodes, d.NodeKept) ∧ ∀ l ∈ st.destinations, l.StoreKept

def Statement.ordered (st : Statement) : Bool :=
  st.nodes.all Expression.keepsOrder && st.destinations.all LHS.keepsOrder

/-- The visit of `e` by the AST interpreter. -/
def Expression.Visited (e : Expression) : Prop :=
  ∀ (exec : BasicInterpreter.Exec) (rounds : Nat) (pos : BasicInterpreter.Position),
    BasicInterpreter.visit exec rounds (BasicInterpreter.nodeOf e) pos none =
      e.interpreted (BasicInterpreter.operations exec pos) (BasicInterpreter.parts exec pos)

/-- The visit of an assignment to `l`, and that of `l` in it. -/
def LHS.Visited (l : LHS) : Prop :=
  ∀ (exec : BasicInterpreter.Exec) (rounds : Nat) (pos : BasicInterpreter.Position),
    (∀ expr, BasicInterpreter.visit exec rounds (.statement (.assignment l expr)) pos none =
      BasicInterpreter.parts exec pos expr .value >>= exec (.lhs l) (.destination :: pos)) ∧
    ∀ asval, BasicInterpreter.visit exec rounds (.lhs l) pos asval =
      l.interpretedStore (BasicInterpreter.operations exec pos) (BasicInterpreter.parts exec pos)
        asval

/-- The code of `e`, wherever it stands in a function. -/
def Expression.Coded (e : Expression) : Prop :=
  ∀ f : Function, f.Runs → ∀ (up : List Node) (s : State), s.Ready → (e.transpile up s).Within f →
    ∀ (n : Nat) (A : Variables) (stack : List Value) (w : World),
      let S := s.node.scope up.isEmpty
      let k := s.node.function.functions.length
      Frame.observed.Performs n (A.frame f stack s.count, w)
        (e.executed (S.operations A k) (S.parts A e.before k) w)
        (Pushes A f stack (e.transpile up s).count)

/-- The code of an assignment to `l`: that of the value, and then that of the store. -/
def LHS.Coded (l : LHS) : Prop :=
  ∀ (expr : Expression) (f : Function), f.Runs → ∀ (up : List Node) (s : State), s.Ready →
    ((Statement.assignment l expr).transpile up s).Within f →
    ∀ (n : Nat) (A : Variables) (w : World),
      let S := s.node.scope up.isEmpty
      let k := s.node.function.functions.length
      let j := k + expr.literals.length
      Frame.observed.Performs n (A.frame f [] s.count, w)
        ((expr.executed (S.operations A k) (S.parts A expr.before k) w).bind fun v =>
          (l.executedStore (S.operations A j) (S.parts A l.before j) v.1 v.2).bind fun r =>
            .done r.1)
        (Completes f ((Statement.assignment l expr).transpile up s).count)

open BasicInterpreter.EvaluationOrderLemmas EvaluationOrderLemmas CompilerCorrectnessLemmas

theorem Expression.visited (e : Expression) : e.Visited := by
  intro exec rounds pos
  refine Eq.trans ?_ (visitExpression_interpreted exec pos e)
  cases e <;> rfl

theorem LHS.visited (l : LHS) : l.Visited :=
  fun exec _ pos => ⟨fun _ => rfl, fun asval => visitLHS_interpreted exec pos l asval⟩

theorem Expression.coded (e : Expression) : e.Coded := by
  intro f hf up s hs hw n A stack w S k
  have h := e.performs hf up n A s hs hw stack w
  rw [eval_executed] at h
  exact h

theorem LHS.coded (l : LHS) : l.Coded := by
  intro expr f hf up s hs hw n A w S k j
  have h := assignment_performs hf up n l expr s hs hw A w
  unfold Statement.exec at h
  simp only [eval_executed, store_executed] at h
  exact h

/-- `fun() \x7b print(s); return i; \x7d` -/
def printing (s : String) (i : Int) : Expression :=
  .function [] (.cons (.callStatement (.name "print") (.cons (.strConst s) .nil))
    (.cons (.ret (.intConst i)) .nil))

/-- `f` and `g` print their names; then `print(e);`. -/
def prints (e : Expression) : Program :=
  .cons (.assignment (.name "f") (printing "f" 1))
    (.cons (.assignment (.name "g") (printing "g" 2))
      (.cons (.callStatement (.name "print") (.cons e .nil)) .nil))

/-- `f() < g()` -/
def comparesCalls : Expression :=
  .binaryOp .lt (.call (.name "f") .nil) (.call (.name "g") .nil)

/-- `"a" / 0` -/
def dividesText : Expression :=
  .binaryOp .div (.strConst "a") (.intConst 0)

namespace EvaluationOrderLemmas

theorem comparesCalls_interpreted :
    ((BasicInterpreter.exec 10 (.block (prints comparesCalls)) [] none).after
      (BasicInterpreter.start [])).output = ["f", "g", "True"] := by
  decide +kernel

theorem comparesCalls_compiled :
    ∃ m, Machine.start (.x64 false false) [] (compile (prints comparesCalls)) = .ok m ∧
      ∃ v w, m.run (List.replicate 60 false) = .ok (.finished v w) ∧
        w.output = ["g", "f", "True"] :=
  ⟨_, rfl, _, _, rfl, rfl⟩

/-- A test that the kernel can evaluate. -/
def stopsWith (e : BasicInterpreter.Stop) : Except BasicInterpreter.Stop BasicInterpreter.Pointer →
    Bool
  | .error d => d = e
  | .ok _ => false

theorem eq_of_stopsWith {e : BasicInterpreter.Stop}
    {x : Except BasicInterpreter.Stop BasicInterpreter.Pointer} (h : stopsWith e x = true) :
    x = .error e := by
  cases x with
  | error d => exact congrArg Except.error (of_decide_eq_true h)
  | ok p => cases h

theorem dividesText_interpreted :
    BasicInterpreter.run 10 (prints dividesText) [] = .error (.raised .illegalCast "a") :=
  eq_of_stopsWith (by decide +kernel)

theorem dividesText_compiled :
    ∃ m, Machine.start (.x64 false false) [] (compile (prints dividesText)) = .ok m ∧
      m.run (List.replicate 60 false) = .error (.raised .illegalArithmetic "divide by zero") :=
  ⟨_, rfl, rfl⟩

theorem not_orderKept {e : Expression} (he : e ∈ e.nodes) (h : e.keepsOrder = false) :
    ¬ e.OrderKept :=
  fun hk => Bool.false_ne_true (h.symm.trans (e.nodeKept_iff.mp (hk e he)))

end EvaluationOrderLemmas

end Beaverc

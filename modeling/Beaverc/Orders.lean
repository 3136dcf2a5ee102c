import Beaverc.BasicInterpreter
import Beaverc.Semantics

/-!
# Orders of evaluation

What the two ways of running an expression do with the parts of one node. Both are
said in terms of the same `Operations`, in any monad: `interpreted` is what a visitor
of the AST interpreter does, `executed` what the bytecode does, and the parts of the
node are any computations at all. They do not agree on every node: the code of `<` and
`<=` takes the operands the other way round, that of a call evaluates the target last,
casts come after both operands instead of each after its own, `Div` looks for a zero
before it casts the dividend, `And` and `Or` leave out a cast, and the visitor of `+`
evaluates operands again that are no strings.

`nodeKept_iff` says for which nodes they agree, whatever the operations and the parts do.
-/

namespace Beaverc
open BasicInterpreter (Edge)

/-- The operations of an interpreter in a monad: what the visitors and the
instructions do once they have their operands. A cast looks at a value (`integer?`,
`boolean?`) and raises if it is of another type (`castFails`). -/
structure Operations (m : Type → Type) where
  Val : Type
  Rec : Type
  Key : Type
  Callee : Type
  Done : Type
  constant : Constant → Val
  isString : Val → Bool
  integer? : Val → Option Int
  boolean? : Val → Option Bool
  castFails {α : Type} : BinOpSym → Val → m α
  zeroDivides : m Val
  compute : BinOpSym → Int → Int → m Val
  ofBool : Bool → Val
  equal : Val → Val → m Val
  concat : Val → Val → m Val
  unary : UnOpSym → Val → m Val
  read : String → m Val
  write : String → Val → m Done
  closure : List String → Block → m Val
  newRecord : m Rec
  setField : Rec → String → Val → m Unit
  ofRecord : Rec → Val
  record : Val → m Rec
  text : Val → m Key
  fieldLoad : Val → String → m Val
  fieldStore : Val → String → Val → m Done
  indexLoad : Rec → Key → m Val
  indexStore : Rec → Key → Val → m Done
  callee : Val → Nat → m Callee
  argument : Callee → Val → m Callee
  invoke : Callee → m Val

def Constant.isString : Constant → Bool
  | .string _ => true
  | _ => false

/-- The value as an `int`. -/
def Constant.integer? : Constant → Option Int
  | .integer i => some (i.bmod 0x100000000)
  | _ => Option.none

def Constant.boolean? : Constant → Option Bool
  | .boolean b => some b
  | _ => Option.none

/-- A cast that fails ends the computation, and raises the same whichever operand it is
of: only the text of the exception could tell. The constants are what they are, and
turned into text they do nothing else. -/
structure Operations.Lawful {m : Type → Type} [Monad m] (M : Operations m) : Prop where
  castFails {α β : Type} (op : BinOpSym) (v u : M.Val) (f : α → m β) :
    M.castFails op v >>= f = M.castFails op u
  isString (c : Constant) : M.isString (M.constant c) = c.isString
  integer (c : Constant) : (M.integer? (M.constant c)).isSome = c.integer?.isSome
  divisor (c : Constant) : c.integer? ≠ some 0 → M.integer? (M.constant c) ≠ some 0
  boolean (c : Constant) : M.boolean? (M.constant c) = c.boolean?
  text (c : Constant) : ∃ key, M.text (M.constant c) = pure key

namespace Operations

variable {m : Type → Type} [Monad m] (M : Operations m)

def integer (op : BinOpSym) (v : M.Val) : m Int :=
  match M.integer? v with
  | some i => pure i
  | none => M.castFails op v

def boolean (op : BinOpSym) (v : M.Val) : m Bool :=
  match M.boolean? v with
  | some b => pure b
  | none => M.castFails op v

/-! ## Binary operators -/

/-- `visitIntOp`, and the visitors of the comparisons: each operand is cast before the
next one is evaluated. -/
def interpretedIntegers (op : BinOpSym) (left right : m M.Val) (func : Int → Int → m M.Val) :
    m M.Val := do
  let l ← left
  let a ← M.integer op l
  let r ← right
  let b ← M.integer op r
  func a b

def interpretedBooleans (op : BinOpSym) (left right : m M.Val) (func : Bool → Bool → Bool) :
    m M.Val := do
  let l ← left
  let a ← M.boolean op l
  let r ← right
  let b ← M.boolean op r
  pure (M.ofBool (func a b))

def divide (a b : Int) : m M.Val :=
  if b = 0 then M.zeroDivides else M.compute .div a b

def interpretedBinary (op : BinOpSym) (left right : m M.Val) : m M.Val :=
  match op with
  | .or => M.interpretedBooleans .or left right (· || ·)
  | .and => M.interpretedBooleans .and left right (· && ·)
  | .eq => do
    let l ← left
    let r ← right
    M.equal l r
  | .plus => do
    let l ← left
    let r ← right
    if M.isString l || M.isString r then M.concat l r
    else M.interpretedIntegers .plus left right (M.compute .plus)
  | .div => M.interpretedIntegers .div left right M.divide
  | op => M.interpretedIntegers op left right (M.compute op)

/-- The operation of the bytecode, with the operands on the stack. -/
def executedOperation (op : BinOpSym) (l r : M.Val) : m M.Val :=
  match op with
  | .or => do
    let a ← M.boolean .or l
    if a then pure (M.ofBool true)
    else do
      let b ← M.boolean .or r
      pure (M.ofBool b)
  | .and => do
    let a ← M.boolean .and l
    if a then do
      let b ← M.boolean .and r
      pure (M.ofBool b)
    else pure (M.ofBool false)
  | .eq => M.equal l r
  | .plus =>
    if M.isString l || M.isString r then M.concat l r
    else do
      let a ← M.integer .plus l
      let b ← M.integer .plus r
      M.compute .plus a b
  | .div => do
    let b ← M.integer .div r
    if b = 0 then M.zeroDivides
    else do
      let a ← M.integer .div l
      M.compute .div a b
  | .lt | .lte => do
    -- `Gt` and `Geq` with the operands the other way round
    let b ← M.integer op r
    let a ← M.integer op l
    M.compute op a b
  | op => do
    let a ← M.integer op l
    let b ← M.integer op r
    M.compute op a b

def executedBinary (op : BinOpSym) (left right : m M.Val) : m M.Val :=
  if op.swapped then do
    let r ← right
    let l ← left
    M.executedOperation op l r
  else do
    let l ← left
    let r ← right
    M.executedOperation op l r

/-! ## Indices, calls and records -/

def interpretedIndex {α : Type} (base index : m M.Val) (access : M.Rec → M.Key → m α) : m α := do
  let base ← base
  let record ← M.record base
  let index ← index
  let field ← M.text index
  access record field

/-- `IndexLoad` and `IndexStore` turn the index into text before they look at the base. -/
def executedIndex {α : Type} (base index : m M.Val) (access : M.Rec → M.Key → m α) : m α := do
  let base ← base
  let index ← index
  let field ← M.text index
  let record ← M.record base
  access record field

/-- The arguments are bound as they are evaluated. -/
def bindArguments (callee : M.Callee) : List (m M.Val) → m M.Callee
  | [] => pure callee
  | arg :: args => do
    let v ← arg
    let callee ← M.argument callee v
    bindArguments callee args

def interpretedCall (target : m M.Val) (args : List (m M.Val)) : m M.Val := do
  let target ← target
  let callee ← M.callee target args.length
  let callee ← M.bindArguments callee args
  M.invoke callee

def evalArguments : List (m M.Val) → m (List M.Val)
  | [] => pure []
  | arg :: args => do
    let v ← arg
    let vs ← evalArguments args
    pure (v :: vs)

/-- The call of a value that is on the stack with its arguments. -/
def call (function : M.Val) (args : List M.Val) : m M.Val := do
  let callee ← M.callee function args.length
  let callee ← M.bindArguments callee (args.map pure)
  M.invoke callee

def executedCall (target : m M.Val) (args : List (m M.Val)) : m M.Val := do
  let vs ← M.evalArguments args
  let function ← target
  M.call function vs

def setFields (record : M.Rec) : List (String × m M.Val) → m Unit
  | [] => pure ()
  | (key, value) :: fields => do
    let v ← value
    M.setField record key v
    setFields record fields

def makeRecord (fields : List (String × m M.Val)) : m M.Val := do
  let record ← M.newRecord
  M.setFields record fields
  pure (M.ofRecord record)

end Operations

/-! ## One node -/

/-- The parts of a node of the tree, by the edge that leads to them. -/
abbrev Parts (V : Type) := Expression → Edge → V

def Arguments.parts {V : Type} (part : Parts V) : Arguments → Nat → List V
  | .nil, _ => []
  | .cons head tail, i => part head (.argument i) :: tail.parts part (i + 1)

def Fields.parts {V : Type} (part : Parts V) : Fields → Nat → List (String × V)
  | .nil, _ => []
  | .cons key value tail, i => (key, part value (.field i)) :: tail.parts part (i + 1)

section Nodes

variable {m : Type → Type} [Monad m] (M : Operations m) (part : Parts (m M.Val))

def LHS.interpreted : LHS → m M.Val
  | .name x => M.read x
  | .index base idx => M.interpretedIndex (part (.lhs base) .base) (part idx .index) M.indexLoad
  | .field base x => do
    let base ← part (.lhs base) .base
    M.fieldLoad base x

def LHS.executed : LHS → m M.Val
  | .name x => M.read x
  | .index base idx => M.executedIndex (part (.lhs base) .base) (part idx .index) M.indexLoad
  | .field base x => do
    let base ← part (.lhs base) .base
    M.fieldLoad base x

/-- `exec(assign.lhs, asval)`. -/
def LHS.interpretedStore (v : M.Val) : LHS → m M.Done
  | .name x => M.write x v
  | .index base idx => M.interpretedIndex (part (.lhs base) .base) (part idx .index)
      fun record field => M.indexStore record field v
  | .field base x => do
    let base ← part (.lhs base) .base
    M.fieldStore base x v

/-- `store(assign.lhs)`, with the value on the stack. -/
def LHS.executedStore (v : M.Val) : LHS → m M.Done
  | .name x => M.write x v
  | .index base idx => M.executedIndex (part (.lhs base) .base) (part idx .index)
      fun record field => M.indexStore record field v
  | .field base x => do
    let base ← part (.lhs base) .base
    M.fieldStore base x v

/-- What the visitor of the AST interpreter does. -/
def Expression.interpreted : Expression → m M.Val
  | .lhs l => l.interpreted M part
  | .call target arguments =>
    M.interpretedCall (part (.lhs target) .target) (arguments.parts part 0)
  | .function arguments body => M.closure arguments body
  | .record fields => M.makeRecord (fields.parts part 0)
  | .boolConst b => pure (M.constant (.boolean b))
  | .strConst s => pure (M.constant (.string s))
  | .intConst i => pure (M.constant (.integer i))
  | .nullConst => pure (M.constant .none)
  | .binaryOp op left right => M.interpretedBinary op (part left .left) (part right .right)
  | .unaryOp op expr => do
    let v ← part expr .operand
    M.unary op v

/-- What the bytecode does. -/
def Expression.executed : Expression → m M.Val
  | .lhs l => l.executed M part
  | .call target arguments =>
    M.executedCall (part (.lhs target) .target) (arguments.parts part 0)
  | .function arguments body => M.closure arguments body
  | .record fields => M.makeRecord (fields.parts part 0)
  | .boolConst b => pure (M.constant (.boolean b))
  | .strConst s => pure (M.constant (.string s))
  | .intConst i => pure (M.constant (.integer i))
  | .nullConst => pure (M.constant .none)
  | .binaryOp op left right => M.executedBinary op (part left .left) (part right .right)
  | .unaryOp op expr => do
    let v ← part expr .operand
    M.unary op v

end Nodes

/-! ## The nodes that keep the order -/

/-- `ValueConstant<bool>`, `StringConstant`, `ValueConstant<int>`, `NullConstant`. -/
def Expression.constant? : Expression → Option Constant
  | .boolConst b => some (.boolean b)
  | .strConst s => some (.string s)
  | .intConst i => some (.integer i)
  | .nullConst => some .none
  | _ => none

def Arguments.allConstant : Arguments → Bool
  | .nil => true
  | .cons head tail => head.constant?.isSome && tail.allConstant

/-- An expression is any computation, a constant has its value. -/
def KnowsConstants {m : Type → Type} [Monad m] (M : Operations m) (part : Parts (m M.Val)) : Prop :=
  ∀ e edge c, e.constant? = some c → part e edge = pure (M.constant c)

/-- Whatever the operations and the parts do, the bytecode does what the visitor does. -/
def Expression.NodeKept (e : Expression) : Prop :=
  ∀ (m : Type → Type) [Monad m] [LawfulMonad m] (M : Operations m), M.Lawful →
    ∀ part : Parts (m M.Val), KnowsConstants M part → e.executed M part = e.interpreted M part

def LHS.StoreKept (l : LHS) : Prop :=
  ∀ (m : Type → Type) [Monad m] [LawfulMonad m] (M : Operations m), M.Lawful →
    ∀ part : Parts (m M.Val), KnowsConstants M part → ∀ v,
      l.executedStore M part v = l.interpretedStore M part v

/-- The operators that cast both operands to integers. -/
def integersKeep : Option Constant → Option Constant → Bool
  | some (.integer _), _ => true
  | _, right => right.isSome

/-- `&` and `|`, of which `neutral` leaves the result to the right operand. -/
def booleansKeep (neutral : Bool) : Option Constant → Option Constant → Bool
  | _, some (.boolean _) => true
  | some (.boolean b), _ => b == neutral
  | left, right => left.isSome && right.isSome

/-- Whether an operator keeps the order, by the constants among its operands. -/
def BinOpSym.keeps (op : BinOpSym) (left right : Option Constant) : Bool :=
  match op with
  | .eq => true
  | .or => booleansKeep false left right
  | .and => booleansKeep true left right
  | .plus =>
    match left, right with
    | _, some (.string _) => true
    | some (.integer _), right => right.isSome
    | left, _ => left.isSome
  | .div =>
    match left, right with
    | some (.integer _), _ => true
    | _, some c => c.integer? != some 0
    | _, none => false
  | _ => integersKeep left right

def LHS.keepsOrder : LHS → Bool
  | .index _ idx => idx.constant?.isSome
  | .name _ | .field _ _ => true

def Expression.keepsOrder : Expression → Bool
  | .lhs l => l.keepsOrder
  | .call _ arguments => arguments.allConstant
  | .binaryOp op left right => op.keeps left.constant? right.constant?
  | .function _ _ | .record _ | .boolConst _ | .strConst _ | .intConst _ | .nullConst
  | .unaryOp _ _ => true

namespace OrdersLemmas

theorem integersKeep_cases {lc rc : Option Constant} (h : integersKeep lc rc = true) :
    (∃ i, lc = some (.integer i)) ∨ ∃ c, rc = some c := by
  unfold integersKeep at h
  split at h
  · next i => exact .inl ⟨i, rfl⟩
  · exact .inr (Option.isSome_iff_exists.mp h)

section Kept

variable {m : Type → Type} [Monad m] {M : Operations m} (hM : M.Lawful)

include hM

/-! ### Casts -/

theorem integer_constant (op : BinOpSym) (i : Int) :
    ∃ j, M.integer op (M.constant (.integer i)) = pure j := by
  obtain ⟨j, hj⟩ := Option.isSome_iff_exists.mp (hM.integer (.integer i))
  exact ⟨j, by rw [Operations.integer, hj]⟩

/-- The cast of a constant of another type. -/
theorem integer_other (op : BinOpSym) {c : Constant} (hc : c.integer? = none) :
    M.integer op (M.constant c) = M.castFails op (M.constant c) := by
  have hnone : M.integer? (M.constant c) = none := by
    rw [← Option.isNone_iff_eq_none, ← Option.not_isSome, hM.integer, hc]
    rfl
  rw [Operations.integer, hnone]

theorem boolean_constant (op : BinOpSym) (b : Bool) :
    M.boolean op (M.constant (.boolean b)) = pure b := by
  rw [Operations.boolean, hM.boolean]
  rfl

theorem boolean_other (op : BinOpSym) {c : Constant} (hc : c.boolean? = none) :
    M.boolean op (M.constant c) = M.castFails op (M.constant c) := by
  rw [Operations.boolean, hM.boolean, hc]

theorem castFails_bind {α β : Type} (op : BinOpSym) (v : M.Val) (f : α → m β) :
    M.castFails op v >>= f = M.castFails op v :=
  hM.castFails op v v f

theorem castFails_eq {α : Type} (op : BinOpSym) (v u : M.Val) :
    (M.castFails op v : m α) = M.castFails op u :=
  (castFails_bind hM op v pure).symm.trans (hM.castFails op v u pure)

variable [LawfulMonad m]

theorem integer_castFails {α : Type} (op : BinOpSym) (v u : M.Val) :
    (M.integer op v >>= fun _ => (M.castFails op u : m α)) = M.castFails op u := by
  unfold Operations.integer
  split
  · exact pure_bind _ _
  · exact hM.castFails op v u _

/-- Two casts can change places. -/
theorem integer_comm {α : Type} (op : BinOpSym) (v u : M.Val) (f : Int → Int → m α) :
    (M.integer op v >>= fun a => M.integer op u >>= fun b => f a b) =
      M.integer op u >>= fun b => M.integer op v >>= fun a => f a b := by
  unfold Operations.integer
  cases M.integer? v with
  | some a =>
    cases M.integer? u with
    | some b => simp only [pure_bind]
    | none => simp only [pure_bind, castFails_bind hM]
  | none =>
    cases M.integer? u with
    | some b => simp only [pure_bind, castFails_bind hM]
    | none => simp only [castFails_bind hM, castFails_eq hM op v u]

/-! ### Binary operators -/

variable {left right : m M.Val}

/-- What is known of the operands. -/
structure Given (M : Operations m) (lc rc : Option Constant) (left right : m M.Val) : Prop where
  left (c : Constant) : lc = some c → left = pure (M.constant c)
  right (c : Constant) : rc = some c → right = pure (M.constant c)

variable {lc rc : Option Constant} (ho : Given M lc rc left right)

include ho

theorem integers_kept (op : BinOpSym) (func : Int → Int → m M.Val)
    (h : integersKeep lc rc = true) :
    (left >>= fun l => right >>= fun r => M.integer op l >>= fun a => M.integer op r >>= func a) =
      M.interpretedIntegers op left right func := by
  unfold Operations.interpretedIntegers
  rcases integersKeep_cases h with ⟨i, hi⟩ | ⟨c, hc⟩
  · obtain ⟨j, hj⟩ := integer_constant hM op i
    simp only [ho.left _ hi, pure_bind, hj]
  · simp only [ho.right _ hc, pure_bind]

/-- The operands the other way round, as `Gt` and `Geq` are used for `<` and `<=`. -/
theorem swapped_kept (op : BinOpSym) (func : Int → Int → m M.Val)
    (h : integersKeep lc rc = true) :
    (right >>= fun r => left >>= fun l => M.integer op r >>= fun b => M.integer op l >>= fun a =>
      func a b) = M.interpretedIntegers op left right func := by
  unfold Operations.interpretedIntegers
  rcases integersKeep_cases h with ⟨i, hi⟩ | ⟨c, hc⟩
  · obtain ⟨j, hj⟩ := integer_constant hM op i
    simp only [ho.left _ hi, pure_bind, hj]
  · simp only [ho.right _ hc, pure_bind]
    refine bind_congr fun l => ?_
    exact (integer_comm hM op l (M.constant c) func).symm

theorem division_kept (h : BinOpSym.keeps .div lc rc = true) :
    M.executedBinary .div left right = M.interpretedBinary .div left right := by
  show (left >>= fun l => right >>= fun r => M.integer .div r >>= fun b =>
      if b = 0 then M.zeroDivides else M.integer .div l >>= fun a => M.compute .div a b) =
    M.interpretedIntegers .div left right M.divide
  unfold Operations.interpretedIntegers
  simp only [BinOpSym.keeps] at h
  split at h
  · next i =>
    obtain ⟨j, hj⟩ := integer_constant hM .div i
    simp only [ho.left _ rfl, pure_bind, hj]
    rfl
  · next c _ =>
    have hne : M.integer? (M.constant c) ≠ some 0 := hM.divisor c (bne_iff_ne.mp h)
    cases hc : M.integer? (M.constant c) with
    | some j =>
      have hj : M.integer .div (M.constant c) = pure j := by rw [Operations.integer, hc]
      have hj0 : j ≠ 0 := fun h0 => hne (by rw [hc, h0])
      simp only [ho.right _ rfl, pure_bind, hj, Operations.divide, if_neg hj0]
    | none =>
      have hj : M.integer .div (M.constant c) = M.castFails .div (M.constant c) := by
        rw [Operations.integer, hc]
      simp only [ho.right _ rfl, pure_bind, hj, castFails_bind hM, integer_castFails hM]
  · next => cases h

theorem addition_kept (h : BinOpSym.keeps .plus lc rc = true) :
    M.executedBinary .plus left right = M.interpretedBinary .plus left right := by
  show (left >>= fun l => right >>= fun r =>
      if M.isString l || M.isString r then M.concat l r
      else M.integer .plus l >>= fun a => M.integer .plus r >>= M.compute .plus a) =
    left >>= fun l => right >>= fun r =>
      if M.isString l || M.isString r then M.concat l r
      else M.interpretedIntegers .plus left right (M.compute .plus)
  unfold Operations.interpretedIntegers
  simp only [BinOpSym.keeps] at h
  split at h
  · next s =>
    have hs : M.isString (M.constant (.string s)) = true := hM.isString _
    simp only [ho.right _ rfl, pure_bind, hs, Bool.or_true, if_true]
  · next i _ =>
    obtain ⟨c, rfl⟩ := Option.isSome_iff_exists.mp h
    simp only [ho.left _ rfl, ho.right _ rfl, pure_bind]
  · next hleft hright =>
    obtain ⟨c, rfl⟩ := Option.isSome_iff_exists.mp h
    have hc : c.integer? = none := by
      cases c with
      | integer i => exact absurd rfl (hleft i)
      | _ => rfl
    simp only [ho.left _ rfl, pure_bind, integer_other hM .plus hc, castFails_bind hM]

/-- `&` and `|`: an operand that is `neutral` leaves the result to the other one. -/
theorem booleans_kept (op : BinOpSym) (neutral : Bool) (func : Bool → Bool → Bool)
    (hneutral : ∀ b, func neutral b = b) (hdecides : ∀ b, func (!neutral) b = !neutral)
    (h : booleansKeep neutral lc rc = true) :
    (left >>= fun l => right >>= fun r => M.boolean op l >>= fun a =>
      if a = neutral then M.boolean op r >>= fun b => pure (M.ofBool b)
      else pure (M.ofBool !neutral)) = M.interpretedBooleans op left right func := by
  unfold Operations.interpretedBooleans
  unfold booleansKeep at h
  split at h
  · next b =>
    simp only [ho.right _ rfl, pure_bind, boolean_constant hM]
    refine bind_congr fun l => bind_congr fun a => ?_
    by_cases ha : a = neutral
    · rw [if_pos ha, ha, hneutral]
    · rw [if_neg ha, Bool.eq_not.mpr ha, hdecides]
  · next b _ =>
    obtain rfl := eq_of_beq h
    simp only [ho.left _ rfl, pure_bind, boolean_constant hM, if_true, hneutral]
  · next hleft hright =>
    obtain ⟨hl, hr⟩ := (Bool.and_eq_true _ _).mp h
    obtain ⟨c, rfl⟩ := Option.isSome_iff_exists.mp hl
    have hc : c.boolean? = none := by
      cases c with
      | boolean b => exact absurd rfl (hleft b)
      | _ => rfl
    obtain ⟨d, rfl⟩ := Option.isSome_iff_exists.mp hr
    simp only [ho.left _ rfl, ho.right _ rfl, pure_bind, boolean_other hM op hc,
      castFails_bind hM]

theorem disjunction_kept (h : booleansKeep false lc rc = true) :
    M.executedBinary .or left right = M.interpretedBinary .or left right := by
  refine Eq.trans ?_ (booleans_kept hM ho .or false (· || ·) (fun _ => rfl) (fun _ => rfl) h)
  refine bind_congr fun l => bind_congr fun r => bind_congr fun a => ?_
  cases a <;> rfl

theorem binary_kept (op : BinOpSym) (h : op.keeps lc rc = true) :
    M.executedBinary op left right = M.interpretedBinary op left right := by
  cases op with
  | or => exact disjunction_kept hM ho h
  | and => exact booleans_kept hM ho .and true (· && ·) (fun _ => rfl) (fun _ => rfl) h
  | lt => exact swapped_kept hM ho .lt _ h
  | lte => exact swapped_kept hM ho .lte _ h
  | gt => exact integers_kept hM ho .gt _ h
  | gte => exact integers_kept hM ho .gte _ h
  | eq => rfl
  | plus => exact addition_kept hM ho h
  | minus => exact integers_kept hM ho .minus _ h
  | mul => exact integers_kept hM ho .mul _ h
  | div => exact division_kept hM ho h

omit ho

/-! ### Indices and calls -/

theorem index_kept {α : Type} (base : m M.Val) (c : Constant) (access : M.Rec → M.Key → m α) :
    M.executedIndex base (pure (M.constant c)) access =
      M.interpretedIndex base (pure (M.constant c)) access := by
  obtain ⟨key, hkey⟩ := hM.text c
  unfold Operations.executedIndex Operations.interpretedIndex
  simp only [pure_bind, hkey]

end Kept

section Calls

variable {m : Type → Type} [Monad m] {M : Operations m}

theorem parts_constants {part : Parts (m M.Val)} (hp : KnowsConstants M part) :
    (as : Arguments) → as.allConstant = true → ∀ i, ∃ vs : List M.Val, as.parts part i = vs.map pure
  | .nil, _, _ => ⟨[], rfl⟩
  | .cons head tail, h, i => by
    obtain ⟨hhead, htail⟩ := (Bool.and_eq_true _ _).mp h
    obtain ⟨c, hc⟩ := Option.isSome_iff_exists.mp hhead
    obtain ⟨vs, hvs⟩ := parts_constants hp tail htail (i + 1)
    refine ⟨M.constant c :: vs, ?_⟩
    rw [Arguments.parts, hvs, hp head _ c hc]
    rfl

variable [LawfulMonad m]

theorem evalArguments_pure (vs : List M.Val) : M.evalArguments (vs.map pure) = pure vs := by
  induction vs with
  | nil => rfl
  | cons v vs ih =>
    rw [List.map_cons, Operations.evalArguments, ih]
    simp only [pure_bind]

theorem call_kept (target : m M.Val) (vs : List M.Val) :
    M.executedCall target (vs.map pure) = M.interpretedCall target (vs.map pure) := by
  unfold Operations.executedCall Operations.interpretedCall Operations.call
  rw [evalArguments_pure, pure_bind, List.length_map]

end Calls

theorem lhs_kept {l : LHS} (h : l.keepsOrder = true) : (Expression.lhs l).NodeKept := by
  intro m _ _ M hM part hp
  cases l with
  | name x => rfl
  | field base x => rfl
  | index base idx =>
    obtain ⟨c, hc⟩ := Option.isSome_iff_exists.mp h
    show M.executedIndex _ (part idx .index) _ = M.interpretedIndex _ (part idx .index) _
    rw [hp idx _ c hc]
    exact index_kept hM _ c _

theorem store_kept {l : LHS} (h : l.keepsOrder = true) : l.StoreKept := by
  intro m _ _ M hM part hp v
  cases l with
  | name x => rfl
  | field base x => rfl
  | index base idx =>
    obtain ⟨c, hc⟩ := Option.isSome_iff_exists.mp h
    show M.executedIndex _ (part idx .index) _ = M.interpretedIndex _ (part idx .index) _
    rw [hp idx _ c hc]
    exact index_kept hM _ c _

theorem node_kept {e : Expression} (h : e.keepsOrder = true) : e.NodeKept := by
  cases e with
  | lhs l => exact lhs_kept h
  | call target arguments =>
    intro m _ _ M hM part hp
    obtain ⟨vs, hvs⟩ := parts_constants hp arguments h 0
    show M.executedCall _ (arguments.parts part 0) = M.interpretedCall _ (arguments.parts part 0)
    rw [hvs]
    exact call_kept _ vs
  | binaryOp op left right =>
    intro m _ _ M hM part hp
    exact binary_kept hM ⟨fun c => hp left _ c, fun c => hp right _ c⟩ op h
  | _ => exact fun _ _ _ _ _ _ _ => rfl

end OrdersLemmas

/-! ## The nodes that do not -/

/-- What the operations of `recorder` can raise. -/
inductive Refusal where
  | cast
  | zero
deriving DecidableEq

/-- The parts that were evaluated, in order, and the value. -/
abbrev Recorder := ExceptT Refusal (StateM (List Edge))

/-- Operations on constants that have no effects of their own. -/
def recorder : Operations Recorder where
  Val := Constant
  Rec := Unit
  Key := Unit
  Callee := Unit
  Done := Unit
  constant c := c
  isString := Constant.isString
  integer? := Constant.integer?
  boolean? := Constant.boolean?
  castFails _ _ := throw .cast
  zeroDivides := throw .zero
  compute _ _ _ := pure .none
  ofBool := .boolean
  equal _ _ := pure .none
  concat _ _ := pure .none
  unary _ _ := pure .none
  read _ := pure .none
  write _ _ := pure ()
  closure _ _ := pure .none
  newRecord := pure ()
  setField _ _ _ := pure ()
  ofRecord _ := .none
  record _ := throw .cast
  text _ := pure ()
  fieldLoad _ _ := pure .none
  fieldStore _ _ _ := pure ()
  indexLoad _ _ := pure .none
  indexStore _ _ _ := pure ()
  callee _ _ := throw .cast
  argument _ _ := pure ()
  invoke _ := pure .none

/-- An operand: it leaves a mark, unless it is a constant. -/
def recorded (edge : Edge) (v : Constant) : Option Constant → Recorder Constant
  | some c => pure c
  | none => do
    modify (edge :: ·)
    pure v

def recordedParts (value : Edge → Constant) : Parts (Recorder Constant) :=
  fun e edge => recorded edge (value edge) e.constant?

/-- The marks, the last one first. -/
def Recorder.marks {α : Type} (x : Recorder α) : List Edge :=
  (x.run.run []).2

def Recorder.outcome {α : Type} (x : Recorder α) : Except Refusal α :=
  (x.run.run []).1

namespace OrdersLemmas

theorem recorder_lawful : recorder.Lawful where
  castFails _ _ _ _ := rfl
  isString _ := rfl
  integer _ := rfl
  divisor _ h := h
  boolean _ := rfl
  text _ := ⟨(), rfl⟩

theorem recordedParts_constants (value : Edge → Constant) :
    KnowsConstants recorder (recordedParts value) := by
  intro e edge c h
  rw [recordedParts, h]
  rfl

theorem not_nodeKept {e : Expression} (value : Edge → Constant)
    (h : e.executed recorder (recordedParts value) ≠
      e.interpreted recorder (recordedParts value)) : ¬ e.NodeKept :=
  fun hk => h (hk Recorder recorder recorder_lawful _ (recordedParts_constants value))

/-- The operands of an operator, by the constants among them. -/
def Apart (op : BinOpSym) (lc rc : Option Constant) : Prop :=
  ∃ l r, recorder.executedBinary op (recorded .left l lc) (recorded .right r rc) ≠
    recorder.interpretedBinary op (recorded .left l lc) (recorded .right r rc)

theorem apart_marks {op : BinOpSym} {lc rc : Option Constant} (l r : Constant)
    (h : Recorder.marks (recorder.executedBinary op (recorded .left l lc) (recorded .right r rc)) ≠
      Recorder.marks (recorder.interpretedBinary op (recorded .left l lc) (recorded .right r rc))) :
    Apart op lc rc :=
  ⟨l, r, fun he => h (congrArg Recorder.marks he)⟩

theorem apart_outcome {op : BinOpSym} {lc rc : Option Constant} (l r : Constant)
    (h : Recorder.outcome
        (recorder.executedBinary op (recorded .left l lc) (recorded .right r rc)) ≠
      Recorder.outcome
        (recorder.interpretedBinary op (recorded .left l lc) (recorded .right r rc))) :
    Apart op lc rc :=
  ⟨l, r, fun he => h (congrArg Recorder.outcome he)⟩

theorem integersKeep_false {lc rc : Option Constant} (h : integersKeep lc rc = false) :
    rc = none ∧ ∀ i, lc ≠ some (.integer i) := by
  unfold integersKeep at h
  split at h
  · cases h
  · next hne => exact ⟨Option.isSome_eq_false_iff.mp h |> Option.isNone_iff_eq_none.mp, hne⟩

/-- The left operand is no integer: the visitor does not come to the right one. -/
theorem integers_apart {op : BinOpSym} (hop : op ∈ [.lt, .lte, .gt, .gte, .minus, .mul, .div])
    {lc : Option Constant} (h : ∀ i, lc ≠ some (.integer i)) : Apart op lc none := by
  have hmore : ([.right] : List Edge) ≠ [] := List.cons_ne_nil _ _
  refine apart_marks .none .none ?_
  cases lc with
  | none => revert op; decide
  | some c =>
    simp only [List.mem_cons, List.not_mem_nil, or_false] at hop
    cases c with
    | integer i => exact absurd rfl (h i)
    | _ => rcases hop with rfl | rfl | rfl | rfl | rfl | rfl | rfl <;> exact hmore

/-- The divisor is zero and the dividend no integer. -/
theorem division_apart {lc : Option Constant} (hl : ∀ i, lc ≠ some (.integer i)) {c : Constant}
    (hc : c.integer? = some 0) : Apart .div lc (some c) := by
  have hdiffer : (.error .zero : Except Refusal Constant) ≠ .error .cast := by decide
  have hzero : recorder.integer .div c = pure 0 := by
    show (match c.integer? with | some i => pure i | none => throw .cast : Recorder Int) = pure 0
    rw [hc]
  have hexec : recorder.executedBinary .div (recorded .left .none lc) (pure c) =
      recorded .left .none lc >>= fun _ => throw .zero := by
    show (recorded .left .none lc >>= fun l => recorder.integer .div c >>= fun b =>
      if b = 0 then throw .zero else recorder.integer .div l >>= fun a =>
        recorder.compute .div a b) = _
    rw [hzero]
    rfl
  refine apart_outcome .none .none ?_
  show Recorder.outcome (recorder.executedBinary .div (recorded .left .none lc) (pure c)) ≠ _
  rw [hexec]
  cases lc with
  | none => exact hdiffer
  | some d =>
    cases d with
    | integer i => exact absurd rfl (hl i)
    | _ => exact hdiffer

/-- The left operand decides, and the right one is no boolean. -/
theorem decided_apart {op : BinOpSym} (hop : op = .and ∨ op = .or) {lc rc : Option Constant}
    (hl : lc = none ∨ lc = some (.boolean (op == .or))) (hr : ∀ b, rc ≠ some (.boolean b)) :
    Apart op lc rc := by
  have hdiffer (b : Bool) : (.ok (.boolean b) : Except Refusal Constant) ≠ .error .cast :=
    fun h => by cases h
  refine apart_outcome (.boolean (op == .or)) .none ?_
  cases rc with
  | none => rcases hop with rfl | rfl <;> rcases hl with rfl | rfl <;> exact hdiffer _
  | some c =>
    cases c with
    | boolean b => exact absurd rfl (hr b)
    | _ => rcases hop with rfl | rfl <;> rcases hl with rfl | rfl <;> exact hdiffer _

/-- The left operand is no boolean: the visitor does not come to the right one. -/
theorem undecided_apart {op : BinOpSym} (hop : op = .and ∨ op = .or) {c : Constant}
    (hc : ∀ b, c ≠ .boolean b) : Apart op (some c) none := by
  have hmore : ([.right] : List Edge) ≠ [] := List.cons_ne_nil _ _
  refine apart_marks .none .none ?_
  cases c with
  | boolean b => exact absurd rfl (hc b)
  | _ => rcases hop with rfl | rfl <;> exact hmore

theorem booleans_apart {op : BinOpSym} (hop : op = .and ∨ op = .or) {lc rc : Option Constant}
    (h : booleansKeep (op == .and) lc rc = false) : Apart op lc rc := by
  have hdecides : (op == .or) = !(op == .and) := by rcases hop with rfl | rfl <;> rfl
  unfold booleansKeep at h
  split at h
  · cases h
  · next b hr =>
    -- the left operand is a constant that decides
    refine decided_apart hop (.inr ?_) fun d hd => hr d hd
    rw [hdecides, ← Bool.eq_not.mpr (beq_eq_false_iff_ne.mp h)]
  · next hl hr =>
    cases lc with
    | none => exact decided_apart hop (.inl rfl) fun d hd => hr d hd
    | some c =>
      cases rc with
      | none => exact undecided_apart hop fun b hb => hl b (congrArg some hb)
      | some d => cases h

/-- An operand that is no constant is evaluated twice by the visitor. -/
theorem addition_apart {lc rc : Option Constant} (h : BinOpSym.keeps .plus lc rc = false) :
    Apart .plus lc rc := by
  have htwice (edge : Edge) : [edge] ≠ [edge, edge] := fun he => by cases he
  refine apart_marks (.integer 0) (.integer 0) ?_
  simp only [BinOpSym.keeps] at h
  split at h
  · cases h
  · obtain rfl := Option.isNone_iff_eq_none.mp (Option.isSome_eq_false_iff.mp h)
    exact htwice .right
  · next _ hr =>
    obtain rfl := Option.isNone_iff_eq_none.mp (Option.isSome_eq_false_iff.mp h)
    cases rc with
    | none => decide
    | some c =>
      cases c with
      | string s => exact absurd rfl (hr s)
      | _ => exact htwice .left

theorem binary_apart {op : BinOpSym} {lc rc : Option Constant} (h : op.keeps lc rc = false) :
    Apart op lc rc := by
  have hintegers (hop : op ∈ [.lt, .lte, .gt, .gte, .minus, .mul, .div])
      (h : integersKeep lc rc = false) : Apart op lc rc := by
    obtain ⟨rfl, hl⟩ := integersKeep_false h
    exact integers_apart hop hl
  cases op with
  | or => exact booleans_apart (.inr rfl) h
  | and => exact booleans_apart (.inl rfl) h
  | eq => cases h
  | plus => exact addition_apart h
  | div =>
    simp only [BinOpSym.keeps] at h
    split at h
    · cases h
    · next c hl => exact division_apart hl (of_not_not fun hc => by simp [hc] at h)
    · next hl => exact integers_apart (by decide) hl
  | _ => exact hintegers (by decide) h

/-! ### Indices and calls -/

theorem index_apart {α : Type} (access : Unit → Unit → Recorder α) :
    Recorder.marks (recorder.executedIndex (recorded .base .none none) (recorded .index .none none)
      access) ≠
    Recorder.marks (recorder.interpretedIndex (recorded .base .none none)
      (recorded .index .none none) access) := by
  have hmore : ([.index, .base] : List Edge) ≠ [.base] := by decide
  exact hmore

theorem evalArguments_recorded (value : Edge → Constant) : (as : Arguments) → ∀ i, ∃ vs ms,
    recorder.evalArguments (as.parts (recordedParts value) i) =
      (modify (ms ++ ·) >>= fun _ => pure vs : Recorder (List Constant)) ∧
      (as.allConstant = false → ms ≠ [])
  | .nil, _ => ⟨[], [], rfl, fun h => by cases h⟩
  | .cons head tail, i => by
    obtain ⟨vs, ms, heq, hms⟩ := evalArguments_recorded value tail (i + 1)
    show ∃ vs ms, (recordedParts value head (.argument i) >>= fun v =>
      recorder.evalArguments (tail.parts (recordedParts value) (i + 1)) >>= fun vs =>
        pure (v :: vs)) = (modify (ms ++ ·) >>= fun _ => pure vs : Recorder (List Constant)) ∧ _
    rw [heq, recordedParts]
    cases hc : head.constant? with
    | some c =>
      refine ⟨c :: vs, ms, rfl, fun h => hms ?_⟩
      rw [Arguments.allConstant, hc] at h
      exact h
    | none =>
      refine ⟨value (.argument i) :: vs, ms ++ [.argument i], funext fun s => ?_, fun _ => ?_⟩
      · show (Except.ok (value (.argument i) :: vs), ms ++ Edge.argument i :: s) =
          (Except.ok (value (.argument i) :: vs), ms ++ [.argument i] ++ s)
        rw [List.append_assoc]
        rfl
      · exact List.append_ne_nil_of_right_ne_nil _ (List.cons_ne_nil _ _)

theorem call_apart {arguments : Arguments} (h : arguments.allConstant = false) :
    Recorder.marks (recorder.executedCall (recorded .target .none none)
      (arguments.parts (recordedParts fun _ => .none) 0)) ≠
    Recorder.marks (recorder.interpretedCall (recorded .target .none none)
      (arguments.parts (recordedParts fun _ => .none) 0)) := by
  obtain ⟨vs, ms, heq, hms⟩ := evalArguments_recorded (fun _ => .none) arguments 0
  show Recorder.marks (recorder.evalArguments _ >>= fun vs => _) ≠ [.target]
  rw [heq]
  show Edge.target :: (ms ++ []) ≠ [.target]
  rw [List.append_nil]
  exact fun he => hms h (List.cons.inj he).2

theorem lhs_apart {l : LHS} (h : l.keepsOrder = false) : ¬ (Expression.lhs l).NodeKept := by
  cases l with
  | name x => cases h
  | field base x => cases h
  | index base idx =>
    have hidx : idx.constant? = none :=
      Option.isNone_iff_eq_none.mp (Option.isSome_eq_false_iff.mp h)
    refine not_nodeKept (fun _ => .none) fun he => ?_
    have hmarks := congrArg Recorder.marks he
    simp only [Expression.executed, LHS.executed, Expression.interpreted, LHS.interpreted,
      recordedParts, hidx] at hmarks
    exact index_apart _ hmarks

theorem node_apart {e : Expression} (h : e.keepsOrder = false) : ¬ e.NodeKept := by
  cases e with
  | lhs l => exact lhs_apart h
  | call target arguments =>
    exact not_nodeKept (fun _ => .none) fun he => call_apart h (congrArg Recorder.marks he)
  | binaryOp op left right =>
    obtain ⟨l, r, hne⟩ := binary_apart h
    exact not_nodeKept (fun edge => if edge = .left then l else r) hne
  | _ => cases h

theorem store_apart {l : LHS} (h : l.keepsOrder = false) : ¬ l.StoreKept := by
  intro hk
  cases l with
  | name x => cases h
  | field base x => cases h
  | index base idx =>
    have hidx : idx.constant? = none :=
      Option.isNone_iff_eq_none.mp (Option.isSome_eq_false_iff.mp h)
    have hmarks := congrArg Recorder.marks (hk Recorder recorder recorder_lawful _
      (recordedParts_constants fun _ => .none) .none)
    simp only [LHS.executedStore, LHS.interpretedStore, recordedParts, hidx] at hmarks
    exact index_apart _ hmarks

end OrdersLemmas

open OrdersLemmas

/-- Whatever the operations and the parts of the node do, the bytecode evaluates the
node as the visitor does, if and only if the constants in it are such that the node
keeps the order. -/
theorem Expression.nodeKept_iff (e : Expression) : e.NodeKept ↔ e.keepsOrder = true := by
  refine ⟨fun h => ?_, node_kept⟩
  by_contra hne
  exact node_apart (Bool.eq_false_iff.mpr hne) h

theorem LHS.storeKept_iff (l : LHS) : l.StoreKept ↔ l.keepsOrder = true := by
  refine ⟨fun h => ?_, store_kept⟩
  by_contra hne
  exact store_apart (Bool.eq_false_iff.mpr hne) h

end Beaverc

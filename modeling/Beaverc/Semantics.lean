import Beaverc.Base.Behaviors
import Beaverc.Emitted
import Beaverc.Interpreter

/-!
# The meaning of source functions

What a function does, said in terms of its syntax tree and of the names in it,
without code, operand stack, labels or slots: the specification that
`BC::Compiler` is compared with (`Beaverc.CompilerCorrectness`). Variables are
known by their names (`Variables`); where a name is looked for is a matter of
the `Scope`. The order of evaluation is the one of the compiled code, which
`Beaverc.EvaluationOrder` compares with that of the AST interpreter.

A literal is known by its number among the literals of the body around it, in
the order in which they are evaluated.
-/

namespace Beaverc

/-- What a running function does until it has a value of type `α`. -/
abbrev Computation (α : Type) :=
  Behavior Stop Event (Request × World) (Value × World) α

/-- The names of a function, by what they stand for. -/
structure Scope where
  isGlobal : Bool
  globals : List String
  freeVars : List String
  freeReferenceVars : List String
  localReferenceVars : List String
  localVars : List String

/-- The variables of a running function: the boxes of the enclosing functions,
the boxes of its own, and its plain locals. -/
structure Variables where
  closure : Addr
  captured : String → Addr
  boxes : String → Addr
  locals : String → Value

/-- How a statement ends. -/
inductive Completion where
  | normal (A : Variables) (w : World)
  | returned (v : Value) (w : World)

/-- An operation on the world, which is shown. -/
def Action.run (a : Action) (w : World) : Computation (Value × World) :=
  match perform a w with
  | .ok r => .act (.act a) (.done r)
  | .error e => .fail e

/-- A value that is computed without the world. -/
def computed (x : Except Stop Value) (w : World) : Computation (Value × World) :=
  (Behavior.ofExcept x).bind fun v => .done (v, w)

def call (function : Value) (arguments : List Value) (w : World) : Computation (Value × World) :=
  .ask (.call function arguments, w) .done

/-- A point at which the garbage is collected: the function roots the variables
and boxes it has. -/
def Scope.collect (S : Scope) (A : Variables) (w : World) : Computation World :=
  .ask (.collect (S.localVars.map A.locals)
    (S.localReferenceVars.map A.boxes ++ S.freeVars.map A.captured) [], w) fun a => .done a.2

def unassigned {α : Type} (x : String) : Computation α :=
  .fail (.raised .uninitializedVariable x)

def Scope.read (S : Scope) (A : Variables) (x : String) (w : World) : Computation (Value × World) :=
  if x ∈ S.globals then (Action.loadGlobal x).run w
  else if x ∈ S.freeVars then (Action.loadReference (A.captured x)).run w
  else if x ∈ S.localReferenceVars then (Action.loadReference (A.boxes x)).run w
  else if x ∈ S.localVars then .done (A.locals x, w)
  else unassigned x

/-- The value is discarded that a computation ends with. -/
def thenNormal (A : Variables) (c : Computation (Value × World)) : Computation Completion :=
  c.bind fun r => .done (.normal A r.2)

def Scope.write (S : Scope) (A : Variables) (x : String) (v : Value) (w : World) :
    Computation Completion :=
  if x ∈ S.globals then thenNormal A ((Action.storeGlobal x v).run w)
  else if x ∈ S.freeVars then thenNormal A ((Action.storeReference (A.captured x) v).run w)
  else if x ∈ S.localReferenceVars then thenNormal A ((Action.storeReference (A.boxes x) v).run w)
  else if x ∈ S.localVars then
    .done (.normal { A with locals := Function.update A.locals x v } w)
  else if S.isGlobal then thenNormal A ((Action.storeGlobal x v).run w)
  else unassigned x

/-- The boxes a literal captures. -/
def Scope.captures (S : Scope) (A : Variables) (body : Block) : List Addr :=
  let globals := getGlobals body
  (getOuterRefs S.localReferenceVars (getLocals globals body) globals body).map A.boxes ++
    (getOuterRefs S.freeReferenceVars (getLocals globals body) globals body).map A.captured

/-- A new closure of the literal number `k`. -/
def Scope.closure (S : Scope) (A : Variables) (body : Block) (k : Nat) (w : World) :
    Computation (Value × World) :=
  ((Action.loadFunc A.closure k).run w).bind fun r =>
    (Action.allocClosure r.1 ((S.captures A body).map .pointer)).run r.2

/-! ## Expressions -/

/-- A binary operation applied to the values of its operands. -/
def BinOpSym.apply (op : BinOpSym) (left right : Value) (w : World) :
    Computation (Value × World) :=
  match op with
  | .or => computed (Arithmetic.or.apply left right) w
  | .and => computed (Arithmetic.and.apply left right) w
  | .lt => computed (Arithmetic.gt.apply right left) w
  | .lte => computed (Arithmetic.geq.apply right left) w
  | .gt => computed (Arithmetic.gt.apply left right) w
  | .gte => computed (Arithmetic.geq.apply left right) w
  | .eq => (Action.eq left right).run w
  | .plus => (Action.add left right).run w
  | .minus => computed (Arithmetic.sub.apply left right) w
  | .mul => computed (Arithmetic.mul.apply left right) w
  | .div => computed (Arithmetic.div.apply left right) w

def UnOpSym.apply (op : UnOpSym) (v : Value) (w : World) : Computation (Value × World) :=
  match op with
  | .not => computed v.not w
  | .neg => computed v.negate w

/-- Whether the right operand is evaluated first. -/
def BinOpSym.swapped : BinOpSym → Bool
  | .lt | .lte => true
  | _ => false

/-- The literals in a piece of syntax, in the order of their evaluation. -/
def LHS.literals (l : LHS) : List Literal :=
  l.visits.filterMap Visit.literal?

def Expression.literals (e : Expression) : List Literal :=
  e.visits.filterMap Visit.literal?

def Arguments.literals (as : Arguments) : List Literal :=
  as.visits.filterMap Visit.literal?

mutual
/-- The value of a piece of syntax; `k` is the number of the next literal. -/
def LHS.eval (S : Scope) (A : Variables) : LHS → Nat → World → Computation (Value × World)
  | .name x, _, w => S.read A x w
  | .index base idx, k, w =>
    (base.eval S A k w).bind fun record =>
    (idx.eval S A (k + base.literals.length) record.2).bind fun index =>
    (Action.indexLoad record.1 index.1).run index.2
  | .field base x, k, w =>
    (base.eval S A k w).bind fun record => (Action.fieldLoad record.1 x).run record.2

def Expression.eval (S : Scope) (A : Variables) :
    Expression → Nat → World → Computation (Value × World)
  | .lhs l, k, w => l.eval S A k w
  | .call target arguments, k, w =>
    (arguments.eval S A k w).bind fun values =>
    (target.eval S A (k + arguments.literals.length) values.2).bind fun function =>
    call function.1 values.1 function.2
  | .function _ body, k, w => S.closure A body k w
  | .record fields, k, w =>
    (Action.allocRecord.run w).bind fun record =>
    (fields.eval S A record.1 k record.2).bind fun w => .done (record.1, w)
  | .boolConst b, _, w => .done (constantToValue (.boolean b), w)
  | .strConst v, _, w => .done (constantToValue (.string v), w)
  | .intConst i, _, w => .done (constantToValue (.integer i), w)
  | .nullConst, _, w => .done (constantToValue .none, w)
  | .binaryOp op left right, k, w =>
    if op.swapped then
      (right.eval S A k w).bind fun r =>
      (left.eval S A (k + right.literals.length) r.2).bind fun l => op.apply l.1 r.1 l.2
    else
      (left.eval S A k w).bind fun l =>
      (right.eval S A (k + left.literals.length) l.2).bind fun r => op.apply l.1 r.1 r.2
  | .unaryOp op expr, k, w => (expr.eval S A k w).bind fun v => op.apply v.1 v.2

/-- The values of the arguments, the first one first. -/
def Arguments.eval (S : Scope) (A : Variables) :
    Arguments → Nat → World → Computation (List Value × World)
  | .nil, _, w => .done ([], w)
  | .cons head tail, k, w =>
    (head.eval S A k w).bind fun v =>
    (tail.eval S A (k + head.literals.length) v.2).bind fun vs => .done (v.1 :: vs.1, vs.2)

/-- The fields of a new record. -/
def Fields.eval (S : Scope) (A : Variables) (record : Value) :
    Fields → Nat → World → Computation World
  | .nil, _, w => .done w
  | .cons key value tail, k, w =>
    (value.eval S A k w).bind fun v =>
    ((Action.fieldStore record key v.1).run v.2).bind fun r =>
    tail.eval S A record (k + value.literals.length) r.2
end

/-! ## Statements -/

/-- `v` is stored. -/
def LHS.store (S : Scope) (A : Variables) (v : Value) : LHS → Nat → World → Computation Completion
  | .name x, _, w => S.write A x v w
  | .index base idx, k, w =>
    (base.eval S A k w).bind fun record =>
    (idx.eval S A (k + base.literals.length) record.2).bind fun index =>
    thenNormal A ((Action.indexStore record.1 index.1 v).run index.2)
  | .field base x, k, w =>
    (base.eval S A k w).bind fun record =>
    thenNormal A ((Action.fieldStore record.1 x v).run record.2)

/-- The scope after an assignment to `x`: the first one makes it a global, if it
stands in top-level code. -/
def Scope.assign (x : String) (S : Scope) : Scope :=
  if x ∈ S.globals ∨ x ∈ S.freeVars ∨ x ∈ S.localReferenceVars ∨ x ∈ S.localVars ∨
    S.isGlobal = false then S
  else { S with globals := Tables.insert S.globals x }

mutual
/-- The scope after a statement, in the order of the text. -/
def Statement.scope : Statement → Scope → Scope
  | .assignment (.name x) _, S => S.assign x
  | .assignment (.index _ _) _, S | .assignment (.field _ _) _, S | .callStatement _ _, S
  | .global _, S | .ret _, S => S
  | .ifStatement _ thenBlock elseBlock, S => elseBlock.scope (thenBlock.scope S)
  | .whileLoop _ body, S => body.scope S

def Block.scope : Block → Scope → Scope
  | .nil, S => S
  | .cons head tail, S => tail.scope (head.scope S)
end

/-- The rest of a body, unless the function has returned. -/
def Completion.andThen (c : Completion) (f : Variables → World → Computation Completion) :
    Computation Completion :=
  match c with
  | .normal A w => f A w
  | .returned v w => .done (.returned v w)

/-- The end of a turn of a loop. -/
def Completion.turn : Completion → (Variables × World) ⊕ Completion
  | .normal A w => .inl (A, w)
  | .returned v w => .inr (.returned v w)

mutual
/-- What a statement does; a loop makes at most `fuel` turns. -/
def Statement.exec (fuel : Nat) :
    Statement → Scope → Nat → Variables → World → Computation Completion
  | .assignment lhs expr, S, k, A, w =>
    (expr.eval S A k w).bind fun v => lhs.store S A v.1 (k + expr.literals.length) v.2
  | .callStatement target arguments, S, k, A, w =>
    ((Expression.call target arguments).eval S A k w).bind fun v =>
    (S.collect A v.2).bind fun w => .done (.normal A w)
  | .global _, _, _, A, w => .done (.normal A w)
  | .ifStatement cond thenBlock elseBlock, S, k, A, w =>
    (cond.eval S A k w).bind fun v =>
    (Behavior.ofExcept v.1.getBoolean).bind fun b =>
    if b then thenBlock.exec fuel S (k + cond.literals.length) A v.2
    else elseBlock.exec fuel (thenBlock.scope S)
      (k + cond.literals.length + thenBlock.literals.length) A v.2
  | .whileLoop cond body, S, k, A, w =>
    .iterate (fun s =>
      (S.collect s.1 s.2).bind fun w =>
      (cond.eval S s.1 k w).bind fun v =>
      (Behavior.ofExcept v.1.getBoolean).bind fun b =>
      if b then
        (body.exec fuel S (k + cond.literals.length) s.1 v.2).bind fun c => .done c.turn
      else .done (.inr (.normal s.1 v.2))) fuel (A, w)
  | .ret expr, S, k, A, w => (expr.eval S A k w).bind fun v => .done (.returned v.1 v.2)

def Block.exec (fuel : Nat) : Block → Scope → Nat → Variables → World → Computation Completion
  | .nil, _, _, A, w => .done (.normal A w)
  | .cons head tail, S, k, A, w =>
    (head.exec fuel S k A w).bind fun c =>
    c.andThen fun A w => tail.exec fuel (head.scope S) (k + head.literals.length) A w
end

/-! ## Functions -/

/-- The scope of a function whose tables are those of `n`. -/
def Node.scope (isGlobal : Bool) (n : Node) : Scope :=
  ⟨isGlobal, n.globals, n.function.freeVars, n.freeReferenceVars, n.function.localReferenceVars,
    n.function.localVars⟩

/-- What a call of a literal does once its arguments are bound: a body that ends
without a return gives `none`. -/
def Literal.exec (fuel : Nat) (l : Literal) (S : Scope) (A : Variables) (w : World) :
    Computation (Option Value × World) :=
  (l.body.exec fuel S 0 A w).bind fun c =>
    match c with
    | .normal _ w => .done (some .none, w)
    | .returned v w => .done (some v, w)

mutual
/-- A return that is not inside a literal. -/
def Statement.hasReturn : Statement → Bool
  | .ret _ => true
  | .ifStatement _ thenBlock elseBlock => thenBlock.hasReturn || elseBlock.hasReturn
  | .whileLoop _ body => body.hasReturn
  | .assignment _ _ | .callStatement _ _ | .global _ => false

def Block.hasReturn : Block → Bool
  | .nil => false
  | .cons head tail => head.hasReturn || tail.hasReturn
end

/-- The native functions are stored in their globals. -/
def storeBuiltins (closure : Addr) : List (String × Nat) → World → Computation World
  | [], w => .done w
  | b :: rest, w =>
    ((Action.loadFunc closure (-(b.2 + 1 : Nat))).run w).bind fun v =>
    ((Action.storeGlobal b.1 v.1).run v.2).bind fun r => storeBuiltins closure rest r.2

/-- The scope at the start of the top-level code. -/
def Scope.top : Scope :=
  ⟨true, builtins, [], [], [], []⟩

/-- What the top-level code does. A program that is left at its end gives 0, unless
it has a return somewhere. -/
def Block.execProgram (fuel : Nat) (prog : Program) (A : Variables) (w : World) :
    Computation (Option Value × World) :=
  (storeBuiltins A.closure builtins.zipIdx w).bind fun w =>
  (prog.exec fuel Scope.top 0 A w).bind fun c =>
    match c with
    | .normal _ w => if prog.hasReturn then .done (none, w) else .done (some (.makeInteger 0), w)
    | .returned v w => .done (some v, w)

end Beaverc

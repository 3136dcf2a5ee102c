import Beaverc.Ast
import Beaverc.Base.Tables

/-!
# The scanners of the bytecode compiler

`CompilerScanner` is a visitor whose default methods descend into the children
in a fixed order; its subclasses override three methods between them. A
`Scanner` record holds these methods, and `scan` is the shared descent:

* `visitName` is called for every `Name` node, parameters of literals and field
  names included, with the flag `assigning`;
* `visitAssignment` replaces the default descent when it is present;
* `enterFunction` is absent when the subclass ignores function literals.
-/

namespace Beaverc
open Tables

/-- The overridable methods of `CompilerScanner`, over a state of type `σ`. -/
structure Scanner (σ : Type) where
  visitName : Bool → String → σ → σ
  visitGlobal : String → σ → σ := fun _ s => s
  visitAssignment : Option (LHS → σ → σ) := none
  enterFunction : Option (List String → σ → σ)
  leaveFunction : σ → σ := id

section Scan

variable {σ : Type} (S : Scanner σ)

mutual
def LHS.scan (assigning : Bool) : LHS → σ → σ
  | .name x, s => S.visitName assigning x s
  | .index base idx, s => idx.scan (base.scan false s)
  | .field base f, s => S.visitName false f (base.scan false s)

def Expression.scan : Expression → σ → σ
  | .lhs l, s => l.scan false s
  | .call target arguments, s => arguments.scan (target.scan false s)
  | .function arguments body, s =>
    match S.enterFunction with
    | none => s
    | some enter => S.leaveFunction (body.scan (enter arguments s))
  | .record fields, s => fields.scan s
  | .boolConst _, s => s
  | .strConst _, s => s
  | .intConst _, s => s
  | .nullConst, s => s
  | .binaryOp _ left right, s => right.scan (left.scan s)
  | .unaryOp _ expr, s => expr.scan s

def Arguments.scan : Arguments → σ → σ
  | .nil, s => s
  | .cons head tail, s => tail.scan (head.scan s)

def Fields.scan : Fields → σ → σ
  | .nil, s => s
  | .cons _ value tail, s => tail.scan (value.scan s)

def Statement.scan : Statement → σ → σ
  | .assignment lhs expr, s =>
    match S.visitAssignment with
    | none => expr.scan (lhs.scan true s)
    | some visit => visit lhs s
  | .callStatement target arguments, s => arguments.scan (target.scan false s)
  | .global x, s => S.visitGlobal x s
  | .ifStatement cond thenBlock elseBlock, s =>
    elseBlock.scan (thenBlock.scan (cond.scan s))
  | .whileLoop cond body, s => body.scan (cond.scan s)
  | .ret expr, s => expr.scan s

def Block.scan : Block → σ → σ
  | .nil, s => s
  | .cons head tail, s => tail.scan (head.scan s)
end

/-- A property that every method keeps is kept by a scan. -/
structure Scanner.Keeps (P : σ → Prop) : Prop where
  name : ∀ assigning x s, P s → P (S.visitName assigning x s)
  global : ∀ x s, P s → P (S.visitGlobal x s)
  assignment : ∀ visit, S.visitAssignment = some visit → ∀ lhs s, P s → P (visit lhs s)
  enter : ∀ enter, S.enterFunction = some enter → ∀ arguments s, P s → P (enter arguments s)
  leave : ∀ s, P s → P (S.leaveFunction s)

variable {S} {P : σ → Prop}

mutual
theorem LHS.scan_keeps (hk : S.Keeps P) (assigning : Bool) :
    (l : LHS) → (s : σ) → P s → P (l.scan S assigning s)
  | .name x, s, h => hk.name assigning x s h
  | .index base idx, s, h => idx.scan_keeps hk _ (base.scan_keeps hk false s h)
  | .field base f, s, h => hk.name false f _ (base.scan_keeps hk false s h)

theorem Expression.scan_keeps (hk : S.Keeps P) :
    (e : Expression) → (s : σ) → P s → P (e.scan S s)
  | .lhs l, s, h => l.scan_keeps hk false s h
  | .call target arguments, s, h => arguments.scan_keeps hk _ (target.scan_keeps hk false s h)
  | .function arguments body, s, h => by
    simp only [Expression.scan]
    split
    · exact h
    · next enter he => exact hk.leave _ (body.scan_keeps hk _ (hk.enter enter he arguments s h))
  | .record fields, s, h => fields.scan_keeps hk s h
  | .boolConst _, _, h => h
  | .strConst _, _, h => h
  | .intConst _, _, h => h
  | .nullConst, _, h => h
  | .binaryOp _ left right, s, h => right.scan_keeps hk _ (left.scan_keeps hk s h)
  | .unaryOp _ expr, s, h => expr.scan_keeps hk s h

theorem Arguments.scan_keeps (hk : S.Keeps P) :
    (as : Arguments) → (s : σ) → P s → P (as.scan S s)
  | .nil, _, h => h
  | .cons head tail, s, h => tail.scan_keeps hk _ (head.scan_keeps hk s h)

theorem Fields.scan_keeps (hk : S.Keeps P) :
    (fs : Fields) → (s : σ) → P s → P (fs.scan S s)
  | .nil, _, h => h
  | .cons _ value tail, s, h => tail.scan_keeps hk _ (value.scan_keeps hk s h)

theorem Statement.scan_keeps (hk : S.Keeps P) :
    (st : Statement) → (s : σ) → P s → P (st.scan S s)
  | .assignment lhs expr, s, h => by
    simp only [Statement.scan]
    split
    · exact expr.scan_keeps hk _ (lhs.scan_keeps hk true s h)
    · next visit hv => exact hk.assignment visit hv lhs s h
  | .callStatement target arguments, s, h =>
    arguments.scan_keeps hk _ (target.scan_keeps hk false s h)
  | .global x, s, h => hk.global x s h
  | .ifStatement cond thenBlock elseBlock, s, h =>
    elseBlock.scan_keeps hk _ (thenBlock.scan_keeps hk _ (cond.scan_keeps hk s h))
  | .whileLoop cond body, s, h => body.scan_keeps hk _ (cond.scan_keeps hk s h)
  | .ret expr, s, h => expr.scan_keeps hk s h

theorem Block.scan_keeps (hk : S.Keeps P) :
    (b : Block) → (s : σ) → P s → P (b.scan S s)
  | .nil, _, h => h
  | .cons head tail, s, h => tail.scan_keeps hk _ (head.scan_keeps hk s h)
end

end Scan

/-- `std::set<std::string>::insert`. -/
def nameSetInsert (x : String) (s : List String) : List String :=
  setInsert (· < ·) x s

/-! ## The subclasses -/

/-- `CompilerGlobalsScanner`: the names the function itself declares global. -/
def globalsScanner : Scanner (List String) where
  visitName := fun _ _ s => s
  visitGlobal := nameSetInsert
  enterFunction := none

def getGlobals (body : Block) : List String :=
  body.scan globalsScanner []

/-- `CompilerLocalsScanner`. It does not override `visit(Function&)`, so it
descends into the literals that stand outside an assignment. -/
def localsScanner (globals : List String) : Scanner (List String) where
  visitName := fun _ _ s => s
  visitAssignment := some fun lhs s =>
    match lhs with
    | .name x => if x ∈ globals then s else nameSetInsert x s
    | _ => s
  enterFunction := some fun _ s => s

def getLocals (globals : List String) (body : Block) : List String :=
  body.scan (localsScanner globals) []

/-- The state of a `CompilerRefsScanner`: the stack `ignores` (its top first)
and the names found so far. -/
structure RefsState where
  ignores : List (List String)
  refs : List String

/-- `ignores.top().insert(x)`. -/
def RefsState.ignore (x : String) (s : RefsState) : RefsState :=
  match s.ignores with
  | [] => s
  | top :: rest => { s with ignores := nameSetInsert x top :: rest }

/-- `ignores.top().count(x)`. -/
def RefsState.ignored (x : String) (s : RefsState) : Bool :=
  match s.ignores with
  | [] => false
  | top :: _ => x ∈ top

def refsScanner (needles : List String) : Scanner RefsState where
  visitName := fun assigning x s =>
    if assigning then s.ignore x
    else if x ∈ needles ∧ s.ignored x = false then { s with refs := nameSetInsert x s.refs }
    else s
  visitGlobal := RefsState.ignore
  enterFunction := some fun arguments s =>
    { s with ignores := insertAll [] arguments :: s.ignores }
  leaveFunction := fun s => { s with ignores := s.ignores.tail }

/-- `CompilerRefsScanner(locals)`: search F's descendents for F's locals. -/
def getInnerRefs (locals : List String) (body : Block) : List String :=
  (body.scan (refsScanner locals) ⟨[locals], []⟩).refs

/-- `CompilerRefsScanner(ref0s, locals, globals)`: search F and its descendents
for the references of the enclosing function. Parameters are not erased. -/
def getOuterRefs (ref0s locals globals : List String) (body : Block) : List String :=
  let needles := ref0s.filter fun x => x ∉ locals ∧ x ∉ globals
  (body.scan (refsScanner needles) ⟨[[]], []⟩).refs

end Beaverc

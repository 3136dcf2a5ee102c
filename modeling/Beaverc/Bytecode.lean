import Mathlib.Data.List.Basic

/-!
# Bytecode functions

`BC::Instruction` and `BC::Function` (`Instructions.h`, `Types.h`). An
instruction is one constructor per `Operation`, with its operand where the
operation has one. Operands are the table indices the compiler hands out;
`loadFunc` keeps a sign, because the native functions are -1, -2, ...
-/

namespace Beaverc

/-- `BC::Constant` and its four subclasses. -/
inductive Constant where
  | none
  | integer (value : Int)
  | string (value : String)
  | boolean (value : Bool)
deriving DecidableEq, Repr

/-- `BC::Operation` with its operand. -/
inductive Instruction where
  | loadConst (i : Nat)
  | loadFunc (i : Int)
  | loadLocal (i : Nat)
  | storeLocal (i : Nat)
  | loadGlobal (i : Nat)
  | storeGlobal (i : Nat)
  | pushReference (i : Nat)
  | loadReference (i : Nat)
  | storeReference (i : Nat)
  | allocRecord
  | fieldLoad (i : Nat)
  | fieldStore (i : Nat)
  | indexLoad
  | indexStore
  | allocClosure (n : Nat)
  | call (n : Nat)
  | ret
  | add
  | sub
  | mul
  | div
  | neg
  | gt
  | geq
  | eq
  | and
  | or
  | not
  | goto (label : Nat)
  | ifTrue (label : Nat)
  | dup
  | swap
  | pop
  | garbageCollect
  | label (label : Nat)
  | throwUninitialized (i : Nat)
deriving DecidableEq, Repr

/-- `BC::Function`. The two fields of the machine-code cache are left out. -/
structure Function where
  functions : List Function := []
  constants : List Constant := []
  parameterCount : Nat := 0
  localVars : List String := []
  localReferenceVars : List String := []
  freeVars : List String := []
  names : List String := []
  instructions : List Instruction := []
  argMapping : List Int := []
  labels : List (Nat × Nat) := []

instance : Inhabited Function := ⟨{}⟩

/-- `func.labels[label]`: reading an absent key of a `std::map` gives 0. -/
def Function.labelPosition (f : Function) (label : Nat) : Nat :=
  (f.labels.lookup label).getD 0

/-- The number of boxes a call of the function works with. -/
def Function.numReferences (f : Function) : Nat :=
  f.localReferenceVars.length + f.freeVars.length

/-- `SubFunction f g`: `g` is `f` or a function nested in it at any depth. -/
inductive SubFunction : Function → Function → Prop
  | refl (f : Function) : SubFunction f f
  | step {f g h : Function} : SubFunction f g → h ∈ g.functions → SubFunction f h

end Beaverc

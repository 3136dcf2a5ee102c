import Beaverc.Bytecode

/-!
# Values

`VM::Value` and the payloads of heap objects (`Value.h`). A value is one
constructor per tag; the string constants carry the text their pointer points
to. An address is a number; the two pointer tags carry one.
-/

namespace Beaverc

/-- Where a `Collectable` lies. -/
abbrev Addr := Nat

/-- `VM::Value`, by tag. -/
inductive Value where
  | none
  | integer (i : Int)
  | boolean (b : Bool)
  | stringConstant (s : String)
  | stringValue (a : Addr)
  | pointer (a : Addr)
deriving DecidableEq, Repr

instance : Inhabited Value := ⟨.none⟩

/-- `isPointer()` together with `getPointerValue()`. -/
def Value.pointer? : Value → Option Addr
  | .stringValue a | .pointer a => some a
  | _ => Option.none

/-- `isString()`. -/
def Value.isString : Value → Bool
  | .stringConstant _ | .stringValue _ => true
  | _ => false

/-- `makeInteger`: the integer is kept in the upper 61 bits of the word. -/
def Value.makeInteger (i : Int) : Value :=
  .integer (i.bmod 0x2000000000000000)

/-- What the subclasses of `PointerValue` hold. A `StringValue` of height 0 is
`string`, one of greater height is `tree`. -/
inductive Payload where
  | string (text : String)
  | tree (left right : Value)
  | record (values : List (String × Value))
  | reference (value : Value)
  | bareFunction (value : Function)
  | closure (value : Function) (references : List Addr)
  | builtInFunction (type : Nat)

namespace Payload

/-- The objects `markChildren` marks. -/
def children : Payload → List Addr
  | .tree left right => left.pointer?.toList ++ right.pointer?.toList
  | .record values => values.filterMap fun p => p.2.pointer?
  | .reference value => value.pointer?.toList
  | .closure _ references => references
  | _ => []

end Payload

/-- The sizes `size()` is built from, and `std::string::capacity`. -/
structure Sizes where
  stringValue : Nat
  recordValue : Nat
  referenceValue : Nat
  bareFunctionValue : Nat
  closureFunctionValue : Nat
  builtInFunctionValue : Nat
  collectedHeap : Nat
  string : Nat
  value : Nat
  pointer : Nat
  capacity : String → Nat

/-- What one field adds to a record. -/
def Sizes.field (sizes : Sizes) (key : String) : Nat :=
  sizes.string + sizes.capacity key + sizes.value

/-- `size()`. -/
def Payload.size (sizes : Sizes) : Payload → Nat
  | .string text => sizes.stringValue + text.utf8ByteSize
  | .tree _ _ => sizes.stringValue
  | .record values => values.foldl (fun n p => n + sizes.field p.1) sizes.recordValue
  | .reference _ => sizes.referenceValue
  | .bareFunction _ => sizes.bareFunctionValue
  | .closure f _ => sizes.closureFunctionValue + f.freeVars.length * sizes.pointer
  | .builtInFunction _ => sizes.builtInFunctionValue

/-- What the constructor passes to `increaseSize`. The constructor of a string
tree does not call it. -/
def Payload.constructorSize (sizes : Sizes) : Payload → Nat
  | .tree _ _ => 0
  | p => p.size sizes

/-! ## Exceptions -/

/-- The subclasses of `InterpreterException`. -/
inductive Exception where
  | uninitializedVariable
  | illegalCast
  | illegalArithmetic
  | runtime
  | insufficentStack
deriving DecidableEq, Repr

/-- How the VM stops before a result: an exception; an access through a pointer
to a deleted object; another undefined access (an array index out of bounds, an
object that is not of the static type); a `toString` that does not end. -/
inductive Stop where
  | raised (exception : Exception) (message : String)
  | useAfterFree
  | undefined
  | endless
deriving DecidableEq, Repr

/-- `operator[]` of a map, as a write: the key keeps its place. -/
def assign (key : String) (value : Value) : List (String × Value) → List (String × Value)
  | [] => [(key, value)]
  | p :: rest => if p.1 = key then (key, value) :: rest else p :: assign key value rest

end Beaverc

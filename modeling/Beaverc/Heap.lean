import Mathlib.Logic.Function.Basic
import Beaverc.Value

/-!
# The collected heap

`GC::Collectable`, `GC::CollectedHeap` and the mutators of `Value.cpp` that
touch the collector's state. The memory is a partial map from addresses to
objects; deleting an object removes it, and every access to an address without
an object is a `useAfterFree`. Addresses are not used again.

`mark` recurses through `markChildren`. Its first argument bounds the depth of
the recursion; a collection passes the number of listed objects plus one, and
`gcFull` and `gcFast` are shown to stay below it (`Beaverc.Collection`).
-/

namespace Beaverc

/-- `Collectable` with the data of its subclass. -/
structure Object where
  isOld : Bool
  marked : UInt32
  payload : Payload

/-- A `Value` slot inside an object: what an entry of
`cross_generation_pointers` points to. -/
inductive Slot where
  | field (a : Addr) (key : String)
  | value (a : Addr)
deriving DecidableEq, Repr

def Slot.owner : Slot → Addr
  | .field a _ | .value a => a

abbrev Store := Addr → Option Object

/-- The options and constants a heap works under. `iterationOrder` is the order
in which an `unordered_map` with the given keys is visited. -/
structure HeapOptions where
  generational : Bool
  stringTrees : Bool
  sizes : Sizes
  iterationOrder : List String → List String

/-- The options of a build for x86-64 with libstdc++. Its order of iteration comes from the
hashes of the keys; the reverse stands in for it. -/
def HeapOptions.x64 (generational stringTrees : Bool) : HeapOptions where
  generational := generational
  stringTrees := stringTrees
  sizes :=
    { stringValue := 64, recordValue := 80, referenceValue := 32, bareFunctionValue := 40,
      closureFunctionValue := 64, builtInFunctionValue := 32, collectedHeap := 136, string := 32,
      value := 8, pointer := 8, capacity := fun s => max 15 s.utf8ByteSize }
  iterationOrder := List.reverse

/-- `CollectedHeap` without its statistics. -/
structure CollectedHeap where
  options : HeapOptions
  store : Store
  next : Addr
  recentlyAllocatedObjects : List Addr
  oldObjects : List Addr
  generation : UInt64
  bytesCurrent : UInt64
  crossGenerationPointers : List Slot

def overheadFactor : Nat := 5

namespace CollectedHeap

def increaseSize (n : Nat) (h : CollectedHeap) : CollectedHeap :=
  { h with bytesCurrent := h.bytesCurrent + UInt64.ofNat (n * overheadFactor) }

def decreaseSize (n : Nat) (h : CollectedHeap) : CollectedHeap :=
  { h with bytesCurrent := h.bytesCurrent - UInt64.ofNat (n * overheadFactor) }

/-- The constructor `CollectedHeap(maxmem)`. -/
def empty (options : HeapOptions) : CollectedHeap :=
  increaseSize options.sizes.collectedHeap
    { options, store := fun _ => none, next := 0, recentlyAllocatedObjects := [],
      oldObjects := [], generation := 0, bytesCurrent := 0, crossGenerationPointers := [] }

/-- Following a pointer. -/
def deref (h : CollectedHeap) (a : Addr) : Except Stop Object :=
  match h.store a with
  | some o => .ok o
  | none => .error .useAfterFree

def setPayload (a : Addr) (p : Payload) (h : CollectedHeap) : CollectedHeap :=
  { h with store := Function.update h.store a ((h.store a).map fun o => { o with payload := p }) }

/-! ## Allocation and mutation -/

def registerAllocation (a : Addr) (h : CollectedHeap) : CollectedHeap :=
  let generational := h.options.generational
  increaseSize h.options.sizes.pointer
    { h with
      recentlyAllocatedObjects :=
        if generational then h.recentlyAllocatedObjects ++ [a] else h.recentlyAllocatedObjects
      oldObjects := if generational then h.oldObjects else h.oldObjects ++ [a] }

/-- `allocate<T>(args)`; the payload is what the constructor of `T` makes. -/
def allocate (p : Payload) (h : CollectedHeap) : Addr × CollectedHeap :=
  let a := h.next
  let h := { h with store := Function.update h.store a (some ⟨false, 0, p⟩), next := a + 1 }
  (a, registerAllocation a (h.increaseSize (p.constructorSize h.options.sizes)))

/-- The end of `RecordValue::insert` and `ReferenceValue::write`: a young object
stored into an old one is remembered. -/
def remember (owner : Addr) (slot : Slot) (inserted : Value) (h : CollectedHeap) :
    Except Stop CollectedHeap :=
  if h.options.generational then
    match inserted.pointer? with
    | none => .ok h
    | some b => do
      let target ← h.deref b
      let this ← h.deref owner
      if !target.isOld && this.isOld then
        .ok { h with crossGenerationPointers := h.crossGenerationPointers ++ [slot] }
      else .ok h
  else .ok h

/-- `RecordValue::get`: reading an absent key adds it. -/
def recordGet (a : Addr) (key : String) (h : CollectedHeap) :
    Except Stop (Value × CollectedHeap) := do
  let o ← h.deref a
  match o.payload with
  | .record values =>
    match values.lookup key with
    | some v => .ok (v, h)
    | none => .ok (.none, h.setPayload a (.record (assign key .none values)))
  | _ => .error .undefined

/-- `RecordValue::insert`. -/
def recordInsert (a : Addr) (key : String) (inserted : Value) (h : CollectedHeap) :
    Except Stop CollectedHeap := do
  let o ← h.deref a
  match o.payload with
  | .record values =>
    let h := if (values.lookup key).isNone then h.increaseSize (h.options.sizes.field key) else h
    (h.setPayload a (.record (assign key inserted values))).remember a (.field a key) inserted
  | _ => .error .undefined

/-- `ReferenceValue::write`. -/
def referenceWrite (a : Addr) (v : Value) (h : CollectedHeap) : Except Stop CollectedHeap := do
  let o ← h.deref a
  match o.payload with
  | .reference _ => (h.setPayload a (.reference v)).remember a (.value a) v
  | _ => .error .undefined

/-- `ClosureFunctionValue::add_reference`. -/
def addReference (a : Addr) (reference : Addr) (h : CollectedHeap) : Except Stop CollectedHeap := do
  let o ← h.deref a
  match o.payload with
  | .closure f references =>
    .ok ((h.increaseSize h.options.sizes.pointer).setPayload a
      (.closure f (references ++ [reference])))
  | _ => .error .undefined

end CollectedHeap

/-! ## Collection -/

/-- `Collectable::mark`. -/
def mark (generation : UInt32) (markRecentOnly : Bool) : Nat → Store → Addr → Except Stop Store
  | 0, _, _ => .error .endless
  | depth + 1, st, a =>
    match st a with
    | none => .error .useAfterFree
    | some o =>
      if o.marked = generation || markRecentOnly && o.isOld then .ok st
      else o.payload.children.foldlM (mark generation markRecentOnly depth)
        (Function.update st a (some { o with marked := generation }))

def payloadAt (st : Store) (a : Addr) : Option Payload :=
  (st a).map fun o => o.payload

/-- The value in a slot of an object with this payload, if it has such a slot. -/
def Payload.read : Payload → Slot → Option Value
  | .record values, .field _ key => values.lookup key
  | .reference v, .value _ => some v
  | _, _ => none

/-- The value that an entry of `cross_generation_pointers` points to. -/
def readSlot (st : Store) (slot : Slot) : Option Value :=
  (payloadAt st slot.owner).bind fun p => p.read slot

/-- The step of `gcFast` for one remembered slot. -/
def markSlot (generation : UInt32) (depth : Nat) (st : Store) (slot : Slot) : Except Stop Store :=
  match readSlot st slot with
  | none => .error .useAfterFree
  | some v =>
    match v.pointer? with
    | none => .ok st
    | some a => mark generation true depth st a

namespace CollectedHeap

/-- `delete ptr`, with the destructor's `decreaseSize`. -/
def delete (a : Addr) (o : Object) (h : CollectedHeap) : CollectedHeap :=
  { h.decreaseSize (o.payload.size h.options.sizes) with store := Function.update h.store a none }

/-- The sweep over one list of objects: the heap, the objects that stay in the
list and the deleted ones. `overhead` is subtracted for each deleted object. -/
def sweep (overhead : Nat) : List Addr → CollectedHeap →
    Except Stop (CollectedHeap × List Addr × List Addr)
  | [], h => .ok (h, [], [])
  | a :: rest, h => do
    let o ← h.deref a
    if o.marked.toUInt64 ≠ h.generation then
      let (h, kept, deleted) ← sweep overhead rest ((h.delete a o).decreaseSize overhead)
      .ok (h, kept, a :: deleted)
    else
      let (h, kept, deleted) ← sweep overhead rest
        { h with store := Function.update h.store a (some { o with isOld := true }) }
      .ok (h, a :: kept, deleted)

/-- The bound on the depth of a mark phase. -/
def depthBound (h : CollectedHeap) : Nat :=
  h.recentlyAllocatedObjects.length + h.oldObjects.length + 1

/-- `gcFast`; the second component is the list of deleted objects. -/
def gcFast (roots : List Addr) (h : CollectedHeap) : Except Stop (CollectedHeap × List Addr) := do
  let h := { h with generation := h.generation + 1 }
  let stamp := h.generation.toUInt32
  let st ← roots.foldlM (mark stamp true h.depthBound) h.store
  let st ← h.crossGenerationPointers.foldlM (markSlot stamp h.depthBound) st
  let h := { h with store := st, crossGenerationPointers := [] }
  let (h, kept, deleted) ← h.sweep 0 h.recentlyAllocatedObjects
  .ok ({ h with recentlyAllocatedObjects := [], oldObjects := h.oldObjects ++ kept }, deleted)

/-- `gcFull`; the second component is the list of deleted objects. -/
def gcFull (roots : List Addr) (h : CollectedHeap) : Except Stop (CollectedHeap × List Addr) := do
  let h := { h with generation := h.generation + 1 }
  let h :=
    if h.options.generational then
      { h with
        crossGenerationPointers := []
        oldObjects := h.oldObjects ++ h.recentlyAllocatedObjects
        recentlyAllocatedObjects := [] }
    else h
  let st ← roots.foldlM (mark h.generation.toUInt32 false h.depthBound) h.store
  let h := { h with store := st }
  let (h, kept, deleted) ← h.sweep h.options.sizes.pointer h.oldObjects
  .ok ({ h with oldObjects := kept }, deleted)

end CollectedHeap

end Beaverc

import Beaverc.Ir

/-!
# Register allocation

`RegisterAllocationOptimization`: a linear scan over the variables and temps of
a compiler in the order of their `live_start`. A temp that is hinted with a
variable takes the register of the variable, if it has one, without becoming
active. A multiset is a list that is sorted by its key, equal keys in the order
of insertion.
-/

namespace Beaverc.Ir

/-- How a pass stops short: an exception of a value's accessors or undefined
behaviour, an absent optional, no register left. -/
inductive Fault where
  | stop (s : Stop)
  | badOptionalAccess
  | registersExhausted
deriving DecidableEq, Repr

/-- `reg_pool`. -/
def regPool : List Reg :=
  [.r12, .r13, .r14, .r15, .r8, .r9, .r10, .r11]

/-- An element of `operands` or `active`. -/
inductive Item where
  | var (n : Nat)
  | temp (n : Nat)
deriving DecidableEq, Repr

def Item.operand (o : Operands) : Item → Operand
  | .var n => (o.var n).toOperand
  | .temp n => (o.temp n).toOperand

/-- `reg = r`. -/
def Item.setReg (r : Option Reg) (o : Operands) : Item → Operands
  | .var n => o.modifyVar n fun v => { v with reg := r }
  | .temp n => o.modifyTemp n fun t => { t with reg := r }

/-- Insertion into a multiset: behind the elements with an equal key. -/
def multisetInsert {α κ : Type} [LT κ] [DecidableRel (α := κ) (· < ·)] (key : α → κ) (a : α)
    (s : List α) : List α :=
  s.orderedInsert (fun b c => key b < key c) a

/-- The number of the variable that a temp is hinted with (`isVar`, `getVar`). -/
def Operand.var? (o : Operand) : Option Nat :=
  match o.srcVal with
  | .number n => if o.typeHint.varSrc then some n else none
  | .value _ => none

/-- `RegisterAllocationOptimization`, with the operand objects it writes to. -/
structure Allocation where
  operands : Operands
  inUse : List Reg := []
  active : List Item := []

namespace Allocation

def hasFreeReg (s : Allocation) : Bool :=
  s.inUse.length < regPool.length

/-- The register a variable had last, when it is free. -/
def lastReg (x : Item) (s : Allocation) : Option Reg :=
  match x with
  | .var n => (s.operands.var n).lastReg.filter (· ∉ s.inUse)
  | .temp _ => none

def allocateReg (x : Item) (s : Allocation) : Except Fault (Reg × Allocation) :=
  match (s.lastReg x).or (regPool.find? (· ∉ s.inUse)) with
  | some r => .ok (r, { s with inUse := r :: s.inUse })
  | none => .error .registersExhausted

/-- The register of a temp that is hinted with a variable becomes the variable's
last one. -/
def leaveReg (x : Item) (r : Reg) (o : Operands) : Operands :=
  match x with
  | .var _ => o
  | .temp n =>
    match (o.temp n).var? with
    | some v => (o.modifyTemp n fun t => { t with sharedReg := true }).modifyVar v fun var =>
      { var with lastReg := some r }
    | none => o

def deallocateReg (x : Item) (s : Allocation) : Except Fault Allocation :=
  match (x.operand s.operands).reg with
  | some r => .ok { s with inUse := s.inUse.erase r, operands := leaveReg x r s.operands }
  | none => .error .badOptionalAccess

/-- `expire_old_intervals`, from an element of `active` on. -/
def expire (x : Item) : List Item → Allocation → Except Fault Allocation
  | [], s => .ok { s with active := [] }
  | y :: rest, s =>
    if ((x.operand s.operands).liveStart : WithTop Int) < (y.operand s.operands).liveEnd then
      .ok { s with active := y :: rest }
    else do expire x rest (← s.deallocateReg y)

def expireOldIntervals (x : Item) (s : Allocation) : Except Fault Allocation :=
  expire x s.active s

/-- `active.insert(operand)`. -/
def activate (x : Item) (s : Allocation) : Allocation :=
  { s with active := multisetInsert (fun y => (y.operand s.operands).liveEnd) x s.active }

/-- `spill_at_interval`. `active.erase(spill)` erases by key. -/
def spillAtInterval (x : Item) (s : Allocation) : Except Fault Allocation :=
  match s.active.getLast? with
  | none => .error (.stop .undefined)
  | some spill =>
    let liveEnd := (spill.operand s.operands).liveEnd
    if (x.operand s.operands).liveEnd < liveEnd then
      let o := x.setReg (spill.operand s.operands).reg s.operands
      let active := s.active.filter fun y => (y.operand s.operands).liveEnd ≠ liveEnd
      .ok ({ s with operands := spill.setReg none o, active := active }.activate x)
    else .ok { s with operands := x.setReg none s.operands }

/-- The register of the variable that a temp is hinted with. -/
def sharedReg (x : Item) (s : Allocation) : Option Reg :=
  match x with
  | .var _ => none
  | .temp n => do (s.operands.var (← (s.operands.temp n).var?)).reg

def shareReg (x : Item) (r : Reg) (s : Allocation) : Allocation :=
  match x with
  | .var _ => s
  | .temp n =>
    { s with operands := s.operands.modifyTemp n fun t =>
    { t with reg := some r, sharedReg := true } }

/-- An operand's turn in `linear_scan_allocate`. -/
def step (s : Allocation) (x : Item) : Except Fault Allocation := do
  let s ← s.expireOldIntervals x
  match s.sharedReg x with
  | some r => .ok (s.shareReg x r)
  | none =>
    if s.hasFreeReg then do
      let (r, s) ← s.allocateReg x
      .ok ({ s with operands := x.setReg (some r) s.operands }.activate x)
    else s.spillAtInterval x

end Allocation

/-- `operands`: the variables and the temps by `live_start`. -/
def Compiler.sorted (c : Compiler) : List Item :=
  (c.vars.map Item.var ++ (List.range c.temps).map Item.temp).foldl
    (fun s x => multisetInsert (fun y => (y.operand c.operands).liveStart) x s) []

/-- `linear_scan_allocate`. -/
def Compiler.linearScanAllocate (c : Compiler) : Except Fault Compiler := do
  let s ← c.sorted.foldlM Allocation.step { operands := c.operands }
  return { c with operands := s.operands }

end Beaverc.Ir

import Mathlib.Logic.Function.Basic
import Mathlib.Data.List.Basic

/-!
# A fragment of x86-64

Straight-line code on 64-bit registers and a memory of 8-byte cells. A cell is
named by the address of its first byte, and cells are taken not to overlap: the
addresses a frame uses differ by multiples of 8. The flags are known after a
comparison, until the next instruction that sets them; an instruction that
divides by zero, overflows in a division or reads unknown flags has no result.
-/

namespace Beaverc.X64

abbrev Word := BitVec 64

inductive Reg where
  | rax | rcx | rdx | rbx | rsp | rbp | rsi | rdi
  | r8 | r9 | r10 | r11 | r12 | r13 | r14 | r15
deriving DecidableEq, Repr

/-- The zero, sign and overflow flags. -/
structure Flags where
  zf : Bool
  sf : Bool
  of : Bool
deriving DecidableEq, Repr

/-- The conditions of the conditional instructions. -/
inductive Cond where
  | e
  | ne
  | g
  | ge
deriving DecidableEq, Repr

def Cond.holds : Cond → Flags → Bool
  | .e, f => f.zf
  | .ne, f => !f.zf
  | .g, f => !f.zf && f.sf == f.of
  | .ge, f => f.sf == f.of

structure Machine where
  regs : Reg → Word
  mem : Word → Word
  flags : Option Flags

inductive Instr where
  | mov (dest src : Reg)
  | movImm (dest : Reg) (imm : Word)
  | load (dest base : Reg) (disp : BitVec 32)
  | store (base : Reg) (disp : BitVec 32) (src : Reg)
  | push (src : Reg)
  | pop (dest : Reg)
  | leave
  | add (dest src : Reg)
  | sub (dest src : Reg)
  | subImm (dest : Reg) (imm : BitVec 32)
  | imul (dest src : Reg)
  | sar (dest : Reg) (count : Nat)
  | sal (dest : Reg) (count : Nat)
  | cqo
  | idiv (src : Reg)
  | neg (dest : Reg)
  | and (dest src : Reg)
  | or (dest src : Reg)
  | xorImm (dest : Reg) (imm : BitVec 32)
  | cmp (left right : Reg)
  | cmpImm (left : Reg) (imm : BitVec 32)
  | cmov (c : Cond) (dest src : Reg)
  | bextr (dest src control : Reg)
deriving DecidableEq, Repr

/-- The flags after `cmp left, right`. -/
def compare (left right : Word) : Flags where
  zf := left == right
  sf := (left - right).msb
  of := left.ssubOverflow right

/-- The field of `length` bits from bit `start` on. -/
def extract (w : Word) (start length : Nat) : Word :=
  (w >>> start) &&& (BitVec.allOnes 64 >>> (64 - length))

namespace Machine

def set (r : Reg) (w : Word) (m : Machine) : Machine :=
  { m with regs := Function.update m.regs r w }

/-- A result that also sets the flags. -/
def result (r : Reg) (w : Word) (m : Machine) : Machine :=
  { m.set r w with flags := none }

def write (a w : Word) (m : Machine) : Machine :=
  { m with mem := Function.update m.mem a w }

/-- The address of a memory operand. -/
def address (m : Machine) (base : Reg) (disp : BitVec 32) : Word :=
  m.regs base + disp.signExtend 64

def pushWord (w : Word) (m : Machine) : Machine :=
  (m.set .rsp (m.regs .rsp - 8)).write (m.regs .rsp - 8) w

def popWord (r : Reg) (m : Machine) : Machine :=
  (m.set .rsp (m.regs .rsp + 8)).set r (m.mem (m.regs .rsp))

end Machine

/-- `idiv`: the signed quotient and remainder of `rdx:rax`. -/
def divide (dividend : BitVec 128) (divisor : Word) : Option (Word × Word) :=
  let n := dividend.toInt
  let d := divisor.toInt
  let q := n.tdiv d
  if d = 0 then none
  else if -0x8000000000000000 ≤ q ∧ q < 0x8000000000000000 then
    some (BitVec.ofInt 64 q, BitVec.ofInt 64 (n.tmod d))
  else none

def Instr.exec (i : Instr) (m : Machine) : Option Machine :=
  match i with
  | .mov d s => some (m.set d (m.regs s))
  | .movImm d w => some (m.set d w)
  | .load d b disp => some (m.set d (m.mem (m.address b disp)))
  | .store b disp s => some (m.write (m.address b disp) (m.regs s))
  | .push s => some (m.pushWord (m.regs s))
  | .pop d => some (m.popWord d)
  | .leave => some ((m.set .rsp (m.regs .rbp)).popWord .rbp)
  | .add d s => some (m.result d (m.regs d + m.regs s))
  | .sub d s => some (m.result d (m.regs d - m.regs s))
  | .subImm d w => some (m.result d (m.regs d - w.signExtend 64))
  | .imul d s => some (m.result d (m.regs d * m.regs s))
  | .sar d n => some (m.result d ((m.regs d).sshiftRight n))
  | .sal d n => some (m.result d (m.regs d <<< n))
  | .cqo => some (m.set .rdx ((m.regs .rax).sshiftRight 63))
  | .idiv s => do
    let (q, r) ← divide (m.regs .rdx ++ m.regs .rax) (m.regs s)
    some ((m.result .rax q).set .rdx r)
  | .neg d => some (m.result d (-m.regs d))
  | .and d s => some (m.result d (m.regs d &&& m.regs s))
  | .or d s => some (m.result d (m.regs d ||| m.regs s))
  | .xorImm d w => some (m.result d (m.regs d ^^^ w.signExtend 64))
  | .cmp a b => some { m with flags := some (compare (m.regs a) (m.regs b)) }
  | .cmpImm a w => some { m with flags := some (compare (m.regs a) (w.signExtend 64)) }
  | .cmov c d s => do
    let f ← m.flags
    some (if c.holds f then m.set d (m.regs s) else m)
  | .bextr d s c => some (m.result d (extract (m.regs s)
      ((m.regs c).extractLsb' 0 8).toNat ((m.regs c).extractLsb' 8 8).toNat))

/-- A list of instructions, the first one first. -/
def exec : List Instr → Machine → Option Machine
  | [], m => some m
  | i :: is, m => (i.exec m).bind (exec is)

/-- Whether a conditional jump is taken. -/
def Machine.takes (m : Machine) (c : Cond) : Option Bool :=
  m.flags.map c.holds

/-! ## Rules -/

@[simp] theorem Machine.set_self (m : Machine) (r : Reg) (w : Word) : (m.set r w).regs r = w :=
  Function.update_self ..

@[simp] theorem Machine.set_other (m : Machine) {r q : Reg} (w : Word) (h : q ≠ r) :
    (m.set r w).regs q = m.regs q :=
  Function.update_of_ne h ..

@[simp] theorem Machine.set_mem (m : Machine) (r : Reg) (w : Word) : (m.set r w).mem = m.mem :=
  rfl

@[simp] theorem Machine.set_flags (m : Machine) (r : Reg) (w : Word) :
    (m.set r w).flags = m.flags :=
  rfl

@[simp] theorem Machine.result_self (m : Machine) (r : Reg) (w : Word) :
    (m.result r w).regs r = w :=
  Function.update_self ..

@[simp] theorem Machine.result_other (m : Machine) {r q : Reg} (w : Word) (h : q ≠ r) :
    (m.result r w).regs q = m.regs q :=
  Function.update_of_ne h ..

@[simp] theorem Machine.result_mem (m : Machine) (r : Reg) (w : Word) :
    (m.result r w).mem = m.mem :=
  rfl

@[simp] theorem Machine.write_regs (m : Machine) (a w : Word) : (m.write a w).regs = m.regs :=
  rfl

theorem exec_append (is js : List Instr) (m : Machine) :
    exec (is ++ js) m = (exec is m).bind (exec js) := by
  induction is generalizing m with
  | nil => rfl
  | cons i is ih =>
    show (i.exec m).bind (exec (is ++ js)) = ((i.exec m).bind (exec is)).bind (exec js)
    cases i.exec m with
    | none => rfl
    | some m' => exact ih m'

/-! ## Signed words -/

theorem toInt_bounds (w : Word) :
    -0x8000000000000000 ≤ w.toInt ∧ w.toInt < 0x8000000000000000 :=
  ⟨BitVec.le_toInt w, BitVec.toInt_lt⟩

/-- Reduction to 64 bits, for the arithmetic below. -/
theorem bmod_word (i : Int) : i.bmod 0x10000000000000000 =
    if i % 0x10000000000000000 < 0x8000000000000000 then i % 0x10000000000000000
      else i % 0x10000000000000000 - 0x10000000000000000 :=
  rfl

/-- The flags of a comparison, from the signed operands. -/
theorem compare_signed (a b : Word) :
    ((compare a b).sf == (compare a b).of) = decide (b.toInt ≤ a.toInt) := by
  have ha := toInt_bounds a
  have hb := toInt_bounds b
  have hsub : (a - b).toInt = (a.toInt - b.toInt).bmod 0x10000000000000000 := BitVec.toInt_sub
  rw [bmod_word] at hsub
  have hsf : (compare a b).sf = decide ((a - b).toInt < 0) := by
    show (a - b).msb = _
    exact BitVec.msb_eq_toInt
  have hof : (compare a b).of = (decide (a.toInt - b.toInt ≥ 0x8000000000000000) ||
      decide (a.toInt - b.toInt < -0x8000000000000000)) := rfl
  rw [hsf, hof, Bool.eq_iff_iff, beq_iff_eq, Bool.eq_iff_iff]
  simp only [decide_eq_true_eq, Bool.or_eq_true]
  split at hsub
  · omega
  · omega

theorem compare_ge (a b : Word) : Cond.ge.holds (compare a b) = decide (b.toInt ≤ a.toInt) :=
  compare_signed a b

theorem compare_g (a b : Word) : Cond.g.holds (compare a b) = decide (b.toInt < a.toInt) := by
  show (!(a == b) && ((compare a b).sf == (compare a b).of)) = _
  rw [compare_signed, Bool.eq_iff_iff]
  simp only [Bool.and_eq_true, Bool.not_eq_true', beq_eq_false_iff_ne, decide_eq_true_eq, ne_eq]
  constructor
  · rintro ⟨hne, hle⟩
    have hne' : a.toInt ≠ b.toInt := fun h => hne (BitVec.toInt_inj.mp h)
    omega
  · intro hlt
    refine ⟨fun h => ?_, by omega⟩
    rw [h] at hlt
    exact Int.lt_irrefl _ hlt

/-- `cqo` extends the sign of `rax` into `rdx`. -/
theorem toInt_cqo (w : Word) : (w.sshiftRight 63 ++ w).toInt = w.toInt := by
  have hw := toInt_bounds w
  rw [BitVec.toInt_append]
  have hshift : (w.sshiftRight 63).toInt = w.toInt / 0x8000000000000000 := by
    rw [BitVec.toInt_sshiftRight, Int.shiftRight_eq_div_pow]
    rfl
  have hnat : w.toInt = if 2 * w.toNat < 0x10000000000000000 then (w.toNat : Int)
      else w.toNat - 0x10000000000000000 := BitVec.toInt_eq_toNat_cond w
  have hlt := w.isLt
  rw [hshift]
  show 0x10000000000000000 * (w.toInt / 0x8000000000000000) + (w.toNat : Int) = w.toInt
  split at hnat
  · omega
  · omega

end Beaverc.X64

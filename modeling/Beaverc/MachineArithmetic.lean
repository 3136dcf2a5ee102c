import Beaverc.Base.X64
import Beaverc.Base.Results
import Beaverc.IrMachine

/-!
# Arithmetic on tagged words

`Value.h` on 64-bit words, the arithmetic cases of `run_function` as they
compute on them, and the instructions that `ASM::Compiler::compile` emits for
the same operations. All of them agree on every operand, except that the product
of compiled code keeps three bits less.
-/

namespace Beaverc
open X64

/-! ## Tagged words -/

namespace Tagged

def valueMask : Word := 7
def integerTag : Word := 0
def booleanTag : Word := 2

def isInteger (w : Word) : Bool :=
  w &&& valueMask == integerTag

def isBoolean (w : Word) : Bool :=
  w &&& valueMask == booleanTag

def getInteger (w : Word) : Except Stop Word :=
  if isInteger w then .ok ((w &&& ~~~valueMask).sdiv 8)
  else .error (.raised .illegalCast "Value is not a integer")

def getBoolean (w : Word) : Except Stop Bool :=
  if isBoolean w then .ok (w &&& ~~~valueMask != 0)
  else .error (.raised .illegalCast "Value is not a boolean")

def makeBoolean (b : Bool) : Word :=
  booleanTag ||| ((if b then 1 else 0) <<< 3)

def makeInteger (i : Word) : Word :=
  i * 8

end Tagged

open Tagged

namespace Ir

/-- What `run_function` computes for an operation, in the arithmetic of
`int64_t` modulo 2^64. -/
def BinOp.compute (op : BinOp) (left right : Word) : Except Stop Word := do
  match op with
  | .add | .intAdd => return makeInteger ((← getInteger right) + (← getInteger left))
  | .sub => return makeInteger ((← getInteger left) - (← getInteger right))
  | .mul => return makeInteger ((← getInteger left) * (← getInteger right))
  | .div =>
    if (← getInteger right) = 0 then .error (.raised .illegalArithmetic "divide by zero")
    else return makeInteger ((← getInteger left).sdiv (← getInteger right))
  | .gt => return makeBoolean ((← getInteger right).slt (← getInteger left))
  | .geq => return makeBoolean ((← getInteger right).sle (← getInteger left))
  | .eq | .fastEq => return makeBoolean (left == right)
  | .and =>
    if ← getBoolean left then return makeBoolean (← getBoolean right) else return makeBoolean false
  | .or =>
    if ← getBoolean left then return makeBoolean true else return makeBoolean (← getBoolean right)

def UnOp.compute (op : UnOp) (v : Word) : Except Stop Word := do
  match op with
  | .neg => return makeInteger (-(← getInteger v))
  | .not => return makeBoolean (!(← getBoolean v))

/-! ## Emitted code -/

/-- `reg_move`. -/
def regMove (dest src : X64.Reg) : List Instr :=
  if src ≠ dest then [.mov dest src] else []

/-- A comparison with its result as a tagged boolean. -/
def emitCompare (c : Cond) (s1 s2 : X64.Reg) : List Instr :=
  [.cmp s2 s1, .movImm s2 booleanTag, .movImm s1 (8 ||| booleanTag), .cmov c s2 s1]

/-- The code between reading the temps into `s1` and `s2` and writing the result
from `op.result s2`; `Add` and `Eq` call helpers. -/
def BinOp.emit (op : BinOp) (s1 s2 : X64.Reg) : Option (List Instr) :=
  match op with
  | .add | .eq => none
  | .intAdd => some [.add s2 s1]
  | .sub => some [.sub s2 s1]
  | .mul => some [.imul s2 s1, .sar s2 3]
  | .div => some (regMove .rax s1 ++ [.cqo, .idiv s2, .sal .rax 3])
  | .gt => some (emitCompare .g s1 s2)
  | .geq => some (emitCompare .ge s1 s2)
  | .fastEq => some (emitCompare .e s1 s2)
  | .and => some [.and s2 s1]
  | .or => some [.or s2 s1]

/-- The register that holds the result. -/
def BinOp.result (op : BinOp) (s2 : X64.Reg) : X64.Reg :=
  match op with
  | .div => .rax
  | _ => s2

def UnOp.emit (op : UnOp) (s1 : X64.Reg) : List Instr :=
  match op with
  | .neg => [.neg s1]
  | .not => [.xorImm s1 8]

/-- `CondJump`: the comparison in front of `je`. -/
def emitCondJump (s1 : X64.Reg) : List Instr :=
  [.cmpImm s1 (8 ||| booleanTag.setWidth 32)]

/-- `extract_bits`, on a temp in a register. -/
def extractBits (arg dest : X64.Reg) (start length : Nat) : List Instr :=
  [.movImm dest (BitVec.ofNat 64 (start + length <<< 8)), .bextr dest arg dest]

/-- `CallAssert`: the code in front of the jump over the helper that throws, and
the condition of this jump. -/
def Assert.emit (a : Assert) (arg reg : X64.Reg) : List Instr × Cond :=
  match a with
  | .int => (extractBits arg reg 0 3 ++ [.cmpImm reg (integerTag.setWidth 32)], .e)
  | .bool => (extractBits arg reg 0 3 ++ [.cmpImm reg (booleanTag.setWidth 32)], .e)
  | .notZero => ([.cmpImm arg (integerTag.setWidth 32)], .ne)

/-! ## Words of the two types -/

namespace MachineArithmeticLemmas

theorem and_valueMask (w : Word) : (w &&& valueMask).toNat = w.toNat % 8 := by
  rw [BitVec.toNat_and]
  exact Nat.and_two_pow_sub_one_eq_mod w.toNat 3

theorem isInteger_iff {w : Word} : isInteger w = true ↔ w.toNat % 8 = 0 := by
  unfold isInteger integerTag
  rw [beq_iff_eq, ← BitVec.toNat_inj, and_valueMask]
  rfl

/-- The word without its tag. -/
theorem and_not_valueMask {w : Word} (h : isInteger w = true) : w &&& ~~~valueMask = w := by
  have hmask : w &&& valueMask = 0 := beq_iff_eq.mp h
  calc w &&& ~~~valueMask = (w &&& valueMask) ||| (w &&& ~~~valueMask) := by
        rw [hmask]
        exact BitVec.zero_or.symm
    _ = w &&& (valueMask ||| ~~~valueMask) := BitVec.and_or_distrib_left.symm
    _ = w := by rw [BitVec.or_not_self, BitVec.and_allOnes]

/-- A tagged integer is eight times the integer it carries. -/
theorem isInteger_value {w : Word} (h : isInteger w = true) :
    ∃ a : Int, -0x1000000000000000 ≤ a ∧ a < 0x1000000000000000 ∧ w.toInt = 8 * a ∧
      ∃ i, getInteger w = .ok i ∧ i.toInt = a := by
  have hbounds := toInt_bounds w
  have hmod := isInteger_iff.mp h
  have hnat : w.toInt = if 2 * w.toNat < 0x10000000000000000 then (w.toNat : Int)
      else w.toNat - 0x10000000000000000 := BitVec.toInt_eq_toNat_cond w
  have hdvd : w.toInt = 8 * (w.toInt / 8) := by
    split at hnat
    · omega
    · omega
  refine ⟨w.toInt / 8, by omega, by omega, hdvd, w.sdiv 8, ?_, ?_⟩
  · unfold getInteger
    rw [if_pos h, and_not_valueMask h]
  · rw [BitVec.toInt_sdiv_of_ne_or_ne w 8 (.inr (by decide))]
    exact Int.tdiv_eq_ediv_of_dvd ⟨w.toInt / 8, hdvd⟩

/-- `makeInteger` on an integer that is known up to a multiple of 2^64. -/
theorem toInt_makeInteger {i : Word} {x : Int} (h : i.toInt = x.bmod 0x10000000000000000) :
    (makeInteger i).toInt = (x * 8).bmod 0x10000000000000000 := by
  show (i * 8).toInt = _
  rw [BitVec.toInt_mul, h]
  exact Int.bmod_mul_bmod

theorem toInt_add_bmod (x y : Word) :
    (x + y).toInt = (x.toInt + y.toInt).bmod 0x10000000000000000 :=
  BitVec.toInt_add x y

theorem toInt_sub_bmod (x y : Word) :
    (x - y).toInt = (x.toInt - y.toInt).bmod 0x10000000000000000 :=
  BitVec.toInt_sub

theorem toInt_mul_bmod (x y : Word) :
    (x * y).toInt = (x.toInt * y.toInt).bmod 0x10000000000000000 :=
  BitVec.toInt_mul x y

/-- The integers of two tagged words. -/
structure Integers (l r : Word) (a b : Int) (i j : Word) : Prop where
  left : getInteger l = .ok i
  right : getInteger r = .ok j
  l_eq : l.toInt = 8 * a
  r_eq : r.toInt = 8 * b
  i_eq : i.toInt = a
  j_eq : j.toInt = b

theorem compute_intAdd {l r i j : Word} {a b : Int} (h : Integers l r a b i j) :
    BinOp.intAdd.compute l r = .ok (l + r) := by
  have hval : makeInteger (j + i) = l + r := by
    rw [← BitVec.toInt_inj, toInt_makeInteger (toInt_add_bmod j i), toInt_add_bmod, h.l_eq, h.r_eq,
      h.i_eq, h.j_eq]
    congr 1
    omega
  simp only [BinOp.compute, h.left, h.right, ← hval]
  rfl

theorem compute_sub {l r i j : Word} {a b : Int} (h : Integers l r a b i j) :
    BinOp.sub.compute l r = .ok (l - r) := by
  have hval : makeInteger (i - j) = l - r := by
    rw [← BitVec.toInt_inj, toInt_makeInteger (toInt_sub_bmod i j), toInt_sub_bmod, h.l_eq, h.r_eq,
      h.i_eq, h.j_eq]
    congr 1
    omega
  simp only [BinOp.compute, h.left, h.right, ← hval]
  rfl

/-- The product of compiled code: the words are multiplied, and the product of
the tags is shifted out again. -/
theorem product_iff {l r i j : Word} {a b : Int} (h : Integers l r a b i j) :
    makeInteger (i * j) = (l * r).sshiftRight 3 ↔
      -0x200000000000000 ≤ (a * b).bmod 0x2000000000000000 ∧
        (a * b).bmod 0x2000000000000000 < 0x200000000000000 := by
  have hshift : ((l * r).sshiftRight 3).toInt = (l * r).toInt / 8 := by
    rw [BitVec.toInt_sshiftRight, Int.shiftRight_eq_div_pow]
    rfl
  rw [← BitVec.toInt_inj, toInt_makeInteger (toInt_mul_bmod i j), hshift, toInt_mul_bmod, h.l_eq,
    h.r_eq, h.i_eq, h.j_eq, Int.mul_assoc 8 a, Int.mul_left_comm a 8 b, ← Int.mul_assoc 8 8]
  generalize a * b = p
  have htag : p.bmod 0x2000000000000000 =
      if p % 0x2000000000000000 < 0x1000000000000000 then p % 0x2000000000000000
      else p % 0x2000000000000000 - 0x2000000000000000 := rfl
  rw [bmod_word, bmod_word, htag]
  split <;> split <;> split <;> omega

/-- The integer in it is the product in 58 bits. -/
theorem toInt_product {l r i j : Word} {a b : Int} (h : Integers l r a b i j) :
    ((l * r).sshiftRight 3).toInt = 8 * (a * b).bmod 0x400000000000000 := by
  have hshift : ((l * r).sshiftRight 3).toInt = (l * r).toInt / 8 := by
    rw [BitVec.toInt_sshiftRight, Int.shiftRight_eq_div_pow]
    rfl
  rw [hshift, toInt_mul_bmod, h.l_eq, h.r_eq, Int.mul_assoc 8 a, Int.mul_left_comm a 8 b,
    ← Int.mul_assoc 8 8]
  generalize a * b = p
  have hbits : p.bmod 0x400000000000000 =
      if p % 0x400000000000000 < 0x200000000000000 then p % 0x400000000000000
      else p % 0x400000000000000 - 0x400000000000000 := rfl
  rw [bmod_word, hbits]
  split <;> split <;> omega

theorem compute_mul_iff {l r i j : Word} {a b : Int} (h : Integers l r a b i j) :
    BinOp.mul.compute l r = .ok ((l * r).sshiftRight 3) ↔
      -0x200000000000000 ≤ (a * b).bmod 0x2000000000000000 ∧
        (a * b).bmod 0x2000000000000000 < 0x200000000000000 := by
  rw [← product_iff h]
  have hval : BinOp.mul.compute l r = .ok (makeInteger (i * j)) := by
    simp only [BinOp.compute, h.left, h.right]
    rfl
  rw [hval, Except.ok.injEq]

theorem compute_gt {l r i j : Word} {a b : Int} (h : Integers l r a b i j) :
    BinOp.gt.compute l r = .ok (makeBoolean (decide (r.toInt < l.toInt))) := by
  have hlt : decide (r.toInt < l.toInt) = j.slt i := by
    rw [BitVec.slt_eq_decide, h.l_eq, h.r_eq, h.i_eq, h.j_eq, decide_eq_decide]
    omega
  simp only [BinOp.compute, h.left, h.right, hlt]
  rfl

theorem compute_geq {l r i j : Word} {a b : Int} (h : Integers l r a b i j) :
    BinOp.geq.compute l r = .ok (makeBoolean (decide (r.toInt ≤ l.toInt))) := by
  have hle : decide (r.toInt ≤ l.toInt) = j.sle i := by
    rw [BitVec.sle_eq_decide, h.l_eq, h.r_eq, h.i_eq, h.j_eq, decide_eq_decide]
    omega
  simp only [BinOp.compute, h.left, h.right, hle]
  rfl

/-- The quotient of the tagged words, with a new tag. -/
theorem compute_div {l r i j : Word} {a b : Int} (h : Integers l r a b i j) (hb : b ≠ 0) :
    BinOp.div.compute l r = .ok (BitVec.ofInt 64 (l.toInt.tdiv r.toInt) <<< 3) := by
  have hj : ¬ j = 0 := fun hj => hb (by rw [← h.j_eq, hj]; rfl)
  have hval : makeInteger (i.sdiv j) = BitVec.ofInt 64 (l.toInt.tdiv r.toInt) <<< 3 := by
    have hq : l.toInt.tdiv r.toInt = a.tdiv b := by
      rw [h.l_eq, h.r_eq]
      exact Int.mul_tdiv_mul_of_pos a b (by decide)
    have hi : (i.sdiv j).toInt = (a.tdiv b).bmod 0x10000000000000000 := by
      rw [BitVec.toInt_sdiv, h.i_eq, h.j_eq]
    have hmul : BitVec.ofInt 64 (a.tdiv b) <<< 3 = makeInteger (BitVec.ofInt 64 (a.tdiv b)) :=
      BitVec.shiftLeft_eq_mul_twoPow _ 3
    rw [hq, hmul, ← BitVec.toInt_inj, toInt_makeInteger hi,
      toInt_makeInteger (BitVec.toInt_ofInt (a.tdiv b))]
  simp only [BinOp.compute, h.left, h.right, ← hval, Results.ok_bind, if_neg hj]
  rfl

/-! ## Running the emitted code -/

variable {m : X64.Machine} {s1 s2 : X64.Reg}

/-- A comparison leaves a tagged boolean in `s2`. -/
theorem exec_compare (c : Cond) (hne : s1 ≠ s2) :
    ∃ m', exec (emitCompare c s1 s2) m = some m' ∧
      m'.regs s2 = makeBoolean (c.holds (compare (m.regs s2) (m.regs s1))) := by
  refine ⟨_, rfl, ?_⟩
  cases hc : c.holds (compare (m.regs s2) (m.regs s1)) with
  | true =>
    rw [if_pos rfl, Machine.set_self, Machine.set_self]
    rfl
  | false =>
    rw [if_neg Bool.false_ne_true, Machine.set_other _ _ (Ne.symm hne), Machine.set_self]
    rfl

/-- `imul` and `sar` leave the product of the words, shifted by the tag. -/
theorem exec_mul {l r : Word} (hr : m.regs s1 = r) (hl : m.regs s2 = l) :
    ∃ m', exec [.imul s2 s1, .sar s2 3] m = some m' ∧ m'.regs s2 = (l * r).sshiftRight 3 := by
  subst hr hl
  refine ⟨_, rfl, ?_⟩
  rw [Machine.result_self, Machine.result_self]

/-- `reg_move` leaves the word of the source in the destination. -/
theorem exec_regMove (d s : X64.Reg) : ∃ m', exec (regMove d s) m = some m' ∧
    m'.regs d = m.regs s ∧ ∀ q, q ≠ d → m'.regs q = m.regs q := by
  unfold regMove
  split
  · exact ⟨_, rfl, Machine.set_self .., fun q hq => Machine.set_other _ _ hq⟩
  · next h =>
    rw [not_not] at h
    exact ⟨m, rfl, by rw [h], fun _ _ => rfl⟩

theorem exec_div (hrax : s2 ≠ .rax) (hrdx : s2 ≠ .rdx) {a b : Int}
    (ha : (m.regs s1).toInt = 8 * a) (hr : (m.regs s2).toInt = 8 * b) (hb : b ≠ 0)
    (hlo : -0x1000000000000000 ≤ a) (hhi : a < 0x1000000000000000) :
    ∃ m', exec (regMove .rax s1 ++ [.cqo, .idiv s2, .sal .rax 3]) m = some m' ∧
      m'.regs .rax = BitVec.ofInt 64 ((m.regs s1).toInt.tdiv (m.regs s2).toInt) <<< 3 := by
  obtain ⟨m₁, h₁, hdest, hkeep⟩ := exec_regMove (m := m) .rax s1
  rw [exec_append, h₁]
  have hdivide : divide ((m₁.regs .rax).sshiftRight 63 ++ m₁.regs .rax) (m₁.regs s2) =
      some (BitVec.ofInt 64 ((m.regs s1).toInt.tdiv (m.regs s2).toInt),
        BitVec.ofInt 64 ((m.regs s1).toInt.tmod (m.regs s2).toInt)) := by
    have hq : (m.regs s1).toInt.tdiv (m.regs s2).toInt = a.tdiv b := by
      rw [ha, hr]
      exact Int.mul_tdiv_mul_of_pos a b (by decide)
    have habs : (a.tdiv b).natAbs ≤ a.natAbs := by
      rw [Int.natAbs_tdiv]
      exact Nat.div_le_self _ _
    unfold divide
    simp only [toInt_cqo, hdest, hkeep s2 hrax]
    rw [if_neg (by omega), if_pos (by rw [hq]; omega)]
  have hcode : exec [.cqo, .idiv s2, .sal .rax 3] m₁ =
      (divide ((m₁.regs .rax).sshiftRight 63 ++ m₁.regs .rax) (m₁.regs s2)).bind fun p =>
        some ((((m₁.set .rdx ((m₁.regs .rax).sshiftRight 63)).result .rax p.1).set .rdx p.2).result
          .rax (p.1 <<< 3)) := by
    simp only [exec, Instr.exec, Option.bind_some, Machine.set_self, Machine.set_other _ _ hrdx,
      Machine.set_other (r := .rdx) (q := .rax) _ _ (by decide)]
    cases divide ((m₁.regs .rax).sshiftRight 63 ++ m₁.regs .rax) (m₁.regs s2) with
    | none => rfl
    | some p =>
      show some _ = some _
      rw [Machine.set_other _ _ (by decide), Machine.result_self]
  rw [hdivide] at hcode
  exact ⟨_, hcode, Machine.result_self ..⟩

end MachineArithmeticLemmas

open MachineArithmeticLemmas

/-! ## Agreement -/

/-- The operands an operation is defined on: booleans for `And` and `Or`, integers
or booleans for `FastEq`, and integers for the others, with a divisor that is not
zero. -/
def BinOp.DefinedOn (op : BinOp) (left right : Word) : Prop :=
  match op with
  | .and | .or => ∃ x y, left = makeBoolean x ∧ right = makeBoolean y
  | .fastEq => (isInteger left = true ∨ ∃ x, left = makeBoolean x) ∧
      (isInteger right = true ∨ ∃ y, right = makeBoolean y)
  | .div => isInteger left = true ∧ isInteger right = true ∧ right ≠ 0
  | _ => isInteger left = true ∧ isInteger right = true

/-- The registers `read_temp` can return: an operand that is written over is not
in the register of the other one, and `Div` reserves `rdx` and `rax`. -/
def BinOp.Registers (op : BinOp) (s1 s2 : X64.Reg) : Prop :=
  match op with
  | .div => s2 ≠ .rax ∧ s2 ≠ .rdx
  | _ => s1 ≠ s2

/-- The product of the untagged operands, in the 61 bits of a tagged integer. -/
def product (left right : Word) : Int :=
  (left.toInt / 8 * (right.toInt / 8)).bmod 0x2000000000000000

/-- The product fits the 58 bits that are left of it in the emitted code. -/
def productFits (left right : Word) : Prop :=
  -0x200000000000000 ≤ product left right ∧ product left right < 0x200000000000000

instance (left right : Word) : Decidable (productFits left right) :=
  inferInstanceAs (Decidable (_ ∧ _))

/-- The code of an operation ends with the word that `run_function` pushes. -/
def BinOp.Agrees (op : BinOp) (left right : Word) : Prop :=
  ∀ s1 s2 code m, op.emit s1 s2 = some code → op.Registers s1 s2 →
    (m.regs s1, m.regs s2) = (if op.leftFirst then (left, right) else (right, left)) →
    ∃ m', exec code m = some m' ∧ op.compute left right = .ok (m'.regs (op.result s2))

namespace MachineArithmeticLemmas

/-- The integers behind two tagged operands. -/
theorem integers_exist {l r : Word} (hl : isInteger l = true) (hr : isInteger r = true) :
    ∃ i j, Integers l r (l.toInt / 8) (r.toInt / 8) i j ∧
      -0x1000000000000000 ≤ l.toInt / 8 ∧ l.toInt / 8 < 0x1000000000000000 := by
  obtain ⟨a, ha, ha', hla, i, hi, hia⟩ := isInteger_value hl
  obtain ⟨b, -, -, hrb, j, hj, hjb⟩ := isInteger_value hr
  have hdiva : l.toInt / 8 = a := by omega
  have hdivb : r.toInt / 8 = b := by omega
  rw [hdiva, hdivb]
  exact ⟨i, j, ⟨hi, hj, hla, hrb, hia, hjb⟩, ha, ha'⟩

/-- The code of an operation that leaves the word `w` agrees if and only if the
interpreter computes `w`. -/
theorem agrees_iff {op : BinOp} {l r w : Word} {s2 : X64.Reg} {code : List Instr}
    (h : ∃ m', exec code m = some m' ∧ m'.regs (op.result s2) = w) :
    (∃ m', exec code m = some m' ∧ op.compute l r = .ok (m'.regs (op.result s2))) ↔
      op.compute l r = .ok w := by
  obtain ⟨m', hrun, rfl⟩ := h
  constructor
  · rintro ⟨m'', hrun', hval⟩
    rw [hrun, Option.some.injEq] at hrun'
    rw [hrun']
    exact hval
  · exact fun hval => ⟨m', hrun, hval⟩

theorem compare_agrees {op : BinOp} {c : Cond} {l r : Word}
    (hemit : ∀ s1 s2, op.emit s1 s2 = some (emitCompare c s1 s2))
    (hregs : ∀ s1 s2, op.Registers s1 s2 → s1 ≠ s2) (hfirst : op.leftFirst = false)
    (hres : ∀ s2, op.result s2 = s2)
    (hval : op.compute l r = .ok (makeBoolean (c.holds (compare l r)))) : op.Agrees l r := by
  intro s1 s2 code m hcode hne hops
  rw [hemit, Option.some.injEq] at hcode
  rw [if_neg (by rw [hfirst]; exact Bool.false_ne_true), Prod.mk.injEq] at hops
  obtain ⟨m', hrun, hword⟩ := exec_compare (m := m) c (hregs _ _ hne)
  refine ⟨m', hcode ▸ hrun, ?_⟩
  rw [hres, hword, hops.1, hops.2]
  exact hval

end MachineArithmeticLemmas

open MachineArithmeticLemmas

/-- Compiled arithmetic agrees with the interpreter on every operand, but for the
products that do not fit. -/
theorem binOp_agrees_iff {op : BinOp} {l r : Word} (h : op.DefinedOn l r) :
    op.Agrees l r ↔ (op = .mul → productFits l r) := by
  cases op with
  | add | eq => exact ⟨fun _ => nofun, fun _ _ _ _ _ => nofun⟩
  | intAdd =>
    obtain ⟨i, j, hint, -⟩ := integers_exist h.1 h.2
    refine ⟨fun _ => nofun, fun _ s1 s2 code m hcode _ hops => ?_⟩
    obtain rfl := Option.some.inj hcode
    obtain ⟨hs1, hs2⟩ := Prod.mk.inj hops
    refine (agrees_iff ⟨_, rfl, Machine.result_self m s2 (m.regs s2 + m.regs s1)⟩).mpr ?_
    rw [compute_intAdd hint, hs1, hs2]
  | sub =>
    obtain ⟨i, j, hint, -⟩ := integers_exist h.1 h.2
    refine ⟨fun _ => nofun, fun _ s1 s2 code m hcode _ hops => ?_⟩
    obtain rfl := Option.some.inj hcode
    obtain ⟨hs1, hs2⟩ := Prod.mk.inj hops
    refine (agrees_iff ⟨_, rfl, Machine.result_self m s2 (m.regs s2 - m.regs s1)⟩).mpr ?_
    rw [compute_sub hint, hs1, hs2]
  | mul =>
    obtain ⟨i, j, hint, -⟩ := integers_exist h.1 h.2
    have hrun (s1 s2 : X64.Reg) (m : X64.Machine) (hs1 : m.regs s1 = r) (hs2 : m.regs s2 = l) :=
      exec_mul hs1 hs2
    constructor
    · intro hagree _
      -- any two registers show whether the product fits
      obtain ⟨m', hrun', hval⟩ := hagree .rax .rcx _
        ⟨fun q => if q = .rax then r else l, fun _ => 0, none⟩ rfl
        (show X64.Reg.rax ≠ .rcx by decide) rfl
      exact (compute_mul_iff hint).mp ((agrees_iff (hrun .rax .rcx _ rfl rfl)).mp ⟨m', hrun', hval⟩)
    · intro hfits s1 s2 code m hcode _ hops
      obtain rfl := Option.some.inj hcode
      obtain ⟨hs1, hs2⟩ := Prod.mk.inj hops
      exact (agrees_iff (hrun s1 s2 m hs1 hs2)).mpr ((compute_mul_iff hint).mpr (hfits rfl))
  | div =>
    obtain ⟨hl, hr, hzero⟩ := h
    obtain ⟨i, j, hint, hlo, hhi⟩ := integers_exist hl hr
    -- the divisor without its tag is not 0 either
    have hb : r.toInt / 8 ≠ 0 := by
      intro hb
      have hword := hint.r_eq
      rw [hb] at hword
      exact hzero (BitVec.toInt_inj.mp hword)
    refine ⟨fun _ => nofun, fun _ s1 s2 code m hcode hregs hops => ?_⟩
    obtain rfl := Option.some.inj hcode
    obtain ⟨rfl, rfl⟩ := Prod.mk.inj hops
    refine (agrees_iff (exec_div hregs.1 hregs.2 hint.l_eq hint.r_eq hb hlo hhi)).mpr ?_
    exact compute_div hint hb
  | gt =>
    obtain ⟨i, j, hint, -⟩ := integers_exist h.1 h.2
    refine ⟨fun _ => nofun, fun _ => ?_⟩
    refine compare_agrees (c := .g) (fun _ _ => rfl) (fun _ _ => id) rfl (fun _ => rfl) ?_
    rw [compute_gt hint, compare_g]
  | geq =>
    obtain ⟨i, j, hint, -⟩ := integers_exist h.1 h.2
    refine ⟨fun _ => nofun, fun _ => ?_⟩
    refine compare_agrees (c := .ge) (fun _ _ => rfl) (fun _ _ => id) rfl (fun _ => rfl) ?_
    rw [compute_geq hint, compare_ge]
  | fastEq =>
    refine ⟨fun _ => nofun, fun _ => ?_⟩
    exact compare_agrees (c := .e) (fun _ _ => rfl) (fun _ _ => id) rfl (fun _ => rfl) rfl
  | and =>
    obtain ⟨x, y, rfl, rfl⟩ := h
    refine ⟨fun _ => nofun, fun _ s1 s2 code m hcode _ hops => ?_⟩
    obtain rfl := Option.some.inj hcode
    obtain ⟨hs1, hs2⟩ := Prod.mk.inj hops
    refine (agrees_iff ⟨_, rfl, Machine.result_self m s2 (m.regs s2 &&& m.regs s1)⟩).mpr ?_
    rw [hs1, hs2]
    cases x <;> cases y <;> rfl
  | or =>
    obtain ⟨x, y, rfl, rfl⟩ := h
    refine ⟨fun _ => nofun, fun _ s1 s2 code m hcode _ hops => ?_⟩
    obtain rfl := Option.some.inj hcode
    obtain ⟨hs1, hs2⟩ := Prod.mk.inj hops
    refine (agrees_iff ⟨_, rfl, Machine.result_self m s2 (m.regs s2 ||| m.regs s1)⟩).mpr ?_
    rw [hs1, hs2]
    cases x <;> cases y <;> rfl

/-- The operand a unary operation is defined on. -/
def UnOp.DefinedOn (op : UnOp) (v : Word) : Prop :=
  match op with
  | .neg => isInteger v = true
  | .not => ∃ x, v = makeBoolean x

/-- The code of a unary operation ends with the word that `run_function` pushes. -/
def UnOp.Agrees (op : UnOp) (v : Word) : Prop :=
  ∀ s1 (m : X64.Machine), m.regs s1 = v →
    ∃ m', exec (op.emit s1) m = some m' ∧ op.compute v = .ok (m'.regs s1)

theorem unOp_agrees {op : UnOp} {v : Word} (h : op.DefinedOn v) : op.Agrees v := by
  intro s1 m hs1
  subst hs1
  cases op with
  | neg =>
    obtain ⟨a, -, -, hv, i, hi, hia⟩ := isInteger_value h
    have hval : makeInteger (-i) = -m.regs s1 := by
      have hneg : (-i).toInt = (-a).bmod 0x10000000000000000 := by rw [BitVec.toInt_neg, hia]
      rw [← BitVec.toInt_inj, toInt_makeInteger hneg, BitVec.toInt_neg, hv, Int.neg_mul,
        Int.mul_comm a 8]
    refine ⟨_, rfl, ?_⟩
    rw [Machine.result_self, ← hval]
    simp only [UnOp.compute, hi]
    rfl
  | not =>
    obtain ⟨x, hx⟩ := h
    refine ⟨_, rfl, ?_⟩
    rw [Machine.result_self, hx]
    cases x <;> rfl

/-- `je` behind the comparison with `true` is taken if and only if the interpreter
takes the jump. -/
def CondJumpAgrees (b : Bool) : Prop :=
  ∀ s1 (m : X64.Machine), m.regs s1 = makeBoolean b →
    ∃ m', exec (emitCondJump s1) m = some m' ∧ m'.takes .e = some b ∧
      getBoolean (m.regs s1) = .ok b

theorem condJump_agrees (b : Bool) : CondJumpAgrees b := by
  intro s1 m hs1
  refine ⟨_, rfl, ?_, ?_⟩
  · show some (Cond.e.holds (compare (m.regs s1) _)) = some b
    rw [hs1]
    cases b <;> rfl
  · rw [hs1]
    cases b <;> rfl

/-- What an assertion stands for: the accessors of `run_function` do not raise. -/
def Assert.holdsOn (a : Assert) (w : Word) : Bool :=
  match a with
  | .int => isInteger w
  | .bool => isBoolean w
  | .notZero => match getInteger w with
    | .ok i => !decide (i = 0)
    | .error _ => true

/-- The helper that throws is jumped over if and only if the accessors do not
raise. -/
def Assert.Agrees (a : Assert) : Prop :=
  ∀ arg reg (m : X64.Machine), arg ≠ reg → ∃ m', exec (a.emit arg reg).1 m = some m' ∧
    m'.takes (a.emit arg reg).2 = some (a.holdsOn (m.regs arg))

theorem notZero_holdsOn (w : Word) : Assert.notZero.holdsOn w = !(w == 0) := by
  show (match getInteger w with | .ok i => (!decide (i = 0)) | .error _ => true) = !decide (w = 0)
  cases h : isInteger w with
  | true =>
    obtain ⟨a, -, -, hw, i, hi, hia⟩ := isInteger_value h
    have hiff : i = 0 ↔ w = 0 := by
      rw [← BitVec.toInt_inj, ← BitVec.toInt_inj, hia, hw]
      show a = 0 ↔ 8 * a = 0
      omega
    rw [hi]
    show (!decide (i = 0)) = !decide (w = 0)
    rw [decide_eq_decide.mpr hiff]
  | false =>
    have hne : w ≠ 0 := by
      rintro rfl
      exact absurd h (by decide)
    have herr : getInteger w = .error (.raised .illegalCast "Value is not a integer") := by
      unfold getInteger
      rw [h, if_neg Bool.false_ne_true]
    rw [herr]
    exact (congrArg (!·) (decide_eq_false hne)).symm

theorem assert_agrees (a : Assert) : a.Agrees := by
  intro arg reg m hne
  have htag : ∀ w imm, extract w 0 3 = w &&& valueMask ∧
      Cond.e.holds (compare (w &&& valueMask) imm) = (w &&& valueMask == imm) := by
    intro w imm
    refine ⟨?_, rfl⟩
    show (w >>> 0) &&& valueMask = w &&& valueMask
    rw [BitVec.ushiftRight_zero]
  cases a with
  | int =>
    refine ⟨_, rfl, ?_⟩
    show some (Cond.e.holds (compare ((X64.Machine.result reg (extract
      ((m.set reg _).regs arg) _ _) _).regs reg) _)) = _
    rw [Machine.result_self, Machine.set_other _ _ hne, Machine.set_self]
    exact congrArg some (congrArg (· == integerTag) (htag (m.regs arg) 0).1)
  | bool =>
    refine ⟨_, rfl, ?_⟩
    show some (Cond.e.holds (compare ((X64.Machine.result reg (extract
      ((m.set reg _).regs arg) _ _) _).regs reg) _)) = _
    rw [Machine.result_self, Machine.set_other _ _ hne, Machine.set_self]
    exact congrArg some (congrArg (· == booleanTag) (htag (m.regs arg) 0).1)
  | notZero =>
    refine ⟨_, rfl, ?_⟩
    exact congrArg some (notZero_holdsOn (m.regs arg)).symm

/-- Compiled arithmetic is the arithmetic of the interpreter on every tagged
operand, except for the products that need more than 58 bits. -/
theorem compiled_arithmetic_agrees (op : BinOp) (unOp : UnOp) (a : Assert) (l r v : Word)
    (b : Bool) (h : op.DefinedOn l r) (hv : unOp.DefinedOn v) :
    (op.Agrees l r ↔ (op = .mul → productFits l r)) ∧ unOp.Agrees v ∧ CondJumpAgrees b ∧
      a.Agrees :=
  ⟨binOp_agrees_iff h, unOp_agrees hv, condJump_agrees b, assert_agrees a⟩

/-- The product that machine code leaves in a temp is that of `Activation.emitted`. -/
theorem emitted_product {l r : Word} (hl : isInteger l = true) (hr : isInteger r = true)
    {m : X64.Machine} {s1 s2 : X64.Reg} (hs1 : m.regs s1 = r) (hs2 : m.regs s2 = l) :
    ∃ code m', BinOp.mul.emit s1 s2 = some code ∧ exec code m = some m' ∧
      (m'.regs s2).toInt = 8 * (l.toInt / 8 * (r.toInt / 8)).bmod 0x400000000000000 := by
  obtain ⟨i, j, hint, -⟩ := integers_exist hl hr
  obtain ⟨m', hrun, hword⟩ := exec_mul hs1 hs2
  refine ⟨_, m', rfl, hrun, ?_⟩
  rw [hword, toInt_product hint]

/-- The smallest integer is negated, and the largest one multiplied by one. -/
theorem compiled_arithmetic_agrees_bounds :
    BinOp.mul.Agrees 0x0FFFFFFFFFFFFFF8 8 ∧ UnOp.neg.Agrees 0x8000000000000000 := by
  obtain ⟨hmul, hneg, -, -⟩ := compiled_arithmetic_agrees .mul .neg .int 0x0FFFFFFFFFFFFFF8 8
    0x8000000000000000 true ⟨by decide, by decide⟩ (by show isInteger _ = true; decide)
  exact ⟨hmul.mpr fun _ => by decide, hneg⟩

/-- 2^30 times 2^28: the interpreter computes 2^58, compiled code 0. -/
theorem compiled_product_truncated :
    ¬ ∀ op l r, BinOp.DefinedOn op l r → BinOp.Agrees op l r := by
  intro h
  obtain ⟨m', hrun, hval⟩ := h .mul 0x200000000 0x80000000 ⟨by decide, by decide⟩ .rcx .rax _
    ⟨fun q => if q = .rax then 0x200000000 else 0x80000000, fun _ => 0, none⟩ rfl
    (show X64.Reg.rcx ≠ .rax by decide) rfl
  obtain rfl := Option.some.inj hrun
  exact absurd hval (by decide)

end Ir

end Beaverc

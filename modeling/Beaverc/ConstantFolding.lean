import Beaverc.OptimizerErrors

/-!
# Constant folding and the interpreter

An operation on constants is folded to the constant that `run_function` pushes
for it, and nothing else takes its operands. The exception are the operations
that the fold computes on `int`s: the interpreter has integers of 61 bits, so the
two agree where the interpreter's result is an `int` (for a division, where both
operands are).
-/

namespace Beaverc.Ir
open Results SingleUseLemmas DefinedTempsLemmas ConstantHintsLemmas OptimizerErrorsLemmas

/-! ## What the interpreter does with constants -/

/-- The same value for a program: two strings are the same if they have the same text. -/
def Same (h : CollectedHeap) (v v' : Value) : Prop :=
  v = v' ∨ v.isString = true ∧ v'.isString = true ∧ ∃ s, v.toText h = .ok s ∧ v'.toText h = .ok s

/-- The loop of `run_function`, run for one instruction with the operands on the
stack, takes them and pushes `v`. -/
def Pushes (i : Beaverc.Instruction) (operands : List Value) (f : Frame) (w : World)
    (v : Value) : Prop :=
  ∃ f' w' event v', Frame.exec i { f with stack := operands ++ f.stack } w =
    .ok (.next f' w' event) ∧ f'.stack = v' :: f.stack ∧ Same w'.heap v v'

/-- The bytecode instruction that an operation comes from. -/
def BinOp.bytecode : BinOp → Beaverc.Instruction
  | .add | .intAdd => .add
  | .sub => .sub
  | .mul => .mul
  | .div => .div
  | .gt => .gt
  | .geq => .geq
  | .eq | .fastEq => .eq
  | .and => .and
  | .or => .or

def UnOp.bytecode : UnOp → Beaverc.Instruction
  | .neg => .neg
  | .not => .not

/-- The operands as they lie on the stack of the interpreter, the right one on top. -/
def BinOp.stack {α : Type} (op : BinOp) (src1 src2 : α) : List α :=
  match op with
  | .add | .intAdd | .eq | .fastEq | .div => [src2, src1]
  | .sub | .mul | .gt | .geq | .and | .or => [src1, src2]

/-- The interpreter, given the constants in the operands of an instruction, pushes `r`. -/
def Instruction.Interpreted (i : Instruction) (o : Operands) (f : Frame) (w : World)
    (r : Value) : Prop :=
  match i with
  | .binOp op _ src1 src2 => ∃ v1 v2, (o.temp src1).srcVal = .value v1 ∧
      (o.temp src2).srcVal = .value v2 ∧ Pushes op.bytecode (op.stack v1 v2) f w r
  | .unOp op _ src => ∃ v, (o.temp src).srcVal = .value v ∧ Pushes op.bytecode [v] f w r
  | _ => False

/-- The instruction is replaced by the constant that the interpreter pushes, and the
temps that become obsolete are taken by it only (apart from the checks of them,
which `RemoveObsoleteOptimization` deletes). -/
structure FoldedRight (code : List Instruction) (i : Instruction) (o : Operands) (v : Visited)
    (f : Frame) (w : World) : Prop where
  constant : ∃ dest r, v.instruction = .assign dest (.const r) ∧ i.dests = [dest] ∧
    i.Interpreted o f w r
  obsolete : ∀ t ∈ v.obsolete, t ∈ i.uses ∧ (uses code).count t = 1

/-! ## Where the two agree -/

/-- The range of an `int`. -/
def FitsInt (i : Int) : Prop :=
  -0x80000000 ≤ i ∧ i < 0x80000000

instance (i : Int) : Decidable (FitsInt i) :=
  inferInstanceAs (Decidable (_ ∧ _))

/-- Where an operation on the integers `a` (`src1`) and `b` (`src2`) does not leave
the range of `int`s. An operand can be `-INT_MIN`, which is not an `int`. -/
def BinOp.Fits (op : BinOp) (a b : Int) : Prop :=
  match op with
  | .add | .intAdd => FitsInt (a + b)
  | .sub => FitsInt (b - a)
  | .mul => FitsInt ((a * b).bmod 0x2000000000000000)
  | .div => (a = 0x80000000 → b = 0x80000000) ∧ (b = 0x80000000 → a ≠ -0x80000000)
  | _ => True

/-- The same of an instruction whose operands are constants. -/
def Instruction.Fits (i : Instruction) (o : Operands) : Prop :=
  ∀ op dest src1 src2 a b, i = .binOp op dest src1 src2 →
    (o.temp src1).srcVal = .value (.integer a) → (o.temp src2).srcVal = .value (.integer b) →
    op.Fits a b

/-- The integers among the constants of a function are `int`s, as the type of the
field says. -/
def IntConstants (f : Function) : Prop :=
  ∀ i, .integer i ∈ f.constants → FitsInt i

/-- The constants that reach the fold. -/
def Reaching (v : Value) : Prop :=
  isLiteral v = true ∧ ∀ i, v = .integer i → -0x80000000 ≤ i ∧ i ≤ 0x80000000

namespace ConstantFoldingLemmas

/-! ### Integers -/

theorem toInt_fits (i : Int) : FitsInt (toInt i) := by
  unfold FitsInt toInt
  rw [Int.bmod_def]
  omega

theorem toInt_of_fits {i : Int} (h : FitsInt i) : toInt i = i := by
  unfold FitsInt at h
  unfold toInt
  rw [Int.bmod_def]
  omega

theorem makeInteger_small {i : Int} (hl : -0x80000000 ≤ i) (hu : i ≤ 0x80000000) :
    Value.makeInteger i = .integer i := by
  unfold Value.makeInteger
  rw [Int.bmod_def]
  congr 1
  omega

theorem makeInteger_toInt (i : Int) : Value.makeInteger (toInt i) = .integer (toInt i) := by
  obtain ⟨hl, hu⟩ := toInt_fits i
  exact makeInteger_small hl (Int.le_of_lt hu)

/-- Cutting off to 61 bits first changes nothing. -/
theorem folds_iff_fits (i : Int) :
    Value.makeInteger (toInt i) = .makeInteger i ↔ FitsInt (i.bmod 0x2000000000000000) := by
  rw [makeInteger_toInt]
  unfold Value.makeInteger
  rw [Value.integer.injEq]
  unfold FitsInt toInt
  rw [Int.bmod_def, Int.bmod_def]
  omega

theorem folds_iff_fits_small {i : Int} (hl : -0x100000000 ≤ i) (hu : i ≤ 0x100000000) :
    Value.makeInteger (toInt i) = .makeInteger i ↔ FitsInt i := by
  have hsmall : i.bmod 0x2000000000000000 = i := by
    rw [Int.bmod_def]
    omega
  rw [folds_iff_fits, hsmall]

theorem toInt_add (a b : Int) : toInt (toInt a + toInt b) = toInt (a + b) := by
  unfold toInt
  rw [Int.bmod_add_bmod, Int.add_bmod_bmod]

theorem toInt_sub (a b : Int) : toInt (toInt b - toInt a) = toInt (b - a) := by
  unfold toInt
  rw [Int.bmod_sub_bmod, Int.sub_bmod_bmod]

theorem toInt_mul (a b : Int) : toInt (toInt a * toInt b) = toInt (a * b) := by
  unfold toInt
  rw [Int.bmod_mul_bmod, Int.mul_bmod_bmod]

/-- The quotient of an `int` is smaller than the dividend. -/
theorem natAbs_quotient {a b : Int} (hb : b ≠ 0) :
    (a.tdiv b).natAbs ≤ a.natAbs ∧ (b ≠ 1 → b ≠ -1 → 2 * (a.tdiv b).natAbs ≤ a.natAbs) := by
  rw [Int.natAbs_tdiv]
  refine ⟨Nat.div_le_self .., fun h₁ h₂ => ?_⟩
  have htwo : 2 ≤ b.natAbs := by omega
  have hmul := Nat.div_mul_le_self a.natAbs b.natAbs
  have hle := Nat.mul_le_mul_left (a.natAbs / b.natAbs) htwo
  show 2 * (a.natAbs / b.natAbs) ≤ a.natAbs
  omega

theorem quotient_fits {a b : Int} (ha : FitsInt a) (hb : b ≠ 0)
    (hq : ¬ (a = -0x80000000 ∧ b = -1)) : FitsInt (a.tdiv b) := by
  obtain ⟨hl, hu⟩ := ha
  obtain ⟨hself, hhalf⟩ := natAbs_quotient (a := a) hb
  unfold FitsInt
  by_cases h₁ : b = 1
  · rw [h₁, Int.tdiv_one]
    omega
  · by_cases h₂ : b = -1
    · rw [h₂, Int.tdiv_neg, Int.tdiv_one]
      omega
    · have hh := hhalf h₁ h₂
      omega

/-- The quotient as the fold and as the interpreter compute it. -/
theorem folds_iff_fits_div {a b : Int} (ha : -0x80000000 ≤ a ∧ a ≤ 0x80000000)
    (hb : -0x80000000 ≤ b ∧ b ≤ 0x80000000) (hb0 : b ≠ 0)
    (hq : ¬ (toInt b = 0 ∨ toInt a = -0x80000000 ∧ toInt b = -1)) :
    Value.makeInteger (toInt ((toInt a).tdiv (toInt b))) = .makeInteger (a.tdiv b) ↔
      BinOp.Fits .div a b := by
  have hmin : toInt 0x80000000 = -0x80000000 := by decide
  obtain ⟨-, hq⟩ := not_or.mp hq
  obtain ⟨hself, hhalf⟩ := natAbs_quotient (a := a) hb0
  have hright : Value.makeInteger (a.tdiv b) = .integer (a.tdiv b) :=
    makeInteger_small (by omega) (by omega)
  rw [hright, makeInteger_toInt, Value.integer.injEq]
  unfold BinOp.Fits
  by_cases ha' : a = 0x80000000
  · by_cases hb' : b = 0x80000000
    · subst ha' hb'
      decide
    · -- the dividend changes its sign, and the quotient with it
      have hbInt : toInt b = b := toInt_of_fits ⟨hb.1, by omega⟩
      subst ha'
      rw [hmin, hbInt] at hq ⊢
      rw [Int.neg_tdiv]
      have hne : (0x80000000 : Int).tdiv b ≠ 0 := by
        intro hz
        have habs := congrArg Int.natAbs hz
        rw [Int.natAbs_tdiv] at habs
        have hsmall := (Nat.div_eq_zero_iff.mp habs).resolve_left (by omega)
        omega
      have hlow : (0x80000000 : Int).tdiv b ≠ -0x80000000 := by
        by_cases hone : b = 1
        · rw [hone, Int.tdiv_one]
          decide
        · have hh := hhalf hone fun h => hq ⟨rfl, h⟩
          omega
      refine iff_of_false (fun he => ?_) fun h => hb' (h.1 rfl)
      generalize (0x80000000 : Int).tdiv b = q at *
      unfold toInt at he
      rw [Int.bmod_def] at he
      omega
  · have haInt : toInt a = a := toInt_of_fits ⟨ha.1, by omega⟩
    by_cases hb' : b = 0x80000000
    · subst hb'
      rw [hmin, haInt]
      by_cases hlow : a = -0x80000000
      · subst hlow
        decide
      · have hz : a.tdiv 0x80000000 = 0 := by
          apply Int.natAbs_eq_zero.mp
          rw [Int.natAbs_tdiv]
          exact Nat.div_eq_of_lt (by omega)
        have hz' : a.tdiv (-0x80000000) = 0 := by rw [Int.tdiv_neg, hz, Int.neg_zero]
        rw [hz, hz']
        exact iff_of_true rfl ⟨fun h => absurd h ha', fun _ => hlow⟩
    · have hbInt : toInt b = b := toInt_of_fits ⟨hb.1, by omega⟩
      rw [haInt, hbInt] at hq ⊢
      rw [toInt_of_fits (quotient_fits ⟨ha.1, by omega⟩ hb0 hq)]
      exact iff_of_true rfl ⟨fun h => absurd h ha', fun h => absurd h hb'⟩

/-! ### The constants that reach the fold -/

theorem reaching_integer {i : Int} (hl : -0x80000000 ≤ i) (hu : i ≤ 0x80000000) :
    Reaching (.integer i) :=
  ⟨rfl, fun _ he => by cases he; exact ⟨hl, hu⟩⟩

theorem foldClosed_reaching : FoldClosed Reaching := by
  refine ⟨fun v => And.left, fun b => ⟨rfl, nofun⟩, fun s => ⟨rfl, nofun⟩, fun i => ?_,
    fun i hi => ?_⟩
  · obtain ⟨hl, hu⟩ := toInt_fits i
    rw [makeInteger_toInt]
    exact reaching_integer hl (Int.le_of_lt hu)
  · obtain ⟨hl, hu⟩ := hi.2 i rfl
    rw [makeInteger_small (by omega) (by omega)]
    exact reaching_integer (by omega) (by omega)

theorem reaching_constants {f : Function} (h : IntConstants f) :
    ∀ k ∈ f.constants, Reaching (constantToValue k) := by
  intro k hk
  cases k with
  | integer i =>
    obtain ⟨hl, hu⟩ := h i hk
    rw [constantToValue, makeInteger_small hl (Int.le_of_lt hu)]
    exact reaching_integer hl (Int.le_of_lt hu)
  | none | string _ | boolean _ => exact ⟨rfl, nofun⟩

/-- What holds where a constant folding pass stands. -/
theorem folds_told {lit : Value → Prop} (hlit : FoldClosed lit) {stored : Nat → Prop} {count : Nat}
    {code : List Instruction} {o o' : Operands} {i : Instruction}
    (hm : Meets (fun _ i o => constantFolding i o) count code o i o')
    (hc : ∀ i ∈ code, i.Fine lit stored) (hn : o.NoConstants) (ht : o.TellConstants lit stored) :
    i ∈ code ∧ o'.NoConstants ∧ o'.TellConstants lit stored := by
  induction hm with
  | here => exact ⟨List.mem_cons_self, hn, ht⟩
  | @later count i j rest o o' v hv _ ih =>
    have hvisits := visits_constantFolding hlit (hc i List.mem_cons_self) hn ht
      (divisionFine_of_ok hv)
    obtain ⟨v', hv', -, hn', ht'⟩ := hvisits.completes
    rw [hv] at hv'
    cases hv'
    obtain ⟨hj, hrest⟩ := ih (fun k hk => hc k (List.mem_cons_of_mem _ hk)) hn' ht'
    exact ⟨List.mem_cons_of_mem _ hj, hrest⟩

/-! ### The interpreter -/

section Pushes

variable {f : Frame} {w : World}

/-- What is no string is pushed as it is. -/
theorem pushes_iff {i : Beaverc.Instruction} {operands : List Value} (f' : Frame) (w' : World)
    (event : Option Event) {x : Value}
    (h : Frame.exec i { f with stack := operands ++ f.stack } w = .ok (.next f' w' event))
    (hst : f'.stack = x :: f.stack) (hx : x.isString = false) {v : Value} :
    Pushes i operands f w v ↔ v = x := by
  constructor
  · rintro ⟨f₁, w₁, event₁, x₁, h₁, hst₁, hsame⟩
    rw [h] at h₁
    cases h₁
    rw [hst] at hst₁
    cases hst₁
    rcases hsame with rfl | ⟨-, hs, -⟩
    · rfl
    · exact absurd (hx.symm.trans hs) nofun
  · rintro rfl
    exact ⟨f', w', event, v, h, hst, .inl rfl⟩

theorem deref_allocate (w : World) (p : Payload) :
    (w.allocate p).2.heap.deref w.heap.next = .ok ⟨false, 0, p⟩ := by
  have hstore : (w.allocate p).2.heap.store w.heap.next = some ⟨false, 0, p⟩ :=
    Function.update_self ..
  unfold CollectedHeap.deref
  rw [hstore]

/-- Two strings are added to a new object, with the two texts as its text. -/
theorem add_strings (s s' : String) (w : World) :
    ∃ w', w.add (.stringConstant s) (.stringConstant s') = .ok (.stringValue w.heap.next, w') ∧
      (Value.stringValue w.heap.next).toText w'.heap = .ok (s ++ s') := by
  have hstrings : ((Value.stringConstant s').isString || (Value.stringConstant s).isString) =
    true :=
    rfl
  by_cases htrees : w.heap.options.stringTrees = true
  · refine ⟨(w.allocate (.tree (.stringConstant s) (.stringConstant s'))).2, ?_, ?_⟩
    · unfold World.add
      rw [if_pos hstrings, if_pos htrees]
      rfl
    · show ((w.allocate _).2.heap.deref w.heap.next >>= _) = _
      rw [deref_allocate]
      rfl
  · refine ⟨(w.allocate (.string (s ++ s'))).2, ?_, ?_⟩
    · unfold World.add
      rw [if_pos hstrings, if_neg htrees]
      rfl
    · show ((w.allocate _).2.heap.deref w.heap.next >>= _) = _
      rw [deref_allocate]
      rfl

theorem pushes_add_strings (s s' : String) :
    Pushes .add [.stringConstant s', .stringConstant s] f w (.stringConstant (s ++ s')) := by
  obtain ⟨w', hadd, htext⟩ := add_strings s s' w
  refine ⟨Frame.advance (.stringValue w.heap.next :: f.stack)
    { f with stack := [.stringConstant s', .stringConstant s] ++ f.stack }, w',
    some (.act (.add (.stringConstant s) (.stringConstant s'))), .stringValue w.heap.next, ?_, rfl,
    .inr ⟨rfl, rfl, s ++ s', rfl, htext⟩⟩
  show (w.add (.stringConstant s) (.stringConstant s') >>= _) = _
  rw [hadd]
  rfl

/-- The operations of `run_function` that leave the world alone. -/
theorem pushes_arithmetic_iff (op : Arithmetic) {i : Beaverc.Instruction}
    (hi : ∀ (f : Frame) w, f.exec i w = f.arithmetic op w) {left right x : Value}
    (hx : op.apply left right = .ok x) (hs : x.isString = false) {v : Value} :
    Pushes i [right, left] f w v ↔ v = x := by
  refine pushes_iff (Frame.advance (x :: f.stack) { f with stack := [right, left] ++ f.stack })
    w none ?_ rfl hs
  rw [hi]
  show (op.apply left right >>= _) = _
  rw [hx]
  rfl

theorem pushes_add_iff {a b : Int} {v : Value} :
    Pushes .add [.integer b, .integer a] f w v ↔ v = .makeInteger (b + a) :=
  pushes_iff (Frame.advance (.makeInteger (b + a) :: f.stack)
    { f with stack := [.integer b, .integer a] ++ f.stack }) w
    (some (.act (.add (.integer a) (.integer b)))) rfl rfl rfl

theorem pushes_eq_iff {a b : Value} (ha : a.isString = false) {v : Value} :
    Pushes .eq [b, a] f w v ↔ v = .boolean (a = b) := by
  refine pushes_iff (Frame.advance (.boolean (a = b) :: f.stack)
    { f with stack := [b, a] ++ f.stack }) w (some (.act (.eq a b))) ?_ rfl rfl
  have heq : w.equals a b = .ok (.boolean (a = b)) := by
    unfold World.equals
    rw [ha]
    rfl
  show ((w.equals a b >>= _) >>= _) = _
  rw [heq]
  rfl

theorem pushes_neg_iff {a : Int} {v : Value} :
    Pushes .neg [.integer a] f w v ↔ v = .makeInteger (-a) :=
  pushes_iff (Frame.advance (.makeInteger (-a) :: f.stack)
    { f with stack := [.integer a] ++ f.stack }) w none rfl rfl rfl

theorem pushes_not_iff {b : Bool} {v : Value} :
    Pushes .not [.boolean b] f w v ↔ v = .boolean (!b) :=
  pushes_iff (Frame.advance (.boolean (!b) :: f.stack)
    { f with stack := [.boolean b] ++ f.stack }) w none rfl rfl rfl

end Pushes

/-! ### What is folded -/

section Folded

variable {lit : Value → Prop} {t u : Operand}

theorem foldInts_some (hlit : FoldClosed lit) {g : Int → Int → Except Fault Int} (ht : t.Tells lit)
    (hu : u.Tells lit) {r : Value} (h : foldIntsBinOp g t u = .ok (some r)) :
    ∃ a b c, t.srcVal = .value (.integer a) ∧ u.srcVal = .value (.integer b) ∧
      g (toInt a) (toInt b) = .ok c ∧ r = .makeInteger (toInt c) := by
  cases hi : t.typeHint.isInt && u.typeHint.isInt with
  | false =>
    unfold foldIntsBinOp at h
    rw [hi] at h
    cases h
  | true =>
    obtain ⟨hit, hiu⟩ := Bool.and_eq_true_iff.mp hi
    obtain ⟨a, b, ha, hb, he⟩ := foldInts_eq hlit g ht hu hit hiu
    rw [he] at h
    cases hg : g (toInt a) (toInt b) with
    | error e => rw [hg] at h; cases h
    | ok c =>
      rw [hg] at h
      cases h
      exact ⟨a, b, c, ha, hb, hg, rfl⟩

theorem getConst_src {v : Value} (h : t.getConst = .ok v) : t.srcVal = .value v := by
  unfold Operand.getConst at h
  split at h
  · next w hw => cases h; exact hw
  · cases h

theorem foldBools_some (hlit : FoldClosed lit) {g : Bool → Bool → Bool} (ht : t.Tells lit)
    (hu : u.Tells lit) {r : Value} (h : foldBoolBinOp g t u = .ok (some r)) :
    ∃ a b, t.srcVal = .value (.boolean a) ∧ u.srcVal = .value (.boolean b) ∧
      r = .boolean (g a b) := by
  unfold foldBoolBinOp at h
  cases hi : t.typeHint.isBool && u.typeHint.isBool with
  | false =>
    rw [hi] at h
    cases h
  | true =>
    obtain ⟨hit, hiu⟩ := Bool.and_eq_true_iff.mp hi
    obtain ⟨a, ha, hga⟩ := getBoolean_ok hlit ht hit
    obtain ⟨b, hb, hgb⟩ := getBoolean_ok hlit hu hiu
    rw [hi, ha, hb] at h
    simp only [if_true, bind, Except.bind, hga, hgb] at h
    cases h
    exact ⟨a, b, getConst_src ha, getConst_src hb, rfl⟩

theorem tells_range {i : Int} (ht : t.Tells Reaching) (h : t.srcVal = .value (.integer i)) :
    -0x80000000 ≤ i ∧ i ≤ 0x80000000 := by
  obtain ⟨v, hv, hr, -⟩ := ht
  rw [h] at hv
  cases hv
  exact hr.2 i rfl

/-- The fold of an operation with the constants in its operands, and what the
interpreter makes of them. -/
structure Compared (op : BinOp) (t u : Operand) (f : Frame) (w : World) (r : Value) : Prop where
  values : ∃ v1 v2, t.srcVal = .value v1 ∧ u.srcVal = .value v2 ∧
    (Pushes op.bytecode (op.stack v1 v2) f w r ↔
      ∀ a b, v1 = .integer a → v2 = .integer b → op.Fits a b)

variable {f : Frame} {w : World}

theorem compared_ints {op : BinOp} {g : Int → Int → Except Fault Int} (ht : t.Tells Reaching)
    (hu : u.Tells Reaching) {r : Value} (h : foldIntsBinOp g t u = .ok (some r))
    (hg : ∀ {a b c}, -0x80000000 ≤ a ∧ a ≤ 0x80000000 → -0x80000000 ≤ b ∧ b ≤ 0x80000000 →
      u.srcVal = .value (.integer b) → g (toInt a) (toInt b) = .ok c →
      (Pushes op.bytecode (op.stack (.integer a) (.integer b)) f w (.makeInteger (toInt c)) ↔
        op.Fits a b)) :
    Compared op t u f w r := by
  obtain ⟨a, b, c, ha, hb, hc, rfl⟩ := foldInts_some foldClosed_reaching ht hu h
  refine ⟨_, _, ha, hb, (hg (tells_range ht ha) (tells_range hu hb) hb hc).trans ⟨?_, ?_⟩⟩
  · intro hfits a' b' ha' hb'
    cases ha'
    cases hb'
    exact hfits
  · exact fun hall => hall a b rfl rfl

theorem compared_add {op : BinOp} (hop : op.bytecode = .add) (hfits : op.Fits = BinOp.Fits .add)
    (hstack : ∀ v1 v2 : Value, op.stack v1 v2 = [v2, v1])
    (ht : t.Tells Reaching) (hu : u.Tells Reaching) {r : Value}
    (h : foldIntsBinOp (fun a b => .ok (a + b)) t u = .ok (some r)) : Compared op t u f w r := by
  refine compared_ints ht hu h fun {a b c} ha hb _ hc => ?_
  cases hc
  rw [hop, hfits, hstack, toInt_add, pushes_add_iff, Int.add_comm b a]
  exact folds_iff_fits_small (by omega) (by omega)

theorem compared_bools {op : BinOp} {g : Bool → Bool → Bool} (ht : t.Tells Reaching)
    (hu : u.Tells Reaching) {r : Value} (h : foldBoolBinOp g t u = .ok (some r))
    (hg : ∀ a b, Pushes op.bytecode (op.stack (.boolean a) (.boolean b)) f w (.boolean (g a b))) :
    Compared op t u f w r := by
  obtain ⟨a, b, ha, hb, rfl⟩ := foldBools_some foldClosed_reaching ht hu h
  exact ⟨_, _, ha, hb, iff_of_true (hg a b) nofun⟩

theorem compared_binOp (ht : t.Tells Reaching) (hu : u.Tells Reaching) {op : BinOp} {r : Value}
    (h : op.fold t u = .ok (some r)) : Compared op t u f w r := by
  cases op with
  | gt | geq | eq => cases h
  | intAdd =>
    have hop : BinOp.intAdd.bytecode = .add := rfl
    exact compared_add hop rfl (fun _ _ => rfl) ht hu h
  | sub =>
    rw [BinOp.fold] at h
    refine compared_ints ht hu h fun {a b c} ha hb _ hc => ?_
    cases hc
    rw [toInt_sub]
    refine (pushes_arithmetic_iff .sub (fun _ _ => rfl) rfl rfl).trans ?_
    exact folds_iff_fits_small (by omega) (by omega)
  | mul =>
    rw [BinOp.fold] at h
    refine compared_ints ht hu h fun {a b c} ha hb _ hc => ?_
    cases hc
    rw [toInt_mul]
    refine (pushes_arithmetic_iff .mul (fun _ _ => rfl) rfl rfl).trans ?_
    -- the operands are multiplied the other way round
    rw [Int.mul_comm b a]
    exact folds_iff_fits (a * b)
  | and =>
    refine compared_bools ht hu h fun a b => ?_
    refine (pushes_arithmetic_iff .and (fun _ _ => rfl) ?_ rfl).mpr rfl
    cases a <;> cases b <;> rfl
  | or =>
    refine compared_bools ht hu h fun a b => ?_
    refine (pushes_arithmetic_iff .or (fun _ _ => rfl) ?_ rfl).mpr rfl
    cases a <;> cases b <;> rfl
  | add =>
    rw [BinOp.fold] at h
    split at h
    · next hs =>
      obtain ⟨hst, hsu⟩ := Bool.and_eq_true_iff.mp hs
      obtain ⟨s, hs⟩ := getString_ok foldClosed_reaching ht hst
      obtain ⟨s', hs'⟩ := getString_ok foldClosed_reaching hu hsu
      rw [hs, hs'] at h
      cases h
      exact ⟨_, _, getConst_src hs, getConst_src hs', iff_of_true (pushes_add_strings s s')
        fun _ _ he => by cases he⟩
    · exact compared_add rfl rfl (fun _ _ => rfl) ht hu h
  | div =>
    rw [BinOp.fold] at h
    -- folded unless the divisor is 0 or the quotient does not fit
    obtain ⟨v, hv, h⟩ := bind_ok.mp h
    obtain ⟨d, hd, h⟩ := bind_ok.mp h
    split at h
    · cases h
    · next hd0 =>
      refine compared_ints ht hu h fun {a b c} ha hb hbsrc hc => ?_
      rw [getConst_src hv] at hbsrc
      cases hbsrc
      cases hd
      split at hc
      · cases hc
      · next hq =>
        cases hc
        refine (pushes_arithmetic_iff .div (fun _ _ => rfl) ?_ rfl).trans
          (folds_iff_fits_div ha hb hd0 hq)
        show (if d = 0 then _ else _) = _
        rw [if_neg hd0]
        rfl
  | fastEq =>
    rw [BinOp.fold] at h
    obtain ⟨x, hx, h⟩ := bind_ok.mp h
    cases x with
    | some v =>
      cases h
      refine compared_bools ht hu hx fun a b => ?_
      refine (pushes_eq_iff rfl).mpr ?_
      cases a <;> cases b <;> rfl
    -- not two booleans: two integers, or nothing is folded
    | none =>
      dsimp only at h
      split at h
      · next hi =>
        obtain ⟨hit, hiu⟩ := Bool.and_eq_true_iff.mp hi
        obtain ⟨a, ha, hga⟩ := getInteger_ok foldClosed_reaching ht hit
        obtain ⟨b, hb, hgb⟩ := getInteger_ok foldClosed_reaching hu hiu
        rw [ha, hb] at h
        simp only [bind, Except.bind, hga, hgb] at h
        cases h
        refine ⟨_, _, getConst_src ha, getConst_src hb, iff_of_true ?_ fun _ _ _ _ => trivial⟩
        refine (pushes_eq_iff rfl).mpr ?_
        rw [Value.boolean.injEq, decide_eq_decide, Value.integer.injEq]
      · cases h

end Folded

end ConstantFoldingLemmas

namespace ConstantFoldingLemmas

theorem foldTo_folded {i : Instruction} {dest : Nat} {srcs : List Nat}
    {fold : Except Fault (Option Value)} {o : Operands} {v : Visited}
    (h : foldTo i dest srcs fold o = .ok v) (hne : v.instruction ≠ i) :
    (∀ t ∈ srcs, (o.temp t).typeHint.constSrc = true) ∧ ∃ r, fold = .ok (some r) ∧
      v.instruction = .assign dest (.const r) ∧ v.obsolete = srcs := by
  unfold foldTo at h
  split at h
  · next hall =>
    obtain ⟨x, hx, h⟩ := bind_ok.mp h
    cases x with
    | none =>
      cases h
      exact absurd rfl hne
    | some r =>
      cases h
      exact ⟨List.all_eq_true.mp hall, r, hx, rfl, rfl⟩
  · cases h
    exact absurd rfl hne

/-- What is folded, its constant compared with the interpreter's, and its operands. -/
theorem folded_iff {stored : Nat → Prop} {i : Instruction} {o : Operands} {v : Visited}
    (hi : i.Fine Reaching stored) (ht : o.TellConstants Reaching stored)
    (hv : constantFolding i o = .ok v) (hne : v.instruction ≠ i) (f : Frame) (w : World) :
    ∃ dest r, v.instruction = .assign dest (.const r) ∧ i.dests = [dest] ∧ v.obsolete = i.uses ∧
      (i.Interpreted o f w r ↔ i.Fits o) := by
  unfold constantFolding at hv
  split at hv
  · next op dest src1 src2 =>
    obtain ⟨hall, r, hr, hinst, hobs⟩ := foldTo_folded hv hne
    have hsrc (t : Nat) (hm : t ∈ [src1, src2]) : (o.temp t).toOperand.Tells Reaching :=
      ht t (hi.reads nofun t hm) (hall t hm)
    obtain ⟨v1, v2, h₁, h₂, hiff⟩ := (compared_binOp (f := f) (w := w) (hsrc src1 (by simp))
      (hsrc src2 (by simp)) hr).values
    refine ⟨dest, r, hinst, rfl, hobs, ?_⟩
    constructor
    · rintro ⟨v1', v2', h₁', h₂', hp⟩ op' dest' src1' src2' a b he ha hb
      cases he
      rw [h₁] at h₁' ha
      rw [h₂] at h₂' hb
      cases h₁'
      cases h₂'
      cases ha
      cases hb
      exact hiff.mp hp a b rfl rfl
    · intro hfits
      refine ⟨v1, v2, h₁, h₂, hiff.mpr fun a b ha hb => ?_⟩
      subst ha hb
      exact hfits op dest src1 src2 a b rfl h₁ h₂
  · next op dest src =>
    obtain ⟨hall, r, hr, hinst, hobs⟩ := foldTo_folded hv hne
    have htells : (o.temp src).toOperand.Tells Reaching :=
      ht src (hi.reads nofun src (List.mem_singleton_self _)) (hall src (List.mem_singleton_self _))
    refine ⟨dest, r, hinst, rfl, hobs, iff_of_true ?_ nofun⟩
    cases op with
    | neg =>
      rw [UnOp.fold] at hr
      split at hr
      · next hint =>
        obtain ⟨a, ha, hga⟩ := getInteger_ok foldClosed_reaching htells hint
        rw [ha] at hr
        simp only [bind, Except.bind, hga] at hr
        cases hr
        exact ⟨_, getConst_src ha, pushes_neg_iff.mpr rfl⟩
      · cases hr
    | not =>
      rw [UnOp.fold] at hr
      split at hr
      · next hbool =>
        obtain ⟨b, hb, hgb⟩ := getBoolean_ok foldClosed_reaching htells hbool
        rw [hb] at hr
        simp only [bind, Except.bind, hgb] at hr
        cases hr
        exact ⟨_, getConst_src hb, pushes_not_iff.mpr rfl⟩
      · cases hr
  · cases hv
    exact absurd rfl hne

end ConstantFoldingLemmas

open ConstantFoldingLemmas

/-- The translation takes the operands from the stack in this order. -/
theorem translate_stack {f : Function} {b : Beaverc.Instruction} {stack : List Nat} {n : Nat}
    {e : Emission} (he : translate f b stack n = some e) {op : BinOp} {dest src1 src2 : Nat}
    (hm : .binOp op dest src1 src2 ∈ e.code) :
    b = op.bytecode ∧ ∃ rest, stack = op.stack src1 src2 ++ rest := by
  cases translate_cases he with
  | sub a b rest | mul a b rest | div a b rest | gt a b rest | geq a b rest | and a b rest
  | or a b rest | add a b rest | eq a b rest =>
    simp only [List.mem_cons, Instruction.binOp.injEq, List.not_mem_nil, reduceCtorEq, false_or,
      or_false] at hm
    obtain ⟨rfl, rfl, rfl, rfl⟩ := hm
    exact ⟨rfl, rest, rfl⟩
  | _ => simp at hm

/-- Wherever compilation of a function of a compiled program comes to an operation
that it folds, whatever was compiled before: the constant is the one the
interpreter pushes for the operands, and nothing else takes them, if and only if
the operation does not leave the range of `int`s. -/
theorem folds_exact_iff (prog : Program) {g : Function} (hg : SubFunction (Beaverc.compile prog) g)
    (hint : IntConstants g) {shared : Operands} (hs : Shared shared) {n : Nat}
    {oc : OptimizingCompiler} (hst : Stands shared g n oc)
    (hp : allPasses[n]? = some .constantFolding) {i : Instruction} {o : Operands}
    (hm : oc.FoldsAt i o) {v : Visited} (hv : constantFolding i o = .ok v)
    (hne : v.instruction ≠ i) (f : Frame) (w : World) :
    FoldedRight oc.compiler.instructions i o v f w ↔ i.Fits o := by
  have hw := compile_wellEmitted prog hg
  have hn : n < allPasses.length := (List.getElem?_eq_some_iff.mp hp).1
  obtain ⟨c, hc, -⟩ := id hst
  have htold := told_of_stands foldClosed_reaching (reaching_constants hint)
    (shared_noConstants hs) hw hc hn hst
  obtain ⟨hmem, -, htells⟩ := folds_told foldClosed_reaching hm htold.fine htold.noConstants
    htold.tellConstants
  obtain ⟨dest, r, hinst, hdest, hobs, hiff⟩ := folded_iff (htold.fine i hmem) htells hv hne f w
  constructor
  · rintro ⟨⟨dest', r', hinst', -, hright⟩, -⟩
    rw [hinst] at hinst'
    cases hinst'
    exact hiff.mp hright
  · intro hfits
    refine ⟨⟨dest, r, hinst, hdest, hiff.mpr hfits⟩, fun t ht => ?_⟩
    rw [hobs] at ht
    refine ⟨ht, List.count_eq_one_of_mem ?_ (List.mem_flatMap.mpr ⟨i, hmem, ht⟩)⟩
    exact (stands_keeps hw (Nat.le_refl n) hst hst).1.nodup

/-! ## Runs of the fold -/

/-- The instruction in place `p`, and the operand objects when constant folding comes to it. -/
def met : Nat → List Instruction → Operands → Option (Instruction × Operands)
  | _, [], _ => none
  | 0, i :: _, o => some (i, o)
  | p + 1, i :: rest, o =>
    match constantFolding i o with
    | .ok v => met p rest v.operands
    | .error _ => none

/-- The same for the first constant folding pass in the compilation of `g`. -/
def foldAt (g : Function) (p : Nat) :
    Option (OptimizingCompiler × Instruction × Operands × Visited) := do
  let c ← Compiler.compile .fresh g
  match (allPasses.take 2).foldlM OptimizingCompiler.run ⟨c, []⟩ with
  | .ok oc => do
    let (i, o) ← met p oc.compiler.instructions oc.compiler.operands
    match constantFolding i o with
    | .ok v => some (oc, i, o, v)
    | .error _ => none
  | .error _ => none

namespace ConstantFoldingLemmas

theorem meets_of_met {p : Nat} {code : List Instruction} {o o' : Operands} {i : Instruction}
    (h : met p code o = some (i, o')) (count : Nat) :
    Meets (fun _ i o => constantFolding i o) count code o i o' := by
  induction p generalizing code o count with
  | zero =>
    cases code with
    | nil => cases h
    | cons j rest =>
      cases h
      exact .here
  | succ p ih =>
    cases code with
    | nil => cases h
    | cons j rest =>
      rw [met] at h
      split at h
      · next v hv => exact .later hv (ih h (count + 1))
      · cases h

theorem foldAt_some {g : Function} {p : Nat} {oc : OptimizingCompiler} {i : Instruction}
    {o : Operands} {v : Visited} (h : foldAt g p = some (oc, i, o, v)) :
    Stands .fresh g 2 oc ∧ oc.FoldsAt i o ∧ constantFolding i o = .ok v := by
  obtain ⟨c, hc, h⟩ := Option.bind_eq_some_iff.mp h
  split at h
  · next oc' hr =>
    obtain ⟨⟨i', o'⟩, hm, h⟩ := Option.bind_eq_some_iff.mp h
    dsimp only at h
    split at h
    · next v' hv =>
      cases h
      exact ⟨⟨c, hc, hr⟩, meets_of_met hm 0, hv⟩
    · cases h
  · cases h

end ConstantFoldingLemmas

/-- Whether the function adds `a` and `b` first, and the sum is folded to `r`. -/
def foldsSum (g : Function) (a b r : Int) : Bool :=
  match foldAt g 2 with
  | some (_, i, o, v) =>
    i = .binOp .add 2 0 1 ∧ (o.temp 0).srcVal = .value (.integer a) ∧
      (o.temp 1).srcVal = .value (.integer b) ∧ v.instruction = .assign 2 (.const (.integer r))
  | none => false

/-- The run that `foldsSum` finds. -/
structure FoldsSum (g : Function) (a b r : Int) (oc : OptimizingCompiler) (o : Operands)
    (v : Visited) : Prop where
  stands : Stands .fresh g 2 oc
  foldsAt : oc.FoldsAt (.binOp .add 2 0 1) o
  folds : constantFolding (.binOp .add 2 0 1) o = .ok v
  left : (o.temp 0).srcVal = .value (.integer a)
  right : (o.temp 1).srcVal = .value (.integer b)
  sum : v.instruction = .assign 2 (.const (.integer r))

namespace ConstantFoldingLemmas

theorem foldsSum_run {g : Function} {a b r : Int} (h : foldsSum g a b r = true) :
    ∃ oc o v, FoldsSum g a b r oc o v := by
  unfold foldsSum at h
  split at h
  · next oc i o v hf =>
    obtain ⟨rfl, ha, hb, hr⟩ := of_decide_eq_true h
    obtain ⟨hst, hm, hv⟩ := foldAt_some hf
    exact ⟨oc, o, v, hst, hm, hv, ha, hb, hr⟩
  · cases h

end ConstantFoldingLemmas

theorem folds_exact_small : ∃ oc o v, FoldsSum foldedFunction 1 2 3 oc o v ∧ ∀ f w,
    FoldedRight oc.compiler.instructions (.binOp .add 2 0 1) o v f w := by
  have hfolds : foldsSum foldedFunction 1 2 3 = true := by decide +kernel
  have hg : SubFunction (Beaverc.compile folded) foldedFunction := by
    refine .step (.refl _) ?_
    have hfs : (Beaverc.compile folded).functions = [foldedFunction] := rfl
    rw [hfs]
    exact List.mem_singleton.mpr rfl
  have hint : IntConstants foldedFunction := by
    have hconstants : foldedFunction.constants =
      [.integer 1, .integer 2, .none] := by decide +kernel
    intro i hi
    rw [hconstants] at hi
    simp only [List.mem_cons, Constant.integer.injEq, reduceCtorEq, List.not_mem_nil,
      or_false] at hi
    rcases hi with rfl | rfl <;> decide
  obtain ⟨oc, o, v, hrun⟩ := foldsSum_run hfolds
  have hne : v.instruction ≠ .binOp .add 2 0 1 := by
    rw [hrun.sum]
    nofun
  refine ⟨oc, o, v, hrun, fun f w => ?_⟩
  refine (folds_exact_iff folded hg hint .fresh hrun.stands rfl hrun.foldsAt hrun.folds hne f w).mpr
    fun op dest src1 src2 a b he ha hb => ?_
  cases he
  rw [hrun.left] at ha
  rw [hrun.right] at hb
  cases ha
  cases hb
  show FitsInt (1 + 2)
  decide

/-- `f = fun() { return 2147483647 + 1; };` -/
def overflow : Program :=
  .cons (.assignment (.name "f") (.function []
    (.cons (.ret (.binaryOp .plus (.intConst 0x7fffffff) (.intConst 1))) .nil))) .nil

/-- The function in it. -/
def overflowFunction : Function :=
  (Beaverc.compile overflow).functions.headD {}

/-- The sum is folded to `-2147483648`; the interpreter pushes `2147483648`. -/
theorem overflow_wrong : SubFunction (Beaverc.compile overflow) overflowFunction ∧
    IntConstants overflowFunction ∧
    ∃ oc o v, FoldsSum overflowFunction 0x7fffffff 1 (-0x80000000) oc o v ∧ ∀ f w,
      ¬ FoldedRight oc.compiler.instructions (.binOp .add 2 0 1) o v f w := by
  have hfolds : foldsSum overflowFunction 0x7fffffff 1 (-0x80000000) = true := by decide +kernel
  refine ⟨?_, ?_, ?_⟩
  · refine .step (.refl _) ?_
    have hfs : (Beaverc.compile overflow).functions = [overflowFunction] := rfl
    rw [hfs]
    exact List.mem_singleton.mpr rfl
  · have hconstants : overflowFunction.constants = [.integer 0x7fffffff, .integer 1, .none] := by
      decide +kernel
    intro i hi
    rw [hconstants] at hi
    simp only [List.mem_cons, Constant.integer.injEq, reduceCtorEq, List.not_mem_nil,
      or_false] at hi
    rcases hi with rfl | rfl <;> decide
  · obtain ⟨oc, o, v, hrun⟩ := foldsSum_run hfolds
    refine ⟨oc, o, v, hrun, fun f w hright => ?_⟩
    obtain ⟨⟨dest, r, hinst, -, v1, v2, h₁, h₂, hpushes⟩, -⟩ := hright
    rw [hrun.sum] at hinst
    rw [hrun.left] at h₁
    rw [hrun.right] at h₂
    cases hinst
    cases h₁
    cases h₂
    have hvalue := pushes_add_iff.mp hpushes
    revert hvalue
    decide

end Beaverc.Ir

import Beaverc.DefinedTemps
import Beaverc.LinearScan

/-!
# What the hints say of constants

A temp that is hinted to be a constant carries the constant in `src_val`, and its
type among its hints, unless it is stored in a variable: then
`PropagateTypesOptimization` puts the number of the variable in the place of the
constant. Such a temp is read by the store only, so the passes that ask a temp
for its constant never meet one.
-/

namespace Beaverc.Ir
open Results SingleUseLemmas DefinedTempsLemmas

/-! ## Hints -/

/-- The constants of code. -/
def isLiteral : Value → Bool
  | .integer _ | .stringConstant _ | .boolean _ | .none => true
  | .stringValue _ | .pointer _ => false

/-- Constants of code that folding does not leave. -/
structure FoldClosed (lit : Value → Prop) : Prop where
  literal : ∀ v, lit v → isLiteral v = true
  boolean : ∀ b, lit (.boolean b)
  string : ∀ s, lit (.stringConstant s)
  folded : ∀ i, lit (.makeInteger (toInt i))
  negated : ∀ i, lit (.integer i) → lit (.makeInteger (-i))

/-- The hints tell the constant, one of `lit`, and its type. -/
def Operand.Tells (lit : Value → Prop) (t : Operand) : Prop :=
  ∃ v, t.srcVal = .value v ∧ lit v ∧ (constHint v).union t.typeHint = t.typeHint

/-- The operand objects of variables, references and globals are no constants. -/
structure Operands.NoConstants (o : Operands) : Prop where
  var : ∀ n, (o.var n).typeHint.constSrc = false
  deref : ∀ n, (o.deref n).typeHint.constSrc = false
  glob : ∀ n, (o.glob n).typeHint.constSrc = false

/-- Among the temps that are not stored in a variable, constants tell what they are. -/
def Operands.TellConstants (lit : Value → Prop) (stored : Nat → Prop) (o : Operands) : Prop :=
  ∀ t, ¬ stored t → (o.temp t).typeHint.constSrc = true → (o.temp t).toOperand.Tells lit

/-- The temps stored in variables are read by nothing else, and constants are in
`lit`. -/
structure Instruction.Fine (lit : Value → Prop) (stored : Nat → Prop) (i : Instruction) : Prop where
  stores : ∀ n src, i = .store (.var n) src → stored src
  reads : (∀ n src, i ≠ .store (.var n) src) → ∀ t ∈ i.reads, ¬ stored t
  literal : ∀ dest v, i = .assign dest (.const v) → lit v

/-- The same hints, whatever the live intervals and registers. -/
structure SameHints (o o' : Operands) : Prop where
  temp : ∀ t, (o'.temp t).typeHint = (o.temp t).typeHint ∧ (o'.temp t).srcVal = (o.temp t).srcVal
  var : ∀ n, (o'.var n).typeHint = (o.var n).typeHint
  deref : o'.deref = o.deref
  glob : o'.glob = o.glob

namespace ConstantHintsLemmas

theorem tells_new {lit : Value → Prop} {v : Value} (h : lit v) : (Const.new v).Tells lit := by
  refine ⟨v, rfl, h, ?_⟩
  cases v <;> rfl

theorem integer_of_isInt {t : Operand} {v : Value} (h : t.typeHint.isInt = true)
    (hl : isLiteral v = true) (hv : (constHint v).union t.typeHint = t.typeHint) :
    ∃ i, v = .integer i := by
  have hint := of_decide_eq_true h
  generalize t.typeHint = hints at hint hv
  obtain ⟨_, _, int, bool, string, none⟩ := hints
  cases v with
  | integer i => exact ⟨i, rfl⟩
  | stringConstant _ | boolean _ | none =>
    simp [constHint, Hint.union, Hint.types] at hv hint
    simp_all
  | stringValue _ | pointer _ => cases hl

theorem boolean_of_isBool {t : Operand} {v : Value} (h : t.typeHint.isBool = true)
    (hl : isLiteral v = true) (hv : (constHint v).union t.typeHint = t.typeHint) :
    ∃ b, v = .boolean b := by
  have hint := of_decide_eq_true h
  generalize t.typeHint = hints at hint hv
  obtain ⟨_, _, int, bool, string, none⟩ := hints
  cases v with
  | boolean b => exact ⟨b, rfl⟩
  | stringConstant _ | integer _ | none =>
    simp [constHint, Hint.union, Hint.types] at hv hint
    simp_all
  | stringValue _ | pointer _ => cases hl

theorem string_of_isString {t : Operand} {v : Value} (h : t.typeHint.isString = true)
    (hl : isLiteral v = true) (hv : (constHint v).union t.typeHint = t.typeHint) :
    ∃ s, v = .stringConstant s := by
  have hint := of_decide_eq_true h
  generalize t.typeHint = hints at hint hv
  obtain ⟨_, _, int, bool, string, none⟩ := hints
  cases v with
  | stringConstant s => exact ⟨s, rfl⟩
  | boolean _ | integer _ | none =>
    simp [constHint, Hint.union, Hint.types] at hv hint
    simp_all
  | stringValue _ | pointer _ => cases hl

/-! ### Updates -/

section Updates

variable {lit : Value → Prop} {stored : Nat → Prop} {o : Operands}

theorem sameHints_refl (o : Operands) : SameHints o o :=
  ⟨fun _ => ⟨rfl, rfl⟩, fun _ => rfl, rfl, rfl⟩

theorem sameHints_trans {o o' o'' : Operands} (h : SameHints o o') (h' : SameHints o' o'') :
    SameHints o o'' :=
  ⟨fun t => ⟨(h'.temp t).1.trans (h.temp t).1, (h'.temp t).2.trans (h.temp t).2⟩,
    fun n => (h'.var n).trans (h.var n), h'.deref.trans h.deref, h'.glob.trans h.glob⟩

theorem sameHints_modifyTemp (o : Operands) (n : Nat) {f : Temp → Temp}
    (hf : ∀ t, (f t).typeHint = t.typeHint ∧ (f t).srcVal = t.srcVal) :
    SameHints o (o.modifyTemp n f) := by
  refine ⟨fun t => ?_, fun _ => rfl, rfl, rfl⟩
  rw [temp_modifyTemp]
  split
  · exact hf _
  · exact ⟨rfl, rfl⟩

theorem sameHints_modifyVar (o : Operands) (n : Nat) {f : Var → Var}
    (hf : ∀ v, (f v).typeHint = v.typeHint) : SameHints o (o.modifyVar n f) := by
  refine ⟨fun _ => ⟨rfl, rfl⟩, fun m => ?_, rfl, rfl⟩
  show (Function.update o.var n (f (o.var n)) m).typeHint = _
  by_cases h : m = n
  · rw [h, Function.update_self, hf]
  · rw [Function.update_of_ne h]

theorem sameHints_foldl {α : Type} {f : Operands → α → Operands} (h : ∀ o a, SameHints o (f o a))
    (l : List α) (o : Operands) : SameHints o (l.foldl f o) := by
  induction l generalizing o with
  | nil => exact sameHints_refl o
  | cons a l ih => exact sameHints_trans (h o a) (ih _)

theorem noConstants_same {o' : Operands} (h : o.NoConstants) (hs : SameHints o o') :
    o'.NoConstants := by
  refine ⟨fun n => ?_, hs.deref ▸ h.deref, hs.glob ▸ h.glob⟩
  rw [hs.var]
  exact h.var n

theorem tellConstants_same {o' : Operands} (h : o.TellConstants lit stored) (hs : SameHints o o') :
    o'.TellConstants lit stored := by
  intro t ht hc
  rw [(hs.temp t).1] at hc
  obtain ⟨v, hv, hl, hu⟩ := h t ht hc
  refine ⟨v, (hs.temp t).2.trans hv, hl, ?_⟩
  rw [(hs.temp t).1]
  exact hu

theorem noConstants_modifyTemp (h : o.NoConstants) (n : Nat) (f : Temp → Temp) :
    (o.modifyTemp n f).NoConstants :=
  ⟨h.var, h.deref, h.glob⟩

/-- A temp that is stored, or that tells what it is. -/
theorem tellConstants_modifyTemp (h : o.TellConstants lit stored) (n : Nat) {f : Temp → Temp}
    (hf : ¬ stored n → (f (o.temp n)).typeHint.constSrc = true →
      (f (o.temp n)).toOperand.Tells lit) :
    (o.modifyTemp n f).TellConstants lit stored := by
  intro t ht hc
  rw [temp_modifyTemp] at hc ⊢
  by_cases hn : t = n
  · subst hn
    rw [if_pos rfl] at hc ⊢
    exact hf ht hc
  · rw [if_neg hn] at hc ⊢
    exact h t ht hc

theorem noConstants_target (h : o.NoConstants) (src : Nat) (dest : Target) :
    (dest.transferHint src o).NoConstants := by
  cases dest with
  | var n =>
    refine ⟨fun m => ?_, h.deref, h.glob⟩
    show (Function.update o.var n _ m).typeHint.constSrc = false
    by_cases hm : m = n
    · rw [hm, Function.update_self]
      show ((o.var n).typeHint.constSrc || false) = false
      rw [h.var, Bool.or_false]
    · rw [Function.update_of_ne hm]
      exact h.var m
  | deref n =>
    refine ⟨h.var, fun m => ?_, h.glob⟩
    show (Function.update o.deref n _ m).typeHint.constSrc = false
    by_cases hm : m = n
    · rw [hm, Function.update_self]
      show ((o.deref n).typeHint.constSrc || false) = false
      rw [h.deref, Bool.or_false]
    · rw [Function.update_of_ne hm]
      exact h.deref m
  | glob n =>
    refine ⟨h.var, h.deref, fun m => ?_⟩
    show (Function.update o.glob n _ m).typeHint.constSrc = false
    by_cases hm : m = n
    · rw [hm, Function.update_self]
      show ((o.glob n).typeHint.constSrc || false) = false
      rw [h.glob, Bool.or_false]
    · rw [Function.update_of_ne hm]
      exact h.glob m

theorem temp_target (src : Nat) (dest : Target) (o : Operands) :
    (dest.transferHint src o).temp = o.temp := by
  cases dest <;> rfl

theorem tellConstants_target (h : o.TellConstants lit stored) (src : Nat) (dest : Target) :
    (dest.transferHint src o).TellConstants lit stored := by
  intro t ht hc
  rw [temp_target] at hc ⊢
  exact h t ht hc

/-- What an `Assign` takes its hints from. -/
theorem source_tells (h : o.NoConstants) {src : Source}
    (hl : ∀ v, src = .const v → lit v)
    (hc : (src.operand o).typeHint.constSrc = true) : (src.operand o).Tells lit := by
  cases src with
  | var n => rw [Source.operand, h.var] at hc; cases hc
  | const v => exact tells_new (hl v rfl)
  | deref n => rw [Source.operand, h.deref] at hc; cases hc
  | glob n => rw [Source.operand, h.glob] at hc; cases hc
  | retVal | ref _ | function _ => cases hc

end Updates

/-! ### The visits -/

section Visits

variable {lit : Value → Prop} {stored : Nat → Prop} {o : Operands}

theorem noConstants_construct (h : o.NoConstants) (i : Instruction) :
    (i.construct o).NoConstants := by
  cases i with
  | store dest src => exact noConstants_target h src dest
  | assign _ _ | binOp _ _ _ _ | unOp _ _ _ => exact noConstants_modifyTemp h _ _
  | fork _ _ _ => exact noConstants_modifyTemp (noConstants_modifyTemp h _ _) _ _
  | _ => exact h

/-- The hint of an operation about its result. -/
theorem tells_modify {f : Operand → Operand} {t : Temp} (ht : t.toOperand.Tells lit)
    (hs : ∀ o, (f o).srcVal = o.srcVal)
    (hf : ∀ (k : Hint) o, k.union o.typeHint = o.typeHint →
      k.union (f o).typeHint = (f o).typeHint) :
    (t.modify f).toOperand.Tells lit := by
  obtain ⟨v, hv, hl, hu⟩ := ht
  exact ⟨v, (hs _).trans hv, hl, hf _ _ hu⟩

theorem hint_binOp (op : BinOp) : (∀ o, (op.hint o).srcVal = o.srcVal) ∧
    (∀ o, (op.hint o).typeHint.constSrc = o.typeHint.constSrc) ∧
    ∀ (k : Hint) o, k.union o.typeHint = o.typeHint →
      k.union (op.hint o).typeHint = (op.hint o).typeHint := by
  refine ⟨fun o => ?_, fun o => ?_, fun k o h => ?_⟩
  · cases op <;> rfl
  · cases op <;> rfl
  · have hmore (l : Hint) (hint bool : Bool) (hl : k.union l = l) :
        k.union { l with int := hint || l.int, bool := bool || l.bool } =
          { l with int := hint || l.int, bool := bool || l.bool } := by
      have hint' : (k.int || l.int) = l.int := congrArg Hint.int hl
      have hbool' : (k.bool || l.bool) = l.bool := congrArg Hint.bool hl
      simp only [Hint.union, Hint.mk.injEq]
      exact ⟨congrArg Hint.constSrc hl, congrArg Hint.varSrc hl, by rw [Bool.or_left_comm, hint'],
        by rw [Bool.or_left_comm, hbool'], congrArg Hint.string hl, congrArg Hint.none hl⟩
    cases op with
    | add => exact h
    | intAdd | sub | mul | div => exact hmore o.typeHint true false h
    | gt | geq | eq | fastEq | and | or => exact hmore o.typeHint false true h

theorem hint_unOp (op : UnOp) : (∀ o, (op.hint o).srcVal = o.srcVal) ∧
    (∀ o, (op.hint o).typeHint.constSrc = o.typeHint.constSrc) ∧
    ∀ (k : Hint) o, k.union o.typeHint = o.typeHint →
      k.union (op.hint o).typeHint = (op.hint o).typeHint := by
  cases op with
  | neg => exact hint_binOp .sub
  | not => exact hint_binOp .eq

theorem tellConstants_construct (hn : o.NoConstants) (h : o.TellConstants lit stored)
    {i : Instruction}
    (hi : i.Fine lit stored) : (i.construct o).TellConstants lit stored := by
  cases i with
  | store dest src => exact tellConstants_target h src dest
  | assign dest src =>
    refine tellConstants_modifyTemp h dest fun _ hc => ?_
    exact source_tells hn (fun v hv => hi.literal dest v (hv ▸ rfl)) hc
  | binOp op dest _ _ =>
    obtain ⟨hs, hcs, hf⟩ := hint_binOp op
    exact tellConstants_modifyTemp h dest fun hst hc =>
      tells_modify (h dest hst ((hcs _).symm.trans hc)) hs hf
  | unOp op dest _ =>
    obtain ⟨hs, hcs, hf⟩ := hint_unOp op
    exact tellConstants_modifyTemp h dest fun hst hc =>
      tells_modify (h dest hst ((hcs _).symm.trans hc)) hs hf
  | fork src dest1 dest2 =>
    have hsrc := hi.reads nofun src (List.mem_singleton_self _)
    have h₁ : (o.modifyTemp dest1
        (Temp.transferHint (o.temp src).toOperand)).TellConstants lit stored :=
      tellConstants_modifyTemp h dest1 fun _ hc => h src hsrc hc
    exact tellConstants_modifyTemp h₁ dest2 fun _ hc => h₁ src hsrc hc
  | _ => exact h

theorem noConstants_propagateTypes (h : o.NoConstants) (i : Instruction) :
    (propagateTypes i o).NoConstants := by
  unfold propagateTypes
  split
  · split
    · exact noConstants_modifyTemp h _ _
    · exact noConstants_modifyTemp h _ _
    · exact noConstants_modifyTemp h _ _
    · exact noConstants_modifyTemp h _ _
    · exact h
    · exact h
    · exact h
  · split
    · exact noConstants_target (noConstants_modifyTemp h _ _) _ _
    · exact noConstants_target h _ _
    · exact noConstants_target h _ _
  · exact h

theorem tellConstants_propagateTypes (hn : o.NoConstants) (h : o.TellConstants lit stored)
    {i : Instruction} (hi : i.Fine lit stored) : (propagateTypes i o).TellConstants lit stored := by
  cases i with
  | assign dest src =>
    have hassign := tellConstants_construct hn h hi
    cases src with
    | retVal | ref _ | function _ => exact h
    | var _ | const _ | deref _ | glob _ => exact hassign
  | store dest src =>
    cases dest with
    | var n =>
      refine tellConstants_target (tellConstants_modifyTemp h src fun hst => ?_) src (.var n)
      exact absurd (hi.stores n src rfl) hst
    | deref n => exact tellConstants_target h src (.deref n)
    | glob n => exact tellConstants_target h src (.glob n)
  | _ => exact h

end Visits

/-! ### Live intervals and registers -/

theorem sameHints_adjustLiveEnds (code : List Instruction) (instno count : Nat) (o : Operands) :
    SameHints o (adjustLiveEnds code instno count o) := by
  refine sameHints_foldl (fun o i => ?_) _ o
  split
  · exact sameHints_modifyVar o _ fun v => by
      show (Operand.extend count v.toOperand).typeHint = _
      unfold Operand.extend
      split <;> rfl
  · exact sameHints_refl o

theorem sameHints_varLiveness (c : Compiler) (count : Nat) (i : Instruction) (o : Operands) :
    SameHints o (varLiveness c count i o) := by
  unfold varLiveness
  split
  · exact sameHints_modifyVar o _ fun _ => rfl
  · exact sameHints_modifyVar o _ fun _ => rfl
  · exact sameHints_adjustLiveEnds ..
  · exact sameHints_adjustLiveEnds ..
  · exact sameHints_refl o

theorem sameHints_dead (count : Nat) (o : Operands) (t : Nat) : SameHints o (dead count o t) := by
  have hend : SameHints o (o.modifyTemp t (Temp.modify fun t =>
      { t with liveEnd := ((count : Int) : WithTop Int) })) :=
    sameHints_modifyTemp o t fun _ => ⟨rfl, rfl⟩
  unfold dead
  dsimp only
  split
  · refine sameHints_trans hend (sameHints_modifyVar _ _ fun v => ?_)
    show (Operand.extend count v.toOperand).typeHint = _
    unfold Operand.extend
    split <;> rfl
  · exact hend

theorem sameHints_tempLiveness (count : Nat) (i : Instruction) (o : Operands) :
    SameHints o (tempLiveness count i o) := by
  refine sameHints_trans (sameHints_foldl (sameHints_dead count) i.reads o) ?_
  exact sameHints_foldl (f := alive count)
    (fun o t => sameHints_modifyTemp o t fun _ => ⟨rfl, rfl⟩) i.dests _

/-! ### Folding and checks -/

section Folds

variable {lit : Value → Prop} {stored : Nat → Prop} {o : Operands}

theorem fine_assign {dest : Nat} {v : Value} (h : lit v) :
    (Instruction.assign dest (.const v)).Fine lit stored :=
  ⟨nofun, fun _ => nofun, fun _ _ he => by cases he; exact h⟩

theorem fine_noop : (Instruction.noop).Fine lit stored :=
  ⟨nofun, fun _ => nofun, nofun⟩

/-- What a fold makes of constants is a constant. -/
structure Folds (lit : Value → Prop) (r : Except Fault (Option Value)) : Prop where
  completes : ∃ v, r = .ok v
  literal : ∀ v, r = .ok (some v) → lit v

theorem folds_none : Folds lit (.ok none) :=
  ⟨⟨_, rfl⟩, nofun⟩

theorem folds_some {v : Value} (h : lit v) : Folds lit (.ok (some v)) :=
  ⟨⟨_, rfl⟩, fun _ he => by cases he; exact h⟩

theorem getInteger_ok (hlit : FoldClosed lit) {t : Operand} (h : t.Tells lit)
    (hi : t.typeHint.isInt = true) :
    ∃ i, t.getConst = .ok (.integer i) ∧ accessed (Value.integer i).getInteger = .ok i := by
  obtain ⟨v, hv, hl, hu⟩ := h
  obtain ⟨i, rfl⟩ := integer_of_isInt hi (hlit.literal v hl) hu
  refine ⟨i, ?_, rfl⟩
  rw [Operand.getConst, hv]

theorem getBoolean_ok (hlit : FoldClosed lit) {t : Operand} (h : t.Tells lit)
    (hi : t.typeHint.isBool = true) :
    ∃ b, t.getConst = .ok (.boolean b) ∧ accessed (Value.boolean b).getBoolean = .ok b := by
  obtain ⟨v, hv, hl, hu⟩ := h
  obtain ⟨b, rfl⟩ := boolean_of_isBool hi (hlit.literal v hl) hu
  refine ⟨b, ?_, rfl⟩
  rw [Operand.getConst, hv]

theorem getString_ok (hlit : FoldClosed lit) {t : Operand} (h : t.Tells lit)
    (hi : t.typeHint.isString = true) :
    ∃ s, t.getConst = .ok (.stringConstant s) := by
  obtain ⟨v, hv, hl, hu⟩ := h
  obtain ⟨s, rfl⟩ := string_of_isString hi (hlit.literal v hl) hu
  refine ⟨s, ?_⟩
  rw [Operand.getConst, hv]

/-- What `foldIntsBinOp` computes. -/
theorem foldInts_eq (hlit : FoldClosed lit) (f : Int → Int → Except Fault Int) {t u : Operand}
    (ht : t.Tells lit) (hu : u.Tells lit) (hit : t.typeHint.isInt = true) (hiu : u.typeHint.isInt =
      true) :
    ∃ a b, t.srcVal = .value (.integer a) ∧ u.srcVal = .value (.integer b) ∧
      foldIntsBinOp f t u = (f (toInt a) (toInt b)).map fun i => some (.makeInteger (toInt i)) := by
  obtain ⟨a, ha, hga⟩ := getInteger_ok hlit ht hit
  obtain ⟨b, hb, hgb⟩ := getInteger_ok hlit hu hiu
  have hsrc {t : Operand} {v : Value} (h : t.getConst = .ok v) : t.srcVal = .value v := by
    unfold Operand.getConst at h
    split at h
    · next w hw => cases h; exact hw
    · cases h
  refine ⟨a, b, hsrc ha, hsrc hb, ?_⟩
  unfold foldIntsBinOp
  rw [hit, hiu, ha, hb]
  simp only [Bool.and_self, if_true, bind, Except.bind, hga, hgb]
  cases f (toInt a) (toInt b) <;> rfl

theorem folds_ints (hlit : FoldClosed lit) {f : Int → Int → Except Fault Int} {t u : Operand}
    (ht : t.Tells lit) (hu : u.Tells lit)
    (hf : ∀ a b, t.srcVal = .value (.integer a) → u.srcVal = .value (.integer b) →
      t.typeHint.isInt = true → u.typeHint.isInt = true → ∃ i, f (toInt a) (toInt b) = .ok i) :
    Folds lit (foldIntsBinOp f t u) := by
  cases hi : t.typeHint.isInt && u.typeHint.isInt with
  | false =>
    unfold foldIntsBinOp
    rw [hi]
    exact folds_none
  | true =>
    obtain ⟨hit, hiu⟩ := Bool.and_eq_true_iff.mp hi
    obtain ⟨a, b, ha, hb, he⟩ := foldInts_eq hlit f ht hu hit hiu
    obtain ⟨i, hr⟩ := hf a b ha hb hit hiu
    rw [he, hr]
    exact folds_some (hlit.folded i)

theorem folds_bools (hlit : FoldClosed lit) (f : Bool → Bool → Bool) {t u : Operand}
    (ht : t.Tells lit) (hu : u.Tells lit) : Folds lit (foldBoolBinOp f t u) := by
  unfold foldBoolBinOp
  cases hi : t.typeHint.isBool && u.typeHint.isBool with
  | false => exact folds_none
  | true =>
    obtain ⟨hit, hiu⟩ := Bool.and_eq_true_iff.mp hi
    obtain ⟨a, ha, hga⟩ := getBoolean_ok hlit ht hit
    obtain ⟨b, hb, hgb⟩ := getBoolean_ok hlit hu hiu
    rw [ha, hb]
    simp only [if_true, bind, Except.bind, hga, hgb]
    exact folds_some (hlit.boolean _)

end Folds

end ConstantHintsLemmas

/-- The quotient of two `int`s is one. -/
def quotientFits (a b : Int) : Bool :=
  ¬ (b = 0 ∨ a = -0x80000000 ∧ b = -1)

/-- If the instruction divides two constants, the divisor is an integer, and unless
it is zero the quotient of integers is defined. -/
def DivisionFine (i : Instruction) (o : Operands) : Prop :=
  ∀ dest src1 src2, i = .binOp .div dest src1 src2 →
    (o.temp src1).typeHint.constSrc = true → (o.temp src2).typeHint.constSrc = true →
    ∃ b, (o.temp src2).srcVal = .value (.integer b) ∧ (b ≠ 0 →
      (o.temp src1).typeHint.isInt = true → (o.temp src2).typeHint.isInt = true →
      ∀ a, (o.temp src1).srcVal = .value (.integer a) → quotientFits (toInt a) (toInt b) = true)

namespace ConstantHintsLemmas

section Folds

variable {lit : Value → Prop} {stored : Nat → Prop} {o : Operands}

theorem folds_binOp (hlit : FoldClosed lit) {op : BinOp} {t u : Operand} (ht : t.Tells lit)
    (hu : u.Tells lit)
    (hd : op = .div → ∃ b, u.srcVal = .value (.integer b) ∧ (b ≠ 0 →
      t.typeHint.isInt = true → u.typeHint.isInt = true →
      ∀ a, t.srcVal = .value (.integer a) → quotientFits (toInt a) (toInt b) = true)) :
    Folds lit (op.fold t u) := by
  have htotal (f : Int → Int → Int) : Folds lit (foldIntsBinOp (fun a b => .ok (f a b)) t u) :=
    folds_ints hlit ht hu fun _ _ _ _ _ _ => ⟨_, rfl⟩
  cases op with
  | gt | geq | eq => exact folds_none
  | intAdd => exact htotal (· + ·)
  | sub => exact htotal fun a b => b - a
  | mul => exact htotal (· * ·)
  | and | or => exact folds_bools hlit _ ht hu
  | add =>
    rw [BinOp.fold]
    split
    · next hs =>
      obtain ⟨hst, hsu⟩ := Bool.and_eq_true_iff.mp hs
      obtain ⟨s, hs⟩ := getString_ok hlit ht hst
      obtain ⟨s', hs'⟩ := getString_ok hlit hu hsu
      rw [hs, hs']
      exact folds_some (hlit.string _)
    · exact htotal (· + ·)
  | fastEq =>
    rw [BinOp.fold]
    obtain ⟨⟨r, hr⟩, hl⟩ := folds_bools hlit (fun a b => a = b) ht hu
    rw [hr]
    cases r with
    | some v => exact folds_some (hl v hr)
    | none =>
      show Folds lit (if _ then _ else _)
      split
      · next hi =>
        obtain ⟨hit, hiu⟩ := Bool.and_eq_true_iff.mp hi
        obtain ⟨a, ha, hga⟩ := getInteger_ok hlit ht hit
        obtain ⟨b, hb, hgb⟩ := getInteger_ok hlit hu hiu
        rw [ha, hb]
        simp only [bind, Except.bind, hga, hgb]
        exact folds_some (hlit.boolean _)
      · exact folds_none
  | div =>
    obtain ⟨b, hb, hfits⟩ := hd rfl
    have hconst : u.getConst = .ok (.integer b) := by rw [Operand.getConst, hb]
    rw [BinOp.fold, hconst]
    show Folds lit (if b = 0 then _ else _)
    split
    · exact folds_none
    · next hb0 =>
      refine folds_ints hlit ht hu fun a b' ha hb' hit hiu => ?_
      rw [hb] at hb'
      cases hb'
      have hq := of_decide_eq_true (hfits hb0 hit hiu a ha)
      rw [if_neg hq]
      exact ⟨_, rfl⟩

theorem folds_unOp (hlit : FoldClosed lit) (op : UnOp) {t : Operand} (ht : t.Tells lit) :
    Folds lit (op.fold t) := by
  cases op with
  | neg =>
    rw [UnOp.fold]
    split
    · next hint =>
      obtain ⟨v, hv, hl, hu⟩ := ht
      obtain ⟨i, rfl⟩ := integer_of_isInt hint (hlit.literal v hl) hu
      have hconst : t.getConst = .ok (.integer i) := by rw [Operand.getConst, hv]
      rw [hconst]
      exact folds_some (hlit.negated i hl)
    · exact folds_none
  | not =>
    rw [UnOp.fold]
    split
    · next hi =>
      obtain ⟨i, hi, hg⟩ := getBoolean_ok hlit ht hi
      rw [hi]
      simp only [bind, Except.bind, hg]
      exact folds_some (hlit.boolean _)
    · exact folds_none

end Folds

end ConstantHintsLemmas

end Beaverc.Ir

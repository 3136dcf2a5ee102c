import Beaverc.ConstantFolding
import Beaverc.DeadVariables

/-!
# What the type hints say of the values

The passes take a temp for an integer or a boolean by the bits of `type_hint`.
What an instruction computes is of the type that it hints, once the words that an
`Assign` copies are of the type hinted: this is kept by every pass, also by those
that write other instructions because of the hints.
-/

namespace Beaverc.Ir
open Process Results SingleUseLemmas DefinedTempsLemmas ConstantHintsLemmas OptimizerErrorsLemmas
  LoopsLemmas ChangesLemmas DeadVariablesLemmas TranslationLemmas

/-! ## Types -/

/-- What the hints say of a value: `isInt()` that it is an integer, `isBool()` that
it is a boolean. -/
structure Hint.Admits (h : Hint) (v : Value) : Prop where
  int : h.isInt = true → ∃ i, v = .integer i
  bool : h.isBool = true → ∃ b, v = .boolean b

/-- What an instruction may write to a temp, by the hints `o` of the temps it reads;
a copied word is of the type that `o₀` hints. -/
def Instruction.Yields (o₀ o : Operands) : Instruction → Value → Prop
  | .assign dest src, v =>
    match src with
    | .var _ | .deref _ | .glob _ => (o₀.temp dest).typeHint.Admits v
    | .const c => v = c
    | .retVal | .ref _ | .function _ => True
  | .binOp op _ src1 src2, v =>
    match op with
    | .add => (o.temp src1).typeHint.isInt = true → (o.temp src2).typeHint.isInt = true →
        ∃ i, v = .integer i
    | .intAdd | .sub | .mul | .div => ∃ i, v = .integer i
    | .gt | .geq | .eq | .fastEq | .and | .or => ∃ b, v = .boolean b
  | .unOp op _ _, v =>
    match op with
    | .neg => ∃ i, v = .integer i
    | .not => ∃ b, v = .boolean b
  | _, _ => True

/-- The hints admit what the instruction writes. -/
def Instruction.Typed (o₀ o : Operands) (i : Instruction) : Prop :=
  ∀ t ∈ i.dests, ∀ v, i.Yields o₀ o v → (o.temp t).typeHint.Admits v

/-- What holds of an instruction between two passes. -/
structure Instruction.Hinted (o : Operands) (i : Instruction) : Prop where
  typed : i.Typed o o
  add : ∀ dest src1 src2, i = .binOp .add dest src1 src2 → ∀ v, (o.temp dest).typeHint.Admits v
  const : ∀ t ∈ i.dests, (o.temp t).typeHint.constSrc = true →
    ∀ c, (o.temp t).srcVal = .value c → i = .assign t (.const c)

/-- The operand object of a temp has the same types, and is no other constant. -/
structure Operand.Kept (t t' : Operand) : Prop where
  types : t'.typeHint.types = t.typeHint.types
  const : t'.typeHint.constSrc = true → ∀ c, t'.srcVal = .value c →
    t.typeHint.constSrc = true ∧ t.srcVal = .value c

namespace TypeHintsLemmas

/-! ### Hints -/

theorem admits_congr {h h' : Hint} (he : h'.types = h.types) {v : Value} (ha : h.Admits v) :
    h'.Admits v := by
  refine ⟨fun hi => ha.int ?_, fun hb => ha.bool ?_⟩
  · rwa [Hint.isInt, he] at hi
  · rwa [Hint.isBool, he] at hb

theorem admits_untyped {h : Hint} (hi : h.isInt = false) (hb : h.isBool = false) (v : Value) :
    h.Admits v :=
  ⟨fun h' => absurd (hi.symm.trans h') nofun, fun h' => absurd (hb.symm.trans h') nofun⟩

theorem isInt_of_bools {h : Hint} (ha : ∀ b, h.Admits (.boolean b)) : h.isInt = false := by
  cases hi : h.isInt with
  | false => rfl
  | true =>
    obtain ⟨i, hv⟩ := (ha true).int hi
    cases hv

theorem admits_const {c v : Value} (hi : ∀ i, c = .integer i → ∃ j, v = .integer j)
    (hb : ∀ b, c = .boolean b → ∃ d, v = .boolean d) : (Const.new c).typeHint.Admits v := by
  refine ⟨fun h => ?_, fun h => ?_⟩
  · cases c with
    | integer i => exact hi i rfl
    | _ => cases h
  · cases c with
    | boolean b => exact hb b rfl
    | _ => cases h

theorem admits_hintInt (t : Operand) (i : Int) : t.hintInt.typeHint.Admits (.integer i) := by
  refine ⟨fun _ => ⟨i, rfl⟩, fun h => ?_⟩
  have hint := congrArg Hint.int (of_decide_eq_true h)
  cases hint

theorem admits_hintBool (t : Operand) (b : Bool) : t.hintBool.typeHint.Admits (.boolean b) := by
  refine ⟨fun h => ?_, fun _ => ⟨b, rfl⟩⟩
  have hbool := congrArg Hint.bool (of_decide_eq_true h)
  cases hbool

/-! ### One instruction -/

variable {o₀ o o' : Operands} {i : Instruction}

theorem kept_refl (t : Operand) : t.Kept t :=
  ⟨rfl, fun hc _ hv => ⟨hc, hv⟩⟩

theorem kept_trans {t t' t'' : Operand} (h : t.Kept t') (h' : t'.Kept t'') : t.Kept t'' :=
  ⟨h'.types.trans h.types, fun hc c hv =>
    h.const (h'.const hc c hv).1 c (h'.const hc c hv).2⟩

/-- What an instruction may write does not depend on the types of its operands,
additions apart. -/
theorem yields_congr {v : Value} (hadd : ∀ dest src1 src2, i ≠ .binOp .add dest src1 src2)
    (h₀ : ∀ t ∈ i.dests, (o'.temp t).typeHint.types = (o.temp t).typeHint.types)
    (h : i.Yields o' o' v) : i.Yields o o v := by
  cases i with
  | assign dest src =>
    have he := h₀ dest (List.mem_singleton_self _)
    cases src with
    | var _ | deref _ | glob _ => exact admits_congr he.symm h
    | _ => exact h
  | binOp op dest src1 src2 =>
    cases op with
    | add => exact absurd rfl (hadd dest src1 src2)
    | _ => exact h
  | _ => exact h

/-- The frame rule: what other instructions hint does not matter. -/
theorem hinted_kept (h : i.Hinted o)
    (hk : ∀ t ∈ i.dests, (o.temp t).toOperand.Kept (o'.temp t).toOperand) : i.Hinted o' := by
  refine ⟨fun t ht v hv => ?_, fun dest src1 src2 hi v => ?_, fun t ht hc c hv => ?_⟩
  · by_cases hadd : ∃ dest src1 src2, i = .binOp .add dest src1 src2
    · obtain ⟨dest, src1, src2, rfl⟩ := hadd
      cases List.mem_singleton.mp ht
      exact admits_congr (hk _ ht).types (h.add _ _ _ rfl v)
    · refine admits_congr (hk t ht).types (h.typed t ht v ?_)
      exact yields_congr (fun dest src1 src2 he => hadd ⟨dest, src1, src2, he⟩)
        (fun t ht => (hk t ht).types) hv
  · subst hi
    exact admits_congr (hk dest (List.mem_singleton_self _)).types (h.add dest src1 src2 rfl v)
  · obtain ⟨hc', hv'⟩ := (hk t ht).const hc c hv
    exact h.const t ht hc' c hv'

/-- Between the visits of a pass. -/
theorem typed_of_hinted (h : i.Hinted o)
    (hk : ∀ t ∈ i.dests, (o'.temp t).typeHint.types = (o.temp t).typeHint.types) :
    i.Typed o o' := by
  intro t ht v hv
  refine admits_congr (hk t ht) ?_
  by_cases hadd : ∃ dest src1 src2, i = .binOp .add dest src1 src2
  · obtain ⟨dest, src1, src2, rfl⟩ := hadd
    cases List.mem_singleton.mp ht
    exact h.add _ _ _ rfl v
  · refine h.typed t ht v ?_
    cases i with
    | binOp op dest src1 src2 =>
      cases op with
      | add => exact absurd ⟨dest, src1, src2, rfl⟩ hadd
      | _ => exact hv
    | _ => exact hv

theorem hinted_noDests (h : i.dests = []) : i.Hinted o := by
  refine ⟨fun t ht => ?_, fun dest src1 src2 hi => ?_, fun t ht => ?_⟩
  · rw [h] at ht
    cases ht
  · subst hi
    cases h
  · rw [h] at ht
    cases ht

/-! ### The visits -/

theorem kept_modifyTemp {n t : Nat} {f : Temp → Temp} (h : t ≠ n) (o : Operands) :
    (o.temp t).toOperand.Kept ((o.modifyTemp n f).temp t).toOperand := by
  rw [temp_modifyTemp, if_neg h]
  exact kept_refl _

theorem modifyTemp_self (o : Operands) (n : Nat) (f : Temp → Temp) :
    (o.modifyTemp n f).temp n = f (o.temp n) := by
  rw [temp_modifyTemp, if_pos rfl]

/-- A new instruction hints its own temps only. -/
theorem kept_construct (o : Operands) (i : Instruction) {t : Nat} (ht : t ∉ i.dests) :
    (o.temp t).toOperand.Kept ((i.construct o).temp t).toOperand := by
  cases i with
  | assign dest _ | binOp _ dest _ _ | unOp _ dest _ =>
    exact kept_modifyTemp (fun he => ht (List.mem_singleton.mpr he)) o
  | store dest src =>
    have htemp : ((Instruction.store dest src).construct o).temp = o.temp := temp_target src dest o
    rw [htemp]
    exact kept_refl _
  | fork src dest1 dest2 =>
    refine kept_trans (kept_modifyTemp (n := dest1) ?_ o) (kept_modifyTemp ?_ _)
    · rintro rfl
      exact ht (by simp [Instruction.dests])
    · rintro rfl
      exact ht (by simp [Instruction.dests])
  | _ => exact kept_refl _

/-- A temp that no instruction has hinted. -/
def Unhinted (t : Operand) : Prop :=
  t.typeHint = {}

theorem unhinted_admits {t : Operand} (h : Unhinted t) (v : Value) : t.typeHint.Admits v :=
  admits_untyped (by rw [h]; rfl) (by rw [h]; rfl) v

theorem binOp_const (op : BinOp) (t : Operand) :
    (op.hint t).typeHint.constSrc = t.typeHint.constSrc := by
  cases op <;> rfl

theorem unOp_const (op : UnOp) (t : Operand) :
    (op.hint t).typeHint.constSrc = t.typeHint.constSrc := by
  cases op <;> rfl

/-- The hint of an operation is that of what it computes. -/
theorem binOp_admits (o₀ o₁ : Operands) (op : BinOp) (dest src1 src2 : Nat) {t : Operand}
    (hop : op ≠ .add) {v : Value} (hv : (Instruction.binOp op dest src1 src2).Yields o₀ o₁ v) :
    (op.hint t).typeHint.Admits v := by
  cases op with
  | add => exact absurd rfl hop
  | intAdd | sub | mul | div =>
    obtain ⟨i, rfl⟩ := hv
    exact admits_hintInt t i
  | gt | geq | eq | fastEq | and | or =>
    obtain ⟨b, rfl⟩ := hv
    exact admits_hintBool t b

theorem unOp_admits {o₀ o₁ : Operands} {op : UnOp} {dest src : Nat} {t : Operand} {v : Value}
    (hv : (Instruction.unOp op dest src).Yields o₀ o₁ v) : (op.hint t).typeHint.Admits v := by
  cases op with
  | neg =>
    obtain ⟨i, rfl⟩ := hv
    exact admits_hintInt t i
  | not =>
    obtain ⟨b, rfl⟩ := hv
    exact admits_hintBool t b

theorem hinted_assign (hn : o.NoConstants) (dest : Nat) (src : Source) :
    (Instruction.assign dest src).Hinted ((Instruction.assign dest src).construct o) := by
  have hself := modifyTemp_self o dest (Temp.transferHint (src.operand o))
  refine ⟨fun t ht v hv => ?_, nofun, fun t ht hc c hsrc => ?_⟩
  · cases List.mem_singleton.mp ht
    cases src with
    | var _ | deref _ | glob _ => exact hv
    | const c =>
      show ((o.modifyTemp dest _).temp dest).typeHint.Admits v
      cases hv
      rw [hself]
      exact admits_const (fun i hi => ⟨i, hi⟩) fun b hb => ⟨b, hb⟩
    | retVal | ref _ | function _ =>
      show ((o.modifyTemp dest _).temp dest).typeHint.Admits v
      rw [hself]
      exact admits_untyped rfl rfl v
  · cases List.mem_singleton.mp ht
    change ((o.modifyTemp dest _).temp dest).typeHint.constSrc = true at hc
    change ((o.modifyTemp dest _).temp dest).srcVal = .value c at hsrc
    rw [hself] at hc hsrc
    cases src with
    | var n => exact absurd ((hn.var n).symm.trans hc) nofun
    | deref n => exact absurd ((hn.deref n).symm.trans hc) nofun
    | glob n => exact absurd ((hn.glob n).symm.trans hc) nofun
    | const c' =>
      cases hsrc
      rfl
    | retVal | ref _ | function _ => cases hc

/-- An operation whose result was no constant. -/
theorem hinted_binOp {op : BinOp} {dest src1 src2 : Nat}
    (hadd : op = .add → ∀ v, (o.temp dest).typeHint.Admits v)
    (hconst : (o.temp dest).typeHint.constSrc = true → ∀ c, (o.temp dest).srcVal ≠ .value c) :
    (Instruction.binOp op dest src1 src2).Hinted
      ((Instruction.binOp op dest src1 src2).construct o) := by
  have hself := modifyTemp_self o dest (Temp.modify op.hint)
  refine ⟨fun t ht v hv => ?_, fun dest' src1' src2' hi v => ?_, fun t ht hc c hsrc => ?_⟩
  · cases List.mem_singleton.mp ht
    show ((o.modifyTemp dest _).temp dest).typeHint.Admits v
    rw [hself]
    by_cases hop : op = .add
    · subst hop
      exact hadd rfl v
    · exact binOp_admits _ _ op _ _ _ hop hv
  · cases hi
    show ((o.modifyTemp dest _).temp dest).typeHint.Admits v
    rw [hself]
    exact hadd rfl v
  · cases List.mem_singleton.mp ht
    change ((o.modifyTemp dest _).temp dest).typeHint.constSrc = true at hc
    change ((o.modifyTemp dest _).temp dest).srcVal = .value c at hsrc
    rw [hself] at hc hsrc
    have hc' : (o.temp dest).typeHint.constSrc = true := (binOp_const op _).symm.trans hc
    have hsrc' : (o.temp dest).srcVal = .value c := by
      refine Eq.trans ?_ hsrc
      cases op <;> rfl
    exact absurd hsrc' (hconst hc' c)

theorem hinted_unOp {op : UnOp} {dest src : Nat}
    (hconst : (o.temp dest).typeHint.constSrc = false) :
    (Instruction.unOp op dest src).Hinted ((Instruction.unOp op dest src).construct o) := by
  have hself := modifyTemp_self o dest (Temp.modify op.hint)
  refine ⟨fun t ht v hv => ?_, nofun, fun t ht hc c hsrc => ?_⟩
  · cases List.mem_singleton.mp ht
    show ((o.modifyTemp dest _).temp dest).typeHint.Admits v
    rw [hself]
    exact unOp_admits hv
  · cases List.mem_singleton.mp ht
    change ((o.modifyTemp dest _).temp dest).typeHint.constSrc = true at hc
    rw [hself] at hc
    exact absurd (hconst.symm.trans ((unOp_const op _).symm.trans hc)) nofun

theorem unhinted_fork {src : Nat} (dest1 dest2 : Nat) (h : Unhinted (o.temp src).toOperand) :
    ∀ t ∈ [dest1, dest2],
      Unhinted (((Instruction.fork src dest1 dest2).construct o).temp t).toOperand := by
  have hone {o : Operands} (h : Unhinted (o.temp src).toOperand) {dest t : Nat}
      (ht : t = dest ∨ Unhinted (o.temp t).toOperand) :
      Unhinted ((o.modifyTemp dest
        (Temp.transferHint (o.temp src).toOperand)).temp t).toOperand := by
    rw [temp_modifyTemp]
    split
    · exact h
    · next hne => exact ht.resolve_left hne
  have hsrc : Unhinted ((o.modifyTemp dest1
      (Temp.transferHint (o.temp src).toOperand)).temp src).toOperand := hone h (.inr h)
  intro t ht
  have hfirst : t = dest2 ∨ Unhinted ((o.modifyTemp dest1
      (Temp.transferHint (o.temp src).toOperand)).temp t).toOperand := by
    rcases List.mem_cons.mp ht with rfl | ht
    · exact .inr (hone h (.inl rfl))
    · exact .inl (List.mem_singleton.mp ht)
  exact hone hsrc hfirst

/-- A new instruction that writes new temps; what is forked has no hints. -/
theorem hinted_construct (hn : o.NoConstants) (hd : ∀ t ∈ i.dests, Unhinted (o.temp t).toOperand)
    (hf : ∀ src dest1 dest2, i = .fork src dest1 dest2 → Unhinted (o.temp src).toOperand) :
    i.Hinted (i.construct o) := by
  have hnot {t : Nat} (h : Unhinted (o.temp t).toOperand) :
      (o.temp t).typeHint.constSrc = false := by
    rw [show (o.temp t).typeHint = {} from h]
  cases i with
  | assign dest src => exact hinted_assign hn dest src
  | binOp op dest src1 src2 =>
    have hdest := hd dest (List.mem_singleton_self _)
    exact hinted_binOp (fun _ => unhinted_admits hdest) fun hc =>
      absurd ((hnot hdest).symm.trans hc) nofun
  | unOp op dest src => exact hinted_unOp (hnot (hd dest (List.mem_singleton_self _)))
  | fork src dest1 dest2 =>
    have hall := unhinted_fork dest1 dest2 (hf src dest1 dest2 rfl)
    refine ⟨fun t ht v _ => unhinted_admits (hall t ht) v, nofun, fun t ht hc => ?_⟩
    rw [show ((_ : Operands).temp t).typeHint = {} from hall t ht] at hc
    cases hc
  | _ => exact hinted_noDests rfl

/-! ### Loops -/

/-- What a visit leaves: its hints are those of the instruction that it leaves. -/
structure KeepsHints (i : Instruction) (o : Operands) (v : Visited) : Prop where
  noConstants : v.operands.NoConstants
  kept : ∀ t ∉ i.dests, (o.temp t).toOperand.Kept (v.operands.temp t).toOperand
  dests : ∀ t ∈ v.instruction.dests, t ∈ i.dests
  hinted : v.instruction.Hinted v.operands

/-- A temp taken for an integer or a boolean is taken for one later, too. -/
structure Sharpens (o o' : Operands) : Prop where
  int : ∀ t, (o.temp t).typeHint.isInt = true → (o'.temp t).typeHint.isInt = true
  bool : ∀ t, (o.temp t).typeHint.isBool = true → (o'.temp t).typeHint.isBool = true

theorem not_mem_dests {i : Instruction} {rest : List Instruction} (h : (dests (i :: rest)).Nodup)
    {t : Nat} (ht : t ∈ i.dests) : t ∉ dests rest := by
  rw [dests, List.flatMap_cons] at h
  exact fun hr => (List.nodup_append.mp h).2.2 t ht t hr rfl

theorem nodup_dests_tail {i : Instruction} {rest : List Instruction}
    (h : (dests (i :: rest)).Nodup) : (dests rest).Nodup := by
  rw [dests, List.flatMap_cons] at h
  exact (List.nodup_append.mp h).2.1

theorem not_mem_dests_head {i j : Instruction} {rest : List Instruction}
    (h : (dests (i :: rest)).Nodup) (hj : j ∈ rest) {t : Nat} (ht : t ∈ j.dests) : t ∉ i.dests :=
  fun hi => not_mem_dests h hi (List.mem_flatMap.mpr ⟨j, hj, ht⟩)

/-- The loop lemma: between two passes the instructions are hinted. -/
theorem loop_hinted {visit : Nat → Instruction → Operands → Except Fault Visited}
    (step : ∀ {count i o v}, i.Hinted o → o.NoConstants → visit count i o = .ok v →
      KeepsHints i o v)
    {count : Nat} {code code' : List Instruction} {o o' : Operands} {obsolete : List Nat}
    (hl : loop visit count code o = .ok (code', o', obsolete)) (hd : (dests code).Nodup)
    (hc : ∀ i ∈ code, i.Hinted o) (hn : o.NoConstants) :
    (∀ i ∈ code', i.Hinted o') ∧ o'.NoConstants ∧
      ∀ t ∉ dests code, (o.temp t).toOperand.Kept (o'.temp t).toOperand := by
  induction code generalizing count code' o obsolete with
  | nil =>
    cases hl
    exact ⟨nofun, hn, fun t _ => kept_refl _⟩
  | cons i rest ih =>
    obtain ⟨v, hv, hl⟩ := bind_ok.mp hl
    obtain ⟨⟨code₁, o₁, obsolete₁⟩, hl₁, hr⟩ := bind_ok.mp hl
    cases hr
    have hi := step (hc i List.mem_cons_self) hn hv
    have hrest : ∀ j ∈ rest, j.Hinted v.operands := fun j hj =>
      hinted_kept (hc j (List.mem_cons_of_mem _ hj)) fun t ht =>
        hi.kept t (not_mem_dests_head hd hj ht)
    obtain ⟨hcode, hn', hkept⟩ := ih hl₁ (nodup_dests_tail hd) hrest hi.noConstants
    refine ⟨fun j hj => ?_, hn', fun t ht => ?_⟩
    · rcases List.mem_cons.mp hj with rfl | hj
      · exact hinted_kept hi.hinted fun t ht => hkept t (not_mem_dests hd (hi.dests t ht))
      · exact hcode j hj
    · rw [dests, List.flatMap_cons, List.mem_append, not_or] at ht
      exact kept_trans (hi.kept t ht.1) (hkept t ht.2)

theorem pointwise_cons {R : Instruction → Instruction → Prop} {i i' : Instruction}
    {rest rest' : List Instruction} (h : R i i') (hr : Pointwise (fun _ => R) rest rest') :
    Pointwise (fun _ => R) (i :: rest) (i' :: rest') := by
  refine ⟨congrArg Nat.succ hr.length, fun {p j} hj => ?_⟩
  cases p with
  | zero =>
    cases hj
    exact ⟨i', rfl, h⟩
  | succ p => exact hr.related (p := p) hj

/-- While a pass runs that only sharpens hints, they admit what the code it started
with computes. -/
theorem loop_typed {visit : Nat → Instruction → Operands → Except Fault Visited}
    (step : ∀ {count i o v}, i.Hinted o → o.NoConstants → visit count i o = .ok v →
      KeepsHints i o v ∧ i.Typed o v.operands ∧ Sharpens o v.operands)
    {count : Nat} {code code' : List Instruction} {o o' : Operands} {obsolete : List Nat}
    (hl : loop visit count code o = .ok (code', o', obsolete)) (hd : (dests code).Nodup)
    (hc : ∀ i ∈ code, i.Hinted o) (hn : o.NoConstants) :
    (∀ i ∈ code, i.Typed o o') ∧ Sharpens o o' ∧ Pointwise (fun _ i i' => ∃ count o₁ v,
      visit count i o₁ = .ok v ∧ i' = v.instruction ∧ Sharpens o₁ o') code code' := by
  induction code generalizing count code' o obsolete with
  | nil =>
    cases hl
    exact ⟨nofun, ⟨fun _ => id, fun _ => id⟩, rfl, nofun⟩
  | cons i rest ih =>
    obtain ⟨v, hv, hl⟩ := bind_ok.mp hl
    obtain ⟨⟨code₁, o₁, obsolete₁⟩, hl₁, hr⟩ := bind_ok.mp hl
    cases hr
    obtain ⟨hi, htyped, hsharp⟩ := step (hc i List.mem_cons_self) hn hv
    have hrest : ∀ j ∈ rest, j.Hinted v.operands := fun j hj =>
      hinted_kept (hc j (List.mem_cons_of_mem _ hj)) fun t ht =>
        hi.kept t (not_mem_dests_head hd hj ht)
    obtain ⟨htyped', hsharp', hpoint⟩ := ih hl₁ (nodup_dests_tail hd) hrest hi.noConstants
    have hall : Sharpens o o' := ⟨fun t h => hsharp'.int t (hsharp.int t h),
      fun t h => hsharp'.bool t (hsharp.bool t h)⟩
    obtain ⟨-, -, hkept⟩ := loop_hinted (fun h hn hv => (step h hn hv).1) hl₁ (nodup_dests_tail hd)
      hrest hi.noConstants
    refine ⟨fun j hj t ht x hx => ?_, hall, pointwise_cons ⟨count, o, v, hv, rfl, hall⟩ hpoint⟩
    rcases List.mem_cons.mp hj with rfl | hj
    · refine admits_congr (hkept t (not_mem_dests hd ht)).types (htyped t ht x ?_)
      -- the operands of an addition are integers later if they are now
      cases j with
      | binOp op dest src1 src2 =>
        cases op with
        | add => exact fun h₁ h₂ => hx (hsharp'.int _ h₁) (hsharp'.int _ h₂)
        | _ => exact hx
      | _ => exact hx
    · refine htyped' j hj t ht x ?_
      cases j with
      | assign dest src =>
        have hsame := (hi.kept dest (not_mem_dests_head hd hj (List.mem_singleton_self _))).types
        cases src with
        | var _ | deref _ | glob _ => exact admits_congr hsame hx
        | _ => exact hx
      | _ => exact hx

/-! ### The passes -/

theorem kept_same (h : SameHints o o') (t : Nat) :
    (o.temp t).toOperand.Kept (o'.temp t).toOperand := by
  obtain ⟨hh, hs⟩ := h.temp t
  exact ⟨by rw [hh], fun hc c hv => ⟨hh ▸ hc, hs ▸ hv⟩⟩

/-- A visit that leaves the instruction, or one that writes nothing. -/
theorem keeps_same {obsolete : List Nat} {i' : Instruction} (h : i.Hinted o) (hn : o.NoConstants)
    (hs : SameHints o o') (hi : i' = i ∨ i'.dests = []) : KeepsHints i o ⟨i', o', obsolete⟩ := by
  refine ⟨noConstants_same hn hs, fun t _ => kept_same hs t, fun t ht => ?_, ?_⟩
  · rcases hi with rfl | hi
    · exact ht
    · change t ∈ i'.dests at ht
      rw [hi] at ht
      cases ht
  · rcases hi with rfl | hi
    · exact hinted_kept h fun t _ => kept_same hs t
    · exact hinted_noDests hi

theorem keeps_construct {obsolete : List Nat} {i' : Instruction} (hn : o.NoConstants)
    (hd : i'.dests = i.dests) (h : i'.Hinted (i'.construct o)) :
    KeepsHints i o ⟨i', i'.construct o, obsolete⟩ :=
  ⟨noConstants_construct hn i', fun _ ht => kept_construct o i' (hd ▸ ht), fun _ ht => hd ▸ ht, h⟩

theorem keeps_propagateTypes {obsolete : List Nat} (h : i.Hinted o) (hn : o.NoConstants) :
    KeepsHints i o ⟨i, propagateTypes i o, obsolete⟩ := by
  cases i with
  | assign dest src =>
    cases src with
    | retVal | ref _ | function _ => exact keeps_same h hn (sameHints_refl o) (.inl rfl)
    | var _ | const _ | deref _ | glob _ => exact keeps_construct hn rfl (hinted_assign hn dest _)
  | store dest src =>
    have hstore : ∀ t, (o.temp t).toOperand.Kept
        ((propagateTypes (.store dest src) o).temp t).toOperand := by
      intro t
      cases dest with
      | deref _ | glob _ => exact kept_refl _
      | var n =>
        show Operand.Kept _ ((o.modifyTemp src _).temp t).toOperand
        rw [temp_modifyTemp]
        split
        · next he =>
          -- the number of the variable takes the place of a constant
          subst he
          exact ⟨rfl, fun _ c hv => by cases hv⟩
        · exact kept_refl _
    exact ⟨noConstants_propagateTypes hn (.store dest src), fun t _ => hstore t, fun _ ht => ht,
      hinted_noDests rfl⟩
  | _ => exact keeps_same h hn (sameHints_refl o) (.inl rfl)

theorem keeps_removeObsolete {obsolete : List Nat} {v : Visited} (h : i.Hinted o)
    (hn : o.NoConstants) (hv : removeObsolete obsolete i o = .ok v) : KeepsHints i o v := by
  unfold removeObsolete at hv
  split at hv
  · cases hv
    refine keeps_same h hn (sameHints_refl o) ?_
    split
    · exact .inr rfl
    · exact .inl rfl
  · split at hv
    · cases hv
      exact keeps_same h hn (sameHints_refl o) (.inr rfl)
    · obtain ⟨b, -, hv⟩ := bind_ok.mp hv
      cases hv
      refine keeps_same h hn (sameHints_refl o) ?_
      cases b
      · exact .inl rfl
      · exact .inr rfl
  · cases hv
    exact keeps_same h hn (sameHints_refl o) (.inl rfl)

theorem keeps_deadVariableAssignment {count : Nat} (h : i.Hinted o) (hn : o.NoConstants) :
    KeepsHints i o (deadVariableAssignment count i o) := by
  unfold deadVariableAssignment
  split
  · split
    · exact keeps_same h hn (sameHints_refl o) (.inr rfl)
    · exact keeps_same h hn (sameHints_refl o) (.inl rfl)
  · exact keeps_same h hn (sameHints_refl o) (.inl rfl)

theorem keeps_shortJump {c : Compiler} {count : Nat} {obsolete : List Nat} (h : i.Hinted o)
    (hn : o.NoConstants) : KeepsHints i o ⟨shortJump c count i, o, obsolete⟩ := by
  refine keeps_same h hn (sameHints_refl o) ?_
  unfold shortJump
  split
  · split
    · exact .inr rfl
    · exact .inl rfl
  · exact .inl rfl

/-! ### Passes that look at types -/

/-- The visit of a pass that only sharpens hints. -/
structure KeepsTypes (i : Instruction) (o : Operands) (v : Visited) : Prop extends
    KeepsHints i o v where
  typed : i.Typed o v.operands
  sharpens : Sharpens o v.operands

theorem keepsTypes_refl {obsolete : List Nat} (h : i.Hinted o) (hn : o.NoConstants) :
    KeepsTypes i o ⟨i, o, obsolete⟩ :=
  ⟨keeps_same h hn (sameHints_refl o) (.inl rfl), typed_of_hinted h fun _ _ => rfl,
    fun _ => id, fun _ => id⟩

theorem sharpens_dest (dest : Nat) {o o' : Operands}
    (hk : ∀ t, t ≠ dest → (o'.temp t).typeHint.types = (o.temp t).typeHint.types)
    (hi : (o.temp dest).typeHint.isInt = true → (o'.temp dest).typeHint.isInt = true)
    (hb : (o.temp dest).typeHint.isBool = true → (o'.temp dest).typeHint.isBool = true) :
    Sharpens o o' := by
  refine ⟨fun t h => ?_, fun t h => ?_⟩
  · by_cases ht : t = dest
    · exact ht ▸ hi (ht ▸ h)
    · rwa [Hint.isInt, hk t ht]
  · by_cases ht : t = dest
    · exact ht ▸ hb (ht ▸ h)
    · rwa [Hint.isBool, hk t ht]

theorem foldInts_type {f : Int → Int → Except Fault Int} {t u : Operand} {v : Value}
    (h : foldIntsBinOp f t u = .ok (some v)) :
    t.typeHint.isInt = true ∧ u.typeHint.isInt = true ∧ ∃ i, v = .integer i := by
  unfold foldIntsBinOp at h
  split at h
  · next hc =>
    obtain ⟨v₁, -, h⟩ := bind_ok.mp h
    obtain ⟨i₁, -, h⟩ := bind_ok.mp h
    obtain ⟨v₂, -, h⟩ := bind_ok.mp h
    obtain ⟨i₂, -, h⟩ := bind_ok.mp h
    obtain ⟨r, -, h⟩ := bind_ok.mp h
    cases h
    exact ⟨(Bool.and_eq_true_iff.mp hc).1, (Bool.and_eq_true_iff.mp hc).2, _, rfl⟩
  · cases h

theorem foldBools_type {f : Bool → Bool → Bool} {t u : Operand} {v : Value}
    (h : foldBoolBinOp f t u = .ok (some v)) : ∃ b, v = .boolean b := by
  unfold foldBoolBinOp at h
  split at h
  · obtain ⟨v₁, -, h⟩ := bind_ok.mp h
    obtain ⟨b₁, -, h⟩ := bind_ok.mp h
    obtain ⟨v₂, -, h⟩ := bind_ok.mp h
    obtain ⟨b₂, -, h⟩ := bind_ok.mp h
    cases h
    exact ⟨_, rfl⟩
  · cases h

/-- A sum of constants is an integer only if both are. -/
theorem foldAdd_type {t u : Operand} {v : Value} (h : BinOp.add.fold t u = .ok (some v)) :
    (∃ s, v = .stringConstant s) ∨
      t.typeHint.isInt = true ∧ u.typeHint.isInt = true ∧ ∃ i, v = .integer i := by
  rw [BinOp.fold] at h
  split at h
  · obtain ⟨v₁, -, h⟩ := bind_ok.mp h
    obtain ⟨s₁, -, h⟩ := bind_ok.mp h
    obtain ⟨v₂, -, h⟩ := bind_ok.mp h
    obtain ⟨s₂, -, h⟩ := bind_ok.mp h
    cases h
    exact .inl ⟨_, rfl⟩
  · exact .inr (foldInts_type h)

/-- What an operation is folded to is of the type of its result. -/
theorem fold_type (o₀ o₁ : Operands) (dest src1 src2 : Nat) {op : BinOp} {t u : Operand}
    {v : Value} (hop : op ≠ .add) (h : op.fold t u = .ok (some v)) :
    (Instruction.binOp op dest src1 src2).Yields o₀ o₁ v := by
  cases op with
  | add => exact absurd rfl hop
  | intAdd | sub | mul =>
    rw [BinOp.fold] at h
    exact (foldInts_type h).2.2
  | div =>
    rw [BinOp.fold] at h
    obtain ⟨w, -, h⟩ := bind_ok.mp h
    obtain ⟨b, -, h⟩ := bind_ok.mp h
    split at h
    · cases h
    · exact (foldInts_type h).2.2
  | and | or => exact foldBools_type h
  | gt | geq | eq => cases h
  | fastEq =>
    rw [BinOp.fold] at h
    obtain ⟨r, hr, h⟩ := bind_ok.mp h
    split at h
    · cases h
      exact foldBools_type hr
    · split at h
      · obtain ⟨v₁, -, h⟩ := bind_ok.mp h
        obtain ⟨i₁, -, h⟩ := bind_ok.mp h
        obtain ⟨v₂, -, h⟩ := bind_ok.mp h
        obtain ⟨i₂, -, h⟩ := bind_ok.mp h
        cases h
        exact ⟨_, rfl⟩
      · cases h

theorem foldUnOp_type (o₀ o₁ : Operands) (dest src : Nat) {op : UnOp} {t : Operand} {v : Value}
    (h : op.fold t = .ok (some v)) : (Instruction.unOp op dest src).Yields o₀ o₁ v := by
  cases op with
  | neg =>
    rw [UnOp.fold] at h
    split at h
    · obtain ⟨w, -, h⟩ := bind_ok.mp h
      obtain ⟨i, -, h⟩ := bind_ok.mp h
      cases h
      exact ⟨_, rfl⟩
    · cases h
  | not =>
    rw [UnOp.fold] at h
    split at h
    · obtain ⟨w, -, h⟩ := bind_ok.mp h
      obtain ⟨b, -, h⟩ := bind_ok.mp h
      cases h
      exact ⟨_, rfl⟩
    · cases h

/-- The assignment of a constant in the place of an instruction whose results are of
the type of the constant. -/
theorem keepsTypes_assign {dest : Nat} {c : Value} {obsolete : List Nat} (hn : o.NoConstants)
    (hd : i.dests = [dest])
    (hc : (o.temp dest).typeHint.Admits c)
    (hv : ∀ v, i.Yields o ((Instruction.assign dest (.const c)).construct o) v →
      (∀ n, c = .integer n → ∃ m, v = .integer m) ∧ ∀ b, c = .boolean b → ∃ d, v = .boolean d) :
    KeepsTypes i o ⟨.assign dest (.const c), (Instruction.assign dest (.const c)).construct o,
      obsolete⟩ := by
  have hself := modifyTemp_self o dest (Temp.transferHint ((Source.const c).operand o))
  refine ⟨keeps_construct hn hd.symm (hinted_assign hn dest _), fun t ht v hy => ?_,
    sharpens_dest dest (fun t ht => ?_) (fun hi => ?_) fun hb => ?_⟩
  · rw [hd] at ht
    cases List.mem_singleton.mp ht
    show ((o.modifyTemp dest _).temp dest).typeHint.Admits v
    rw [hself]
    exact admits_const (hv v hy).1 (hv v hy).2
  · exact (kept_construct o (.assign dest (.const c)) fun hm => ht (List.mem_singleton.mp hm)).types
  · show ((o.modifyTemp dest _).temp dest).typeHint.isInt = true
    rw [hself]
    obtain ⟨n, rfl⟩ := hc.int hi
    rfl
  · show ((o.modifyTemp dest _).temp dest).typeHint.isBool = true
    rw [hself]
    obtain ⟨b, rfl⟩ := hc.bool hb
    rfl

theorem keepsTypes_foldTo {dest : Nat} {srcs : List Nat} {fold : Except Fault (Option Value)}
    {v : Visited} (h : i.Hinted o) (hn : o.NoConstants) (hd : i.dests = [dest])
    (hfold : ∀ c, fold = .ok (some c) → (o.temp dest).typeHint.Admits c ∧
      ∀ x, i.Yields o ((Instruction.assign dest (.const c)).construct o) x →
        (∀ n, c = .integer n → ∃ m, x = .integer m) ∧ ∀ b, c = .boolean b → ∃ d, x = .boolean d)
    (hv : foldTo i dest srcs fold o = .ok v) : KeepsTypes i o v := by
  unfold foldTo at hv
  split at hv
  · obtain ⟨r, hr, hv⟩ := bind_ok.mp hv
    cases r with
    | none =>
      cases hv
      exact keepsTypes_refl h hn
    | some c =>
      cases hv
      obtain ⟨hadmits, htypes⟩ := hfold c hr
      exact keepsTypes_assign hn hd hadmits htypes
  · cases hv
    exact keepsTypes_refl h hn

theorem keepsTypes_constantFolding {v : Visited} (h : i.Hinted o) (hn : o.NoConstants)
    (hv : constantFolding i o = .ok v) : KeepsTypes i o v := by
  cases i with
  | binOp op dest src1 src2 =>
    refine keepsTypes_foldTo h hn rfl (fun c hc => ?_) hv
    by_cases hop : op = .add
    · subst hop
      refine ⟨h.add dest src1 src2 rfl c, fun x hx => ?_⟩
      rcases foldAdd_type hc with ⟨s, rfl⟩ | ⟨h₁, h₂, i, rfl⟩
      · exact ⟨nofun, nofun⟩
      · refine ⟨fun _ _ => hx ?_ ?_, nofun⟩
        all_goals
          -- the operands are no sums, which have no type yet
          have hne : ∀ {src : Nat}, (o.temp src).typeHint.isInt = true → src ≠ dest := by
            rintro src hsrc rfl
            obtain ⟨n, hnone⟩ := (h.add src src1 src2 rfl .none).int hsrc
            cases hnone
          first
            | rwa [show ((Instruction.assign dest (.const (.integer i))).construct o).temp src1 =
                o.temp src1 from (temp_modifyTemp ..).trans (if_neg (hne h₁))]
            | rwa [show ((Instruction.assign dest (.const (.integer i))).construct o).temp src2 =
                o.temp src2 from (temp_modifyTemp ..).trans (if_neg (hne h₂))]
    · have hyields := fold_type o o dest src1 src2 hop hc
      refine ⟨h.typed dest (List.mem_singleton_self _) c hyields, fun x hx => ?_⟩
      cases op with
      | add => exact absurd rfl hop
      | intAdd | sub | mul | div =>
        obtain ⟨n, rfl⟩ := hyields
        exact ⟨fun _ _ => hx, nofun⟩
      | gt | geq | eq | fastEq | and | or =>
        obtain ⟨b, rfl⟩ := hyields
        exact ⟨nofun, fun _ _ => hx⟩
  | unOp op dest src =>
    refine keepsTypes_foldTo h hn rfl (fun c hc => ?_) hv
    have hyields := foldUnOp_type o o dest src hc
    refine ⟨h.typed dest (List.mem_singleton_self _) c hyields, fun x hx => ?_⟩
    cases op with
    | neg =>
      obtain ⟨n, rfl⟩ := hyields
      exact ⟨fun _ _ => hx, nofun⟩
    | not =>
      obtain ⟨b, rfl⟩ := hyields
      exact ⟨nofun, fun _ _ => hx⟩
  | _ =>
    cases hv
    exact keepsTypes_refl h hn

/-- What `TypeSpecializationOptimization` replaces, and by what. -/
theorem specialize_cases (op : BinOp) (t u : Operand) :
    op.specialize t u = op ∨
      (op = .add ∧ op.specialize t u = .intAdd ∧ t.typeHint.isInt = true ∧
        u.typeHint.isInt = true) ∨
      (op = .eq ∧ op.specialize t u = .fastEq ∧
        (t.typeHint.isInt = true ∧ u.typeHint.isInt = true ∨
          t.typeHint.isBool = true ∧ u.typeHint.isBool = true)) := by
  cases op with
  | add =>
    rw [BinOp.specialize]
    split
    · next h => exact .inr (.inl ⟨rfl, rfl, Bool.and_eq_true_iff.mp h⟩)
    · exact .inl rfl
  | eq =>
    rw [BinOp.specialize]
    split
    · next h =>
      refine .inr (.inr ⟨rfl, rfl, ?_⟩)
      rw [Bool.or_eq_true, Bool.and_eq_true, Bool.and_eq_true] at h
      exact h
    · exact .inl rfl
  | _ => exact .inl rfl

theorem keepsTypes_typeSpecialization (h : i.Hinted o) (hn : o.NoConstants) :
    KeepsTypes i o (typeSpecialization i o) := by
  unfold typeSpecialization
  split
  · next op dest src1 src2 =>
    dsimp only
    split
    · exact keepsTypes_refl h hn
    · next hne =>
      have hconst : (o.temp dest).typeHint.constSrc = true →
          ∀ c, (o.temp dest).srcVal ≠ .value c := fun hc c hs => by
        cases h.const dest (List.mem_singleton_self _) hc c hs
      rcases specialize_cases op (o.temp src1).toOperand (o.temp src2).toOperand with
        he | ⟨rfl, he, h₁, h₂⟩ | ⟨rfl, he, -⟩
      · exact absurd he hne
      · rw [he]
        have hself := modifyTemp_self o dest (Temp.modify BinOp.intAdd.hint)
        have hadd := h.add dest src1 src2 rfl
        have hother : ∀ {src : Nat}, (o.temp src).typeHint.isInt = true → src ≠ dest := by
          rintro src hsrc rfl
          obtain ⟨n, hnone⟩ := (hadd .none).int hsrc
          cases hnone
        refine ⟨keeps_construct hn rfl (hinted_binOp nofun hconst), fun t ht v hy => ?_,
          sharpens_dest dest (fun t ht => ?_) (fun hi => ?_) fun hb => ?_⟩
        · cases List.mem_singleton.mp ht
          show ((o.modifyTemp dest _).temp dest).typeHint.Admits v
          rw [hself]
          refine binOp_admits o o .intAdd dest src1 src2 nofun (hy ?_ ?_)
          · rwa [show ((Instruction.binOp .intAdd dest src1 src2).construct o).temp src1 =
              o.temp src1 from (temp_modifyTemp ..).trans (if_neg (hother h₁))]
          · rwa [show ((Instruction.binOp .intAdd dest src1 src2).construct o).temp src2 =
              o.temp src2 from (temp_modifyTemp ..).trans (if_neg (hother h₂))]
        · exact (kept_construct o (.binOp .intAdd dest src1 src2) fun hm =>
            ht (List.mem_singleton.mp hm)).types
        · exact absurd rfl (hother hi)
        · obtain ⟨b, hnone⟩ := (hadd .none).bool hb
          cases hnone
      · rw [he]
        have hself := modifyTemp_self o dest (Temp.modify BinOp.fastEq.hint)
        refine ⟨keeps_construct hn rfl (hinted_binOp nofun hconst), fun t ht v hy => ?_,
          sharpens_dest dest (fun t ht => ?_) (fun hi => ?_) fun hb => ?_⟩
        · cases List.mem_singleton.mp ht
          show ((o.modifyTemp dest _).temp dest).typeHint.Admits v
          rw [hself]
          exact binOp_admits o o .fastEq dest src1 src2 nofun hy
        · exact (kept_construct o (.binOp .fastEq dest src1 src2) fun hm =>
            ht (List.mem_singleton.mp hm)).types
        · have hbools := isInt_of_bools fun b =>
            h.typed dest (List.mem_singleton_self _) (.boolean b) ⟨b, rfl⟩
          exact absurd (hbools.symm.trans hi) nofun
        · show ((o.modifyTemp dest _).temp dest).typeHint.isBool = true
          rw [hself]
          have htypes : (o.temp dest).typeHint.types = { bool := true } := of_decide_eq_true hb
          refine decide_eq_true ?_
          show ({ (o.temp dest).typeHint.types with bool := true } : Hint) = _
          rw [htypes]
  · exact keepsTypes_refl h hn

end TypeHintsLemmas

/-- What holds of the hints between two passes. -/
structure OptimizingCompiler.Hinted (oc : OptimizingCompiler) : Prop where
  hinted : ∀ i ∈ oc.compiler.instructions, i.Hinted oc.compiler.operands
  noConstants : oc.compiler.operands.NoConstants

namespace TypeHintsLemmas

section Passes

variable {oc oc' : OptimizingCompiler}

theorem optimize_hinted {visit : Nat → Instruction → Operands → Except Fault Visited}
    (step : ∀ {count i o v}, i.Hinted o → o.NoConstants → visit count i o = .ok v →
      KeepsHints i o v)
    (h : oc.Hinted) (hd : (dests oc.compiler.instructions).Nodup)
    (hr : oc.optimize visit = .ok oc') : oc'.Hinted := by
  obtain ⟨obsolete, hl, -⟩ := optimize_ok hr
  obtain ⟨hcode, hn, -⟩ := loop_hinted step hl hd h.hinted h.noConstants
  exact ⟨hcode, hn⟩

theorem hinted_same {c : Compiler} {obsolete : List Nat} (h : oc.Hinted)
    (hs : SameHints oc.compiler.operands c.operands)
    (hc : ∀ i ∈ c.instructions, i ∈ oc.compiler.instructions ∨ i.dests = []) :
    (⟨c, obsolete⟩ : OptimizingCompiler).Hinted := by
  refine ⟨fun i hi => ?_, noConstants_same h.noConstants hs⟩
  rcases hc i hi with hi | hi
  · exact hinted_kept (h.hinted i hi) fun t _ => kept_same hs t
  · exact hinted_noDests hi

/-- Every pass keeps the hints right. -/
theorem run_hinted (h : oc.Hinted) (hd : (dests oc.compiler.instructions).Nodup) {p : Pass}
    (hr : oc.run p = .ok oc') : oc'.Hinted := by
  cases p with
  | loadParams =>
    cases hr
    have hsame := sameHints_foldl (f := fun o n =>
      o.modifyVar n (Var.modify fun v => { v with liveStart := 0 }))
      (fun o n => sameHints_modifyVar o n fun _ => rfl)
      ((List.range oc.compiler.bytecode.parameterCount).filter (· ∈ oc.compiler.vars))
      oc.compiler.operands
    refine hinted_same h hsame fun i hi => ?_
    rcases List.mem_append.mp hi with hi | hi
    · obtain ⟨n, -, rfl⟩ := List.mem_map.mp hi
      exact .inr rfl
    · exact .inl hi
  | propagateTypes =>
    refine optimize_hinted (fun {_ i o v} h hn hv => ?_) h hd hr
    cases hv
    exact keeps_propagateTypes h hn
  | constantFolding =>
    exact optimize_hinted (fun h hn hv => (keepsTypes_constantFolding h hn hv).toKeepsHints) h hd hr
  | typeSpecialization =>
    refine optimize_hinted (fun {_ i o v} h hn hv => ?_) h hd hr
    cases hv
    exact (keepsTypes_typeSpecialization h hn).toKeepsHints
  | removeObsolete =>
    obtain ⟨oc₁, h₁, hr⟩ := bind_ok.mp hr
    cases hr
    have hkept := optimize_hinted (fun h hn hv => keeps_removeObsolete h hn hv) h hd h₁
    exact ⟨hkept.hinted, hkept.noConstants⟩
  | removeNoop =>
    cases hr
    exact hinted_same h (sameHints_refl _) fun i hi => .inl (List.mem_filter.mp hi).1
  | varLiveness =>
    refine optimize_hinted (fun {count i o v} h hn hv => ?_) h hd hr
    cases hv
    exact keeps_same h hn (sameHints_varLiveness oc.compiler count i o) (.inl rfl)
  | deadVariableAssignment =>
    refine optimize_hinted (fun {_ i o v} h hn hv => ?_) h hd hr
    cases hv
    exact keeps_deadVariableAssignment h hn
  | tempLiveness =>
    refine optimize_hinted (fun {count i o v} h hn hv => ?_) h hd hr
    cases hv
    exact keeps_same h hn (sameHints_tempLiveness count i o) (.inl rfl)
  | deadTemp =>
    refine optimize_hinted (fun {_ i o v} h hn hv => ?_) h hd hr
    cases hv
    exact keeps_same h hn (sameHints_refl o) (.inl rfl)
  | shortJump =>
    refine optimize_hinted (fun {_ i o v} h hn hv => ?_) h hd hr
    cases hv
    exact keeps_shortJump h hn
  | registerAllocation =>
    obtain ⟨c, hc, hr⟩ := bind_ok.mp hr
    cases hr
    have hcode : c.instructions = oc.compiler.instructions := by
      obtain ⟨s, -, hs⟩ := bind_ok.mp hc
      cases hs
      rfl
    exact hinted_same h (sameHints_allocate hc) fun i hi => .inl (hcode ▸ hi)

/-- The run lemma. -/
theorem stands_hinted {shared : Operands} {f : Function} (hw : WellEmitted f) {c : Compiler}
    (hc : Compiler.compile shared f = some c) (h : (⟨c, []⟩ : OptimizingCompiler).Hinted) {n : Nat}
    (hs : Stands shared f n oc) : oc.Hinted := by
  induction n generalizing oc with
  | zero =>
    cases stands_unique hs (stands_zero hc)
    exact h
  | succ n ih =>
    cases hp : allPasses[n]? with
    | none =>
      have hlen := List.getElem?_eq_none_iff.mp hp
      refine ih ?_
      obtain ⟨c', hc', hr⟩ := hs
      refine ⟨c', hc', ?_⟩
      rw [List.take_of_length_le hlen, ← List.take_of_length_le (Nat.le_succ_of_le hlen)]
      exact hr
    | some p =>
      obtain ⟨oc₀, hs₀, hr⟩ := stands_run hp hs
      exact run_hinted (ih hs₀) (stands_keeps hw (Nat.le_refl n) hs₀ hs₀).1.writes hr

end Passes

end TypeHintsLemmas

end Beaverc.Ir

import Beaverc.TypedTemps

/-!
# Instructions retyped

`TypeSpecializationOptimization` writes `IntAdd` for `Add` and `FastEq` for `Eq`,
`RemoveObsoleteOptimization` deletes `CallAssert`s, because of the hints of the
temps. Where the temps are of the types hinted, the code retyped runs in step with
the code before.
-/

namespace Beaverc.Ir
open Process Results SingleUseLemmas DefinedTempsLemmas ConstantHintsLemmas OptimizerErrorsLemmas
  LoopsLemmas ChangesLemmas DeadVariablesLemmas TranslationLemmas
  TypeHintsLemmas TypedTempsLemmas

/-- A pass that looks at types finds the operand objects `o` at an instruction. -/
def OptimizingCompiler.Consults (oc : OptimizingCompiler) (o : Operands) : Pass → Prop
  | .constantFolding => ∃ i, oc.FoldsAt i o
  | .typeSpecialization => ∃ i, Meets (fun _ i o => .ok (typeSpecialization i o)) 0
      oc.compiler.instructions oc.compiler.operands i o
  | .removeObsolete => ∃ i, Meets (fun _ i o => removeObsolete oc.obsolete i o) 0
      oc.compiler.instructions oc.compiler.operands i o
  | _ => False

/-- The code in which the instructions are replaced that a pass replaces for the types
of their temps: the additions and comparisons, or any of the `CallAssert`s that are
deleted for the hints of what they check. -/
def OptimizingCompiler.Retypes (oc : OptimizingCompiler) (code : List Instruction) : Pass → Prop
  | .typeSpecialization => ∃ oc', oc.run .typeSpecialization = .ok oc' ∧
      code = oc'.compiler.instructions
  | .removeObsolete => Pointwise (fun _ i i' => i' = i ∨ i' = .noop ∧ ∃ a arg,
      i = .callAssert a arg ∧ a.passes (oc.compiler.operands.temp arg).toOperand = .ok true)
      oc.compiler.instructions code
  | _ => False

/-- What is compared: that two values are added or compared is not seen. -/
def effects : Event → Bool
  | .act (.add _ _) | .act (.eq _ _) => false
  | _ => true

/-- In each run through states that satisfy `ok`, whatever the pass takes for an integer
or a boolean is one, and the code retyped shows the same, ends with the same
result and raises the same exception. -/
structure TypesSound (oc : OptimizingCompiler) (p : Pass) (ok : Activation × World → Prop) :
    Prop where
  holds : ∀ o, oc.Consults o p → ∀ (env : Request × World → Value × World → Prop) (fr : Frame)
    (w : World) (retVal : Value) n t s,
    Run Activation.move env ok n (Activation.of fr oc.compiler (fun _ => none) retVal, w) t s →
    ∀ x v, s.1.temps x = some v → (o.temp x).typeHint.Admits v
  mimics : ∀ code, oc.Retypes code p → ∀ (env : Request × World → Value × World → Prop)
    (fr : Frame) (w : World) (retVal : Value),
    Mimics (Activation.move.observe effects id) (Activation.move.observe effects id) env ok raised
      (Activation.of fr oc.compiler (fun _ => none) retVal, w)
      (Activation.of fr { oc.compiler with instructions := code } (fun _ => none) retVal, w)

namespace RetypingLemmas

/-! ### Lockstep -/

/-- Where the temps satisfy `inv`, the second instruction does what the first does. -/
structure ActsAs (inv : (Nat → Option Value) → Prop) (i i' : Instruction) : Prop where
  label : ∀ l, i ≠ .outputLabel l ∧ i' ≠ .outputLabel l
  steps : ∀ {f : Activation} {w : World} {m}, inv f.temps → f.exec i w = .ok m →
    ∃ es es' s', m = .step es s' ∧ f.exec i' w = .ok (.step es' s') ∧
      es'.filter effects = es.filter effects
  fails : ∀ {f : Activation} {w : World} {e : Stop}, inv f.temps → f.exec i w = .error e →
    ¬ raised e

/-- The same place in both codes. -/
structure Aside (code code' : List Instruction) (inv : (Nat → Option Value) → Prop)
    (s q : Activation × World) : Prop where
  world : q.2 = s.2
  source : s.1.code = code
  target : q.1 = s.1.alter code' s.1.locals s.1.temps
  inv : inv s.1.temps

section Lockstep

variable {code code' : List Instruction} {inv : (Nat → Option Value) → Prop}
  {s q : Activation × World}

theorem Aside.same (h : Aside code code' inv s q) (hp : ∀ l, position code' l = position code l)
    (i : Instruction) :
    ChangesLemmas.Same (SameMove i s.1 q.1) (s.1.exec i s.2) (q.1.exec i q.2) := by
  rw [h.world]
  refine exec_agrees ⟨?_, ?_, fun _ _ _ => ?_, fun t _ => ?_, fun l _ => ?_⟩ s.2
  · rw [h.target]
    rfl
  · rw [h.target]
    rfl
  · rw [h.target]
    rfl
  · rw [h.target]
    rfl
  · rw [h.target, h.source]
    exact hp l

theorem Aside.apply (h : Aside code code' inv s q) {c : Change} {w : World}
    (hinv : inv (s.1.apply c).temps) :
    Aside code code' inv (s.1.apply c, w) (q.1.apply c, w) := by
  refine ⟨rfl, h.source, ?_, hinv⟩
  rw [h.target]
  rfl

theorem Aside.advance (h : Aside code code' inv s q) (v : Value) (w : World) :
    Aside code code' inv ({ s.1.advance with retVal := v }, w)
      ({ q.1.advance with retVal := v }, w) := by
  refine ⟨rfl, h.source, ?_, h.inv⟩
  rw [h.target]
  rfl

theorem retyped_lockstep {ok : Activation × World → Prop}
    (hcode : Pointwise (fun _ i i' => i' = i ∨ ActsAs inv i i') code code')
    (hstep : ∀ {f : Activation} {w : World} {i es s'}, f.code = code → f.code[f.ip]? = some i →
      ok (f, w) → inv f.temps → f.exec i w = .ok (.step es s') → inv s'.1.temps) :
    Lockstep (Activation.move.observe effects id) (Activation.move.observe effects id) ok raised
      (Aside code code' inv) := by
  have hposition (l : Nat) : position code' l = position code l :=
    idxOf_pointwise hcode fun {p i i'} hR => by
      rcases hR with rfl | hR
      · exact Iff.rfl
      · exact ⟨fun hi => absurd hi (hR.label l).1, fun hi => absurd hi (hR.label l).2⟩
  have place : ∀ {s q : Activation × World} {i : Instruction}, Aside code code' inv s q →
      s.1.code[s.1.ip]? = some i → ∃ i', q.1.code[q.1.ip]? = some i' ∧
        (i' = i ∨ ActsAs inv i i') := by
    intro s q i h hi
    rw [h.target]
    exact hcode.related (h.source ▸ hi)
  constructor
  · intro s q m h hok hm
    obtain ⟨m₀, hm₀, rfl⟩ := observe_ok.mp hm
    obtain ⟨i, hi, hexec⟩ := move_inv hm₀
    obtain ⟨i', hi', hR⟩ := place h hi
    rcases hR with rfl | hR
    · have hsame := h.same hposition i'
      rw [hexec] at hsame
      have hq : Activation.move q = q.1.exec i' q.2 := move_of hi'
      generalize hx : q.1.exec i' q.2 = x at hsame hq
      cases hsame with
      | ok hsm =>
        refine ⟨_, observe_ok.mpr ⟨_, hq, rfl⟩, ?_⟩
        cases hsm with
        | step _ => exact .step (h.apply (hstep h.source hi hok h.inv hexec))
        | call _ => exact .ask fun a => h.advance a.1 a.2
        | collect _ =>
          rw [h.target]
          refine .ask fun a => ?_
          have hadvance := h.advance s.1.retVal a.2
          rw [h.target] at hadvance
          exact hadvance
        | stop => exact .stop
    · obtain ⟨es, es', s', rfl, hexec', hshown⟩ := hR.steps h.inv hexec
      have hsame := h.same hposition i'
      rw [hexec'] at hsame
      have hq : Activation.move q = q.1.exec i' q.2 := move_of hi'
      generalize hx : q.1.exec i' q.2 = x at hsame hq
      cases hsame with
      | ok hsm =>
        cases hsm with
        | @step _ c w _ =>
          refine ⟨_, observe_ok.mpr ⟨_, hq, rfl⟩, ?_⟩
          show (Move.step (es.filter effects) _ : Move (Activation × World) Event (Request × World)
            (Value × World) (Option Value × World)).Rel _ (.step (es'.filter effects) _)
          rw [hshown]
          exact .step (h.apply (hstep h.source hi hok h.inv hexec))
  · intro s q e h _ he hfail
    rw [observe_error] at hfail ⊢
    cases hi : s.1.code[s.1.ip]? with
    | none =>
      unfold Activation.move at hfail
      rw [hi] at hfail
      cases hfail
      exact absurd he id
    | some i =>
      rw [move_of hi] at hfail
      obtain ⟨i', hi', hR⟩ := place h hi
      rcases hR with rfl | hR
      · have hsame := h.same hposition i'
        rw [hfail] at hsame
        rw [move_of hi']
        generalize hx : q.1.exec i' q.2 = x at hsame
        cases hsame
        rfl
      · exact absurd he (hR.fails h.inv hfail)

end Lockstep

/-! ### Retyped instructions -/

theorem read_error {f : Activation} {t : Nat} {e : Stop} (h : f.read t = .error e) :
    ¬ raised e := by
  unfold Activation.read at h
  split at h
  · cases h
  · cases h
    exact id

theorem read_eq {f : Activation} {t : Nat} {v : Value} (h : f.temps t = some v) :
    f.read t = .ok v := by
  unfold Activation.read
  rw [h]

/-- An operation on two temps that are there does what it does on their values. -/
theorem binOp_reads {f : Activation} {w : World} {op : BinOp} {dest src1 src2 : Nat}
    {x : Step} (h : f.exec (.binOp op dest src1 src2) w = x) :
    (∃ e, x = .error e ∧ ¬ raised e) ∨
      ∃ v1 v2, f.temps src1 = some v1 ∧ f.temps src2 = some v2 := by
  cases h1 : f.read src1 with
  | error e =>
    refine .inl ⟨e, ?_, read_error h1⟩
    rw [← h, Activation.exec, h1]
    rfl
  | ok v1 =>
    cases h2 : f.read src2 with
    | error e =>
      refine .inl ⟨e, ?_, read_error h2⟩
      rw [← h, Activation.exec, h1, ok_bind, h2]
      rfl
    | ok v2 => exact .inr ⟨v1, v2, read_ok h1, read_ok h2⟩

theorem exec_add {f : Activation} (w : World) (dest : Nat) {src1 src2 : Nat} {a b : Int}
    (h1 : f.temps src1 = some (.integer a)) (h2 : f.temps src2 = some (.integer b)) :
    f.exec (.binOp .add dest src1 src2) w =
      .ok (.step [.act (.add (.integer a) (.integer b))]
        (f.advance.setTemp dest (.makeInteger (b + a)), w)) ∧
    f.exec (.binOp .intAdd dest src1 src2) w =
      .ok (.step [] (f.advance.setTemp dest (.makeInteger (b + a)), w)) := by
  constructor
  · rw [Activation.exec, read_eq h1, ok_bind, read_eq h2]
    rfl
  · rw [Activation.exec, read_eq h1, ok_bind, read_eq h2]
    rfl

theorem exec_eq {f : Activation} (w : World) (dest : Nat) {src1 src2 : Nat} {v1 v2 : Value}
    (h1 : f.temps src1 = some v1) (h2 : f.temps src2 = some v2) (hs1 : v1.isString = false)
    (hs2 : v2.isString = false) :
    f.exec (.binOp .eq dest src1 src2) w =
      .ok (.step [.act (.eq v1 v2)] (f.advance.setTemp dest (.boolean (v1 = v2)), w)) ∧
    f.exec (.binOp .fastEq dest src1 src2) w =
      .ok (.step [] (f.advance.setTemp dest (.boolean (v1 = v2)), w)) := by
  constructor
  · rw [Activation.exec, read_eq h1, ok_bind, read_eq h2, ok_bind]
    show f.load (.eq v1 v2) dest w = _
    have hequals : w.equals v1 v2 = .ok (.boolean (v1 = v2)) := by
      unfold World.equals
      rw [hs1]
      rfl
    unfold Activation.load performHelper perform
    simp only [hequals, ok_bind]
  · rw [Activation.exec, read_eq h1, ok_bind, read_eq h2, ok_bind]
    have hmachine : BinOp.fastEq.machine v2 v1 = .ok (.boolean (v1 = v2)) := by
      unfold BinOp.machine
      simp only [hs1, hs2, Bool.and_self, Bool.false_eq_true, if_false, eq_comm]
    show (BinOp.fastEq.machine v2 v1 >>= fun v => (f.advance.setTemp dest v).silent w) = _
    rw [hmachine]
    rfl

theorem actsAs_add {o : Operands} {dest src1 src2 : Nat}
    (h1 : (o.temp src1).typeHint.isInt = true) (h2 : (o.temp src2).typeHint.isInt = true) :
    ActsAs (fun temps => ∀ t v, temps t = some v → (o.temp t).typeHint.Admits v)
      (.binOp .add dest src1 src2) (.binOp .intAdd dest src1 src2) := by
  refine ⟨fun l => ⟨nofun, nofun⟩, fun {f w m} hinv hm => ?_, fun {f w e} hinv he => ?_⟩
  · rcases binOp_reads hm with ⟨e, he, -⟩ | ⟨v1, v2, hv1, hv2⟩
    · cases he
    · obtain ⟨a, rfl⟩ := (hinv src1 v1 hv1).int h1
      obtain ⟨b, rfl⟩ := (hinv src2 v2 hv2).int h2
      obtain ⟨hadd, hint⟩ := exec_add w dest hv1 hv2
      cases hm.symm.trans hadd
      exact ⟨_, _, _, rfl, hint, rfl⟩
  · rcases binOp_reads he with ⟨e', he', hnot⟩ | ⟨v1, v2, hv1, hv2⟩
    · cases he'
      exact hnot
    · obtain ⟨a, rfl⟩ := (hinv src1 v1 hv1).int h1
      obtain ⟨b, rfl⟩ := (hinv src2 v2 hv2).int h2
      cases he.symm.trans (exec_add w dest hv1 hv2).1

theorem actsAs_eq {o : Operands} {dest src1 src2 : Nat}
    (h : (o.temp src1).typeHint.isInt = true ∧ (o.temp src2).typeHint.isInt = true ∨
      (o.temp src1).typeHint.isBool = true ∧ (o.temp src2).typeHint.isBool = true) :
    ActsAs (fun temps => ∀ t v, temps t = some v → (o.temp t).typeHint.Admits v)
      (.binOp .eq dest src1 src2) (.binOp .fastEq dest src1 src2) := by
  have hnot {temps : Nat → Option Value}
      (hinv : ∀ t v, temps t = some v → (o.temp t).typeHint.Admits v) {v1 v2 : Value}
      (hv1 : temps src1 = some v1) (hv2 : temps src2 = some v2) :
      v1.isString = false ∧ v2.isString = false := by
    rcases h with ⟨h1, h2⟩ | ⟨h1, h2⟩
    · obtain ⟨a, rfl⟩ := (hinv src1 v1 hv1).int h1
      obtain ⟨b, rfl⟩ := (hinv src2 v2 hv2).int h2
      exact ⟨rfl, rfl⟩
    · obtain ⟨a, rfl⟩ := (hinv src1 v1 hv1).bool h1
      obtain ⟨b, rfl⟩ := (hinv src2 v2 hv2).bool h2
      exact ⟨rfl, rfl⟩
  refine ⟨fun l => ⟨nofun, nofun⟩, fun {f w m} hinv hm => ?_, fun {f w e} hinv he => ?_⟩
  · rcases binOp_reads hm with ⟨e, he, -⟩ | ⟨v1, v2, hv1, hv2⟩
    · cases he
    · obtain ⟨hs1, hs2⟩ := hnot hinv hv1 hv2
      obtain ⟨heq, hfast⟩ := exec_eq w dest hv1 hv2 hs1 hs2
      cases hm.symm.trans heq
      exact ⟨_, _, _, rfl, hfast, rfl⟩
  · rcases binOp_reads he with ⟨e', he', hnotRaised⟩ | ⟨v1, v2, hv1, hv2⟩
    · cases he'
      exact hnotRaised
    · obtain ⟨hs1, hs2⟩ := hnot hinv hv1 hv2
      cases he.symm.trans (exec_eq w dest hv1 hv2 hs1 hs2).1

/-- What a temp holds agrees with its operand object, the constant included. -/
def Agrees (t : Operand) (v : Value) : Prop :=
  t.typeHint.Admits v ∧ (t.typeHint.constSrc = true → ∀ c, t.srcVal = .value c → v = c)

/-- A check that is deleted passes. -/
theorem check_passes {a : Assert} {t : Operand} {v : Value} (h : a.passes t = .ok true)
    (hv : Agrees t v) : a.check v = .ok () := by
  cases a with
  | int =>
    obtain ⟨i, rfl⟩ := hv.1.int (Except.ok.inj h)
    rfl
  | bool =>
    obtain ⟨b, rfl⟩ := hv.1.bool (Except.ok.inj h)
    rfl
  | notZero =>
    unfold Assert.passes at h
    dsimp only at h
    split at h
    · next hc =>
      obtain ⟨c, hconst, h⟩ := bind_ok.mp h
      obtain ⟨n, hn, h⟩ := bind_ok.mp h
      have hsrc := ConstantFoldingLemmas.getConst_src hconst
      cases hv.2 (Bool.and_eq_true_iff.mp hc).2 c hsrc
      unfold Assert.check
      cases v with
      | integer m =>
        cases hn
        have hne : n ≠ 0 := of_decide_eq_true (Except.ok.inj h)
        simp only [Value.integer.injEq, hne, if_false]
      | _ => rfl
    · cases h

theorem actsAs_assert {o : Operands} {a : Assert} {arg : Nat}
    (h : a.passes (o.temp arg).toOperand = .ok true) :
    ActsAs (fun temps => ∀ t v, temps t = some v → Agrees (o.temp t).toOperand v)
      (.callAssert a arg) .noop := by
  refine ⟨fun l => ⟨nofun, nofun⟩, fun {f w m} hinv hm => ?_, fun {f w e} hinv he => ?_⟩
  · obtain ⟨v, hv, hm⟩ := bind_ok.mp hm
    obtain ⟨_, -, hm⟩ := bind_ok.mp hm
    cases hm
    exact ⟨_, _, _, rfl, rfl, rfl⟩
  · cases hv : f.read arg with
    | error e' =>
      rw [Activation.exec, hv] at he
      cases he
      exact read_error hv
    | ok v =>
      rw [Activation.exec, hv, ok_bind, check_passes h (hinv arg v (read_ok hv))] at he
      cases he

/-! ### The passes that look at types -/

theorem meets_split {visit : Nat → Instruction → Operands → Except Fault Visited} {count : Nat}
    {code : List Instruction} {o o' : Operands} {i : Instruction}
    (h : Meets visit count code o i o') : ∃ done rest done' obsolete,
      code = done ++ i :: rest ∧ loop visit count done o = .ok (done', o', obsolete) := by
  induction h with
  | here => exact ⟨[], _, [], [], rfl, rfl⟩
  | @later count i j rest o o' v hv _ ih =>
    obtain ⟨done, rest', done', obsolete, rfl, hl⟩ := ih
    refine ⟨i :: done, rest', v.instruction :: done', v.obsolete ++ obsolete, rfl, ?_⟩
    rw [loop, hv, ok_bind, hl]
    rfl

/-- The hints that a pass finds at an instruction admit what the code computes. -/
theorem meets_typed {visit : Nat → Instruction → Operands → Except Fault Visited}
    (step : ∀ {count i o v}, i.Hinted o → o.NoConstants → visit count i o = .ok v →
      KeepsTypes i o v)
    {code : List Instruction} {o o' : Operands} {i : Instruction}
    (hm : Meets visit 0 code o i o') (hd : (dests code).Nodup) (hc : ∀ i ∈ code, i.Hinted o)
    (hn : o.NoConstants) : ∀ j ∈ code, j.Typed o o' := by
  obtain ⟨done, rest, done', obsolete, rfl, hl⟩ := meets_split hm
  have hparts := List.nodup_append.mp (dests_append done (i :: rest) ▸ hd)
  have hdone : ∀ j ∈ done, j.Hinted o := fun j hj => hc j (List.mem_append_left _ hj)
  obtain ⟨htyped, -, -⟩ := loop_typed (fun h hn hv => by
    have hk := step h hn hv
    exact ⟨hk.toKeepsHints, hk.typed, hk.sharpens⟩) hl hparts.1 hdone hn
  obtain ⟨-, -, hkept⟩ := loop_hinted (fun h hn hv => (step h hn hv).toKeepsHints) hl hparts.1
    hdone hn
  intro j hj
  rcases List.mem_append.mp hj with hdone | hrest
  · exact htyped j hdone
  · refine typed_of_hinted (hc j hj) fun t ht => (hkept t fun hm => ?_).types
    exact hparts.2.2 t hm t (List.mem_flatMap.mpr ⟨j, hrest, ht⟩) rfl

theorem keepsTypes_removeObsolete {obsolete : List Nat} {v : Visited} (h : i.Hinted o)
    (hn : o.NoConstants) (hv : removeObsolete obsolete i o = .ok v) : KeepsTypes i o v := by
  have ho : v.operands = o := by
    unfold removeObsolete at hv
    split at hv
    · cases hv
      rfl
    · split at hv
      · cases hv
        rfl
      · obtain ⟨b, -, hv⟩ := bind_ok.mp hv
        cases hv
        rfl
    · cases hv
      rfl
  refine ⟨keeps_removeObsolete h hn hv, ?_, ?_⟩
  · rw [ho]
    exact typed_of_hinted h fun _ _ => rfl
  · rw [ho]
    exact ⟨fun _ => id, fun _ => id⟩

section Sound

variable {oc : OptimizingCompiler}

theorem consults_typed (h : oc.Hinted) (hd : (dests oc.compiler.instructions).Nodup) {p : Pass}
    {o : Operands} (hc : oc.Consults o p) :
    ∀ i ∈ oc.compiler.instructions, i.Typed oc.compiler.operands o := by
  cases p with
  | constantFolding =>
    obtain ⟨i, hm⟩ := hc
    exact meets_typed keepsTypes_constantFolding hm hd h.hinted h.noConstants
  | typeSpecialization =>
    obtain ⟨i, hm⟩ := hc
    refine meets_typed (fun {_ i o v} h hn hv => ?_) hm hd h.hinted h.noConstants
    cases hv
    exact keepsTypes_typeSpecialization h hn
  | removeObsolete =>
    obtain ⟨i, hm⟩ := hc
    exact meets_typed keepsTypes_removeObsolete hm hd h.hinted h.noConstants
  | _ => exact absurd hc id

/-- What stands in the place of an instruction after the specialisation does the same. -/
theorem typeSpecialization_actsAs {o o' : Operands} (h : Sharpens o o') (i : Instruction) :
    (typeSpecialization i o).instruction = i ∨
      ActsAs (fun temps => ∀ t v, temps t = some v → (o'.temp t).typeHint.Admits v) i
        (typeSpecialization i o).instruction := by
  unfold typeSpecialization
  split
  · next op dest src1 src2 =>
    dsimp only
    split
    · exact .inl rfl
    · next hne =>
      refine .inr ?_
      rcases specialize_cases op (o.temp src1).toOperand (o.temp src2).toOperand with
        he | ⟨rfl, he, h₁, h₂⟩ | ⟨rfl, he, ht⟩
      · exact absurd he hne
      · rw [he]
        exact actsAs_add (h.int src1 h₁) (h.int src2 h₂)
      · rw [he]
        refine actsAs_eq (ht.imp (fun ht => ?_) fun ht => ?_)
        · exact ⟨h.int src1 ht.1, h.int src2 ht.2⟩
        · exact ⟨h.bool src1 ht.1, h.bool src2 ht.2⟩
  · exact .inl rfl

/-- The step lemma, with the constants. -/
theorem agrees_exec {o : Operands} {f : Activation} {w : World} {es : List Event}
    {s' : Activation × World} (hi : f.code[f.ip]? = some i) (hinted : i.Hinted o)
    (hcopy : CopyFits o (f, w))
    (hinv : ∀ t v, f.temps t = some v → Agrees (o.temp t).toOperand v)
    (h : f.exec i w = .ok (.step es s')) :
    ∀ t v, s'.1.temps t = some v → Agrees (o.temp t).toOperand v := by
  intro t v hv
  have hfits : Fits o f := fun t v hv => (hinv t v hv).1
  refine ⟨fits_exec hfits hcopy hi hinted.typed h t v hv, fun hc c hs => ?_⟩
  rcases exec_writes h hv with hold | ⟨ht, hw⟩
  · exact (hinv t v hold).2 hc c hs
  · rw [hinted.const t ht hc c hs] at hw
    exact hw

theorem retypes_mimics (h : oc.Hinted) (hd : (dests oc.compiler.instructions).Nodup) {p : Pass}
    {code : List Instruction} (hc : oc.Retypes code p)
    (env : Request × World → Value × World → Prop) (fr : Frame) (w : World) (retVal : Value) :
    Mimics (Activation.move.observe effects id) (Activation.move.observe effects id) env
      (CopyFits oc.compiler.operands) raised
      (Activation.of fr oc.compiler (fun _ => none) retVal, w)
      (Activation.of fr { oc.compiler with instructions := code } (fun _ => none) retVal, w) := by
  cases p with
  | typeSpecialization =>
    obtain ⟨oc', hr, rfl⟩ := hc
    obtain ⟨obsolete, hl, -⟩ := optimize_ok hr
    obtain ⟨htyped, -, hpoint⟩ := loop_typed (fun {_ i o v} h hn hv => by
      cases hv
      have hk := keepsTypes_typeSpecialization h hn
      exact ⟨hk.toKeepsHints, hk.typed, hk.sharpens⟩) hl hd h.hinted h.noConstants
    refine (@retyped_lockstep oc.compiler.instructions oc'.compiler.instructions
      (fun temps => ∀ t v, temps t = some v → (oc'.compiler.operands.temp t).typeHint.Admits v) _
      ⟨hpoint.length, fun {p i} hi => ?_⟩ fun {f w i es s'} hf hi hok hinv hexec => ?_).mimics
      ⟨rfl, rfl, rfl, nofun⟩
    · obtain ⟨i', hi', _, o₁, v, hv, rfl, hsharp⟩ := hpoint.related hi
      cases hv
      exact ⟨_, hi', typeSpecialization_actsAs hsharp i⟩
    · have hmem : i ∈ oc.compiler.instructions := List.mem_of_getElem? (hf ▸ hi)
      exact fits_exec hinv hok hi (htyped i hmem) hexec
  | removeObsolete =>
    refine (@retyped_lockstep oc.compiler.instructions code
      (fun temps => ∀ t v, temps t = some v → Agrees (oc.compiler.operands.temp t).toOperand v) _
      ⟨hc.length, fun {p i} hi => ?_⟩ fun {f w i es s'} hf hi hok hinv hexec => ?_).mimics
      ⟨rfl, rfl, rfl, nofun⟩
    · obtain ⟨i', hi', hR⟩ := hc.related hi
      refine ⟨i', hi', hR.imp_right ?_⟩
      rintro ⟨rfl, a, arg, rfl, hpasses⟩
      exact actsAs_assert hpasses
    · have hmem : i ∈ oc.compiler.instructions := List.mem_of_getElem? (hf ▸ hi)
      exact agrees_exec hi (h.hinted i hmem) hok hinv hexec
  | _ => exact absurd hc id

theorem typesSound_of_hinted (h : oc.Hinted) (hd : (dests oc.compiler.instructions).Nodup)
    (p : Pass) : TypesSound oc p (CopyFits oc.compiler.operands) :=
  ⟨fun _ hc _ _ _ _ _ _ _ hr => fits_run (consults_typed h hd hc) hr rfl nofun,
    fun _ hc => retypes_mimics h hd hc⟩

end Sound

end RetypingLemmas

end Beaverc.Ir

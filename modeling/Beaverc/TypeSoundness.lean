import Beaverc.Records
import Beaverc.Retyping

/-!
# The types of the temps of compiled code

The code that is compiled from bytecode has the hints that the passes rely on, so
where each copied word is of the type hinted the types are sound at every stage of
the optimiser. A variable that is stored on one path only is where they are not.
-/

namespace Beaverc.Ir
open Process Results SingleUseLemmas DefinedTempsLemmas ConstantHintsLemmas OptimizerErrorsLemmas
  LoopsLemmas ChangesLemmas DeadVariablesLemmas TranslationLemmas
  TypeHintsLemmas TypedTempsLemmas RetypingLemmas

namespace TypeSoundnessLemmas

theorem construct_temp (o : Operands) (i : Instruction) {t : Nat} (ht : t ∉ i.dests) :
    (i.construct o).temp t = o.temp t := by
  have hone {o : Operands} {n : Nat} {f : Temp → Temp} (h : t ≠ n) :
      (o.modifyTemp n f).temp t = o.temp t := (temp_modifyTemp ..).trans (if_neg h)
  cases i with
  | assign dest _ | binOp _ dest _ _ | unOp _ dest _ =>
    exact hone fun he => ht (List.mem_singleton.mpr he)
  | store dest src => rw [show ((Instruction.store dest src).construct o).temp = o.temp from
      temp_target src dest o]
  | fork src dest1 dest2 =>
    refine (hone (n := dest2) ?_).trans (hone (n := dest1) ?_)
    · rintro rfl
      exact ht (by simp [Instruction.dests])
    · rintro rfl
      exact ht (by simp [Instruction.dests])
  | _ => rfl

/-- New instructions on new temps. -/
theorem foldl_construct {code : List Instruction} {o : Operands} (hd : (dests code).Nodup)
    (hu : ∀ t ∈ dests code, Unhinted (o.temp t).toOperand) (hn : o.NoConstants)
    (hf : ∀ src dest1 dest2, .fork src dest1 dest2 ∈ code →
      Unhinted (o.temp src).toOperand ∧ src ∉ dests code) :
    (∀ i ∈ code, i.Hinted (code.foldl Instruction.construct o)) ∧
      (code.foldl Instruction.construct o).NoConstants ∧
      ∀ t ∉ dests code, (code.foldl Instruction.construct o).temp t = o.temp t := by
  induction code generalizing o with
  | nil => exact ⟨nofun, hn, fun _ _ => rfl⟩
  | cons i rest ih =>
    have hi : i.Hinted (i.construct o) := hinted_construct hn
      (fun t ht => hu t (List.mem_flatMap.mpr ⟨i, List.mem_cons_self, ht⟩))
      fun src dest1 dest2 he => (hf src dest1 dest2 (he ▸ List.mem_cons_self)).1
    have hnew : ∀ t ∈ dests rest, Unhinted ((i.construct o).temp t).toOperand := by
      intro t ht
      rw [construct_temp o i fun hi => not_mem_dests hd hi ht]
      refine hu t ?_
      rw [dests, List.flatMap_cons]
      exact List.mem_append_right _ ht
    have hforks : ∀ src dest1 dest2, .fork src dest1 dest2 ∈ rest →
        Unhinted ((i.construct o).temp src).toOperand ∧ src ∉ dests rest := by
      intro src dest1 dest2 hm
      obtain ⟨hsrc, hnot⟩ := hf src dest1 dest2 (List.mem_cons_of_mem i hm)
      rw [dests, List.flatMap_cons, List.mem_append, not_or] at hnot
      rw [construct_temp o i hnot.1]
      exact ⟨hsrc, hnot.2⟩
    obtain ⟨hrest, hn', hframe⟩ := ih (nodup_dests_tail hd) hnew (noConstants_construct hn i) hforks
    refine ⟨fun j hj => ?_, hn', fun t ht => ?_⟩
    · rcases List.mem_cons.mp hj with rfl | hj
      · refine hinted_kept hi fun t ht => ?_
        rw [List.foldl_cons, hframe t (not_mem_dests hd ht)]
        exact kept_refl _
      · exact hrest j hj
    · rw [dests, List.flatMap_cons, List.mem_append, not_or] at ht
      rw [List.foldl_cons, hframe t ht.2, construct_temp o i ht.1]

/-- A fork is what a `Dup` is translated to. -/
theorem translate_fork {f : Function} {i : Beaverc.Instruction} {stack : List Nat} {n : Nat}
    {e : Emission} (he : translate f i stack n = some e) {src dest1 dest2 : Nat}
    (hm : .fork src dest1 dest2 ∈ e.code) : i = .dup := by
  cases translate_cases he with
  | dup => rfl
  | _ => simp at hm

/-- The temps of records under construction satisfy `P`. -/
def Marked (P : Nat → Prop) (stack : List Nat) (ms : List Bool) : Prop :=
  List.Forall₂ (fun t m => m = true → P t) stack ms

/-- What is duplicated is a record under construction. -/
theorem marked_dup {P : Nat → Prop} {f : Function} {stack : List Nat} {n : Nat} {e : Emission}
    {ms ms' : List Bool} (he : translate f .dup stack n = some e)
    (hi : Beaverc.Instruction.dup.marks ms = some ms') (h : Marked P stack ms) :
    ∃ src rest, stack = src :: rest ∧ P src ∧ e.code = [.fork src n (n + 1)] := by
  obtain _ | @⟨src, m, rest, ms, hsrc, _⟩ := h
  · cases he
  · cases he
    cases m with
    | false => cases hi
    | true => exact ⟨src, rest, rfl, hsrc rfl, rfl⟩

theorem marked_mono {P Q : Nat → Prop} {stack : List Nat} {ms : List Bool}
    (h : Marked P stack ms) (hPQ : ∀ t ∈ stack, P t → Q t) : Marked Q stack ms := by
  induction h with
  | nil => exact .nil
  | cons ht _ ih =>
    exact .cons (fun hm => hPQ _ List.mem_cons_self (ht hm))
      (ih fun t ht => hPQ t (List.mem_cons_of_mem _ ht))

theorem marked_drop {P : Nat → Prop} {stack : List Nat} {ms : List Bool} (h : Marked P stack ms)
    (k : Nat) : Marked P (stack.drop k) (ms.drop k) :=
  List.forall₂_drop k h

/-- The stack of temps after a translation, where it ends in a part of the one before. -/
theorem marked_pushed {P : Nat → Prop} {stack : List Nat} {ms : List Bool} {n : Nat}
    (h : Marked P stack ms) (k : Nat) : Marked P (n :: stack.drop k) (false :: ms.drop k) :=
  .cons nofun (marked_drop h k)

theorem translate_marked {P : Nat → Prop} {f : Function} {i : Beaverc.Instruction}
    {stack : List Nat} {n : Nat} {e : Emission} {ms ms' : List Bool}
    (he : translate f i stack n = some e) (hi : i.marks ms = some ms') (h : Marked P stack ms)
    (hrecord : i = .allocRecord → P n) (hdup : i = .dup → P n ∧ P (n + 1)) :
    Marked P e.stack ms' := by
  cases translate_cases he with
  | loadConst | loadFunc | loadLocal | loadGlobal | pushReference | loadReference =>
    cases hi
    exact marked_pushed h 0
  | allocRecord =>
    cases hi
    exact .cons (fun _ => hrecord rfl) h
  | garbageCollect | label | goto | throwUninitialized =>
    cases hi
    exact h
  | dup =>
    obtain _ | @⟨t, m, rest, ms, ht, h⟩ := h
    cases m with
    | false => cases hi
    | true =>
      cases hi
      exact .cons (fun _ => (hdup rfl).2) (.cons (fun _ => (hdup rfl).1) h)
  | swap =>
    obtain _ | ⟨ha, _ | ⟨hb, h⟩⟩ := h
    cases hi
    exact .cons hb (.cons ha h)
  | storeLocal | storeGlobal | storeReference | pop | ret | ifTrue =>
    obtain _ | ⟨ha, h⟩ := h
    cases hi
    exact h
  | fieldLoad | neg | not =>
    obtain _ | ⟨ha, h⟩ := h
    cases hi
    exact marked_pushed h 0
  | fieldStore =>
    obtain _ | ⟨ha, _ | ⟨hb, h⟩⟩ := h
    cases hi
    exact h
  | indexLoad | sub | mul | div | gt | geq | and | or | add | eq =>
    obtain _ | ⟨ha, _ | ⟨hb, h⟩⟩ := h
    cases hi
    exact marked_pushed h 0
  | indexStore =>
    obtain _ | ⟨ha, _ | ⟨hb, _ | ⟨hc, h⟩⟩⟩ := h
    cases hi
    exact h
  | @allocClosure k | @call k =>
    obtain _ | ⟨ha, h⟩ := h
    obtain ⟨-, hi⟩ := Option.ite_none_right_eq_some.mp hi
    cases hi
    exact marked_pushed h k

/-- The hints while the code of a function is compiled. -/
structure Building (c : Compiler) (ms : List Bool) : Prop where
  nodup : c.stack.Nodup
  fresh : ∀ t ∈ c.stack, t < c.temps
  unhinted : ∀ t, c.temps ≤ t → Unhinted (c.operands.temp t).toOperand
  dests : ∀ t ∈ dests c.instructions, t < c.temps
  hinted : ∀ i ∈ c.instructions, i.Hinted c.operands
  noConstants : c.operands.NoConstants
  records : Marked (fun t => Unhinted (c.operands.temp t).toOperand) c.stack ms

/-- A local is hinted as the source of the temp that it is loaded into. -/
theorem kept_hintLoaded (i : Beaverc.Instruction) (n : Nat) (o : Operands) (t : Nat) :
    (o.temp t).toOperand.Kept ((hintLoaded i n o).temp t).toOperand := by
  cases i with
  | loadLocal k =>
    show Operand.Kept _ ((o.modifyTemp n _).temp t).toOperand
    rw [temp_modifyTemp]
    split
    · next he =>
      subst he
      exact ⟨rfl, fun _ c hv => by cases hv⟩
    · exact kept_refl _
  | _ => exact kept_refl _

theorem hintLoaded_temp {i : Beaverc.Instruction} {n t : Nat} (o : Operands)
    (h : t = n → ∀ k, i ≠ .loadLocal k) : (hintLoaded i n o).temp t = o.temp t := by
  cases i with
  | loadLocal k =>
    show (o.modifyTemp n _).temp t = _
    rw [temp_modifyTemp, if_neg fun he => h he k rfl]
  | _ => rfl

/-- The step lemma. -/
theorem hints_step {c c' : Compiler} {i : Beaverc.Instruction} {ms ms' : List Bool}
    (h : Building c ms) (hi : i.marks ms = some ms') (hstep : c.step i = some c') :
    Building c' ms' := by
  have hconst := noConstants_step hstep h.noConstants
  unfold Compiler.step at hstep
  obtain ⟨e, he, hc⟩ := Option.bind_eq_some_iff.mp hstep
  cases hc
  have hlin := translate_linear he h.fresh h.nodup
  have hnew : ∀ t ∈ Ir.dests e.code, c.temps ≤ t ∧ t < e.temps := by
    intro t ht
    rw [hlin.writes, List.mem_range'_1, Nat.add_sub_cancel' hlin.le] at ht
    exact ht
  have hold : ∀ t, t < c.temps → t ∉ Ir.dests e.code := fun t ht hm =>
    absurd (hnew t hm).1 (Nat.not_le_of_lt ht)
  obtain ⟨hcode, -, hframe⟩ := @foldl_construct e.code c.operands
    (hlin.writes ▸ List.nodup_range') (fun t ht => h.unhinted t (hnew t ht).1) h.noConstants
    (fun src dest1 dest2 hm => by
      obtain rfl := translate_fork he hm
      obtain ⟨src', rest, hstack, hsrc, hcode⟩ := marked_dup he hi h.records
      rw [hcode] at hm
      cases List.mem_singleton.mp hm
      exact ⟨hsrc, hold src (h.fresh src (hstack ▸ List.mem_cons_self))⟩)
  refine ⟨(List.nodup_append.mp hlin.nodup).2.1, fun t ht => ?_, fun t ht => ?_, fun t ht => ?_,
    fun j hj => ?_, hconst, ?_⟩
  · rcases hlin.left t ht with hleft | hleft
    · exact Nat.lt_of_lt_of_le (h.fresh t hleft) hlin.le
    · exact hleft.2
  · have hnot : t ∉ Ir.dests e.code := fun hm => absurd (hnew t hm).2 (Nat.not_lt_of_le ht)
    have hlate : t = c.temps → ∀ k, i ≠ .loadLocal k := by
      rintro rfl k rfl
      cases he
      exact absurd ht (Nat.not_succ_le_self _)
    show Unhinted ((hintLoaded i c.temps _).temp t).toOperand
    rw [hintLoaded_temp _ hlate, hframe t hnot]
    exact h.unhinted t (Nat.le_trans hlin.le ht)
  · rw [dests_append] at ht
    rcases List.mem_append.mp ht with ht | ht
    · exact Nat.lt_of_lt_of_le (h.dests t ht) hlin.le
    · exact (hnew t ht).2
  · rcases List.mem_append.mp hj with hj | hj
    · refine hinted_kept (h.hinted j hj) fun t ht => ?_
      have hlt := h.dests t (List.mem_flatMap.mpr ⟨j, hj, ht⟩)
      rw [← hframe t (hold t hlt)]
      exact kept_hintLoaded i c.temps _ t
    · exact hinted_kept (hcode j hj) fun t _ => kept_hintLoaded i c.temps _ t
  · -- the temps of records: those on the stack keep their hints, new ones have none
    have hkeep : ∀ t ∈ c.stack, Unhinted (c.operands.temp t).toOperand →
        Unhinted ((hintLoaded i c.temps (e.code.foldl Instruction.construct c.operands)).temp
          t).toOperand := by
      intro t ht hu
      have hlt := h.fresh t ht
      rw [hintLoaded_temp _ fun heq => absurd heq (Nat.ne_of_lt hlt), hframe t (hold t hlt)]
      exact hu
    refine translate_marked he hi (marked_mono h.records hkeep) (fun hrecord => ?_) fun hdup => ?_
    · subst hrecord
      cases he
      show Unhinted ((c.operands.modifyTemp c.temps _).temp c.temps).toOperand
      rw [modifyTemp_self]
      rfl
    · subst hdup
      obtain ⟨src, rest, -, hsrc, hcode⟩ := marked_dup he hi h.records
      have hall := unhinted_fork c.temps (c.temps + 1) hsrc
      rw [hcode]
      exact ⟨hall c.temps List.mem_cons_self, hall (c.temps + 1) (by simp)⟩

theorem building_foldlM {code : List Beaverc.Instruction} {c c' : Compiler} {ms ms' : List Bool}
    (h : Building c ms) (hm : marks ms code = some ms')
    (hr : code.foldlM Compiler.step c = some c') : Building c' ms' := by
  induction code generalizing c ms with
  | nil =>
    cases hm
    cases hr
    exact h
  | cons i rest ih =>
    obtain ⟨ms₁, h₁, hm⟩ := Option.bind_eq_some_iff.mp hm
    rw [List.foldlM_cons] at hr
    obtain ⟨c₁, hc₁, hr⟩ := Option.bind_eq_some_iff.mp hr
    exact ih (hints_step h h₁ hc₁) hm hr

/-- The compiled code is hinted. -/
theorem hinted_compile {prog : Program} {f : Function}
    (hf : SubFunction (Beaverc.compile prog) f) {shared : Operands} (hs : shared.NoConstants)
    {c : Compiler} (hc : Compiler.compile shared f = some c) :
    (⟨c, []⟩ : OptimizingCompiler).Hinted := by
  have hstart : Building (Compiler.new shared f) [] :=
    ⟨List.nodup_nil, nofun, fun _ _ => rfl, nofun, nofun, ⟨fun _ => rfl, hs.deref, hs.glob⟩, .nil⟩
  have hend := building_foldlM hstart (compile_marks prog hf) hc
  exact ⟨hend.hinted, hend.noConstants⟩

/-! ### Copied words -/

/-- A copy takes place. -/
theorem copied_step {s : Activation × World} {dest : Nat} {src : Source} {v : Value}
    (hi : s.1.code[s.1.ip]? = some (.assign dest src)) (hv : s.1.copied s.2 src = .ok v) :
    ∃ es s', Activation.move s = .ok (.step es s') ∧ s'.1.temps dest = some v := by
  rw [move_of hi]
  have hself (f : Activation) : (f.setTemp dest v).temps dest = some v := Function.update_self ..
  cases src with
  | var n =>
    refine ⟨[], (s.1.advance.setTemp dest v, s.2), ?_, hself _⟩
    rw [Activation.exec, show rawIndex s.1.locals n = .ok v from hv]
    rfl
  | deref n =>
    rw [Activation.copied] at hv
    obtain ⟨r, hr, hv⟩ := bind_ok.mp hv
    obtain ⟨⟨x, w⟩, hx, hv⟩ := bind_ok.mp hv
    cases hv
    refine ⟨[.act (.loadReference r)], (s.1.advance.setTemp dest v, w), ?_, hself _⟩
    rw [Activation.exec, hr, ok_bind, Activation.load, hx]
    rfl
  | glob n =>
    rw [Activation.copied] at hv
    obtain ⟨name, hr, hv⟩ := bind_ok.mp hv
    obtain ⟨⟨x, w⟩, hx, hv⟩ := bind_ok.mp hv
    cases hv
    refine ⟨[.act (.loadGlobal name)], (s.1.advance.setTemp dest v, w), ?_, hself _⟩
    rw [Activation.exec, hr, ok_bind, Activation.load, hx]
    rfl
  | const _ | retVal | ref _ | function _ => cases hv

/-- All temps fit in all states of all runs just if all copied words do. -/
theorem copyFits_iff {oc : OptimizingCompiler} (h : oc.Hinted)
    (env : Request × World → Value × World → Prop) (fr : Frame) (w : World) (retVal : Value) :
    (∀ n t s, Run Activation.move env (fun _ => True) n
        (Activation.of fr oc.compiler (fun _ => none) retVal, w) t s →
        CopyFits oc.compiler.operands s) ↔
      ∀ n t s, Run Activation.move env (fun _ => True) n
        (Activation.of fr oc.compiler (fun _ => none) retVal, w) t s →
        ∀ x v, s.1.temps x = some v → (oc.compiler.operands.temp x).typeHint.Admits v := by
  constructor
  · intro hall n t s hr
    have hok := hr.restrict fun n u s' hr' _ => hall n u s' hr'
    exact fits_run (fun i hi => (h.hinted i hi).typed) hok rfl nofun
  · intro hall n t s hr dest src v hi hv
    obtain ⟨es, s', hstep, htemp⟩ := copied_step hi hv
    exact hall _ _ s' (hr.trans (.step trivial hstep (.refl s'))) dest v htemp

end TypeSoundnessLemmas

open TypeSoundnessLemmas

/-- Wherever compilation of a function of a compiled program stands, whatever was
compiled before: in a run of the code through states in which each copied word is
of the type hinted, whatever the next pass takes for an integer or a boolean is one,
and the code runs alike without the checks of types that the pass does without. In all
runs everything is of the type hinted just if each copied word is. -/
theorem types_sound_where_copies_fit (prog : Program) {f : Function}
    (hf : SubFunction (Beaverc.compile prog) f) {shared : Operands} (hs : Shared shared) {n : Nat}
    {oc : OptimizingCompiler} (h : Stands shared f n oc) (p : Pass) :
    TypesSound oc p (CopyFits oc.compiler.operands) ∧
      ∀ (env : Request × World → Value × World → Prop) (fr : Frame) (w : World) (retVal : Value),
        (∀ n t s, Run Activation.move env (fun _ => True) n
            (Activation.of fr oc.compiler (fun _ => none) retVal, w) t s →
            CopyFits oc.compiler.operands s) ↔
          ∀ n t s, Run Activation.move env (fun _ => True) n
            (Activation.of fr oc.compiler (fun _ => none) retVal, w) t s →
            ∀ x v, s.1.temps x = some v → (oc.compiler.operands.temp x).typeHint.Admits v := by
  have hw := compile_wellEmitted prog hf
  obtain ⟨c, hc, -⟩ := id h
  have hinted := stands_hinted hw hc (hinted_compile hf (shared_noConstants hs) hc) h
  have hd := (stands_keeps hw (Nat.le_refl n) h h).1.writes
  exact ⟨typesSound_of_hinted hinted hd p, copyFits_iff hinted⟩

/-! ## A variable that is stored on one path -/

/-- `f = fun(c) { if (c) { y = 1; } return y + 1; };` -/
def onePath : Program :=
  .cons (.assignment (.name "f") (.function ["c"]
    (.cons (.ifStatement (.lhs (.name "c"))
      (.cons (.assignment (.name "y") (.intConst 1)) .nil) .nil)
    (.cons (.ret (.binaryOp .plus (.lhs (.name "y")) (.intConst 1))) .nil)))) .nil

/-- The function in it. -/
def onePathFunction : Function :=
  (Beaverc.compile onePath).functions.headD {}

/-- A call with the argument `false`. -/
def onePathFrame : Frame :=
  ⟨0, onePathFunction, [], [.boolean false, .none], [], 0⟩

namespace TypeSoundnessLemmas

theorem onePath_subFunction : SubFunction (Beaverc.compile onePath) onePathFunction := by
  refine .step (.refl _) ?_
  have hfs : (Beaverc.compile onePath).functions = [onePathFunction] := rfl
  rw [hfs]
  exact List.mem_singleton.mpr rfl

def emptyWorld : World :=
  ⟨CollectedHeap.empty (.x64 false false), 0, [], [], []⟩

/-- The first instruction of the code in front of the specialisation, what temp 2
holds after eight moves of the call, and whether it is taken for an integer. -/
def onePathRun : Option (Option Instruction × Option Value × Bool) := do
  let c ← Compiler.compile .fresh onePathFunction
  let oc ← ((allPasses.take 3).foldlM OptimizingCompiler.run ⟨c, []⟩).toOption
  let (_, s) ← follow Activation.move (fun r => (.none, r.2)) 8
    (Activation.of onePathFrame oc.compiler (fun _ => none) .none, emptyWorld)
  return (oc.compiler.instructions.head?, s.1.temps 2, (oc.compiler.operands.temp 2).typeHint.isInt)

theorem onePath_run : onePathRun = some (some (.forceLoad 0), some .none, true) := by
  decide +kernel

/-- Compilation stands in front of the specialisation, and temp 2 is mistyped. -/
theorem onePath_stands : ∃ oc, Stands .fresh onePathFunction 3 oc ∧
    (∃ rest, oc.compiler.instructions = .forceLoad 0 :: rest) ∧
    (oc.compiler.operands.temp 2).typeHint.isInt = true ∧
    ∃ t s, Run Activation.move (fun r a => a = (.none, r.2)) (fun _ => True) 8
      (Activation.of onePathFrame oc.compiler (fun _ => none) .none, emptyWorld) t s ∧
      s.1.temps 2 = some .none := by
  have hrun := onePath_run
  unfold onePathRun at hrun
  obtain ⟨c, hc, h⟩ := Option.bind_eq_some_iff.mp hrun
  obtain ⟨oc, hoc, h⟩ := Option.bind_eq_some_iff.mp h
  obtain ⟨⟨t, s⟩, hfollow, h⟩ := Option.bind_eq_some_iff.mp h
  obtain ⟨hhead, h⟩ := Prod.mk.inj (Option.some.inj h)
  obtain ⟨htemp, hint⟩ := Prod.mk.inj h
  refine ⟨oc, ⟨c, hc, toOption_eq_some hoc⟩, ?_, hint, t, s, follow_run hfollow, htemp⟩
  generalize oc.compiler.instructions = code at hhead
  obtain _ | ⟨i, rest⟩ := code
  · cases hhead
  · cases hhead
    exact ⟨rest, rfl⟩

end TypeSoundnessLemmas

/-- In front of the specialisation the sum in `onePathFunction` is one of integers, by
the hints. -/
theorem types_sound_onePath : ∃ oc, Stands .fresh onePathFunction 3 oc ∧
    allPasses[3]? = some .typeSpecialization ∧
    TypesSound oc .typeSpecialization (CopyFits oc.compiler.operands) := by
  obtain ⟨oc, hstands, -⟩ := onePath_stands
  exact ⟨oc, hstands, rfl,
    (types_sound_where_copies_fit onePath onePath_subFunction .fresh hstands .typeSpecialization).1⟩

/-- In the call with `false` the variable is `None`. -/
theorem types_not_sound : ∃ oc, SubFunction (Beaverc.compile onePath) onePathFunction ∧
    Stands .fresh onePathFunction 3 oc ∧ allPasses[3]? = some .typeSpecialization ∧
    ¬ TypesSound oc .typeSpecialization fun _ => True := by
  obtain ⟨oc, hstands, ⟨rest, hcode⟩, hint, t, s, hrun, htemp⟩ := onePath_stands
  refine ⟨oc, onePath_subFunction, hstands, rfl, fun hsound => ?_⟩
  have hconsults : oc.Consults oc.compiler.operands .typeSpecialization := by
    refine ⟨.forceLoad 0, ?_⟩
    rw [hcode]
    exact .here
  obtain ⟨i, hnone⟩ := (hsound.holds _ hconsults _ _ _ _ _ _ _ hrun 2 .none htemp).int hint
  cases hnone

end Beaverc.Ir

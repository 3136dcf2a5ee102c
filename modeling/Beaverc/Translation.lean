import Beaverc.Labels
import Beaverc.IrMachine
import Beaverc.Steps

/-!
# From stack code to temps

`IR::Compiler::compile` keeps a stack of temps beside the code it emits. For a
function of a compiled program that stack never runs empty, and running the
emitted code follows `run_function`: the temps on the compiler's stack hold the
values on the operand stack.

The two part in one place. `run_function` evaluates `And` and `Or` with the C++
operators `&&` and `||`, which do not look at the right operand when the left
one decides; the emitted code checks both operands.
-/

namespace Beaverc.Ir
open Process Results StepsLemmas

/-! ## One instruction -/

/-- What `translate` can do: the operands that are on the stack, what is emitted for them,
and the stack then. -/
inductive Emits (f : Function) (n : Nat) : Beaverc.Instruction → List Nat → Emission → Prop
  | loadConst {k : Nat} {c : Constant} (stack : List Nat) : f.constants[k]? = some c →
      Emits f n (.loadConst k) stack
        ⟨[.assign n (.const (constantToValue c))], n :: stack, n + 1⟩
  | loadFunc (k : Int) (stack : List Nat) :
      Emits f n (.loadFunc k) stack ⟨[.assign n (.function k)], n :: stack, n + 1⟩
  | loadLocal (k : Nat) (stack : List Nat) :
      Emits f n (.loadLocal k) stack ⟨[.assign n (.var k)], n :: stack, n + 1⟩
  | loadGlobal (k : Nat) (stack : List Nat) :
      Emits f n (.loadGlobal k) stack ⟨[.assign n (.glob k)], n :: stack, n + 1⟩
  | pushReference (k : Nat) (stack : List Nat) :
      Emits f n (.pushReference k) stack ⟨[.assign n (.ref k)], n :: stack, n + 1⟩
  | loadReference (k : Nat) (stack : List Nat) :
      Emits f n (.loadReference k) stack ⟨[.assign n (.deref k)], n :: stack, n + 1⟩
  | storeLocal (k a : Nat) (rest : List Nat) :
      Emits f n (.storeLocal k) (a :: rest) ⟨[.store (.var k) a], rest, n⟩
  | storeGlobal (k a : Nat) (rest : List Nat) :
      Emits f n (.storeGlobal k) (a :: rest) ⟨[.store (.glob k) a], rest, n⟩
  | storeReference (k a : Nat) (rest : List Nat) :
      Emits f n (.storeReference k) (a :: rest) ⟨[.store (.deref k) a], rest, n⟩
  | allocRecord (stack : List Nat) : Emits f n .allocRecord stack
      ⟨[.callHelper .allocRecord [], .assign n .retVal], n :: stack, n + 1⟩
  | fieldLoad (k a : Nat) (rest : List Nat) : Emits f n (.fieldLoad k) (a :: rest)
      ⟨[.callHelper (.fieldLoad k) [a], .assign n .retVal], n :: rest, n + 1⟩
  | fieldStore (k a b : Nat) (rest : List Nat) : Emits f n (.fieldStore k) (a :: b :: rest)
      ⟨[.callHelper (.fieldStore k) [b, a]], rest, n⟩
  | indexLoad (a b : Nat) (rest : List Nat) : Emits f n .indexLoad (a :: b :: rest)
      ⟨[.callHelper .indexLoad [b, a], .assign n .retVal], n :: rest, n + 1⟩
  | indexStore (a b c : Nat) (rest : List Nat) : Emits f n .indexStore (a :: b :: c :: rest)
      ⟨[.callHelper .indexStore [c, b, a]], rest, n⟩
  | allocClosure {k : Nat} (a : Nat) {rest : List Nat} : k ≤ rest.length →
      Emits f n (.allocClosure k) (a :: rest)
        ⟨[.allocClosure a (rest.take k), .assign n .retVal], n :: rest.drop k, n + 1⟩
  | call {k : Nat} (a : Nat) {rest : List Nat} : k ≤ rest.length →
      Emits f n (.call k) (a :: rest)
        ⟨[.call a (rest.take k).reverse, .assign n .retVal], n :: rest.drop k, n + 1⟩
  | ret (a : Nat) (rest : List Nat) : Emits f n .ret (a :: rest) ⟨[.ret a], rest, n⟩
  | add (a b : Nat) (rest : List Nat) : Emits f n .add (a :: b :: rest)
      ⟨[.binOp .add n b a], n :: rest, n + 1⟩
  | eq (a b : Nat) (rest : List Nat) : Emits f n .eq (a :: b :: rest)
      ⟨[.binOp .eq n b a], n :: rest, n + 1⟩
  | div (a b : Nat) (rest : List Nat) : Emits f n .div (a :: b :: rest)
      ⟨[.callAssert .int a, .callAssert .int b, .callAssert .notZero a, .binOp .div n b a],
        n :: rest, n + 1⟩
  | sub (a b : Nat) (rest : List Nat) : Emits f n .sub (a :: b :: rest)
      ⟨[.callAssert .int a, .callAssert .int b, .binOp .sub n a b], n :: rest, n + 1⟩
  | mul (a b : Nat) (rest : List Nat) : Emits f n .mul (a :: b :: rest)
      ⟨[.callAssert .int a, .callAssert .int b, .binOp .mul n a b], n :: rest, n + 1⟩
  | gt (a b : Nat) (rest : List Nat) : Emits f n .gt (a :: b :: rest)
      ⟨[.callAssert .int a, .callAssert .int b, .binOp .gt n a b], n :: rest, n + 1⟩
  | geq (a b : Nat) (rest : List Nat) : Emits f n .geq (a :: b :: rest)
      ⟨[.callAssert .int a, .callAssert .int b, .binOp .geq n a b], n :: rest, n + 1⟩
  | and (a b : Nat) (rest : List Nat) : Emits f n .and (a :: b :: rest)
      ⟨[.callAssert .bool a, .callAssert .bool b, .binOp .and n a b], n :: rest, n + 1⟩
  | or (a b : Nat) (rest : List Nat) : Emits f n .or (a :: b :: rest)
      ⟨[.callAssert .bool a, .callAssert .bool b, .binOp .or n a b], n :: rest, n + 1⟩
  | neg (a : Nat) (rest : List Nat) : Emits f n .neg (a :: rest)
      ⟨[.callAssert .int a, .unOp .neg n a], n :: rest, n + 1⟩
  | not (a : Nat) (rest : List Nat) : Emits f n .not (a :: rest)
      ⟨[.callAssert .bool a, .unOp .not n a], n :: rest, n + 1⟩
  | goto (l : Nat) (stack : List Nat) : Emits f n (.goto l) stack ⟨[.jump l], stack, n⟩
  | ifTrue (l a : Nat) (rest : List Nat) : Emits f n (.ifTrue l) (a :: rest)
      ⟨[.callAssert .bool a, .condJump a l], rest, n⟩
  | dup (a : Nat) (rest : List Nat) : Emits f n .dup (a :: rest)
      ⟨[.fork a n (n + 1)], (n + 1) :: n :: rest, n + 2⟩
  | swap (a b : Nat) (rest : List Nat) :
      Emits f n .swap (a :: b :: rest) ⟨[], b :: a :: rest, n⟩
  | pop (a : Nat) (rest : List Nat) : Emits f n .pop (a :: rest) ⟨[], rest, n⟩
  | garbageCollect (stack : List Nat) :
      Emits f n .garbageCollect stack ⟨[.callHelper .garbageCollect []], stack, n⟩
  | label (l : Nat) (stack : List Nat) : Emits f n (.label l) stack ⟨[.outputLabel l], stack, n⟩
  | throwUninitialized (k : Nat) (stack : List Nat) : Emits f n (.throwUninitialized k) stack
      ⟨[.callHelper (.throwUninitialized k) []], stack, n⟩

theorem translate_cases {f : Function} {i : Beaverc.Instruction} {stack : List Nat} {n : Nat}
    {e : Emission} (he : translate f i stack n = some e) : Emits f n i stack e := by
  cases i
  case loadConst k =>
    obtain ⟨c, hk, hc⟩ := Option.bind_eq_some_iff.mp he
    cases hc
    exact .loadConst stack hk
  case loadFunc | loadLocal | loadGlobal | pushReference | loadReference | garbageCollect | label |
      goto | throwUninitialized | allocRecord =>
    cases he
    constructor
  case storeLocal | storeGlobal | storeReference | pop | ret | fieldLoad | dup | neg | not |
      ifTrue =>
    obtain _ | ⟨a, rest⟩ := stack
    · cases he
    · cases he
      constructor
  case swap | fieldStore | indexLoad | add | eq | sub | mul | div | gt | geq | and | or =>
    obtain _ | ⟨a, _ | ⟨b, rest⟩⟩ := stack
    · cases he
    · cases he
    · cases he
      constructor
  case indexStore =>
    obtain _ | ⟨a, _ | ⟨b, _ | ⟨c, rest⟩⟩⟩ := stack
    · cases he
    · cases he
    · cases he
    · cases he
      constructor
  case allocClosure k =>
    obtain _ | ⟨a, rest⟩ := stack
    · cases he
    · obtain ⟨hk, he⟩ := Option.ite_none_right_eq_some.mp he
      cases he
      exact .allocClosure a hk
  case call k =>
    obtain _ | ⟨a, rest⟩ := stack
    · cases he
    · obtain ⟨hk, he⟩ := Option.ite_none_right_eq_some.mp he
      cases he
      exact .call a hk

/-- What an emission for `i` has to do with the operand stack and the labels. -/
structure Emission.Fits (i : Beaverc.Instruction) (d : Nat) (e : Emission) : Prop where
  length : e.stack.length = d
  fresh : ∀ t ∈ e.stack, t < e.temps
  labels : ∀ l, .outputLabel l ∈ e.code ↔ i = .label l

namespace TranslationLemmas

theorem fits_push {i : Beaverc.Instruction} {code : List Instruction} {rest : List Nat}
    {n d : Nat} (hr : ∀ t ∈ rest, t < n) (hc : ∀ l, .outputLabel l ∈ code ↔ i = .label l)
    (hd : rest.length + 1 = d) : Emission.Fits i d ⟨code, n :: rest, n + 1⟩ := by
  refine ⟨hd, fun t ht => ?_, hc⟩
  rcases List.mem_cons.mp ht with rfl | ht
  · exact Nat.lt_succ_self _
  · exact Nat.lt_succ_of_lt (hr t ht)

theorem fits_rest {i : Beaverc.Instruction} {code : List Instruction} {rest : List Nat}
    {n d : Nat} (hr : ∀ t ∈ rest, t < n) (hc : ∀ l, .outputLabel l ∈ code ↔ i = .label l)
    (hd : rest.length = d) : Emission.Fits i d ⟨code, rest, n⟩ :=
  ⟨hd, hr, hc⟩

theorem one_le {l : List Nat} (h : 1 ≤ l.length) : ∃ a r, l = a :: r := by
  match l, h with
  | a :: r, _ => exact ⟨a, r, rfl⟩

theorem two_le {l : List Nat} (h : 2 ≤ l.length) : ∃ a b r, l = a :: b :: r := by
  match l, h with
  | a :: b :: r, _ => exact ⟨a, b, r, rfl⟩

theorem three_le {l : List Nat} (h : 3 ≤ l.length) : ∃ a b c r, l = a :: b :: c :: r := by
  match l, h with
  | a :: b :: c :: r, _ => exact ⟨a, b, c, r, rfl⟩

end TranslationLemmas

open TranslationLemmas

/-- An instruction whose operands are on the stack is translated. -/
theorem translate_fits (f : Function) {i : Beaverc.Instruction} {stack : List Nat} {n d : Nat}
    (hd : i.depth stack.length = some d) (hc : ∀ k, i = .loadConst k → k < f.constants.length)
    (hs : ∀ t ∈ stack, t < n) : ∃ e, translate f i stack n = some e ∧ e.Fits i d := by
  cases i
  all_goals
    simp only [Instruction.depth, Instruction.effect, Option.ite_none_right_eq_some,
      Option.some.injEq, Nat.zero_le, true_and] at hd
  case loadConst k =>
    have hk := hc k rfl
    exact ⟨_, by simp [translate, hk]; rfl, fits_push hs (by simp) (by omega)⟩
  case loadFunc | loadLocal | loadGlobal | pushReference | loadReference | allocRecord =>
    exact ⟨_, rfl, fits_push hs (by simp) (by omega)⟩
  case garbageCollect | label | goto | throwUninitialized =>
    exact ⟨_, rfl, fits_rest hs (by simp [eq_comm]) (by omega)⟩
  case storeLocal | storeGlobal | storeReference | pop | ifTrue | ret =>
    obtain ⟨a, rest, rfl⟩ := one_le (l := stack) (by omega)
    rw [List.length_cons] at hd
    have hr : ∀ t ∈ rest, t < n := fun t ht => hs t (List.mem_cons_of_mem _ ht)
    exact ⟨_, rfl, fits_rest hr (by simp) (by omega)⟩
  case fieldLoad | neg | not =>
    obtain ⟨a, rest, rfl⟩ := one_le (l := stack) (by omega)
    rw [List.length_cons] at hd
    have hr : ∀ t ∈ rest, t < n := fun t ht => hs t (List.mem_cons_of_mem _ ht)
    exact ⟨_, rfl, fits_push hr (by simp) (by omega)⟩
  case dup =>
    obtain ⟨a, rest, rfl⟩ := one_le (l := stack) (by omega)
    rw [List.length_cons] at hd
    refine ⟨_, rfl, ⟨by simp only [List.length_cons]; omega, fun t ht => ?_, by simp⟩⟩
    rcases List.mem_cons.mp ht with rfl | ht
    · exact Nat.lt_succ_self _
    · rcases List.mem_cons.mp ht with rfl | ht
      · exact Nat.lt_succ_of_lt (Nat.lt_succ_self _)
      · have := hs t (List.mem_cons_of_mem _ ht)
        show t < n + 2
        omega
  case fieldStore =>
    obtain ⟨a, b, rest, rfl⟩ := two_le hd.1
    simp only [List.length_cons] at hd
    have hr : ∀ t ∈ rest, t < n := fun t ht => hs t (by simp [ht])
    exact ⟨_, rfl, fits_rest hr (by simp) (by omega)⟩
  case swap =>
    obtain ⟨a, b, rest, rfl⟩ := two_le hd.1
    simp only [List.length_cons] at hd
    have hr : ∀ t ∈ b :: a :: rest, t < n := fun t ht => hs t (by
      simp only [List.mem_cons] at ht ⊢
      rcases ht with h | h | h <;> simp [h])
    exact ⟨_, rfl, fits_rest hr (by simp) (by simp only [List.length_cons]; omega)⟩
  case add | sub | mul | div | gt | geq | eq | and | or | indexLoad =>
    obtain ⟨a, b, rest, rfl⟩ := two_le hd.1
    simp only [List.length_cons] at hd
    have hr : ∀ t ∈ rest, t < n := fun t ht => hs t (by simp [ht])
    exact ⟨_, rfl, fits_push hr (by simp) (by omega)⟩
  case indexStore =>
    obtain ⟨a, b, c, rest, rfl⟩ := three_le hd.1
    simp only [List.length_cons] at hd
    have hr : ∀ t ∈ rest, t < n := fun t ht => hs t (by simp [ht])
    exact ⟨_, rfl, fits_rest hr (by simp) (by omega)⟩
  case allocClosure k =>
    obtain ⟨a, rest, rfl⟩ := one_le (l := stack) (by omega)
    simp only [List.length_cons, Nat.add_le_add_iff_right] at hd
    have hr : ∀ t ∈ rest.drop k, t < n := fun t ht =>
      hs t (List.mem_cons_of_mem _ (List.mem_of_mem_drop ht))
    exact ⟨_, by simp only [translate, if_pos hd.1]; rfl,
      fits_push hr (by simp) (by simp only [List.length_drop]; omega)⟩
  case call k =>
    obtain ⟨a, rest, rfl⟩ := one_le (l := stack) (by omega)
    simp only [List.length_cons, Nat.add_le_add_iff_right] at hd
    have hr : ∀ t ∈ rest.drop k, t < n := fun t ht =>
      hs t (List.mem_cons_of_mem _ (List.mem_of_mem_drop ht))
    exact ⟨_, by simp only [translate, if_pos hd.1]; rfl,
      fits_push hr (by simp) (by simp only [List.length_drop]; omega)⟩

/-! ## The prefixes of the code -/

/-- Every constant the code loads is in the table. -/
def ConstantsInRange (f : Function) : Prop :=
  ∀ k, .loadConst k ∈ f.instructions → k < f.constants.length

/-- The compiler after the first `n` instructions of the code. -/
def Compiler.upto (shared : Operands) (f : Function) (n : Nat) : Option Compiler :=
  (f.instructions.take n).foldlM Compiler.step (Compiler.new shared f)

/-- What a compiler that has read `n` instructions knows. -/
structure Compiler.Tracks (f : Function) (n : Nat) (c : Compiler) : Prop where
  bytecode : c.bytecode = f
  depth : depth 0 (f.instructions.take n) = some c.stack.length
  fresh : ∀ t ∈ c.stack, t < c.temps
  labels : ∀ l, .outputLabel l ∈ c.instructions ↔ .label l ∈ f.instructions.take n

namespace TranslationLemmas

variable {shared : Operands} {f : Function}

theorem upto_succ {n : Nat} {i : Beaverc.Instruction} (hi : f.instructions[n]? = some i) :
    Compiler.upto shared f (n + 1) = (Compiler.upto shared f n).bind fun c => c.step i := by
  unfold Compiler.upto
  rw [List.take_add_one, hi, Option.toList_some, List.foldlM_append]
  simp only [List.foldlM_cons, List.foldlM_nil, bind_pure]
  rfl

theorem step_some {c : Compiler} {i : Beaverc.Instruction} {e : Emission}
    (h : translate c.bytecode i c.stack c.temps = some e) :
    ∃ c', c.step i = some c' ∧ c'.bytecode = c.bytecode ∧ c'.stack = e.stack ∧
      c'.temps = e.temps ∧ c'.instructions = c.instructions ++ e.code := by
  unfold Compiler.step
  rw [h]
  exact ⟨_, rfl, rfl, rfl, rfl, rfl⟩

/-- The compiler gets past every instruction of well emitted code. -/
theorem tracks_succ (hw : WellEmitted f) (hc : ConstantsInRange f) {n : Nat} {c : Compiler}
    (h : c.Tracks f n) {i : Beaverc.Instruction} (hi : f.instructions[n]? = some i) :
    ∃ e c', translate f i c.stack c.temps = some e ∧ c.step i = some c' ∧ c'.Tracks f (n + 1) ∧
      c'.stack = e.stack ∧ c'.instructions = c.instructions ++ e.code := by
  obtain ⟨⟨lo, hi', hseg⟩, -⟩ := id hw
  obtain ⟨k, k', hk, hd, hk'⟩ := LabelsLemmas.depth_at hseg.depth_eq hi
  rw [h.depth, Option.some.injEq] at hk
  subst hk
  have hmem := List.mem_of_getElem? hi
  obtain ⟨e, he, hfits⟩ := translate_fits f hd (fun k hk => hc k (hk ▸ hmem)) h.fresh
  obtain ⟨c', hc', hb, hs, ht, hcode⟩ := step_some (h.bytecode ▸ he)
  refine ⟨e, c', he, hc', ⟨hb.trans h.bytecode, ?_, ?_, fun l => ?_⟩, hs, hcode⟩
  · rw [hk', hs, hfits.length]
  · rw [hs, ht]
    exact hfits.fresh
  · rw [hcode, List.take_add_one, hi, List.mem_append, List.mem_append, h.labels, hfits.labels]
    simp [eq_comm]

theorem upto_tracks (shared : Operands) (hw : WellEmitted f) (hc : ConstantsInRange f) {n : Nat}
    (hn : n ≤ f.instructions.length) :
    ∃ c, Compiler.upto shared f n = some c ∧ c.Tracks f n := by
  induction n with
  | zero => exact ⟨_, rfl, rfl, rfl, nofun, fun l => by simp [Compiler.new]⟩
  | succ n ih =>
    obtain ⟨c, hup, ht⟩ := ih (by omega)
    have hi := List.getElem?_eq_getElem (l := f.instructions) (i := n) (by omega)
    obtain ⟨e, c', -, hstep, ht', -, -⟩ := tracks_succ hw hc ht hi
    exact ⟨c', by rw [upto_succ hi, hup]; exact hstep, ht'⟩

/-- The code emitted for a prefix stays in front. -/
theorem foldlM_extends {code : List Beaverc.Instruction} {c c' : Compiler}
    (h : code.foldlM Compiler.step c = some c') : c.instructions <+: c'.instructions := by
  induction code generalizing c with
  | nil => cases h; exact List.prefix_rfl
  | cons i is ih =>
    rw [List.foldlM_cons] at h
    obtain ⟨c₁, h₁, h₂⟩ := Option.bind_eq_some_iff.mp h
    obtain ⟨e, -, he⟩ := Option.bind_eq_some_iff.mp h₁
    refine List.IsPrefix.trans ?_ (ih h₂)
    rw [← Option.some.inj he]
    exact List.prefix_append _ _

theorem upto_extends {n m : Nat} (hnm : n ≤ m) {c c' : Compiler}
    (h : Compiler.upto shared f n = some c) (h' : Compiler.upto shared f m = some c') :
    c.instructions <+: c'.instructions := by
  unfold Compiler.upto at h h'
  obtain ⟨rest, hrest⟩ := List.take_prefix_take_left (l := f.instructions) hnm
  rw [← hrest, List.foldlM_append, h] at h'
  exact foldlM_extends h'

theorem compile_eq_upto : Compiler.compile shared f =
    Compiler.upto shared f f.instructions.length := by
  unfold Compiler.compile Compiler.upto
  rw [List.take_length]

/-- The position of a label in the emitted code. -/
theorem position_eq (hw : WellEmitted f) (hc : ConstantsInRange f) {final : Compiler}
    (hf : Compiler.compile shared f = some final) {l p : Nat}
    (hp : f.instructions[p]? = some (.label l)) {c : Compiler}
    (hup : Compiler.upto shared f p = some c) (ht : c.Tracks f p) :
    position final.instructions l = c.instructions.length := by
  obtain ⟨e, c', he, hstep, -, -, hcode⟩ := tracks_succ hw hc ht hp
  have hup' : Compiler.upto shared f (p + 1) = some c' := by
    rw [upto_succ hp, hup]
    exact hstep
  have hlt := (List.getElem?_eq_some_iff.mp hp).1
  obtain ⟨rest, hrest⟩ := upto_extends hlt hup' (compile_eq_upto ▸ hf)
  have hcode' : e.code = [.outputLabel l] := by
    cases he
    rfl
  have hnot : .outputLabel l ∉ c.instructions := by
    rw [ht.labels]
    obtain ⟨⟨lo, hi, hseg⟩, -⟩ := id hw
    have hnodup := hseg.labels_nodup
    rw [← List.take_append_drop (p + 1) f.instructions, List.take_add_one, hp] at hnodup
    simp only [LabelsLemmas.labelsIn_append, Option.toList_some, LabelsLemmas.labelsIn_cons,
      Instruction.label?, LabelsLemmas.labelsIn_nil, List.append_nil] at hnodup
    have hdisj := (List.nodup_append.mp (List.nodup_append.mp hnodup).1).2.2
    exact fun hl => hdisj l (LabelsLemmas.mem_labelsIn.mpr hl) l (by simp) rfl
  unfold position
  rw [← hrest, hcode, hcode', List.append_assoc, List.idxOf_append_of_notMem hnot]
  simp

end TranslationLemmas

/-! ## The two machines side by side -/

/-- The word in a temp; a temp that has not been written counts as `None`. -/
def Activation.value (q : Activation) (n : Nat) : Value :=
  (q.temps n).getD .none

/-- The temps of the list have been written. -/
def Activation.Holds (q : Activation) (stack : List Nat) : Prop :=
  ∀ t ∈ stack, q.temps t = some (q.value t)

/-- The temps of `q` hold what is on the operand stack of `s`; `q` stands at
the code emitted for the instruction that `s` is at. -/
structure Follows (shared : Operands) (f : Function) (final : Compiler) (s : Frame × World)
    (q : Activation × World) : Prop where
  world : q.2 = s.2
  function : s.1.function = f
  names : q.1.function = f
  code : q.1.code = final.instructions
  closure : q.1.closure = s.1.closure
  references : q.1.references = s.1.references
  locals : q.1.locals = s.1.locals
  inside : s.1.ip ≤ f.instructions.length
  place : ∃ c, Compiler.upto shared f s.1.ip = some c ∧ q.1.ip = c.instructions.length ∧
    s.1.stack = c.stack.map q.1.value ∧ q.1.Holds c.stack

/-- `And` and `Or` find a boolean on the right even where they do not look. -/
def LogicalOperands (s : Frame × World) : Prop :=
  match s.1.function.instructions[s.1.ip]?, s.1.stack with
  | some .and, right :: .boolean false :: _ => ∃ b, right = .boolean b
  | some .or, right :: .boolean true :: _ => ∃ b, right = .boolean b
  | _, _ => True

/-- The product of two integers that is next fits. -/
def FittingProduct (fit : Int → Int → Prop) (s : Frame × World) : Prop :=
  match s.1.function.instructions[s.1.ip]?, s.1.stack with
  | some .mul, .integer r :: .integer l :: _ => fit l r
  | _, _ => True

namespace TranslationLemmas

variable {shared : Operands} {f : Function} {final : Compiler}

theorem value_setTemp_self (q : Activation) (n : Nat) (v : Value) :
    (q.setTemp n v).value n = v := by
  show (Function.update q.temps n (some v) n).getD .none = v
  rw [Function.update_self]
  rfl

theorem temps_setTemp_of_ne (q : Activation) {n t : Nat} (h : t ≠ n) (v : Value) :
    (q.setTemp n v).temps t = q.temps t :=
  Function.update_of_ne h _ _

theorem value_setTemp_of_ne (q : Activation) {n t : Nat} (h : t ≠ n) (v : Value) :
    (q.setTemp n v).value t = q.value t := by
  unfold Activation.value
  rw [temps_setTemp_of_ne q h]

theorem map_setTemp {stack : List Nat} {n : Nat} (h : ∀ t ∈ stack, t < n) (q : Activation)
    (v : Value) : stack.map (q.setTemp n v).value = stack.map q.value :=
  List.map_congr_left fun t ht => value_setTemp_of_ne q (Nat.ne_of_lt (h t ht)) v

theorem holds_setTemp {stack : List Nat} {n : Nat} {q : Activation} (hq : q.Holds stack)
    (h : ∀ t ∈ stack, t < n) (v : Value) : (q.setTemp n v).Holds (n :: stack) := by
  intro t ht
  rcases List.mem_cons.mp ht with rfl | ht
  · rw [value_setTemp_self]
    exact Function.update_self ..
  · have hne := Nat.ne_of_lt (h t ht)
    rw [value_setTemp_of_ne q hne, temps_setTemp_of_ne q hne]
    exact hq t ht

theorem read_holds {stack : List Nat} {q : Activation} (hq : q.Holds stack) {t : Nat}
    (ht : t ∈ stack) : q.read t = .ok (q.value t) := by
  unfold Activation.read
  rw [hq t ht]

theorem mapM_read {stack l : List Nat} {q : Activation} (hq : q.Holds stack)
    (hl : ∀ t ∈ l, t ∈ stack) : l.mapM q.read = .ok (l.map q.value) := by
  induction l with
  | nil => rfl
  | cons t l ih =>
    rw [List.mapM_cons, read_holds hq (hl t (List.mem_cons_self ..)),
      ih fun t ht => hl t (List.mem_cons_of_mem _ ht)]
    rfl

/-- The place of `s` spelled out: the compiler there, what it emits next and
where that is found. -/
structure Here (shared : Operands) (f : Function) (s : Frame × World) (q : Activation × World)
    (i : Beaverc.Instruction) (c : Compiler) (e : Emission) : Prop where
  instruction : f.instructions[s.1.ip]? = some i
  tracks : c.Tracks f s.1.ip
  emission : translate f i c.stack c.temps = some e
  stack : s.1.stack = c.stack.map q.1.value
  holds : q.1.Holds c.stack
  ip : q.1.ip = c.instructions.length
  code : ∀ k j, e.code[k]? = some j → q.1.code[q.1.ip + k]? = some j
  next : ∃ c', Compiler.upto shared f (s.1.ip + 1) = some c' ∧
    c'.instructions.length = q.1.ip + e.code.length ∧ c'.stack = e.stack

theorem here (hw : WellEmitted f) (hc : ConstantsInRange f)
    (hf : Compiler.compile shared f = some final) {s : Frame × World} {q : Activation × World}
    (h : Follows shared f final s q) {i : Beaverc.Instruction}
    (hi : f.instructions[s.1.ip]? = some i) : ∃ c e, Here shared f s q i c e := by
  obtain ⟨c, hup, hip, hstack, hholds⟩ := h.place
  obtain ⟨c₀, hup₀, ht⟩ := upto_tracks shared hw hc h.inside
  obtain rfl : c₀ = c := Option.some.inj (hup₀.symm.trans hup)
  obtain ⟨e, c', he, hstep, -, hs, hcode⟩ := tracks_succ hw hc ht hi
  have hup' : Compiler.upto shared f (s.1.ip + 1) = some c' := by
    rw [upto_succ hi, hup]
    exact hstep
  have hlt := (List.getElem?_eq_some_iff.mp hi).1
  obtain ⟨rest, hrest⟩ := upto_extends hlt hup' (compile_eq_upto ▸ hf)
  refine ⟨c₀, e, hi, ht, he, hstack, hholds, hip, fun k j hk => ?_, c', hup', ?_, hs⟩
  · have hk' := (List.getElem?_eq_some_iff.mp hk).1
    rw [h.code, ← hrest, hcode, hip, List.append_assoc,
      List.getElem?_append_right (Nat.le_add_right _ _), Nat.add_sub_cancel_left,
      List.getElem?_append_left hk', hk]
  · rw [hcode, List.length_append, hip]

/-- Both machines are past an instruction that is no jump. -/
theorem Here.advance {s s' : Frame × World} {q q' : Activation × World} {i : Beaverc.Instruction}
    {c : Compiler} {e : Emission} (hh : Here shared f s q i c e)
    (h : Follows shared f final s q) (hs : s'.1.ip = s.1.ip + 1)
    (hq : q'.1.ip = q.1.ip + e.code.length) (hstack : s'.1.stack = e.stack.map q'.1.value)
    (hholds : q'.1.Holds e.stack) (world : q'.2 = s'.2) (function : s'.1.function = s.1.function)
    (names : q'.1.function = q.1.function) (code : q'.1.code = q.1.code)
    (closure : q'.1.closure = q.1.closure) (closure' : s'.1.closure = s.1.closure)
    (references : q'.1.references = q.1.references)
    (references' : s'.1.references = s.1.references)
    (locals : q'.1.locals = s'.1.locals) : Follows shared f final s' q' := by
  obtain ⟨c', hup, hlen, hst⟩ := hh.next
  refine ⟨world, function.trans h.function, names.trans h.names, code.trans h.code, ?_, ?_, locals,
    ?_, c', hs ▸ hup, ?_, ?_, hst ▸ hholds⟩
  · rw [closure, h.closure, closure']
  · rw [references, h.references, references']
  · rw [hs]
    exact (List.getElem?_eq_some_iff.mp hh.instruction).1
  · rw [hq, hlen]
  · rw [hst, hstack]

/-- Both machines are at a label they have jumped to. -/
theorem follows_jump (hw : WellEmitted f) (hc : ConstantsInRange f)
    (hf : Compiler.compile shared f = some final) {s : Frame × World} {q : Activation × World}
    (h : Follows shared f final s q) {l : Nat}
    (hl : f.instructions[f.labelPosition l]? = some (.label l)) (stack : List Value)
    (hstack : stack = []) :
    Follows shared f final ({ s.1 with stack := stack, ip := s.1.function.labelPosition l }, s.2)
      ({ q.1 with ip := position q.1.code l }, s.2) := by
  have hlt := (List.getElem?_eq_some_iff.mp hl).1
  obtain ⟨c, hup, ht⟩ := upto_tracks shared hw hc hlt.le
  have hempty : c.stack = [] := by
    obtain ⟨⟨lo, hi, hseg⟩, -⟩ := id hw
    obtain ⟨k, k', hk, hd, -⟩ := LabelsLemmas.depth_at hseg.depth_eq hl
    rw [ht.depth, Option.some.injEq] at hk
    simp only [Instruction.depth, Instruction.effect, Option.ite_none_right_eq_some] at hd
    exact List.length_eq_zero_iff.mp (hk.trans hd.1)
  refine ⟨rfl, h.function, h.names, h.code, h.closure, h.references, h.locals, ?_, c, ?_, ?_, ?_,
    by rw [hempty]; exact nofun⟩
  · show s.1.function.labelPosition l ≤ _
    rw [h.function]
    exact hlt.le
  · show Compiler.upto shared f (s.1.function.labelPosition l) = some c
    rw [h.function]
    exact hup
  · show position q.1.code l = _
    rw [h.code]
    exact position_eq hw hc hf hl hup ht
  · rw [hempty, hstack]
    rfl

variable {P : Activity Activation} [Reading P]

variable (P) in
theorem move_eq {q : Activation × World} {i : Instruction} (h : q.1.code[q.1.ip]? = some i)
    (hexact : q.1.Exact (Reading.fit P) i) : P q = q.1.exec i q.2 :=
  Reading.move_eq h hexact

/-- The checks in front of an operation. -/
def checks (l : List (Assert × Nat)) : List Instruction :=
  l.map fun p => .callAssert p.1 p.2

variable (P) in
theorem silent_checks {q : Activation × World} {l : List (Assert × Nat)} (rest : List Instruction)
    (hcode : ∀ k j, (checks l ++ rest)[k]? = some j → q.1.code[q.1.ip + k]? = some j)
    (hread : ∀ p ∈ l, q.1.read p.2 = .ok (q.1.value p.2))
    (hpass : ∀ p ∈ l, p.1.check (q.1.value p.2) = .ok ()) :
    Silent P q [] ({ q.1 with ip := q.1.ip + l.length }, q.2) := by
  induction l generalizing q with
  | nil => exact .refl q
  | cons p l ih =>
    have hmove := move_eq P (hcode 0 (.callAssert p.1 p.2) rfl) trivial
    have hp := hpass p (List.mem_cons_self ..)
    simp only [Activation.exec, hread p (List.mem_cons_self ..), hp, ok_bind,
      Activation.silent] at hmove
    have hrest := ih (q := (q.1.advance, q.2)) (fun k j hk => by
        have h := hcode (k + 1) j hk
        rwa [show q.1.ip + (k + 1) = q.1.ip + 1 + k by omega] at h)
      (fun p' hp' => hread p' (List.mem_cons_of_mem _ hp'))
      (fun p' hp' => hpass p' (List.mem_cons_of_mem _ hp'))
    have hall := Silent.step hmove hrest
    rwa [show q.1.advance.ip + l.length = q.1.ip + (p :: l).length by
      simp only [Activation.advance, List.length_cons]; omega] at hall

/-- What an action gives `run_function` it gives compiled code. -/
theorem performHelper_ok {a : Action} {w : World} {r : Value × World}
    (h : perform a w = .ok r) : performHelper a w = .ok r := by
  cases a with
  | loadGlobal name =>
    simp only [perform] at h
    simp only [performHelper]
    cases hv : w.globals.lookup name with
    | some v => rwa [hv] at h
    | none =>
      rw [hv] at h
      cases h
  | indexLoad record index =>
    obtain ⟨name, hname, h⟩ := bind_ok.mp h
    obtain ⟨r, hr, -⟩ := bind_ok.mp h
    simp only [performHelper, hr, hname, ok_bind]
    exact h
  | indexStore record index v =>
    obtain ⟨name, hname, h⟩ := bind_ok.mp h
    obtain ⟨r, hr, -⟩ := bind_ok.mp h
    simp only [performHelper, hr, hname, ok_bind]
    exact h
  | _ => exact h

section Families

variable {s : Frame × World} {q : Activation × World} {i : Beaverc.Instruction} {c : Compiler}
  {e : Emission} {instr : Instruction} {rest : List Nat} {es : List Event} {w' : World}

/-- Checks and one instruction that computes a new temp. -/
theorem push_case (hh : Here shared f s q i c e) (h : Follows shared f final s q)
    {l : List (Assert × Nat)} {v : Value}
    (he : e = ⟨checks l ++ [instr], c.temps :: rest, c.temps + 1⟩)
    (hexact : q.1.Exact (Reading.fit P) instr)
    (hr : ∀ t ∈ rest, t ∈ c.stack) (hl : ∀ p ∈ l, p.2 ∈ c.stack)
    (hpass : ∀ p ∈ l, p.1.check (q.1.value p.2) = .ok ())
    (hexec : ∀ ip, ({ q.1 with ip := ip } : Activation).exec instr q.2 =
      .ok (.step es (({ q.1 with ip := ip + 1 } : Activation).setTemp c.temps v, w'))) :
    ∃ q', Silent P q es q' ∧
      Follows shared f final (s.1.advance (v :: rest.map q.1.value), w') q' := by
  subst he
  have hsilent := silent_checks P [instr] hh.code (fun p hp => read_holds hh.holds (hl p hp)) hpass
  have hfresh : ∀ t ∈ rest, t < c.temps := fun t ht => hh.tracks.fresh t (hr t ht)
  have hlast : q.1.code[q.1.ip + l.length]? = some instr :=
    hh.code l.length instr (by simp [checks])
  have hmove := move_eq P (q := ({ q.1 with ip := q.1.ip + l.length }, q.2)) hlast hexact
  rw [hexec] at hmove
  refine ⟨_, hsilent.trans (Silent.single hmove), ?_⟩
  refine hh.advance h rfl ?_ ?_ ?_ rfl rfl rfl rfl rfl rfl rfl rfl h.locals
  · simp [Activation.setTemp, checks, Nat.add_assoc]
  · rw [List.map_cons, value_setTemp_self, map_setTemp hfresh]
    rfl
  · exact holds_setTemp (fun t ht => hh.holds t (hr t ht)) hfresh v

variable (P) in
/-- A call or a helper, and the assignment of its result. -/
theorem help_case (hh : Here shared f s q i c e) (h : Follows shared f final s q) {v : Value}
    (w' : World) (he : e = ⟨[instr, .assign c.temps .retVal], c.temps :: rest, c.temps + 1⟩)
    (hr : ∀ t ∈ rest, t ∈ c.stack) :
    ∃ q'', Silent P ({ q.1.advance with retVal := v }, w') [] q'' ∧
      Follows shared f final (s.1.advance (v :: rest.map q.1.value), w') q'' := by
  subst he
  have hmove := move_eq P (q := (({ q.1.advance with retVal := v } : Activation), w'))
    (hh.code 1 (.assign c.temps .retVal) rfl) trivial
  have hfresh : ∀ t ∈ rest, t < c.temps := fun t ht => hh.tracks.fresh t (hr t ht)
  refine ⟨_, Silent.single hmove, ?_⟩
  refine hh.advance h rfl rfl ?_ ?_ rfl rfl rfl rfl rfl rfl rfl rfl h.locals
  · rw [List.map_cons, value_setTemp_self, map_setTemp hfresh]
    rfl
  · exact holds_setTemp (fun t ht => hh.holds t (hr t ht)) hfresh v

/-- One instruction that computes nothing. -/
theorem rest_case (hh : Here shared f s q i c e) (h : Follows shared f final s q)
    (locals : List Value) (he : e = ⟨[instr], rest, c.temps⟩)
    (hexact : q.1.Exact (Reading.fit P) instr)
    (hr : ∀ t ∈ rest, t ∈ c.stack)
    (hexec : q.1.exec instr q.2 = .ok (.step es ({ q.1.advance with locals := locals }, w'))) :
    ∃ q', Silent P q es q' ∧ Follows shared f final
      ({ s.1.advance (rest.map q.1.value) with locals := locals }, w') q' := by
  subst he
  have hmove := move_eq P (hh.code 0 instr rfl) hexact
  rw [hexec] at hmove
  exact ⟨_, Silent.single hmove, hh.advance h rfl rfl rfl (fun t ht => hh.holds t (hr t ht))
    rfl rfl rfl rfl rfl rfl rfl rfl rfl⟩

end Families

/-! ## Every instruction -/

/-- What is to be shown of an instruction that only steps. -/
def Matched (P : Activity Activation) (shared : Operands) (f : Function) (final : Compiler)
    (s : Frame × World) (q : Activation × World) (i : Beaverc.Instruction) : Prop :=
  ∀ (fr : Frame) (w : World) (ev : Option Event), s.1.exec i s.2 = .ok (.next fr w ev) →
    ∃ q', Silent P q ev.toList q' ∧ Follows shared f final (fr, w) q'

section Matched

variable {s : Frame × World} {q : Activation × World} {i : Beaverc.Instruction} {c : Compiler}
  {e : Emission} {α : Type}

/-- A value that is pushed without an action. -/
theorem matched_push (hh : Here shared f s q i c e) (h : Follows shared f final s q)
    {src : Source} (hemit : e = ⟨[.assign c.temps src], c.temps :: c.stack, c.temps + 1⟩)
    (get : Except Stop α) (val : α → Value)
    (hvm : s.1.exec i s.2 = get >>= fun x => s.1.push (val x) s.1.stack s.2)
    (hir : ∀ x, get = .ok x → ∀ ip,
      ({ q.1 with ip := ip } : Activation).exec (.assign c.temps src) q.2 =
        .ok (.step [] (({ q.1 with ip := ip + 1 } : Activation).setTemp c.temps (val x), q.2))) :
    Matched P shared f final s q i := by
  intro fr w ev hx
  rw [hvm] at hx
  obtain ⟨x, hv, hx⟩ := bind_ok.mp hx
  cases hx
  rw [hh.stack, ← h.world]
  exact push_case hh h (l := []) hemit trivial (fun _ ht => ht) nofun nofun (hir x hv)

/-- A value that an action computes. -/
theorem matched_load (hh : Here shared f s q i c e) (h : Follows shared f final s q)
    {instr : Instruction} {rest : List Nat}
    (hemit : e = ⟨[instr], c.temps :: rest, c.temps + 1⟩)
    (hexact : q.1.Exact (Reading.fit P) instr) (hr : ∀ t ∈ rest, t ∈ c.stack)
    (get : Except Stop α) (act : α → Action)
    (hvm : s.1.exec i s.2 = get >>= fun x => s.1.load (act x) (rest.map q.1.value) s.2)
    (hir : ∀ x, get = .ok x → ∀ ip, ({ q.1 with ip := ip } : Activation).exec instr q.2 =
      ({ q.1 with ip := ip } : Activation).load (act x) c.temps q.2) :
    Matched P shared f final s q i := by
  intro fr w ev hx
  rw [hvm] at hx
  obtain ⟨x, ha, hx⟩ := bind_ok.mp hx
  obtain ⟨v, w', hp, ho⟩ := load_ok.mp hx
  cases ho
  refine push_case hh h (l := []) hemit hexact hr nofun nofun fun ip => ?_
  rw [hir x ha, h.world]
  unfold Activation.load
  rw [performHelper_ok hp]
  rfl

/-- A value that an action computes and leaves in `RetVal`. -/
theorem matched_help (hh : Here shared f s q i c e) (h : Follows shared f final s q)
    {instr : Instruction} {rest : List Nat}
    (hemit : e = ⟨[instr, .assign c.temps .retVal], c.temps :: rest, c.temps + 1⟩)
    (hexact : q.1.Exact (Reading.fit P) instr) (hr : ∀ t ∈ rest, t ∈ c.stack)
    (get : Except Stop α) (act : α → Action)
    (hvm : s.1.exec i s.2 = get >>= fun x => s.1.load (act x) (rest.map q.1.value) s.2)
    (hir : ∀ x, get = .ok x → q.1.exec instr q.2 = q.1.help (act x) q.2) :
    Matched P shared f final s q i := by
  intro fr w ev hx
  rw [hvm] at hx
  obtain ⟨x, ha, hx⟩ := bind_ok.mp hx
  obtain ⟨v, w', hp, ho⟩ := load_ok.mp hx
  cases ho
  have hmove := move_eq P (hh.code 0 instr (by rw [hemit]; rfl)) hexact
  rw [hir x ha, Activation.help, h.world, performHelper_ok hp] at hmove
  obtain ⟨q'', hq'', hfol⟩ := help_case P (v := v) hh h w hemit hr
  exact ⟨q'', Silent.step hmove hq'', hfol⟩

/-- An action without a result. -/
theorem matched_act (hh : Here shared f s q i c e) (h : Follows shared f final s q)
    {instr : Instruction} {rest : List Nat} (hemit : e = ⟨[instr], rest, c.temps⟩)
    (hexact : q.1.Exact (Reading.fit P) instr) (hr : ∀ t ∈ rest, t ∈ c.stack)
    (get : Except Stop α) (act : α → Action)
    (hvm : s.1.exec i s.2 = get >>= fun x => s.1.store (act x) (rest.map q.1.value) s.2)
    (hir : ∀ x, get = .ok x → q.1.exec instr q.2 = q.1.act (act x) q.2) :
    Matched P shared f final s q i := by
  intro fr w ev hx
  rw [hvm] at hx
  obtain ⟨x, ha, hx⟩ := bind_ok.mp hx
  obtain ⟨v, w', hp, ho⟩ := store_ok.mp hx
  cases ho
  refine rest_case hh h s.1.locals hemit hexact hr ?_
  rw [hir x ha, Activation.act, h.world, performHelper_ok hp, ← h.locals]
  rfl

theorem matched_loadConst {k : Nat} (hh : Here shared f s q (.loadConst k) c e)
    (h : Follows shared f final s q) : Matched P shared f final s q (.loadConst k) := by
  obtain ⟨x, hx, he⟩ := Option.bind_eq_some_iff.mp hh.emission
  refine matched_push hh h (Option.some.inj he).symm (.ok x) constantToValue ?_ ?_
  · simp only [Frame.exec, h.function, safeIndex_ok.mpr hx, ok_bind]
  · intro v hv ip
    cases hv
    rfl

theorem matched_loadLocal {k : Nat} (hh : Here shared f s q (.loadLocal k) c e)
    (h : Follows shared f final s q) : Matched P shared f final s q (.loadLocal k) := by
  refine matched_push hh h (Option.some.inj hh.emission).symm _ id rfl fun v hv ip => ?_
  simp only [Activation.exec, h.locals, hv, ok_bind]
  rfl

theorem matched_pushReference {k : Nat} (hh : Here shared f s q (.pushReference k) c e)
    (h : Follows shared f final s q) : Matched P shared f final s q (.pushReference k) := by
  refine matched_push hh h (Option.some.inj hh.emission).symm _ Value.pointer rfl fun v hv ip => ?_
  simp only [Activation.exec, h.references, hv, ok_bind]
  rfl

theorem matched_loadFunc {k : Int} (hh : Here shared f s q (.loadFunc k) c e)
    (h : Follows shared f final s q) : Matched P shared f final s q (.loadFunc k) := by
  refine matched_load hh h (Option.some.inj hh.emission).symm trivial (fun _ ht => ht) (.ok ())
    (fun _ => .loadFunc s.1.closure k) ?_ fun _ _ ip => ?_
  · rw [← hh.stack]
    rfl
  · simp only [Activation.exec, h.closure]

theorem matched_loadGlobal {k : Nat} (hh : Here shared f s q (.loadGlobal k) c e)
    (h : Follows shared f final s q) : Matched P shared f final s q (.loadGlobal k) := by
  refine matched_load hh h (Option.some.inj hh.emission).symm trivial (fun _ ht => ht)
    (safeIndex f.names k) .loadGlobal ?_ fun x hx ip => ?_
  · rw [← hh.stack, ← h.function]
    rfl
  · simp only [Activation.exec, h.names, rawIndex_ok.mpr (safeIndex_ok.mp hx), ok_bind]

theorem matched_loadReference {k : Nat} (hh : Here shared f s q (.loadReference k) c e)
    (h : Follows shared f final s q) : Matched P shared f final s q (.loadReference k) := by
  refine matched_load hh h (Option.some.inj hh.emission).symm trivial (fun _ ht => ht)
    (rawIndex s.1.references k) .loadReference ?_ fun x hx ip => ?_
  · rw [← hh.stack]
    rfl
  · simp only [Activation.exec, h.references, hx, ok_bind]

theorem matched_allocRecord (hh : Here shared f s q .allocRecord c e)
    (h : Follows shared f final s q) : Matched P shared f final s q .allocRecord := by
  refine matched_help hh h (Option.some.inj hh.emission).symm trivial (fun _ ht => ht) (.ok ())
    (fun _ => .allocRecord) ?_ fun _ _ => rfl
  rw [← hh.stack]
  rfl

/-- The operand stack of a machine whose compiler has a given stack. -/
theorem Here.stack_eq (hh : Here shared f s q i c e) {stack : List Nat} (hst : c.stack = stack) :
    s.1.stack = stack.map q.1.value := by
  rw [hh.stack, hst]

theorem Here.emission_eq (hh : Here shared f s q i c e) {stack : List Nat}
    (hst : c.stack = stack) : translate f i stack c.temps = some e := by
  rw [← hst]
  exact hh.emission

/-- A temp on the stack can be read. -/
theorem Here.read (hh : Here shared f s q i c e) {stack : List Nat} (hst : c.stack = stack)
    {t : Nat} (ht : t ∈ stack) (ip : Nat) :
    ({ q.1 with ip := ip } : Activation).read t = .ok (q.1.value t) :=
  read_holds hh.holds (hst ▸ ht)

theorem Here.mapM_read (hh : Here shared f s q i c e) {stack l : List Nat}
    (hst : c.stack = stack) (hl : ∀ t ∈ l, t ∈ stack) :
    l.mapM q.1.read = .ok (l.map q.1.value) :=
  TranslationLemmas.mapM_read hh.holds fun t ht => hst ▸ hl t ht

theorem matched_fieldLoad {k : Nat} (hh : Here shared f s q (.fieldLoad k) c e)
    (h : Follows shared f final s q) : Matched P shared f final s q (.fieldLoad k) := by
  rcases hst : c.stack with _ | ⟨record, rest⟩
  · cases hh.emission_eq hst
  · refine matched_help hh h (Option.some.inj (hh.emission_eq hst)).symm trivial
      (by simp +contextual [hst]) (safeIndex f.names k)
      (fun name => .fieldLoad (q.1.value record) name) ?_ fun x hx => ?_
    · simp only [Frame.exec, h.function, hh.stack_eq hst, List.map_cons]
    · simp only [Activation.exec, hh.mapM_read hst (l := [record]) (by simp), List.map_cons,
        List.map_nil, Activation.helperAction, h.names, rawIndex_ok.mpr (safeIndex_ok.mp hx),
        ok_bind, pure_ok]
      rfl

theorem matched_indexLoad (hh : Here shared f s q .indexLoad c e)
    (h : Follows shared f final s q) : Matched P shared f final s q .indexLoad := by
  rcases hst : c.stack with _ | ⟨index, _ | ⟨record, rest⟩⟩
  · cases hh.emission_eq hst
  · cases hh.emission_eq hst
  · refine matched_help hh h (Option.some.inj (hh.emission_eq hst)).symm trivial
      (by simp +contextual [hst]) (.ok ())
      (fun _ => .indexLoad (q.1.value record) (q.1.value index)) ?_ fun _ _ => ?_
    · simp only [Frame.exec, hh.stack_eq hst, List.map_cons, ok_bind]
    · simp only [Activation.exec, hh.mapM_read hst (l := [record, index]) (by simp), ok_bind]
      rfl

theorem matched_allocClosure {k : Nat} (hh : Here shared f s q (.allocClosure k) c e)
    (h : Follows shared f final s q) : Matched P shared f final s q (.allocClosure k) := by
  rcases hst : c.stack with _ | ⟨g, rest⟩
  · cases hh.emission_eq hst
  · have hemit := hh.emission_eq hst
    simp only [translate, Option.ite_none_right_eq_some] at hemit
    obtain ⟨hk, hemit⟩ := hemit
    refine matched_help hh h (Option.some.inj hemit).symm trivial
      (fun t ht => hst ▸ List.mem_cons_of_mem _ (List.mem_of_mem_drop ht))
      (.ok ()) (fun _ => .allocClosure (q.1.value g) ((rest.take k).map q.1.value)) ?_
      fun _ _ => ?_
    · simp only [Frame.exec, hh.stack_eq hst, List.map_cons, Frame.popMany, List.length_map, hk,
        if_true, List.splitAt_eq, ok_bind, List.map_take, List.map_drop]
    · simp only [Activation.exec, hh.read hst (List.mem_cons_self ..) q.1.ip,
        hh.mapM_read hst (l := rest.take k) fun t ht =>
          List.mem_cons_of_mem _ (List.mem_of_mem_take ht), ok_bind]

theorem matched_add (hh : Here shared f s q .add c e) (h : Follows shared f final s q) :
    Matched P shared f final s q .add := by
  rcases hst : c.stack with _ | ⟨right, _ | ⟨left, rest⟩⟩
  · cases hh.emission_eq hst
  · cases hh.emission_eq hst
  · refine matched_load hh h (Option.some.inj (hh.emission_eq hst)).symm trivial
      (by simp +contextual [hst]) (.ok ())
      (fun _ => .add (q.1.value left) (q.1.value right)) ?_ fun _ _ ip => ?_
    · simp only [Frame.exec, hh.stack_eq hst, List.map_cons, ok_bind]
    · simp only [Activation.exec, hh.read hst (t := left) (by simp) ip,
        hh.read hst (t := right) (by simp) ip, ok_bind, BinOp.leftFirst, if_true]

theorem matched_eq (hh : Here shared f s q .eq c e) (h : Follows shared f final s q) :
    Matched P shared f final s q .eq := by
  rcases hst : c.stack with _ | ⟨right, _ | ⟨left, rest⟩⟩
  · cases hh.emission_eq hst
  · cases hh.emission_eq hst
  · refine matched_load hh h (Option.some.inj (hh.emission_eq hst)).symm trivial
      (by simp +contextual [hst]) (.ok ())
      (fun _ => .eq (q.1.value left) (q.1.value right)) ?_ fun _ _ ip => ?_
    · simp only [Frame.exec, hh.stack_eq hst, List.map_cons, ok_bind]
    · simp only [Activation.exec, hh.read hst (t := left) (by simp) ip,
        hh.read hst (t := right) (by simp) ip, ok_bind, BinOp.leftFirst, if_true]

theorem matched_storeLocal {k : Nat} (hh : Here shared f s q (.storeLocal k) c e)
    (h : Follows shared f final s q) : Matched P shared f final s q (.storeLocal k) := by
  rcases hst : c.stack with _ | ⟨t, rest⟩
  · cases hh.emission_eq hst
  · intro fr w ev hx
    simp only [Frame.exec, hh.stack_eq hst, List.map_cons] at hx
    split at hx
    · next hk =>
      cases hx
      refine rest_case hh h _ (Option.some.inj (hh.emission_eq hst)).symm trivial
        (by simp +contextual [hst]) ?_
      simp only [Activation.exec, hh.read hst (List.mem_cons_self ..) q.1.ip, ok_bind, h.locals,
        if_pos hk, h.world]
      rfl
    · cases hx

theorem matched_storeGlobal {k : Nat} (hh : Here shared f s q (.storeGlobal k) c e)
    (h : Follows shared f final s q) : Matched P shared f final s q (.storeGlobal k) := by
  rcases hst : c.stack with _ | ⟨t, rest⟩
  · cases hh.emission_eq hst
  · refine matched_act hh h (Option.some.inj (hh.emission_eq hst)).symm trivial
      (by simp +contextual [hst]) (safeIndex f.names k)
      (fun name => .storeGlobal name (q.1.value t)) ?_ fun x hx => ?_
    · simp only [Frame.exec, h.function, hh.stack_eq hst, List.map_cons]
    · simp only [Activation.exec, hh.read hst (List.mem_cons_self ..) q.1.ip, h.names,
        rawIndex_ok.mpr (safeIndex_ok.mp hx), ok_bind]

theorem matched_storeReference {k : Nat} (hh : Here shared f s q (.storeReference k) c e)
    (h : Follows shared f final s q) : Matched P shared f final s q (.storeReference k) := by
  rcases hst : c.stack with _ | ⟨t, rest⟩
  · cases hh.emission_eq hst
  · refine matched_act hh h (Option.some.inj (hh.emission_eq hst)).symm trivial
      (by simp +contextual [hst]) (rawIndex s.1.references k)
      (fun r => .storeReference r (q.1.value t)) ?_ fun x hx => ?_
    · simp only [Frame.exec, hh.stack_eq hst, List.map_cons]
    · simp only [Activation.exec, hh.read hst (List.mem_cons_self ..) q.1.ip, h.references, hx,
        ok_bind]

theorem matched_fieldStore {k : Nat} (hh : Here shared f s q (.fieldStore k) c e)
    (h : Follows shared f final s q) : Matched P shared f final s q (.fieldStore k) := by
  rcases hst : c.stack with _ | ⟨value, _ | ⟨record, rest⟩⟩
  · cases hh.emission_eq hst
  · cases hh.emission_eq hst
  · refine matched_act hh h (Option.some.inj (hh.emission_eq hst)).symm trivial
      (by simp +contextual [hst]) (safeIndex f.names k)
      (fun name => .fieldStore (q.1.value record) name (q.1.value value)) ?_ fun x hx => ?_
    · simp only [Frame.exec, h.function, hh.stack_eq hst, List.map_cons]
    · simp only [Activation.exec, hh.mapM_read hst (l := [record, value]) (by simp),
        Activation.helperAction, List.map_cons, List.map_nil, h.names,
        rawIndex_ok.mpr (safeIndex_ok.mp hx), ok_bind, pure_ok]
      rfl

theorem matched_indexStore (hh : Here shared f s q .indexStore c e)
    (h : Follows shared f final s q) : Matched P shared f final s q .indexStore := by
  rcases hst : c.stack with _ | ⟨value, _ | ⟨index, _ | ⟨record, rest⟩⟩⟩
  · cases hh.emission_eq hst
  · cases hh.emission_eq hst
  · cases hh.emission_eq hst
  · refine matched_act hh h (Option.some.inj (hh.emission_eq hst)).symm trivial
      (by simp +contextual [hst]) (.ok ())
      (fun _ => .indexStore (q.1.value record) (q.1.value index) (q.1.value value)) ?_
      fun _ _ => ?_
    · simp only [Frame.exec, hh.stack_eq hst, List.map_cons, ok_bind]
    · simp only [Activation.exec, hh.mapM_read hst (l := [record, index, value]) (by simp),
        ok_bind]
      rfl

/-! Arithmetic. -/

/-- The operations that take their right operand first compute in the machine. -/
theorem binOp_exec {b : BinOp} (hb : b.leftFirst = false) {dest : Nat} {w : World} :
    ∀ (p : Activation) (src1 src2 : Nat) (left right : Value), p.read src1 = .ok right →
      p.read src2 = .ok left → p.exec (.binOp b dest src1 src2) w =
        b.machine left right >>= fun v => (p.advance.setTemp dest v).silent w := by
  intro p src1 src2 left right h₁ h₂
  simp only [Activation.exec, h₁, h₂, ok_bind, hb]
  cases b <;> first | rfl | cases hb

/-- An operation on two operands that are checked first. -/
theorem matched_arithmetic (hh : Here shared f s q i c e) (h : Follows shared f final s q)
    (op : Arithmetic) {b : BinOp} {a : Assert} (hvm : s.1.exec i s.2 = s.1.arithmetic op s.2)
    (hemit : translate f i c.stack c.temps = helperBinop b a c.stack c.temps)
    (hir : ∀ (p : Activation) (src1 src2 : Nat) (left right : Value), p.read src1 = .ok right →
      p.read src2 = .ok left → p.exec (.binOp b c.temps src1 src2) q.2 =
        b.machine left right >>= fun v => (p.advance.setTemp c.temps v).silent q.2)
    (hop : ∀ {left right v : Value} {st : List Value}, s.1.stack = right :: left :: st →
      op.apply left right = .ok v →
      a.check left = .ok () ∧ a.check right = .ok () ∧ b.machine left right = .ok v)
    (hfit : ∀ {left right : Nat} {rest : List Nat}, c.stack = right :: left :: rest →
      q.1.Exact (Reading.fit P) (.binOp b c.temps right left)) :
    Matched P shared f final s q i := by
  intro fr w ev hx
  rw [hvm, Frame.arithmetic, hh.stack] at hx
  rcases hst : c.stack with _ | ⟨right, _ | ⟨left, rest⟩⟩
  · rw [hst] at hx; cases hx
  · rw [hst] at hx; cases hx
  · rw [hst] at hx
    obtain ⟨v, hv, hx⟩ := bind_ok.mp hx
    cases hx
    obtain ⟨hl, hr, hm⟩ := hop (hh.stack_eq hst) hv
    have he := hh.emission
    rw [hemit, hst] at he
    rw [← h.world]
    refine push_case (l := [(a, right), (a, left)]) hh h (Option.some.inj he).symm (hfit hst)
      (by simp +contextual [hst]) (by simp [hst]) (fun p hp => ?_) fun ip => ?_
    · rcases List.mem_cons.mp hp with rfl | hp
      · exact hr
      · rw [List.mem_singleton.mp hp]
        exact hl
    · rw [hir _ right left _ _ (hh.read hst (by simp) ip) (hh.read hst (by simp) ip), hm]
      rfl

theorem integers {op : Arithmetic} {left right v : Value} (hop : op ≠ .and) (hop' : op ≠ .or)
    (h : op.apply left right = .ok v) : ∃ l r, left = .integer l ∧ right = .integer r := by
  cases op with
  | and => exact absurd rfl hop
  | or => exact absurd rfl hop'
  | div =>
    cases right with
    | integer r =>
      simp only [Arithmetic.apply, Value.getInteger, ok_bind] at h
      split at h
      · cases h
      · cases left with
        | integer l => exact ⟨l, r, rfl, rfl⟩
        | _ => cases h
    | _ => cases h
  | _ =>
    cases left with
    | integer l =>
      cases right with
      | integer r => exact ⟨l, r, rfl, rfl⟩
      | _ => cases h
    | _ => cases h

theorem matched_sub (hh : Here shared f s q .sub c e) (h : Follows shared f final s q) :
    Matched P shared f final s q .sub := by
  refine matched_arithmetic hh h .sub rfl rfl (binOp_exec (by decide)) (fun _ hv => ?_)
    fun _ => trivial
  obtain ⟨l, r, rfl, rfl⟩ := integers (by decide) (by decide) hv
  exact ⟨rfl, rfl, hv⟩

theorem matched_mul (hh : Here shared f s q .mul c e) (h : Follows shared f final s q)
    (hfits : FittingProduct (Reading.fit P) s) : Matched P shared f final s q .mul := by
  refine matched_arithmetic hh h .mul rfl rfl (binOp_exec (by decide)) (fun _ hv => ?_)
    fun {left right rest} hst l r hl hr => ?_
  · obtain ⟨l, r, rfl, rfl⟩ := integers (by decide) (by decide) hv
    exact ⟨rfl, rfl, hv⟩
  · rw [hh.read hst (by simp) q.1.ip] at hl hr
    have hi := hh.instruction
    rw [← h.function] at hi
    unfold FittingProduct at hfits
    rw [hi, hh.stack_eq hst, List.map_cons, List.map_cons, Except.ok.inj hl, Except.ok.inj hr]
      at hfits
    exact hfits

theorem matched_gt (hh : Here shared f s q .gt c e) (h : Follows shared f final s q) :
    Matched P shared f final s q .gt := by
  refine matched_arithmetic hh h .gt rfl rfl (binOp_exec (by decide)) (fun _ hv => ?_)
    fun _ => trivial
  obtain ⟨l, r, rfl, rfl⟩ := integers (by decide) (by decide) hv
  exact ⟨rfl, rfl, hv⟩

theorem matched_geq (hh : Here shared f s q .geq c e) (h : Follows shared f final s q) :
    Matched P shared f final s q .geq := by
  refine matched_arithmetic hh h .geq rfl rfl (binOp_exec (by decide)) (fun _ hv => ?_)
    fun _ => trivial
  obtain ⟨l, r, rfl, rfl⟩ := integers (by decide) (by decide) hv
  exact ⟨rfl, rfl, hv⟩

theorem matched_and (hh : Here shared f s q .and c e) (h : Follows shared f final s q)
    (hok : LogicalOperands s) : Matched P shared f final s q .and := by
  refine matched_arithmetic hh h .and rfl rfl (binOp_exec (by decide)) (fun hst hv => ?_)
    fun _ => trivial
  have hi := hh.instruction
  rw [← h.function] at hi
  unfold LogicalOperands at hok
  rw [hi, hst] at hok
  rename_i left right v st
  cases left with
  | boolean b =>
    cases b with
    | false =>
      obtain ⟨r, rfl⟩ := hok
      exact ⟨rfl, rfl, hv⟩
    | true =>
      cases right with
      | boolean r => exact ⟨rfl, rfl, hv⟩
      | _ => cases hv
  | _ => cases hv

theorem matched_or (hh : Here shared f s q .or c e) (h : Follows shared f final s q)
    (hok : LogicalOperands s) : Matched P shared f final s q .or := by
  refine matched_arithmetic hh h .or rfl rfl (binOp_exec (by decide)) (fun hst hv => ?_)
    fun _ => trivial
  have hi := hh.instruction
  rw [← h.function] at hi
  unfold LogicalOperands at hok
  rw [hi, hst] at hok
  rename_i left right v st
  cases left with
  | boolean b =>
    cases b with
    | true =>
      obtain ⟨r, rfl⟩ := hok
      exact ⟨rfl, rfl, hv⟩
    | false =>
      cases right with
      | boolean r => exact ⟨rfl, rfl, hv⟩
      | _ => cases hv
  | _ => cases hv

theorem matched_div (hh : Here shared f s q .div c e) (h : Follows shared f final s q) :
    Matched P shared f final s q .div := by
  intro fr w ev hx
  rcases hst : c.stack with _ | ⟨right, _ | ⟨left, rest⟩⟩
  · cases hh.emission_eq hst
  · cases hh.emission_eq hst
  · simp only [Frame.exec, Frame.arithmetic, hh.stack_eq hst, List.map_cons] at hx
    obtain ⟨v, hv, hx⟩ := bind_ok.mp hx
    cases hx
    obtain ⟨l, r, hl, hr⟩ := integers (by decide) (by decide) hv
    simp only [hl, hr, Arithmetic.apply, Value.getInteger, ok_bind] at hv
    split at hv
    · cases hv
    · next hzero =>
      rw [← h.world]
      refine push_case (l := [(.int, right), (.int, left), (.notZero, right)]) hh h
        (Option.some.inj (hh.emission_eq hst)).symm trivial (by simp +contextual [hst])
        (by simp [hst]) (fun p hp => ?_) fun ip => ?_
      · simp only [List.mem_cons, List.not_mem_nil, or_false] at hp
        rcases hp with rfl | rfl | rfl
        · simp only [hr, Assert.check]
        · simp only [hl, Assert.check]
        · simp only [hr, Assert.check, Value.integer.injEq, hzero, if_false]
      · simp only [Activation.exec, hh.read hst (t := left) (by simp) ip,
          hh.read hst (t := right) (by simp) ip, hl, hr, ok_bind, BinOp.leftFirst, if_true,
          BinOp.machine, if_neg hzero]
        cases hv
        rfl

theorem matched_neg (hh : Here shared f s q .neg c e) (h : Follows shared f final s q) :
    Matched P shared f final s q .neg := by
  intro fr w ev hx
  rcases hst : c.stack with _ | ⟨t, rest⟩
  · cases hh.emission_eq hst
  · simp only [Frame.exec, hh.stack_eq hst, List.map_cons] at hx
    obtain ⟨v, hv, hx⟩ := bind_ok.mp hx
    cases hx
    rw [← h.world]
    obtain ⟨k, hk⟩ : ∃ k, q.1.value t = .integer k := by
      cases ht : q.1.value t with
      | integer k => exact ⟨k, rfl⟩
      | _ => rw [ht] at hv; cases hv
    rw [hk] at hv
    cases hv
    refine push_case (l := [(.int, t)]) hh h (Option.some.inj (hh.emission_eq hst)).symm trivial
      (by simp +contextual [hst]) (by simp [hst]) (fun p hp => ?_) fun ip => ?_
    · rw [List.mem_singleton.mp hp]
      simp only [hk, Assert.check]
    · simp only [Activation.exec, hh.read hst (t := t) (by simp) ip, ok_bind, hk, UnOp.machine]
      rfl

theorem matched_not (hh : Here shared f s q .not c e) (h : Follows shared f final s q) :
    Matched P shared f final s q .not := by
  intro fr w ev hx
  rcases hst : c.stack with _ | ⟨t, rest⟩
  · cases hh.emission_eq hst
  · simp only [Frame.exec, hh.stack_eq hst, List.map_cons] at hx
    obtain ⟨v, hv, hx⟩ := bind_ok.mp hx
    cases hx
    rw [← h.world]
    obtain ⟨b, hb⟩ : ∃ b, q.1.value t = .boolean b := by
      cases ht : q.1.value t with
      | boolean b => exact ⟨b, rfl⟩
      | _ => rw [ht] at hv; cases hv
    rw [hb] at hv
    cases hv
    refine push_case (l := [(.bool, t)]) hh h (Option.some.inj (hh.emission_eq hst)).symm trivial
      (by simp +contextual [hst]) (by simp [hst]) (fun p hp => ?_) fun ip => ?_
    · rw [List.mem_singleton.mp hp]
      simp only [hb, Assert.check]
    · simp only [Activation.exec, hh.read hst (t := t) (by simp) ip, ok_bind, hb, UnOp.machine]
      rfl

/-! Control and the operand stack. -/

theorem matched_label {l : Nat} (hh : Here shared f s q (.label l) c e)
    (h : Follows shared f final s q) : Matched P shared f final s q (.label l) := by
  intro fr w ev hx
  cases hx
  rw [hh.stack]
  refine rest_case hh h s.1.locals (Option.some.inj hh.emission).symm trivial
    (fun _ ht => ht) ?_
  rw [← h.locals, ← h.world]
  rfl

theorem matched_dup (hh : Here shared f s q .dup c e) (h : Follows shared f final s q) :
    Matched P shared f final s q .dup := by
  intro fr w ev hx
  rcases hst : c.stack with _ | ⟨t, rest⟩
  · cases hh.emission_eq hst
  · simp only [Frame.exec, hh.stack_eq hst, List.map_cons] at hx
    cases hx
    obtain rfl := Option.some.inj (hh.emission_eq hst)
    have hmove := move_eq P (hh.code 0 _ rfl) trivial
    simp only [Activation.exec, hh.read hst (t := t) (by simp) q.1.ip, ok_bind] at hmove
    have hfresh : ∀ t' ∈ t :: rest, t' < c.temps := fun t' ht' => hh.tracks.fresh t' (hst ▸ ht')
    have hrest : ∀ t' ∈ rest, t' < c.temps := fun t' ht' => hfresh t' (List.mem_cons_of_mem _ ht')
    have hnext : ∀ t' ∈ c.temps :: rest, t' < c.temps + 1 := by
      intro t' ht'
      rcases List.mem_cons.mp ht' with rfl | ht'
      · exact Nat.lt_succ_self _
      · exact Nat.lt_succ_of_lt (hrest t' ht')
    refine ⟨_, Silent.single hmove, ?_⟩
    refine hh.advance h rfl rfl ?_ ?_ h.world rfl rfl rfl rfl rfl rfl rfl h.locals
    · rw [List.map_cons, value_setTemp_self, map_setTemp hnext, List.map_cons, value_setTemp_self,
        map_setTemp hrest]
      rfl
    · refine holds_setTemp (holds_setTemp (fun t' ht' => ?_) hrest _) hnext _
      exact hh.holds t' (hst ▸ List.mem_cons_of_mem _ ht')

omit [Reading P] in
theorem matched_swap (hh : Here shared f s q .swap c e) (h : Follows shared f final s q) :
    Matched P shared f final s q .swap := by
  intro fr w ev hx
  rcases hst : c.stack with _ | ⟨t₁, _ | ⟨t₂, rest⟩⟩
  · cases hh.emission_eq hst
  · cases hh.emission_eq hst
  · simp only [Frame.exec, hh.stack_eq hst, List.map_cons] at hx
    cases hx
    obtain rfl := Option.some.inj (hh.emission_eq hst)
    exact ⟨q, .refl q, hh.advance h rfl rfl rfl (fun t ht => hh.holds t (by
      simp only [hst, List.mem_cons] at ht ⊢
      rcases ht with h | h | h <;> simp [h])) h.world
      rfl rfl rfl rfl rfl rfl rfl h.locals⟩

omit [Reading P] in
theorem matched_pop (hh : Here shared f s q .pop c e) (h : Follows shared f final s q) :
    Matched P shared f final s q .pop := by
  intro fr w ev hx
  rcases hst : c.stack with _ | ⟨t, rest⟩
  · cases hh.emission_eq hst
  · simp only [Frame.exec, hh.stack_eq hst, List.map_cons] at hx
    cases hx
    obtain rfl := Option.some.inj (hh.emission_eq hst)
    exact ⟨q, .refl q, hh.advance h rfl rfl rfl
      (fun t ht => hh.holds t (hst ▸ List.mem_cons_of_mem _ ht)) h.world
      rfl rfl rfl rfl rfl rfl rfl h.locals⟩

/-- The depth of the operand stack where an instruction fixes it. -/
theorem Here.depth_eq (hw : WellEmitted f) (hh : Here shared f s q i c e) :
    ∃ d, i.depth c.stack.length = some d := by
  obtain ⟨⟨lo, hi, hseg⟩, -⟩ := id hw
  obtain ⟨k, k', hk, hd, -⟩ := LabelsLemmas.depth_at hseg.depth_eq hh.instruction
  rw [hh.tracks.depth, Option.some.injEq] at hk
  exact ⟨k', hk ▸ hd⟩

theorem matched_goto {l : Nat} (hw : WellEmitted f) (hc : ConstantsInRange f)
    (hf : Compiler.compile shared f = some final) (hh : Here shared f s q (.goto l) c e)
    (h : Follows shared f final s q) : Matched P shared f final s q (.goto l) := by
  intro fr w ev hx
  cases hx
  obtain ⟨d, hd⟩ := hh.depth_eq hw
  simp only [Instruction.depth, Instruction.effect, Option.ite_none_right_eq_some] at hd
  obtain rfl := Option.some.inj hh.emission
  have hmove := move_eq P (hh.code 0 _ rfl) trivial
  have hstack : s.1.stack = [] := by
    rw [hh.stack, List.length_eq_zero_iff.mp hd.1]
    rfl
  have hjump := follows_jump hw hc hf h (jump_lands hw hh.instruction rfl) _ hstack
  rw [← h.world] at hjump ⊢
  exact ⟨_, Silent.single hmove, hjump⟩

theorem matched_ifTrue {l : Nat} (hw : WellEmitted f) (hc : ConstantsInRange f)
    (hf : Compiler.compile shared f = some final) (hh : Here shared f s q (.ifTrue l) c e)
    (h : Follows shared f final s q) : Matched P shared f final s q (.ifTrue l) := by
  intro fr w ev hx
  obtain ⟨d, hd⟩ := hh.depth_eq hw
  simp only [Instruction.depth, Instruction.effect, Option.ite_none_right_eq_some] at hd
  obtain ⟨t, hst⟩ := List.length_eq_one_iff.mp hd.1
  simp only [Frame.exec, hh.stack_eq hst, List.map_cons, List.map_nil] at hx
  obtain ⟨b, hb, hx⟩ := bind_ok.mp hx
  have htemp : q.1.value t = .boolean b := by
    cases ht : q.1.value t with
    | boolean b' => rw [ht] at hb; cases hb; rfl
    | _ => rw [ht] at hb; cases hb
  have hemit := (Option.some.inj (hh.emission_eq hst)).symm
  have hcheck := silent_checks P (q := q) (l := [(.bool, t)]) [.condJump t l]
    (by rw [hemit] at hh; exact hh.code) (fun p hp => by
      rw [List.mem_singleton.mp hp]
      exact hh.read hst (by simp) q.1.ip) (fun p hp => by
      rw [List.mem_singleton.mp hp]
      simp only [htemp, Assert.check])
  have hmove := move_eq P (q := ({ q.1 with ip := q.1.ip + 1 }, q.2))
    (hh.code 1 (.condJump t l) (by rw [hemit]; rfl)) trivial
  simp only [Activation.exec, hh.read hst (t := t) (by simp) (q.1.ip + 1), ok_bind, htemp] at hmove
  cases b with
  | true =>
    simp only [if_true] at hx
    cases hx
    simp only [if_true] at hmove
    have hjump := follows_jump hw hc hf h (jump_lands hw hh.instruction rfl) [] rfl
    rw [← h.world] at hjump ⊢
    exact ⟨_, hcheck.trans (Silent.single hmove), hjump⟩
  | false =>
    simp only [Bool.false_eq_true, if_false] at hx
    cases hx
    simp only [Value.boolean.injEq, Bool.false_eq_true, if_false] at hmove
    refine ⟨_, hcheck.trans (Silent.single hmove), ?_⟩
    rw [hemit] at hh
    exact hh.advance h rfl rfl rfl (List.forall_mem_nil _) h.world rfl rfl rfl rfl rfl rfl rfl
      h.locals

end Matched

/-- One step of `run_function` is followed. -/
theorem follows_step (hw : WellEmitted f) (hc : ConstantsInRange f)
    (hf : Compiler.compile shared f = some final) {s s' : Frame × World} {q : Activation × World}
    {es : List Event} (h : Follows shared f final s q) (hok : LogicalOperands s)
    (hfits : FittingProduct (Reading.fit P) s) (hs : Frame.move s = .ok (.step es s')) :
    ∃ q', Silent P q es q' ∧ Follows shared f final s' q' := by
  obtain ⟨i, ev, hi, hx, rfl⟩ := frame_step hs
  obtain ⟨c, e, hh⟩ := here hw hc hf h (h.function ▸ hi)
  have hm : Matched P shared f final s q i := by
    cases i with
    | loadConst k => exact matched_loadConst hh h
    | loadFunc k => exact matched_loadFunc hh h
    | loadLocal k => exact matched_loadLocal hh h
    | storeLocal k => exact matched_storeLocal hh h
    | loadGlobal k => exact matched_loadGlobal hh h
    | storeGlobal k => exact matched_storeGlobal hh h
    | pushReference k => exact matched_pushReference hh h
    | loadReference k => exact matched_loadReference hh h
    | storeReference k => exact matched_storeReference hh h
    | allocRecord => exact matched_allocRecord hh h
    | fieldLoad k => exact matched_fieldLoad hh h
    | fieldStore k => exact matched_fieldStore hh h
    | indexLoad => exact matched_indexLoad hh h
    | indexStore => exact matched_indexStore hh h
    | allocClosure k => exact matched_allocClosure hh h
    | add => exact matched_add hh h
    | sub => exact matched_sub hh h
    | mul => exact matched_mul hh h hfits
    | div => exact matched_div hh h
    | neg => exact matched_neg hh h
    | gt => exact matched_gt hh h
    | geq => exact matched_geq hh h
    | eq => exact matched_eq hh h
    | and => exact matched_and hh h hok
    | or => exact matched_or hh h hok
    | not => exact matched_not hh h
    | goto l => exact matched_goto hw hc hf hh h
    | ifTrue l => exact matched_ifTrue hw hc hf hh h
    | dup => exact matched_dup hh h
    | swap => exact matched_swap hh h
    | pop => exact matched_pop hh h
    | label l => exact matched_label hh h
    | call k =>
      simp only [Frame.exec] at hx
      split at hx
      · obtain ⟨r, -, hx⟩ := bind_ok.mp hx
        cases hx
      · cases hx
    | ret =>
      simp only [Frame.exec] at hx
      split at hx <;> cases hx
    | garbageCollect => cases hx
    | throwUninitialized k =>
      obtain ⟨name, -, hx⟩ := bind_ok.mp hx
      cases hx
  exact hm _ _ _ hx

/-- A request of `run_function` is asked by the emitted code. -/
theorem follows_ask (hw : WellEmitted f) (hc : ConstantsInRange f)
    (hf : Compiler.compile shared f = some final) {s : Frame × World} {q : Activation × World}
    {r : Request × World} {next : Value × World → Frame × World}
    (h : Follows shared f final s q) (hs : Frame.move s = .ok (.ask r next)) :
    ∃ q' next', Silent P q [] q' ∧ P q' = .ok (.ask r next') ∧
      ∀ a, ∃ q'', Silent P (next' a) [] q'' ∧
        Follows shared f final (next a) q'' := by
  obtain ⟨i, hi, hx⟩ := frame_ask hs
  obtain ⟨c, e, hh⟩ := here hw hc hf h (h.function ▸ hi)
  rcases hx with ⟨g, as, fr, hx, rfl, rfl⟩ | ⟨fr, hx, rfl, rfl⟩
  · obtain ⟨fr', w', ev, ho⟩ | ⟨k, rfl⟩ | rfl | rfl := exec_outcome hx
    · cases ho
    -- a call: the callee is on top of the stack, its arguments below
    · rcases hst : c.stack with _ | ⟨t, rest⟩
      · cases hh.emission_eq hst
      · have hemit := hh.emission_eq hst
        simp only [translate, Option.ite_none_right_eq_some] at hemit
        obtain ⟨hk, hemit⟩ := hemit
        obtain rfl := Option.some.inj hemit
        simp only [Frame.exec, hh.stack_eq hst, List.map_cons, Frame.popMany, List.length_map, hk,
          if_true, List.splitAt_eq, ok_bind] at hx
        cases hx
        have hmove := move_eq P (hh.code 0 _ rfl) trivial
        have hr : ∀ t ∈ rest.drop k, t ∈ c.stack := fun t ht =>
          hst ▸ List.mem_cons_of_mem _ (List.mem_of_mem_drop ht)
        have hargs := hh.mapM_read hst (l := (rest.take k).reverse) fun t ht =>
          List.mem_cons_of_mem _ (List.mem_of_mem_take (List.mem_reverse.mp ht))
        refine ⟨q, fun a => ({ q.1.advance with retVal := a.1 }, a.2), .refl q, ?_, fun a => ?_⟩
        · rw [hmove]
          simp only [Activation.exec, hh.read hst (t := t) (by simp) q.1.ip, hargs, ok_bind,
            h.world, List.map_reverse, List.map_take]
        · have hdone := help_case P (v := a.1) hh h a.2 rfl hr
          rwa [List.map_drop] at hdone
    · cases hx
    · simp only [Frame.exec] at hx
      split at hx <;> cases hx
  · obtain ⟨fr', w', ev, ho⟩ | ⟨k, rfl⟩ | rfl | rfl := exec_outcome hx
    · cases ho
    · simp only [Frame.exec] at hx
      split at hx
      · obtain ⟨r, -, hx⟩ := bind_ok.mp hx
        cases hx
      · cases hx
    · cases hx
      obtain ⟨d, hd⟩ := hh.depth_eq hw
      simp only [Instruction.depth, Instruction.effect, Option.ite_none_right_eq_some] at hd
      obtain rfl := Option.some.inj hh.emission
      have hmove := move_eq P (hh.code 0 _ rfl) trivial
      have hstack : s.1.stack = [] := by
        rw [hh.stack, List.length_eq_zero_iff.mp hd.1]
        rfl
      refine ⟨q, fun a => (q.1.advance, a.2), .refl q, ?_, fun a => ⟨_, .refl _, ?_⟩⟩
      · rw [hmove]
        simp only [Activation.exec, List.mapM_nil, pure_ok, ok_bind, h.world, h.locals,
          h.references,
          Frame.advance, hstack]
      · exact hh.advance h rfl rfl hh.stack hh.holds rfl rfl rfl rfl rfl rfl rfl rfl h.locals
    · simp only [Frame.exec] at hx
      split at hx <;> cases hx

/-- The emitted code returns what `run_function` returns. -/
theorem follows_stop (hw : WellEmitted f) (hc : ConstantsInRange f)
    (hf : Compiler.compile shared f = some final) {s : Frame × World} {q : Activation × World}
    {v : Value} {w : World} (h : Follows shared f final s q)
    (hs : Frame.move s = .ok (.stop (some v, w))) :
    P q = .ok (.stop (some v, w)) := by
  obtain ⟨i, hi, hx, rfl⟩ := frame_stop hs
  obtain ⟨c, e, hh⟩ := here hw hc hf h (h.function ▸ hi)
  obtain ⟨fr', w', ev, ho⟩ | ⟨k, rfl⟩ | rfl | rfl := exec_outcome hx
  · cases ho
  · simp only [Frame.exec] at hx
    split at hx
    · obtain ⟨r, -, hx⟩ := bind_ok.mp hx
      cases hx
    · cases hx
  · cases hx
  · rcases hst : c.stack with _ | ⟨t, rest⟩
    · cases hh.emission_eq hst
    · simp only [Frame.exec, hh.stack_eq hst, List.map_cons] at hx
      cases hx
      obtain rfl := Option.some.inj (hh.emission_eq hst)
      rw [move_eq P (hh.code 0 _ rfl) trivial, ← h.world]
      simp only [Activation.exec, hh.read hst (t := t) (by simp) q.1.ip, ok_bind]

theorem fittingProduct_true (s : Frame × World) : FittingProduct (fun _ _ => True) s := by
  unfold FittingProduct
  split
  · trivial
  · trivial

theorem simulation (hw : WellEmitted f) (hc : ConstantsInRange f)
    (hf : Compiler.compile shared f = some final) :
    Simulation Frame.move Activation.move LogicalOperands (Follows shared f final) where
  step {s _ _ _} h hok hs := follows_step hw hc hf h hok (fittingProduct_true s) hs
  ask h _ hs := follows_ask hw hc hf h hs

/-- A frame that is about to start, and compiled code in its place. -/
theorem follows_start {fr : Frame} {w : World} {temps : Nat → Option Value} {retVal : Value}
    (hfn : fr.function = f) (hip : fr.ip = 0) (hst : fr.stack = []) :
    Follows shared f final (fr, w) (Activation.of fr final temps retVal, w) := by
  refine ⟨rfl, hfn, hfn, rfl, rfl, rfl, rfl, ?_, Compiler.new shared f, ?_, rfl, ?_⟩
  · show fr.ip ≤ _
    rw [hip]
    exact Nat.zero_le _
  · show Compiler.upto shared f fr.ip = _
    rw [hip]
    rfl
  · exact ⟨hst, nofun⟩

end TranslationLemmas

/-! ## The translation -/

/-- The function `f` is translated, and each run of its code that ends at a
return, and whose states satisfy `ok`, is a run of the translation. -/
def TranslationSimulates (shared : Operands) (f : Function) (ok : Frame × World → Prop) : Prop :=
  ∃ c, Compiler.compile shared f = some c ∧
    ∀ (env : Request × World → Value × World → Prop) (fr : Frame) (w w' : World)
      (temps : Nat → Option Value) (retVal v : Value)
      (t : List (Label Event (Request × World) (Value × World))),
      fr.function = f → fr.ip = 0 → fr.stack = [] →
      Ends Frame.move env ok (fr, w) t (some v, w') →
      Ends Activation.move env (fun _ => True) (Activation.of fr c temps retVal, w) t (some v, w')

/-- The translation of a function of a compiled program is a simulation, of
every run in which `And` and `Or` find booleans. -/
theorem translation_simulates (prog : Program) {f : Function}
    (h : SubFunction (Beaverc.compile prog) f)
    (hc : ConstantsInRange f) (shared : Operands) :
    TranslationSimulates shared f LogicalOperands := by
  have hw := compile_wellEmitted prog h
  obtain ⟨c, hup, ht⟩ := upto_tracks shared hw hc le_rfl
  have hf : Compiler.compile shared f = some c := compile_eq_upto ▸ hup
  refine ⟨c, hf, fun env fr w w' temps retVal v t hfn hip hst hends => ?_⟩
  have hstart : Follows shared f c (fr, w) (Activation.of fr c temps retVal, w) :=
    follows_start hfn hip hst
  exact (simulation hw hc hf).ends
    (fun hR _ hs => ⟨_, .refl _, follows_stop hw hc hf hR hs⟩) hends hstart

/-! ## A run that is followed -/

/-- `f = fun() { return false & true; };` -/
def conjunction : Program :=
  .cons (.assignment (.name "f") (.function []
    (.cons (.ret (.binaryOp .and (.boolConst false) (.boolConst true))) .nil))) .nil

/-- The function in it. -/
def conjunctionFunction : Function :=
  { constants := [.boolean false, .boolean true, .none]
    instructions := [.loadConst 0, .loadConst 1, .and, .ret, .loadConst 2, .ret] }

namespace TranslationLemmas

theorem conjunction_sub : SubFunction (Beaverc.compile conjunction) conjunctionFunction := by
  have hfs : (Beaverc.compile conjunction).functions = [conjunctionFunction] := rfl
  exact .step (.refl _) (by rw [hfs]; exact List.mem_singleton.mpr rfl)

theorem conjunction_constants (left right : Constant) : ConstantsInRange
    { constants := [left, right, .none]
      instructions := [.loadConst 0, .loadConst 1, .and, .ret, .loadConst 2, .ret] } := by
  intro k hk
  simp only [List.mem_cons, Instruction.loadConst.injEq, reduceCtorEq, List.not_mem_nil, or_false,
    false_or] at hk
  rcases hk with rfl | rfl | rfl
  · exact Nat.zero_lt_succ _
  · exact Nat.one_lt_succ_succ _
  · exact Nat.lt_succ_self _

/-- The right operand is a boolean although `And` does not look at it. -/
theorem conjunction_ends (w : World) : Ends Frame.move (fun _ _ => False) LogicalOperands
    (⟨0, conjunctionFunction, [], [], [], 0⟩, w) [] (some (.boolean false), w) := by
  have hand : LogicalOperands
      (⟨0, conjunctionFunction, [], [], [.boolean true, .boolean false], 2⟩, w) := ⟨true, rfl⟩
  have hrun : Run Frame.move (fun _ _ => False) LogicalOperands 3
      (⟨0, conjunctionFunction, [], [], [], 0⟩, w) []
      (⟨0, conjunctionFunction, [], [], [.boolean false], 3⟩, w) :=
    .quiet trivial rfl (.quiet trivial rfl (.quiet hand rfl (.refl _)))
  exact ⟨3, _, hrun, trivial, rfl⟩

end TranslationLemmas

theorem translation_simulates_conjunction : ∃ c,
    Compiler.compile .fresh conjunctionFunction = some c ∧
      ∀ (w : World) (temps : Nat → Option Value) (retVal : Value),
        Ends Activation.move (fun _ _ => False) (fun _ => True)
          (Activation.of ⟨0, conjunctionFunction, [], [], [], 0⟩ c temps retVal, w) []
          (some (.boolean false), w) := by
  obtain ⟨c, hc, hruns⟩ :=
    translation_simulates conjunction conjunction_sub (conjunction_constants _ _) .fresh
  refine ⟨c, hc, fun w temps retVal => ?_⟩
  exact hruns _ _ w w temps retVal _ _ rfl rfl rfl (conjunction_ends w)

/-! ## A run that is not followed -/

/-- `f = fun() { return false & 3; };` -/
def shortCircuit : Program :=
  .cons (.assignment (.name "f") (.function []
    (.cons (.ret (.binaryOp .and (.boolConst false) (.intConst 3))) .nil))) .nil

/-- The function in it. -/
def shortCircuitFunction : Function :=
  { constants := [.boolean false, .integer 3, .none]
    instructions := [.loadConst 0, .loadConst 1, .and, .ret, .loadConst 2, .ret] }

namespace TranslationLemmas

theorem shortCircuit_sub : SubFunction (Beaverc.compile shortCircuit) shortCircuitFunction := by
  have hfs : (Beaverc.compile shortCircuit).functions = [shortCircuitFunction] := rfl
  exact .step (.refl _) (by rw [hfs]; exact List.mem_singleton.mpr rfl)

theorem shortCircuit_constants : ConstantsInRange shortCircuitFunction :=
  conjunction_constants _ _

theorem shortCircuit_code (shared : Operands) :
    (Compiler.compile shared shortCircuitFunction).map Compiler.instructions = some
      [.assign 0 (.const (.boolean false)), .assign 1 (.const (.integer 3)),
        .callAssert .bool 1, .callAssert .bool 0, .binOp .and 2 1 0, .ret 2,
        .assign 3 (.const .none), .ret 3] := by
  rfl

end TranslationLemmas

/-- `false & 3` is `false` for `run_function`, and an illegal cast for the
translation. -/
theorem shortCircuit_not_simulated :
    SubFunction (Beaverc.compile shortCircuit) shortCircuitFunction ∧
      ConstantsInRange shortCircuitFunction ∧
      ¬ TranslationSimulates .fresh shortCircuitFunction (fun _ => True) := by
  refine ⟨shortCircuit_sub, shortCircuit_constants, ?_⟩
  rintro ⟨c, hc, hrun⟩
  have hcode := shortCircuit_code .fresh
  rw [hc] at hcode
  replace hcode := Option.some.inj hcode
  let w : World := ⟨CollectedHeap.empty (.x64 false false), 0, [], [], []⟩
  let fr : Frame := ⟨0, shortCircuitFunction, [], [], [], 0⟩
  have hvm : Silent Frame.move (fr, w) [] ({ fr with stack := [.boolean false], ip := 3 }, w) :=
    .quiet rfl (.quiet rfl (.quiet rfl (.refl _)))
  obtain ⟨n, hn⟩ := hvm.run
  have hends := hrun (fun _ _ => False) fr w w (fun _ => none) .none (.boolean false) [] rfl rfl
    rfl ⟨n, _, hn, trivial, rfl⟩
  unfold Activation.of at hends
  rw [hcode] at hends
  obtain ⟨u, m, q, hr, -, hs⟩ := Silent.ends
    (.quiet rfl (.quiet rfl (.refl _))) hends
  -- the next instruction checks that 3 is a boolean
  cases hr with
  | refl => cases hs
  | step _ hstep _ => cases hstep
  | ask _ hask _ _ => cases hask

end Beaverc.Ir

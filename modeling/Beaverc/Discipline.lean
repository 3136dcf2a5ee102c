import Beaverc.Compiler

/-!
# The shape of emitted code

Every function the compiler emits is a `Segment`: a sequence of plain code,
branches and loops in which

* the operand stack is empty at every label, jump and collection point, and
  holds exactly one value at every conditional jump and return (`depth`);
* the labels are numbered from a range, each of them is bound once, and each
  jump goes to a label of the same segment.

`Grows` relates the compiler's state before and after a piece of syntax is
transpiled: which tables only grow, which do not change, and which code was
appended.
-/

namespace Beaverc
open Tables

/-! ## Stack effects -/

/-- The values an instruction pops and pushes; `none` for the instructions that
fix the whole depth. -/
def Instruction.effect : Instruction → Option (Nat × Nat)
  | .loadConst _ | .loadFunc _ | .loadLocal _ | .loadGlobal _ | .pushReference _
  | .loadReference _ | .allocRecord => some (0, 1)
  | .storeLocal _ | .storeGlobal _ | .storeReference _ | .pop => some (1, 0)
  | .fieldLoad _ | .neg | .not => some (1, 1)
  | .fieldStore _ => some (2, 0)
  | .indexLoad | .add | .sub | .mul | .div | .gt | .geq | .eq | .and | .or => some (2, 1)
  | .indexStore => some (3, 0)
  | .allocClosure n => some (n + 1, 1)
  | .call n => some (n + 1, 1)
  | .dup => some (1, 2)
  | .swap => some (2, 2)
  | .throwUninitialized _ => some (0, 0)
  | .ret | .goto _ | .ifTrue _ | .garbageCollect | .label _ => none

/-- The depth after an instruction, when its operands are there. -/
def Instruction.depth (i : Instruction) (d : Nat) : Option Nat :=
  match i.effect with
  | some (pops, pushes) => if pops ≤ d then some (d - pops + pushes) else none
  | none =>
    match i with
    | .ret | .ifTrue _ => if d = 1 then some 0 else none
    | _ => if d = 0 then some 0 else none

/-- The depth after a list of instructions read from first to last. -/
def depth (d : Nat) : List Instruction → Option Nat
  | [] => some d
  | i :: is => (i.depth d).bind fun d => depth d is

/-- An instruction that is no label and no jump. -/
def Instruction.isPlain : Instruction → Bool
  | .goto _ | .ifTrue _ | .label _ => false
  | _ => true

def Plain (code : List Instruction) : Prop :=
  ∀ i, i ∈ code → i.isPlain = true

/-- Code that turns depth `d + k` into `d + m` for every `d`. -/
def Effect (k m : Nat) (code : List Instruction) : Prop :=
  Plain code ∧ ∀ d, depth (d + k) code = some (d + m)

/-- Code with labels from `lo` up to but not including `hi`. -/
inductive Segment : Nat → Nat → List Instruction → Prop
  | plain {lo hi : Nat} {code : List Instruction} :
      lo ≤ hi → Plain code → depth 0 code = some 0 → Segment lo hi code
  | append {lo mid hi : Nat} {c₁ c₂ : List Instruction} :
      Segment lo mid c₁ → Segment mid hi c₂ → Segment lo hi (c₁ ++ c₂)
  | branch {n lo mid hi : Nat} {cond c₁ c₂ : List Instruction} :
      n + 3 ≤ lo → Effect 0 1 cond → Segment lo mid c₁ → Segment mid hi c₂ →
      Segment n hi (cond ++ [.ifTrue n, .goto (n + 1), .label n] ++ c₁ ++
        [.goto (n + 2), .label (n + 1)] ++ c₂ ++ [.label (n + 2)])
  | loop {n lo hi : Nat} {cond body : List Instruction} :
      n + 3 ≤ lo → Effect 0 1 cond → Segment lo hi body →
      Segment n hi ([.label n, .garbageCollect] ++ cond ++
        [.ifTrue (n + 1), .goto (n + 2), .label (n + 1)] ++ body ++ [.goto n, .label (n + 2)])

/-- The positions of the labels of a code list, the last label first. -/
def labelTable (code : List Instruction) : List (Nat × Nat) :=
  (code.zipIdx.filterMap fun p =>
    match p.1 with
    | .label l => some (l, p.2)
    | _ => none).reverse

/-- A function whose code is a segment and whose label map describes it. -/
def WellEmitted (f : Function) : Prop :=
  (∃ lo hi, Segment lo hi f.instructions) ∧ f.labels = labelTable f.instructions

namespace DisciplineLemmas

theorem depth_append (d : Nat) (a b : List Instruction) :
    depth d (a ++ b) = (depth d a).bind fun m => depth m b := by
  induction a generalizing d with
  | nil => rfl
  | cons i is ih =>
    simp only [List.cons_append, depth]
    cases i.depth d with
    | none => rfl
    | some m => exact ih m

theorem plain_append {a b : List Instruction} : Plain (a ++ b) ↔ Plain a ∧ Plain b := by
  unfold Plain
  simp only [List.mem_append]
  exact ⟨fun h => ⟨fun i hi => h i (.inl hi), fun i hi => h i (.inr hi)⟩,
    fun h i hi => hi.elim (h.1 i) (h.2 i)⟩

theorem effect_nil (k : Nat) : Effect k k [] :=
  ⟨fun _ h => absurd h List.not_mem_nil, fun _ => rfl⟩

/-- The effects of consecutive pieces compose, whatever lies below them. -/
theorem effect_append {k m n r : Nat} {a b : List Instruction} (ha : Effect k m a)
    (hb : Effect n r b) (hnm : n ≤ m) : Effect k (m - n + r) (a ++ b) := by
  refine ⟨plain_append.mpr ⟨ha.1, hb.1⟩, fun d => ?_⟩
  rw [depth_append, ha.2 d]
  have h := hb.2 (d + (m - n))
  rw [show d + (m - n) + n = d + m by omega] at h
  simpa [Nat.add_assoc] using h

theorem effect_weaken {k m : Nat} {a : List Instruction} (h : Effect k m a) (j : Nat) :
    Effect (k + j) (m + j) a := by
  refine ⟨h.1, fun d => ?_⟩
  have h' := h.2 (d + j)
  rw [show d + (k + j) = d + j + k by omega, h']
  congr 1
  omega

theorem effect_single {i : Instruction} {k m : Nat} (hp : i.isPlain = true)
    (he : i.effect = some (k, m)) : Effect k m [i] := by
  refine ⟨fun j hj => by rw [List.mem_singleton.mp hj]; exact hp, fun d => ?_⟩
  simp [depth, Instruction.depth, he]

theorem labelTable_snoc (code : List Instruction) (i : Instruction) :
    labelTable (code ++ [i]) =
      (match i with
        | .label l => [(l, code.length)]
        | _ => []) ++ labelTable code := by
  unfold labelTable
  rw [List.zipIdx_append, List.filterMap_append, List.reverse_append]
  cases i <;> simp

end DisciplineLemmas

open DisciplineLemmas

/-! ## The growth of the compiler's state -/

/-- The part of a node that is fixed before the body is transpiled. -/
structure Layout where
  parameterCount : Nat
  localVars : List String
  localReferenceVars : List String
  freeVars : List String
  freeReferenceVars : List String

def Node.layout (n : Node) : Layout :=
  ⟨n.function.parameterCount, n.function.localVars, n.function.localReferenceVars,
    n.function.freeVars, n.freeReferenceVars⟩

/-- `Grows s s' code`: going from `s` to `s'` the compiler appended `code` to
the function in hand and otherwise only extended its tables; the functions it
added are well emitted. -/
structure Grows (s s' : State) (code : List Instruction) : Prop where
  code_eq : s'.node.function.instructions = s.node.function.instructions ++ code
  labels : s.node.function.labels = labelTable s.node.function.instructions →
    s'.node.function.labels = labelTable s'.node.function.instructions
  labelNum : s.labelNum ≤ s'.labelNum
  layout : s'.node.layout = s.node.layout
  constants : s.node.function.constants <+: s'.node.function.constants
  names : s.node.function.names <+: s'.node.function.names
  functions : ∃ new, s'.node.function.functions = s.node.function.functions ++ new ∧
    ∀ f ∈ new, ∀ g, SubFunction f g → WellEmitted g

theorem Grows.refl (s : State) : Grows s s [] :=
  ⟨by simp, id, le_rfl, rfl, List.prefix_rfl, List.prefix_rfl, [], by simp,
    fun _ h => absurd h List.not_mem_nil⟩

theorem Grows.trans {s₁ s₂ s₃ : State} {a b : List Instruction} (h₁ : Grows s₁ s₂ a)
    (h₂ : Grows s₂ s₃ b) : Grows s₁ s₃ (a ++ b) := by
  refine ⟨?_, h₂.labels ∘ h₁.labels, h₁.labelNum.trans h₂.labelNum, h₂.layout.trans h₁.layout,
    h₁.constants.trans h₂.constants, h₁.names.trans h₂.names, ?_⟩
  · rw [h₂.code_eq, h₁.code_eq, List.append_assoc]
  · obtain ⟨new₁, he₁, hw₁⟩ := h₁.functions
    obtain ⟨new₂, he₂, hw₂⟩ := h₂.functions
    refine ⟨new₁ ++ new₂, by rw [he₂, he₁, List.append_assoc], fun f hf => ?_⟩
    rcases List.mem_append.mp hf with hf | hf
    · exact hw₁ f hf
    · exact hw₂ f hf

namespace DisciplineLemmas

theorem grows_output {i : Instruction} (hl : ∀ l, i ≠ .label l) (s : State) :
    Grows s (s.output i) [i] := by
  refine ⟨rfl, fun h => ?_, le_rfl, rfl, List.prefix_rfl, List.prefix_rfl, [], by
    simp [State.output, State.modifyFunction, State.modifyNode],
    fun _ h => absurd h List.not_mem_nil⟩
  show s.node.function.labels = labelTable (s.node.function.instructions ++ [i])
  rw [labelTable_snoc, h]
  cases i with
  | label l => exact absurd rfl (hl l)
  | _ => rfl

theorem grows_outputLabel (l : Nat) (s : State) : Grows s (s.outputLabel l) [.label l] := by
  refine ⟨rfl, fun h => ?_, le_rfl, rfl, List.prefix_rfl, List.prefix_rfl, [], by
    simp [State.outputLabel, State.output, State.modifyFunction, State.modifyNode],
    fun _ h => absurd h List.not_mem_nil⟩
  show (l, s.count) :: s.node.function.labels =
    labelTable (s.node.function.instructions ++ [.label l])
  rw [labelTable_snoc, h]
  rfl

theorem grows_loadConst (c : Constant) (s : State) :
    ∃ i, Grows s (s.loadConst c) [.loadConst i] := by
  refine ⟨insertIndex s.node.function.constants c, rfl, fun h => ?_, le_rfl, rfl,
    prefix_insert _ _, List.prefix_rfl, [], by
    simp [State.loadConst, State.output, State.modifyFunction, State.modifyNode],
    fun _ h => absurd h List.not_mem_nil⟩
  show s.node.function.labels = labelTable (s.node.function.instructions ++ [.loadConst _])
  rw [labelTable_snoc, h]
  rfl

theorem grows_insertName (x : String) (s : State) : Grows s (s.insertName x) [] :=
  ⟨by simp [State.insertName, State.modifyFunction, State.modifyNode], id, le_rfl, rfl,
    List.prefix_rfl, prefix_insert _ _, [], by
    simp [State.insertName, State.modifyFunction, State.modifyNode],
    fun _ h => absurd h List.not_mem_nil⟩

/-- A change of the node that keeps its function and its layout. -/
theorem grows_modifyNode {f : Node → Node} {s : State} (hf : (f s.node).function = s.node.function)
    (hr : (f s.node).freeReferenceVars = s.node.freeReferenceVars) :
    Grows s (s.modifyNode f) [] := by
  refine ⟨?_, fun h => ?_, le_rfl, ?_, ?_, ?_, [], ?_, fun _ h => absurd h List.not_mem_nil⟩
  all_goals simp only [State.modifyNode, Node.layout, hf, hr, List.append_nil]
  · exact h
  · exact List.prefix_rfl
  · exact List.prefix_rfl

theorem grows_labelNum {s : State} {n : Nat} (h : s.labelNum ≤ n) :
    Grows s { s with labelNum := n } [] :=
  ⟨by simp, id, h, rfl, List.prefix_rfl, List.prefix_rfl, [], by simp,
    fun _ h => absurd h List.not_mem_nil⟩

theorem grows_outputReturn (s : State) : Grows s s.outputReturn [.ret] :=
  (grows_output (fun _ => by simp) s).trans (grows_modifyNode rfl rfl)

theorem isPlain_of_effect {i : Instruction} {p : Nat × Nat} (h : i.effect = some p) :
    i.isPlain = true := by
  cases i <;> first | rfl | exact absurd h (by simp [Instruction.effect])

end DisciplineLemmas

open DisciplineLemmas

/-- The compiler went from `s` to `s'` emitting code without labels or jumps that
turns depth `d + k` into `d + m`. -/
def Emits (k m : Nat) (s s' : State) : Prop :=
  ∃ code, Grows s s' code ∧ Effect k m code

/-- The compiler went from `s` to `s'` emitting a segment. -/
def EmitsSegment (s s' : State) : Prop :=
  ∃ code, Grows s s' code ∧ Segment s.labelNum s'.labelNum code

namespace Emits

theorem refl (k : Nat) (s : State) : Emits k k s s :=
  ⟨[], Grows.refl s, effect_nil k⟩

theorem trans {k m n r : Nat} {s₁ s₂ s₃ : State} (h₁ : Emits k m s₁ s₂) (h₂ : Emits n r s₂ s₃)
    (hnm : n ≤ m) : Emits k (m - n + r) s₁ s₃ := by
  obtain ⟨a, ha, hea⟩ := h₁
  obtain ⟨b, hb, heb⟩ := h₂
  exact ⟨a ++ b, ha.trans hb, effect_append hea heb hnm⟩

theorem grows {k m : Nat} {s₁ s₂ s₃ : State} (h₁ : Emits k m s₁ s₂) (h₂ : Grows s₂ s₃ []) :
    Emits k m s₁ s₃ := by
  obtain ⟨a, ha, hea⟩ := h₁
  exact ⟨a, by simpa using ha.trans h₂, hea⟩

theorem output {k m : Nat} {s s' : State} (h : Emits k m s s') (i : Instruction) {n r : Nat}
    (hi : i.effect = some (n, r)) (hnm : n ≤ m) : Emits k (m - n + r) s (s'.output i) := by
  have hp := isPlain_of_effect hi
  refine h.trans ⟨[i], grows_output (fun l hl => ?_) s', effect_single hp hi⟩ hnm
  rw [hl] at hp
  exact absurd hp (by simp [Instruction.isPlain])

theorem weaken {k m : Nat} {s s' : State} (h : Emits k m s s') (j : Nat) :
    Emits (k + j) (m + j) s s' := by
  obtain ⟨a, ha, hea⟩ := h
  exact ⟨a, ha, effect_weaken hea j⟩

theorem segment {s s' : State} (h : Emits 0 0 s s') : EmitsSegment s s' := by
  obtain ⟨a, ha, hea⟩ := h
  exact ⟨a, ha, .plain ha.labelNum hea.1 (hea.2 0)⟩

end Emits

/-! ## Names -/

namespace DisciplineLemmas

theorem visitName_load (isGlobal : Bool) (x : String) (s : State) :
    Emits 0 1 s (visitName isGlobal false x s) := by
  have one : ∀ i : Instruction, i.effect = some (0, 1) → Emits 0 1 s (s.output i) :=
    fun i hi => (Emits.refl 0 s).output i hi (Nat.zero_le _)
  simp only [visitName, Bool.false_and, Bool.false_eq_true, ↓reduceIte]
  split
  · exact one _ rfl
  · split
    · exact one _ rfl
    · split
      · exact one _ rfl
      · split
        · exact one _ rfl
        · have h := (Emits.refl 0 s).grows (grows_insertName x s)
          exact (h.output (.loadConst 0) rfl (Nat.zero_le _)).output (.throwUninitialized _) rfl
            (Nat.zero_le _)

theorem visitName_store (isGlobal : Bool) (x : String) (s : State) :
    Emits 1 0 s (visitName isGlobal true x s) := by
  have one : ∀ i : Instruction, i.effect = some (1, 0) → Emits 1 0 s (s.output i) :=
    fun i hi => (Emits.refl 1 s).output i hi le_rfl
  simp only [visitName, Bool.true_and, ↓reduceIte]
  split
  · exact one _ rfl
  · split
    · exact one _ rfl
    · split
      · exact one _ rfl
      · split
        · exact one _ rfl
        · have h := (Emits.refl 1 s).grows (grows_insertName x s)
          split
          · exact (h.grows (grows_modifyNode rfl rfl)).output (.storeGlobal _) rfl le_rfl
          · exact (h.output .pop rfl le_rfl).output (.throwUninitialized _) rfl (Nat.zero_le _)

end DisciplineLemmas

/-! ## Function literals -/

/-- A node on which nothing has been transpiled yet. -/
structure Node.Fresh (n : Node) : Prop where
  instructions : n.function.instructions = []
  labels : n.function.labels = []
  functions : n.function.functions = []

namespace DisciplineLemmas

theorem dependenciesScanner_keeps_fresh (up : List Node) :
    (dependenciesScanner up).Keeps Node.Fresh where
  name := fun _ x n h => by
    simp only [dependenciesScanner]
    split
    · exact h
    · split
      · exact ⟨h.instructions, h.labels, h.functions⟩
      · exact h
  global := fun _ _ h => h
  assignment := fun _ h => by simp [dependenciesScanner] at h
  enter := fun _ h => by simp [dependenciesScanner] at h
  leave := fun _ h => h

theorem enterFunction_fresh (parent : Node) (up : List Node) (arguments : List String)
    (body : Block) : (enterFunction parent up arguments body).Fresh :=
  body.scan_keeps (dependenciesScanner_keeps_fresh _) _ ⟨rfl, rfl, rfl⟩

theorem subFunction_cases {f g : Function} (h : SubFunction f g) :
    g = f ∨ ∃ h ∈ f.functions, SubFunction h g := by
  induction h with
  | refl => exact .inl rfl
  | step _ hm ih =>
    rcases ih with rfl | ⟨h, hh, hs⟩
    · exact .inr ⟨_, hm, .refl _⟩
    · exact .inr ⟨h, hh, .step hs hm⟩

theorem emits_pushReferences (refs : List Nat) (s : State) :
    Emits 0 refs.length s (refs.foldl (fun s i => s.output (.pushReference i)) s) := by
  induction refs generalizing s with
  | nil => exact Emits.refl 0 s
  | cons i is ih =>
    have h := (Emits.refl 0 s).output (.pushReference i) rfl (Nat.zero_le _)
    have h' := h.trans (ih _) (Nat.zero_le _)
    rwa [show 0 - 0 + 1 - 0 + is.length = (i :: is).length by simp [Nat.add_comm]] at h'

/-- Closing a literal whose body is a segment. -/
theorem leaveFunction_emits {entered : Node} {n : Nat} {body : Block} {inner s : State}
    (hf : entered.Fresh) (hn : s.labelNum ≤ n) (hi : EmitsSegment ⟨entered, n⟩ inner) :
    Emits 0 1 s (leaveFunction body (inner.loadConst .none).outputReturn s) := by
  obtain ⟨code, hg, hseg⟩ := hi
  obtain ⟨k, hk⟩ := grows_loadConst .none inner
  have hg' := (hg.trans hk).trans (grows_outputReturn _)
  set final := (inner.loadConst .none).outputReturn with hfinal
  have hcode : final.node.function.instructions = code ++ [.loadConst k] ++ [.ret] := by
    rw [hg'.code_eq, hf.instructions, List.nil_append]
  have hsegment : Segment n inner.labelNum (code ++ [.loadConst k] ++ [.ret]) := by
    rw [List.append_assoc]
    refine .append hseg (.plain le_rfl (fun i hi => ?_) rfl)
    rcases List.mem_cons.mp hi with rfl | hi
    · rfl
    · rw [List.mem_singleton.mp hi]; rfl
  set f : Function := { final.node.function with argMapping := argMappingOf final.node.function }
  have hwell : ∀ g, SubFunction f g → WellEmitted g := by
    intro g hg₀
    obtain ⟨new, hnew, hwell⟩ := hg'.functions
    rcases subFunction_cases hg₀ with rfl | ⟨h, hh, hs⟩
    · refine ⟨⟨_, _, hcode ▸ hsegment⟩, hg'.labels ?_⟩
      rw [hf.labels, hf.instructions]
      rfl
    · have hh' : h ∈ final.node.function.functions := hh
      rw [hnew, hf.functions, List.nil_append] at hh'
      exact hwell h hh' g hs
  set s₁ := { s with labelNum := final.labelNum }.modifyFunction fun g =>
    { g with functions := g.functions ++ [f] } with hs₁
  have hadd : Grows s s₁ [] :=
    ⟨by simp [hs₁, State.modifyFunction, State.modifyNode], id, hn.trans hg'.labelNum, rfl,
      List.prefix_rfl, List.prefix_rfl, [f], rfl, fun g hg => List.mem_singleton.mp hg ▸ hwell⟩
  have h₁ := ((Emits.refl 0 s).grows hadd).trans
    (emits_pushReferences (captures s₁.node body).reverse s₁) le_rfl
  set s₂ := (captures s₁.node body).reverse.foldl (fun s i => s.output (.pushReference i)) s₁
  have h₂ := h₁.output (.loadFunc (s₂.node.function.functions.length - 1 : Nat)) rfl
    (Nat.zero_le _)
  have h₃ := h₂.output (.allocClosure (captures s₁.node body).length) rfl (by simp)
  rw [List.length_reverse, show 0 - 0 + (captures s₁.node body).length - 0 + 1 -
    ((captures s₁.node body).length + 1) + 1 = 1 by omega] at h₃
  exact h₃

end DisciplineLemmas

/-! ## Every piece of syntax -/

namespace DisciplineLemmas

theorem binary_effect (op : BinOpSym) : op.operation.1.effect = some (2, 1) := by
  cases op <;> rfl

theorem unary_effect (op : UnOpSym) : op.operation.effect = some (1, 1) := by
  cases op <;> rfl

theorem loadConst_emits (c : Constant) (s : State) : Emits 0 1 s (s.loadConst c) := by
  obtain ⟨i, hi⟩ := grows_loadConst c s
  exact ⟨_, hi, effect_single rfl rfl⟩

end DisciplineLemmas

mutual
theorem LHS.transpile_load (up : List Node) :
    (l : LHS) → (s : State) → Emits 0 1 s (l.transpile up false s)
  | .name x, s => visitName_load up.isEmpty x s
  | .index base idx, s =>
    ((base.transpile_load up s).trans (idx.transpile_emits up _) (Nat.zero_le _)).output
      .indexLoad rfl le_rfl
  | .field base field, s => by
    have h := ((Emits.refl 0 s).grows (grows_insertName field s)).trans
      (base.transpile_load up _) le_rfl
    exact h.output (.fieldLoad _) rfl le_rfl

theorem LHS.transpile_store (up : List Node) :
    (l : LHS) → (s : State) → Emits 1 0 s (l.transpile up true s)
  | .name x, s => visitName_store up.isEmpty x s
  | .index base idx, s => by
    have h := (((base.transpile_load up s).weaken 1).output .swap rfl le_rfl).trans
      (idx.transpile_emits up _) (Nat.zero_le _)
    exact (h.output .swap rfl (by simp)).output .indexStore rfl (by simp)
  | .field base field, s => by
    have h := ((Emits.refl 1 s).grows (grows_insertName field s)).trans
      (base.transpile_load up _) (Nat.zero_le _)
    exact (h.output .swap rfl le_rfl).output (.fieldStore _) rfl le_rfl

theorem Expression.transpile_emits (up : List Node) :
    (e : Expression) → (s : State) → Emits 0 1 s (e.transpile up s)
  | .lhs l, s => l.transpile_load up s
  | .call target arguments, s => by
    have h := (arguments.transpile_emits up s).trans (target.transpile_load up _) (Nat.zero_le _)
    simpa [Expression.transpile] using h.output (.call arguments.size) rfl le_rfl
  | .function arguments body, s =>
    leaveFunction_emits (enterFunction_fresh s.node up arguments body) le_rfl
      (body.transpile_emits (s.node :: up) _)
  | .record fields, s => by
    have h := ((Emits.refl 0 s).output .allocRecord rfl le_rfl).trans
      (fields.transpile_emits up _) le_rfl
    exact h
  | .boolConst b, s => loadConst_emits (.boolean b) s
  | .strConst v, s => loadConst_emits (.string v) s
  | .intConst i, s => loadConst_emits (.integer i) s
  | .nullConst, s => loadConst_emits .none s
  | .binaryOp op left right, s => by
    simp only [Expression.transpile]
    split
    · exact ((right.transpile_emits up s).trans (left.transpile_emits up _)
        (Nat.zero_le _)).output _ (binary_effect op) le_rfl
    · exact ((left.transpile_emits up s).trans (right.transpile_emits up _)
        (Nat.zero_le _)).output _ (binary_effect op) le_rfl
  | .unaryOp op expr, s => (expr.transpile_emits up s).output _ (unary_effect op) le_rfl

theorem Arguments.transpile_emits (up : List Node) :
    (as : Arguments) → (s : State) → Emits 0 as.size s (as.transpile up s)
  | .nil, s => Emits.refl 0 s
  | .cons head tail, s => by
    have h := (head.transpile_emits up s).trans (tail.transpile_emits up _) (Nat.zero_le _)
    rwa [show 1 - 0 + tail.size = (Arguments.cons head tail).size by
      simp [Arguments.size, Nat.add_comm]] at h

theorem Fields.transpile_emits (up : List Node) :
    (fs : Fields) → (s : State) → Emits 1 1 s (fs.transpile up s)
  | .nil, s => Emits.refl 1 s
  | .cons key value tail, s => by
    have h₁ := ((Emits.refl 1 s).output .dup rfl le_rfl).trans (value.transpile_emits up _)
      (Nat.zero_le _)
    have h₂ := (h₁.grows (grows_insertName key _)).output
      (.fieldStore ((value.transpile up (s.output .dup)).nameIndex key)) rfl (by simp)
    exact h₂.trans (tail.transpile_emits up _) le_rfl

theorem Statement.transpile_emits (up : List Node) :
    (st : Statement) → (s : State) → EmitsSegment s (st.transpile up s)
  | .assignment lhs expr, s => by
    have hstart : Grows s (match lhs with
        | .name x => s.modifyNode fun n => { n with storing := x }
        | _ => s) [] := by
      split
      · exact grows_modifyNode rfl rfl
      · exact Grows.refl s
    have h := (((Emits.refl 0 s).grows hstart).trans (expr.transpile_emits up _) le_rfl).trans
      (lhs.transpile_store up _) le_rfl
    exact h.segment
  | .callStatement target arguments, s => by
    have h := (arguments.transpile_emits up s).trans (target.transpile_load up _) (Nat.zero_le _)
    obtain ⟨code, hg, he⟩ := (h.output (.call arguments.size) rfl le_rfl).output .pop rfl (by simp)
    refine ⟨code ++ [.garbageCollect], hg.trans (grows_output (fun _ => by simp) _), ?_⟩
    refine .plain hg.labelNum (plain_append.mpr ⟨he.1, by simp [Plain, Instruction.isPlain]⟩) ?_
    rw [depth_append, he.2 0]
    simp [depth, Instruction.depth, Instruction.effect]
  | .global x, s => (Emits.refl 0 s).segment
  | .ifStatement cond thenBlock elseBlock, s => by
    obtain ⟨c, hc, hec⟩ := cond.transpile_emits up { s with labelNum := s.labelNum + 3 }
    set s₁ := cond.transpile up { s with labelNum := s.labelNum + 3 } with hs₁
    set s₂ := ((s₁.output (.ifTrue s.labelNum)).output (.goto (s.labelNum + 1))).outputLabel
      s.labelNum with hs₂
    have h₂ : Grows s₁ s₂ [.ifTrue s.labelNum, .goto (s.labelNum + 1), .label s.labelNum] :=
      ((grows_output (fun _ => by simp) s₁).trans (grows_output (fun _ => by simp) _)).trans
        (grows_outputLabel _ _)
    obtain ⟨a, ha, hsa⟩ := thenBlock.transpile_emits up s₂
    set s₃ := thenBlock.transpile up s₂ with hs₃
    set s₄ := (s₃.output (.goto (s.labelNum + 2))).outputLabel (s.labelNum + 1) with hs₄
    have h₄ : Grows s₃ s₄ [.goto (s.labelNum + 2), .label (s.labelNum + 1)] :=
      (grows_output (fun _ => by simp) s₃).trans (grows_outputLabel _ _)
    obtain ⟨b, hb, hsb⟩ := elseBlock.transpile_emits up s₄
    have hall := (((((grows_labelNum (s := s) (Nat.le_add_right _ 3)).trans hc).trans h₂).trans
      ha).trans h₄).trans hb
    exact ⟨_, hall.trans (grows_outputLabel (s.labelNum + 2) _),
      .branch hc.labelNum hec hsa hsb⟩
  | .whileLoop cond body, s => by
    set s₁ := (({ s with labelNum := s.labelNum + 3 } : State).outputLabel s.labelNum).output
      .garbageCollect with hs₁
    have h₁ : Grows s s₁ ([] ++ [.label s.labelNum] ++ [.garbageCollect]) :=
      ((grows_labelNum (Nat.le_add_right _ 3)).trans (grows_outputLabel _ _)).trans
        (grows_output (fun _ => by simp) _)
    obtain ⟨c, hc, hec⟩ := cond.transpile_emits up s₁
    set s₂ := cond.transpile up s₁ with hs₂
    set s₃ := ((s₂.output (.ifTrue (s.labelNum + 1))).output
      (.goto (s.labelNum + 2))).outputLabel (s.labelNum + 1) with hs₃
    have h₃ : Grows s₂ s₃
        [.ifTrue (s.labelNum + 1), .goto (s.labelNum + 2), .label (s.labelNum + 1)] :=
      ((grows_output (fun _ => by simp) s₂).trans (grows_output (fun _ => by simp) _)).trans
        (grows_outputLabel _ _)
    obtain ⟨b, hb, hsb⟩ := body.transpile_emits up s₃
    set s₄ := body.transpile up s₃ with hs₄
    have h₄ : Grows s₄ ((s₄.output (.goto s.labelNum)).outputLabel (s.labelNum + 2))
        [.goto s.labelNum, .label (s.labelNum + 2)] :=
      (grows_output (fun _ => by simp) s₄).trans (grows_outputLabel _ _)
    exact ⟨_, (((h₁.trans hc).trans h₃).trans hb).trans h₄, .loop hc.labelNum hec hsb⟩
  | .ret expr, s => by
    obtain ⟨code, hg, he⟩ := expr.transpile_emits up s
    refine ⟨code ++ [.ret], hg.trans (grows_outputReturn _), ?_⟩
    refine .plain hg.labelNum (plain_append.mpr ⟨he.1, by simp [Plain, Instruction.isPlain]⟩) ?_
    rw [depth_append, he.2 0]
    simp [depth, Instruction.depth, Instruction.effect]

theorem Block.transpile_emits (up : List Node) :
    (b : Block) → (s : State) → EmitsSegment s (b.transpile up s)
  | .nil, s => (Emits.refl 0 s).segment
  | .cons head tail, s => by
    obtain ⟨a, ha, hsa⟩ := head.transpile_emits up s
    obtain ⟨b, hb, hsb⟩ := tail.transpile_emits up (head.transpile up s)
    exact ⟨a ++ b, ha.trans hb, .append hsa hsb⟩
end

/-! ## The compiler's output -/

namespace DisciplineLemmas

theorem addNativeFunction_emits (s : State) (name : String) (n : Nat) :
    Emits 0 0 s (addNativeFunction s name n) := by
  have h := ((Emits.refl 0 s).output (.loadFunc (-(n : Int))) rfl (Nat.zero_le _)).grows
    (grows_modifyNode (f := fun node => { node with globals := insert node.globals name }) rfl rfl)
  exact (h.grows (grows_insertName name _)).output (.storeGlobal _) rfl le_rfl

theorem initialState_emits : Emits 0 0 ⟨{}, 0⟩ initialState :=
  ((addNativeFunction_emits ⟨{}, 0⟩ "print" 1).trans (addNativeFunction_emits _ "input" 2)
    le_rfl).trans (addNativeFunction_emits _ "intcast" 3) le_rfl

theorem segment_append {s₁ s₂ s₃ : State} (h₁ : EmitsSegment s₁ s₂) (h₂ : EmitsSegment s₂ s₃) :
    EmitsSegment s₁ s₃ := by
  obtain ⟨a, ha, hsa⟩ := h₁
  obtain ⟨b, hb, hsb⟩ := h₂
  exact ⟨a ++ b, ha.trans hb, .append hsa hsb⟩

theorem visitProgram_emits (prog : Program) : EmitsSegment ⟨{}, 0⟩ (visitProgram prog) := by
  have h := segment_append initialState_emits.segment (prog.transpile_emits [] initialState)
  simp only [visitProgram]
  split
  · exact h
  · obtain ⟨code, hg, he⟩ := loadConst_emits (.integer 0) (prog.transpile [] initialState)
    refine segment_append h ⟨code ++ [.ret], hg.trans (grows_outputReturn _), ?_⟩
    refine .plain hg.labelNum (plain_append.mpr ⟨he.1, by simp [Plain, Instruction.isPlain]⟩) ?_
    rw [depth_append, he.2 0]
    simp [depth, Instruction.depth, Instruction.effect]

end DisciplineLemmas

/-- Every function of a compiled program is well emitted. -/
theorem compile_wellEmitted (prog : Program) {f : Function} (h : SubFunction (compile prog) f) :
    WellEmitted f := by
  obtain ⟨code, hg, hseg⟩ := visitProgram_emits prog
  rcases subFunction_cases h with rfl | ⟨g, hmem, hsub⟩
  · have hcode : (compile prog).instructions = code := hg.code_eq
    exact ⟨⟨_, _, hcode ▸ hseg⟩, hg.labels rfl⟩
  · obtain ⟨new, hnew, hwell⟩ := hg.functions
    have hmem' : g ∈ new := by
      have hfs : (compile prog).functions = new := hnew
      exact hfs ▸ hmem
    exact hwell g hmem' f hsub

end Beaverc

import Beaverc.FoldedRuns
import Beaverc.Records
import Beaverc.ShortJumps

/-!
# Obsolete temps

`RemoveObsoleteOptimization` deletes the assignments of obsolete temps and the
checks of them. What is deleted does nothing: nothing that is left reads the temp;
no function is loaded into one, since a function that is loaded is taken by the
`AllocClosure` or `StoreGlobal` behind it; and the checks were those of an operation
that has been folded, so they are of constants and pass.
-/

namespace Beaverc
open VisitsLemmas DisciplineLemmas

/-! ## Functions that are loaded -/

/-- The instructions that take the function from the stack. -/
def Instruction.takesFunction : Instruction → Bool
  | .allocClosure _ | .storeGlobal _ => true
  | _ => false

/-- Each `LoadFunc` is directly in front of the instruction that takes the function. -/
def FunctionsTaken (code : List Instruction) : Prop :=
  ∀ p k, code[p]? = some (.loadFunc k) →
    ∃ i, code[p + 1]? = some i ∧ i.takesFunction = true

def State.Taken (s : State) : Prop :=
  FunctionsTaken s.node.function.instructions

namespace FunctionsTakenLemmas

theorem taken_nil : FunctionsTaken [] := by
  intro p k h
  cases h

theorem taken_snoc {code : List Instruction} (h : FunctionsTaken code) {i : Instruction}
    (hi : ∀ k, i ≠ .loadFunc k) : FunctionsTaken (code ++ [i]) := by
  intro p k hp
  have hlt := (List.getElem?_eq_some_iff.mp hp).1
  rw [List.length_append, List.length_singleton] at hlt
  rcases Nat.lt_succ_iff_lt_or_eq.mp hlt with hlt | rfl
  · rw [List.getElem?_append_left hlt] at hp
    obtain ⟨j, hj, htakes⟩ := h p k hp
    refine ⟨j, ?_, htakes⟩
    rw [List.getElem?_append_left (List.getElem?_eq_some_iff.mp hj).1, hj]
  · rw [List.getElem?_append_right (Nat.le_refl _), Nat.sub_self] at hp
    cases hp
    exact absurd rfl (hi k)

theorem taken_pair {code : List Instruction} (h : FunctionsTaken code) (k : Int) {i : Instruction}
    (hi : i.takesFunction = true) : FunctionsTaken (code ++ [.loadFunc k] ++ [i]) := by
  intro p k' hp
  have hlt := (List.getElem?_eq_some_iff.mp hp).1
  rw [List.length_append, List.length_append, List.length_singleton, List.length_singleton] at hlt
  rcases Nat.lt_succ_iff_lt_or_eq.mp hlt with hlt' | rfl
  · rcases Nat.lt_succ_iff_lt_or_eq.mp hlt' with hlt' | rfl
    · rw [List.append_assoc, List.getElem?_append_left hlt'] at hp
      obtain ⟨j, hj, htakes⟩ := h p k' hp
      refine ⟨j, ?_, htakes⟩
      rw [List.append_assoc, List.getElem?_append_left (List.getElem?_eq_some_iff.mp hj).1, hj]
    · refine ⟨i, ?_, hi⟩
      rw [List.append_assoc, List.getElem?_append_right (Nat.le_add_right _ 1),
        Nat.add_sub_cancel_left]
      rfl
  · rw [List.append_assoc, List.getElem?_append_right (Nat.le_add_right _ 1),
      Nat.add_sub_cancel_left]
      at hp
    cases hp
    cases hi

section Compiling

variable {s : State} {up : List Node}

theorem taken_output (h : s.Taken) {i : Instruction} (hi : ∀ k, i ≠ .loadFunc k) :
    (s.output i).Taken :=
  taken_snoc h hi

theorem taken_visitName (h : s.Taken) (isGlobal storing : Bool) (x : String) :
    (visitName isGlobal storing x s).Taken := by
  rcases visitName_cases isGlobal storing x s with
    ⟨-, he⟩ | ⟨-, i, -, he⟩ | ⟨-, i, -, he⟩ | ⟨-, -, he⟩ | ⟨-, -, he⟩
  · rw [he]
    refine taken_output h fun k => ?_
    cases storing <;> exact nofun
  · rw [he]
    refine taken_output h fun k => ?_
    cases storing <;> exact nofun
  · rw [he]
    refine taken_output h fun k => ?_
    cases storing <;> exact nofun
  · rw [he]
    exact taken_snoc h nofun
  · rw [he]
    have hfirst : ((s.insertName x).output (if storing then .pop else .loadConst 0)).Taken := by
      refine taken_snoc h fun k => ?_
      cases storing <;> exact nofun
    exact taken_snoc hfirst nofun

theorem taken_pushReferences (refs : List Nat) (h : s.Taken) :
    (refs.foldl (fun s i => s.output (.pushReference i)) s).Taken := by
  induction refs generalizing s with
  | nil => exact h
  | cons i refs ih => exact ih (taken_snoc h nofun)

theorem taken_leaveFunction (h : s.Taken) (body : Block) (inner : State) :
    (leaveFunction body inner s).Taken := by
  let f : Function := { inner.node.function with argMapping := argMappingOf inner.node.function }
  let s₁ := { s with labelNum := inner.labelNum }.modifyFunction fun g =>
    { g with functions := g.functions ++ [f] }
  have h₁ : s₁.Taken := h
  have h₂ := taken_pushReferences (captures s₁.node body).reverse h₁
  exact taken_pair h₂ _ (i := .allocClosure _) rfl

theorem taken_kept (up : List Node) : KeptByVisits up State.Taken where
  visit v s h := by
    cases v with
    | load x => exact taken_visitName h _ false x
    | store x => exact taken_visitName h _ true x
    | storing x | field x => exact h
    | literal l =>
      exact taken_leaveFunction h l.body _
    | const c => exact taken_snoc h nofun
    | fieldLoad x | fieldStore x => exact taken_snoc h nofun
    | output i hi =>
      refine taken_snoc h fun k => ?_
      rintro rfl
      cases hi
    | ret => exact taken_snoc h nofun
  goto l s h := taken_snoc h nofun
  ifTrue l s h := taken_snoc h nofun
  label l s h := taken_snoc h nofun
  labelNum _ _ h := h

end Compiling

end FunctionsTakenLemmas

open FunctionsTakenLemmas

/-- In a function of a compiled program each function that is loaded is taken at once. -/
theorem functions_taken (prog : Program) {f : Function} (h : SubFunction (compile prog) f) :
    FunctionsTaken f.instructions := by
  rcases subFunction_emitted h with rfl | ⟨up, l, -, parent, n, rfl⟩
  · have hstart : initialState.Taken :=
      taken_pair (taken_pair (taken_pair taken_nil _ (i := .storeGlobal _) rfl) _
        (i := .storeGlobal _) rfl) _ (i := .storeGlobal _) rfl
    have hbody := prog.transpile_keeps (taken_kept []) initialState hstart
    show (visitProgram prog).Taken
    unfold visitProgram
    dsimp only
    split
    · exact hbody
    · exact taken_snoc (taken_snoc (i := .loadConst _) hbody nofun) (i := .ret) nofun
  · have hentered : State.Taken ⟨enterFunction parent up l.arguments l.body, n⟩ := by
      unfold State.Taken
      rw [(enterFunction_fresh parent up l.arguments l.body).instructions]
      exact taken_nil
    have hbody := l.body.transpile_keeps (taken_kept (parent :: up)) _ hentered
    exact taken_snoc (taken_snoc (i := .loadConst _) hbody nofun) (i := .ret) nofun

namespace Ir
open Process Results SingleUseLemmas DefinedTempsLemmas ConstantHintsLemmas OptimizerErrorsLemmas
  LoopsLemmas ChangesLemmas DeadVariablesLemmas TranslationLemmas ConstantFoldingLemmas
  TypeHintsLemmas TypedTempsLemmas RetypingLemmas FoldedRunsLemmas ShortJumpsLemmas

/-! ## What stands in front of an instruction -/

/-- The checks that the translation puts in front of an instruction. -/
def Instruction.checked : Instruction → List (Assert × Nat)
  | .binOp op _ src1 src2 =>
    match op with
    | .sub | .mul | .gt | .geq => [(.int, src1), (.int, src2)]
    | .div => [(.int, src1), (.int, src2), (.notZero, src2)]
    | .and | .or => [(.bool, src1), (.bool, src2)]
    | .add | .intAdd | .eq | .fastEq => []
  | .unOp op _ src =>
    match op with
    | .neg => [(.int, src)]
    | .not => [(.bool, src)]
  | .condJump cond _ => [(.bool, cond)]
  | _ => []

/-- Whether an instruction takes the function in a temp. -/
def Instruction.takes (t : Nat) : Instruction → Bool
  | .allocClosure function _ => function = t
  | .store (.glob _) src => src = t
  | _ => false

/-- Between two passes: the checks are those of the instruction that uses what they check,
a function that is loaded is taken, and the checks of obsolete temps are of constants and
pass. -/
structure OptimizingCompiler.Accounted (oc : OptimizingCompiler) : Prop where
  asserts : ∀ a t, .callAssert a t ∈ oc.compiler.instructions → ∀ i ∈ oc.compiler.instructions,
    t ∈ i.uses → (a, t) ∈ i.checked
  functions : ∀ t n, .assign t (.function n) ∈ oc.compiler.instructions →
    ∃ i ∈ oc.compiler.instructions, i.takes t = true
  obsolete : ∀ t ∈ oc.obsolete, ∀ a, .callAssert a t ∈ oc.compiler.instructions →
    ∃ c, .assign t (.const c) ∈ oc.compiler.instructions ∧ a.check c = .ok ()

namespace ObsoleteTempsLemmas

theorem takes_uses {i : Instruction} {t : Nat} (h : i.takes t = true) : t ∈ i.uses := by
  cases i with
  | allocClosure function refs =>
    cases of_decide_eq_true h
    exact List.mem_cons_self
  | store dest src =>
    cases dest with
    | glob n =>
      cases of_decide_eq_true h
      exact List.mem_cons_self
    | _ => cases h
  | _ => cases h

/-! ### The translation -/

section Translation

variable {f : Function} {b : Beaverc.Instruction} {stack : List Nat} {n : Nat} {e : Emission}

theorem translate_checked (he : translate f b stack n = some e) {a : Assert} {t : Nat}
    (h : .callAssert a t ∈ e.code) : ∃ j ∈ e.code, t ∈ j.uses ∧ (a, t) ∈ j.checked := by
  cases translate_cases he with
  | sub | mul | div | gt | geq | and | or =>
    refine ⟨_, List.mem_of_getLast? rfl, ?_⟩
    simp only [List.mem_cons, Instruction.callAssert.injEq, List.not_mem_nil, reduceCtorEq,
      or_false] at h
    simp [Instruction.uses, Instruction.isAssert, Instruction.reads, Instruction.checked]
    grind
  | neg | not | ifTrue =>
    refine ⟨_, List.mem_of_getLast? rfl, ?_⟩
    simp only [List.mem_cons, Instruction.callAssert.injEq, List.not_mem_nil, reduceCtorEq,
      or_false] at h
    obtain ⟨rfl, rfl⟩ := h
    exact ⟨List.mem_cons_self, List.mem_cons_self⟩
  | _ => simp at h

/-- A function is assigned for a `LoadFunc`, and is then on top of the stack. -/
theorem translate_function (he : translate f b stack n = some e) {t : Nat} {k : Int}
    (h : .assign t (.function k) ∈ e.code) : b = .loadFunc k ∧ e.stack = t :: stack := by
  cases translate_cases he with
  | loadFunc =>
    cases List.mem_singleton.mp h
    exact ⟨rfl, rfl⟩
  | _ => simp at h

theorem translate_takes (he : translate f b stack n = some e) (hb : b.takesFunction = true)
    {t : Nat} {rest : List Nat} (hs : stack = t :: rest) : ∃ j ∈ e.code, j.takes t = true := by
  cases translate_cases he with
  | storeGlobal | allocClosure =>
    cases hs
    exact ⟨_, List.mem_cons_self, decide_eq_true rfl⟩
  | _ => cases hb

end Translation

/-- The instructions of a compiler that has read `n` instructions: the functions are taken,
or the last one is on top of the stack. -/
structure Loaded (f : Function) (n : Nat) (c : Compiler) : Prop where
  asserts : ∀ a t, .callAssert a t ∈ c.instructions →
    ∃ j ∈ c.instructions, t ∈ j.uses ∧ (a, t) ∈ j.checked
  functions : ∀ t k, .assign t (.function k) ∈ c.instructions →
    (∃ i ∈ c.instructions, i.takes t = true) ∨
      ∃ m k' rest, n = m + 1 ∧ f.instructions[m]? = some (.loadFunc k') ∧ c.stack = t :: rest

theorem loaded_step {f : Function} (hf : FunctionsTaken f.instructions) {n : Nat} {c c' : Compiler}
    (h : Loaded f n c) {i : Beaverc.Instruction} (hi : f.instructions[n]? = some i)
    (hstep : c.step i = some c') : Loaded f (n + 1) c' := by
  obtain ⟨e, he, -, hs, -, hcode⟩ := step_inv hstep
  constructor
  · intro a t ht
    rw [hcode] at ht ⊢
    rcases List.mem_append.mp ht with ht | ht
    · obtain ⟨j, hj, hrest⟩ := h.asserts a t ht
      exact ⟨j, List.mem_append_left _ hj, hrest⟩
    · obtain ⟨j, hj, hrest⟩ := translate_checked he ht
      exact ⟨j, List.mem_append_right _ hj, hrest⟩
  · intro t k ht
    rw [hcode] at ht ⊢
    rcases List.mem_append.mp ht with ht | ht
    · refine .inl ?_
      rcases h.functions t k ht with ⟨j, hj, htakes⟩ | ⟨m, k', rest, rfl, hm, hstack⟩
      · exact ⟨j, List.mem_append_left _ hj, htakes⟩
      · obtain ⟨i', hi', htaken⟩ := hf m k' hm
        cases hi.symm.trans hi'
        obtain ⟨j, hj, htakes⟩ := translate_takes he htaken hstack
        exact ⟨j, List.mem_append_right _ hj, htakes⟩
    · obtain ⟨rfl, hstack⟩ := translate_function he ht
      exact .inr ⟨n, k, c.stack, rfl, hi, hs.trans hstack⟩

theorem loaded_upto {shared : Operands} {f : Function} (hf : FunctionsTaken f.instructions)
    {n : Nat} {c : Compiler} (h : Compiler.upto shared f n = some c)
    (hn : n ≤ f.instructions.length) :
    Loaded f n c := by
  induction n generalizing c with
  | zero =>
    cases h
    exact ⟨nofun, nofun⟩
  | succ n ih =>
    have hi := List.getElem?_eq_getElem (l := f.instructions) (i := n) hn
    rw [upto_succ hi] at h
    obtain ⟨c₀, hc₀, hstep⟩ := Option.bind_eq_some_iff.mp h
    exact loaded_step hf (ih hc₀ (Nat.le_of_succ_le hn)) hi hstep

/-- The code as it is compiled. -/
theorem accounted_compile {shared : Operands} {f : Function} (hw : WellEmitted f)
    (hf : FunctionsTaken f.instructions) {c : Compiler}
    (h : Compiler.compile shared f = some c) : (⟨c, []⟩ : OptimizingCompiler).Accounted := by
  have hloaded := loaded_upto hf (compile_eq_upto.symm.trans h) (Nat.le_refl _)
  have hnodup := (threaded_compile hw h).nodup
  refine ⟨fun a t ht i hi hu => ?_, fun t n ht => ?_, nofun⟩
  · obtain ⟨j, hj, hju, hchecked⟩ := hloaded.asserts a t ht
    cases uses_unique hnodup hi hj hu hju
    exact hchecked
  · rcases hloaded.functions t n ht with hused | ⟨m, k, rest, hm, hload, -⟩
    · exact hused
    · obtain ⟨i, hi, -⟩ := hf m k hload
      exact absurd (List.getElem?_eq_some_iff.mp hi).1 (hm ▸ Nat.lt_irrefl _)

/-! ### The passes -/

/-- What a visit does to the instruction, as to checks and functions. -/
structure Accounts (i i' : Instruction) : Prop where
  assert : ∀ a t, i' = .callAssert a t → i = i'
  checked : ∀ t ∈ i'.uses, t ∈ i.uses ∧ ∀ a, (a, t) ∈ i.checked → (a, t) ∈ i'.checked
  function : ∀ t n, i' = .assign t (.function n) → i = i'
  takes : ∀ t, i.takes t = true → i' = i

theorem accounts_refl (i : Instruction) : Accounts i i :=
  ⟨fun _ _ _ => rfl, fun _ ht => ⟨ht, fun _ => id⟩, fun _ _ _ => rfl, fun _ _ => rfl⟩

section Reduced

variable {R : Instruction → Instruction → List Nat → Prop} {code code' : List Instruction}
  {obsolete : List Nat}

theorem reduced_old (h : Reduced R code code' obsolete) :
    ∀ i' ∈ code', ∃ i ∈ code, ∃ marked, R i i' marked := by
  induction h with
  | nil => exact nofun
  | @cons i i' _ _ marked _ hR _ ih =>
    intro j hj
    rcases List.mem_cons.mp hj with rfl | hj
    · exact ⟨i, List.mem_cons_self, marked, hR⟩
    · obtain ⟨k, hk, hrest⟩ := ih j hj
      exact ⟨k, List.mem_cons_of_mem _ hk, hrest⟩

theorem reduced_new (h : Reduced R code code' obsolete) :
    ∀ i ∈ code, ∃ i' ∈ code', ∃ marked, R i i' marked := by
  induction h with
  | nil => exact nofun
  | @cons i i' _ _ marked _ hR _ ih =>
    intro j hj
    rcases List.mem_cons.mp hj with rfl | hj
    · exact ⟨i', List.mem_cons_self, marked, hR⟩
    · obtain ⟨k, hk, hrest⟩ := ih j hj
      exact ⟨k, List.mem_cons_of_mem _ hk, hrest⟩

theorem reduced_obsolete (h : Reduced R code code' obsolete) :
    ∀ t ∈ obsolete, ∃ i ∈ code, ∃ i' marked, R i i' marked ∧ t ∈ marked := by
  induction h with
  | nil => exact nofun
  | @cons i i' _ _ marked _ hR _ ih =>
    intro t ht
    rcases List.mem_append.mp ht with ht | ht
    · exact ⟨i, List.mem_cons_self, i', marked, hR, ht⟩
    · obtain ⟨k, hk, hrest⟩ := ih t ht
      exact ⟨k, List.mem_cons_of_mem _ hk, hrest⟩

end Reduced

section Passes

variable {oc oc' : OptimizingCompiler}

/-- The checks and functions, after a pass whose visits account for them. -/
theorem accounts_reduced {R : Instruction → Instruction → List Nat → Prop} (h : oc.Accounted)
    {code' : List Instruction} {marked : List Nat}
    (hr : Reduced R oc.compiler.instructions code' marked)
    (hR : ∀ {i i' l}, R i i' l → Accounts i i') :
    (∀ a t, .callAssert a t ∈ code' → .callAssert a t ∈ oc.compiler.instructions) ∧
      (∀ a t, .callAssert a t ∈ code' → ∀ i ∈ code', t ∈ i.uses → (a, t) ∈ i.checked) ∧
      ∀ t n, .assign t (.function n) ∈ code' → ∃ i ∈ code', i.takes t = true := by
  have hassert : ∀ a t, .callAssert a t ∈ code' →
      .callAssert a t ∈ oc.compiler.instructions := by
    intro a t ht
    obtain ⟨j, hj, l, hjR⟩ := reduced_old hr _ ht
    exact (hR hjR).assert a t rfl ▸ hj
  refine ⟨hassert, fun a t ht i hi hu => ?_, fun t n ht => ?_⟩
  · obtain ⟨j, hj, l, hjR⟩ := reduced_old hr i hi
    obtain ⟨hju, hchecked⟩ := (hR hjR).checked t hu
    exact hchecked a (h.asserts a t (hassert a t ht) j hj hju)
  · obtain ⟨j, hj, l, hjR⟩ := reduced_old hr _ ht
    rw [(hR hjR).function t n rfl] at hj
    obtain ⟨i, hi, htakes⟩ := h.functions t n hj
    obtain ⟨i', hi', l', hiR⟩ := reduced_new hr i hi
    rw [(hR hiR).takes t htakes] at hi'
    exact ⟨i, hi', htakes⟩

/-- A pass that leaves the assignments alone; `marked` is what it makes obsolete. -/
theorem accounted_reduced {R : Instruction → Instruction → List Nat → Prop} (h : oc.Accounted)
    {marked : List Nat}
    (hr : Reduced R oc.compiler.instructions oc'.compiler.instructions marked)
    (hR : ∀ {i i' l}, R i i' l → Accounts i i')
    (hassign : ∀ {i i' l}, R i i' l → (∃ t s, i = .assign t s) → i' = i)
    (ho : oc'.obsolete = oc.obsolete ++ marked)
    (hmarked : ∀ t ∈ marked, ∀ a, .callAssert a t ∈ oc'.compiler.instructions →
      ∃ c, .assign t (.const c) ∈ oc'.compiler.instructions ∧ a.check c = .ok ()) :
    oc'.Accounted := by
  obtain ⟨hassert, hasserts, hfunctions⟩ := accounts_reduced h hr hR
  refine ⟨hasserts, hfunctions, fun t ht a hat => ?_⟩
  rw [ho] at ht
  rcases List.mem_append.mp ht with ht | ht
  · obtain ⟨c, hc, hcheck⟩ := h.obsolete t ht a (hassert a t hat)
    obtain ⟨j, hj, l, hjR⟩ := reduced_new hr _ hc
    exact ⟨c, hassign hjR ⟨t, _, rfl⟩ ▸ hj, hcheck⟩
  · exact hmarked t ht a hat

theorem accounts_typeSpecialization (i : Instruction) (o : Operands) :
    Accounts i (typeSpecialization i o).instruction := by
  unfold typeSpecialization
  split
  · next op dest src1 src2 =>
    dsimp only
    split
    · exact accounts_refl _
    · next hne =>
      refine ⟨nofun, fun t ht => ⟨ht, fun a ha => ?_⟩, nofun, fun t ht => by cases ht⟩
      rcases specialize_cases op (o.temp src1).toOperand (o.temp src2).toOperand with
        he | ⟨rfl, -, -⟩ | ⟨rfl, -, -⟩
      · exact absurd he hne
      · cases ha
      · cases ha
  · exact accounts_refl _

theorem obsolete_typeSpecialization (i : Instruction) (o : Operands) :
    (typeSpecialization i o).obsolete = [] := by
  unfold typeSpecialization
  split
  · dsimp only
    split <;> rfl
  · rfl

theorem accounts_removeObsolete {obsolete : List Nat} {i : Instruction} {o : Operands}
    {v : Visited} (hv : removeObsolete obsolete i o = .ok v) : Accounts i v.instruction := by
  have hnoop {i : Instruction} (ht : ∀ t, i.takes t = false) : Accounts i .noop :=
    ⟨nofun, nofun, nofun, fun t h => absurd ((ht t).symm.trans h) nofun⟩
  unfold removeObsolete at hv
  split at hv
  · cases hv
    dsimp only
    split
    · exact hnoop fun _ => rfl
    · exact accounts_refl _
  · split at hv
    · cases hv
      exact hnoop fun _ => rfl
    · obtain ⟨b, -, hv⟩ := bind_ok.mp hv
      cases hv
      dsimp only
      split
      · exact hnoop fun _ => rfl
      · exact accounts_refl _
  · cases hv
    exact accounts_refl _

theorem accounts_deadVariableAssignment (count : Nat) (i : Instruction) (o : Operands) :
    Accounts i (deadVariableAssignment count i o).instruction ∧
      ∀ t ∈ (deadVariableAssignment count i o).obsolete, ∃ n, i = .store (.var n) t := by
  unfold deadVariableAssignment
  split
  · next n src =>
    split
    · refine ⟨⟨nofun, nofun, nofun, fun t h => by cases h⟩, fun t ht => ?_⟩
      cases List.mem_singleton.mp ht
      exact ⟨n, rfl⟩
    · exact ⟨accounts_refl _, nofun⟩
  · exact ⟨accounts_refl _, nofun⟩

theorem accounts_shortJump (c : Compiler) (count : Nat) (i : Instruction) :
    Accounts i (shortJump c count i) := by
  unfold shortJump
  split
  · split
    · exact ⟨nofun, nofun, nofun, fun t h => by cases h⟩
    · exact accounts_refl _
  · exact accounts_refl _

theorem accounts_constantFolding {i : Instruction} {o : Operands} {v : Visited}
    (hv : constantFolding i o = .ok v) : Accounts i v.instruction := by
  by_cases hne : v.instruction = i
  · rw [hne]
    exact accounts_refl i
  · cases i with
    | binOp op dest src1 src2 =>
      obtain ⟨-, r, -, hinst, -⟩ := foldTo_folded hv hne
      rw [hinst]
      exact ⟨nofun, nofun, nofun, fun t h => by cases h⟩
    | unOp op dest src =>
      obtain ⟨-, r, -, hinst, -⟩ := foldTo_folded hv hne
      rw [hinst]
      exact ⟨nofun, nofun, nofun, fun t h => by cases h⟩
    | _ =>
      cases hv
      exact absurd rfl hne

/-! ### The checks of folded operations -/

section Folds

variable {lit : Value → Prop} {t u : Operand} {r : Value}

theorem binOp_checks (hlit : FoldClosed lit) {op : BinOp} {dest src1 src2 : Nat}
    (ht : t.Tells lit) (hu : u.Tells lit) (h : op.fold t u = .ok (some r)) {a : Assert} {x : Nat}
    (hc : (a, x) ∈ (Instruction.binOp op dest src1 src2).checked) :
    ∃ c, a.check c = .ok () ∧
      (x = src1 ∧ t.srcVal = .value c ∨ x = src2 ∧ u.srcVal = .value c) := by
  -- both operands are integers, or both are booleans
  have ints {i j : Int} (hi : t.srcVal = .value (.integer i)) (hj : u.srcVal = .value (.integer j))
      (hc : (a, x) ∈ [(Assert.int, src1), (.int, src2)]) : ∃ c, a.check c = .ok () ∧
        (x = src1 ∧ t.srcVal = .value c ∨ x = src2 ∧ u.srcVal = .value c) := by
    rcases List.mem_cons.mp hc with he | hc
    · cases he
      exact ⟨_, rfl, .inl ⟨rfl, hi⟩⟩
    · cases List.mem_singleton.mp hc
      exact ⟨_, rfl, .inr ⟨rfl, hj⟩⟩
  have bools {i j : Bool} (hi : t.srcVal = .value (.boolean i))
      (hj : u.srcVal = .value (.boolean j)) (hc : (a, x) ∈ [(Assert.bool, src1), (.bool, src2)]) :
      ∃ c, a.check c = .ok () ∧
        (x = src1 ∧ t.srcVal = .value c ∨ x = src2 ∧ u.srcVal = .value c) := by
    rcases List.mem_cons.mp hc with he | hc
    · cases he
      exact ⟨_, rfl, .inl ⟨rfl, hi⟩⟩
    · cases List.mem_singleton.mp hc
      exact ⟨_, rfl, .inr ⟨rfl, hj⟩⟩
  cases op with
  | add | intAdd | eq | fastEq => cases hc
  | gt | geq => cases h
  | sub | mul =>
    rw [BinOp.fold] at h
    obtain ⟨i, j, -, hi, hj, -, -⟩ := foldInts_some hlit ht hu h
    exact ints hi hj hc
  | and | or =>
    rw [BinOp.fold] at h
    obtain ⟨i, j, hi, hj, -⟩ := foldBools_some hlit ht hu h
    exact bools hi hj hc
  | div =>
    rw [BinOp.fold] at h
    obtain ⟨v, hv, h⟩ := bind_ok.mp h
    obtain ⟨d, hd, h⟩ := bind_ok.mp h
    split at h
    · cases h
    · next hd0 =>
      obtain ⟨i, j, -, hi, hj, -, -⟩ := foldInts_some hlit ht hu h
      have hsplit : (a, x) ∈ [(Assert.int, src1), (.int, src2)] ++ [(.notZero, src2)] := hc
      rcases List.mem_append.mp hsplit with hc | hc
      · exact ints hi hj hc
      · cases List.mem_singleton.mp hc
        refine ⟨_, ?_, .inr ⟨rfl, hj⟩⟩
        rw [getConst_src hv] at hj
        cases hj
        cases hd
        show (if Value.integer _ = .integer 0 then _ else _) = _
        rw [if_neg fun he => hd0 (Value.integer.inj he)]

theorem unOp_checks (hlit : FoldClosed lit) {op : UnOp} {dest src : Nat} (ht : t.Tells lit)
    (h : op.fold t = .ok (some r)) {a : Assert} {x : Nat}
    (hc : (a, x) ∈ (Instruction.unOp op dest src).checked) :
    ∃ c, a.check c = .ok () ∧ x = src ∧ t.srcVal = .value c := by
  cases op with
  | neg =>
    cases List.mem_singleton.mp hc
    rw [UnOp.fold] at h
    split at h
    · next hi =>
      obtain ⟨i, hi, -⟩ := getInteger_ok hlit ht hi
      exact ⟨_, rfl, rfl, getConst_src hi⟩
    · cases h
  | not =>
    cases List.mem_singleton.mp hc
    rw [UnOp.fold] at h
    split at h
    · next hi =>
      obtain ⟨i, hi, -⟩ := getBoolean_ok hlit ht hi
      exact ⟨_, rfl, rfl, getConst_src hi⟩
    · cases h

end Folds

/-- A temp that becomes obsolete because of a fold was a constant; the check of it, that of
the operation folded, passes. -/
theorem folded_checks {lit : Value → Prop} (hlit : FoldClosed lit) {stored : Nat → Prop}
    {i : Instruction} {o : Operands} {v : Visited} (hi : i.Fine lit stored)
    (ht : o.TellConstants lit stored) (hv : constantFolding i o = .ok v) (hne : v.instruction ≠ i)
    {a : Assert} {x : Nat} (hc : (a, x) ∈ i.checked) :
    ∃ c, a.check c = .ok () ∧ x ∈ i.reads ∧ (o.temp x).typeHint.constSrc = true ∧
      (o.temp x).srcVal = .value c := by
  cases i with
  | binOp op dest src1 src2 =>
    obtain ⟨hall, r, hfold, -, -⟩ := foldTo_folded hv hne
    have hm1 : src1 ∈ [src1, src2] := List.mem_cons_self
    have hm2 : src2 ∈ [src1, src2] := List.mem_cons_of_mem _ List.mem_cons_self
    obtain ⟨c, hcheck, ⟨rfl, hsrc⟩ | ⟨rfl, hsrc⟩⟩ := binOp_checks hlit
      (ht src1 (hi.reads nofun src1 hm1) (hall src1 hm1))
      (ht src2 (hi.reads nofun src2 hm2) (hall src2 hm2)) hfold hc
    · exact ⟨c, hcheck, hm1, hall x hm1, hsrc⟩
    · exact ⟨c, hcheck, hm2, hall x hm2, hsrc⟩
  | unOp op dest src =>
    obtain ⟨hall, r, hfold, -, -⟩ := foldTo_folded hv hne
    have hm1 : src ∈ [src] := List.mem_cons_self
    obtain ⟨c, hcheck, rfl, hsrc⟩ := unOp_checks hlit
      (ht src (hi.reads nofun src hm1) (hall src hm1)) hfold hc
    exact ⟨c, hcheck, hm1, hall x hm1, hsrc⟩
  | _ =>
    cases hv
    exact absurd rfl hne

/-- The passes that write hints and live intervals only. -/
theorem run_same {p : Pass} (hp : p = .propagateTypes ∨ p = .varLiveness ∨ p = .tempLiveness ∨
    p = .registerAllocation) (hr : oc.run p = .ok oc') :
    oc'.compiler.instructions = oc.compiler.instructions ∧ oc'.obsolete = oc.obsolete := by
  have hints {g : Nat → Instruction → Operands → Operands}
      (hr : (oc.optimize fun count i o => .ok ⟨i, g count i o, []⟩) = .ok oc') :
      oc'.compiler.instructions = oc.compiler.instructions ∧ oc'.obsolete = oc.obsolete := by
    obtain ⟨marked, hl, ho⟩ := optimize_ok hr
    have hnone : marked = [] := by
      refine List.eq_nil_iff_forall_not_mem.mpr fun t ht => ?_
      obtain ⟨n, i, o, v, -, hv, htv⟩ := loop_obsolete hl ht
      cases hv
      cases htv
    rw [hnone, List.append_nil] at ho
    exact ⟨loop_same hl, ho⟩
  rcases hp with rfl | rfl | rfl | rfl
  · exact hints (g := fun _ => propagateTypes) hr
  · exact hints (g := varLiveness oc.compiler) hr
  · exact hints (g := tempLiveness) hr
  · obtain ⟨c, hc, hr⟩ := bind_ok.mp hr
    cases hr
    obtain ⟨s, -, hs⟩ := bind_ok.mp hc
    cases hs
    exact ⟨rfl, rfl⟩

theorem accounted_same (h : oc.Accounted)
    (hcode : oc'.compiler.instructions = oc.compiler.instructions)
    (ho : ∀ t ∈ oc'.obsolete, t ∈ oc.obsolete ∨
      ∀ a, .callAssert a t ∉ oc.compiler.instructions) : oc'.Accounted := by
  refine ⟨hcode ▸ h.asserts, hcode ▸ h.functions, fun t ht a hat => ?_⟩
  rw [hcode] at hat ⊢
  rcases ho t ht with ht | ht
  · exact h.obsolete t ht a hat
  · exact absurd hat (ht a)

/-- Code that has other places only. -/
theorem accounted_moved {c : Compiler} {obsolete : List Nat} (h : oc.Accounted)
    (hold : ∀ i ∈ c.instructions, i ∈ oc.compiler.instructions ∨ ∃ n, i = .forceLoad n)
    (hnew : ∀ i ∈ oc.compiler.instructions, i ∈ c.instructions ∨ i = .noop)
    (ho : ∀ t ∈ obsolete, t ∈ oc.obsolete) :
    (⟨c, obsolete⟩ : OptimizingCompiler).Accounted := by
  have old : ∀ i ∈ c.instructions, (∀ n, i ≠ .forceLoad n) → i ∈ oc.compiler.instructions :=
    fun i hi hne => (hold i hi).resolve_right fun ⟨n, hn⟩ => hne n hn
  refine ⟨fun a t ht i hi hu => ?_, fun t n ht => ?_, fun t ht a hat => ?_⟩
  · refine h.asserts a t (old _ ht nofun) i (old i hi ?_) hu
    rintro n rfl
    cases hu
  · obtain ⟨i, hi, htakes⟩ := h.functions t n (old _ ht nofun)
    refine ⟨i, (hnew i hi).resolve_right ?_, htakes⟩
    rintro rfl
    cases htakes
  · obtain ⟨c', hc', hcheck⟩ := h.obsolete t (ho t ht) a (old _ hat nofun)
    exact ⟨c', (hnew _ hc').resolve_right nofun, hcheck⟩

theorem optimize_reduced {visit : Nat → Instruction → Operands → Except Fault Visited}
    (hr : oc.optimize visit = .ok oc') {R : Instruction → Instruction → List Nat → Prop}
    (step : ∀ {count i o v}, i ∈ oc.compiler.instructions → visit count i o = .ok v →
      R i v.instruction v.obsolete) : ∃ marked,
      Reduced R oc.compiler.instructions oc'.compiler.instructions marked ∧
      oc'.obsolete = oc.obsolete ++ marked := by
  obtain ⟨marked, hl, ho⟩ := optimize_ok hr
  exact ⟨marked, loop_reduced step hl, ho⟩

theorem assign_constantFolding {i : Instruction} {o : Operands} {v : Visited}
    (hv : constantFolding i o = .ok v) (hi : ∃ t s, i = .assign t s) : v.instruction = i := by
  obtain ⟨t, s, rfl⟩ := hi
  cases hv
  rfl

theorem constantFolding_accounted {lit : Value → Prop} (hlit : FoldClosed lit)
    {stored : Nat → Prop} (h : oc.Accounted) (hthread : oc.Threaded) (hhint : oc.Hinted)
    (htold : oc.Told lit stored) (hr : oc.run .constantFolding = .ok oc') : oc'.Accounted := by
  obtain ⟨marked, hl, ho⟩ := optimize_ok hr
  have hreduced := loop_reduced (R := fun i i' _ => ∃ o v, constantFolding i o = .ok v ∧
    i' = v.instruction) (fun {_ i o v} _ hv => ⟨o, v, hv, rfl⟩) hl
  refine accounted_reduced h hreduced (fun {i i' l} hR => ?_) (fun {i i' l} hR hi => ?_)
    ho fun t ht a hat => ?_
  · obtain ⟨o, v, hv, rfl⟩ := hR
    exact accounts_constantFolding hv
  · obtain ⟨o, v, hv, rfl⟩ := hR
    exact assign_constantFolding hv hi
  · obtain ⟨n, i, o, v, hm, hv, htv⟩ := loop_obsolete hl ht
    obtain ⟨hmem, -, htells⟩ := folds_told hlit hm htold.fine htold.noConstants
      htold.tellConstants
    obtain ⟨huse, hgone⟩ := (reduces_constantFolding hv).obsolete t htv
    have hne : v.instruction ≠ i := fun he => hgone (he ▸ huse)
    obtain ⟨j, hj, l, o', v', hv', he⟩ := reduced_old hreduced _ hat
    have hjassert : j = .callAssert a t :=
      ((accounts_constantFolding hv').assert a t he.symm).trans he.symm
    obtain ⟨c, hcheck, hread, hconst, hc⟩ := folded_checks hlit (htold.fine i hmem) htells hv hne
      (h.asserts a t (hjassert ▸ hj) i hmem huse)
    exact ⟨c, constant_assigned hhint hthread.writes hthread.inScope hr hm hread hconst hc, hcheck⟩

/-- A pass that makes the temps obsolete that dead stores would have stored. -/
theorem stores_accounted (h : oc.Accounted)
    {visit : Nat → Instruction → Operands → Except Fault Visited}
    (hr : oc.optimize visit = .ok oc')
    (step : ∀ {count i o v}, visit count i o = .ok v → Accounts i v.instruction ∧
      ((∃ t s, i = .assign t s) → v.instruction = i) ∧
      ∀ t ∈ v.obsolete, ∃ n, i = .store (.var n) t) : oc'.Accounted := by
  obtain ⟨marked, hreduced, ho⟩ := optimize_reduced hr
    (R := fun i i' marked => Accounts i i' ∧ ((∃ t s, i = .assign t s) → i' = i) ∧
      ∀ t ∈ marked, ∃ n, i = .store (.var n) t) fun _ hv => step hv
  refine accounted_reduced h hreduced (fun hR => hR.1) (fun hR => hR.2.1) ho fun t ht a hat => ?_
  obtain ⟨hassert, -, -⟩ := accounts_reduced h hreduced fun hR => hR.1
  obtain ⟨i, hi, i', l, hR, htl⟩ := reduced_obsolete hreduced t ht
  obtain ⟨n, rfl⟩ := hR.2.2 t htl
  have hchecked := h.asserts a t (hassert a t hat) _ hi (List.mem_singleton_self t)
  cases hchecked

theorem deadTemp_marks (hr : oc.run .deadTemp = .ok oc') :
    oc'.compiler.instructions = oc.compiler.instructions ∧ ∀ t ∈ oc'.obsolete,
      t ∈ oc.obsolete ∨ (oc.compiler.operands.temp t).liveEnd = ⊤ := by
  obtain ⟨marked, hl, ho⟩ := optimize_ok hr
  have hinv := loop_invariant (fun done rest o marked => o = oc.compiler.operands ∧
      done ++ rest = oc.compiler.instructions ∧
      ∀ t ∈ marked, (oc.compiler.operands.temp t).liveEnd = ⊤)
    (fun {done i rest o marked v} hinv hv => by
      obtain ⟨rfl, hcode, hmarked⟩ := hinv
      cases hv
      refine ⟨rfl, by rw [List.append_assoc]; exact hcode, fun t ht => ?_⟩
      rcases List.mem_append.mp ht with ht | ht
      · exact hmarked t ht
      · exact of_decide_eq_true (List.mem_filter.mp ht).2)
    ⟨rfl, rfl, nofun⟩ hl
  obtain ⟨-, hcode, hmarked⟩ := hinv
  rw [List.append_nil] at hcode
  refine ⟨hcode, fun t ht => ?_⟩
  rw [ho] at ht
  exact (List.mem_append.mp ht).imp_right (hmarked t)

/-- The step lemma of the passes. -/
theorem run_accounted {lit : Value → Prop} (hlit : FoldClosed lit) {stored : Nat → Prop}
    (h : oc.Accounted) (hthread : oc.Threaded) (hhint : oc.Hinted) (htold : oc.Told lit stored)
    {p : Pass} (hm : p = .deadTemp → oc.Measured) (hr : oc.run p = .ok oc') : oc'.Accounted := by
  have same (hp : p = .propagateTypes ∨ p = .varLiveness ∨ p = .tempLiveness ∨
      p = .registerAllocation) : oc'.Accounted := by
    obtain ⟨hcode, ho⟩ := run_same hp hr
    exact accounted_same h hcode fun t ht => .inl (ho ▸ ht)
  cases p with
  | propagateTypes => exact same (.inl rfl)
  | varLiveness => exact same (.inr (.inl rfl))
  | tempLiveness => exact same (.inr (.inr (.inl rfl)))
  | registerAllocation => exact same (.inr (.inr (.inr rfl)))
  | constantFolding => exact constantFolding_accounted hlit h hthread hhint htold hr
  | loadParams =>
    cases hr
    refine accounted_moved h (fun i hi => ?_) (fun i hi => .inl (List.mem_append_right _ hi))
      fun t => id
    rcases List.mem_append.mp hi with hi | hi
    · obtain ⟨n, -, rfl⟩ := List.mem_map.mp hi
      exact .inr ⟨n, rfl⟩
    · exact .inl hi
  | removeNoop =>
    cases hr
    refine accounted_moved h (fun i hi => .inl (List.mem_filter.mp hi).1) (fun i hi => ?_)
      fun t => id
    by_cases hnoop : i = .noop
    · exact .inr hnoop
    · exact .inl (List.mem_filter.mpr ⟨hi, decide_eq_true hnoop⟩)
  | deadTemp =>
    obtain ⟨hcode, ho⟩ := deadTemp_marks hr
    refine accounted_same h hcode fun t ht => (ho t ht).imp_right fun htop a hat => ?_
    exact hm rfl _ hat t (List.mem_singleton_self t) htop
  | typeSpecialization =>
    refine stores_accounted h hr fun {_ i o v} hv => ?_
    cases hv
    refine ⟨accounts_typeSpecialization i o, ?_, ?_⟩
    · rintro ⟨t, s, rfl⟩
      rfl
    · rw [obsolete_typeSpecialization]
      exact nofun
  | deadVariableAssignment =>
    refine stores_accounted h hr fun {count i o v} hv => ?_
    cases hv
    obtain ⟨haccounts, hstore⟩ := accounts_deadVariableAssignment count i o
    refine ⟨haccounts, ?_, hstore⟩
    rintro ⟨t, s, rfl⟩
    rfl
  | shortJump =>
    refine stores_accounted h hr fun {count i o v} hv => ?_
    cases hv
    refine ⟨accounts_shortJump oc.compiler count i, ?_, nofun⟩
    rintro ⟨t, s, rfl⟩
    rfl
  | removeObsolete =>
    obtain ⟨oc₁, h₁, hr⟩ := bind_ok.mp hr
    cases hr
    obtain ⟨marked, hreduced, -⟩ := optimize_reduced h₁ (R := fun i i' _ => Accounts i i')
      fun _ hv => accounts_removeObsolete hv
    obtain ⟨-, hasserts, hfunctions⟩ := accounts_reduced h hreduced id
    exact ⟨hasserts, hfunctions, nofun⟩

end Passes

end ObsoleteTempsLemmas

end Ir

end Beaverc

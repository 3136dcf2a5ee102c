import Beaverc.Endings

/-!
# The operands of emitted code

The operand of each instruction is an index into a table of its function. While
a function is compiled its tables grow, and the operands already emitted stay in
bounds; the one exception is the `loadConst 0` in front of the report of an
unknown name, for which nothing is put into the table of constants.
-/

namespace Beaverc
open Tables DisciplineLemmas VisitsLemmas EmittedLemmas TopLevelLemmas EndingsLemmas

/-- The operand of the instruction is an index into its table. -/
def Instruction.InBounds (f : Function) : Instruction → Prop
  | .loadConst i => i < f.constants.length
  | .loadFunc (.ofNat i) => i < f.functions.length
  | .loadFunc (.negSucc i) => i < builtins.length
  | .loadLocal i | .storeLocal i => i < f.localVars.length
  | .loadGlobal i | .storeGlobal i | .fieldLoad i | .fieldStore i | .throwUninitialized i =>
    i < f.names.length
  | .pushReference i | .loadReference i | .storeReference i => i < f.numReferences
  | _ => True

/-- What the VM and compiled code rely on when they index the tables. -/
structure Function.Bounded (f : Function) : Prop where
  operands : ∀ i ∈ f.instructions, i.InBounds f
  parameters : f.parameterCount ≤ f.localVars.length

/-- The tables of `g` are at least as long as those of `f`. -/
structure Function.FitsIn (f g : Function) : Prop where
  constants : f.constants.length ≤ g.constants.length
  functions : f.functions.length ≤ g.functions.length
  localVars : f.localVars.length ≤ g.localVars.length
  names : f.names.length ≤ g.names.length
  references : f.numReferences ≤ g.numReferences

/-- The tables of the function in hand hold what has been emitted so far. -/
structure State.Ready (s : State) : Prop where
  globals : ∀ x ∈ s.node.globals, x ∈ s.node.function.names
  references : ∀ x ∈ s.node.freeReferenceVars, x ∈ s.node.function.freeVars
  operands : ∀ i ∈ s.node.function.instructions, i = .loadConst 0 ∨ i.InBounds s.node.function

namespace OperandsLemmas

theorem FitsIn.refl (f : Function) : f.FitsIn f :=
  ⟨le_rfl, le_rfl, le_rfl, le_rfl, le_rfl⟩

theorem inBounds_mono {f g : Function} (h : f.FitsIn g) {i : Instruction} (hi : i.InBounds f) :
    i.InBounds g := by
  cases i with
  | loadConst => exact Nat.lt_of_lt_of_le hi h.constants
  | loadFunc j =>
    cases j with
    | ofNat => exact Nat.lt_of_lt_of_le hi h.functions
    | negSucc => exact hi
  | loadLocal | storeLocal => exact Nat.lt_of_lt_of_le hi h.localVars
  | loadGlobal | storeGlobal | fieldLoad | fieldStore | throwUninitialized =>
    exact Nat.lt_of_lt_of_le hi h.names
  | pushReference | loadReference | storeReference => exact Nat.lt_of_lt_of_le hi h.references
  | _ => trivial

theorem insertIndex_lt (v : List String) (x : String) :
    insertIndex v x < (insert v x).length :=
  (List.getElem?_eq_some_iff.mp (insertIndex_getElem? v x)).1

/-! ## The visits -/

/-- Tables that grow, with the code as it was. -/
theorem ready_grow {s s' : State} (h : s.Ready)
    (hi : s'.node.function.instructions = s.node.function.instructions)
    (hf : s.node.function.FitsIn s'.node.function)
    (hg : ∀ x ∈ s'.node.globals, x ∈ s'.node.function.names)
    (hr : ∀ x ∈ s'.node.freeReferenceVars, x ∈ s'.node.function.freeVars) : s'.Ready := by
  refine ⟨hg, hr, fun i hmem => ?_⟩
  rw [hi] at hmem
  exact (h.operands i hmem).imp_right (inBounds_mono hf)

theorem ready_output {s : State} (h : s.Ready) {i : Instruction}
    (hi : i = .loadConst 0 ∨ i.InBounds s.node.function) : (s.output i).Ready := by
  have hfit : s.node.function.FitsIn (s.output i).node.function :=
    ⟨le_rfl, le_rfl, le_rfl, le_rfl, le_rfl⟩
  refine ⟨h.globals, h.references, fun j hj => ?_⟩
  rcases List.mem_append.mp hj with hj | hj
  · exact (h.operands j hj).imp_right (inBounds_mono hfit)
  · rw [List.mem_singleton.mp hj]
    exact hi.imp_right (inBounds_mono hfit)

theorem ready_insertName {s : State} (h : s.Ready) (x : String) : (s.insertName x).Ready := by
  have hlen := (prefix_insert s.node.function.names x).length_le
  exact ready_grow h rfl ⟨le_rfl, le_rfl, le_rfl, hlen, le_rfl⟩
    (fun y hy => mem_insert.mpr (.inl (h.globals y hy))) h.references

/-- An instruction whose operand is a name inserted just now. -/
theorem nameIndex_lt (s : State) (x : String) :
    s.nameIndex x < (s.insertName x).node.function.names.length :=
  insertIndex_lt s.node.function.names x

theorem ready_visitName {s : State} (h : s.Ready) (isGlobal storing : Bool) (x : String) :
    (visitName isGlobal storing x s).Ready := by
  have hname := ready_insertName h x
  rcases visitName_cases isGlobal storing x s with
    ⟨hg, he⟩ | ⟨-, i, hi, he⟩ | ⟨-, i, hi, he⟩ | ⟨-, -, he⟩ | ⟨-, -, he⟩
  all_goals rw [he]
  · obtain ⟨i, hi⟩ := Option.isSome_iff_exists.mp (index_isSome.mpr (h.globals x hg))
    refine ready_output h (.inr ?_)
    rw [hi]
    cases storing with
    | _ => exact index_lt hi
  · refine ready_output h (.inr ?_)
    cases storing with
    | _ => exact hi
  · refine ready_output h (.inr ?_)
    cases storing with
    | _ => exact hi
  · have hglobal : ((s.insertName x).modifyNode fun n =>
        { n with globals := insert n.globals x }).Ready := by
      refine ⟨fun y hy => ?_, hname.references, hname.operands⟩
      rcases mem_insert.mp hy with hy | rfl
      · exact hname.globals y hy
      · exact mem_insert.mpr (.inr rfl)
    exact ready_output hglobal (.inr (nameIndex_lt s x))
  · refine ready_output (ready_output hname ?_) (.inr (nameIndex_lt s x))
    cases storing with
    | true => exact .inr trivial
    | false => exact .inl rfl

/-- A scan for references finds only what it looks for. -/
theorem refsScanner_keeps (needles : List String) :
    (refsScanner needles).Keeps fun s => ∀ x ∈ s.refs, x ∈ needles where
  name := fun assigning x s h => by
    simp only [refsScanner]
    split
    · unfold RefsState.ignore
      split
      · exact h
      · exact h
    · split
      · next hx =>
        intro y hy
        rcases mem_setInsert.mp hy with rfl | hy
        · exact hx.1
        · exact h y hy
      · exact h
  global := fun x s h => by
    simp only [refsScanner, RefsState.ignore]
    split
    · exact h
    · exact h
  assignment := fun _ h => by simp [refsScanner] at h
  enter := fun enter he arguments s h => by
    cases he
    exact h
  leave := fun _ h => h

theorem mem_getOuterRefs {ref0s locals globals : List String} {body : Block} {x : String}
    (h : x ∈ getOuterRefs ref0s locals globals body) : x ∈ ref0s := by
  have hneedle := body.scan_keeps (refsScanner_keeps _) ⟨[[]], []⟩
    (fun _ h => absurd h List.not_mem_nil) x h
  exact (List.mem_filter.mp hneedle).1

theorem mem_getInnerRefs {locals : List String} {body : Block} {x : String}
    (h : x ∈ getInnerRefs locals body) : x ∈ locals :=
  body.scan_keeps (refsScanner_keeps locals) ⟨[locals], []⟩
    (fun _ h => absurd h List.not_mem_nil) x h

/-- The references a closure captures are references of the enclosing function. -/
theorem captures_lt {n : Node} (h : ∀ x ∈ n.freeReferenceVars, x ∈ n.function.freeVars)
    {body : Block} {i : Nat} (hi : i ∈ captures n body) : i < n.function.numReferences := by
  unfold captures at hi
  rcases List.mem_append.mp hi with hi | hi
  · obtain ⟨x, hx, rfl⟩ := List.mem_map.mp hi
    obtain ⟨k, hk⟩ := Option.isSome_iff_exists.mp (index_isSome.mpr (mem_getOuterRefs hx))
    have hlt := index_lt hk
    simp only [hk, Option.getD_some, Function.numReferences]
    omega
  · obtain ⟨x, hx, rfl⟩ := List.mem_map.mp hi
    obtain ⟨k, hk⟩ := Option.isSome_iff_exists.mp (index_isSome.mpr (h x (mem_getOuterRefs hx)))
    have hlt := index_lt hk
    simp only [hk, Option.getD_some, Function.numReferences]
    omega

theorem ready_pushReferences (refs : List Nat) {s : State} (h : s.Ready)
    (hrefs : ∀ i ∈ refs, i < s.node.function.numReferences) :
    (refs.foldl (fun s i => s.output (.pushReference i)) s).Ready := by
  induction refs generalizing s with
  | nil => exact h
  | cons i refs ih =>
    have hi := ready_output h (i := .pushReference i) (.inr (hrefs i (List.mem_cons_self ..)))
    exact ih hi fun j hj => hrefs j (List.mem_cons_of_mem i hj)

theorem ready_leaveFunction {s : State} (h : s.Ready) (body : Block) (inner : State) :
    (leaveFunction body inner s).Ready := by
  set f : Function := { inner.node.function with argMapping := argMappingOf inner.node.function }
  set s₁ := { s with labelNum := inner.labelNum }.modifyFunction fun g =>
    { g with functions := g.functions ++ [f] } with hs₁
  have h₁ : s₁.Ready := by
    refine ready_grow h rfl ⟨le_rfl, ?_, le_rfl, le_rfl, le_rfl⟩ h.globals h.references
    show _ ≤ (s.node.function.functions ++ [f]).length
    rw [List.length_append]
    omega
  have h₂ := ready_pushReferences (captures s₁.node body).reverse h₁ fun i hi =>
    captures_lt h₁.references (List.mem_reverse.mp hi)
  have hfs := foldl_output_functions (captures s₁.node body).reverse s₁
  set s₂ := (captures s₁.node body).reverse.foldl (fun s i => s.output (.pushReference i)) s₁
  have hlen : s₂.node.function.functions.length - 1 < s₂.node.function.functions.length := by
    rw [hfs, show s₁.node.function.functions = s.node.function.functions ++ [f] from rfl,
      List.length_append, List.length_singleton]
    omega
  have h₃ := ready_output h₂ (i := .loadFunc (s₂.node.function.functions.length - 1 : Nat))
    (.inr hlen)
  exact ready_output h₃ (.inr trivial)

theorem ready_loadConst {s : State} (h : s.Ready) (c : Constant) : (s.loadConst c).Ready := by
  have hi : insertIndex s.node.function.constants c <
      (insert s.node.function.constants c).length :=
    (List.getElem?_eq_some_iff.mp (insertIndex_getElem? _ c)).1
  have hgrow : (s.modifyFunction fun f => { f with constants := insert f.constants c }).Ready :=
    ready_grow h rfl ⟨(prefix_insert _ c).length_le, le_rfl, le_rfl, le_rfl, le_rfl⟩ h.globals
      h.references
  exact ready_output hgrow (.inr hi)

theorem inBounds_standsAlone {i : Instruction} (h : i.standsAlone = true) (f : Function) :
    i.InBounds f := by
  cases i <;> trivial

theorem ready_kept (up : List Node) : KeptByVisits up State.Ready where
  visit v s h := by
    cases v with
    | load x => exact ready_visitName h _ false x
    | store x => exact ready_visitName h _ true x
    | storing x => exact ⟨h.globals, h.references, h.operands⟩
    | literal l => exact ready_leaveFunction h l.body _
    | const c => exact ready_loadConst h c
    | field x => exact ready_insertName h x
    | fieldLoad x => exact ready_output (ready_insertName h x) (.inr (nameIndex_lt s x))
    | fieldStore x => exact ready_output (ready_insertName h x) (.inr (nameIndex_lt s x))
    | output i hi => exact ready_output h (.inr (inBounds_standsAlone hi _))
    | ret =>
      have hr := ready_output h (i := .ret) (.inr trivial)
      exact ⟨hr.globals, hr.references, hr.operands⟩
  goto l s h := ready_output h (.inr trivial)
  ifTrue l s h := ready_output h (.inr trivial)
  label l s h := by
    have hl := ready_output h (i := .label l) (.inr trivial)
    exact ready_grow hl rfl ⟨le_rfl, le_rfl, le_rfl, le_rfl, le_rfl⟩ hl.globals hl.references
  labelNum n s h := ⟨h.globals, h.references, h.operands⟩

/-! ## The tables at the start -/

theorem dependenciesScanner_keeps_globals (up : List Node) :
    (dependenciesScanner up).Keeps fun n => ∀ x ∈ n.globals, x ∈ n.function.names where
  name := fun _ x n h => by
    simp only [dependenciesScanner]
    split
    · exact h
    · split
      · intro y hy
        rcases mem_insert.mp hy with hy | rfl
        · exact mem_insert.mpr (.inl (h y hy))
        · exact mem_insert.mpr (.inr rfl)
      · exact h
  global := fun _ _ h => h
  assignment := fun _ h => by simp [dependenciesScanner] at h
  enter := fun _ h => by simp [dependenciesScanner] at h
  leave := fun _ h => h

/-- The scan for dependencies adds to the names and the globals only. -/
theorem dependenciesScanner_keeps_layout (up : List Node) (l : Layout) :
    (dependenciesScanner up).Keeps fun n => n.layout = l where
  name := fun _ x n h => by
    simp only [dependenciesScanner]
    split
    · exact h
    · split
      · exact h
      · exact h
  global := fun _ _ h => h
  assignment := fun _ h => by simp [dependenciesScanner] at h
  enter := fun _ h => by simp [dependenciesScanner] at h
  leave := fun _ h => h

/-- The variables of a new function. -/
def enteredLayout (parent : Node) (l : Literal) : Layout :=
  let globals := getGlobals l.body
  let localVars := insertAll (insertAll [] l.arguments) (getLocals globals l.body)
  let freeVars := insertAll (insertAll [] (localRef0s parent l.body)) (freeRef0s parent l.body)
  { parameterCount := l.arguments.length
    localVars := localVars
    localReferenceVars := insertAll [] (getInnerRefs localVars l.body)
    freeVars := freeVars
    freeReferenceVars := insertAll [] (getInnerRefs freeVars l.body) }

theorem enterFunction_layout (parent : Node) (up : List Node) (l : Literal) :
    (enterFunction parent up l.arguments l.body).layout = enteredLayout parent l :=
  l.body.scan_keeps (dependenciesScanner_keeps_layout _ _) _ rfl

theorem ready_enterFunction (parent : Node) (up : List Node) (l : Literal) (n : Nat) :
    State.Ready ⟨enterFunction parent up l.arguments l.body, n⟩ := by
  have hlayout := enterFunction_layout parent up l
  have hfresh := enterFunction_fresh parent up l.arguments l.body
  refine ⟨?_, fun x hx => ?_, fun i hi => ?_⟩
  · exact l.body.scan_keeps (dependenciesScanner_keeps_globals _) _ fun x hx => hx
  · have hrefs : (enterFunction parent up l.arguments l.body).freeReferenceVars =
        (enteredLayout parent l).freeReferenceVars := congrArg Layout.freeReferenceVars hlayout
    have hfree : (enterFunction parent up l.arguments l.body).function.freeVars =
        (enteredLayout parent l).freeVars := congrArg Layout.freeVars hlayout
    show x ∈ (enterFunction parent up l.arguments l.body).function.freeVars
    rw [hfree]
    have hx' : x ∈ (enteredLayout parent l).freeReferenceVars := hrefs ▸ hx
    exact mem_getInnerRefs ((mem_insertAll.mp hx').resolve_left List.not_mem_nil)
  · have hnil : (enterFunction parent up l.arguments l.body).function.instructions = [] :=
      hfresh.instructions
    rw [hnil] at hi
    exact absurd hi List.not_mem_nil

theorem ready_initialState : initialState.Ready := by
  refine ⟨by decide, by decide, fun i hi => .inr ?_⟩
  have hcode : initialState.node.function.instructions = [.loadFunc (-1), .storeGlobal 0,
      .loadFunc (-2), .storeGlobal 1, .loadFunc (-3), .storeGlobal 2] := by decide
  rw [hcode] at hi
  simp only [List.mem_cons, List.not_mem_nil, or_false] at hi
  rcases hi with rfl | rfl | rfl | rfl | rfl | rfl
  all_goals
    show _ < _
    decide

end OperandsLemmas

open OperandsLemmas

/-! ## The functions of literals -/

/-- The local variables of a literal, its parameters first. -/
def Literal.localVars (l : Literal) : List String :=
  insertAll (insertAll [] l.arguments) (getLocals (getGlobals l.body) l.body)

/-- The parameters of the literal are distinct, or it assigns other variables in
the place of the repetitions. -/
def Literal.parametersFit (l : Literal) : Bool :=
  l.arguments.length ≤ l.localVars.length

namespace OperandsLemmas

theorem ready_bounded {s : State} (h : s.Ready) (hc : s.node.function.constants ≠ []) :
    ∀ i ∈ s.node.function.instructions, i.InBounds s.node.function := by
  intro i hi
  rcases h.operands i hi with rfl | hi
  · exact List.length_pos_of_ne_nil hc
  · exact hi

theorem insert_ne_nil (v : List Constant) (c : Constant) : insert v c ≠ [] := by
  intro h
  have hmem : c ∈ insert v c := mem_insert.mpr (.inr rfl)
  rw [h] at hmem
  exact absurd hmem List.not_mem_nil

theorem emitted_operands (up : List Node) (parent : Node) (n : Nat) (l : Literal) :
    ∀ i ∈ (l.emitted up parent n).instructions, i.InBounds (l.emitted up parent n) := by
  set inner := l.body.transpile (parent :: up) ⟨enterFunction parent up l.arguments l.body, n⟩
    with hinner
  have hbody : inner.Ready :=
    l.body.transpile_keeps (ready_kept _) _ (ready_enterFunction parent up l n)
  have hready : (l.compiled up parent n).Ready :=
    (ready_kept up).visit .ret _ (ready_loadConst hbody .none)
  intro i hi
  have hb := ready_bounded hready (insert_ne_nil inner.node.function.constants .none) i hi
  exact inBounds_mono ⟨le_rfl, le_rfl, le_rfl, le_rfl, le_rfl⟩ hb

theorem compiled_layout (up : List Node) (parent : Node) (n : Nat) (l : Literal) :
    (l.compiled up parent n).node.layout = enteredLayout parent l := by
  obtain ⟨code, hg, -⟩ := l.body.transpile_emits (parent :: up)
    ⟨enterFunction parent up l.arguments l.body, n⟩
  obtain ⟨k, hk⟩ := grows_loadConst .none
    (l.body.transpile (parent :: up) ⟨enterFunction parent up l.arguments l.body, n⟩)
  have hlayout := ((hg.trans hk).trans (grows_outputReturn _)).layout
  exact hlayout.trans (enterFunction_layout parent up l)

/-- The function of a literal is bounded if its parameters fit. -/
theorem emittedAs_bounded_iff {up : List Node} {l : Literal} {f : Function}
    (h : l.EmittedAs up f) : f.Bounded ↔ l.parametersFit = true := by
  obtain ⟨parent, n, rfl⟩ := h
  have hlayout := compiled_layout up parent n l
  have hcount : (l.emitted up parent n).parameterCount = l.arguments.length :=
    congrArg Layout.parameterCount hlayout
  have hvars : (l.emitted up parent n).localVars = l.localVars :=
    congrArg Layout.localVars hlayout
  have hfit : l.parametersFit = true ↔
      (l.emitted up parent n).parameterCount ≤ (l.emitted up parent n).localVars.length := by
    rw [hcount, hvars]
    exact decide_eq_true_iff
  rw [hfit]
  exact ⟨fun hb => hb.parameters, fun hp => ⟨emitted_operands up parent n l, hp⟩⟩

end OperandsLemmas

/-! ## The main function -/

/-- The top-level code reads an unknown name, has no constant, and leaves out the
default return, which would load one. -/
def Block.lacksConstant (prog : Program) : Bool :=
  prog.topLevel.returns && !prog.topLevel.known && !prog.topLevel.constant

namespace OperandsLemmas

/-- With an empty table of constants no load of a constant is in bounds. -/
theorem bounded_iff_of_ready {s : State} (h : s.Ready) (hp : s.node.function.parameterCount = 0) :
    s.node.function.Bounded ↔ ¬ (s.node.function.constants = [] ∧
      s.node.function.instructions.any Instruction.isLoadConst = true) := by
  constructor
  · rintro hb ⟨hc, hload⟩
    obtain ⟨i, hi, hl⟩ := List.any_eq_true.mp hload
    cases i with
    | loadConst k =>
      have hk : k < s.node.function.constants.length := hb.operands _ hi
      rw [hc] at hk
      exact absurd hk (Nat.not_lt_zero k)
    | _ => cases hl
  · intro hn
    refine ⟨fun i hi => ?_, by rw [hp]; exact Nat.zero_le _⟩
    by_cases hc : s.node.function.constants = []
    · rcases h.operands i hi with rfl | hi'
      · exact absurd ⟨hc, List.any_eq_true.mpr ⟨_, hi, rfl⟩⟩ hn
      · exact hi'
    · exact ready_bounded h hc i hi

theorem main_bounded_iff (prog : Program) :
    (compile prog).Bounded ↔ prog.lacksConstant = false := by
  obtain ⟨code, hs, -⟩ := prog.transpile_flow initialState initialState_isMain
  have hready := prog.transpile_keeps (ready_kept []) initialState ready_initialState
  obtain ⟨code', hg, -⟩ := prog.transpile_emits [] initialState
  have hcount : (prog.transpile [] initialState).node.function.parameterCount = 0 :=
    congrArg Layout.parameterCount hg.layout
  have hret : (prog.transpile [] initialState).node.returned = prog.topLevel.returns := hs.returned
  unfold compile visitProgram Block.lacksConstant
  cases hr : prog.topLevel.returns with
  | true =>
    simp only [hret, hr, ↓reduceIte]
    rw [bounded_iff_of_ready hready hcount, hs.constants, hs.code_eq, List.any_append, hs.loads,
      show initialState.node.function.instructions.any Instruction.isLoadConst = false by decide]
    have hconst : initialState.node.function.constants = [] := by decide
    show ¬ ((_ ∧ prog.topLevel.constant = false) ∧
      (false || (prog.topLevel.constant || !prog.topLevel.known)) = true) ↔ _
    cases prog.topLevel.constant <;> cases prog.topLevel.known <;> simp [hconst]
  | false =>
    simp only [hret, hr, Bool.false_eq_true, ↓reduceIte]
    set s := prog.transpile [] initialState
    have hlast := (ready_kept []).visit .ret _ (ready_loadConst hready (.integer 0))
    refine iff_of_true ?_ rfl
    exact (bounded_iff_of_ready hlast hcount).mpr fun h =>
      insert_ne_nil s.node.function.constants (.integer 0) h.1

end OperandsLemmas

/-- All operands of a compiled program are in bounds exactly if the main function
has the constant its unknown names load, and the parameters of each literal fit
its local variables. -/
theorem compile_bounded_iff (prog : Program) :
    (∀ f, SubFunction (compile prog) f → f.Bounded) ↔
      prog.lacksConstant = false ∧ ∀ l, prog.Contains l → l.parametersFit = true := by
  rw [← main_bounded_iff prog]
  constructor
  · refine fun h => ⟨h _ (.refl _), fun l hl => ?_⟩
    obtain ⟨up, f, hf, he⟩ := contains_emitted hl
    exact (emittedAs_bounded_iff he).mp (h f hf)
  · rintro ⟨hmain, hfit⟩ f hf
    rcases subFunction_emitted hf with rfl | ⟨up, l, hl, he⟩
    · exact hmain
    · exact (emittedAs_bounded_iff he).mpr (hfit l hl)

/-- Only the constant of an unknown name can be missing. -/
theorem compile_operands (prog : Program) {f : Function} (h : SubFunction (compile prog) f) :
    ∀ i ∈ f.instructions, i = .loadConst 0 ∨ i.InBounds f := by
  rcases subFunction_emitted h with rfl | ⟨up, l, -, parent, n, rfl⟩
  · have hready := prog.transpile_keeps (ready_kept []) initialState ready_initialState
    unfold compile visitProgram
    cases hr : (prog.transpile [] initialState).node.returned with
    | true =>
      simp only [hr, ↓reduceIte]
      exact hready.operands
    | false =>
      simp only [hr, Bool.false_eq_true, ↓reduceIte]
      exact ((ready_kept []).visit .ret _ (ready_loadConst hready (.integer 0))).operands
  · exact fun i hi => .inr (emitted_operands up parent n l i hi)

/-- `return x;` -/
def returnUnknown : Program :=
  .cons (.ret (.lhs (.name "x"))) .nil

/-- The load in front of the report of `x` reads an empty table. -/
theorem returnUnknown_unbounded :
    (compile returnUnknown).instructions.drop 6 = [.loadConst 0, .throwUninitialized 3, .ret] ∧
      (compile returnUnknown).constants = [] ∧
      ¬ ∀ f, SubFunction (compile returnUnknown) f → f.Bounded := by
  refine ⟨by decide, by decide, fun h => ?_⟩
  have hmem : .loadConst 0 ∈ (compile returnUnknown).instructions := by decide
  have hlt : 0 < (compile returnUnknown).constants.length := (h _ (.refl _)).operands _ hmem
  exact absurd hlt (by decide)

end Beaverc

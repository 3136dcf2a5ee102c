import Beaverc.Operands
import Beaverc.Semantics

/-!
# Compiled expressions

The code of an expression, run by `run_function` from any operand stack, does
what the expression means (`Beaverc.Semantics`) and pushes its value; the code
of a store takes the value from the stack. `State.Within` says that a state of
the compiler is one on the way to the function at hand: the code of a piece of
syntax is entered at the number of instructions that were there before it, and
the tables it refers to keep what they hold.
-/

namespace Beaverc
open Tables Process DisciplineLemmas VisitsLemmas OperandsLemmas ControlFlowLemmas StepsLemmas
open Results

/-- Operations on the world; the rest of what a frame shows is internal. -/
def Event.isAct : Event → Bool
  | .act _ => true
  | _ => false

/-- `run_function` as seen from the outside. -/
def Frame.observed : Activity Frame :=
  Frame.move.observe Event.isAct id

/-- The frame in which `f` runs with these variables. -/
def Variables.frame (A : Variables) (f : Function) (stack : List Value) (ip : Nat) : Frame where
  closure := A.closure
  function := f
  references := f.localReferenceVars.map A.boxes ++ f.freeVars.map A.captured
  locals := f.localVars.map A.locals
  stack := stack
  ip := ip

/-- The function that is compiled will have the code and the tables of `s`, and
more. -/
structure State.Within (s : State) (f : Function) : Prop where
  instructions : s.node.function.instructions <+: f.instructions
  constants : s.node.function.constants <+: f.constants
  names : s.node.function.names <+: f.names
  localVars : s.node.function.localVars = f.localVars
  localReferenceVars : s.node.function.localReferenceVars = f.localReferenceVars
  freeVars : s.node.function.freeVars = f.freeVars

/-- What the code relies on in the finished function. -/
structure Function.Runs (f : Function) : Prop where
  wellEmitted : WellEmitted f
  constants : .loadConst 0 ∈ f.instructions → f.constants ≠ []
  localVars : f.localVars.Nodup

/-- The value of an expression is on top of the stack. -/
def Pushes (A : Variables) (f : Function) (stack : List Value) (ip : Nat) (r : Value × World)
    (s : Frame × World) : Prop :=
  s = (A.frame f (r.1 :: stack) ip, r.2)

/-- A statement is left at its end, or the frame is about to return. -/
def Completes (f : Function) (ip : Nat) (c : Completion) (s : Frame × World) : Prop :=
  match c with
  | .normal A w => s = (A.frame f [] ip, w)
  | .returned v w => Frame.observed s = .ok (.stop (some v, w))

namespace CompiledExpressionsLemmas

variable {f : Function} {A : Variables} {stack : List Value} {ip n : Nat} {w : World}
  {i : Instruction}

/-! ## Tables -/

theorem getElem?_extended {α : Type} {l l' : List α} (h : l <+: l') {k : Nat} {x : α}
    (hk : l[k]? = some x) : l'[k]? = some x := by
  obtain ⟨rest, rfl⟩ := h
  rw [List.getElem?_append_left (List.getElem?_eq_some_iff.mp hk).1, hk]

theorem within_grows {s s' : State} {code : List Instruction} (h : Grows s s' code)
    (hw : s'.Within f) : s.Within f where
  instructions := (h.code_eq ▸ List.prefix_append _ code).trans hw.instructions
  constants := h.constants.trans hw.constants
  names := h.names.trans hw.names
  localVars := (congrArg Layout.localVars h.layout).symm.trans hw.localVars
  localReferenceVars := (congrArg Layout.localReferenceVars h.layout).symm.trans
    hw.localReferenceVars
  freeVars := (congrArg Layout.freeVars h.layout).symm.trans hw.freeVars

theorem within_emits {s s' : State} {k m : Nat} (h : Emits k m s s') (hw : s'.Within f) :
    s.Within f := by
  obtain ⟨code, hg, -⟩ := h
  exact within_grows hg hw

theorem within_output {s : State} (h : (s.output i).Within f) : s.Within f :=
  ⟨(List.prefix_append _ _).trans h.instructions, h.constants, h.names, h.localVars,
    h.localReferenceVars, h.freeVars⟩

/-- The instruction that was emitted last. -/
theorem output_at {s : State} (h : (s.output i).Within f) : f.instructions[s.count]? = some i := by
  refine getElem?_extended h.instructions ?_
  show (s.node.function.instructions ++ [i])[s.node.function.instructions.length]? = some i
  exact List.getElem?_concat_length

theorem count_output (s : State) (i : Instruction) : (s.output i).count = s.count + 1 := by
  show (s.node.function.instructions ++ [i]).length = _
  rw [List.length_append]
  rfl

theorem count_outputLabel (s : State) (l : Nat) : (s.outputLabel l).count = s.count + 1 :=
  count_output _ _

theorem name_at {s : State} {x : String} (h : (s.insertName x).Within f) :
    f.names[s.nameIndex x]? = some x :=
  getElem?_extended h.names (insertIndex_getElem? s.node.function.names x)

theorem global_at {s : State} (hr : s.Ready) (h : s.Within f) {x : String}
    (hx : x ∈ s.node.globals) : f.names[(index s.node.function.names x).getD 0]? = some x := by
  obtain ⟨k, hk⟩ := Option.isSome_iff_exists.mp (index_isSome.mpr (hr.globals x hx))
  rw [hk]
  exact getElem?_extended h.names (index_getElem? hk)

theorem constant_at {s : State} {c : Constant} (h : (s.loadConst c).Within f) :
    f.constants[insertIndex s.node.function.constants c]? = some c :=
  getElem?_extended h.constants (insertIndex_getElem? s.node.function.constants c)

theorem reference_free {k : Nat} {x : String} (h : index f.freeVars x = some k) :
    (A.frame f stack ip).references[f.localReferenceVars.length + k]? = some (A.captured x) := by
  show (f.localReferenceVars.map A.boxes ++ f.freeVars.map A.captured)[_]? = _
  rw [List.getElem?_append_right (by rw [List.length_map]; exact Nat.le_add_right _ k),
    List.length_map, Nat.add_sub_cancel_left, List.getElem?_map, index_getElem? h]
  rfl

theorem reference_box {k : Nat} {x : String} (h : index f.localReferenceVars x = some k) :
    (A.frame f stack ip).references[k]? = some (A.boxes x) := by
  show (f.localReferenceVars.map A.boxes ++ f.freeVars.map A.captured)[_]? = _
  rw [List.getElem?_append_left (by rw [List.length_map]; exact index_lt h), List.getElem?_map,
    index_getElem? h]
  rfl

theorem local_at {k : Nat} {x : String} (h : index f.localVars x = some k) :
    (A.frame f stack ip).locals[k]? = some (A.locals x) := by
  show (f.localVars.map A.locals)[k]? = _
  rw [List.getElem?_map, index_getElem? h]
  rfl

/-- A store to the slot of a variable changes that variable. -/
theorem set_local {l : List String} (hl : l.Nodup) {k : Nat} {x : String} (h : index l x = some k)
    (g : String → Value) (v : Value) : (l.map g).set k v = l.map (Function.update g x v) := by
  have hk := index_getElem? h
  refine List.ext_getElem? fun m => ?_
  rw [List.getElem?_set, List.length_map, List.getElem?_map]
  split
  · next hkm =>
    subst hkm
    rw [if_pos (index_lt h), List.getElem?_map, hk]
    simp
  · next hkm =>
    rw [List.getElem?_map]
    cases hm : l[m]? with
    | none => rfl
    | some y =>
      have hne : y ≠ x := fun hyx =>
        hkm ((List.getElem?_inj (index_lt h) hl).mp (by rw [hk, hm, hyx]))
      simp [Function.update_of_ne hne]

/-! ## One instruction -/

theorem observed_next {fr' : Frame} {w' : World} {ev : Option Event}
    (hi : f.instructions[ip]? = some i)
    (hx : (A.frame f stack ip).exec i w = .ok (.next fr' w' ev)) :
    Frame.observed (A.frame f stack ip, w) =
      .ok (.step (ev.toList.filter Event.isAct) (fr', w')) := by
  have hi' : (A.frame f stack ip).function.instructions[(A.frame f stack ip).ip]? = some i := hi
  unfold Frame.observed Process.observe Frame.move
  simp only [hi', hx]
  rfl

theorem observed_error {e : Stop} (hi : f.instructions[ip]? = some i)
    (hx : (A.frame f stack ip).exec i w = .error e) :
    Frame.observed (A.frame f stack ip, w) = .error e := by
  have hi' : (A.frame f stack ip).function.instructions[(A.frame f stack ip).ip]? = some i := hi
  unfold Frame.observed Process.observe Frame.move
  simp only [hi', hx]
  rfl

/-- An instruction that only moves values between the frame's own slots. -/
theorem quiet (A' : Variables) (stack' : List Value) (ip' : Nat) (ev : Option Event) {γ : Type}
    {T : Computation γ} {G : γ → Frame × World → Prop} (hi : f.instructions[ip]? = some i)
    (hx : (A.frame f stack ip).exec i w = .ok (.next (A'.frame f stack' ip') w ev))
    (hev : ev.toList.filter Event.isAct = [])
    (h : Frame.observed.Performs n (A'.frame f stack' ip', w) T G) :
    Frame.observed.Performs n (A.frame f stack ip, w) T G := by
  have hs := observed_next hi hx
  rw [hev] at hs
  exact .silent hs h

theorem performs_push {v : Value} (hi : f.instructions[ip]? = some i) {stack' : List Value}
    (hx : (A.frame f stack' ip).exec i w = (A.frame f stack' ip).push v stack w) :
    Frame.observed.Performs n (A.frame f stack' ip, w) (.done (v, w))
      (Pushes A f stack (ip + 1)) :=
  quiet A (v :: stack) (ip + 1) none hi hx rfl (.done rfl)

theorem performs_load {a : Action} (hi : f.instructions[ip]? = some i) {stack' : List Value}
    (hx : (A.frame f stack' ip).exec i w = (A.frame f stack' ip).load a stack w) :
    Frame.observed.Performs n (A.frame f stack' ip, w) (a.run w) (Pushes A f stack (ip + 1)) := by
  unfold Action.run
  unfold Frame.load at hx
  cases ha : perform a w with
  | error e =>
    rw [ha] at hx
    exact .fail (observed_error hi hx)
  | ok r =>
    rw [ha] at hx
    exact .step (observed_next hi hx) (.done rfl)

/-- An action whose result is dropped. -/
theorem performs_store (rest : List Value) {a : Action} (hi : f.instructions[ip]? = some i)
    (hx : (A.frame f stack ip).exec i w = (A.frame f stack ip).store a rest w) :
    Frame.observed.Performs n (A.frame f stack ip, w) (a.run w)
      (fun r s => s = (A.frame f rest (ip + 1), r.2)) := by
  unfold Action.run
  unfold Frame.store at hx
  cases ha : perform a w with
  | error e =>
    rw [ha] at hx
    exact .fail (observed_error hi hx)
  | ok r =>
    rw [ha] at hx
    exact .step (observed_next hi hx) (.done rfl)

theorem performs_computed {x : Except Stop Value} (hi : f.instructions[ip]? = some i)
    {stack' : List Value}
    (hx : (A.frame f stack' ip).exec i w = x.bind fun v => (A.frame f stack' ip).push v stack w) :
    Frame.observed.Performs n (A.frame f stack' ip, w) (computed x w)
      (Pushes A f stack (ip + 1)) := by
  cases x with
  | error e => exact .fail (observed_error hi hx)
  | ok v => exact performs_push hi hx

/-! ## What stays as it is -/

end CompiledExpressionsLemmas

/-- The visits that change what names stand for. -/
def Visit.stores : Visit → Bool
  | .store _ | .storing _ | .ret => true
  | _ => false

mutual
theorem LHS.visits_read : (l : LHS) → ∀ v ∈ l.visits, v.stores = false
  | .name _ => by
    rw [LHS.visits]
    exact List.forall_mem_singleton.mpr rfl
  | .index base idx => by
    rw [LHS.visits]
    refine List.forall_mem_append.mpr ⟨List.forall_mem_append.mpr ⟨?_, ?_⟩, ?_⟩
    · exact base.visits_read
    · exact idx.visits_read
    · exact List.forall_mem_singleton.mpr rfl
  | .field base x => by
    rw [LHS.visits]
    refine List.forall_mem_append.mpr ⟨List.forall_mem_cons.mpr ⟨rfl, ?_⟩, ?_⟩
    · exact base.visits_read
    · exact List.forall_mem_singleton.mpr rfl

theorem Expression.visits_read : (e : Expression) → ∀ v ∈ e.visits, v.stores = false
  | .lhs l => l.visits_read
  | .call target arguments => by
    rw [Expression.visits]
    refine List.forall_mem_append.mpr ⟨List.forall_mem_append.mpr ⟨?_, ?_⟩, ?_⟩
    · exact arguments.visits_read
    · exact target.visits_read
    · exact List.forall_mem_singleton.mpr rfl
  | .function _ _ | .boolConst _ | .strConst _ | .intConst _ | .nullConst =>
    List.forall_mem_singleton.mpr rfl
  | .record fields => by
    rw [Expression.visits]
    exact List.forall_mem_cons.mpr ⟨rfl, fields.visits_read⟩
  | .binaryOp op left right => by
    have hl := left.visits_read
    have hr := right.visits_read
    rw [Expression.visits]
    refine List.forall_mem_append.mpr ⟨?_, List.forall_mem_singleton.mpr rfl⟩
    split
    · exact List.forall_mem_append.mpr ⟨hr, hl⟩
    · exact List.forall_mem_append.mpr ⟨hl, hr⟩
  | .unaryOp op expr => by
    rw [Expression.visits]
    exact List.forall_mem_append.mpr ⟨expr.visits_read, List.forall_mem_singleton.mpr rfl⟩

theorem Arguments.visits_read : (as : Arguments) → ∀ v ∈ as.visits, v.stores = false
  | .nil => fun _ hv => absurd hv List.not_mem_nil
  | .cons head tail => by
    rw [Arguments.visits]
    exact List.forall_mem_append.mpr ⟨head.visits_read, tail.visits_read⟩

theorem Fields.visits_read : (fs : Fields) → ∀ v ∈ fs.visits, v.stores = false
  | .nil => fun _ hv => absurd hv List.not_mem_nil
  | .cons key value tail => by
    rw [Fields.visits]
    refine List.forall_mem_append.mpr ⟨List.forall_mem_append.mpr ⟨?_, ?_⟩, tail.visits_read⟩
    · exact List.forall_mem_cons.mpr ⟨rfl, value.visits_read⟩
    · exact List.forall_mem_singleton.mpr rfl
end

/-- Going from `s` to `s'` the compiler added the functions of these literals, in
this order. -/
def Numbers (up : List Node) (ls : List Literal) (s s' : State) : Prop :=
  ∃ new, s'.node.function.functions = s.node.function.functions ++ new ∧
    List.Forall₂ (Literal.EmittedAs up) ls new

namespace CompiledExpressionsLemmas

variable {f : Function} {A : Variables} {stack : List Value} {ip n : Nat} {w : World}
  {i : Instruction}

theorem foldl_output_globals (refs : List Nat) (s : State) :
    (refs.foldl (fun s i => s.output (.pushReference i)) s).node.globals = s.node.globals := by
  induction refs generalizing s with
  | nil => rfl
  | cons i refs ih => exact ih _

theorem visit_globals (up : List Node) {v : Visit} (hv : v.stores = false) (s : State) :
    (v.transpile up s).node.globals = s.node.globals := by
  cases v with
  | load x =>
    rcases visitName_cases up.isEmpty false x s with
      ⟨-, h⟩ | ⟨-, _, -, h⟩ | ⟨-, _, -, h⟩ | ⟨-, h, -⟩ | ⟨-, -, h⟩
    case inr.inr.inr.inl => cases h
    all_goals
      simp only [Visit.transpile, h]
      rfl
  | literal l => exact foldl_output_globals _ _
  | store | storing | ret => cases hv
  | _ => rfl

theorem transpileAll_globals (up : List Node) {vs : List Visit} (h : ∀ v ∈ vs, v.stores = false)
    (s : State) : (transpileAll up vs s).node.globals = s.node.globals := by
  induction vs generalizing s with
  | nil => rfl
  | cons v vs ih =>
    rw [transpileAll_cons, ih fun u hu => h u (List.mem_cons_of_mem v hu)]
    exact visit_globals up (h v (List.mem_cons_self ..)) s

theorem scope_eq {s s' : State} {b : Bool} (hg : s'.node.globals = s.node.globals)
    (hl : s'.node.layout = s.node.layout) : s'.node.scope b = s.node.scope b := by
  simp only [Node.layout, Layout.mk.injEq] at hl
  obtain ⟨-, h₁, h₂, h₃, h₄⟩ := hl
  unfold Node.scope
  rw [hg, h₁, h₂, h₃, h₄]

theorem numbers_none {up : List Node} {s s' : State}
    (h : s'.node.function.functions = s.node.function.functions) : Numbers up [] s s' :=
  ⟨[], by rw [h, List.append_nil], .nil⟩

theorem numbers_append {up : List Node} {ls ms : List Literal} {s₁ s₂ s₃ : State}
    (h₁ : Numbers up ls s₁ s₂) (h₂ : Numbers up ms s₂ s₃) : Numbers up (ls ++ ms) s₁ s₃ := by
  obtain ⟨new₁, he₁, hn₁⟩ := h₁
  obtain ⟨new₂, he₂, hn₂⟩ := h₂
  exact ⟨new₁ ++ new₂, by rw [he₂, he₁, List.append_assoc], List.rel_append hn₁ hn₂⟩

theorem numbers_length {up : List Node} {ls : List Literal} {s s' : State}
    (h : Numbers up ls s s') : s'.node.function.functions.length =
      s.node.function.functions.length + ls.length := by
  obtain ⟨new, he, hn⟩ := h
  rw [he, List.length_append, hn.length_eq]

theorem visit_numbers (up : List Node) (v : Visit) (s : State) :
    Numbers up v.literal?.toList s (v.transpile up s) := by
  cases v with
  | load x | store x => exact numbers_none (EmittedLemmas.visitName_functions _ _ x s)
  | literal l =>
    exact ⟨[l.emitted up s.node s.labelNum], EmittedLemmas.leaveFunction_functions _ _ s,
      .cons ⟨s.node, s.labelNum, rfl⟩ .nil⟩
  | _ => exact numbers_none rfl

theorem transpileAll_numbers (up : List Node) (vs : List Visit) (s : State) :
    Numbers up (vs.filterMap Visit.literal?) s (transpileAll up vs s) := by
  induction vs generalizing s with
  | nil => exact numbers_none rfl
  | cons v vs ih =>
    have h := numbers_append (visit_numbers up v s) (ih (v.transpile up s))
    cases hv : v.literal? with
    | none => rw [List.filterMap_cons_none hv]; rwa [hv] at h
    | some l => rw [List.filterMap_cons_some hv]; rwa [hv] at h

/-- Going from `s` to `s'` the compiler transpiled syntax that only reads, with
these literals. -/
structure Evaluates (up : List Node) (ls : List Literal) (s s' : State) : Prop where
  ready : s.Ready → s'.Ready
  scope : ∀ b, s'.node.scope b = s.node.scope b
  numbers : Numbers up ls s s'
  within : ∀ f, s'.Within f → s.Within f

theorem Evaluates.count {up : List Node} {ls : List Literal} {s s' : State}
    (h : Evaluates up ls s s') : s'.node.function.functions.length =
      s.node.function.functions.length + ls.length :=
  numbers_length h.numbers

theorem evaluates_visits {up : List Node} {vs : List Visit} (h : ∀ v ∈ vs, v.stores = false)
    {s : State} {k m : Nat} (he : Emits k m s (transpileAll up vs s)) :
    Evaluates up (vs.filterMap Visit.literal?) s (transpileAll up vs s) where
  ready := (ready_kept up).all vs
  scope := fun b => by
    obtain ⟨code, hg, -⟩ := id he
    exact scope_eq (transpileAll_globals up h s) hg.layout
  numbers := transpileAll_numbers up vs s
  within := fun _ hw => within_emits he hw

theorem evaluates_lhs (up : List Node) (l : LHS) (s : State) :
    Evaluates up l.literals s (l.transpile up false s) := by
  have he := l.transpile_load up s
  rw [l.transpile_visits up] at he ⊢
  exact evaluates_visits l.visits_read he

theorem evaluates_expression (up : List Node) (e : Expression) (s : State) :
    Evaluates up e.literals s (e.transpile up s) := by
  have he := e.transpile_emits up s
  rw [e.transpile_visits up] at he ⊢
  exact evaluates_visits e.visits_read he

theorem evaluates_arguments (up : List Node) (as : Arguments) (s : State) :
    Evaluates up as.literals s (as.transpile up s) := by
  have he := as.transpile_emits up s
  rw [as.transpile_visits up] at he ⊢
  exact evaluates_visits as.visits_read he

theorem evaluates_fields (up : List Node) (fs : Fields) (s : State) :
    Evaluates up (fs.visits.filterMap Visit.literal?) s (fs.transpile up s) := by
  have he := fs.transpile_emits up s
  rw [fs.transpile_visits up] at he ⊢
  exact evaluates_visits fs.visits_read he

/-! ## Names -/

theorem visitName_global {b storing : Bool} {x : String} {s : State} (hg : x ∈ s.node.globals) :
    visitName b storing x s = s.output (if storing then
      .storeGlobal ((index s.node.function.names x).getD 0)
      else .loadGlobal ((index s.node.function.names x).getD 0)) :=
  if_pos hg

theorem visitName_free {b storing : Bool} {x : String} {s : State} (hg : x ∉ s.node.globals)
    {i : Nat} (hi : index s.node.function.freeVars x = some i) :
    visitName b storing x s = s.output (if storing then
      .storeReference (s.node.function.localReferenceVars.length + i)
      else .loadReference (s.node.function.localReferenceVars.length + i)) := by
  simp only [visitName, if_neg hg, hi]

theorem visitName_box {b storing : Bool} {x : String} {s : State} (hg : x ∉ s.node.globals)
    (hf : index s.node.function.freeVars x = none) {i : Nat}
    (hi : index s.node.function.localReferenceVars x = some i) :
    visitName b storing x s =
      s.output (if storing then .storeReference i else .loadReference i) := by
  simp only [visitName, if_neg hg, hf, hi]

theorem visitName_local {b storing : Bool} {x : String} {s : State} (hg : x ∉ s.node.globals)
    (hf : index s.node.function.freeVars x = none)
    (hr : index s.node.function.localReferenceVars x = none) {i : Nat}
    (hi : index s.node.function.localVars x = some i) :
    visitName b storing x s = s.output (if storing then .storeLocal i else .loadLocal i) := by
  simp only [visitName, if_neg hg, hf, hr, hi]

theorem visitName_unknown {b storing : Bool} {x : String} {s : State} (hg : x ∉ s.node.globals)
    (hf : index s.node.function.freeVars x = none)
    (hr : index s.node.function.localReferenceVars x = none)
    (hl : index s.node.function.localVars x = none) :
    visitName b storing x s =
      if storing && b then
        ((s.insertName x).modifyNode fun n => { n with globals := insert n.globals x }).output
          (.storeGlobal (s.nameIndex x))
      else ((s.insertName x).output (if storing then .pop else .loadConst 0)).output
        (.throwUninitialized (s.nameIndex x)) := by
  simp only [visitName, if_neg hg, hf, hr, hl]

/-- Where a name is found, in the order of the search. -/
theorem name_cases (x : String) (s : State) :
    (x ∈ s.node.globals) ∨
    (x ∉ s.node.globals ∧ ∃ i, index s.node.function.freeVars x = some i) ∨
    (x ∉ s.node.globals ∧ index s.node.function.freeVars x = none ∧
      ∃ i, index s.node.function.localReferenceVars x = some i) ∨
    (x ∉ s.node.globals ∧ index s.node.function.freeVars x = none ∧
      index s.node.function.localReferenceVars x = none ∧
      ∃ i, index s.node.function.localVars x = some i) ∨
    (x ∉ s.node.globals ∧ index s.node.function.freeVars x = none ∧
      index s.node.function.localReferenceVars x = none ∧
      index s.node.function.localVars x = none) := by
  by_cases hg : x ∈ s.node.globals
  · exact .inl hg
  cases hf : index s.node.function.freeVars x with
  | some i => exact .inr (.inl ⟨hg, i, rfl⟩)
  | none =>
    cases hr : index s.node.function.localReferenceVars x with
    | some i => exact .inr (.inr (.inl ⟨hg, rfl, i, rfl⟩))
    | none =>
      cases hl : index s.node.function.localVars x with
      | some i => exact .inr (.inr (.inr (.inl ⟨hg, rfl, rfl, i, rfl⟩)))
      | none => exact .inr (.inr (.inr (.inr ⟨hg, rfl, rfl, rfl⟩)))

theorem mem_of_index {l : List String} {x : String} {i : Nat} (h : index l x = some i) : x ∈ l :=
  index_isSome.mp (by rw [h]; rfl)

theorem read_performs (hf : f.Runs) {s : State} (hs : s.Ready) (b : Bool) (x : String)
    (hw : (visitName b false x s).Within f) :
    Frame.observed.Performs n (A.frame f stack s.count, w) ((s.node.scope b).read A x w)
      (Pushes A f stack (visitName b false x s).count) := by
  unfold Scope.read
  rcases name_cases x s with
    hg | ⟨hg, i, hi⟩ | ⟨hg, hfree, i, hi⟩ | ⟨hg, hfree, href, i, hi⟩ | ⟨hg, hfree, href, hlocal⟩
  · rw [visitName_global hg] at hw ⊢
    rw [if_pos (show x ∈ (s.node.scope b).globals from hg), count_output]
    refine performs_load (output_at hw) ?_
    show (safeIndex f.names _ >>= _) = _
    rw [safeIndex_ok.mpr (global_at hs (within_output hw) hg)]
    rfl
  all_goals rw [if_neg (show x ∉ (s.node.scope b).globals from hg)]
  · rw [visitName_free hg hi] at hw ⊢
    rw [if_pos (show x ∈ (s.node.scope b).freeVars from mem_of_index hi), count_output]
    refine performs_load (output_at hw) ?_
    show (rawIndex (A.frame f stack s.count).references _ >>= _) = _
    have hk : index f.freeVars x = some i := hw.freeVars ▸ hi
    rw [show s.node.function.localReferenceVars = f.localReferenceVars from
      hw.localReferenceVars, rawIndex_ok.mpr (reference_free hk)]
    rfl
  all_goals rw [if_neg (show x ∉ (s.node.scope b).freeVars from index_eq_none.mp hfree)]
  · rw [visitName_box hg hfree hi] at hw ⊢
    rw [if_pos (show x ∈ (s.node.scope b).localReferenceVars from mem_of_index hi), count_output]
    refine performs_load (output_at hw) ?_
    show (rawIndex (A.frame f stack s.count).references _ >>= _) = _
    have hk : index f.localReferenceVars x = some i := hw.localReferenceVars ▸ hi
    rw [rawIndex_ok.mpr (reference_box hk)]
    rfl
  all_goals
    rw [if_neg (show x ∉ (s.node.scope b).localReferenceVars from index_eq_none.mp href)]
  · rw [visitName_local hg hfree href hi] at hw ⊢
    rw [if_pos (show x ∈ (s.node.scope b).localVars from mem_of_index hi), count_output]
    refine performs_push (output_at hw) ?_
    show (rawIndex (A.frame f stack s.count).locals _ >>= _) = _
    have hk : index f.localVars x = some i := hw.localVars ▸ hi
    rw [rawIndex_ok.mpr (local_at hk)]
    rfl
  · rw [visitName_unknown hg hfree href hlocal] at hw
    rw [if_neg (show x ∉ (s.node.scope b).localVars from index_eq_none.mp hlocal)]
    -- `LoadConst 0`, and the report of the unknown name behind it
    have hload := output_at (within_output hw)
    obtain ⟨c, hc⟩ : ∃ c, f.constants[0]? = some c := ⟨_, List.getElem?_eq_getElem
      (List.length_pos_of_ne_nil (hf.constants (List.mem_of_getElem? hload)))⟩
    have hthrow := output_at hw
    rw [count_output] at hthrow
    refine quiet A (constantToValue c :: stack) (s.count + 1) none hload ?_ rfl
      (.fail (observed_error hthrow ?_))
    · show (safeIndex f.constants 0 >>= _) = _
      rw [safeIndex_ok.mpr hc]
      rfl
    · show (rawIndex f.names _ >>= _) = _
      rw [rawIndex_ok.mpr (name_at (within_output (within_output hw)))]
      rfl

/-! ## Literals -/

/-- The references of a closure are pushed one after another. -/
theorem pushReferences_performs {γ : Type} {T : Computation γ} {G : γ → Frame × World → Prop}
    {refs : List Nat} {boxes : List Addr}
    (h : List.Forall₂ (fun r a => (A.frame f [] 0).references[r]? = some a) refs boxes)
    {s : State} (hw : (refs.foldl (fun s i => s.output (.pushReference i)) s).Within f)
    (hT : Frame.observed.Performs n (A.frame f ((boxes.map .pointer).reverse ++ stack)
      (refs.foldl (fun s i => s.output (.pushReference i)) s).count, w) T G) :
    Frame.observed.Performs n (A.frame f stack s.count, w) T G := by
  induction h generalizing s stack with
  | nil => exact hT
  | @cons r a refs boxes hr _ ih =>
    have hw₁ : (s.output (.pushReference r)).Within f := by
      obtain ⟨code, hg, -⟩ := emits_pushReferences refs (s.output (.pushReference r))
      exact within_grows hg hw
    refine quiet A (.pointer a :: stack) (s.count + 1) none (output_at hw₁) ?_ rfl ?_
    · show (rawIndex (A.frame f [] 0).references r >>= _) = _
      rw [rawIndex_ok.mpr hr]
      rfl
    · rw [← count_output s (.pushReference r)]
      refine ih hw ?_
      rw [List.map_cons, List.reverse_cons, List.append_assoc] at hT
      exact hT

theorem captures_boxes {s : State} (hs : s.Ready) (hw : s.Within f) (b : Bool) (body : Block) :
    List.Forall₂ (fun r a => (A.frame f [] 0).references[r]? = some a) (captures s.node body)
      ((s.node.scope b).captures A body) := by
  refine List.rel_append ?_ ?_
  · rw [List.forall₂_map_left_iff, List.forall₂_map_right_iff]
    refine List.forall₂_same.mpr fun x hx => ?_
    obtain ⟨k, hk⟩ := Option.isSome_iff_exists.mp (index_isSome.mpr (mem_getOuterRefs hx))
    rw [hk]
    exact reference_box (hw.localReferenceVars ▸ hk)
  · rw [List.forall₂_map_left_iff, List.forall₂_map_right_iff]
    refine List.forall₂_same.mpr fun x hx => ?_
    obtain ⟨k, hk⟩ := Option.isSome_iff_exists.mp
      (index_isSome.mpr (hs.references x (mem_getOuterRefs hx)))
    rw [hk, hw.localReferenceVars]
    exact reference_free (hw.freeVars ▸ hk)

theorem closure_performs {s : State} (hs : s.Ready) (b : Bool) (body : Block) (inner : State)
    (hw : (leaveFunction body inner s).Within f) :
    Frame.observed.Performs n (A.frame f stack s.count, w)
      ((s.node.scope b).closure A body s.node.function.functions.length w)
      (Pushes A f stack (leaveFunction body inner s).count) := by
  set g : Function := { inner.node.function with argMapping := argMappingOf inner.node.function }
  set s₁ := { s with labelNum := inner.labelNum }.modifyFunction fun h =>
    { h with functions := h.functions ++ [g] } with hs₁
  set refs := captures s₁.node body with hrefs
  set s₂ := refs.reverse.foldl (fun s i => s.output (.pushReference i)) s₁ with hs₂
  have hw₃ : (s₂.output (.loadFunc (s₂.node.function.functions.length - 1 : Nat))).Within f :=
    within_output hw
  have hw₂ : s₂.Within f := within_output hw₃
  have hlen : s₂.node.function.functions.length - 1 = s.node.function.functions.length := by
    rw [hs₂, EmittedLemmas.foldl_output_functions, hs₁]
    show (s.node.function.functions ++ [g]).length - 1 = _
    rw [List.length_append, List.length_singleton, Nat.add_sub_cancel]
  have hw₁ : s.Within f := by
    obtain ⟨code, hg, -⟩ := emits_pushReferences refs.reverse s₁
    have h₁ := within_grows hg hw₂
    exact ⟨h₁.instructions, h₁.constants, h₁.names, h₁.localVars, h₁.localReferenceVars,
      h₁.freeVars⟩
  have hboxes : List.Forall₂ _ refs ((s.node.scope b).captures A body) :=
    captures_boxes hs hw₁ b body
  set boxes := (s.node.scope b).captures A body with hcaptured
  refine pushReferences_performs (s := s₁) (List.forall₂_reverse_iff.mpr hboxes) hw₂ ?_
  rw [List.map_reverse, List.reverse_reverse]
  have hload := output_at hw₃
  rw [hlen] at hload
  have halloc := output_at hw
  rw [count_output] at halloc
  refine Performs.bind (performs_load hload rfl) ?_
  rintro r _ rfl
  show Performs _ _ _ _ (Pushes A f stack (State.count (State.output _ _)))
  rw [count_output, count_output]
  refine performs_load halloc ?_
  have hl : (boxes.map Value.pointer).length = refs.length := by
    rw [List.length_map, hboxes.length_eq]
  show (Frame.popMany _ refs.length (boxes.map Value.pointer ++ stack) >>= _) = _
  rw [popMany_append hl]
  rfl

theorem const_performs {s : State} {c : Constant} (hw : (s.loadConst c).Within f) :
    Frame.observed.Performs n (A.frame f stack s.count, w) (.done (constantToValue c, w))
      (Pushes A f stack (s.loadConst c).count) := by
  have hload : f.instructions[s.count]? =
      some (.loadConst (insertIndex s.node.function.constants c)) :=
    output_at (s := s.modifyFunction fun f => { f with constants := insert f.constants c }) hw
  have hcount : (s.loadConst c).count = s.count + 1 := count_output _ _
  rw [hcount]
  refine performs_push hload ?_
  show (safeIndex f.constants _ >>= _) = _
  rw [safeIndex_ok.mpr (constant_at hw)]
  rfl

/-! ## Operators and calls -/

theorem swapped_eq (op : BinOpSym) : op.operation.2 = op.swapped := by
  cases op <;> rfl

theorem binary_performs {op : BinOpSym} (hop : op.swapped = false) (left right : Value)
    (hi : f.instructions[ip]? = some op.operation.1) :
    Frame.observed.Performs n (A.frame f (right :: left :: stack) ip, w) (op.apply left right w)
      (Pushes A f stack (ip + 1)) := by
  cases op
  case plus | eq => exact performs_load hi rfl
  case lt | lte => cases hop
  all_goals exact performs_computed hi rfl

theorem swapped_performs {op : BinOpSym} (hop : op.swapped = true) (left right : Value)
    (hi : f.instructions[ip]? = some op.operation.1) :
    Frame.observed.Performs n (A.frame f (left :: right :: stack) ip, w) (op.apply left right w)
      (Pushes A f stack (ip + 1)) := by
  cases op
  case lt | lte => exact performs_computed hi rfl
  all_goals cases hop

theorem unary_performs (op : UnOpSym) (v : Value)
    (hi : f.instructions[ip]? = some op.operation) :
    Frame.observed.Performs n (A.frame f (v :: stack) ip, w) (op.apply v w)
      (Pushes A f stack (ip + 1)) := by
  cases op with
  | _ => exact performs_computed hi rfl

theorem observed_call {function : Value} {arguments : List Value} {fr' : Frame}
    (hi : f.instructions[ip]? = some i)
    (hx : (A.frame f stack ip).exec i w = .ok (.call function arguments fr')) :
    Frame.observed (A.frame f stack ip, w) = .ok (.ask (.call function arguments, w)
      fun a => ({ fr' with stack := a.1 :: fr'.stack }, a.2)) := by
  have hi' : (A.frame f stack ip).function.instructions[(A.frame f stack ip).ip]? = some i := hi
  unfold Frame.observed Process.observe Frame.move
  simp only [hi', hx]
  rfl

theorem observed_collect {fr' : Frame} (hi : f.instructions[ip]? = some i)
    (hx : (A.frame f stack ip).exec i w = .ok (.collect fr')) :
    Frame.observed (A.frame f stack ip, w) = .ok (.ask
      (.collect fr'.locals fr'.references fr'.stack, w) fun a => (fr', a.2)) := by
  have hi' : (A.frame f stack ip).function.instructions[(A.frame f stack ip).ip]? = some i := hi
  unfold Frame.observed Process.observe Frame.move
  simp only [hi', hx]
  rfl

theorem observed_ret {v : Value} (hi : f.instructions[ip]? = some .ret) :
    Frame.observed (A.frame f (v :: stack) ip, w) = .ok (.stop (some v, w)) := by
  have hi' : (A.frame f (v :: stack) ip).function.instructions[(A.frame f (v :: stack) ip).ip]? =
    some .ret := hi
  unfold Frame.observed Process.observe Frame.move
  simp only [hi']
  rfl

theorem call_performs {k : Nat} {arguments : List Value} (hk : arguments.length = k)
    (function : Value) (hi : f.instructions[ip]? = some (.call k)) :
    Frame.observed.Performs n (A.frame f (function :: (arguments.reverse ++ stack)) ip, w)
      (call function arguments w) (Pushes A f stack (ip + 1)) := by
  have hx : (A.frame f (function :: (arguments.reverse ++ stack)) ip).exec (.call k) w =
      .ok (.call function arguments ((A.frame f (function :: (arguments.reverse ++ stack))
        ip).advance stack)) := by
    show (Frame.popMany _ k (arguments.reverse ++ stack) >>= _) = _
    rw [popMany_append (List.length_reverse.trans hk)]
    show Except.ok (Outcome.call _ arguments.reverse.reverse _) = _
    rw [List.reverse_reverse]
  exact .ask (observed_call hi hx) fun a => .done rfl

end CompiledExpressionsLemmas

open CompiledExpressionsLemmas

/-! ## Expressions -/

section Expressions

variable {f : Function}

mutual
theorem LHS.performs (hf : f.Runs) (up : List Node) (n : Nat) (A : Variables) :
    (l : LHS) → (s : State) → s.Ready → (l.transpile up false s).Within f →
    (stack : List Value) → (w : World) →
    Frame.observed.Performs n (A.frame f stack s.count, w)
      (l.eval (s.node.scope up.isEmpty) A s.node.function.functions.length w)
      (Pushes A f stack (l.transpile up false s).count)
  | .name x, s, hs, hw, stack, w => read_performs hf hs up.isEmpty x hw
  | .index base idx, s, hs, hw, stack, w => by
    set s₁ := base.transpile up false s with hs₁
    have h₁ := evaluates_lhs up base s
    have h₂ := evaluates_expression up idx s₁
    have hw₂ : (idx.transpile up s₁).Within f := within_output hw
    have hw₁ : s₁.Within f := h₂.within f hw₂
    have hidx := idx.performs hf up n A s₁ (h₁.ready hs) hw₂
    rw [h₁.scope, h₁.count] at hidx
    refine (base.performs hf up n A s hs hw₁ stack w).bind ?_
    rintro record _ rfl
    refine (hidx (record.1 :: stack) record.2).bind ?_
    rintro index _ rfl
    show Performs _ _ _ _ (Pushes A f stack (State.count (State.output _ _)))
    rw [count_output]
    exact performs_load (output_at hw) rfl
  | .field base x, s, hs, hw, stack, w => by
    set s₀ := s.insertName x with hs₀
    set s₁ := base.transpile up false s₀ with hs₁
    have hw₁ : s₁.Within f := within_output hw
    have hname : f.names[s.nameIndex x]? = some x :=
      name_at ((evaluates_lhs up base s₀).within f hw₁)
    refine (base.performs hf up n A s₀ (ready_insertName hs x) hw₁ stack w).bind ?_
    rintro record _ rfl
    show Performs _ _ _ _ (Pushes A f stack (State.count (State.output _ _)))
    rw [count_output]
    refine performs_load (output_at hw) ?_
    show (safeIndex f.names _ >>= _) = _
    rw [safeIndex_ok.mpr hname]
    rfl

theorem Expression.performs (hf : f.Runs) (up : List Node) (n : Nat) (A : Variables) :
    (e : Expression) → (s : State) → s.Ready → (e.transpile up s).Within f →
    (stack : List Value) → (w : World) →
    Frame.observed.Performs n (A.frame f stack s.count, w)
      (e.eval (s.node.scope up.isEmpty) A s.node.function.functions.length w)
      (Pushes A f stack (e.transpile up s).count)
  | .lhs l, s, hs, hw, stack, w => l.performs hf up n A s hs hw stack w
  | .call target arguments, s, hs, hw, stack, w => by
    set s₁ := arguments.transpile up s with hs₁
    have h₁ := evaluates_arguments up arguments s
    have h₂ := evaluates_lhs up target s₁
    have hw₂ : (target.transpile up false s₁).Within f := within_output hw
    have hw₁ : s₁.Within f := h₂.within f hw₂
    have htarget := target.performs hf up n A s₁ (h₁.ready hs) hw₂
    rw [h₁.scope, h₁.count] at htarget
    refine (arguments.performs hf up n A s hs hw₁ stack w).bind ?_
    rintro values _ ⟨hlen, rfl⟩
    refine (htarget (values.1.reverse ++ stack) values.2).bind ?_
    rintro function _ rfl
    show Performs _ _ _ _ (Pushes A f stack (State.count (State.output _ _)))
    rw [count_output]
    exact call_performs hlen function.1 (output_at hw)
  | .function arguments body, s, hs, hw, stack, w => closure_performs hs up.isEmpty body _ hw
  | .record fields, s, hs, hw, stack, w => by
    set s₁ := s.output .allocRecord with hs₁
    have hw₁ : s₁.Within f := (evaluates_fields up fields s₁).within f hw
    have hready : s₁.Ready := ready_output hs (.inr trivial)
    have hfields := fields.performs hf up n A s₁ hready hw
    refine (performs_load (output_at hw₁) rfl).bind ?_
    rintro record _ rfl
    rw [← count_output s .allocRecord]
    refine (hfields record.1 stack record.2).bind ?_
    rintro w' _ rfl
    exact .done rfl
  | .boolConst b, s, hs, hw, stack, w => const_performs hw
  | .strConst v, s, hs, hw, stack, w => const_performs hw
  | .intConst i, s, hs, hw, stack, w => const_performs hw
  | .nullConst, s, hs, hw, stack, w => const_performs hw
  | .binaryOp op left right, s, hs, hw, stack, w => by
    rw [Expression.transpile, swapped_eq] at hw ⊢
    rw [Expression.eval]
    rw [count_output]
    cases hop : op.swapped with
    | true =>
      simp only [hop, ↓reduceIte] at hw ⊢
      set s₁ := right.transpile up s with hs₁
      have h₁ := evaluates_expression up right s
      have h₂ := evaluates_expression up left s₁
      have hw₂ : (left.transpile up s₁).Within f := within_output hw
      have hleft := left.performs hf up n A s₁ (h₁.ready hs) hw₂
      rw [h₁.scope, h₁.count] at hleft
      refine (right.performs hf up n A s hs (h₂.within f hw₂) stack w).bind ?_
      rintro r _ rfl
      refine (hleft (r.1 :: stack) r.2).bind ?_
      rintro l _ rfl
      exact swapped_performs hop l.1 r.1 (output_at hw)
    | false =>
      simp only [hop, Bool.false_eq_true, ↓reduceIte] at hw ⊢
      set s₁ := left.transpile up s with hs₁
      have h₁ := evaluates_expression up left s
      have h₂ := evaluates_expression up right s₁
      have hw₂ : (right.transpile up s₁).Within f := within_output hw
      have hright := right.performs hf up n A s₁ (h₁.ready hs) hw₂
      rw [h₁.scope, h₁.count] at hright
      refine (left.performs hf up n A s hs (h₂.within f hw₂) stack w).bind ?_
      rintro l _ rfl
      refine (hright (l.1 :: stack) l.2).bind ?_
      rintro r _ rfl
      exact binary_performs hop l.1 r.1 (output_at hw)
  | .unaryOp op expr, s, hs, hw, stack, w => by
    refine (expr.performs hf up n A s hs (within_output hw) stack w).bind ?_
    rintro v _ rfl
    show Performs _ _ _ _ (Pushes A f stack (State.count (State.output _ _)))
    rw [count_output]
    exact unary_performs op v.1 (output_at hw)

theorem Arguments.performs (hf : f.Runs) (up : List Node) (n : Nat) (A : Variables) :
    (as : Arguments) → (s : State) → s.Ready → (as.transpile up s).Within f →
    (stack : List Value) → (w : World) →
    Frame.observed.Performs n (A.frame f stack s.count, w)
      (as.eval (s.node.scope up.isEmpty) A s.node.function.functions.length w)
      fun vs s' => vs.1.length = as.size ∧
        s' = (A.frame f (vs.1.reverse ++ stack) (as.transpile up s).count, vs.2)
  | .nil, s, hs, hw, stack, w => .done ⟨rfl, rfl⟩
  | .cons head tail, s, hs, hw, stack, w => by
    set s₁ := head.transpile up s with hs₁
    have h₁ := evaluates_expression up head s
    have hw₁ : s₁.Within f := (evaluates_arguments up tail s₁).within f hw
    have htail := tail.performs hf up n A s₁ (h₁.ready hs) hw
    rw [h₁.scope, h₁.count] at htail
    refine (head.performs hf up n A s hs hw₁ stack w).bind ?_
    rintro v _ rfl
    refine (htail (v.1 :: stack) v.2).bind ?_
    rintro vs _ ⟨hlen, rfl⟩
    refine .done ⟨congrArg (· + 1) hlen, ?_⟩
    rw [List.reverse_cons, List.append_assoc]
    rfl

theorem Fields.performs (hf : f.Runs) (up : List Node) (n : Nat) (A : Variables) :
    (fs : Fields) → (s : State) → s.Ready → (fs.transpile up s).Within f →
    (record : Value) → (stack : List Value) → (w : World) →
    Frame.observed.Performs n (A.frame f (record :: stack) s.count, w)
      (fs.eval (s.node.scope up.isEmpty) A record s.node.function.functions.length w)
      fun w' s' => s' = (A.frame f (record :: stack) (fs.transpile up s).count, w')
  | .nil, s, hs, hw, record, stack, w => .done rfl
  | .cons key value tail, s, hs, hw, record, stack, w => by
    set s₁ := s.output .dup with hs₁
    set s₂ := value.transpile up s₁ with hs₂
    set s₃ := (s₂.insertName key).output (.fieldStore (s₂.nameIndex key)) with hs₃
    have h₂ := evaluates_expression up value s₁
    have hready : s₁.Ready := ready_output hs (.inr trivial)
    have hready₃ : s₃.Ready :=
      (ready_kept up).visit (.fieldStore key) s₂ (h₂.ready hready)
    have hw₃ : s₃.Within f := (evaluates_fields up tail s₃).within f hw
    have hw₂ : s₂.Within f := within_grows (grows_insertName key s₂) (within_output hw₃)
    have hw₁ : s₁.Within f := h₂.within f hw₂
    have hvalue := value.performs hf up n A s₁ hready hw₂
    have htail := tail.performs hf up n A s₃ hready₃ hw
    have hscope : s₃.node.scope up.isEmpty = s.node.scope up.isEmpty := h₂.scope _
    have hcount : s₃.node.function.functions.length =
        s.node.function.functions.length + value.literals.length := h₂.count
    rw [hscope, hcount] at htail
    refine quiet A (record :: record :: stack) (s.count + 1) none (output_at hw₁) rfl rfl ?_
    rw [← count_output s .dup]
    refine (hvalue (record :: record :: stack) w).bind ?_
    rintro v _ rfl
    have hstore := output_at hw₃
    refine (performs_store (record :: stack) hstore ?_).bind ?_
    · show (safeIndex f.names _ >>= _) = _
      rw [safeIndex_ok.mpr (name_at (within_output hw₃))]
      rfl
    · rintro r _ rfl
      have hnext := htail record stack r.2
      rw [count_output] at hnext
      exact hnext
end

end Expressions

/-! ## Stores -/

namespace CompiledExpressionsLemmas

variable {f : Function} {A : Variables} {stack : List Value} {ip n : Nat} {w : World}
  {i : Instruction}

/-- An action that ends a statement. -/
theorem performs_thenNormal {a : Action} (hi : f.instructions[ip]? = some i)
    (hx : (A.frame f stack ip).exec i w = (A.frame f stack ip).store a [] w) :
    Frame.observed.Performs n (A.frame f stack ip, w) (thenNormal A (a.run w))
      (Completes f (ip + 1)) := by
  refine (performs_store [] hi hx).bind ?_
  rintro r _ rfl
  exact .done rfl

theorem write_performs (hf : f.Runs) {s : State} (hs : s.Ready) (b : Bool) (x : String) (v : Value)
    (hw : (visitName b true x s).Within f) :
    Frame.observed.Performs n (A.frame f [v] s.count, w) ((s.node.scope b).write A x v w)
      (Completes f (visitName b true x s).count) := by
  unfold Scope.write
  rcases name_cases x s with
    hg | ⟨hg, i, hi⟩ | ⟨hg, hfree, i, hi⟩ | ⟨hg, hfree, href, i, hi⟩ | ⟨hg, hfree, href, hlocal⟩
  · rw [visitName_global hg] at hw ⊢
    rw [if_pos (show x ∈ (s.node.scope b).globals from hg), count_output]
    refine performs_thenNormal (output_at hw) ?_
    show (safeIndex f.names _ >>= _) = _
    rw [safeIndex_ok.mpr (global_at hs (within_output hw) hg)]
    rfl
  all_goals rw [if_neg (show x ∉ (s.node.scope b).globals from hg)]
  · rw [visitName_free hg hi] at hw ⊢
    rw [if_pos (show x ∈ (s.node.scope b).freeVars from mem_of_index hi), count_output]
    refine performs_thenNormal (output_at hw) ?_
    show (rawIndex (A.frame f [v] s.count).references _ >>= _) = _
    have hk : index f.freeVars x = some i := hw.freeVars ▸ hi
    rw [show s.node.function.localReferenceVars = f.localReferenceVars from
      hw.localReferenceVars, rawIndex_ok.mpr (reference_free hk)]
    rfl
  all_goals rw [if_neg (show x ∉ (s.node.scope b).freeVars from index_eq_none.mp hfree)]
  · rw [visitName_box hg hfree hi] at hw ⊢
    rw [if_pos (show x ∈ (s.node.scope b).localReferenceVars from mem_of_index hi), count_output]
    refine performs_thenNormal (output_at hw) ?_
    show (rawIndex (A.frame f [v] s.count).references _ >>= _) = _
    have hk : index f.localReferenceVars x = some i := hw.localReferenceVars ▸ hi
    rw [rawIndex_ok.mpr (reference_box hk)]
    rfl
  all_goals
    rw [if_neg (show x ∉ (s.node.scope b).localReferenceVars from index_eq_none.mp href)]
  · rw [visitName_local hg hfree href hi] at hw ⊢
    rw [if_pos (show x ∈ (s.node.scope b).localVars from mem_of_index hi), count_output]
    have hk : index f.localVars x = some i := hw.localVars ▸ hi
    have hlt : i < (A.frame f [v] s.count).locals.length := by
      show i < (f.localVars.map A.locals).length
      rw [List.length_map]
      exact index_lt hk
    refine quiet { A with locals := Function.update A.locals x v } [] (s.count + 1)
      (some (.storeLocal i v)) (output_at hw) ?_ rfl (.done rfl)
    show (if i < (A.frame f [v] s.count).locals.length then _ else _) = _
    rw [if_pos hlt]
    show Except.ok (Outcome.next { (A.frame f [v] s.count).advance [] with
      locals := (f.localVars.map A.locals).set i v } w _) = _
    rw [set_local hf.localVars hk]
    rfl
  · rw [if_neg (show x ∉ (s.node.scope b).localVars from index_eq_none.mp hlocal)]
    rw [visitName_unknown hg hfree href hlocal] at hw ⊢
    cases b with
    | true =>
      simp only [Bool.and_self, ↓reduceIte] at hw ⊢
      rw [if_pos (show (s.node.scope true).isGlobal = true from rfl), count_output]
      have hstore : f.instructions[s.count]? = some (.storeGlobal (s.nameIndex x)) :=
        output_at (s := (s.insertName x).modifyNode _) hw
      refine performs_thenNormal hstore ?_
      have hname : f.names[s.nameIndex x]? = some x :=
        getElem?_extended (within_output hw).names (insertIndex_getElem? s.node.function.names x)
      show (safeIndex f.names _ >>= _) = _
      rw [safeIndex_ok.mpr hname]
      rfl
    | false =>
      simp only [Bool.and_false, Bool.false_eq_true, ↓reduceIte] at hw ⊢
      rw [if_neg (show ¬ (s.node.scope false).isGlobal = true from Bool.false_ne_true)]
      have hpop : f.instructions[s.count]? = some .pop :=
        output_at (s := s.insertName x) (within_output hw)
      have hthrow := output_at hw
      rw [count_output] at hthrow
      refine quiet A [] (s.count + 1) none hpop rfl rfl
        (.fail (observed_error hthrow ?_))
      show (rawIndex f.names _ >>= _) = _
      rw [rawIndex_ok.mpr (name_at (within_output (within_output hw)))]
      rfl

end CompiledExpressionsLemmas

/-- A store; the value is on the stack. -/
theorem LHS.performs_store {f : Function} (hf : f.Runs) (up : List Node) (n : Nat) (A : Variables)
    (l : LHS) {s : State} (hs : s.Ready) (hw : (l.transpile up true s).Within f) (v : Value)
    (w : World) :
    Frame.observed.Performs n (A.frame f [v] s.count, w)
      (l.store (s.node.scope up.isEmpty) A v s.node.function.functions.length w)
      (Completes f (l.transpile up true s).count) := by
  cases l with
  | name x => exact write_performs hf hs up.isEmpty x v hw
  | index base idx =>
    set s₁ := (base.transpile up false s).output .swap with hs₁
    set s₂ := (idx.transpile up s₁).output .swap with hs₂
    have hw₂ : s₂.Within f := within_output hw
    have hw₁ : s₁.Within f := (evaluates_expression up idx s₁).within f (within_output hw₂)
    have h₁ := evaluates_lhs up base s
    have hready : s₁.Ready := ready_output (h₁.ready hs) (.inr trivial)
    have hidx := idx.performs hf up n A s₁ hready (within_output hw₂)
    rw [show s₁.node.scope up.isEmpty = s.node.scope up.isEmpty from h₁.scope _,
      show s₁.node.function.functions.length = _ from h₁.count] at hidx
    refine (base.performs hf up n A s hs (within_output hw₁) [v] w).bind ?_
    rintro record _ rfl
    refine quiet A [v, record.1] ((base.transpile up false s).count + 1) none (output_at hw₁) rfl
      rfl ?_
    rw [← count_output _ .swap]
    refine (hidx [v, record.1] record.2).bind ?_
    rintro index _ rfl
    refine quiet A [v, index.1, record.1] ((idx.transpile up s₁).count + 1) none (output_at hw₂)
      rfl rfl ?_
    show Performs _ _ _ _ (Completes f (State.count (State.output _ s₂)))
    rw [← count_output _ .swap, count_output s₂]
    exact performs_thenNormal (output_at hw) rfl
  | field base x =>
    set s₀ := s.insertName x with hs₀
    set s₁ := (base.transpile up false s₀).output .swap with hs₁
    have hw₁ : s₁.Within f := within_output hw
    have hname : f.names[s.nameIndex x]? = some x :=
      name_at ((evaluates_lhs up base s₀).within f (within_output hw₁))
    refine (base.performs hf up n A s₀ (ready_insertName hs x) (within_output hw₁) [v] w).bind ?_
    rintro record _ rfl
    refine quiet A [v, record.1] ((base.transpile up false s₀).count + 1) none (output_at hw₁) rfl
      rfl ?_
    show Performs _ _ _ _ (Completes f (State.count (State.output _ s₁)))
    rw [← count_output _ .swap, count_output s₁]
    refine performs_thenNormal (output_at hw) ?_
    show (safeIndex f.names _ >>= _) = _
    rw [safeIndex_ok.mpr hname]
    rfl

end Beaverc

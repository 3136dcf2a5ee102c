import Beaverc.CompiledExpressions

/-!
# The compiler is correct

The code that `BC::Compiler` emits for a function does what the function means
(`Beaverc.Semantics`): run by `run_function`, it shows the same operations on the
world, makes the same calls and collections, and ends with the same value or with
the same failure, for every environment that answers the calls. This holds in
both directions, so the code does not end in any other way either, and where the
one does not end the other does not.
-/

namespace Beaverc
open Tables Process DisciplineLemmas VisitsLemmas OperandsLemmas ControlFlowLemmas StepsLemmas
open CompiledExpressionsLemmas

/-! ## What a statement does to the state -/

/-- Going from `s` to `s'` the compiler transpiled syntax with these literals that
changes the scope by `g`. -/
structure Executes (up : List Node) (ls : List Literal) (g : Scope → Scope) (s s' : State) :
    Prop where
  ready : s.Ready → s'.Ready
  scope : s'.node.scope up.isEmpty = g (s.node.scope up.isEmpty)
  numbers : Numbers up ls s s'
  within : ∀ f, s'.Within f → s.Within f

section Executes

variable {up : List Node} {s s' : State}

theorem Executes.count {ls : List Literal} {g : Scope → Scope} (h : Executes up ls g s s') :
    s'.node.function.functions.length = s.node.function.functions.length + ls.length :=
  numbers_length h.numbers

theorem Executes.trans {ls ms : List Literal} {g h : Scope → Scope} {s₁ s₂ s₃ : State}
    (h₁ : Executes up ls g s₁ s₂) (h₂ : Executes up ms h s₂ s₃) :
    Executes up (ls ++ ms) (fun S => h (g S)) s₁ s₃ where
  ready := fun hs => h₂.ready (h₁.ready hs)
  scope := by rw [h₂.scope, h₁.scope]
  numbers := numbers_append h₁.numbers h₂.numbers
  within := fun f hw => h₁.within f (h₂.within f hw)

end Executes

namespace CompilerCorrectnessLemmas

variable {up : List Node} {s s' : State}

theorem executes_evaluates {ls : List Literal} (h : Evaluates up ls s s') :
    Executes up ls id s s' :=
  ⟨h.ready, h.scope _, h.numbers, h.within⟩

theorem executes_output (s : State) {i : Instruction}
    (hr : ∀ s : State, s.Ready → (s.output i).Ready) : Executes up [] id s (s.output i) :=
  ⟨hr s, rfl, numbers_none rfl, fun _ hw => within_output hw⟩

theorem executes_goto (up : List Node) (l : Nat) (s : State) :
    Executes up [] id s (s.output (.goto l)) :=
  executes_output s fun s hs => (ready_kept up).goto l s hs

theorem executes_ifTrue (up : List Node) (l : Nat) (s : State) :
    Executes up [] id s (s.output (.ifTrue l)) :=
  executes_output s fun s hs => (ready_kept up).ifTrue l s hs

theorem executes_collect (up : List Node) (s : State) :
    Executes up [] id s (s.output .garbageCollect) :=
  executes_output s fun s hs => (ready_kept up).visit (.output .garbageCollect rfl) s hs

theorem executes_label (up : List Node) (l : Nat) (s : State) :
    Executes up [] id s (s.outputLabel l) :=
  ⟨(ready_kept up).label l s, rfl, numbers_none rfl, fun _ hw =>
    within_grows (grows_outputLabel l s) hw⟩

theorem executes_labelNum (up : List Node) (s : State) (k : Nat) :
    Executes up [] id s { s with labelNum := s.labelNum + k } :=
  ⟨(ready_kept up).labelNum _ s, rfl, numbers_none rfl,
    fun _ hw => within_grows (grows_labelNum (Nat.le_add_right _ k)) hw⟩

theorem assign_known {S : Scope} {x : String}
    (h : x ∈ S.globals ∨ x ∈ S.freeVars ∨ x ∈ S.localReferenceVars ∨ x ∈ S.localVars ∨
      S.isGlobal = false) : S.assign x = S :=
  if_pos h

theorem assign_new {S : Scope} {x : String} (hg : x ∉ S.globals) (hf : x ∉ S.freeVars)
    (hr : x ∉ S.localReferenceVars) (hl : x ∉ S.localVars) (ht : S.isGlobal = true) :
    S.assign x = { S with globals := insert S.globals x } := by
  refine if_neg ?_
  rintro (h | h | h | h | h)
  · exact hg h
  · exact hf h
  · exact hr h
  · exact hl h
  · rw [ht] at h
    cases h

theorem visitName_scope (b : Bool) (x : String) (s : State) :
    (visitName b true x s).node.scope b = (s.node.scope b).assign x := by
  rcases name_cases x s with
    hg | ⟨hg, i, hi⟩ | ⟨hg, hfree, i, hi⟩ | ⟨hg, hfree, href, i, hi⟩ | ⟨hg, hfree, href, hlocal⟩
  · rw [visitName_global hg, assign_known (.inl hg)]
    rfl
  · rw [visitName_free hg hi, assign_known (.inr (.inl (mem_of_index hi)))]
    rfl
  · rw [visitName_box hg hfree hi, assign_known (.inr (.inr (.inl (mem_of_index hi))))]
    rfl
  · rw [visitName_local hg hfree href hi,
      assign_known (.inr (.inr (.inr (.inl (mem_of_index hi)))))]
    rfl
  · rw [visitName_unknown hg hfree href hlocal]
    cases b with
    | false =>
      rw [assign_known (.inr (.inr (.inr (.inr rfl))))]
      rfl
    | true =>
      rw [assign_new hg (index_eq_none.mp hfree) (index_eq_none.mp href)
        (index_eq_none.mp hlocal) rfl]
      rfl

/-- A statement without a body. -/
theorem executes_simple (up : List Node) {st : Statement} (h : st.isSimple = true)
    {g : Scope → Scope}
    (hg : (st.transpile up s).node.scope up.isEmpty = g (s.node.scope up.isEmpty))
    (hl : st.literals = st.visits.filterMap Visit.literal?) :
    Executes up st.literals g s (st.transpile up s) where
  ready := st.transpile_keeps (ready_kept up) s
  scope := hg
  numbers := by
    rw [hl, Statement.transpile_visits up h]
    exact transpileAll_numbers up st.visits s
  within := fun f hw => by
    obtain ⟨code, hgrows, -⟩ := st.transpile_emits up s
    exact within_grows hgrows hw

/-- The scope after an assignment. -/
theorem assignment_scope (up : List Node) (l : LHS) (e : Expression) (s : State) :
    ((Statement.assignment l e).transpile up s).node.scope up.isEmpty =
      (Statement.assignment l e).scope (s.node.scope up.isEmpty) := by
  cases l with
  | name x =>
    show (visitName _ true x (e.transpile up _)).node.scope _ = _
    rw [visitName_scope, (evaluates_expression up e _).scope]
    rfl
  | index base idx =>
    show (idx.transpile up ((base.transpile up false (e.transpile up s)).output .swap)).node.scope
      _ = _
    rw [(evaluates_expression up idx _).scope]
    show (base.transpile up false (e.transpile up s)).node.scope _ = _
    rw [(evaluates_lhs up base _).scope, (evaluates_expression up e s).scope]
    rfl
  | field base x =>
    show (base.transpile up false ((e.transpile up s).insertName x)).node.scope _ = _
    rw [(evaluates_lhs up base _).scope]
    exact (evaluates_expression up e s).scope _

end CompilerCorrectnessLemmas

open CompilerCorrectnessLemmas

mutual
theorem Statement.executes (up : List Node) :
    (st : Statement) → (s : State) →
    Executes up st.literals st.scope s (st.transpile up s)
  | .assignment l e, s => executes_simple up rfl (assignment_scope up l e s) rfl
  | .callStatement target arguments, s =>
    executes_simple up rfl ((evaluates_expression up (.call target arguments) s).scope _) rfl
  | .global x, s => executes_simple up rfl rfl rfl
  | .ret e, s => by
    refine executes_simple up rfl ((evaluates_expression up e s).scope _) ?_
    show e.visits.filterMap Visit.literal? = (e.visits ++ [Visit.ret]).filterMap Visit.literal?
    rw [List.filterMap_append]
    exact (List.append_nil _).symm
  | .ifStatement cond thenBlock elseBlock, s => by
    set s₁ := cond.transpile up { s with labelNum := s.labelNum + 3 } with hs₁
    set s₂ := ((s₁.output (.ifTrue s.labelNum)).output (.goto (s.labelNum + 1))).outputLabel
      s.labelNum with hs₂
    set s₃ := thenBlock.transpile up s₂ with hs₃
    set s₄ := (s₃.output (.goto (s.labelNum + 2))).outputLabel (s.labelNum + 1) with hs₄
    have h₁ := Executes.trans (executes_labelNum up s 3)
      (executes_evaluates (evaluates_expression up cond { s with labelNum := s.labelNum + 3 }))
    have h₂ := Executes.trans (Executes.trans (executes_ifTrue up s.labelNum s₁)
      (executes_goto up (s.labelNum + 1) _)) (executes_label up s.labelNum _)
    have h₃ := thenBlock.executes up s₂
    have h₄ := Executes.trans (executes_goto up (s.labelNum + 2) s₃)
      (executes_label up (s.labelNum + 1) _)
    have h₅ := Executes.trans (elseBlock.executes up s₄) (executes_label up (s.labelNum + 2) _)
    have h := Executes.trans (Executes.trans (Executes.trans (Executes.trans h₁ h₂) h₃) h₄) h₅
    simp only [List.nil_append, List.append_nil] at h
    exact h
  | .whileLoop cond body, s => by
    set s₁ := (({ s with labelNum := s.labelNum + 3 } : State).outputLabel s.labelNum).output
      .garbageCollect with hs₁
    set s₂ := cond.transpile up s₁ with hs₂
    set s₃ := ((s₂.output (.ifTrue (s.labelNum + 1))).output
      (.goto (s.labelNum + 2))).outputLabel (s.labelNum + 1) with hs₃
    set s₄ := body.transpile up s₃ with hs₄
    have h₁ := Executes.trans (Executes.trans (executes_labelNum up s 3)
      (executes_label up s.labelNum _)) (executes_collect up _)
    have h₂ := executes_evaluates (evaluates_expression up cond s₁)
    have h₃ := Executes.trans (Executes.trans (executes_ifTrue up (s.labelNum + 1) s₂)
      (executes_goto up (s.labelNum + 2) _)) (executes_label up (s.labelNum + 1) _)
    have h₄ := body.executes up s₃
    have h₅ := Executes.trans (executes_goto up s.labelNum s₄)
      (executes_label up (s.labelNum + 2) _)
    have h := Executes.trans (Executes.trans (Executes.trans (Executes.trans h₁ h₂) h₃) h₄) h₅
    simp only [List.nil_append, List.append_nil] at h
    exact h

theorem Block.executes (up : List Node) :
    (b : Block) → (s : State) → Executes up b.literals b.scope s (b.transpile up s)
  | .nil, s => ⟨id, rfl, numbers_none rfl, fun _ hw => hw⟩
  | .cons head tail, s => by
    have h := Executes.trans (head.executes up s) (tail.executes up (head.transpile up s))
    exact h
end

/-! ## Jumps -/

namespace CompilerCorrectnessLemmas

variable {f : Function} {A : Variables} {ip q n : Nat} {w : World} {γ : Type} {T : Computation γ}
  {G : γ → Frame × World → Prop}

theorem label_performs {l : Nat} (hi : f.instructions[ip]? = some (.label l))
    (h : Frame.observed.Performs n (A.frame f [] (ip + 1), w) T G) :
    Frame.observed.Performs n (A.frame f [] ip, w) T G :=
  quiet A [] (ip + 1) (some (.label l)) hi rfl rfl h

theorem goto_performs (hf : f.Runs) {l : Nat} (hi : f.instructions[ip]? = some (.goto l))
    (hq : f.instructions[q]? = some (.label l))
    (h : Frame.observed.Performs n (A.frame f [] q, w) T G) :
    Frame.observed.Performs n (A.frame f [] ip, w) T G := by
  refine quiet A [] q none hi ?_ rfl h
  rw [← labelPosition_of_getElem hf.wellEmitted hq]
  rfl

/-- `If` on true to the label at `q`, and else the `Goto` behind it to `q'`. -/
theorem test_performs (hf : f.Runs) {l l' q' : Nat} {v : Value} {T' : Computation γ}
    (hi : f.instructions[ip]? = some (.ifTrue l))
    (hj : f.instructions[ip + 1]? = some (.goto l'))
    (hq : f.instructions[q]? = some (.label l)) (hq' : f.instructions[q']? = some (.label l'))
    (h : Frame.observed.Performs n (A.frame f [] (q + 1), w) T G)
    (h' : Frame.observed.Performs n (A.frame f [] (q' + 1), w) T' G) :
    Frame.observed.Performs n (A.frame f [v] ip, w)
      ((Behavior.ofExcept v.getBoolean).bind fun b => if b then T else T') G := by
  cases hv : v.getBoolean with
  | error e =>
    refine .fail (observed_error hi ?_)
    show (v.getBoolean >>= _) = _
    rw [hv]
    rfl
  | ok b =>
    cases b with
    | true =>
      refine quiet A [] q none hi ?_ rfl (label_performs hq h)
      show (v.getBoolean >>= _) = _
      rw [hv, ← labelPosition_of_getElem hf.wellEmitted hq]
      rfl
    | false =>
      refine quiet A [] (ip + 1) none hi ?_ rfl (goto_performs hf hj hq' (label_performs hq' h'))
      show (v.getBoolean >>= _) = _
      rw [hv]
      rfl

theorem collect_performs {s : State} (hw : s.Within f) (b : Bool)
    (hi : f.instructions[ip]? = some .garbageCollect) :
    Frame.observed.Performs n (A.frame f [] ip, w) ((s.node.scope b).collect A w)
      fun w' s' => s' = (A.frame f [] (ip + 1), w') := by
  have hask := @observed_collect f A [] ip w _ _ hi rfl
  unfold Scope.collect
  rw [show (s.node.scope b).localVars = f.localVars from hw.localVars,
    show (s.node.scope b).localReferenceVars = f.localReferenceVars from hw.localReferenceVars,
    show (s.node.scope b).freeVars = f.freeVars from hw.freeVars]
  exact .ask hask fun a => .done rfl

/-- The label that was emitted last. -/
theorem label_at {s : State} {l : Nat} (hw : (s.outputLabel l).Within f) :
    f.instructions[s.count]? = some (.label l) :=
  output_at (s := s.modifyFunction fun f => { f with labels := (l, s.count) :: f.labels }) hw

end CompilerCorrectnessLemmas

/-! ## Statements -/

/-- A frame at the start of the code of a statement does what the statement means. -/
def Statement.CodePerforms (f : Function) (up : List Node) (n : Nat) (st : Statement) : Prop :=
  ∀ s : State, s.Ready → (st.transpile up s).Within f → ∀ (A : Variables) (w : World),
    Frame.observed.Performs n (A.frame f [] s.count, w)
      (st.exec n (s.node.scope up.isEmpty) s.node.function.functions.length A w)
      (Completes f (st.transpile up s).count)

def Block.CodePerforms (f : Function) (up : List Node) (n : Nat) (b : Block) : Prop :=
  ∀ s : State, s.Ready → (b.transpile up s).Within f → ∀ (A : Variables) (w : World),
    Frame.observed.Performs n (A.frame f [] s.count, w)
      (b.exec n (s.node.scope up.isEmpty) s.node.function.functions.length A w)
      (Completes f (b.transpile up s).count)

/-- The state in which the compiler transpiles the value that is assigned. -/
def LHS.announced (s : State) (lhs : LHS) : State :=
  match lhs with
  | .name x => s.modifyNode fun n => { n with storing := x }
  | _ => s

namespace CompilerCorrectnessLemmas

section Statements

variable {f : Function} (hf : f.Runs) (up : List Node) (n : Nat)

include hf

/-- An assignment: the value is computed, and then stored. -/
theorem assignment_performs (lhs : LHS) (expr : Expression) :
    (Statement.assignment lhs expr).CodePerforms f up n := by
  intro s hs hw A w
  set s₀ := lhs.announced s with hs₀
  have hcount : s₀.count = s.count := by cases lhs <;> rfl
  have hscope : s₀.node.scope up.isEmpty = s.node.scope up.isEmpty := by cases lhs <;> rfl
  have hfunctions : s₀.node.function.functions = s.node.function.functions := by
    cases lhs <;> rfl
  have hready : s₀.Ready := by
    cases lhs with
    | name x => exact ⟨hs.globals, hs.references, hs.operands⟩
    | _ => exact hs
  set s₁ := expr.transpile up s₀ with hs₁
  have h₁ := evaluates_expression up expr s₀
  have hw₁ : s₁.Within f := by
    obtain ⟨code, hg, -⟩ := lhs.transpile_store up s₁
    exact within_grows hg hw
  have hexpr := expr.performs hf up n A s₀ hready hw₁ [] w
  rw [hcount, hscope, hfunctions] at hexpr
  refine hexpr.bind ?_
  rintro v _ rfl
  have hstore := lhs.performs_store hf up n A (h₁.ready hready) hw v.1 v.2
  rw [h₁.scope, h₁.count, hscope, hfunctions] at hstore
  exact hstore

/-- The result of a call is dropped, and the function collects. -/
theorem callStatement_performs (target : LHS) (arguments : Arguments) :
    (Statement.callStatement target arguments).CodePerforms f up n := by
  intro s hs hw A w
  set s₁ := (Expression.call target arguments).transpile up s with hs₁
  have hw₂ : (s₁.output .pop).Within f := within_output hw
  have hw₁ : s₁.Within f := within_output hw₂
  have hcall := (Expression.call target arguments).performs hf up n A s hs hw₁ [] w
  have h₁ := evaluates_expression up (.call target arguments) s
  refine hcall.bind ?_
  rintro v _ rfl
  refine quiet A [] (s₁.count + 1) none (output_at hw₂) rfl rfl ?_
  have hcollect : f.instructions[s₁.count + 1]? = some .garbageCollect := by
    rw [← count_output s₁ .pop]
    exact output_at hw
  rw [← h₁.scope]
  refine (collect_performs hw₁ up.isEmpty hcollect).bind ?_
  rintro w' _ rfl
  refine .done ?_
  show _ = (A.frame f [] ((s₁.output .pop).output .garbageCollect).count, w')
  rw [count_output (s₁.output .pop), count_output s₁]

theorem ret_performs (expr : Expression) :
    (Statement.ret expr).CodePerforms f up n := by
  intro s hs hw A w
  set s₁ := expr.transpile up s with hs₁
  have hw₁ : (s₁.output .ret).Within f := ⟨hw.instructions, hw.constants, hw.names, hw.localVars,
    hw.localReferenceVars, hw.freeVars⟩
  refine (expr.performs hf up n A s hs (within_output hw₁) [] w).bind ?_
  rintro v _ rfl
  exact .done (observed_ret (output_at hw₁))

/-- Control meets behind both blocks. -/
theorem ifStatement_performs (cond : Expression) {thenBlock elseBlock : Block}
    (hthenBlock : thenBlock.CodePerforms f up n) (helseBlock : elseBlock.CodePerforms f up n) :
    (Statement.ifStatement cond thenBlock elseBlock).CodePerforms f up n := by
  intro s hs hw A w
  set s₀ : State := { s with labelNum := s.labelNum + 3 } with hs₀
  set s₁ := cond.transpile up s₀ with hs₁
  set s₂ := ((s₁.output (.ifTrue s.labelNum)).output (.goto (s.labelNum + 1))).outputLabel
    s.labelNum with hs₂
  set s₃ := thenBlock.transpile up s₂ with hs₃
  set s₄ := (s₃.output (.goto (s.labelNum + 2))).outputLabel (s.labelNum + 1) with hs₄
  set s₅ := elseBlock.transpile up s₄ with hs₅
  have h₁ := evaluates_expression up cond s₀
  have h₂ := Executes.trans (Executes.trans (executes_ifTrue up s.labelNum s₁)
    (executes_goto up (s.labelNum + 1) _)) (executes_label up s.labelNum _)
  have h₃ := thenBlock.executes up s₂
  have h₄ := Executes.trans (executes_goto up (s.labelNum + 2) s₃)
    (executes_label up (s.labelNum + 1) _)
  have h₅ := elseBlock.executes up s₄
  have hw₅ : s₅.Within f := within_grows (grows_outputLabel _ s₅) hw
  have hw₄ : s₄.Within f := h₅.within f hw₅
  have hw₄' : (s₃.output (.goto (s.labelNum + 2))).Within f :=
    within_grows (grows_outputLabel _ _) hw₄
  have hw₃ : s₃.Within f := within_output hw₄'
  have hw₂ : s₂.Within f := h₃.within f hw₃
  have hw₂' : ((s₁.output (.ifTrue s.labelNum)).output (.goto (s.labelNum + 1))).Within f :=
    within_grows (grows_outputLabel _ _) hw₂
  have hw₁' : (s₁.output (.ifTrue s.labelNum)).Within f := within_output hw₂'
  have hr₁ : s₁.Ready := h₁.ready ((ready_kept up).labelNum _ s hs)
  have hthen := hthenBlock s₂ (h₂.ready hr₁) hw₃ A
  have helse := helseBlock s₄ (h₄.ready (h₃.ready (h₂.ready hr₁))) hw₅ A
  rw [h₂.scope, h₂.count, h₁.scope, h₁.count, count_outputLabel] at hthen
  rw [h₄.scope, h₄.count, h₃.scope, h₃.count, h₂.scope, h₂.count, h₁.scope,
    h₁.count, count_outputLabel] at helse
  have hskip := label_at hw
  have hgoto := output_at hw₂'
  rw [count_output] at hgoto
  show Performs _ _ _ _ (Completes f (State.count (State.outputLabel _ s₅)))
  rw [count_outputLabel]
  refine (cond.performs hf up n A s₀ ((ready_kept up).labelNum _ s hs) (within_output hw₁') []
    w).bind ?_
  rintro v _ rfl
  refine test_performs hf (output_at hw₁') hgoto (label_at hw₂) (label_at hw₄) ?_ ?_
  · refine (hthen v.2).extend fun c s' hc => ?_
    cases c with
    | normal A' w' =>
      cases hc
      exact goto_performs hf (output_at hw₄') hskip (label_performs hskip (.done rfl))
    | returned v' w' => exact .done hc
  · refine (helse v.2).extend fun c s' hc => ?_
    cases c with
    | normal A' w' =>
      cases hc
      exact label_performs hskip (.done rfl)
    | returned v' w' => exact .done hc

/-- Each turn of the loop starts at its label with the state that the turn before left. -/
theorem whileLoop_performs (cond : Expression) {body : Block}
    (hbodyBlock : body.CodePerforms f up n) :
    (Statement.whileLoop cond body).CodePerforms f up n := by
  intro s hs hw A w
  set s₀ : State := ({ s with labelNum := s.labelNum + 3 } : State).outputLabel s.labelNum with hs₀
  set s₁ := s₀.output .garbageCollect with hs₁
  set s₂ := cond.transpile up s₁ with hs₂
  set s₃ := ((s₂.output (.ifTrue (s.labelNum + 1))).output
    (.goto (s.labelNum + 2))).outputLabel (s.labelNum + 1) with hs₃
  set s₄ := body.transpile up s₃ with hs₄
  have h₀ := Executes.trans (executes_labelNum up s 3) (executes_label up s.labelNum _)
  have h₁ := Executes.trans h₀ (executes_collect up s₀)
  have h₂ := evaluates_expression up cond s₁
  have h₃ := Executes.trans (Executes.trans (executes_ifTrue up (s.labelNum + 1) s₂)
    (executes_goto up (s.labelNum + 2) _)) (executes_label up (s.labelNum + 1) _)
  have hw₅ : (s₄.output (.goto s.labelNum)).Within f := within_grows (grows_outputLabel _ _) hw
  have hw₄ : s₄.Within f := within_output hw₅
  have hw₃ : s₃.Within f := (body.executes up s₃).within f hw₄
  have hw₃' : ((s₂.output (.ifTrue (s.labelNum + 1))).output (.goto (s.labelNum + 2))).Within f :=
    within_grows (grows_outputLabel _ _) hw₃
  have hw₂' : (s₂.output (.ifTrue (s.labelNum + 1))).Within f := within_output hw₃'
  have hw₁ : s₁.Within f := h₂.within f (within_output hw₂')
  have hw₀ : s₀.Within f := within_output hw₁
  have hcond := fun A => cond.performs hf up n A s₁ (h₁.ready hs) (within_output hw₂') []
  have hbody := hbodyBlock s₃ (h₃.ready (h₂.ready (h₁.ready hs))) hw₄
  rw [h₃.scope, h₃.count, h₂.scope, h₂.count, h₁.scope, h₁.count,
    count_outputLabel] at hbody
  have hcount : s₀.count = s.count + 1 := count_outputLabel _ _
  rw [h₁.scope, h₁.count, count_output, hcount] at hcond
  have hstart : f.instructions[s.count]? = some (.label s.labelNum) :=
    label_at (s := { s with labelNum := s.labelNum + 3 }) hw₀
  have hgoto := output_at hw₃'
  rw [count_output] at hgoto
  have hskip := label_at hw
  show Performs _ _ _ _ (Completes f (State.count (State.outputLabel _ (s₄.output _))))
  rw [count_outputLabel]
  refine Performs.iterate (G := fun c s' => s' = (c.1.frame f [] s.count, c.2)) ?_ rfl
  rintro ⟨A, w⟩ _ rfl
  refine ⟨(A.frame f [] (s.count + 1), w), observed_next hstart rfl, ?_⟩
  have hgc : f.instructions[s.count + 1]? = some .garbageCollect := by
    rw [← hcount]
    exact output_at hw₁
  refine (collect_performs hw₀ up.isEmpty hgc).bind ?_
  rintro w₁ _ rfl
  refine (hcond A w₁).bind ?_
  rintro v _ rfl
  refine test_performs hf (output_at hw₂') hgoto (label_at hw₃) hskip ?_ ?_
  · refine (hbody A v.2).bind ?_
    intro c s' hc
    cases c with
    | normal A' w' =>
      cases hc
      refine goto_performs hf (output_at hw₅) hstart (.done ⟨?_, ?_⟩)
      · intro c' h
        cases h
        rfl
      · intro b h
        cases h
    | returned v' w' =>
      refine .done ⟨?_, ?_⟩
      · intro c' h
        cases h
      · intro b h
        cases h
        exact hc
  · refine .done ⟨?_, ?_⟩
    · intro c' h
      cases h
    · intro b h
      cases h
      rfl

end Statements

end CompilerCorrectnessLemmas

mutual
/-- The code of a statement does what the statement means. -/
theorem Statement.performs {f : Function} (hf : f.Runs) (up : List Node) (n : Nat) :
    (st : Statement) → st.CodePerforms f up n
  | .assignment lhs expr => assignment_performs hf up n lhs expr
  | .callStatement target arguments => callStatement_performs hf up n target arguments
  | .global _ => fun _ _ _ _ _ => .done rfl
  | .ret expr => ret_performs hf up n expr
  | .ifStatement cond thenBlock elseBlock =>
    ifStatement_performs hf up n cond (thenBlock.performs hf up n) (elseBlock.performs hf up n)
  | .whileLoop cond body => whileLoop_performs hf up n cond (body.performs hf up n)

theorem Block.performs {f : Function} (hf : f.Runs) (up : List Node) (n : Nat) :
    (b : Block) → b.CodePerforms f up n
  | .nil => fun _ _ _ _ _ => .done rfl
  | .cons head tail => by
    intro s hs hw A w
    set s₁ := head.transpile up s with hs₁
    have h₁ := head.executes up s
    have hw₁ : s₁.Within f := (tail.executes up s₁).within f hw
    have htail := tail.performs hf up n s₁ (h₁.ready hs) hw
    rw [h₁.scope, h₁.count] at htail
    refine (head.performs hf up n s hs hw₁ A w).bind ?_
    intro c s' hc
    cases c with
    | normal A' w' =>
      cases hc
      exact htail A' w'
    | returned v w' => exact .done hc
end

/-! ## Functions -/

/-- The variables in the slots of a frame. -/
def Frame.variables (fr : Frame) : Variables where
  closure := fr.closure
  captured x := fr.references.getD
    (fr.function.localReferenceVars.length + (index fr.function.freeVars x).getD 0) 0
  boxes x := fr.references.getD ((index fr.function.localReferenceVars x).getD 0) 0
  locals x := fr.locals.getD ((index fr.function.localVars x).getD 0) .none

/-- A frame that is about to run `f`. -/
structure Frame.Starts (fr : Frame) (f : Function) : Prop where
  function : fr.function = f
  ip : fr.ip = 0
  stack : fr.stack = []
  references : fr.references.length = f.numReferences
  locals : fr.locals.length = f.localVars.length

/-- The tables of variables name each slot once. -/
structure Function.Named (f : Function) : Prop where
  localReferenceVars : f.localReferenceVars.Nodup
  freeVars : f.freeVars.Nodup
  localVars : f.localVars.Nodup

namespace CompilerCorrectnessLemmas

theorem index_of_nodup {names : List String} (hn : names.Nodup) {k : Nat} {x : String}
    (hk : names[k]? = some x) : index names x = some k := by
  obtain ⟨i, hi⟩ := Option.isSome_iff_exists.mp (index_isSome.mpr (List.mem_of_getElem? hk))
  have hik : i = k :=
    (List.getElem?_inj (index_lt hi) hn).mp ((index_getElem? hi).trans hk.symm)
  rw [hi, hik]

/-- Looking up the names of the slots gives the slots. -/
theorem map_getD {α : Type} {names : List String} (hn : names.Nodup) (slots : List α) (m : Nat)
    (hl : m + names.length ≤ slots.length) (d : α) :
    names.map (fun x => slots.getD (m + (index names x).getD 0) d) =
      (slots.drop m).take names.length := by
  refine List.ext_getElem? fun k => ?_
  rw [List.getElem?_map, List.getElem?_take, List.getElem?_drop]
  cases hk : names[k]? with
  | none =>
    rw [if_neg (Nat.not_lt.mpr (List.getElem?_eq_none_iff.mp hk))]
    rfl
  | some x =>
    have hlt := (List.getElem?_eq_some_iff.mp hk).1
    have hmk : m + k < slots.length := by omega
    have hslot : slots[m + k]? = some slots[m + k] := List.getElem?_eq_getElem hmk
    rw [if_pos hlt, Option.map_some, index_of_nodup hn hk, Option.getD_some,
      List.getD_eq_getElem?_getD, hslot]
    rfl

theorem frame_variables {fr : Frame} {f : Function} (h : fr.Starts f) (hf : f.Named) :
    fr.variables.frame f [] 0 = fr := by
  obtain ⟨closure, function, references, locals, stack, ip⟩ := fr
  obtain ⟨hfunction, hip, hstack, hreferences, hlocals⟩ := h
  dsimp only at hfunction hip hstack hreferences hlocals
  subst hfunction hip hstack
  rw [Function.numReferences] at hreferences
  have hboxes := map_getD hf.localReferenceVars references 0 (by omega) 0
  have hcaptured := map_getD hf.freeVars references function.localReferenceVars.length (by omega) 0
  have hvars := map_getD hf.localVars locals 0 (by omega) .none
  simp only [Nat.zero_add, List.drop_zero] at hboxes hvars
  rw [List.take_of_length_le (by rw [List.length_drop]; omega)] at hcaptured
  rw [← hlocals, List.take_length] at hvars
  unfold Variables.frame Frame.variables
  dsimp only
  rw [hboxes, hcaptured, hvars, List.take_append_drop]

/-! ### Literals -/

variable {up : List Node} {parent : Node} {k : Nat} {l : Literal}

theorem emitted_named (up : List Node) (parent : Node) (k : Nat) (l : Literal) :
    (l.emitted up parent k).Named := by
  have h := compiled_layout up parent k l
  refine ⟨?_, ?_, ?_⟩
  · rw [show (l.emitted up parent k).localReferenceVars =
      (enteredLayout parent l).localReferenceVars from congrArg Layout.localReferenceVars h]
    exact nodup_insertAll _ List.nodup_nil
  · rw [show (l.emitted up parent k).freeVars = (enteredLayout parent l).freeVars from
      congrArg Layout.freeVars h]
    exact nodup_insertAll _ (nodup_insertAll _ List.nodup_nil)
  · rw [show (l.emitted up parent k).localVars = (enteredLayout parent l).localVars from
      congrArg Layout.localVars h]
    exact nodup_insertAll _ (nodup_insertAll _ List.nodup_nil)

theorem emitted_runs (h : WellEmitted (l.emitted up parent k)) : (l.emitted up parent k).Runs where
  wellEmitted := h
  constants := fun _ => insert_ne_nil (l.body.transpile (parent :: up)
    ⟨enterFunction parent up l.arguments l.body, k⟩).node.function.constants .none
  localVars := (emitted_named up parent k l).localVars

theorem literal_exhibits (h : WellEmitted (l.emitted up parent k)) (n : Nat) (A : Variables)
    (w : World) : Frame.observed.Exhibits n (A.frame (l.emitted up parent k) [] 0, w)
      (l.exec n ((enterFunction parent up l.arguments l.body).scope false) A w) := by
  set s : State := ⟨enterFunction parent up l.arguments l.body, k⟩ with hs
  set s₁ := l.body.transpile (parent :: up) s with hs₁
  have hw : ((s₁.loadConst .none).output .ret).Within (l.emitted up parent k) :=
    ⟨List.prefix_rfl, List.prefix_rfl, List.prefix_rfl, rfl, rfl, rfl⟩
  have hw₁ : (s₁.loadConst .none).Within (l.emitted up parent k) := within_output hw
  obtain ⟨i, hg⟩ := grows_loadConst .none s₁
  have hfresh := enterFunction_fresh parent up l.arguments l.body
  have hcount : s.count = 0 := by
    show s.node.function.instructions.length = 0
    rw [show s.node.function.instructions = [] from hfresh.instructions]
    rfl
  have hfunctions : s.node.function.functions.length = 0 := by
    rw [show s.node.function.functions = [] from hfresh.functions]
    rfl
  have hbody := l.body.performs (emitted_runs h) (parent :: up) n s
    (ready_enterFunction parent up l k) (within_grows hg hw₁) A w
  rw [hcount, hfunctions] at hbody
  refine Performs.exhibits (hbody.bind ?_)
  intro c s' hc
  cases c with
  | normal A' w' =>
    cases hc
    have hlast : Frame.observed.Performs n (A'.frame (l.emitted up parent k) [] s₁.count, w')
        (.bind (.done (constantToValue .none, w')) fun r => .done (some r.1, r.2))
        fun b s' => Frame.observed s' = .ok (.stop b) := by
      refine (const_performs hw₁).bind ?_
      rintro r _ rfl
      exact .done (observed_ret (output_at hw))
    exact hlast
  | returned v w' => exact .done hc

end CompilerCorrectnessLemmas

/-- `f` is compiled from the literal `l`, whose names have the scope `S`. -/
def Literal.Compiles (l : Literal) (S : Scope) (f : Function) : Prop :=
  ∃ up parent k, f = l.emitted up parent k ∧
    S = (enterFunction parent up l.arguments l.body).scope false

/-- The function compiled from a literal does what the literal means: from the
start of a call, and for every environment, the runs of its code that end are
the paths through the meaning of the literal. -/
theorem literal_correct (prog : Program) {l : Literal} {S : Scope} {f : Function}
    (hf : SubFunction (compile prog) f) (hl : l.Compiles S f) {fr : Frame} (hfr : fr.Starts f)
    (w : World) (env : Request × World → Value × World → Prop)
    (t : List (Label Event (Request × World) (Value × World)))
    (o : Except Stop (Option Value × World)) :
    (∃ n, Frame.observed.Finishes env n (fr, w) t o) ↔
      ∃ fuel, (l.exec fuel S fr.variables w).Path env t o := by
  obtain ⟨up, parent, k, rfl, rfl⟩ := hl
  refine finishes_iff fun n => ?_
  have h := literal_exhibits (compile_wellEmitted prog hf) n fr.variables w
  rw [frame_variables hfr (emitted_named up parent k l)] at h
  exact h

/-- `fun(x) { return x + 1; }` -/
def successor : Literal :=
  ⟨["x"], .cons (.ret (.binaryOp .plus (.lhs (.name "x")) (.intConst 1))) .nil⟩

/-- `f = fun(x) { return x + 1; };` -/
def definesSuccessor : Program :=
  .cons (.assignment (.name "f") (.function successor.arguments successor.body)) .nil

theorem literal_correct_successor :
    let w : World := ⟨CollectedHeap.empty (.x64 false false), 0, [], [], []⟩
    ∃ f, SubFunction (compile definesSuccessor) f ∧ ∃ n, Frame.observed.Finishes
      (fun _ _ => False) n (⟨0, f, [], [.integer 1], [], 0⟩, w)
      [.event (.act (.add (.integer 1) (.integer 1)))] (.ok (some (.integer 2), w)) := by
  intro w
  have hf : SubFunction (compile definesSuccessor) (successor.emitted [] initialState.node 0) :=
    .step (.refl _) (List.mem_of_mem_head? rfl)
  have hstarts : Frame.Starts ⟨0, successor.emitted [] initialState.node 0, [], [.integer 1], [], 0⟩
      (successor.emitted [] initialState.node 0) := ⟨rfl, rfl, rfl, rfl, rfl⟩
  refine ⟨_, hf, (literal_correct definesSuccessor hf ⟨[], _, 0, rfl, rfl⟩ hstarts w _ _ _).mpr
    ⟨0, ?_⟩⟩
  exact .act (.done _)

/-! ## The top-level code -/

namespace CompilerCorrectnessLemmas

theorem visits_returns {globals : List String} {vs : List Visit}
    (h : ∀ v ∈ vs, v.stores = false) : (summaryAll globals vs).returns = false := by
  induction vs generalizing globals with
  | nil => rfl
  | cons v vs ih =>
    have hv : (v.summary globals).returns = false := by
      have hstores := h v (List.mem_cons_self ..)
      cases v with
      | ret => cases hstores
      | _ => rfl
    simp only [summaryAll, Summary.append, hv, ih fun u hu => h u (List.mem_cons_of_mem v hu),
      Bool.or_self]

theorem summaryAll_append (globals : List String) (vs ws : List Visit) :
    (summaryAll globals (vs ++ ws)).returns = ((summaryAll globals vs).returns ||
      (summaryAll (summaryAll globals vs).globals ws).returns) := by
  induction vs generalizing globals with
  | nil => rfl
  | cons v vs ih =>
    simp only [List.cons_append, summaryAll, Summary.append, ih, Bool.or_assoc]

theorem store_returns {globals : List String} (l : LHS) :
    (summaryAll globals l.storeVisits).returns = false := by
  cases l with
  | name x => rfl
  | index base idx =>
    refine visits_returns fun v hv => ?_
    simp only [LHS.storeVisits, List.mem_append, List.mem_cons, List.not_mem_nil, or_false] at hv
    rcases hv with ((hv | rfl) | hv) | rfl | rfl
    · exact base.visits_read v hv
    · rfl
    · exact idx.visits_read v hv
    · rfl
    · rfl
  | field base x =>
    refine visits_returns fun v hv => ?_
    simp only [LHS.storeVisits, List.mem_append, List.mem_cons, List.not_mem_nil, or_false] at hv
    rcases hv with (rfl | hv) | rfl | rfl
    · rfl
    · exact base.visits_read v hv
    · rfl
    · rfl

theorem assignment_returns {globals : List String} (l : LHS) (e : Expression) :
    (summaryAll globals (Statement.assignment l e).visits).returns = false := by
  have hstart : (summaryAll globals l.storingVisits).returns = false := by
    cases l with
    | _ => rfl
  simp only [Statement.visits, summaryAll_append, hstart, visits_returns e.visits_read,
    store_returns, Bool.or_self]

end CompilerCorrectnessLemmas

mutual
theorem Statement.summary_returns :
    (st : Statement) → (globals : List String) → (st.summary globals).returns = st.hasReturn
  | .assignment l e, globals => assignment_returns l e
  | .callStatement target arguments, globals => by
    refine visits_returns ?_
    rw [Statement.visits]
    refine List.forall_mem_append.mpr ⟨?_, ?_⟩
    · exact List.forall_mem_append.mpr ⟨arguments.visits_read, target.visits_read⟩
    · exact List.forall_mem_cons.mpr ⟨rfl, List.forall_mem_cons.mpr ⟨rfl,
        List.forall_mem_singleton.mpr rfl⟩⟩
  | .global _, _ => rfl
  | .ret e, globals => by
    simp only [Statement.summary, Statement.visits, summaryAll_append, Statement.hasReturn]
    exact Bool.or_true _
  | .ifStatement cond thenBlock elseBlock, globals => by
    simp only [Statement.summary, Summary.append, Summary.either, Statement.hasReturn,
      visits_returns cond.visits_read, thenBlock.summary_returns, elseBlock.summary_returns,
      Bool.false_or]
  | .whileLoop cond body, globals => by
    simp only [Statement.summary, Summary.append, Summary.optional, Statement.hasReturn,
      visits_returns cond.visits_read, body.summary_returns, Bool.false_or]

theorem Block.summary_returns :
    (b : Block) → (globals : List String) → (b.summary globals).returns = b.hasReturn
  | .nil, _ => rfl
  | .cons head tail, globals => by
    simp only [Block.summary, Summary.append, Block.hasReturn, head.summary_returns,
      tail.summary_returns]
end

namespace CompilerCorrectnessLemmas

variable {f : Function} {A : Variables} {n : Nat} {w : World}

theorem builtins_perform (bs : List (String × Nat)) {s : State}
    (hw : (bs.foldl (fun s b => addNativeFunction s b.1 (b.2 + 1)) s).Within f) :
    Frame.observed.Performs n (A.frame f [] s.count, w) (storeBuiltins A.closure bs w)
      fun w' s' => s' = (A.frame f [] (bs.foldl
        (fun s b => addNativeFunction s b.1 (b.2 + 1)) s).count, w') := by
  induction bs generalizing s w with
  | nil => exact .done rfl
  | cons b rest ih =>
    set s₁ := addNativeFunction s b.1 (b.2 + 1) with hs₁
    have hw₁ : s₁.Within f := by
      have hemits : ∀ (rest : List (String × Nat)) (s : State), Emits 0 0 s
          (rest.foldl (fun s b => addNativeFunction s b.1 (b.2 + 1)) s) := by
        intro rest
        induction rest with
        | nil => exact fun s => Emits.refl 0 s
        | cons b rest ih =>
          exact fun s => (addNativeFunction_emits s b.1 (b.2 + 1)).trans (ih _) (Nat.le_refl 0)
      exact within_emits (hemits rest s₁) hw
    set s₀ := ((s.output (.loadFunc (-((b.2 + 1 : Nat) : Int)))).modifyNode fun node =>
      { node with globals := insert node.globals b.1 }) with hs₀
    have hw₀ : (s₀.insertName b.1).Within f := within_output hw₁
    have hload : f.instructions[s.count]? = some (.loadFunc (-((b.2 + 1 : Nat) : Int))) :=
      output_at (within_grows (grows_modifyNode rfl rfl)
          (within_grows (grows_insertName b.1 s₀) hw₀))
    have hstore : f.instructions[s.count + 1]? = some (.storeGlobal (s₀.nameIndex b.1)) := by
      have h := output_at hw₁
      rwa [show (s₀.insertName b.1).count = s.count + 1 from count_output _ _] at h
    have hcount : s₁.count = s.count + 1 + 1 := by
      rw [hs₁, show s.count + 1 = (s₀.insertName b.1).count from (count_output _ _).symm]
      exact count_output _ _
    refine (performs_load hload rfl).bind ?_
    rintro v _ rfl
    refine (performs_store [] hstore ?_).bind ?_
    · show (safeIndex f.names _ >>= _) = _
      rw [safeIndex_ok.mpr (name_at hw₀)]
      rfl
    · rintro r _ rfl
      rw [← hcount]
      exact ih hw

/-- The default return is there unless the program has a return of its own. -/
theorem main_cases (prog : Program) :
    (prog.hasReturn = true ∧ compile prog = (prog.transpile [] initialState).node.function) ∨
    (prog.hasReturn = false ∧ compile prog =
      (((prog.transpile [] initialState).loadConst (.integer 0)).output .ret).node.function) := by
  obtain ⟨code, hs, -⟩ := prog.transpile_flow initialState EndingsLemmas.initialState_isMain
  have hreturned : (prog.transpile [] initialState).node.returned = prog.hasReturn :=
    hs.returned.trans (prog.summary_returns builtins)
  unfold compile visitProgram
  cases hr : prog.hasReturn with
  | true =>
    simp only [hreturned, hr, ↓reduceIte]
    exact .inl ⟨trivial, trivial⟩
  | false =>
    simp only [hreturned, hr, Bool.false_eq_true, ↓reduceIte]
    exact .inr ⟨trivial, rfl⟩

theorem main_tables (prog : Program) : (compile prog).localVars = [] ∧
    (compile prog).localReferenceVars = [] ∧ (compile prog).freeVars = [] := by
  obtain ⟨code, hg, -⟩ := prog.transpile_emits [] initialState
  have hbody : (prog.transpile [] initialState).node.function.localVars = [] ∧
      (prog.transpile [] initialState).node.function.localReferenceVars = [] ∧
      (prog.transpile [] initialState).node.function.freeVars = [] :=
    ⟨congrArg Layout.localVars hg.layout, congrArg Layout.localReferenceVars hg.layout,
      congrArg Layout.freeVars hg.layout⟩
  rcases main_cases prog with ⟨-, h⟩ | ⟨-, h⟩
  · rw [h]
    exact hbody
  · rw [h]
    exact hbody

theorem main_named (prog : Program) : (compile prog).Named := by
  obtain ⟨h₁, h₂, h₃⟩ := main_tables prog
  exact ⟨h₂ ▸ List.nodup_nil, h₃ ▸ List.nodup_nil, h₁ ▸ List.nodup_nil⟩

theorem main_runs {prog : Program} (h : prog.lacksConstant = false) : (compile prog).Runs where
  wellEmitted := compile_wellEmitted prog (.refl _)
  constants := fun hmem hnil => by
    have hlt : 0 < (compile prog).constants.length :=
      ((main_bounded_iff prog).mpr h).operands _ hmem
    rw [hnil] at hlt
    exact Nat.lt_irrefl 0 hlt
  localVars := (main_named prog).localVars

theorem top_scope : initialState.node.scope true = Scope.top := by
  have hglobals : initialState.node.globals = builtins := by decide
  unfold Node.scope
  rw [hglobals]
  rfl

theorem observed_end (h : f.instructions[f.instructions.length]? = none) :
    Frame.observed (A.frame f [] f.instructions.length, w) = .ok (.stop (none, w)) := by
  have h' : (A.frame f [] f.instructions.length).function.instructions[
    (A.frame f [] f.instructions.length).ip]? = none := h
  unfold Frame.observed Process.observe Frame.move
  simp only [h']
  rfl

theorem program_exhibits {prog : Program} (h : prog.lacksConstant = false) (n : Nat)
    (A : Variables) (w : World) : Frame.observed.Exhibits n (A.frame (compile prog) [] 0, w)
      (prog.execProgram n A w) := by
  have hruns := main_runs h
  set s := prog.transpile [] initialState with hs
  have hw : s.Within (compile prog) := by
    rcases main_cases prog with ⟨-, hmain⟩ | ⟨-, hmain⟩
    · rw [hmain]
      exact ⟨List.prefix_rfl, List.prefix_rfl, List.prefix_rfl, rfl, rfl, rfl⟩
    · rw [hmain]
      obtain ⟨i, hg⟩ := grows_loadConst (.integer 0) s
      exact within_grows hg ⟨List.prefix_append _ _, List.prefix_rfl, List.prefix_rfl, rfl, rfl,
        rfl⟩
  have hw₀ : initialState.Within (compile prog) := (prog.executes [] initialState).within _ hw
  have hbuiltins : Frame.observed.Performs n (A.frame (compile prog) [] 0, w) _ _ :=
    builtins_perform builtins.zipIdx (s := ⟨{}, 0⟩) hw₀
  refine Performs.exhibits (hbuiltins.bind ?_)
  rintro w₁ _ rfl
  have hbody := prog.performs hruns [] n initialState ready_initialState hw A w₁
  rw [show initialState.node.scope ([] : List Node).isEmpty = Scope.top from top_scope,
    show initialState.node.function.functions.length = 0 by decide] at hbody
  refine Performs.bind hbody ?_
  intro c s' hc
  cases c with
  | returned v w' => exact .done hc
  | normal A' w' =>
    cases hc
    rcases main_cases prog with ⟨hr, hmain⟩ | ⟨hr, hmain⟩
    · show Performs _ _ _ (if prog.hasReturn then _ else _) _
      rw [if_pos hr]
      refine .done ?_
      have hcount : s.count = (compile prog).instructions.length := by rw [hmain]; rfl
      rw [hcount]
      exact observed_end (List.getElem?_eq_none (Nat.le_refl _))
    · show Performs _ _ _ (if prog.hasReturn then _ else _) _
      rw [if_neg (by rw [hr]; exact Bool.false_ne_true)]
      have hw₁ : ((s.loadConst (.integer 0)).output .ret).Within (compile prog) := by
        rw [hmain]
        exact ⟨List.prefix_rfl, List.prefix_rfl, List.prefix_rfl, rfl, rfl, rfl⟩
      have hlast : Frame.observed.Performs n (A'.frame (compile prog) [] s.count, w')
          (.bind (.done (constantToValue (.integer 0), w')) fun r => .done (some r.1, r.2))
          fun b s' => Frame.observed s' = .ok (.stop b) := by
        refine (const_performs (within_output hw₁)).bind ?_
        rintro r _ rfl
        exact .done (observed_ret (output_at hw₁))
      exact hlast

end CompilerCorrectnessLemmas

/-- The world in which `interpret()` calls the main function. -/
def World.initial (options : HeapOptions) (input : List String) (main : Function) : World :=
  let (a, heap) := (CollectedHeap.empty options).allocate (.closure main [])
  ⟨heap, a, [], input, []⟩

/-- The main function does what the program means, if it has the constant that the
report of an unknown name loads first. -/
theorem program_correct {prog : Program} (h : prog.lacksConstant = false) {fr : Frame}
    (hfr : fr.Starts (compile prog)) (w : World) (env : Request × World → Value × World → Prop)
    (t : List (Label Event (Request × World) (Value × World)))
    (o : Except Stop (Option Value × World)) :
    (∃ n, Frame.observed.Finishes env n (fr, w) t o) ↔
      ∃ fuel, (prog.execProgram fuel fr.variables w).Path env t o := by
  refine finishes_iff fun n => ?_
  have hexhibits := program_exhibits h n fr.variables w
  rw [frame_variables hfr (main_named prog)] at hexhibits
  exact hexhibits

/-- `f = fun(x) { return x + 1; }; print(f(1));` -/
def printsSuccessor : Program :=
  .cons (.assignment (.name "f") (.function ["x"]
    (.cons (.ret (.binaryOp .plus (.lhs (.name "x")) (.intConst 1))) .nil)))
    (.cons (.callStatement (.name "print")
      (.cons (.call (.name "f") (.cons (.intConst 1) .nil)) .nil)) .nil)

/-- The answer 2 for every call. -/
def answersTwo (r : Request × World) : Value × World :=
  (.integer 2, r.2)

/-- The value of the main function, and the globals there are then. -/
def defines (p : List (Label Event (Request × World) (Value × World)) ×
    Except Stop (Option Value × World)) : Option (Option Value × List String) :=
  p.2.toOption.map fun r => (r.1, r.2.globals.map Prod.fst)

theorem program_correct_printsSuccessor :
    let w := World.initial (.x64 false false) [] (compile printsSuccessor)
    ∃ n t w', Frame.observed.Finishes (fun r a => a = answersTwo r) n
      (⟨w.mainClosure, compile printsSuccessor, [], [], [], 0⟩, w) t (.ok (some (.integer 0), w')) ∧
      w'.globals.map Prod.fst = ["print", "input", "intcast", "f"] := by
  intro w
  have hstarts : Frame.Starts ⟨w.mainClosure, compile printsSuccessor, [], [], [], 0⟩
      (compile printsSuccessor) := ⟨rfl, rfl, rfl, rfl, rfl⟩
  have hrun : ((printsSuccessor.execProgram 0
      (Frame.variables ⟨w.mainClosure, compile printsSuccessor, [], [], [], 0⟩) w).answered
        answersTwo).bind defines =
        some (some (.integer 0), ["print", "input", "intcast", "f"]) := by
    decide +kernel
  obtain ⟨⟨t, o⟩, hpath, ho⟩ := Option.bind_eq_some_iff.mp hrun
  obtain ⟨⟨v, w'⟩, hw, he⟩ := Option.map_eq_some_iff.mp ho
  obtain rfl : o = .ok (v, w') := Results.toOption_eq_some hw
  obtain ⟨hv, hg⟩ := Prod.mk.inj he
  obtain ⟨n, hn⟩ := (program_correct (by decide) hstarts w (fun r a => a = answersTwo r) t
    (.ok (v, w'))).mpr ⟨0, Behavior.path_answered hpath⟩
  exact ⟨n, t, w', hv ▸ hn, hg⟩

end Beaverc

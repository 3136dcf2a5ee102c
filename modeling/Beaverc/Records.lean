import Beaverc.Emitted

/-!
# Records under construction

`Dup` is emitted for one thing: while the fields of a record literal are
transpiled, the record stays on the operand stack below their values. `marks`
follows which operands on the stack are such records; no emitted `Dup` finds
another operand on top.
-/

namespace Beaverc
open Tables DisciplineLemmas VisitsLemmas

/-- Which operands are records under construction after an instruction, the top one
first; `none` if another operand is duplicated, or operands are missing. -/
def Instruction.marks (i : Instruction) (ms : List Bool) : Option (List Bool) :=
  match i with
  | .allocRecord => some (true :: ms)
  | .dup =>
    match ms with
    | true :: rest => some (true :: true :: rest)
    | _ => none
  | .swap =>
    match ms with
    | a :: b :: rest => some (b :: a :: rest)
    | _ => none
  | .ret | .ifTrue _ => if 1 ≤ ms.length then some (ms.drop 1) else none
  | i =>
    match i.effect with
    | some (pops, pushes) =>
      if pops ≤ ms.length then some (List.replicate pushes false ++ ms.drop pops) else none
    | none => some ms

/-- Which operands are records under construction after some code. -/
def marks (ms : List Bool) (code : List Instruction) : Option (List Bool) :=
  code.foldlM (fun ms i => i.marks ms) ms

/-- The operands after the code emitted so far. -/
def State.marks (s : State) : Option (List Bool) :=
  Beaverc.marks [] s.node.function.instructions

/-- The operands after a visit. -/
def Visit.marks (v : Visit) (ms : List Bool) : Option (List Bool) :=
  match v with
  | .load _ | .literal _ | .const _ => some (false :: ms)
  | .store _ | .ret => if 1 ≤ ms.length then some (ms.drop 1) else none
  | .storing _ | .field _ => some ms
  | .fieldLoad _ => if 1 ≤ ms.length then some (false :: ms.drop 1) else none
  | .fieldStore _ => if 2 ≤ ms.length then some (ms.drop 2) else none
  | .output i _ => i.marks ms

def visitsMarks (vs : List Visit) (ms : List Bool) : Option (List Bool) :=
  vs.foldlM (fun ms v => v.marks ms) ms

namespace RecordsLemmas

variable {up : List Node} {s : State} {ms ms' : List Bool}

theorem marks_output (h : s.marks = some ms) {i : Instruction} (hi : i.marks ms = some ms') :
    (s.output i).marks = some ms' := by
  show Beaverc.marks [] (s.node.function.instructions ++ [i]) = some ms'
  unfold Beaverc.marks
  rw [List.foldlM_append, show List.foldlM _ _ s.node.function.instructions = some ms from h]
  show (i.marks ms >>= fun ms => some ms) = some ms'
  rw [hi]
  rfl

theorem marks_congr {s' : State} (h : s.marks = some ms)
    (he : s'.node.function.instructions = s.node.function.instructions) : s'.marks = some ms := by
  unfold State.marks
  rw [he]
  exact h

theorem marks_outputLabel (h : s.marks = some ms) (l : Nat) : (s.outputLabel l).marks = some ms :=
  marks_congr (marks_output h (i := .label l) rfl) rfl

theorem marks_visitName_load (isGlobal : Bool) (x : String) (h : s.marks = some ms) :
    (visitName isGlobal false x s).marks = some (false :: ms) := by
  rcases visitName_cases isGlobal false x s with
    ⟨-, he⟩ | ⟨-, i, -, he⟩ | ⟨-, i, -, he⟩ | ⟨-, hs, -⟩ | ⟨-, -, he⟩
  · rw [he]
    exact marks_output h rfl
  · rw [he]
    exact marks_output h rfl
  · rw [he]
    exact marks_output h rfl
  · cases hs
  · rw [he]
    have hname : (s.insertName x).marks = some ms := marks_congr h rfl
    exact marks_output (marks_output hname (i := .loadConst 0) rfl) rfl

theorem marks_visitName_store (isGlobal : Bool) (x : String) {m : Bool}
    (h : s.marks = some (m :: ms)) : (visitName isGlobal true x s).marks = some ms := by
  rcases visitName_cases isGlobal true x s with
    ⟨-, he⟩ | ⟨-, i, -, he⟩ | ⟨-, i, -, he⟩ | ⟨-, -, he⟩ | ⟨-, -, he⟩
  · rw [he]
    exact marks_output h rfl
  · rw [he]
    exact marks_output h rfl
  · rw [he]
    exact marks_output h rfl
  · rw [he]
    exact marks_output (marks_congr h rfl) rfl
  · rw [he]
    have hname : (s.insertName x).marks = some (m :: ms) := marks_congr h rfl
    exact marks_output (marks_output hname (i := .pop) rfl) rfl

theorem marks_pushReferences (refs : List Nat) (h : s.marks = some ms) :
    (refs.foldl (fun s i => s.output (.pushReference i)) s).marks =
      some (List.replicate refs.length false ++ ms) := by
  induction refs generalizing s ms with
  | nil => exact h
  | cons i refs ih =>
    have hpush : (s.output (.pushReference i)).marks = some (false :: ms) := marks_output h rfl
    rw [List.foldl_cons, ih hpush, List.length_cons, List.replicate_succ', List.append_assoc]
    rfl

/-- An instruction that takes an operand and `n` operands below it. -/
theorem taken_marks {args : List Bool} {n : Nat} (h : args.length = n) (a : Bool)
    (ms : List Bool) {i : Instruction} (hi : ∀ ms, i.marks ms =
      if n + 1 ≤ ms.length then some (false :: ms.drop (n + 1)) else none) :
    i.marks (a :: (args ++ ms)) = some (false :: ms) := by
  subst h
  rw [hi, if_pos (by simp)]
  simp

theorem marks_leaveFunction (body : Block) (inner : State) (h : s.marks = some ms) :
    (leaveFunction body inner s).marks = some (false :: ms) := by
  let f : Function := { inner.node.function with argMapping := argMappingOf inner.node.function }
  let s₁ := { s with labelNum := inner.labelNum }.modifyFunction fun g =>
    { g with functions := g.functions ++ [f] }
  have h₁ : s₁.marks = some ms := marks_congr h rfl
  let s₂ := (captures s₁.node body).reverse.foldl (fun s i => s.output (.pushReference i)) s₁
  have h₂ : s₂.marks = _ := marks_pushReferences (captures s₁.node body).reverse h₁
  have h₃ := marks_output h₂ (i := .loadFunc (s₂.node.function.functions.length - 1 : Nat)) rfl
  have hlen : (List.replicate (captures s₁.node body).reverse.length false).length =
      (captures s₁.node body).length := by simp
  have htaken := taken_marks hlen false ms (i := .allocClosure _) fun _ => rfl
  exact marks_output h₃ htaken

/-- The visits do to the operands what `Visit.marks` says. -/
theorem marks_visit {v : Visit} (h : s.marks = some ms) (hv : v.marks ms = some ms') :
    (v.transpile up s).marks = some ms' := by
  cases v with
  | load x =>
    cases hv
    exact marks_visitName_load _ x h
  | store x =>
    obtain _ | ⟨m, ms⟩ := ms
    · cases hv
    · cases hv
      exact marks_visitName_store _ x h
  | storing x | field x =>
    cases hv
    exact marks_congr h rfl
  | literal l =>
    cases hv
    exact marks_leaveFunction _ _ h
  | const c =>
    cases hv
    exact marks_output (i := .loadConst _) (marks_congr h rfl) rfl
  | fieldLoad x =>
    obtain _ | ⟨m, ms⟩ := ms
    · cases hv
    · cases hv
      exact marks_output (marks_congr h rfl) rfl
  | fieldStore x =>
    obtain _ | ⟨m, _ | ⟨m', ms⟩⟩ := ms
    · cases hv
    · cases hv
    · cases hv
      exact marks_output (marks_congr h rfl) rfl
  | output i _ => exact marks_output h hv
  | ret =>
    obtain _ | ⟨m, ms⟩ := ms
    · cases hv
    · cases hv
      exact marks_congr (marks_output h (i := .ret) rfl) rfl

theorem marks_all {vs : List Visit} (h : s.marks = some ms) (hv : visitsMarks vs ms = some ms') :
    (transpileAll up vs s).marks = some ms' := by
  induction vs generalizing s ms with
  | nil =>
    cases hv
    exact h
  | cons v vs ih =>
    obtain ⟨ms₁, h₁, hv⟩ := Option.bind_eq_some_iff.mp hv
    exact ih (marks_visit h h₁) hv

theorem visitsMarks_append {vs ws : List Visit} {ms₁ : List Bool}
    (hv : visitsMarks vs ms = some ms₁) (hw : visitsMarks ws ms₁ = some ms') :
    visitsMarks (vs ++ ws) ms = some ms' := by
  unfold visitsMarks
  rw [List.foldlM_append, show List.foldlM _ ms vs = some ms₁ from hv]
  exact hw

theorem visitsMarks_cons {v : Visit} {vs : List Visit} {ms₁ : List Bool}
    (hv : v.marks ms = some ms₁) (hw : visitsMarks vs ms₁ = some ms') :
    visitsMarks (v :: vs) ms = some ms' := by
  unfold visitsMarks
  rw [List.foldlM_cons, hv]
  exact hw

theorem visitsMarks_snoc {v : Visit} {vs : List Visit} {ms₁ : List Bool}
    (hv : visitsMarks vs ms = some ms₁) (hw : v.marks ms₁ = some ms') :
    visitsMarks (vs ++ [v]) ms = some ms' :=
  visitsMarks_append hv (visitsMarks_cons hw rfl)

theorem binary_marks (op : BinOpSym) (a b : Bool) (ms : List Bool) :
    op.operation.1.marks (a :: b :: ms) = some (false :: ms) := by
  cases op <;> rfl

theorem unary_marks (op : UnOpSym) (a : Bool) (ms : List Bool) :
    op.operation.marks (a :: ms) = some (false :: ms) := by
  cases op <;> rfl

end RecordsLemmas

open RecordsLemmas

/-! ## Every piece of syntax -/

mutual
theorem LHS.visits_marks : (l : LHS) → (ms : List Bool) →
    visitsMarks l.visits ms = some (false :: ms)
  | .name _, _ => rfl
  | .index base idx, ms => by
    obtain ⟨m, hm⟩ := idx.visits_marks (false :: ms)
    exact visitsMarks_snoc (visitsMarks_append (base.visits_marks ms) hm) rfl
  | .field base x, ms =>
    visitsMarks_snoc (visitsMarks_cons (v := .field x) rfl (base.visits_marks ms)) rfl

theorem Expression.visits_marks : (e : Expression) → (ms : List Bool) →
    ∃ m, visitsMarks e.visits ms = some (m :: ms)
  | .lhs l, ms => ⟨false, l.visits_marks ms⟩
  | .call target arguments, ms => by
    obtain ⟨args, hlen, hargs⟩ := arguments.visits_marks ms
    exact ⟨false, visitsMarks_snoc (visitsMarks_append hargs (target.visits_marks _))
      (taken_marks hlen false ms (i := .call _) fun _ => rfl)⟩
  | .function _ _, _ => ⟨false, rfl⟩
  | .record fields, ms => ⟨true, visitsMarks_cons rfl (fields.visits_marks ms)⟩
  | .boolConst _, _ => ⟨false, rfl⟩
  | .strConst _, _ => ⟨false, rfl⟩
  | .intConst _, _ => ⟨false, rfl⟩
  | .nullConst, _ => ⟨false, rfl⟩
  | .binaryOp op left right, ms => by
    refine ⟨false, ?_⟩
    rw [Expression.visits]
    split
    · obtain ⟨a, ha⟩ := right.visits_marks ms
      obtain ⟨b, hb⟩ := left.visits_marks (a :: ms)
      exact visitsMarks_snoc (visitsMarks_append ha hb) (binary_marks op b a ms)
    · obtain ⟨a, ha⟩ := left.visits_marks ms
      obtain ⟨b, hb⟩ := right.visits_marks (a :: ms)
      exact visitsMarks_snoc (visitsMarks_append ha hb) (binary_marks op b a ms)
  | .unaryOp op expr, ms => by
    obtain ⟨a, ha⟩ := expr.visits_marks ms
    exact ⟨false, visitsMarks_snoc ha (unary_marks op a ms)⟩

theorem Arguments.visits_marks : (as : Arguments) → (ms : List Bool) →
    ∃ args, args.length = as.size ∧ visitsMarks as.visits ms = some (args ++ ms)
  | .nil, _ => ⟨[], rfl, rfl⟩
  | .cons head tail, ms => by
    obtain ⟨a, ha⟩ := head.visits_marks ms
    obtain ⟨args, hlen, hargs⟩ := tail.visits_marks (a :: ms)
    refine ⟨args ++ [a], ?_, ?_⟩
    · rw [List.length_append, hlen]
      rfl
    · rw [List.append_assoc]
      exact visitsMarks_append ha hargs

theorem Fields.visits_marks : (fs : Fields) → (ms : List Bool) →
    visitsMarks fs.visits (true :: ms) = some (true :: ms)
  | .nil, _ => rfl
  | .cons key value tail, ms => by
    obtain ⟨a, ha⟩ := value.visits_marks (true :: true :: ms)
    have hvalue : visitsMarks (.output .dup rfl :: value.visits) (true :: ms) =
        some (a :: true :: true :: ms) := visitsMarks_cons rfl ha
    exact visitsMarks_append (visitsMarks_snoc hvalue (v := .fieldStore key) rfl)
      (tail.visits_marks ms)
end

namespace RecordsLemmas

theorem storeVisits_marks (l : LHS) (m : Bool) (ms : List Bool) :
    visitsMarks l.storeVisits (m :: ms) = some ms := by
  cases l with
  | name x => rfl
  | index base idx =>
    have hswap : (Visit.output .swap rfl).marks (false :: m :: ms) = some (m :: false :: ms) := rfl
    have hbase := visitsMarks_snoc (base.visits_marks (m :: ms)) hswap
    obtain ⟨a, ha⟩ := idx.visits_marks (m :: false :: ms)
    exact visitsMarks_append (visitsMarks_append hbase ha) rfl
  | field base x =>
    have hfield : (Visit.field x).marks (m :: ms) = some (m :: ms) := rfl
    have hbase := visitsMarks_cons hfield (base.visits_marks (m :: ms))
    exact visitsMarks_append hbase rfl

theorem statement_marks {st : Statement} (h : st.isSimple = true) :
    visitsMarks st.visits [] = some [] := by
  cases st with
  | assignment lhs expr =>
    obtain ⟨a, ha⟩ := expr.visits_marks []
    have hstoring : visitsMarks lhs.storingVisits [] = some [] := by cases lhs <;> rfl
    exact visitsMarks_append (visitsMarks_append hstoring ha) (storeVisits_marks lhs a [])
  | callStatement target arguments =>
    obtain ⟨args, hlen, hargs⟩ := arguments.visits_marks []
    have hcall := taken_marks hlen false [] (i := .call _) fun _ => rfl
    exact visitsMarks_append (visitsMarks_append hargs (target.visits_marks _))
      (visitsMarks_cons hcall rfl)
  | global => rfl
  | ret expr =>
    obtain ⟨a, ha⟩ := expr.visits_marks []
    exact visitsMarks_snoc ha rfl
  | ifStatement | whileLoop => cases h

theorem marks_expression (e : Expression) (up : List Node) {s : State} {ms : List Bool}
    (h : s.marks = some ms) : ∃ m, (e.transpile up s).marks = some (m :: ms) := by
  obtain ⟨m, hm⟩ := e.visits_marks ms
  rw [e.transpile_visits up]
  exact ⟨m, marks_all h hm⟩

theorem marks_simple (st : Statement) (hst : st.isSimple = true) {up : List Node} {s : State}
    (h : s.marks = some []) : (st.transpile up s).marks = some [] := by
  rw [Statement.transpile_visits up hst]
  exact marks_all h (statement_marks hst)

end RecordsLemmas

mutual
theorem Statement.transpile_marks (up : List Node) :
    (st : Statement) → (s : State) → s.marks = some [] → (st.transpile up s).marks = some []
  | .ifStatement cond thenBlock elseBlock, s, h => by
    obtain ⟨m, hm⟩ := marks_expression cond up
      (s := { s with labelNum := s.labelNum + 3 }) (marks_congr h rfl)
    have h₁ := marks_output (marks_output hm (i := .ifTrue s.labelNum) rfl)
      (i := .goto (s.labelNum + 1)) rfl
    have h₂ := thenBlock.transpile_marks up _ (marks_outputLabel h₁ s.labelNum)
    have h₃ := marks_output h₂ (i := .goto (s.labelNum + 2)) rfl
    have h₄ := elseBlock.transpile_marks up _ (marks_outputLabel h₃ (s.labelNum + 1))
    exact marks_outputLabel h₄ (s.labelNum + 2)
  | .whileLoop cond body, s, h => by
    have h₀ : State.marks { s with labelNum := s.labelNum + 3 } = some [] := marks_congr h rfl
    have h₁ := marks_outputLabel h₀ s.labelNum
    obtain ⟨m, hm⟩ := marks_expression cond up
      (marks_output h₁ (i := .garbageCollect) rfl)
    have h₂ := marks_output (marks_output hm (i := .ifTrue (s.labelNum + 1)) rfl)
      (i := .goto (s.labelNum + 2)) rfl
    have h₃ := body.transpile_marks up _ (marks_outputLabel h₂ (s.labelNum + 1))
    have h₄ := marks_output h₃ (i := .goto s.labelNum) rfl
    exact marks_outputLabel h₄ (s.labelNum + 2)
  | .assignment lhs expr, _, h => marks_simple (.assignment lhs expr) rfl h
  | .callStatement target arguments, _, h =>
    marks_simple (.callStatement target arguments) rfl h
  | .global x, _, h => marks_simple (.global x) rfl h
  | .ret expr, _, h => marks_simple (.ret expr) rfl h

theorem Block.transpile_marks (up : List Node) :
    (b : Block) → (s : State) → s.marks = some [] → (b.transpile up s).marks = some []
  | .nil, _, h => h
  | .cons head tail, s, h => tail.transpile_marks up _ (head.transpile_marks up s h)
end

/-! ## The functions of a program -/

namespace RecordsLemmas

theorem marks_constReturn {s : State} (h : s.marks = some []) (c : Constant) :
    (s.loadConst c).outputReturn.marks = some [] := by
  have hconst : (s.loadConst c).marks = some [false] :=
    marks_output (i := .loadConst _) (marks_congr h rfl) rfl
  exact marks_congr (marks_output hconst (i := .ret) rfl) rfl

theorem marks_addNativeFunction {s : State} (h : s.marks = some []) (name : String) (n : Nat) :
    (addNativeFunction s name n).marks = some [] := by
  have hload := marks_output h (i := .loadFunc (-(n : Int))) rfl
  exact marks_output (i := .storeGlobal _) (marks_congr hload rfl) rfl

end RecordsLemmas

/-- In a function of a compiled program `Dup` duplicates records under construction
only, and no operand is left at its end. -/
theorem compile_marks (prog : Program) {f : Function} (h : SubFunction (compile prog) f) :
    marks [] f.instructions = some [] := by
  rcases subFunction_emitted h with rfl | ⟨up, l, -, parent, n, rfl⟩
  · have hstart : initialState.marks = some [] :=
      marks_addNativeFunction (marks_addNativeFunction (marks_addNativeFunction rfl _ _) _ _) _ _
    have hbody := prog.transpile_marks [] initialState hstart
    show (visitProgram prog).marks = some []
    unfold visitProgram
    dsimp only
    split
    · exact hbody
    · exact marks_constReturn hbody _
  · have hentered : State.marks ⟨enterFunction parent up l.arguments l.body, n⟩ = some [] := by
      unfold State.marks
      rw [(enterFunction_fresh parent up l.arguments l.body).instructions]
      rfl
    exact marks_constReturn (l.body.transpile_marks (parent :: up) _ hentered) .none

end Beaverc

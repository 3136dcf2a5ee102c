import Beaverc.BasicInterpreter

/-!
# Every operand once

What the AST interpreter evaluates for an expression: its operands from left to
right, each once (`Once`). The one exception is `+`: when neither operand was a
string, `visitIntOp` evaluates both again. `operands_once_iff` says so of every
evaluation of every run, from any state.
-/

namespace Beaverc.BasicInterpreter
open Evaluations Eval

def fieldCount : Fields → Nat
  | .nil => 0
  | .cons _ _ tail => fieldCount tail + 1

/-- The operands of an expression, from left to right. -/
def operands : Node → List Edge
  | .lhs (.index _ _) => [.base, .index]
  | .lhs (.field _ _) => [.base]
  | .expression (.lhs (.index _ _)) => [.base, .index]
  | .expression (.lhs (.field _ _)) => [.base]
  | .expression (.call _ arguments) => .target :: (List.range arguments.size).map .argument
  | .expression (.record fields) => (List.range (fieldCount fields)).map .field
  | .expression (.binaryOp _ _ _) => [.left, .right]
  | .expression (.unaryOp _ _) => [.operand]
  | _ => []

/-- Where an expression was evaluated. -/
def Event.operand? : Event → Option Position
  | .visit v => if v.node.isExpression then some v.position else none
  | _ => none

/-- The evaluations made for `v` are those of its operands, in order and each
once; all of them if `v` ends. -/
def Once (v : Visit) (children : List Event) : Prop :=
  children.filterMap Event.operand? <+: (operands v.node).map (· :: v.position) ∧
    ∀ p, v.outcome = .ok p →
      children.filterMap Event.operand? = (operands v.node).map (· :: v.position)

/-- `v` is an addition whose operands were no strings. -/
def AddsNonStrings (v : Visit) (children : List Event) : Prop :=
  (∃ left right, v.node = .expression (.binaryOp .plus left right)) ∧
    ∃ u u' rest p q, children = .visit u :: .visit u' :: rest ∧ u.outcome = .ok p ∧
      u'.outcome = .ok q ∧ isString p = false ∧ isString q = false

namespace OperandsOnceLemmas

/-! ### Operations that visit nothing -/

theorem silent_lift {α : Type} (x : Except Stop α) : Silent (lift x) := by
  cases x with
  | ok a => exact silent_pure a
  | error e => exact silent_stop e

theorem silent_toText (p : Pointer) : Silent (toText p) :=
  silent_bind silent_get fun _ => silent_lift _

theorem silent_interpCast {α : Type} (cast : Value → Option α) (p : Pointer) :
    Silent (interpCast cast p) := by
  unfold interpCast
  split
  · exact silent_pure _
  · exact silent_bind (silent_toText p) fun _ => silent_stop _

theorem silent_callNative (f : Native) (args : List Pointer) : Silent (callNative f args) := by
  unfold callNative
  split
  · exact silent_bind (silent_toText _) fun _ => silent_bind (silent_modify _) fun _ =>
      silent_pure _
  · exact silent_bind silent_get fun _ => silent_bind (silent_modify _) fun _ => silent_pure _
  · refine silent_bind (silent_interpCast _ _) fun t => ?_
    split
    · exact silent_bind (silent_lift _) fun _ => silent_pure _
    · exact silent_stop _
  · exact silent_stop _

theorem silent_visitName (x : String) (asval : Pointer) : Silent (visitName x asval) := by
  unfold visitName
  split
  · exact silent_bind (silent_modify _) fun _ => silent_pure _
  · exact silent_bind silent_get fun _ => silent_lift _

theorem silent_accessField (r : RecordId) (key : String) (asval : Pointer) :
    Silent (accessField r key asval) := by
  unfold accessField
  split
  · exact silent_bind (silent_modify _) fun _ => silent_pure _
  · exact silent_bind silent_get fun _ => silent_pure _

theorem silent_createChild (parent : FrameId) (body : Block) : Silent (createChild parent body) :=
  silent_bind silent_get fun _ => silent_bind (silent_modify _) fun _ => silent_pure _

/-! ### Where the evaluations come from -/

section Records

variable {G : CallTree Event → Prop} {exec : Exec}
    (he : ∀ node pos asval, Records G (exec node pos asval))

include he

theorem records_evalOperands {α : Type} (cast : Value → Option α) (left right : Expression)
    (pos : Position) : Records G (evalOperands exec cast left right pos) := by
  refine records_bind (he ..) fun _ => ?_
  refine records_bind (records_of_silent (silent_interpCast ..)) fun _ => ?_
  refine records_bind (he ..) fun _ => ?_
  exact records_bind (records_of_silent (silent_interpCast ..)) fun _ =>
    records_of_silent (silent_pure _)

theorem records_visitBinaryOp (op : BinOpSym) (left right : Expression) (pos : Position) :
    Records G (visitBinaryOp exec op left right pos) := by
  have hbool : ∀ func, Records G (visitBoolOp exec left right pos func) := fun func =>
    records_bind (records_evalOperands he ..) fun _ => records_of_silent (silent_pure _)
  have hcompare : ∀ func, Records G (visitComparison exec left right pos func) := fun func =>
    records_bind (records_evalOperands he ..) fun _ => records_of_silent (silent_pure _)
  have hint : ∀ func, Records G (visitIntOp exec left right pos func) := fun func =>
    records_bind (records_evalOperands he ..) fun _ =>
      records_of_silent (silent_bind (silent_lift _) fun _ => silent_pure _)
  unfold visitBinaryOp
  cases op with
  | or | and =>
    dsimp only
    exact hbool _
  | lt | lte | gt | gte =>
    dsimp only
    exact hcompare _
  | minus | mul | div =>
    dsimp only
    exact hint _
  | eq =>
    refine records_bind (he ..) fun l => records_bind (he ..) fun r => ?_
    cases l with
    | none => exact records_of_silent (silent_stop _)
    | some v => exact records_of_silent (silent_pure _)
  | plus =>
    refine records_bind (he ..) fun l => records_bind (he ..) fun r => ?_
    split
    · exact records_of_silent (silent_bind (silent_toText _) fun _ =>
        silent_bind (silent_toText _) fun _ => silent_pure _)
    · exact hint _

theorem records_visitUnaryOp (op : UnOpSym) (expr : Expression) (pos : Position) :
    Records G (visitUnaryOp exec op expr pos) := by
  refine records_bind (he ..) fun val => ?_
  cases op with
  | not => exact records_of_silent (silent_bind (silent_interpCast ..) fun _ => silent_pure _)
  | neg => exact records_of_silent (silent_bind (silent_interpCast ..) fun _ => silent_pure _)

theorem records_evalFields (record : RecordId) (pos : Position) (fields : Fields) (i : Nat) :
    Records G (evalFields exec record pos fields i) := by
  match fields with
  | .nil => exact records_of_silent (silent_pure _)
  | .cons key value tail =>
    refine records_bind (he ..) fun _ => records_bind (records_of_silent (silent_modify _)) fun _ =>
      ?_
    exact records_evalFields record pos tail (i + 1)

theorem records_evalArguments (pos : Position) (arguments : Arguments) (i : Nat) :
    Records G (evalArguments exec pos arguments i) := by
  match arguments with
  | .nil => exact records_of_silent (silent_pure _)
  | .cons head tail =>
    refine records_bind (he ..) fun _ => ?_
    exact records_bind (records_evalArguments pos tail (i + 1)) fun _ =>
      records_of_silent (silent_pure _)

theorem records_bindArguments (frame : FrameId) (pos : Position) (names : List String)
    (arguments : Arguments) (i : Nat) :
    Records G (bindArguments exec frame pos names arguments i) := by
  match names, arguments with
  | name :: names, .cons head tail =>
    refine records_bind (he ..) fun _ => records_bind (records_of_silent (silent_modify _)) fun _ =>
      ?_
    exact records_bindArguments frame pos names tail (i + 1)
  | [], _ => exact records_of_silent (silent_pure _)
  | _ :: _, .nil => exact records_of_silent (silent_pure _)

theorem records_visitLHS (l : LHS) (pos : Position) (asval : Pointer) :
    Records G (visitLHS exec l pos asval) := by
  cases l with
  | name x => exact records_of_silent (silent_visitName x asval)
  | field base field =>
    refine records_bind (he ..) fun _ => ?_
    exact records_of_silent (silent_bind (silent_interpCast ..) fun _ => silent_accessField ..)
  | index base index =>
    refine records_bind (he ..) fun _ => ?_
    refine records_bind (records_of_silent (silent_interpCast ..)) fun _ => ?_
    refine records_bind (he ..) fun _ => ?_
    exact records_of_silent (silent_bind (silent_toText _) fun _ => silent_accessField ..)

theorem records_loop (cond : Expression) (body : Block) (pos : Position) (rounds : Nat) (b : Bool) :
    Records G (loop exec cond body pos rounds b) := by
  induction rounds generalizing b with
  | zero => exact records_of_silent (silent_stop _)
  | succ rounds ih =>
    refine records_bind (records_of_silent silent_get) fun s => ?_
    split
    · refine records_bind (he ..) fun _ => records_bind ?_ fun b => ih b
      exact records_bind (he ..) fun _ => records_of_silent (silent_interpCast ..)
    · exact records_of_silent (silent_pure _)

theorem records_visitBlock (pos : Position) (b : Block) (i : Nat) :
    Records G (visitBlock exec pos b i) := by
  match b with
  | .nil => exact records_of_silent (silent_pure _)
  | .cons head tail =>
    refine records_bind (he ..) fun _ => records_bind (records_of_silent silent_get) fun s => ?_
    split
    · exact records_of_silent (silent_pure _)
    · exact records_visitBlock pos tail (i + 1)

variable (hreturned : ∀ frame position val, G (.node (.returned frame position val) []))
  (hleft : ∀ frame val, G (.node (.left frame val) []))

include hleft in
theorem records_visitCall (target : LHS) (arguments : Arguments) (pos : Position) :
    Records G (visitCall exec target arguments pos) := by
  refine records_bind (he ..) fun _ => ?_
  refine records_bind (records_of_silent (silent_interpCast ..)) fun func => ?_
  split
  · exact records_of_silent (silent_stop _)
  · split
    · exact records_bind (records_evalArguments he ..) fun _ =>
        records_of_silent (silent_callNative ..)
    · refine records_bind (records_of_silent (silent_createChild ..)) fun frame => ?_
      refine records_bind (records_bindArguments he ..) fun _ => ?_
      refine records_bind (records_of_silent (silent_modify _)) fun _ => ?_
      refine records_bind (he ..) fun _ => ?_
      refine records_bind (records_of_silent (silent_modify _)) fun _ => ?_
      refine records_bind (records_of_silent (silent_modify _)) fun _ => ?_
      refine records_bind (records_of_silent silent_get) fun s => ?_
      exact records_bind (records_mark (hleft _ _)) fun _ => records_of_silent (silent_pure _)

include hreturned hleft in
/-- A visit leaves its evaluations to `exec`. -/
theorem records_visit (rounds : Nat) (node : Node) (pos : Position) (asval : Pointer) :
    Records G (visit exec rounds node pos asval) := by
  cases node with
  | lhs l => exact records_visitLHS he l pos asval
  | block b => exact records_visitBlock he pos b 0
  | expression e =>
    cases e with
    | lhs l => exact records_visitLHS he l pos none
    | call target arguments => exact records_visitCall he hleft target arguments pos
    | function arguments body =>
      exact records_of_silent (silent_bind silent_get fun _ => silent_pure _)
    | record fields =>
      refine records_bind (records_of_silent silent_get) fun s => ?_
      refine records_bind (records_of_silent (silent_modify _)) fun _ => ?_
      exact records_bind (records_evalFields he ..) fun _ => records_of_silent (silent_pure _)
    | boolConst _ | strConst _ | intConst _ | nullConst => exact records_of_silent (silent_pure _)
    | binaryOp op left right => exact records_visitBinaryOp he op left right pos
    | unaryOp op expr => exact records_visitUnaryOp he op expr pos
  | statement s =>
    cases s with
    | assignment lhs expr => exact records_bind (he ..) fun _ => he ..
    | callStatement target arguments => exact he ..
    | global _ => exact records_of_silent (silent_pure _)
    | ifStatement cond thenBlock elseBlock =>
      refine records_bind (he ..) fun _ => ?_
      refine records_bind (records_of_silent (silent_interpCast ..)) fun b => ?_
      split
      · exact he ..
      · exact he ..
    | whileLoop cond body =>
      refine records_bind ?_ fun b => records_loop he cond body pos rounds b
      exact records_bind (he ..) fun _ => records_of_silent (silent_interpCast ..)
    | ret expr =>
      refine records_bind (he ..) fun ret => records_bind (records_of_silent silent_get) fun s => ?_
      refine records_bind (records_of_silent (silent_modify _)) fun _ => ?_
      exact records_bind (records_mark (hreturned _ _ _)) fun _ => records_of_silent (silent_pure _)

end Records

/-! ### What is evaluated for an expression -/

/-- What `exec` records of itself. -/
theorem visits_exec (fuel : Nat) {node : Node} (hn : node.isExpression = true) (pos : Position)
    (asval : Pointer) : Visits Event.operand? (exec fuel node pos asval) [pos] := by
  cases fuel with
  | zero => exact visits_stop _
  | succ fuel =>
    have htrees : ∀ s, ((exec (fuel + 1) node pos asval).trees s).filterMap
        (fun t => Event.operand? t.label) = [pos] := by
      intro s
      simp [exec, Eval.record, Eval.trees, CallTree.label, Event.operand?, hn]
    exact ⟨fun s => (htrees s).symm ▸ List.prefix_refl _, fun s _ _ => htrees s⟩

theorem visits_exec_block (fuel : Nat) (b : Block) (pos : Position) (asval : Pointer) :
    Visits Event.operand? (exec fuel (.block b) pos asval) [] := by
  cases fuel with
  | zero => exact visits_stop _
  | succ fuel =>
    have htrees : ∀ s, ((exec (fuel + 1) (.block b) pos asval).trees s).filterMap
        (fun t => Event.operand? t.label) = [] := by
      intro s
      simp [exec, Eval.record, Eval.trees, CallTree.label, Event.operand?, Node.isExpression]
    exact ⟨fun s => (htrees s).symm ▸ List.prefix_refl _, fun s _ _ => htrees s⟩

section Visits

variable (fuel : Nat) (pos : Position)

theorem visits_eval (e : Expression) (edge : Edge) :
    Visits Event.operand? (eval (exec fuel) e (edge :: pos)) [edge :: pos] :=
  visits_exec fuel (isExpression_nodeOf e) _ _

theorem visits_evalOperands {α : Type} (cast : Value → Option α) (left right : Expression) :
    Visits Event.operand? (evalOperands (exec fuel) cast left right pos)
      [.left :: pos, .right :: pos] := by
  refine visits_bind (visits_eval fuel pos left .left) fun _ => ?_
  refine visits_bind_silent (silent_interpCast ..) fun _ => ?_
  refine visits_then_silent (visits_eval fuel pos right .right) fun _ => ?_
  exact silent_bind (silent_interpCast ..) fun _ => silent_pure _

theorem visits_evalFields (record : RecordId) (fields : Fields) (i : Nat) :
    Visits Event.operand? (evalFields (exec fuel) record pos fields i)
      ((List.range' i (fieldCount fields)).map fun i => .field i :: pos) := by
  match fields with
  | .nil => exact visits_of_silent (silent_pure _)
  | .cons key value tail =>
    rw [fieldCount, List.range'_succ, List.map_cons]
    refine visits_bind (visits_eval fuel pos value (.field i)) fun _ => ?_
    exact visits_bind_silent (silent_modify _) fun _ => visits_evalFields record tail (i + 1)

theorem visits_evalArguments (arguments : Arguments) (i : Nat) :
    Visits Event.operand? (evalArguments (exec fuel) pos arguments i)
      ((List.range' i arguments.size).map fun i => .argument i :: pos) := by
  match arguments with
  | .nil => exact visits_of_silent (silent_pure _)
  | .cons head tail =>
    rw [Arguments.size, List.range'_succ, List.map_cons]
    refine visits_bind (visits_eval fuel pos head (.argument i)) fun _ => ?_
    exact visits_then_silent (visits_evalArguments tail (i + 1)) fun _ => silent_pure _

theorem visits_bindArguments (frame : FrameId) (names : List String) (arguments : Arguments)
    (i : Nat) (hsize : arguments.size = names.length) :
    Visits Event.operand? (bindArguments (exec fuel) frame pos names arguments i)
      ((List.range' i arguments.size).map fun i => .argument i :: pos) := by
  match names, arguments with
  | [], .nil => exact visits_of_silent (silent_pure _)
  | name :: names, .cons head tail =>
    rw [Arguments.size, List.range'_succ, List.map_cons]
    refine visits_bind (visits_eval fuel pos head (.argument i)) fun _ => ?_
    refine visits_bind_silent (silent_modify _) fun _ => ?_
    exact visits_bindArguments frame names tail (i + 1) (Nat.succ_inj.mp hsize)
  | [], .cons _ _ => cases hsize
  | _ :: _, .nil => cases hsize

theorem visits_visitCall (target : LHS) (arguments : Arguments) :
    Visits Event.operand? (visitCall (exec fuel) target arguments pos)
      ((operands (.expression (.call target arguments))).map (· :: pos)) := by
  rw [operands, List.map_cons, List.map_map, List.range_eq_range']
  refine visits_bind (visits_exec fuel rfl _ _) fun _ => ?_
  refine visits_bind_silent (silent_interpCast ..) fun func => ?_
  split
  · exact visits_stop _
  · next hsize =>
    cases func with
    | native f =>
      exact visits_then_silent (visits_evalArguments fuel pos arguments 0) fun _ =>
        silent_callNative ..
    | closure parent code body names =>
      refine visits_bind_silent (silent_createChild ..) fun frame => ?_
      have hbody : Visits Event.operand? (enter (exec fuel) frame code body) [] := by
        refine visits_bind_silent (silent_modify _) fun _ => ?_
        refine visits_bind (visits_exec_block fuel body code none) fun _ => ?_
        refine visits_bind_silent (silent_modify _) fun _ => ?_
        refine visits_bind_silent (silent_modify _) fun _ => ?_
        refine visits_bind_silent silent_get fun s => ?_
        exact visits_then_silent (visits_mark rfl) fun _ => silent_pure _
      have hargs := visits_bindArguments fuel pos frame names arguments 0 (not_not.mp hsize)
      have hcall := visits_bind hargs fun _ => hbody
      rw [List.append_nil] at hcall
      exact hcall

theorem visits_visitLHS (l : LHS) (asval : Pointer) :
    Visits Event.operand? (visitLHS (exec fuel) l pos asval)
      ((operands (.lhs l)).map (· :: pos)) := by
  cases l with
  | name x => exact visits_of_silent (silent_visitName x asval)
  | field base field =>
    refine visits_then_silent (visits_exec fuel rfl _ _) fun _ => ?_
    exact silent_bind (silent_interpCast ..) fun _ => silent_accessField ..
  | index base index =>
    refine visits_bind (visits_exec fuel rfl _ _) fun _ => ?_
    refine visits_bind_silent (silent_interpCast ..) fun _ => ?_
    refine visits_then_silent (visits_eval fuel pos index .index) fun _ => ?_
    exact silent_bind (silent_toText _) fun _ => silent_accessField ..

/-- Every operator but `+`. -/
theorem visits_visitBinaryOp {op : BinOpSym} (hop : op ≠ .plus) (left right : Expression) :
    Visits Event.operand? (visitBinaryOp (exec fuel) op left right pos)
      [.left :: pos, .right :: pos] := by
  have hops {α β : Type} (cast : Value → Option α) (f : α × α → M β) (hf : ∀ p, Silent (f p)) :
      Visits Event.operand? (evalOperands (exec fuel) cast left right pos >>= f)
        [.left :: pos, .right :: pos] :=
    visits_then_silent (visits_evalOperands fuel pos cast left right) hf
  unfold visitBinaryOp
  cases op with
  | or | and | lt | lte | gt | gte =>
    dsimp only
    exact hops _ _ fun _ => silent_pure _
  | minus | mul | div =>
    dsimp only
    exact hops _ _ fun _ => silent_bind (silent_lift _) fun _ => silent_pure _
  | eq =>
    refine visits_bind (visits_eval fuel pos left .left) fun l => ?_
    refine visits_then_silent (visits_eval fuel pos right .right) fun r => ?_
    cases l with
    | none => exact silent_stop _
    | some v => exact silent_pure _
  | plus => exact absurd rfl hop

/-- Every expression but `+`. -/
theorem visits_visit (rounds : Nat) {node : Node} (asval : Pointer) (hn : node.isExpression = true)
    (hplus : ∀ left right, node ≠ .expression (.binaryOp .plus left right)) :
    Visits Event.operand? (visit (exec fuel) rounds node pos asval)
      ((operands node).map (· :: pos)) := by
  cases node with
  | statement _ | block _ => cases hn
  | lhs l => exact visits_visitLHS fuel pos l asval
  | expression e =>
    cases e with
    | lhs l =>
      have hl := visits_visitLHS fuel pos l none
      cases l with
      | name x => exact hl
      | index _ _ => exact hl
      | field _ _ => exact hl
    | call target arguments => exact visits_visitCall fuel pos target arguments
    | function arguments body =>
        exact visits_of_silent (silent_bind silent_get fun _ => silent_pure _)
    | record fields =>
      rw [operands, List.map_map, List.range_eq_range']
      refine visits_bind_silent silent_get fun s => ?_
      refine visits_bind_silent (silent_modify _) fun _ => ?_
      exact visits_then_silent (visits_evalFields fuel pos _ fields 0) fun _ => silent_pure _
    | boolConst _ | strConst _ | intConst _ | nullConst => exact visits_of_silent (silent_pure _)
    | binaryOp op left right =>
      exact visits_visitBinaryOp fuel pos (fun he => hplus left right (by rw [he])) left right
    | unaryOp op expr =>
      refine visits_then_silent (visits_eval fuel pos expr .operand) fun val => ?_
      cases op with
      | not => exact silent_bind (silent_interpCast ..) fun _ => silent_pure _
      | neg => exact silent_bind (silent_interpCast ..) fun _ => silent_pure _

end Visits

/-! ### Addition -/

/-- With room for one more visit, an operand is recorded with its outcome. -/
theorem trees_eval (fuel : Nat) (e : Expression) (pos : Position) (s : State) :
    ∃ u ts, (eval (exec (fuel + 1)) e pos).trees s = [.node (.visit u) ts] ∧
      u.outcome = (eval (exec (fuel + 1)) e pos).outcome s ∧
      Event.operand? (.visit u) = some pos := by
  refine ⟨_, _, rfl, rfl, ?_⟩
  rw [Event.operand?, if_pos (isExpression_nodeOf e)]

theorem plus_once_iff (fuel : Nat) (left right : Expression) (pos : Position) (s : State)
    {v : Visit}
    (hnode : v.node = .expression (.binaryOp .plus left right)) (hpos : v.position = pos)
    (hout : v.outcome = (visitPlus (exec fuel) left right pos).outcome s) :
    Once v (((visitPlus (exec fuel) left right pos).trees s).map CallTree.label) ↔
      ¬ AddsNonStrings v (((visitPlus (exec fuel) left right pos).trees s).map CallTree.label) := by
  have hops : (operands v.node).map (· :: v.position) = [.left :: pos, .right :: pos] := by
    rw [hnode, hpos]
    rfl
  unfold Once
  rw [hops]
  cases fuel with
  | zero =>
    have ho : (visitPlus (exec 0) left right pos).outcome s = .error .endless := rfl
    have ht : (visitPlus (exec 0) left right pos).trees s = [] := rfl
    rw [ht]
    refine iff_of_true ⟨List.nil_prefix, fun p hp => ?_⟩ ?_
    · rw [hout, ho] at hp
      cases hp
    · rintro ⟨-, u, u', rest, p, q, he, -⟩
      cases he
  | succ fuel =>
    obtain ⟨u, ts, htl, hul, hpl⟩ := trees_eval fuel left (.left :: pos) s
    unfold visitPlus at hout ⊢
    cases hl : (eval (exec (fuel + 1)) left (.left :: pos)).outcome s with
    | error e =>
      -- the left operand stops
      rw [(bind_error _ hl).1] at hout
      rw [(bind_error _ hl).2.2, htl]
      refine iff_of_true ⟨?_, fun p hp => ?_⟩ ?_
      · simp [CallTree.label, hpl]
      · rw [hout] at hp
        cases hp
      · rintro ⟨-, u, u', rest, p, q, he, -⟩
        cases he
    | ok l =>
      rw [(bind_ok _ hl).1] at hout
      rw [(bind_ok _ hl).2.2, htl]
      generalize (eval (exec (fuel + 1)) left (.left :: pos)).after s = s₁ at hout ⊢
      obtain ⟨u', ts', htr, hur, hpr⟩ := trees_eval fuel right (.right :: pos) s₁
      rw [hl] at hul
      cases hr : (eval (exec (fuel + 1)) right (.right :: pos)).outcome s₁ with
      | error e =>
        rw [(bind_error _ hr).1] at hout
        rw [(bind_error _ hr).2.2, htr]
        rw [hr] at hur
        refine iff_of_true ⟨?_, fun p hp => ?_⟩ ?_
        · simp [CallTree.label, hpl, hpr]
        · rw [hout] at hp
          cases hp
        · rintro ⟨-, _, _, rest, p, q, he, -, hq, -⟩
          cases he
          rw [hur] at hq
          cases hq
      | ok r =>
        rw [(bind_ok _ hr).1] at hout
        rw [(bind_ok _ hr).2.2, htr]
        rw [hr] at hur
        generalize (eval (exec (fuel + 1)) right (.right :: pos)).after s₁ = s₂ at hout ⊢
        by_cases hstring : (isString l || isString r) = true
        · -- a string among the operands: nothing more is evaluated
          rw [if_pos hstring]
          have hsilent : Silent (do
              let l ← toText l
              let r ← toText r
              pure (some (Value.string (l ++ r))) : M Pointer) :=
            silent_bind (silent_toText _) fun _ => silent_bind (silent_toText _) fun _ =>
              silent_pure _
          rw [hsilent.nothing]
          refine iff_of_true ⟨?_, fun p _ => ?_⟩ ?_
          · simp [CallTree.label, hpl, hpr]
          · simp [CallTree.label, hpl, hpr]
          · rintro ⟨-, _, _, rest, p, q, he, hp, hq, hsp, hsq⟩
            cases he
            rw [hul] at hp
            rw [hur] at hq
            cases hp
            cases hq
            rw [hsp, hsq] at hstring
            cases hstring
        · -- `visitIntOp` begins with the left operand
          rw [if_neg hstring]
          obtain ⟨w, ws, htw, -, hpw⟩ := trees_eval fuel left (.left :: pos) s₂
          have hmore : ∃ rest, (visitIntOp (exec (fuel + 1)) left right pos
              fun a b => .ok (wrap (a + b))).trees s₂ = .node (.visit w) ws :: rest := by
            have hprefix : (eval (exec (fuel + 1)) left (.left :: pos)).trees s₂ <+:
                (visitIntOp (exec (fuel + 1)) left right pos fun a b => .ok (wrap (a + b))).trees
                  s₂ :=
              (trees_bind_extends (eval (exec (fuel + 1)) left (.left :: pos)) _ s₂).trans
                (trees_bind_extends (evalOperands (exec (fuel + 1)) Value.integer? left right pos) _
                  s₂)
            rw [htw] at hprefix
            obtain ⟨rest, hrest⟩ := hprefix
            exact ⟨rest, hrest.symm⟩
          obtain ⟨rest, hrest⟩ := hmore
          rw [hrest]
          refine iff_of_false (fun h => ?_) (fun h => h ?_)
          · have hlen := h.1.length_le
            simp [CallTree.label, hpl, hpr, hpw] at hlen
          · rw [Bool.or_eq_true, not_or, Bool.not_eq_true, Bool.not_eq_true] at hstring
            exact ⟨⟨left, right, hnode⟩, u, u', _, l, r, rfl, hul, hur, hstring⟩

end OperandsOnceLemmas

open OperandsOnceLemmas

/-- Every evaluation of every run evaluates its operands once, from left to right,
if and only if it is not an addition of two values that are no strings. -/
theorem operands_once_iff (fuel : Nat) (node : Node) (pos : Position) (asval : Pointer)
    (s : State) :
    ∀ t ∈ (exec fuel node pos asval).trees s, t.All fun e children =>
      ∀ v, e = .visit v → v.node.isExpression = true →
        (Once v children ↔ ¬ AddsNonStrings v children) := by
  suffices h : ∀ node pos asval, Records (CallTree.All fun e children =>
      ∀ v, e = .visit v → v.node.isExpression = true →
        (Once v children ↔ ¬ AddsNonStrings v children)) (exec fuel node pos asval) from
    (h node pos asval).of_mem s
  induction fuel with
  | zero => exact fun _ _ _ => records_of_silent (silent_stop _)
  | succ fuel ih =>
    intro node pos asval
    constructor
    intro s t ht
    rw [exec, trees_record, List.mem_singleton] at ht
    rw [ht]
    have hchildren := records_visit ih (fun _ _ _ => .leaf fun _ he => by cases he)
      (fun _ _ => .leaf fun _ he => by cases he)
      fuel node pos asval
    refine .node ?_ (hchildren.of_mem s)
    rintro v ⟨⟩ hn
    by_cases hplus : ∃ left right, node = .expression (.binaryOp .plus left right)
    · obtain ⟨left, right, rfl⟩ := hplus
      exact plus_once_iff fuel left right pos s rfl rfl rfl
    · have hvisits := visits_visit fuel pos fuel asval hn fun left right he =>
        hplus ⟨left, right, he⟩
      refine iff_of_true ?_ fun h => hplus h.1
      refine ⟨?_, fun p hp => ?_⟩
      · rw [List.filterMap_map]
        exact hvisits.upTo s
      · rw [List.filterMap_map]
        exact hvisits.all s p hp

/-- `intcast(input()) - intcast(input())`. -/
def readsDifference : Expression :=
  let read := .call (.name "intcast") (.cons (.call (.name "input") .nil) .nil)
  .binaryOp .minus read read

theorem operands_once_readsDifference :
    (exec 6 (.expression readsDifference) [] none).outcome (start ["5", "3"]) =
        .ok (some (.integer 2)) ∧
      ∃ t ∈ (exec 6 (.expression readsDifference) [] none).trees (start ["5", "3"]),
        t.All fun e children => ∀ v, e = .visit v → v.node.isExpression = true →
          (Once v children ↔ ¬ AddsNonStrings v children) :=
  ⟨rfl, _, List.mem_singleton_self _,
    operands_once_iff 6 _ [] none (start ["5", "3"]) _ (List.mem_singleton_self _)⟩

/-- `1 + 1` evaluates both operands twice. -/
theorem operands_not_once : ¬ ∀ (fuel : Nat) (node : Node) (pos : Position) (asval : Pointer)
    (s : State), ∀ t ∈ (exec fuel node pos asval).trees s, t.All fun e children =>
      ∀ v, e = .visit v → v.node.isExpression = true → Once v children := by
  intro h
  have hall := h 2 (.expression (.binaryOp .plus (.intConst 1) (.intConst 1))) [] none (start []) _
    (List.mem_singleton_self _)
  cases hall with
  | node htop _ =>
    have hlen := (htop _ rfl rfl).1.length_le
    exact absurd hlen (by decide)

end Beaverc.BasicInterpreter

import Beaverc.OperandsOnce

/-!
# Returns

`Return` sets the return value of its frame; `Block` looks at it after every
statement and `WhileLoop` before every round, after its condition. So a `Return`
ends the body at once unless it is inside a loop, whose condition is then
evaluated once more, or returns the null pointer (`BasicInterpreter::ReadVar` can
give one), which does not count as a return. `returns_end` says that in a run
without such returns nothing happens between a `Return` and the end of its call,
and that the call gives its value.
-/

namespace Beaverc.BasicInterpreter
open Evaluations Eval

/-- Inside a loop of the function the position is in. -/
def inLoop : Position → Bool
  | [] => false
  | .code :: _ => false
  | .loopBody :: _ => true
  | _ :: rest => inLoop rest

/-- What happens in a run, in order. -/
def events (fuel : Nat) (prog : Program) (input : List String) : List Event :=
  CallTree.eventsAll (trees fuel prog input)

/-- The next thing after a `Return` is the end of its call, with its value; a
`Return` outside of all functions is the last thing. -/
def ReturnsEnd (es : List Event) : Prop :=
  ∀ before frame pos val rest, es = before ++ .returned frame pos val :: rest →
    if frame = 0 then rest = [] else rest.head? = some (.left frame val)

/-- The `Return`s are outside of loops and return values. -/
def Straight (es : List Event) : Prop :=
  ∀ frame pos val, .returned frame pos val ∈ es → inLoop pos = false ∧ val.isSome = true

namespace ReturnLemmas

/-- Every `Return` is followed by the end of its call. -/
inductive Closed : List Event → Prop
  | nil : Closed []
  | visit {v : Visit} {es : List Event} : Closed es → Closed (.visit v :: es)
  | left {f : FrameId} {val : Pointer} {es : List Event} : Closed es → Closed (.left f val :: es)
  | returned {f : FrameId} {pos : Position} {val : Pointer} {es : List Event} :
      f ≠ 0 → Closed es → Closed (.returned f pos val :: .left f val :: es)

theorem closed_append {es fs : List Event} (he : Closed es) (hf : Closed fs) :
    Closed (es ++ fs) := by
  induction he with
  | nil => exact hf
  | visit _ ih => exact .visit ih
  | left _ ih => exact .left ih
  | returned hf' _ ih => exact .returned hf' ih

theorem closed_returned {es : List Event} {f : FrameId} {pos : Position} {val : Pointer}
    (he : Closed es) (hf : f ≠ 0) : Closed (es ++ [.returned f pos val] ++ [.left f val]) := by
  rw [List.append_assoc]
  exact closed_append he (.returned hf .nil)

/-- In a closed list, a `Return` is followed by the end of its call. -/
theorem closed_split {es : List Event} (hc : Closed es) : ∀ {before rest : List Event} {f : FrameId}
    {pos : Position} {val : Pointer}, es = before ++ .returned f pos val :: rest →
      f ≠ 0 ∧ rest.head? = some (.left f val) := by
  induction hc with
  | nil =>
    intro before rest f pos val h
    cases before <;> cases h
  | visit _ ih | left _ ih =>
    intro before rest f pos val h
    cases before with
    | nil => cases h
    | cons e before => exact ih (List.cons.inj h).2
  | returned hf' _ ih =>
    intro before rest f pos val h
    match before with
    | [] =>
      cases h
      exact ⟨hf', rfl⟩
    | [e] => cases (List.cons.inj h).2
    | e :: e' :: before => exact ih (List.cons.inj (List.cons.inj h).2).2

theorem straight_append {es fs : List Event} :
    Straight (es ++ fs) ↔ Straight es ∧ Straight fs := by
  constructor
  · intro h
    exact ⟨fun f p v hm => h f p v (List.mem_append_left _ hm),
      fun f p v hm => h f p v (List.mem_append_right _ hm)⟩
  · rintro ⟨he, hf⟩ f p v hm
    rcases List.mem_append.mp hm with hm | hm
    · exact he f p v hm
    · exact hf f p v hm

/-! ### States -/

/-- The current frame has not returned. -/
structure Open (s : State) : Prop where
  current : s.current < s.nextFrame
  ret : (s.frames s.current).ret = none

/-- Frames but for `g` have returned in `s'` if they had in `s`. -/
structure SameBut (g : Option FrameId) (s s' : State) : Prop where
  nextFrame : s.nextFrame ≤ s'.nextFrame
  ret : ∀ f, f < s.nextFrame → some f ≠ g → (s'.frames f).ret = (s.frames f).ret

abbrev Same (s s' : State) : Prop :=
  SameBut none s s'

theorem same_refl (s : State) : Same s s :=
  ⟨Nat.le_refl _, fun _ _ _ => rfl⟩

theorem sameBut_trans {g : Option FrameId} {s s' s'' : State} (h : SameBut g s s')
    (h' : SameBut g s' s'') : SameBut g s s'' :=
  ⟨Nat.le_trans h.nextFrame h'.nextFrame, fun f hf hg =>
    (h'.ret f (Nat.lt_of_lt_of_le hf h.nextFrame) hg).trans (h.ret f hf hg)⟩

theorem sameBut_of_same {g : Option FrameId} {s s' : State} (h : Same s s') : SameBut g s s' :=
  ⟨h.nextFrame, fun f hf _ => h.ret f hf nofun⟩

theorem open_of_same {s s' : State} (ho : Open s) (h : Same s s') (hstack : s'.stack = s.stack) :
    Open s' := by
  have hcurrent : s'.current = s.current := by rw [State.current, hstack, State.current]
  refine ⟨?_, ?_⟩
  · rw [hcurrent]
    exact Nat.lt_of_lt_of_le ho.current h.nextFrame
  · rw [hcurrent, h.ret _ ho.current nofun, ho.ret]

/-! ### Judgments -/

variable {α β : Type}

/-- `m` ends or stops without a `Return` of the current frame. -/
structure EndsPlain (m : M α) (s : State) : Prop where
  closed : Closed (CallTree.eventsAll (m.trees s))
  same : Same s (m.after s)
  stack : ∀ a, m.outcome s = .ok a → (m.after s).stack = s.stack

/-- The last thing in `m` is a `Return` of the current frame. -/
structure EndsReturned (m : M α) (s : State) : Prop where
  outcome : ∃ a, m.outcome s = .ok a
  events : ∃ es pos val, CallTree.eventsAll (m.trees s) = es ++ [.returned s.current pos val] ∧
    Closed es ∧ ((m.after s).frames s.current).ret = val
  same : SameBut (some s.current) s (m.after s)
  stack : (m.after s).stack = s.stack

/-- Never a `Return` of the current frame. -/
structure Plain (m : M α) : Prop where
  ends : ∀ s, Open s → Straight (CallTree.eventsAll (m.trees s)) → EndsPlain m s

/-- A `Return` of the current frame at most as the last thing, and none inside a loop. -/
structure MayReturn (loop : Bool) (m : M α) : Prop where
  ends : ∀ s, Open s → Straight (CallTree.eventsAll (m.trees s)) →
    EndsPlain m s ∨ EndsReturned m s ∧ loop = false

theorem mayReturn_of_plain {m : M α} {loop : Bool} (h : Plain m) : MayReturn loop m :=
  ⟨fun s ho hs => .inl (h.ends s ho hs)⟩

theorem plain_of_mayReturn {m : M α} (h : MayReturn true m) : Plain m := by
  constructor
  intro s ho hs
  rcases h.ends s ho hs with h | ⟨-, h⟩
  · exact h
  · cases h

theorem plain_pure (a : α) : Plain (pure a : M α) :=
  ⟨fun s _ _ => ⟨.nil, same_refl s, fun _ _ => rfl⟩⟩

theorem plain_get : Plain (Eval.get : M State) :=
  ⟨fun s _ _ => ⟨.nil, same_refl s, fun _ _ => rfl⟩⟩

theorem plain_stop (e : Stop) : Plain (Eval.stop e : M α) :=
  ⟨fun s _ _ => ⟨.nil, same_refl s, fun _ _ => rfl⟩⟩

theorem plain_modify {g : State → State} (h : ∀ s, Same s (g s))
    (hstack : ∀ s, (g s).stack = s.stack) :
    Plain (Eval.modify g : M Unit) :=
  ⟨fun s _ _ => ⟨.nil, h s, fun _ _ => hstack s⟩⟩

/-- After a plain part the rest goes on as before. -/
theorem ends_after {m : M α} {f : α → M β} {s : State} {a : α} (hm : EndsPlain m s)
    (ha : m.outcome s = .ok a) (ho : Open s) : Open (m.after s) ∧
      (EndsPlain (f a) (m.after s) → EndsPlain (m >>= f) s) ∧
        (EndsReturned (f a) (m.after s) → EndsReturned (m >>= f) s) := by
  obtain ⟨hout, hafter, htrees⟩ := bind_ok f ha
  have hstack := hm.stack a ha
  have hcurrent : (m.after s).current = s.current := by rw [State.current, hstack, State.current]
  refine ⟨open_of_same ho hm.same hstack, fun h => ⟨?_, ?_, fun b hb => ?_⟩,
    fun h => ⟨?_, ?_, ?_, ?_⟩⟩
  · rw [htrees, CallTree.eventsAll_append]
    exact closed_append hm.closed h.closed
  · rw [hafter]
    exact sameBut_trans hm.same h.same
  · rw [hout] at hb
    rw [hafter, h.stack b hb, hstack]
  · rw [hout]
    exact h.outcome
  · obtain ⟨es, pos, val, hes, hclosed, hval⟩ := h.events
    rw [htrees, CallTree.eventsAll_append, hes, hafter]
    rw [hcurrent] at hval ⊢
    exact ⟨_, pos, val, (List.append_assoc ..).symm, closed_append hm.closed hclosed, hval⟩
  · rw [hafter]
    exact sameBut_trans (sameBut_of_same hm.same) (hcurrent ▸ h.same)
  · rw [hafter, h.stack, hstack]

theorem ends_error {m : M α} {f : α → M β} {s : State} {e : Stop} (hm : EndsPlain m s)
    (he : m.outcome s = .error e) : EndsPlain (m >>= f) s := by
  obtain ⟨hout, hafter, htrees⟩ := bind_error f he
  refine ⟨htrees ▸ hm.closed, hafter ▸ hm.same, fun b hb => ?_⟩
  rw [hout] at hb
  cases hb

theorem endsPlain_congr {m m' : M α} {s : State} (h : m s = m' s) (he : EndsPlain m' s) :
    EndsPlain m s := by
  have hout : m.outcome s = m'.outcome s := congrArg Prod.fst h
  have hafter : m.after s = m'.after s := congrArg (fun r => r.2.1) h
  have htrees : m.trees s = m'.trees s := congrArg (fun r => r.2.2) h
  exact ⟨htrees ▸ he.closed, hafter ▸ he.same, hout ▸ hafter ▸ he.stack⟩

theorem endsReturned_congr {m m' : M α} {s : State} (h : m s = m' s) (he : EndsReturned m' s) :
    EndsReturned m s := by
  have hout : m.outcome s = m'.outcome s := congrArg Prod.fst h
  have hafter : m.after s = m'.after s := congrArg (fun r => r.2.1) h
  have htrees : m.trees s = m'.trees s := congrArg (fun r => r.2.2) h
  exact ⟨hout ▸ he.outcome, htrees ▸ hafter ▸ he.events, hafter ▸ he.same, hafter ▸ he.stack⟩

/-- After a `Return` nothing more is done. -/
theorem ends_returned {m : M α} {f : α → M β} {s : State} {a : α} {b : β} (hm : EndsReturned m s)
    (ha : m.outcome s = .ok a) (hf : f a (m.after s) = (pure b : M β) (m.after s)) :
    EndsReturned (m >>= f) s := by
  obtain ⟨hout, hafter, htrees⟩ := bind_ok f ha
  have hout' : (f a).outcome (m.after s) = .ok b := congrArg Prod.fst hf
  have hafter' : (f a).after (m.after s) = m.after s := congrArg (fun r => r.2.1) hf
  have htrees' : (f a).trees (m.after s) = [] := congrArg (fun r => r.2.2) hf
  refine ⟨⟨b, hout.trans hout'⟩, ?_, ?_, ?_⟩
  · rw [htrees, hafter, htrees', hafter', List.append_nil]
    exact hm.events
  · rw [hafter, hafter']
    exact hm.same
  · rw [hafter, hafter', hm.stack]

theorem returned_of_ends {m : M α} {s : State} (hm : EndsReturned m s)
    (hs : Straight (CallTree.eventsAll (m.trees s))) : (m.after s).returned = true := by
  obtain ⟨es, pos, val, hes, -, hval⟩ := hm.events
  have hcurrent : (m.after s).current = s.current := by rw [State.current, hm.stack, State.current]
  rw [State.returned, hcurrent, StackFrame.returned, hval]
  refine (hs s.current pos val ?_).2
  rw [hes]
  exact List.mem_append_right _ (List.mem_singleton_self _)

theorem straight_parts {m : M α} {f : α → M β} {s : State}
    (hs : Straight (CallTree.eventsAll ((m >>= f).trees s))) :
      Straight (CallTree.eventsAll (m.trees s)) ∧
      ∀ a, m.outcome s = .ok a → Straight (CallTree.eventsAll ((f a).trees (m.after s))) := by
  cases ho : m.outcome s with
  | error e =>
    rw [(bind_error f ho).2.2] at hs
    exact ⟨hs, nofun⟩
  | ok a =>
    rw [(bind_ok f ho).2.2, CallTree.eventsAll_append, straight_append] at hs
    exact ⟨hs.1, fun b hb => by cases hb; exact hs.2⟩

theorem mayReturn_bind {loop : Bool} {m : M α} {f : α → M β} (hm : Plain m)
    (hf : ∀ a, MayReturn loop (f a)) : MayReturn loop (m >>= f) := by
  constructor
  intro s ho hs
  obtain ⟨hs₁, hs₂⟩ := straight_parts hs
  have hplain := hm.ends s ho hs₁
  cases ha : m.outcome s with
  | error e => exact .inl (ends_error hplain ha)
  | ok a =>
    obtain ⟨hopen, hend, hreturn⟩ := ends_after (f := f) hplain ha ho
    rcases (hf a).ends _ hopen (hs₂ a ha) with h | ⟨h, hloop⟩
    · exact .inl (hend h)
    · exact .inr ⟨hreturn h, hloop⟩

theorem plain_bind {m : M α} {f : α → M β} (hm : Plain m) (hf : ∀ a, Plain (f a)) :
    Plain (m >>= f) :=
  plain_of_mayReturn (mayReturn_bind hm fun a => mayReturn_of_plain (hf a))

/-! ### Visitors that evaluate nothing -/

theorem same_onFrame (s : State) (f : FrameId) {g : StackFrame → StackFrame}
    (hg : ∀ frame, (g frame).ret = frame.ret) : Same s (s.onFrame f g) := by
  refine ⟨Nat.le_refl _, fun f' _ _ => ?_⟩
  rw [State.frames_onFrame]
  split
  · next h => rw [hg, h]
  · rfl

theorem same_updateVar (s : State) (x : String) (p : Pointer) :
    Same s (s.updateVar x p) ∧ (s.updateVar x p).stack = s.stack := by
  unfold State.updateVar
  split
  · exact ⟨same_onFrame s _ fun _ => rfl, rfl⟩
  · exact ⟨same_onFrame s _ fun _ => rfl, rfl⟩

/-- An update of the records and the streams. -/
theorem plain_modify_rest {g : State → State} (hframes : ∀ s, (g s).frames = s.frames)
    (hnext : ∀ s, (g s).nextFrame = s.nextFrame) (hstack : ∀ s, (g s).stack = s.stack) :
    Plain (Eval.modify g : M Unit) := by
  refine plain_modify (fun s => ⟨?_, fun f _ _ => ?_⟩) hstack
  · exact Nat.le_of_eq (hnext s).symm
  · rw [hframes]

theorem plain_lift (x : Except Stop α) : Plain (lift x) := by
  cases x with
  | ok a => exact plain_pure a
  | error e => exact plain_stop e

theorem plain_toText (p : Pointer) : Plain (toText p) :=
  plain_bind plain_get fun _ => plain_lift _

theorem plain_interpCast (cast : Value → Option α) (p : Pointer) : Plain (interpCast cast p) := by
  unfold interpCast
  split
  · exact plain_pure _
  · exact plain_bind (plain_toText p) fun _ => plain_stop _

theorem plain_callNative (f : Native) (args : List Pointer) : Plain (callNative f args) := by
  unfold callNative
  split
  · refine plain_bind (plain_toText _) fun _ => ?_
    refine plain_bind (plain_modify_rest ?_ ?_ ?_) fun _ => plain_pure _ <;> exact fun _ => rfl
  · refine plain_bind plain_get fun _ => ?_
    refine plain_bind (plain_modify_rest ?_ ?_ ?_) fun _ => plain_pure _ <;> exact fun _ => rfl
  · refine plain_bind (plain_interpCast _ _) fun t => ?_
    split
    · exact plain_bind (plain_lift _) fun _ => plain_pure _
    · exact plain_stop _
  · exact plain_stop _

theorem plain_visitName (x : String) (asval : Pointer) : Plain (visitName x asval) := by
  unfold visitName
  split
  · exact plain_bind (plain_modify (fun s => (same_updateVar s _ _).1)
      fun s => (same_updateVar s _ _).2) fun _ => plain_pure _
  · exact plain_bind plain_get fun _ => plain_lift _

theorem plain_updateField (r : RecordId) (key : String) (p : Pointer) :
    Plain (Eval.modify (State.updateField r key p) : M Unit) :=
  plain_modify_rest (fun _ => rfl) (fun _ => rfl) fun _ => rfl

theorem plain_accessField (r : RecordId) (key : String) (asval : Pointer) :
    Plain (accessField r key asval) := by
  unfold accessField
  split
  · exact plain_bind (plain_updateField ..) fun _ => plain_pure _
  · exact plain_bind plain_get fun _ => plain_pure _

mutual
theorem ret_scanStatement (st : Statement) (frame : StackFrame) :
    (scanStatement st frame).ret = frame.ret :=
  match st with
  | .assignment (.name _) _ => rfl
  | .assignment (.index _ _) _ | .assignment (.field _ _) _ | .callStatement _ _ | .ret _ => rfl
  | .global _ => rfl
  | .ifStatement _ thenBlock elseBlock =>
    (ret_scanBlock elseBlock _).trans (ret_scanBlock thenBlock frame)
  | .whileLoop _ body => ret_scanBlock body frame

theorem ret_scanBlock (b : Block) (frame : StackFrame) : (scanBlock b frame).ret = frame.ret :=
  match b with
  | .nil => rfl
  | .cons head tail => (ret_scanBlock tail _).trans (ret_scanStatement head frame)
end

/-! ### Visitors -/

section Visitors

variable {exec : Exec}
  (he : ∀ node pos asval, node.isExpression = true → Plain (exec node pos asval))

include he

theorem plain_eval (e : Expression) (pos : Position) : Plain (eval exec e pos) :=
  he _ _ _ (isExpression_nodeOf e)

theorem plain_evalOperands (cast : Value → Option α) (left right : Expression) (pos : Position) :
    Plain (evalOperands exec cast left right pos) := by
  refine plain_bind (plain_eval he ..) fun _ => plain_bind (plain_interpCast ..) fun _ => ?_
  refine plain_bind (plain_eval he ..) fun _ => ?_
  exact plain_bind (plain_interpCast ..) fun _ => plain_pure _

theorem plain_visitBinaryOp (op : BinOpSym) (left right : Expression) (pos : Position) :
    Plain (visitBinaryOp exec op left right pos) := by
  have hops {α : Type} (cast : Value → Option α) {f : α × α → M Pointer} (hf : ∀ p, Plain (f p)) :
      Plain (evalOperands exec cast left right pos >>= f) :=
    plain_bind (plain_evalOperands he ..) hf
  have hint : ∀ func, Plain (visitIntOp exec left right pos func) := fun func =>
    hops _ fun _ => plain_bind (plain_lift _) fun _ => plain_pure _
  unfold visitBinaryOp
  cases op with
  | or | and | lt | lte | gt | gte =>
    dsimp only
    exact hops _ fun _ => plain_pure _
  | minus | mul | div =>
    dsimp only
    exact hint _
  | eq =>
    refine plain_bind (plain_eval he ..) fun l => plain_bind (plain_eval he ..) fun r => ?_
    cases l with
    | none => exact plain_stop _
    | some v => exact plain_pure _
  | plus =>
    refine plain_bind (plain_eval he ..) fun l => plain_bind (plain_eval he ..) fun r => ?_
    split
    · exact plain_bind (plain_toText _) fun _ => plain_bind (plain_toText _) fun _ => plain_pure _
    · exact hint _

theorem plain_evalFields (record : RecordId) (pos : Position) (fields : Fields) (i : Nat) :
    Plain (evalFields exec record pos fields i) := by
  match fields with
  | .nil => exact plain_pure _
  | .cons key value tail =>
    refine plain_bind (plain_eval he ..) fun _ => plain_bind (plain_updateField ..) fun _ => ?_
    exact plain_evalFields record pos tail (i + 1)

theorem plain_evalArguments (pos : Position) (arguments : Arguments) (i : Nat) :
    Plain (evalArguments exec pos arguments i) := by
  match arguments with
  | .nil => exact plain_pure _
  | .cons head tail =>
    refine plain_bind (plain_eval he ..) fun _ => ?_
    exact plain_bind (plain_evalArguments pos tail (i + 1)) fun _ => plain_pure _

theorem plain_bindArguments (frame : FrameId) (pos : Position) (names : List String)
    (arguments : Arguments) (i : Nat) : Plain (bindArguments exec frame pos names arguments i) := by
  match names, arguments with
  | name :: names, .cons head tail =>
    refine plain_bind (plain_eval he ..) fun arg => ?_
    refine plain_bind (plain_modify (fun s => same_onFrame s _ fun _ => rfl) fun _ => rfl) fun _ =>
      ?_
    exact plain_bindArguments frame pos names tail (i + 1)
  | [], _ => exact plain_pure _
  | _ :: _, .nil => exact plain_pure _

theorem plain_visitLHS (l : LHS) (pos : Position) (asval : Pointer) :
    Plain (visitLHS exec l pos asval) := by
  cases l with
  | name x => exact plain_visitName x asval
  | field base field =>
    refine plain_bind (he _ _ _ rfl) fun _ => ?_
    exact plain_bind (plain_interpCast ..) fun _ => plain_accessField ..
  | index base index =>
    refine plain_bind (he _ _ _ rfl) fun _ => plain_bind (plain_interpCast ..) fun _ => ?_
    refine plain_bind (plain_eval he ..) fun _ => ?_
    exact plain_bind (plain_toText _) fun _ => plain_accessField ..

theorem plain_evalCond (cond : Expression) (pos : Position) : Plain (evalCond exec cond pos) :=
  plain_bind (plain_eval he ..) fun _ => plain_interpCast ..

end Visitors

/-! ### Calls -/

section Calls

variable {exec : Exec}
  (he : ∀ node pos asval, node.isExpression = true → Plain (exec node pos asval))
  (hb : ∀ b pos, MayReturn (inLoop pos) (exec (.block b) pos none))

/-- What the end of a call does: the return value is set if it was not, and the
frame is left. -/
def leave (frame : FrameId) : M Pointer := do
  Eval.modify fun s =>
    if (s.frames frame).returned then s else s.onFrame frame (StackFrame.setReturn (some .none))
  Eval.modify fun s => { s with stack := s.stack.tail }
  let s ← Eval.get
  Eval.mark (.left frame (s.frames frame).ret)
  pure (s.frames frame).ret

/-- The return value of a frame that is left. -/
def finalRet (frame : FrameId) (s : State) : Pointer :=
  if (s.frames frame).returned then (s.frames frame).ret else some .none

theorem leave_spec (frame : FrameId) (s : State) :
    (leave frame).outcome s = .ok (finalRet frame s) ∧
      (leave frame).trees s = [.node (.left frame (finalRet frame s)) []] ∧
      SameBut (some frame) s ((leave frame).after s) ∧
      ((leave frame).after s).stack = s.stack.tail := by
  cases h : (s.frames frame).returned with
  | true =>
    have hrun : leave frame s = (.ok (s.frames frame).ret, { s with stack := s.stack.tail },
        [.node (.left frame (s.frames frame).ret) []]) := by
      simp [leave, bind, andThen, Eval.modify, Eval.get, Eval.mark, pure, h]
    simp only [outcome, Eval.trees, after, hrun, finalRet, h, if_true]
    exact ⟨trivial, trivial, ⟨Nat.le_refl _, fun _ _ _ => rfl⟩, trivial⟩
  | false =>
    have hrun : leave frame s = (.ok (some .none),
        { s.onFrame frame (StackFrame.setReturn (some .none)) with stack := s.stack.tail },
        [.node (.left frame (some .none)) []]) := by
      simp [leave, bind, andThen, Eval.modify, Eval.get, Eval.mark, pure, h, State.onFrame,
        StackFrame.setReturn]
    simp only [outcome, Eval.trees, after, hrun, finalRet, h, Bool.false_eq_true, if_false]
    refine ⟨trivial, trivial, ⟨Nat.le_refl _, fun f _ hf => ?_⟩, trivial⟩
    have hne : ¬ f = frame := fun he => hf (congrArg some he)
    rw [State.frames_onFrame, if_neg hne]

/-- The end of the body of a function: the new frame is left with what was returned. -/
structure EndsCall (frame : FrameId) (m : M α) (s : State) : Prop where
  closed : Closed (CallTree.eventsAll (m.trees s))
  same : SameBut (some frame) s (m.after s)
  stack : ∀ a, m.outcome s = .ok a → (m.after s).stack = s.stack

include hb in
theorem enter_ends {frame : FrameId} {code : Position} {body : Block} {s : State}
    (hframe : frame < s.nextFrame) (hpos : frame ≠ 0) (hret : (s.frames frame).ret = none)
    (hs : Straight (CallTree.eventsAll ((enter exec frame code body).trees s))) :
    EndsCall frame (enter exec frame code body) s := by
  let s₁ : State := { s with stack := frame :: s.stack }
  let m : M Pointer := exec (.block body) code none
  have hopen : Open s₁ := ⟨hframe, hret⟩
  have hs' : Straight (CallTree.eventsAll ((m >>= fun _ => leave frame).trees s₁)) := hs
  suffices h : Closed (CallTree.eventsAll ((m >>= fun _ => leave frame).trees s₁)) ∧
      SameBut (some frame) s₁ ((m >>= fun _ => leave frame).after s₁) ∧
        ∀ a, (m >>= fun _ => leave frame).outcome s₁ = .ok a →
          ((m >>= fun _ => leave frame).after s₁).stack = s.stack from
    ⟨h.1, ⟨h.2.1.nextFrame, h.2.1.ret⟩, h.2.2⟩
  obtain ⟨hbody, -⟩ := straight_parts hs'
  rcases (hb body code).ends s₁ hopen hbody with hend | ⟨hend, -⟩
  · cases ho : m.outcome s₁ with
    | error e =>
      obtain ⟨hout, hafter, htrees⟩ := bind_error (fun _ => leave frame) ho
      rw [hout, hafter, htrees]
      exact ⟨hend.closed, sameBut_of_same hend.same, fun a ha => by cases ha⟩
    | ok a =>
      obtain ⟨-, hafter, htrees⟩ := bind_ok (fun _ => leave frame) ho
      obtain ⟨-, hleft, hsame, hstack⟩ := leave_spec frame (m.after s₁)
      rw [hafter, htrees, CallTree.eventsAll_append, hleft, hstack, hend.stack a ho]
      refine ⟨closed_append hend.closed (.left .nil), ?_, fun _ _ => rfl⟩
      exact sameBut_trans (sameBut_of_same hend.same) hsame
  · -- the body ended with a `Return`, so the frame has its value
    obtain ⟨a, ho⟩ := hend.outcome
    obtain ⟨es, pos, val, hes, hclosed, hval⟩ := hend.events
    obtain ⟨-, hafter, htrees⟩ := bind_ok (fun _ => leave frame) ho
    obtain ⟨-, hleft, hsame, hstack⟩ := leave_spec frame (m.after s₁)
    have hsome : val.isSome = true := by
      refine (hbody s₁.current pos val ?_).2
      rw [hes]
      exact List.mem_append_right _ (List.mem_singleton_self _)
    have hreturned : ((m.after s₁).frames frame).ret = val := hval
    have hfinal : finalRet frame (m.after s₁) = val := by
      rw [finalRet, StackFrame.returned, hreturned, hsome, if_pos rfl]
    rw [hafter, htrees, CallTree.eventsAll_append, hleft, hstack, hend.stack, hfinal, hes]
    refine ⟨closed_returned hclosed hpos, ?_, fun _ _ => rfl⟩
    exact sameBut_trans hend.same hsame

/-- The new frame of a call. -/
theorem createChild_spec (parent : FrameId) (body : Block) (s : State) :
    (createChild parent body).outcome s = .ok s.nextFrame ∧
      (createChild parent body).trees s = [] ∧
      Same s ((createChild parent body).after s) ∧
      ((createChild parent body).after s).stack = s.stack ∧
      s.nextFrame < ((createChild parent body).after s).nextFrame ∧
      (((createChild parent body).after s).frames s.nextFrame).ret = none := by
  refine ⟨rfl, rfl, ⟨Nat.le_succ _, fun f hf _ => ?_⟩, rfl, Nat.lt_succ_self _, ?_⟩
  · have hne : f ≠ s.nextFrame := Nat.ne_of_lt hf
    exact congrArg StackFrame.ret (Function.update_of_ne hne _ _)
  · refine (congrArg StackFrame.ret (Function.update_self ..)).trans ?_
    rw [ret_scanBlock]

include he hb in
theorem plain_callClosure (parent : FrameId) (code pos : Position) (body : Block)
    (names : List String) (arguments : Arguments) :
    Plain (createChild parent body >>= fun frame =>
      bindArguments exec frame pos names arguments 0 >>= fun _ => enter exec frame code body) := by
  constructor
  intro s ho hs
  obtain ⟨hout, htrees, hsame, hstack, hlt, hret⟩ := createChild_spec parent body s
  have hchild : EndsPlain (createChild parent body) s :=
    ⟨htrees ▸ .nil, hsame, fun _ _ => hstack⟩
  obtain ⟨hopen, -, -⟩ := ends_after (f := fun _ => (pure () : M Unit)) hchild hout ho
  obtain ⟨-, hrest⟩ := straight_parts hs
  obtain ⟨hargs, henter⟩ := straight_parts (hrest _ hout)
  have hbind := (plain_bindArguments he s.nextFrame pos names arguments 0).ends _ hopen hargs
  obtain ⟨hout', hafter', htrees'⟩ := bind_ok (fun frame =>
    bindArguments exec frame pos names arguments 0 >>= fun _ => enter exec frame code body) hout
  -- an argument may throw; else the body runs in the new frame
  cases hb' : (bindArguments exec s.nextFrame pos names arguments 0).outcome
      ((createChild parent body).after s) with
  | error e =>
    have herror := ends_error (f := fun _ => enter exec s.nextFrame code body) hbind hb'
    refine ⟨?_, ?_, fun b hb => ?_⟩
    · rw [htrees', htrees]
      exact herror.closed
    · rw [hafter']
      exact sameBut_trans hsame herror.same
    · rw [hout'] at hb
      rw [hafter', herror.stack b hb, hstack]
  | ok u =>
    have hret' := (hbind.same.ret s.nextFrame hlt fun h => by cases h).trans hret
    have hlt' := Nat.lt_of_lt_of_le hlt hbind.same.nextFrame
    have hpos : s.nextFrame ≠ 0 := Nat.ne_of_gt (Nat.lt_of_le_of_lt (Nat.zero_le _) ho.current)
    have hcall := enter_ends hb hlt' hpos hret' (henter u hb')
    obtain ⟨hout₂, hafter₂, htrees₂⟩ := bind_ok (fun _ => enter exec s.nextFrame code body) hb'
    refine ⟨?_, ⟨?_, fun f hf _ => ?_⟩, fun b hb => ?_⟩
    · rw [htrees', htrees, List.nil_append, htrees₂, CallTree.eventsAll_append]
      exact closed_append hbind.closed hcall.closed
    · rw [hafter', hafter₂]
      exact Nat.le_trans hsame.nextFrame (Nat.le_trans hbind.same.nextFrame hcall.same.nextFrame)
    · -- the only frame that returned is new
      have hf₁ := Nat.lt_of_lt_of_le hf hsame.nextFrame
      have hne : some f ≠ some s.nextFrame := fun h => absurd hf (by cases h; exact Nat.lt_irrefl _)
      rw [hafter', hafter₂, hcall.same.ret f (Nat.lt_of_lt_of_le hf₁ hbind.same.nextFrame) hne,
        hbind.same.ret f hf₁ (fun h => by cases h), hsame.ret f hf (fun h => by cases h)]
    · rw [hout', hout₂] at hb
      rw [hafter', hafter₂, hcall.stack b hb, hbind.stack u hb', hstack]

include he hb in
theorem plain_visitCall (target : LHS) (arguments : Arguments) (pos : Position) :
    Plain (visitCall exec target arguments pos) := by
  refine plain_bind (he _ _ _ rfl) fun _ => plain_bind (plain_interpCast ..) fun func => ?_
  split
  · exact plain_stop _
  · cases func with
    | native f =>
      dsimp only
      exact plain_bind (plain_evalArguments he ..) fun _ => plain_callNative ..
    | closure parent code body names =>
      dsimp only
      exact plain_callClosure he hb ..

include he hb in
theorem plain_visitExpression (e : Expression) (pos : Position) :
    Plain (visitExpression exec e pos) := by
  cases e with
  | lhs l => exact plain_visitLHS he ..
  | call target arguments => exact plain_visitCall he hb ..
  | function arguments body => exact plain_bind plain_get fun _ => plain_pure _
  | record fields =>
    refine plain_bind plain_get fun s => ?_
    refine plain_bind (plain_modify_rest (fun _ => rfl) (fun _ => rfl) fun _ => rfl) fun _ => ?_
    exact plain_bind (plain_evalFields he ..) fun _ => plain_pure _
  | boolConst _ | strConst _ | intConst _ | nullConst => exact plain_pure _
  | binaryOp op left right => exact plain_visitBinaryOp he ..
  | unaryOp op expr =>
    refine plain_bind (plain_eval he ..) fun _ => ?_
    cases op with
    | not => exact plain_bind (plain_interpCast ..) fun _ => plain_pure _
    | neg => exact plain_bind (plain_interpCast ..) fun _ => plain_pure _

end Calls

/-! ### Statements -/

section Statements

variable {exec : Exec}
  (he : ∀ node pos asval, node.isExpression = true → Plain (exec node pos asval))
  (hs : ∀ node pos asval, MayReturn (inLoop pos) (exec node pos asval))

include he hs in
theorem plain_loop (cond : Expression) (body : Block) (pos : Position) (rounds : Nat) (b : Bool) :
    Plain (loop exec cond body pos rounds b) := by
  induction rounds generalizing b with
  | zero => exact plain_stop _
  | succ rounds ih =>
    refine plain_bind plain_get fun s => ?_
    split
    · -- in a loop, so the body does not return
      have hbody : Plain (exec (.block body) (.loopBody :: pos) none) :=
        plain_of_mayReturn (hs (.block body) (.loopBody :: pos) none)
      exact plain_bind hbody fun _ => plain_bind (plain_evalCond he ..) ih
    · exact plain_pure _

include he in
theorem mayReturn_visitReturn (expr : Expression) (pos : Position) :
    MayReturn (inLoop pos) (visitReturn exec expr pos) := by
  refine mayReturn_bind (plain_eval he ..) fun val => ?_
  constructor
  intro s ho hstraight
  refine .inr ⟨⟨⟨none, rfl⟩, ⟨[], pos, val, rfl, .nil, ?_⟩, ⟨Nat.le_refl _, fun f _ hf => ?_⟩, rfl⟩,
    (hstraight s.current pos val (List.mem_singleton_self _)).1⟩
  · show ((s.onFrame s.current (StackFrame.setReturn val)).frames s.current).ret = val
    rw [State.frames_onFrame, if_pos rfl]
    rfl
  · have hne : ¬ f = s.current := fun h => hf (congrArg some h)
    show ((s.onFrame s.current (StackFrame.setReturn val)).frames f).ret = (s.frames f).ret
    rw [State.frames_onFrame, if_neg hne]

include hs in
theorem mayReturn_visitBlock (pos : Position) (b : Block) (i : Nat) :
    MayReturn (inLoop pos) (visitBlock exec pos b i) := by
  match b with
  | .nil => exact mayReturn_of_plain (plain_pure _)
  | .cons head tail =>
    constructor
    intro s ho hstraight
    let rest : M Pointer := do
      let s ← Eval.get
      if s.returned then pure none else visitBlock exec pos tail (i + 1)
    let m : M Pointer := exec (.statement head) (.statement i :: pos) none
    have hrun : ∀ s', rest s' =
        if s'.returned then (pure none : M Pointer) s'
        else visitBlock exec pos tail (i + 1) s' := by
      intro s'
      show (if s'.returned then pure none else visitBlock exec pos tail (i + 1) : M Pointer) s' = _
      split <;> rfl
    obtain ⟨hhead, htail⟩ := straight_parts (m := m) (f := fun _ => rest) hstraight
    rcases (hs (.statement head) (.statement i :: pos) none).ends s ho hhead with
      hend | ⟨hend, hloop⟩
    · cases ha : m.outcome s with
      | error e => exact .inl (ends_error hend ha)
      | ok a =>
        obtain ⟨hopen, hplain, hreturned⟩ := ends_after (f := fun _ => rest) hend ha ho
        have hgoesOn : rest (m.after s) = visitBlock exec pos tail (i + 1) (m.after s) := by
          rw [hrun, State.returned, StackFrame.returned, hopen.ret]
          rfl
        have htail' := htail a ha
        rw [Eval.trees, hgoesOn] at htail'
        rcases (mayReturn_visitBlock pos tail (i + 1)).ends _ hopen htail' with h | ⟨h, hloop⟩
        · exact .inl (hplain (endsPlain_congr hgoesOn h))
        · exact .inr ⟨hreturned (endsReturned_congr hgoesOn h), hloop⟩
    · -- the rest of the block is left out
      obtain ⟨a, ha⟩ := hend.outcome
      refine .inr ⟨ends_returned (b := none) hend ha ?_, hloop⟩
      have hreturned : (m.after s).returned = true := returned_of_ends hend hhead
      exact (hrun _).trans (if_pos hreturned)

include he hs in
theorem mayReturn_visitStatement (rounds : Nat) (st : Statement) (pos : Position) :
    MayReturn (inLoop pos) (visitStatement exec rounds st pos) := by
  cases st with
  | assignment lhs expr =>
    exact mayReturn_of_plain (plain_bind (plain_eval he ..) fun _ => he _ _ _ rfl)
  | callStatement target arguments => exact mayReturn_of_plain (he _ _ _ rfl)
  | global x => exact mayReturn_of_plain (plain_pure _)
  | ifStatement cond thenBlock elseBlock =>
    refine mayReturn_bind (plain_eval he ..) fun _ => mayReturn_bind (plain_interpCast ..) fun b =>
      ?_
    cases b with
    | true => exact hs (.block thenBlock) (.thenBlock :: pos) none
    | false => exact hs (.block elseBlock) (.elseBlock :: pos) none
  | whileLoop cond body =>
    exact mayReturn_of_plain (plain_bind (plain_evalCond he ..)
      (plain_loop he hs cond body pos rounds))
  | ret expr => exact mayReturn_visitReturn he expr pos

end Statements

/-! ### Runs -/

theorem straight_visit {v : Visit} {es : List Event} : Straight (.visit v :: es) ↔ Straight es := by
  rw [show Event.visit v :: es = [.visit v] ++ es from rfl, straight_append]
  refine ⟨And.right, fun h => ⟨fun f p val hm => ?_, h⟩⟩
  cases List.mem_singleton.mp hm

/-- What one recorded visit shows. -/
theorem eventsAll_record {label : State → Except Stop α → Event} (m : M α) (s : State) :
    CallTree.eventsAll ((record label m).trees s) =
      label s (m.outcome s) :: CallTree.eventsAll (m.trees s) := by
  rw [trees_record, CallTree.eventsAll, CallTree.events, CallTree.eventsAll, List.append_nil]

section Record

variable {label : State → Except Stop α → Visit} {m : M α} {loop : Bool}

theorem mayReturn_record (h : MayReturn loop m) :
    MayReturn loop (record (fun s r => .visit (label s r)) m) := by
  constructor
  intro s ho hs
  rw [eventsAll_record, straight_visit] at hs
  rcases h.ends s ho hs with hend | ⟨⟨hout, hevents, hsame, hstack⟩, hloop⟩
  · refine .inl ⟨?_, hend.same, hend.stack⟩
    rw [eventsAll_record]
    exact .visit hend.closed
  · refine .inr ⟨⟨hout, ?_, hsame, hstack⟩, hloop⟩
    obtain ⟨es, pos, val, hes, hclosed, hval⟩ := hevents
    rw [eventsAll_record, hes]
    exact ⟨_ :: es, pos, val, rfl, .visit hclosed, hval⟩

theorem plain_record (h : Plain m) : Plain (record (fun s r => .visit (label s r)) m) :=
  plain_of_mayReturn (mayReturn_record (mayReturn_of_plain h))

end Record

theorem ends_exec (fuel : Nat) : (∀ node pos asval, node.isExpression = true →
    Plain (exec fuel node pos asval)) ∧
      ∀ node pos asval, MayReturn (inLoop pos) (exec fuel node pos asval) := by
  induction fuel with
  | zero => exact ⟨fun _ _ _ _ => plain_stop _, fun _ _ _ => mayReturn_of_plain (plain_stop _)⟩
  | succ fuel ih =>
    obtain ⟨he, hs⟩ := ih
    have hplain : ∀ node pos asval, node.isExpression = true →
        Plain (visit (exec fuel) fuel node pos asval) := by
      intro node pos asval hnode
      match node with
      | .expression e => exact plain_visitExpression he (fun b pos => hs (.block b) pos none) e pos
      | .lhs l => exact plain_visitLHS he l pos asval
    refine ⟨fun node pos asval hnode => plain_record (hplain node pos asval hnode),
      fun node pos asval => mayReturn_record ?_⟩
    cases node with
    | expression e => exact mayReturn_of_plain (hplain (.expression e) pos asval rfl)
    | lhs l => exact mayReturn_of_plain (hplain (.lhs l) pos asval rfl)
    | statement st => exact mayReturn_visitStatement he hs fuel st pos
    | block b => exact mayReturn_visitBlock hs pos b 0

theorem returnsEnd_of_closed {es : List Event} (hc : Closed es) : ReturnsEnd es := by
  intro before f pos val rest h
  obtain ⟨hf, hrest⟩ := closed_split hc h
  rw [if_neg hf]
  exact hrest

/-- The list ends with a `Return` outside of all functions. -/
theorem returnsEnd_concat {es : List Event} {pos : Position} {val : Pointer} (hc : Closed es) :
    ReturnsEnd (es ++ [.returned 0 pos val]) := by
  intro before f pos' val' rest h
  rcases List.eq_nil_or_concat rest with rfl | ⟨rest', last, rfl⟩
  · obtain ⟨-, hlast⟩ := List.append_inj' h rfl
    cases hlast
    rw [if_pos rfl]
  · rw [List.concat_eq_append, ← List.cons_append, ← List.append_assoc] at h
    obtain ⟨hes, -⟩ := List.append_inj' h rfl
    obtain ⟨hf, hrest⟩ := closed_split hc hes
    rw [if_neg hf, List.concat_eq_append, List.head?_append, hrest]
    rfl

end ReturnLemmas

open ReturnLemmas

/-- In every run whose `Return`s are outside of loops and return values, a `Return`
ends its body: the next thing is the end of the call, with the value returned. -/
theorem returns_end (fuel : Nat) (prog : Program) (input : List String)
    (h : Straight (events fuel prog input)) : ReturnsEnd (events fuel prog input) := by
  have hopen : Open (start input) := ⟨Nat.one_pos, rfl⟩
  rcases ((ends_exec fuel).2 (.block prog) [] none).ends _ hopen h with hend | ⟨hend, -⟩
  · exact returnsEnd_of_closed hend.closed
  · obtain ⟨es, pos, val, hes, hclosed, -⟩ := hend.events
    rw [events, trees, hes]
    exact returnsEnd_concat hclosed

/-- A `Return` outside of loops that returns a value, or another event. -/
def Event.isStraight : Event → Bool
  | .returned _ pos val => !inLoop pos && val.isSome
  | _ => true

theorem straight_of_all {es : List Event} (h : es.all Event.isStraight = true) : Straight es := by
  intro f pos val hm
  have hreturned := List.all_eq_true.mp h _ hm
  simpa [Event.isStraight] using hreturned

/-- `f = fun() { return 1; }; f();` -/
theorem returns_end_one : ReturnsEnd (events 8
    (.cons (.assignment (.name "f") (.function [] (.cons (.ret (.intConst 1)) .nil)))
      (.cons (.callStatement (.name "f") .nil) .nil)) []) :=
  returns_end 8 _ [] (straight_of_all (by decide +kernel))

/-- Something is evaluated directly after a `Return`. -/
def goesOn : List Event → Bool
  | .returned _ _ _ :: .visit _ :: _ => true
  | _ :: es => goesOn es
  | [] => false

theorem not_goesOn {es : List Event} (h : ReturnsEnd es) : goesOn es = false := by
  induction es with
  | nil => rfl
  | cons e es ih =>
    have htail : goesOn es = false := ih fun before f pos val rest he =>
      h (e :: before) f pos val rest (congrArg (e :: ·) he)
    rcases e with v | ⟨f, pos, val⟩ | ⟨f, val⟩
    · exact htail
    · match es, h, htail with
      | [], _, _ => rfl
      | .visit v :: es, h, _ =>
        have hend := h [] f pos val (.visit v :: es) rfl
        split at hend <;> cases hend
      | .returned .. :: es, _, htail => exact htail
      | .left .. :: es, _, htail => exact htail
    · exact htail

/-- `f = fun() { while (print("") == None) { return 1; } }; f();` prints twice. -/
theorem returns_notEnd : ¬ ∀ (fuel : Nat) (prog : Program) (input : List String),
    ReturnsEnd (events fuel prog input) := by
  intro h
  let prog : Program :=
    .cons (.assignment (.name "f") (.function [] (.cons (.whileLoop
      (.binaryOp .eq (.call (.name "print") (.cons (.strConst "") .nil)) .nullConst)
      (.cons (.ret (.intConst 1)) .nil)) .nil)))
    (.cons (.callStatement (.name "f") .nil) .nil)
  have hgoes : goesOn (events 12 prog []) = true := by decide +kernel
  rw [not_goesOn (h 12 prog [])] at hgoes
  cases hgoes

end Beaverc.BasicInterpreter

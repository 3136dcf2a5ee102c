import Beaverc.OperandsOnce

/-!
# Variable lookup

`ReadVar` walks up the frames to the first one that declares the variable global
or contains it, and reads the global frame or that frame. A variable that is
declared global but that the global frame does not contain gives a null pointer
(`Gap`). In a run that meets no gap all stored pointers are valid, and every read
gives the value stored in the designated frame or raises
`UninitializedVariableException` (`reads_total_iff`).
-/

namespace Beaverc.BasicInterpreter
open Evaluations Eval

/-- The frame from which the variable is to be read: the global one where the
first frame that knows the variable declares it global. -/
def State.scope (var : String) (s : State) : Option FrameId :=
  (s.designated var).map fun f => if var ∈ (s.frames f).globals then 0 else f

/-- The scoping rules lead to the global frame, which does not have the variable. -/
def Gap (var : String) (s : State) : Prop :=
  ∃ f, s.designated var = some f ∧ var ∈ (s.frames f).globals ∧ (s.frames 0).contains var = false

/-- The variable that a visit of a node reads. -/
def readsName : Node → Pointer → Option String
  | .lhs (.name x), none => some x
  | .expression (.lhs (.name x)), _ => some x
  | _, _ => none

/-- The read gave the value in the frame of its scope, or raised because there is
no such frame. -/
def TotalRead (var : String) (v : Visit) : Prop :=
  match v.before.scope var with
  | some f => ∃ val, v.outcome = .ok (some val) ∧ (v.before.frames f).vars var = some (some val)
  | none => v.outcome = .error (.raised .uninitializedVariable var)

def readsTotally (e : Event) (_ : List Event) : Prop :=
  ∀ v x, e = .visit v → readsName v.node v.asval = some x → TotalRead x v

def meetsNoGap (e : Event) (_ : List Event) : Prop :=
  ∀ v x, e = .visit v → readsName v.node v.asval = some x → ¬ Gap x v.before

/-- Every pointer that is stored points to a value. -/
structure Valid (s : State) : Prop where
  vars : ∀ f x p, (s.frames f).vars x = some p → p.isSome = true
  fields : ∀ r key p, (s.records r).lookup key = some p → p.isSome = true

namespace VariableLookupLemmas

/-- What `exec` keeps, and what it returns. -/
abbrev Sound {α : Type} (m : M α) (good : α → Prop) : Prop :=
  Guarded Valid meetsNoGap readsTotally m good

/-! ### States -/

theorem valid_onFrame {s : State} {f : FrameId} {g : StackFrame → StackFrame} (hs : Valid s)
    (hg : ∀ x p, (g (s.frames f)).vars x = some p → p.isSome = true) : Valid (s.onFrame f g) := by
  refine ⟨fun f' x p hp => ?_, hs.fields⟩
  rw [State.frames_onFrame] at hp
  split at hp
  · exact hg x p hp
  · exact hs.vars f' x p hp

theorem vars_update {frame : StackFrame} {x y : String} {p q : Pointer} (hp : p.isSome = true)
    (hframe : ∀ y q, frame.vars y = some q → q.isSome = true)
    (hq : (frame.update x p).vars y = some q) : q.isSome = true := by
  rw [StackFrame.vars_update] at hq
  split at hq
  · cases hq
    exact hp
  · exact hframe y q hq

theorem valid_update {s : State} {f : FrameId} {x : String} {p : Pointer} (hs : Valid s)
    (hp : p.isSome = true) : Valid (s.onFrame f (StackFrame.update x p)) :=
  valid_onFrame hs fun _ _ hq => vars_update hp (hs.vars f) hq

theorem valid_updateVar {s : State} {x : String} {p : Pointer} (hs : Valid s)
    (hp : p.isSome = true) : Valid (s.updateVar x p) := by
  unfold State.updateVar
  split
  · exact valid_update hs hp
  · exact valid_update hs hp

theorem valid_setReturn {s : State} {f : FrameId} {p : Pointer} (hs : Valid s) :
    Valid (s.onFrame f (StackFrame.setReturn p)) :=
  valid_onFrame hs (hs.vars f)

theorem lookup_insert {key k : String} {val p : Pointer} {l : List (String × Pointer)}
    (h : (State.updateField.insert key val l).lookup k = some p) :
    p = val ∨ l.lookup k = some p := by
  induction l with
  | nil =>
    rw [State.updateField.insert, List.lookup_cons] at h
    split at h
    · cases h
      exact .inl rfl
    · cases h
  | cons q rest ih =>
    rw [State.updateField.insert] at h
    split at h
    · next hq =>
      rw [List.lookup_cons] at h
      split at h
      · cases h
        exact .inl rfl
      · next hne =>
        refine .inr ?_
        obtain ⟨k', v⟩ := q
        simp only at hq
        rw [List.lookup_cons, hq, hne]
        exact h
    · obtain ⟨k', v⟩ := q
      rw [List.lookup_cons] at h ⊢
      split at h
      · exact .inr h
      · exact ih h

theorem valid_updateField {s : State} {r : RecordId} {key : String} {p : Pointer} (hs : Valid s)
    (hp : p.isSome = true) : Valid (s.updateField r key p) := by
  refine ⟨hs.vars, fun r' k q hq => ?_⟩
  rw [State.records_updateField] at hq
  split at hq
  · rcases lookup_insert hq with rfl | hq
    · exact hp
    · exact hs.fields _ k q hq
  · exact hs.fields r' k q hq

mutual
theorem vars_scanStatement (st : Statement) {frame : StackFrame}
    (h : ∀ x p, frame.vars x = some p → p.isSome = true) :
    ∀ x p, (scanStatement st frame).vars x = some p → p.isSome = true :=
  match st with
  | .assignment (.name _) _ => fun _ _ hp => vars_update rfl h hp
  | .assignment (.index _ _) _ | .assignment (.field _ _) _ | .callStatement _ _ | .ret _ => h
  | .global _ => h
  | .ifStatement _ thenBlock elseBlock =>
    vars_scanBlock elseBlock (vars_scanBlock thenBlock h)
  | .whileLoop _ body => vars_scanBlock body h

theorem vars_scanBlock (b : Block) {frame : StackFrame}
    (h : ∀ x p, frame.vars x = some p → p.isSome = true) :
    ∀ x p, (scanBlock b frame).vars x = some p → p.isSome = true :=
  match b with
  | .nil => h
  | .cons head tail => vars_scanBlock tail (vars_scanStatement head h)
end

theorem valid_start (input : List String) : Valid (start input) := by
  refine ⟨fun f x p hp => ?_, fun _ _ _ h => by cases h⟩
  simp only [start] at hp
  split at hp
  · exact vars_update rfl (fun _ _ => vars_update rfl fun _ _ => vars_update rfl fun _ _ h => by
      cases h) hp
  · cases hp

/-! ### Reads -/

theorem readVar_eq (x : String) (s : State) :
    s.readVar x = match s.scope x with
      | some f => .ok ((s.frames f).read x)
      | none => .error (.raised .uninitializedVariable x) := by
  unfold State.readVar State.scope
  cases s.designated x with
  | none => rfl
  | some f => by_cases hf : x ∈ (s.frames f).globals <;> simp [hf]

/-- The frame of the scope contains the variable, unless there is a gap. -/
theorem scope_contains {x : String} {s : State} {f : FrameId} (h : s.scope x = some f)
    (hgap : ¬ Gap x s) : (s.frames f).contains x = true := by
  obtain ⟨f', hf', rfl⟩ := Option.map_eq_some_iff.mp h
  split
  · next hglobal =>
    cases hc : (s.frames 0).contains x with
    | true => rfl
    | false => exact absurd ⟨f', hf', hglobal, hc⟩ hgap
  · next hglobal =>
    have hfound := List.find?_some hf'
    simpa [hglobal] using hfound

theorem read_of_contains {frame : StackFrame} {x : String} (h : frame.contains x = true) :
    frame.vars x = some (frame.read x) := by
  obtain ⟨p, hp⟩ := Option.isSome_iff_exists.mp h
  rw [StackFrame.read, if_pos h, hp, Option.getD_some]

/-- A read in a valid state, where there is no gap. -/
theorem readVar_total {x : String} {s : State} (hs : Valid s) (hgap : ¬ Gap x s) :
    match s.scope x with
    | some f => ∃ val, s.readVar x = .ok (some val) ∧ (s.frames f).vars x = some (some val)
    | none => s.readVar x = .error (.raised .uninitializedVariable x) := by
  rw [readVar_eq]
  cases hscope : s.scope x with
  | none => rfl
  | some f =>
    have hvars := read_of_contains (scope_contains hscope hgap)
    obtain ⟨val, hval⟩ := Option.isSome_iff_exists.mp (hs.vars f x _ hvars)
    exact ⟨val, congrArg Except.ok hval, by rw [hvars, hval]⟩

/-- A read in a gap gives the null pointer. -/
theorem readVar_gap {x : String} {s : State} (hgap : Gap x s) :
    s.scope x = some 0 ∧ s.readVar x = .ok none := by
  obtain ⟨f, hf, hglobal, hc⟩ := hgap
  have hscope : s.scope x = some 0 := by rw [State.scope, hf, Option.map_some, if_pos hglobal]
  refine ⟨hscope, ?_⟩
  rw [readVar_eq, hscope]
  simp [StackFrame.read, hc]

/-! ### Visitors that evaluate nothing -/

variable {α : Type}

theorem sound_lift {x : Except Stop α} {good : α → Prop} (h : ∀ a, x = .ok a → good a) :
    Sound (lift x) good := by
  cases x with
  | ok a => exact guarded_pure (h a rfl)
  | error e => exact guarded_stop e

theorem sound_toText (p : Pointer) : Sound (toText p) fun _ => True :=
  guarded_bind guarded_get fun _ _ => sound_lift fun _ _ => trivial

theorem sound_interpCast (cast : Value → Option α) (p : Pointer) :
    Sound (interpCast cast p) fun _ => True := by
  unfold interpCast
  split
  · exact guarded_pure trivial
  · exact guarded_bind (sound_toText p) fun _ _ => guarded_stop _

theorem sound_callNative (f : Native) (args : List Pointer) :
    Sound (callNative f args) fun p => p.isSome = true := by
  unfold callNative
  split
  · refine guarded_bind (sound_toText _) fun _ _ => ?_
    refine guarded_bind (guarded_modify fun s hs => ⟨hs.vars, hs.fields⟩) fun _ _ => ?_
    exact guarded_pure rfl
  · refine guarded_bind guarded_get fun _ _ => ?_
    refine guarded_bind (guarded_modify fun s hs => ⟨hs.vars, hs.fields⟩) fun _ _ => ?_
    exact guarded_pure rfl
  · refine guarded_bind (sound_interpCast _ _) fun t _ => ?_
    split
    · exact guarded_bind (sound_lift fun _ _ => trivial) fun _ _ => guarded_pure rfl
    · exact guarded_stop _
  · exact guarded_stop _

theorem sound_visitName_store (x : String) (val : Value) :
    Sound (visitName x (some val)) fun _ => True :=
  guarded_bind (guarded_modify fun _ hs => valid_updateVar hs rfl) fun _ _ => guarded_pure trivial

theorem sound_accessField (r : RecordId) (key : String) (asval : Pointer) :
    Sound (accessField r key asval) fun p => asval = none → p.isSome = true := by
  unfold accessField
  split
  · exact guarded_bind (guarded_modify fun _ hs => valid_updateField hs rfl) fun _ _ =>
      guarded_pure fun he => by cases he
  · refine guarded_bind guarded_get fun s hs => guarded_pure fun _ => ?_
    unfold State.readField
    cases hl : (s.records r).lookup key with
    | none => rfl
    | some p => exact hs.fields r key p hl

theorem sound_createChild (parent : FrameId) (body : Block) :
    Sound (createChild parent body) fun _ => True := by
  refine guarded_bind guarded_get fun s₀ _ => ?_
  refine guarded_bind (guarded_modify fun s hs => ⟨fun f x p hp => ?_, hs.fields⟩) fun _ _ =>
    guarded_pure trivial
  simp only [Function.update_apply] at hp
  split at hp
  · exact vars_scanBlock body (fun _ _ h => by cases h) x p hp
  · exact hs.vars f x p hp

/-! ### Visitors -/

section Visitors

/-- A visit returns a valid pointer where it is an evaluation. -/
def Returns (node : Node) (asval p : Pointer) : Prop :=
  node.isExpression = true → asval = none → p.isSome = true

variable {exec : Exec} (he : ∀ node pos asval, Sound (exec node pos asval) (Returns node asval))

include he

theorem sound_eval (e : Expression) (pos : Position) :
    Sound (eval exec e pos) fun p => p.isSome = true :=
  guarded_mono (he ..) fun _ h => h (isExpression_nodeOf e) rfl

theorem sound_exec (node : Node) (pos : Position) (asval : Pointer) :
    Sound (exec node pos asval) fun _ => True :=
  guarded_mono (he ..) fun _ _ => trivial

theorem sound_evalOperands (cast : Value → Option α) (left right : Expression) (pos : Position) :
    Sound (evalOperands exec cast left right pos) fun _ => True := by
  refine guarded_bind (sound_eval he ..) fun _ _ => ?_
  refine guarded_bind (sound_interpCast ..) fun _ _ => ?_
  refine guarded_bind (sound_eval he ..) fun _ _ => ?_
  exact guarded_bind (sound_interpCast ..) fun _ _ => guarded_pure trivial

theorem sound_visitBinaryOp (op : BinOpSym) (left right : Expression) (pos : Position) :
    Sound (visitBinaryOp exec op left right pos) fun p => p.isSome = true := by
  have hbool : ∀ func, Sound (visitBoolOp exec left right pos func) fun p => p.isSome = true :=
    fun func => guarded_bind (sound_evalOperands he ..) fun _ _ => guarded_pure rfl
  have hcompare : ∀ func,
      Sound (visitComparison exec left right pos func) fun p => p.isSome = true :=
    fun func => guarded_bind (sound_evalOperands he ..) fun _ _ => guarded_pure rfl
  have hint : ∀ func, Sound (visitIntOp exec left right pos func) fun p => p.isSome = true :=
    fun func => guarded_bind (sound_evalOperands he ..) fun _ _ =>
      guarded_bind (sound_lift fun _ _ => trivial) fun _ _ => guarded_pure rfl
  unfold visitBinaryOp
  cases op with
  | or | and =>
    dsimp only
    exact hbool _
  | lt | lte | gt | gte =>
    dsimp only
    exact hcompare _
  | minus | mul | div =>
    dsimp only
    exact hint _
  | eq =>
    refine guarded_bind (sound_eval he ..) fun l _ => guarded_bind (sound_eval he ..) fun r _ => ?_
    cases l with
    | none => exact guarded_stop _
    | some v => exact guarded_pure rfl
  | plus =>
    refine guarded_bind (sound_eval he ..) fun l _ => guarded_bind (sound_eval he ..) fun r _ => ?_
    split
    · exact guarded_bind (sound_toText _) fun _ _ => guarded_bind (sound_toText _) fun _ _ =>
        guarded_pure rfl
    · exact hint _

theorem sound_evalFields (record : RecordId) (pos : Position) (fields : Fields) (i : Nat) :
    Sound (evalFields exec record pos fields i) fun _ => True := by
  match fields with
  | .nil => exact guarded_pure trivial
  | .cons key value tail =>
    refine guarded_bind (sound_eval he ..) fun val hval => ?_
    refine guarded_bind (guarded_modify fun _ hs => valid_updateField hs hval) fun _ _ => ?_
    exact sound_evalFields record pos tail (i + 1)

theorem sound_evalArguments (pos : Position) (arguments : Arguments) (i : Nat) :
    Sound (evalArguments exec pos arguments i) fun _ => True := by
  match arguments with
  | .nil => exact guarded_pure trivial
  | .cons head tail =>
    refine guarded_bind (sound_eval he ..) fun _ _ => ?_
    exact guarded_bind (sound_evalArguments pos tail (i + 1)) fun _ _ => guarded_pure trivial

theorem sound_bindArguments (frame : FrameId) (pos : Position) (names : List String)
    (arguments : Arguments) (i : Nat) :
    Sound (bindArguments exec frame pos names arguments i) fun _ => True := by
  match names, arguments with
  | name :: names, .cons head tail =>
    refine guarded_bind (sound_eval he ..) fun arg harg => ?_
    refine guarded_bind (guarded_modify fun _ hs => valid_update hs harg) fun _ _ => ?_
    exact sound_bindArguments frame pos names tail (i + 1)
  | [], _ => exact guarded_pure trivial
  | _ :: _, .nil => exact guarded_pure trivial

/-- A call returns what a `Return` has set, or `None`. -/
theorem sound_enter (frame : FrameId) (code : Position) (body : Block) :
    Sound (enter exec frame code body) fun p => p.isSome = true := by
  refine guarded_bind (guarded_modify fun s hs => ⟨hs.vars, hs.fields⟩) fun _ _ => ?_
  refine guarded_bind (sound_exec he ..) fun _ _ => ?_
  constructor
  intro s hs _
  -- the frame with its return value, before it is popped
  obtain ⟨s₁, hs₁, hvalid, hret⟩ : ∃ s₁, s₁ = (if (s.frames frame).returned then s
      else s.onFrame frame (StackFrame.setReturn (some .none))) ∧ Valid s₁ ∧
        (s₁.frames frame).ret.isSome = true := by
    refine ⟨_, rfl, ?_⟩
    split
    · next h => exact ⟨hs, h⟩
    · refine ⟨valid_setReturn hs, ?_⟩
      rw [State.frames_onFrame, if_pos rfl]
      rfl
  refine ⟨?_, fun p hp => ?_, fun t ht => ?_⟩
  · rw [hs₁] at hvalid
    exact ⟨hvalid.vars, hvalid.fields⟩
  · rw [hs₁] at hret
    cases hp
    exact hret
  · rw [List.mem_singleton.mp ht]
    exact .leaf fun _ _ he => by cases he

theorem sound_visitCall (target : LHS) (arguments : Arguments) (pos : Position) :
    Sound (visitCall exec target arguments pos) fun p => p.isSome = true := by
  refine guarded_bind (sound_exec he ..) fun _ _ => ?_
  refine guarded_bind (sound_interpCast ..) fun func _ => ?_
  split
  · exact guarded_stop _
  · split
    · exact guarded_bind (sound_evalArguments he ..) fun _ _ => sound_callNative ..
    · refine guarded_bind (sound_createChild ..) fun frame _ => ?_
      exact guarded_bind (sound_bindArguments he ..) fun _ _ => sound_enter he ..

theorem sound_evalCond (cond : Expression) (pos : Position) :
    Sound (evalCond exec cond pos) fun _ => True :=
  guarded_bind (sound_eval he ..) fun _ _ => sound_interpCast ..

theorem sound_loop (cond : Expression) (body : Block) (pos : Position) (rounds : Nat) (b : Bool) :
    Sound (loop exec cond body pos rounds b) fun _ => True := by
  induction rounds generalizing b with
  | zero => exact guarded_stop _
  | succ rounds ih =>
    refine guarded_bind guarded_get fun s _ => ?_
    split
    · exact guarded_bind (sound_exec he ..) fun _ _ =>
        guarded_bind (sound_evalCond he ..) fun b _ => ih b
    · exact guarded_pure trivial

theorem sound_visitBlock (pos : Position) (b : Block) (i : Nat) :
    Sound (visitBlock exec pos b i) fun _ => True := by
  match b with
  | .nil => exact guarded_pure trivial
  | .cons head tail =>
    refine guarded_bind (sound_exec he ..) fun _ _ => guarded_bind guarded_get fun s _ => ?_
    split
    · exact guarded_pure trivial
    · exact sound_visitBlock pos tail (i + 1)

theorem sound_visitLHS {l : LHS} {asval : Pointer} (hn : readsName (.lhs l) asval = none)
    (pos : Position) :
    Sound (visitLHS exec l pos asval) fun p => asval = none → p.isSome = true := by
  cases l with
  | name x =>
    cases asval with
    | none => cases hn
    | some val => exact guarded_mono (sound_visitName_store x val) fun _ _ he => by cases he
  | field base field =>
    refine guarded_bind (sound_exec he ..) fun _ _ => ?_
    exact guarded_bind (sound_interpCast ..) fun _ _ => sound_accessField ..
  | index base index =>
    refine guarded_bind (sound_exec he ..) fun _ _ => ?_
    refine guarded_bind (sound_interpCast ..) fun _ _ => ?_
    refine guarded_bind (sound_eval he ..) fun _ _ => ?_
    exact guarded_bind (sound_toText _) fun _ _ => sound_accessField ..

/-- Every visit but the read of a name. -/
theorem sound_visit (rounds : Nat) {node : Node} {asval : Pointer}
    (hn : readsName node asval = none) (pos : Position) :
    Sound (visit exec rounds node pos asval) (Returns node asval) := by
  have ignore {m : M Pointer} (h : Sound m fun p => p.isSome = true) :
      Sound m (Returns node asval) := guarded_mono h fun _ hp _ _ => hp
  cases node with
  | lhs l => exact guarded_mono (sound_visitLHS he hn pos) fun _ hp _ => hp
  | block b => exact guarded_mono (sound_visitBlock he pos b 0) fun _ _ he => by cases he
  | expression e =>
    cases e with
    | lhs l =>
      have hl : readsName (.lhs l) none = none := by
        cases l with
        | name x => cases hn
        | index _ _ => rfl
        | field _ _ => rfl
      exact guarded_mono (sound_visitLHS he hl pos) fun _ hp _ _ => hp rfl
    | call target arguments => exact ignore (sound_visitCall he target arguments pos)
    | function arguments body =>
      exact ignore (guarded_bind guarded_get fun _ _ => guarded_pure rfl)
    | record fields =>
      refine ignore (guarded_bind guarded_get fun s₀ _ => ?_)
      refine guarded_bind (guarded_modify fun s hs => ⟨hs.vars, fun r k p hp => ?_⟩) fun _ _ => ?_
      · simp only [Function.update_apply] at hp
        split at hp
        · cases hp
        · exact hs.fields r k p hp
      · exact guarded_bind (sound_evalFields he ..) fun _ _ => guarded_pure rfl
    | boolConst _ | strConst _ | intConst _ | nullConst => exact ignore (guarded_pure rfl)
    | binaryOp op left right => exact ignore (sound_visitBinaryOp he op left right pos)
    | unaryOp op expr =>
      refine ignore (guarded_bind (sound_eval he ..) fun val _ => ?_)
      cases op with
      | not => exact guarded_bind (sound_interpCast ..) fun _ _ => guarded_pure rfl
      | neg => exact guarded_bind (sound_interpCast ..) fun _ _ => guarded_pure rfl
  | statement s =>
    have nothing {m : M Pointer} (h : Sound m fun _ => True) :
        Sound m (Returns (.statement s) asval) := guarded_mono h fun _ _ he => by cases he
    refine nothing ?_
    cases s with
    | assignment lhs expr => exact guarded_bind (sound_eval he ..) fun _ _ => sound_exec he ..
    | callStatement target arguments => exact sound_exec he ..
    | global _ => exact guarded_pure trivial
    | ifStatement cond thenBlock elseBlock =>
      refine guarded_bind (sound_eval he ..) fun _ _ => ?_
      refine guarded_bind (sound_interpCast ..) fun b _ => ?_
      split
      · exact sound_exec he ..
      · exact sound_exec he ..
    | whileLoop cond body =>
      exact guarded_bind (sound_evalCond he ..) fun b _ => sound_loop he cond body pos rounds b
    | ret expr =>
      refine guarded_bind (sound_eval he ..) fun ret _ => guarded_bind guarded_get fun s _ => ?_
      refine guarded_bind (guarded_modify fun _ hs => valid_setReturn hs) fun _ _ => ?_
      exact guarded_bind (guarded_mark fun _ _ he => by cases he) fun _ _ => guarded_pure trivial

end Visitors

/-- The read of a name. -/
theorem visit_read {exec : Exec} {rounds : Nat} {node : Node} {pos : Position} {asval : Pointer}
    {x : String} (hn : readsName node asval = some x) (s : State) :
    (visit exec rounds node pos asval).outcome s = s.readVar x ∧
      (visit exec rounds node pos asval).after s = s ∧
        (visit exec rounds node pos asval).trees s = [] := by
  have hread : (visitName x none).outcome s = s.readVar x ∧ (visitName x none).after s = s ∧
      (visitName x none).trees s = [] := by
    have hget : (Eval.get : M State).outcome s = .ok s := rfl
    obtain ⟨hout, hafter, htrees⟩ := bind_ok (fun s : State => lift (s.readVar x)) hget
    unfold visitName
    rw [hout, hafter, htrees]
    cases s.readVar x with
    | ok p => exact ⟨rfl, rfl, rfl⟩
    | error e => exact ⟨rfl, rfl, rfl⟩
  match node, asval, hn with
  | .lhs (.name _), none, rfl => exact hread
  | .expression (.lhs (.name _)), _, rfl => exact hread

theorem sound_fuel (fuel : Nat) : ∀ node pos asval,
    Sound (exec fuel node pos asval) (Returns node asval) := by
  induction fuel with
  | zero => exact fun _ _ _ => guarded_stop _
  | succ fuel ih =>
    intro node pos asval
    constructor
    intro s hs ha
    rw [exec, trees_record] at ha
    rw [exec, trees_record]
    cases ha _ (List.mem_singleton_self _) with
    | node htop hall =>
      cases hn : readsName node asval with
      | none =>
        obtain ⟨hafter, hgood, hchildren⟩ := (sound_visit ih fuel hn pos).of_assumed s hs hall
        refine ⟨hafter, hgood, fun t ht => ?_⟩
        rw [List.mem_singleton.mp ht]
        refine .node ?_ hchildren
        rintro _ x ⟨⟩ hx
        rw [hn] at hx
        cases hx
      | some x =>
        obtain ⟨hout, hafter, htrees⟩ := @visit_read (exec fuel) fuel node pos asval x hn s
        have htotal := readVar_total hs (htop _ x rfl hn)
        rw [← hout] at htotal
        have hvalid : Valid ((visit (exec fuel) fuel node pos asval).after s) := by
          rw [hafter]
          exact hs
        refine ⟨hvalid, fun p hp _ _ => ?_, fun t ht => ?_⟩
        · have hp' : (visit (exec fuel) fuel node pos asval).outcome s = .ok p := hp
          rw [hp'] at htotal
          split at htotal
          · obtain ⟨val, hval, -⟩ := htotal
            cases hval
            rfl
          · cases htotal
        · rw [List.mem_singleton.mp ht, htrees]
          refine .leaf ?_
          rintro _ y ⟨⟩ hy
          cases hn.symm.trans hy
          exact htotal

/-- What `exec` records of the read of a name. -/
theorem records_read (fuel : Nat) : ∀ node pos asval, Records (CallTree.All fun e _ => ∀ v x,
    e = .visit v → readsName v.node v.asval = some x → v.outcome = v.before.readVar x)
      (exec fuel node pos asval) := by
  induction fuel with
  | zero => exact fun _ _ _ => records_of_silent (silent_stop _)
  | succ fuel ih =>
    intro node pos asval
    constructor
    intro s t ht
    rw [exec, trees_record, List.mem_singleton] at ht
    rw [ht]
    have hchildren := OperandsOnceLemmas.records_visit ih
      (fun _ _ _ => .leaf fun _ _ he => by cases he)
      (fun _ _ => .leaf fun _ _ he => by cases he) fuel node pos asval
    refine .node ?_ (hchildren.of_mem s)
    rintro v x ⟨⟩ hx
    exact (visit_read hx s).1

end VariableLookupLemmas

open VariableLookupLemmas

/-- In a run, every read of a variable gives the value of the designated frame, or
raises where there is none, if and only if no read meets a gap. -/
theorem reads_total_iff (fuel : Nat) (prog : Program) (input : List String) :
    (∀ t ∈ trees fuel prog input, t.All readsTotally) ↔
      ∀ t ∈ trees fuel prog input, t.All meetsNoGap := by
  constructor
  · intro h t ht
    have hread := (records_read fuel (.block prog) [] none).of_mem _ t ht
    refine (h t ht).and_then (fun e _ htotal hout v x he hx hgap => ?_) hread
    obtain ⟨hscope, hnull⟩ := readVar_gap hgap
    have hval := htotal v x he hx
    rw [TotalRead, hscope, hout v x he hx, hnull] at hval
    obtain ⟨val, hval, -⟩ := hval
    cases hval
  · intro h
    exact ((sound_fuel fuel (.block prog) [] none).of_assumed _ (valid_start input) h).2.2

/-- The event is a read that gave the null pointer. -/
def Event.readsNull : Event → Bool
  | .visit v =>
    match readsName v.node v.asval, v.outcome with
    | some _, .ok none => true
    | _, _ => false
  | _ => false

theorem not_readsNull {e : Event} {children : List Event} (h : readsTotally e children) :
    e.readsNull = false := by
  cases e with
  | returned _ _ _ | left _ _ => rfl
  | visit v =>
    cases hx : readsName v.node v.asval with
    | none => simp only [Event.readsNull, hx]
    | some x =>
      have htotal := h v x rfl hx
      unfold TotalRead at htotal
      split at htotal
      · obtain ⟨val, hval, -⟩ := htotal
        simp only [Event.readsNull, hx, hval]
      · simp only [Event.readsNull, hx, htotal]

/-- `f = fun() { global x; return x; }; f();` reads a null pointer. -/
theorem reads_notTotal : ¬ ∀ (fuel : Nat) (prog : Program) (input : List String),
    ∀ t ∈ trees fuel prog input, t.All readsTotally := by
  intro h
  let prog : Program :=
    .cons (.assignment (.name "f") (.function [] (.cons (.global "x")
      (.cons (.ret (.lhs (.name "x"))) .nil)))) (.cons (.callStatement (.name "f") .nil) .nil)
  have hnull : (CallTree.eventsAll (trees 8 prog [])).any Event.readsNull = true := by
    decide +kernel
  obtain ⟨e, he, hread⟩ := List.any_eq_true.mp hnull
  obtain ⟨_, htotal⟩ := CallTree.All.of_eventsAll (h 8 prog []) e he
  rw [not_readsNull htotal] at hread
  cases hread

end Beaverc.BasicInterpreter

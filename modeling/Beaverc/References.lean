import Beaverc.Base.Growth
import Beaverc.BasicInterpreter

/-!
# References of the AST interpreter

A run of the interpreter follows pointers: from a frame to its parent, from a function
to its frame and its block, from a value to its record. None of them dangles. In every
state that a run visits they lead to what was allocated, the parents of a frame are older
than it and end with the global frame, and a visit that ends leaves `frames` as it
found it.
-/

namespace Beaverc.BasicInterpreter
open Evaluations Eval

/-! ## Positions -/

def argumentAt : Arguments → Nat → Option Expression
  | .nil, _ => none
  | .cons head _, 0 => some head
  | .cons _ tail, i + 1 => argumentAt tail i

def fieldAt : Fields → Nat → Option Expression
  | .nil, _ => none
  | .cons _ value _, 0 => some value
  | .cons _ _ tail, i + 1 => fieldAt tail i

def statementAt : Block → Nat → Option Statement
  | .nil, _ => none
  | .cons head _, 0 => some head
  | .cons _ tail, i + 1 => statementAt tail i

def partOfLHS : LHS → Edge → Option Node
  | .index base _, .base => some (.lhs base)
  | .index _ index, .index => some (nodeOf index)
  | .field base _, .base => some (.lhs base)
  | _, _ => none

def partOfExpression : Expression → Edge → Option Node
  | .lhs l, e => partOfLHS l e
  | .call target _, .target => some (.lhs target)
  | .call _ arguments, .argument i => (argumentAt arguments i).map nodeOf
  | .function _ body, .code => some (.block body)
  | .record fields, .field i => (fieldAt fields i).map nodeOf
  | .binaryOp _ left _, .left => some (nodeOf left)
  | .binaryOp _ _ right, .right => some (nodeOf right)
  | .unaryOp _ expr, .operand => some (nodeOf expr)
  | _, _ => none

def partOfStatement : Statement → Edge → Option Node
  | .assignment _ expr, .value => some (nodeOf expr)
  | .assignment lhs _, .destination => some (.lhs lhs)
  | .callStatement target arguments, .call => some (.expression (.call target arguments))
  | .ifStatement cond _ _, .cond => some (nodeOf cond)
  | .ifStatement _ thenBlock _, .thenBlock => some (.block thenBlock)
  | .ifStatement _ _ elseBlock, .elseBlock => some (.block elseBlock)
  | .whileLoop cond _, .cond => some (nodeOf cond)
  | .whileLoop _ body, .loopBody => some (.block body)
  | .ret expr, .value => some (nodeOf expr)
  | _, _ => none

/-- The part of a node at an edge. -/
def partOf : Node → Edge → Option Node
  | .expression e, edge => partOfExpression e edge
  | .lhs l, edge => partOfLHS l edge
  | .statement st, edge => partOfStatement st edge
  | .block b, .statement i => (statementAt b i).map .statement
  | .block _, _ => none

/-- The node at a position of a tree. -/
def nodeAt (root : Node) : Position → Option Node
  | [] => some root
  | edge :: pos => (nodeAt root pos).bind fun node => partOf node edge

/-! ## What may be followed -/

/-- What the value refers to exists. -/
def Value.Refers (root : Node) (s : State) : Value → Prop
  | .function (.closure frame code body arguments) => frame < s.nextFrame ∧ ∃ pos,
    code = .code :: pos ∧ nodeAt root pos = some (.expression (.function arguments body))
  | .record r => r < s.nextRecord
  | _ => True

def Points (root : Node) (s : State) (p : Pointer) : Prop :=
  ∀ v, p = some v → v.Refers root s

/-- The frame is the global one, or has an older parent. -/
def Rooted (frames : FrameId → StackFrame) (f : FrameId) : Prop :=
  f = 0 ∧ (frames f).ancestors = [] ∨
    ∃ parent < f, (frames f).ancestors = parent :: (frames parent).ancestors

/-- `ReadVar` walks from the current frame through older and older ones to the global frame. -/
def Walks (s : State) : Prop :=
  (s.current :: (s.frames s.current).ancestors).Pairwise (· > ·) ∧
    (s.current :: (s.frames s.current).ancestors).getLast? = some 0

/-- No reference of the state dangles. -/
structure Intact (root : Node) (s : State) : Prop where
  stack : ∀ f ∈ s.stack, f < s.nextFrame
  bottom : s.stack.getLast? = some 0
  parents : ∀ f < s.nextFrame, Rooted s.frames f
  vars : ∀ f x p, (s.frames f).vars x = some p → Points root s p
  rets : ∀ f, Points root s (s.frames f).ret
  fields : ∀ r key p, (key, p) ∈ s.records r → Points root s p

/-- What a visit finds: an intact state, its node at its position, and a value. -/
def Event.Placed (root : Node) : Event → Prop
  | .visit v => Intact root v.before ∧ nodeAt root v.position = some v.node ∧
    Points root v.before v.asval
  | _ => True

/-- Nothing that was allocated is gone. -/
structure Grown (s s' : State) : Prop where
  frames : s.nextFrame ≤ s'.nextFrame
  records : s.nextRecord ≤ s'.nextRecord

/-- And the same calls are under way. -/
structure Extended (s s' : State) : Prop extends Grown s s' where
  stack : s'.stack = s.stack

namespace ReferenceLemmas

variable {α β : Type} {root : Node} {s s' s'' : State}

/-! ### References stay -/

theorem grown_refl (s : State) : Grown s s :=
  ⟨Nat.le_refl _, Nat.le_refl _⟩

theorem grown_trans (h : Grown s s') (h' : Grown s' s'') : Grown s s'' :=
  ⟨Nat.le_trans h.frames h'.frames, Nat.le_trans h.records h'.records⟩

theorem extended_refl (s : State) : Extended s s :=
  ⟨grown_refl s, rfl⟩

theorem extended_trans (h : Extended s s') (h' : Extended s' s'') : Extended s s'' :=
  ⟨grown_trans h.toGrown h'.toGrown, h'.stack.trans h.stack⟩

theorem refers_grown {v : Value} (hv : v.Refers root s) (h : Grown s s') : v.Refers root s' := by
  cases v with
  | function f =>
    cases f with
    | closure frame code body arguments => exact ⟨Nat.lt_of_lt_of_le hv.1 h.frames, hv.2⟩
    | native _ => trivial
  | record r => exact Nat.lt_of_lt_of_le hv h.records
  | none | boolean _ | integer _ | string _ => trivial

theorem points_grown {p : Pointer} (hp : Points root s p) (h : Grown s s') : Points root s' p :=
  fun v hv => refers_grown (hp v hv) h

theorem points_null : Points root s none :=
  fun _ h => by cases h

theorem points_value {v : Value} (h : v.Refers root s) : Points root s (some v) :=
  fun _ hv => by cases hv; exact h

theorem refers_function {v : Value} {f : FunctionValue} (hf : v.function? = some f)
    (hv : v.Refers root s) : (Value.function f).Refers root s := by
  cases v with
  | function f =>
    cases hf
    exact hv
  | none | boolean _ | integer _ | string _ | record _ => cases hf

/-! ### What the updates keep -/

/-- A frame is changed, but not its parents. -/
theorem intact_onFrame {f : FrameId} {g : StackFrame → StackFrame} (hs : Intact root s)
    (hparents : (g (s.frames f)).ancestors = (s.frames f).ancestors)
    (hvars : ∀ x p, (g (s.frames f)).vars x = some p → Points root s p)
    (hret : Points root s (g (s.frames f)).ret) : Intact root (s.onFrame f g) := by
  have hsame : ∀ f', ((s.onFrame f g).frames f').ancestors = (s.frames f').ancestors := by
    intro f'
    rw [State.frames_onFrame]
    split
    · next h => rw [h, hparents]
    · rfl
  have hgrown : Grown s (s.onFrame f g) := ⟨Nat.le_refl _, Nat.le_refl _⟩
  refine ⟨hs.stack, hs.bottom, ?_, ?_, ?_, ?_⟩
  · intro f' hf'
    rcases hs.parents f' hf' with ⟨h0, h⟩ | ⟨parent, hlt, h⟩
    · exact .inl ⟨h0, (hsame f').trans h⟩
    · refine .inr ⟨parent, hlt, ?_⟩
      rw [hsame, hsame, h]
  · intro f' x p hp
    rw [State.frames_onFrame] at hp
    split at hp
    · exact points_grown (hvars x p hp) hgrown
    · exact points_grown (hs.vars f' x p hp) hgrown
  · intro f'
    rw [State.frames_onFrame]
    split
    · exact points_grown hret hgrown
    · exact points_grown (hs.rets f') hgrown
  · intro r key p hp
    exact points_grown (hs.fields r key p hp) hgrown

theorem intact_update {f : FrameId} {x : String} {p : Pointer} (hs : Intact root s)
    (hp : Points root s p) : Intact root (s.onFrame f (StackFrame.update x p)) := by
  refine intact_onFrame hs rfl ?_ (hs.rets f)
  intro y q hq
  rw [StackFrame.vars_update] at hq
  split at hq
  · cases hq
    exact hp
  · exact hs.vars f y q hq

theorem intact_updateVar {x : String} {p : Pointer} (hs : Intact root s) (hp : Points root s p) :
    Intact root (s.updateVar x p) := by
  unfold State.updateVar
  split
  · exact intact_update hs hp
  · exact intact_update hs hp

theorem extended_updateVar (x : String) (p : Pointer) : Extended s (s.updateVar x p) := by
  unfold State.updateVar
  split
  · exact ⟨⟨Nat.le_refl _, Nat.le_refl _⟩, rfl⟩
  · exact ⟨⟨Nat.le_refl _, Nat.le_refl _⟩, rfl⟩

theorem intact_setReturn {f : FrameId} {p : Pointer} (hs : Intact root s) (hp : Points root s p) :
    Intact root (s.onFrame f (StackFrame.setReturn p)) :=
  intact_onFrame hs rfl (hs.vars f) hp

theorem mem_insert {key : String} {val : Pointer} {l : List (String × Pointer)}
    {q : String × Pointer} (h : q ∈ State.updateField.insert key val l) :
    q = (key, val) ∨ q ∈ l := by
  induction l with
  | nil => exact .inl (List.mem_singleton.mp h)
  | cons p rest ih =>
    rw [State.updateField.insert] at h
    split at h
    · rcases List.mem_cons.mp h with h | h
      · exact .inl h
      · exact .inr (List.mem_cons_of_mem _ h)
    · rcases List.mem_cons.mp h with h | h
      · exact .inr (h ▸ List.mem_cons_self)
      · exact (ih h).imp_right (List.mem_cons_of_mem _)

theorem intact_updateField {r : RecordId} {key : String} {p : Pointer} (hs : Intact root s)
    (hp : Points root s p) : Intact root (s.updateField r key p) := by
  refine ⟨hs.stack, hs.bottom, hs.parents, hs.vars, hs.rets, ?_⟩
  intro r' k q hq
  rw [State.records_updateField] at hq
  split at hq
  · rcases mem_insert hq with h | hq
    · cases h
      exact hp
    · exact hs.fields r k q hq
  · exact hs.fields r' k q hq

theorem points_readField {r : RecordId} {key : String} (hs : Intact root s) :
    Points root s (s.readField r key) := by
  unfold State.readField
  split
  · next p hp =>
    obtain ⟨l, l', hl, -⟩ := List.lookup_eq_some_iff.mp hp
    refine hs.fields r key p ?_
    rw [hl]
    exact List.mem_append_right _ List.mem_cons_self
  · exact points_value trivial

theorem points_read {f : FrameId} {x : String} (hs : Intact root s) :
    Points root s ((s.frames f).read x) := by
  unfold StackFrame.read
  split
  · cases h : (s.frames f).vars x with
    | none => exact points_null
    | some p => exact hs.vars f x p h
  · exact points_null

theorem points_readVar {x : String} {p : Pointer} (hs : Intact root s)
    (h : s.readVar x = .ok p) : Points root s p := by
  unfold State.readVar at h
  split at h
  · split at h
    · cases h
      exact points_read hs
    · cases h
      exact points_read hs
  · cases h

/-! ### What is found by following -/

theorem current_lt (hs : Intact root s) : s.current < s.nextFrame := by
  cases hstack : s.stack with
  | nil =>
    have hbottom := hs.bottom
    rw [hstack] at hbottom
    cases hbottom
  | cons f rest =>
    refine hs.stack _ ?_
    rw [State.current, hstack]
    exact List.mem_cons_self

theorem rooted_walks (hs : Intact root s) {f : FrameId} (hf : f < s.nextFrame) :
    (f :: (s.frames f).ancestors).Pairwise (· > ·) ∧
      (f :: (s.frames f).ancestors).getLast? = some 0 := by
  induction f using Nat.strongRecOn with
  | ind f ih =>
    rcases hs.parents f hf with ⟨rfl, h⟩ | ⟨parent, hlt, h⟩
    · rw [h]
      exact ⟨List.pairwise_singleton _ _, rfl⟩
    · obtain ⟨hpairwise, hlast⟩ := ih parent hlt (Nat.lt_trans hlt hf)
      rw [h]
      refine ⟨List.pairwise_cons.mpr ⟨?_, hpairwise⟩, hlast⟩
      intro a ha
      rcases List.mem_cons.mp ha with rfl | ha
      · exact hlt
      · exact Nat.lt_trans ((List.pairwise_cons.mp hpairwise).1 a ha) hlt

theorem walks_of_intact (hs : Intact root s) : Walks s :=
  rooted_walks hs (current_lt hs)

/-! ### New frames -/

/-- What `FunctionScanner` leaves of a frame. -/
structure Scanned (frame frame' : StackFrame) : Prop where
  ancestors : frame'.ancestors = frame.ancestors
  ret : frame'.ret = frame.ret
  vars : ∀ x p, frame'.vars x = some p → p = some .none ∨ frame.vars x = some p

theorem scanned_refl (frame : StackFrame) : Scanned frame frame :=
  ⟨rfl, rfl, fun _ _ h => .inr h⟩

theorem scanned_trans {f f' f'' : StackFrame} (h : Scanned f f') (h' : Scanned f' f'') :
    Scanned f f'' :=
  ⟨h'.ancestors.trans h.ancestors, h'.ret.trans h.ret,
    fun x p hp => (h'.vars x p hp).elim .inl (h.vars x p)⟩

theorem scanned_initializeVar (x : String) (frame : StackFrame) :
    Scanned frame (frame.initializeVar x) := by
  refine ⟨rfl, rfl, ?_⟩
  intro y p hp
  rw [StackFrame.initializeVar, StackFrame.vars_update] at hp
  split at hp
  · cases hp
    exact .inl rfl
  · exact .inr hp

mutual
theorem scanned_statement : (st : Statement) → (frame : StackFrame) →
    Scanned frame (scanStatement st frame)
  | .assignment (.name x) _, frame => scanned_initializeVar x frame
  | .assignment (.index _ _) _, frame | .assignment (.field _ _) _, frame
  | .callStatement _ _, frame | .ret _, frame => scanned_refl frame
  | .global _, _ => ⟨rfl, rfl, fun _ _ h => .inr h⟩
  | .ifStatement _ thenBlock elseBlock, frame =>
    scanned_trans (scanned_block thenBlock frame) (scanned_block elseBlock _)
  | .whileLoop _ body, frame => scanned_block body frame

theorem scanned_block : (b : Block) → (frame : StackFrame) → Scanned frame (scanBlock b frame)
  | .nil, frame => scanned_refl frame
  | .cons head tail, frame => scanned_trans (scanned_statement head frame) (scanned_block tail _)
end

/-! ### Visitors that evaluate nothing -/

abbrev Follows (root : Node) (m : M α) (s : State) (good : α → State → Prop) : Prop :=
  Grows (Intact root) Extended (Event.Placed root) m s good

section Operations

variable {m : M α} {f : α → M β} {good : α → State → Prop} {fine : β → State → Prop}

theorem follows_bind (hm : Follows root m s good)
    (hf : ∀ a s', Intact root s' → Extended s s' → good a s' → Follows root (f a) s' fine) :
    Follows root (m >>= f) s fine :=
  grows_bind extended_trans hm hf

theorem follows_pure {a : α} (hs : Intact root s) (h : good a s) :
    Follows root (pure a : M α) s good :=
  grows_pure hs (extended_refl s) h

theorem follows_get (hs : Intact root s) :
    Follows root (Eval.get : M State) s fun a s' => a = s ∧ s' = s :=
  grows_get hs (extended_refl s)

theorem follows_good {good' : α → State → Prop} (h : Follows root m s good)
    (hg : ∀ a s', Intact root s' → Extended s s' → good a s' → good' a s') :
    Follows root m s good' :=
  grows_mono h fun a s' hs' he ha => ⟨he, hg a s' hs' he ha⟩

end Operations

theorem follows_lift {x : Except Stop α} (hs : Intact root s) :
    Follows root (lift x) s fun a s' => x = .ok a ∧ s' = s := by
  cases x with
  | ok a => exact follows_pure hs ⟨rfl, rfl⟩
  | error e => exact grows_stop e hs

theorem follows_toText (p : Pointer) (hs : Intact root s) :
    Follows root (toText p) s fun _ _ => True := by
  refine follows_bind (follows_get hs) ?_
  intro _ s₁ hs₁ _ _
  exact follows_good (follows_lift hs₁) fun _ _ _ _ _ => trivial

/-- A cast gives what the value holds, in the same state. -/
theorem follows_interpCast (cast : Value → Option α) (p : Pointer) (hs : Intact root s) :
    Follows root (interpCast cast p) s
      fun a s' => (∃ v, p = some v ∧ cast v = some a) ∧ s' = s := by
  unfold interpCast
  split
  · next a ha =>
    obtain ⟨v, hv, hcast⟩ := Option.bind_eq_some_iff.mp ha
    exact follows_pure hs ⟨⟨v, hv, hcast⟩, rfl⟩
  · refine follows_bind (follows_toText p hs) ?_
    intro _ s₁ hs₁ _ _
    exact grows_stop _ hs₁

/-- The streams change. -/
theorem intact_streams {input output : List String} (hs : Intact root s) :
    Intact root { s with input, output } :=
  ⟨hs.stack, hs.bottom, hs.parents, hs.vars, hs.rets, hs.fields⟩

theorem follows_callNative (f : Native) (args : List Pointer) (hs : Intact root s) :
    Follows root (callNative f args) s fun p s' => Points root s' p := by
  unfold callNative
  split
  · refine follows_bind (follows_toText _ hs) ?_
    intro t s₁ hs₁ _ _
    refine follows_bind (grows_modify (intact_streams hs₁) ⟨⟨Nat.le_refl _, Nat.le_refl _⟩, rfl⟩) ?_
    intro _ s₂ hs₂ _ _
    exact follows_pure hs₂ (points_value trivial)
  · refine follows_bind (follows_get hs) ?_
    intro s₀ s₁ hs₁ _ _
    refine follows_bind (grows_modify (intact_streams hs₁) ⟨⟨Nat.le_refl _, Nat.le_refl _⟩, rfl⟩) ?_
    intro _ s₂ hs₂ _ _
    exact follows_pure hs₂ (points_value trivial)
  · refine follows_bind (follows_interpCast _ _ hs) ?_
    intro t s₁ hs₁ _ _
    split
    · refine follows_bind (follows_lift hs₁) ?_
      intro i s₂ hs₂ _ _
      exact follows_pure hs₂ (points_value trivial)
    · exact grows_stop _ hs₁
  · exact grows_stop _ hs

theorem follows_visitName (x : String) {asval : Pointer} (hs : Intact root s)
    (ha : Points root s asval) :
    Follows root (visitName x asval) s fun p s' => Points root s' p := by
  unfold visitName
  split
  · refine follows_bind (grows_modify (intact_updateVar hs ha) (extended_updateVar x _)) ?_
    intro _ s₁ hs₁ _ _
    exact follows_pure hs₁ points_null
  · refine follows_bind (follows_get hs) ?_
    rintro _ _ hs₁ - ⟨rfl, rfl⟩
    refine follows_good (follows_lift hs₁) ?_
    rintro p _ hs₂ - ⟨hp, rfl⟩
    exact points_readVar hs₂ hp

theorem follows_accessField (r : RecordId) (key : String) {asval : Pointer} (hs : Intact root s)
    (ha : Points root s asval) :
    Follows root (accessField r key asval) s fun p s' => Points root s' p := by
  unfold accessField
  split
  · refine follows_bind
      (grows_modify (intact_updateField hs ha) ⟨⟨Nat.le_refl _, Nat.le_refl _⟩, rfl⟩) ?_
    intro _ s₁ hs₁ _ _
    exact follows_pure hs₁ points_null
  · refine follows_bind (follows_get hs) ?_
    rintro _ _ hs₁ - ⟨rfl, rfl⟩
    exact follows_pure hs₁ (points_readField hs₁)

/-- The state with a new record. -/
theorem intact_newRecord (hs : Intact root s) : Intact root { s with
    records := Function.update s.records s.nextRecord []
    nextRecord := s.nextRecord + 1 } := by
  have hgrown : Grown s { s with
      records := Function.update s.records s.nextRecord []
      nextRecord := s.nextRecord + 1 } := ⟨Nat.le_refl _, Nat.le_succ _⟩
  refine ⟨hs.stack, hs.bottom, hs.parents, ?_, ?_, ?_⟩
  · intro f x p hp
    exact points_grown (hs.vars f x p hp) hgrown
  · intro f
    exact points_grown (hs.rets f) hgrown
  · intro r key p hp
    dsimp only at hp
    rw [Function.update_apply] at hp
    split at hp
    · cases hp
    · exact points_grown (hs.fields r key p hp) hgrown

/-- The state with the new frame of a call. -/
theorem intact_child {parent : FrameId} {frame : StackFrame} (hs : Intact root s)
    (hparent : parent < s.nextFrame)
    (hframe : Scanned { ancestors := parent :: (s.frames parent).ancestors } frame) :
    Intact root { s with
      frames := Function.update s.frames s.nextFrame frame
      nextFrame := s.nextFrame + 1 } := by
  have hgrown : Grown s { s with
      frames := Function.update s.frames s.nextFrame frame
      nextFrame := s.nextFrame + 1 } := ⟨Nat.le_succ _, Nat.le_refl _⟩
  have hold : ∀ f < s.nextFrame, Function.update s.frames s.nextFrame frame f = s.frames f :=
    fun f hf => Function.update_of_ne (Nat.ne_of_lt hf) _ _
  refine ⟨fun f hf => Nat.lt_succ_of_lt (hs.stack f hf), hs.bottom, ?_, ?_, ?_, ?_⟩
  · intro f hf
    rcases Nat.lt_succ_iff_lt_or_eq.mp hf with hf | rfl
    · rcases hs.parents f hf with ⟨h0, h⟩ | ⟨p, hlt, h⟩
      · refine .inl ⟨h0, ?_⟩
        dsimp only
        rw [hold f hf, h]
      · refine .inr ⟨p, hlt, ?_⟩
        dsimp only
        rw [hold f hf, hold p (Nat.lt_trans hlt hf), h]
    · refine .inr ⟨parent, hparent, ?_⟩
      dsimp only
      rw [Function.update_self, hold parent hparent, hframe.ancestors]
  · intro f x p hp
    dsimp only at hp
    rw [Function.update_apply] at hp
    split at hp
    · rcases hframe.vars x p hp with rfl | h
      · exact points_value trivial
      · cases h
    · exact points_grown (hs.vars f x p hp) hgrown
  · intro f
    dsimp only
    rw [Function.update_apply]
    split
    · rw [hframe.ret]
      exact points_null
    · exact points_grown (hs.rets f) hgrown
  · intro r key p hp
    exact points_grown (hs.fields r key p hp) hgrown

theorem follows_createChild {parent : FrameId} (body : Block) (hs : Intact root s)
    (hparent : parent < s.nextFrame) :
    Follows root (createChild parent body) s fun frame s' => frame < s'.nextFrame := by
  refine follows_bind (follows_get hs) ?_
  rintro s₀ _ hs₁ - ⟨rfl, rfl⟩
  refine follows_bind (grows_modify (intact_child hs₁ hparent (scanned_block body _))
    ⟨⟨Nat.le_succ _, Nat.le_refl _⟩, rfl⟩) ?_
  rintro _ s₂ hs₂ - rfl
  exact follows_pure hs₂ (Nat.lt_succ_self _)

/-! ### Visitors -/

theorem nodeAt_part {pos : Position} {node part : Node} {edge : Edge}
    (hn : nodeAt root pos = some node) (hp : partOf node edge = some part) :
    nodeAt root (edge :: pos) = some part := by
  rw [nodeAt, hn, Option.bind_some, hp]

/-- `exec` follows what it is given. -/
def Sound (root : Node) (exec : Exec) : Prop :=
  ∀ node pos asval s, Intact root s → nodeAt root pos = some node → Points root s asval →
    Follows root (exec node pos asval) s fun p s' => Points root s' p

section Visitors

variable {exec : Exec} (he : Sound root exec)

include he

theorem follows_eval {e : Expression} {pos : Position} (hs : Intact root s)
    (hn : nodeAt root pos = some (nodeOf e)) :
    Follows root (eval exec e pos) s fun p s' => Points root s' p :=
  he _ _ _ _ hs hn points_null

theorem follows_evalOperands (cast : Value → Option α) {left right : Expression} {pos : Position}
    (hs : Intact root s) (hl : nodeAt root (.left :: pos) = some (nodeOf left))
    (hr : nodeAt root (.right :: pos) = some (nodeOf right)) :
    Follows root (evalOperands exec cast left right pos) s fun _ _ => True := by
  refine follows_bind (follows_eval he hs hl) ?_
  intro _ s₁ hs₁ _ _
  refine follows_bind (follows_interpCast _ _ hs₁) ?_
  intro _ s₂ hs₂ _ _
  refine follows_bind (follows_eval he hs₂ hr) ?_
  intro _ s₃ hs₃ _ _
  refine follows_bind (follows_interpCast _ _ hs₃) ?_
  intro _ s₄ hs₄ _ _
  exact follows_pure hs₄ trivial

theorem follows_visitBinaryOp (op : BinOpSym) {left right : Expression} {pos : Position}
    (hs : Intact root s) (hl : nodeAt root (.left :: pos) = some (nodeOf left))
    (hr : nodeAt root (.right :: pos) = some (nodeOf right)) :
    Follows root (visitBinaryOp exec op left right pos) s fun p s' => Points root s' p := by
  have hbool : ∀ func, Follows root (visitBoolOp exec left right pos func) s
      fun p s' => Points root s' p := by
    intro func
    refine follows_bind (follows_evalOperands he _ hs hl hr) ?_
    intro _ s₁ hs₁ _ _
    exact follows_pure hs₁ (points_value trivial)
  have hcompare : ∀ func, Follows root (visitComparison exec left right pos func) s
      fun p s' => Points root s' p := by
    intro func
    refine follows_bind (follows_evalOperands he _ hs hl hr) ?_
    intro _ s₁ hs₁ _ _
    exact follows_pure hs₁ (points_value trivial)
  have hint : ∀ func s, Intact root s → Follows root (visitIntOp exec left right pos func) s
      fun p s' => Points root s' p := by
    intro func s hs
    refine follows_bind (follows_evalOperands he _ hs hl hr) ?_
    intro _ s₁ hs₁ _ _
    refine follows_bind (follows_lift hs₁) ?_
    intro _ s₂ hs₂ _ _
    exact follows_pure hs₂ (points_value trivial)
  unfold visitBinaryOp
  cases op with
  | or | and =>
    dsimp only
    exact hbool _
  | lt | lte | gt | gte =>
    dsimp only
    exact hcompare _
  | minus | mul | div =>
    dsimp only
    exact hint _ s hs
  | eq =>
    refine follows_bind (follows_eval he hs hl) ?_
    intro l s₁ hs₁ _ _
    refine follows_bind (follows_eval he hs₁ hr) ?_
    intro r s₂ hs₂ _ _
    cases l with
    | none => exact grows_stop _ hs₂
    | some v => exact follows_pure hs₂ (points_value trivial)
  | plus =>
    refine follows_bind (follows_eval he hs hl) ?_
    intro l s₁ hs₁ _ _
    refine follows_bind (follows_eval he hs₁ hr) ?_
    intro r s₂ hs₂ _ _
    split
    · refine follows_bind (follows_toText _ hs₂) ?_
      intro _ s₃ hs₃ _ _
      refine follows_bind (follows_toText _ hs₃) ?_
      intro _ s₄ hs₄ _ _
      exact follows_pure hs₄ (points_value trivial)
    · exact hint _ s₂ hs₂

theorem follows_visitUnaryOp (op : UnOpSym) {expr : Expression} {pos : Position}
    (hs : Intact root s) (hn : nodeAt root (.operand :: pos) = some (nodeOf expr)) :
    Follows root (visitUnaryOp exec op expr pos) s fun p s' => Points root s' p := by
  refine follows_bind (follows_eval he hs hn) ?_
  intro val s₁ hs₁ _ _
  cases op with
  | not =>
    refine follows_bind (follows_interpCast _ _ hs₁) ?_
    intro _ s₂ hs₂ _ _
    exact follows_pure hs₂ (points_value trivial)
  | neg =>
    refine follows_bind (follows_interpCast _ _ hs₁) ?_
    intro _ s₂ hs₂ _ _
    exact follows_pure hs₂ (points_value trivial)

theorem follows_evalFields (record : RecordId) (pos : Position) (fields : Fields) (i : Nat)
    {s : State} (hs : Intact root s)
    (hn : ∀ j e, fieldAt fields j = some e →
      nodeAt root (.field (i + j) :: pos) = some (nodeOf e)) :
    Follows root (evalFields exec record pos fields i) s fun _ _ => True := by
  match fields with
  | .nil => exact follows_pure hs trivial
  | .cons key value tail =>
    refine follows_bind (follows_eval he hs (hn 0 value rfl)) ?_
    intro val s₁ hs₁ _ hval
    refine follows_bind (grows_modify (intact_updateField hs₁ hval)
      ⟨⟨Nat.le_refl _, Nat.le_refl _⟩, rfl⟩) ?_
    intro _ s₂ hs₂ _ _
    refine follows_evalFields record pos tail (i + 1) hs₂ ?_
    intro j e hj
    rw [Nat.add_assoc, Nat.add_comm 1]
    exact hn (j + 1) e hj

theorem follows_evalArguments (pos : Position) (arguments : Arguments) (i : Nat)
    {s : State} (hs : Intact root s)
    (hn : ∀ j e, argumentAt arguments j = some e →
      nodeAt root (.argument (i + j) :: pos) = some (nodeOf e)) :
    Follows root (evalArguments exec pos arguments i) s fun _ _ => True := by
  match arguments with
  | .nil => exact follows_pure hs trivial
  | .cons head tail =>
    refine follows_bind (follows_eval he hs (hn 0 head rfl)) ?_
    intro arg s₁ hs₁ _ _
    refine follows_bind (follows_evalArguments pos tail (i + 1) hs₁ ?_) ?_
    · intro j e hj
      rw [Nat.add_assoc, Nat.add_comm 1]
      exact hn (j + 1) e hj
    · intro _ s₂ hs₂ _ _
      exact follows_pure hs₂ trivial

theorem follows_bindArguments (frame : FrameId) (pos : Position) (names : List String)
    (arguments : Arguments) (i : Nat) {s : State} (hs : Intact root s)
    (hn : ∀ j e, argumentAt arguments j = some e →
      nodeAt root (.argument (i + j) :: pos) = some (nodeOf e)) :
    Follows root (bindArguments exec frame pos names arguments i) s fun _ _ => True := by
  match names, arguments with
  | name :: names, .cons head tail =>
    refine follows_bind (follows_eval he hs (hn 0 head rfl)) ?_
    intro arg s₁ hs₁ _ harg
    refine follows_bind (grows_modify (intact_update hs₁ harg)
      ⟨⟨Nat.le_refl _, Nat.le_refl _⟩, rfl⟩) ?_
    intro _ s₂ hs₂ _ _
    refine follows_bindArguments frame pos names tail (i + 1) hs₂ ?_
    intro j e hj
    rw [Nat.add_assoc, Nat.add_comm 1]
    exact hn (j + 1) e hj
  | [], _ => exact follows_pure hs trivial
  | _ :: _, .nil => exact follows_pure hs trivial

/-- The body of a function runs in its frame, which is popped at the end. -/
theorem follows_enter {frame : FrameId} {code : Position} {body : Block} (hs : Intact root s)
    (hframe : frame < s.nextFrame) (hn : nodeAt root code = some (.block body)) :
    Follows root (enter exec frame code body) s fun p s' => Points root s' p := by
  have hcall : Grows (Intact root) Grown (Event.Placed root) (enter exec frame code body) s
      fun p s' => Points root s' p ∧ s'.stack = s.stack := by
    refine grows_bind grown_trans (grows_modify ?_ ⟨Nat.le_refl _, Nat.le_refl _⟩) ?_
    · refine ⟨?_, ?_, hs.parents, hs.vars, hs.rets, hs.fields⟩
      · intro f hf
        rcases List.mem_cons.mp hf with rfl | hf
        · exact hframe
        · exact hs.stack f hf
      · exact (List.getLast?_cons_of_ne_nil (by
          intro h
          have hb := hs.bottom
          rw [h] at hb
          cases hb)).trans hs.bottom
    rintro _ _ hs₁ - rfl
    have hbody := he _ code none _ hs₁ hn points_null
    have hkeeps : Grows (Intact root) Grown (Event.Placed root) (exec (.block body) code none) _
        fun _ s' => s'.stack = frame :: s.stack :=
      grows_mono hbody fun _ _ _ hext _ => ⟨hext.toGrown, hext.stack⟩
    refine grows_bind grown_trans hkeeps ?_
    intro _ s₂ hs₂ _ hstack₂
    refine grows_bind grown_trans (grows_modify ?_ ?_) ?_
    · split
      · exact hs₂
      · exact intact_setReturn hs₂ (points_value trivial)
    · split
      · exact grown_refl _
      · exact ⟨Nat.le_refl _, Nat.le_refl _⟩
    rintro _ s₃ hs₃ - h₃
    have hstack₃ : s₃.stack = frame :: s.stack := by
      rw [h₃]
      split
      · exact hstack₂
      · exact hstack₂
    refine grows_bind grown_trans (grows_modify
      ⟨?_, ?_, hs₃.parents, hs₃.vars, hs₃.rets, hs₃.fields⟩ ⟨Nat.le_refl _, Nat.le_refl _⟩) ?_
    · intro f hf
      exact hs₃.stack f (List.mem_of_mem_tail hf)
    · dsimp only
      rw [hstack₃]
      exact hs.bottom
    rintro _ s₄ hs₄ - h₄
    have hstack₄ : s₄.stack = s.stack := by
      rw [h₄]
      dsimp only
      rw [hstack₃]
      rfl
    refine grows_bind grown_trans (grows_get hs₄ (grown_refl _)) ?_
    rintro _ _ hs₅ - ⟨rfl, rfl⟩
    refine grows_bind grown_trans (grows_mark hs₅ (grown_refl _) trivial) ?_
    rintro _ _ hs₆ - rfl
    exact grows_pure hs₆ (grown_refl _) ⟨hs₆.rets frame, hstack₄⟩
  exact grows_mono hcall fun p s' _ hg hp => ⟨⟨hg, hp.2⟩, hp.1⟩

theorem follows_visitCall {target : LHS} {arguments : Arguments} {pos : Position}
    (hs : Intact root s) (htarget : nodeAt root (.target :: pos) = some (.lhs target))
    (hn : ∀ i e, argumentAt arguments i = some e →
      nodeAt root (.argument i :: pos) = some (nodeOf e)) :
    Follows root (visitCall exec target arguments pos) s fun p s' => Points root s' p := by
  have hargs : ∀ i e, argumentAt arguments i = some e →
      nodeAt root (.argument (0 + i) :: pos) = some (nodeOf e) := by
    intro i e hi
    rw [Nat.zero_add]
    exact hn i e hi
  refine follows_bind (he _ _ _ _ hs htarget points_null) ?_
  intro target s₁ hs₁ _ htarget
  refine follows_bind (follows_interpCast _ _ hs₁) ?_
  rintro func _ hs₂ - ⟨⟨v, rfl, hv⟩, rfl⟩
  split
  · exact grows_stop _ hs₂
  · cases func with
    | native f =>
      dsimp only
      refine follows_bind (follows_evalArguments he pos arguments 0 hs₂ hargs) ?_
      intro args s₃ hs₃ _ _
      exact follows_callNative _ _ hs₃
    | closure parent code body names =>
      dsimp only
      obtain ⟨hparent, pos', rfl, hcode⟩ := refers_function hv (htarget _ rfl)
      refine follows_bind (follows_createChild body hs₂ hparent) ?_
      intro frame s₃ hs₃ _ hframe
      refine follows_bind (follows_bindArguments he frame pos names arguments 0 hs₃ hargs) ?_
      intro _ s₄ hs₄ hext _
      exact follows_enter he hs₄ (Nat.lt_of_lt_of_le hframe hext.frames) (nodeAt_part hcode rfl)

theorem follows_visitLHS {l : LHS} {pos : Position} {asval : Pointer} (hs : Intact root s)
    (hn : ∀ edge part, partOfLHS l edge = some part → nodeAt root (edge :: pos) = some part)
    (ha : Points root s asval) :
    Follows root (visitLHS exec l pos asval) s fun p s' => Points root s' p := by
  cases l with
  | name x => exact follows_visitName x hs ha
  | field base field =>
    refine follows_bind (he _ _ _ _ hs (hn .base _ rfl) points_null) ?_
    intro base s₁ hs₁ hext₁ _
    refine follows_bind (follows_interpCast _ _ hs₁) ?_
    rintro record _ hs₂ - ⟨-, rfl⟩
    exact follows_accessField record field hs₂ (points_grown ha hext₁.toGrown)
  | index base index =>
    refine follows_bind (he _ _ _ _ hs (hn .base _ rfl) points_null) ?_
    intro base s₁ hs₁ hext₁ _
    refine follows_bind (follows_interpCast _ _ hs₁) ?_
    rintro record _ hs₂ - ⟨-, rfl⟩
    refine follows_bind (follows_eval he hs₂ (hn .index _ rfl)) ?_
    intro index s₃ hs₃ hext₃ _
    refine follows_bind (follows_toText index hs₃) ?_
    intro field s₄ hs₄ hext₄ _
    have hext := extended_trans (extended_trans hext₁ hext₃) hext₄
    exact follows_accessField record field hs₄ (points_grown ha hext.toGrown)

theorem follows_visitExpression {e : Expression} {pos : Position} (hs : Intact root s)
    (hn : nodeAt root pos = some (.expression e)) :
    Follows root (visitExpression exec e pos) s fun p s' => Points root s' p := by
  cases e with
  | lhs l =>
    exact follows_visitLHS he hs (fun edge part hp => nodeAt_part hn hp) points_null
  | call target arguments =>
    refine follows_visitCall he hs (nodeAt_part hn rfl) ?_
    intro i e hi
    refine nodeAt_part hn ?_
    rw [partOf, partOfExpression, hi, Option.map_some]
  | function arguments body =>
    refine follows_bind (follows_get hs) ?_
    rintro _ _ hs₁ - ⟨rfl, rfl⟩
    exact follows_pure hs₁ (points_value ⟨current_lt hs₁, pos, rfl, hn⟩)
  | record fields =>
    refine follows_bind (follows_get hs) ?_
    rintro s₀ _ hs₁ - ⟨rfl, rfl⟩
    refine follows_bind (grows_modify (intact_newRecord hs₁)
      ⟨⟨Nat.le_refl _, Nat.le_succ _⟩, rfl⟩) ?_
    rintro _ s₂ hs₂ - h₂
    refine follows_bind (follows_evalFields he _ pos fields 0 hs₂ ?_) ?_
    · intro i e hi
      refine nodeAt_part hn ?_
      rw [Nat.zero_add, partOf, partOfExpression, hi, Option.map_some]
    · intro _ s₃ hs₃ hext₃ _
      refine follows_pure hs₃ (points_value (Nat.lt_of_lt_of_le ?_ hext₃.records))
      rw [h₂]
      exact Nat.lt_succ_self _
  | boolConst _ | strConst _ | intConst _ | nullConst =>
    exact follows_pure hs (points_value trivial)
  | binaryOp op left right =>
    exact follows_visitBinaryOp he op hs (nodeAt_part hn rfl) (nodeAt_part hn rfl)
  | unaryOp op expr => exact follows_visitUnaryOp he op hs (nodeAt_part hn rfl)

theorem follows_evalCond {cond : Expression} {pos : Position} (hs : Intact root s)
    (hn : nodeAt root (.cond :: pos) = some (nodeOf cond)) :
    Follows root (evalCond exec cond pos) s fun _ _ => True := by
  refine follows_bind (follows_eval he hs hn) ?_
  intro p s₁ hs₁ _ _
  exact follows_good (follows_interpCast _ _ hs₁) fun _ _ _ _ _ => trivial

theorem follows_loop {cond : Expression} {body : Block} {pos : Position}
    (hcond : nodeAt root (.cond :: pos) = some (nodeOf cond))
    (hbody : nodeAt root (.loopBody :: pos) = some (.block body)) (rounds : Nat) (b : Bool)
    {s : State} (hs : Intact root s) :
    Follows root (loop exec cond body pos rounds b) s fun p s' => Points root s' p := by
  induction rounds generalizing b s with
  | zero => exact grows_stop _ hs
  | succ rounds ih =>
    refine follows_bind (follows_get hs) ?_
    rintro _ _ hs₁ - ⟨rfl, rfl⟩
    split
    · refine follows_bind (he _ _ _ _ hs₁ hbody points_null) ?_
      intro _ s₂ hs₂ _ _
      refine follows_bind (follows_evalCond he hs₂ hcond) ?_
      intro b' s₃ hs₃ _ _
      exact ih b' hs₃
    · exact follows_pure hs₁ points_null

theorem follows_visitStatement (rounds : Nat) {st : Statement} {pos : Position}
    (hs : Intact root s) (hn : nodeAt root pos = some (.statement st)) :
    Follows root (visitStatement exec rounds st pos) s fun p s' => Points root s' p := by
  cases st with
  | assignment lhs expr =>
    refine follows_bind (follows_eval he hs (nodeAt_part hn rfl)) ?_
    intro asval s₁ hs₁ _ hasval
    exact he _ _ _ _ hs₁ (nodeAt_part hn rfl) hasval
  | callStatement target arguments => exact he _ _ _ _ hs (nodeAt_part hn rfl) points_null
  | global x => exact follows_pure hs points_null
  | ifStatement cond thenBlock elseBlock =>
    refine follows_bind (follows_eval he hs (nodeAt_part hn rfl)) ?_
    intro cond s₁ hs₁ _ _
    refine follows_bind (follows_interpCast _ _ hs₁) ?_
    intro boolean s₂ hs₂ _ _
    split
    · exact he _ _ _ _ hs₂ (nodeAt_part hn rfl) points_null
    · exact he _ _ _ _ hs₂ (nodeAt_part hn rfl) points_null
  | whileLoop cond body =>
    refine follows_bind (follows_evalCond he hs (nodeAt_part hn rfl)) ?_
    intro b s₁ hs₁ _ _
    exact follows_loop he (nodeAt_part hn rfl) (nodeAt_part hn rfl) rounds b hs₁
  | ret expr =>
    refine follows_bind (follows_eval he hs (nodeAt_part hn rfl)) ?_
    intro ret s₁ hs₁ _ hret
    refine follows_bind (follows_get hs₁) ?_
    rintro _ _ hs₂ - ⟨rfl, rfl⟩
    refine follows_bind (grows_modify (intact_setReturn hs₂ hret)
      ⟨⟨Nat.le_refl _, Nat.le_refl _⟩, rfl⟩) ?_
    intro _ s₃ hs₃ _ _
    refine follows_bind (grows_mark hs₃ (extended_refl _) trivial) ?_
    intro _ s₄ hs₄ _ _
    exact follows_pure hs₄ points_null

theorem follows_visitBlock (pos : Position) (b : Block) (i : Nat) {s : State} (hs : Intact root s)
    (hn : ∀ j st, statementAt b j = some st →
      nodeAt root (.statement (i + j) :: pos) = some (.statement st)) :
    Follows root (visitBlock exec pos b i) s fun p s' => Points root s' p := by
  match b with
  | .nil => exact follows_pure hs points_null
  | .cons head tail =>
    refine follows_bind (he _ _ _ _ hs (hn 0 head rfl) points_null) ?_
    intro _ s₁ hs₁ _ _
    refine follows_bind (follows_get hs₁) ?_
    rintro _ _ hs₂ - ⟨rfl, rfl⟩
    split
    · exact follows_pure hs₂ points_null
    · refine follows_visitBlock pos tail (i + 1) hs₂ ?_
      intro j st hj
      rw [Nat.add_assoc, Nat.add_comm 1]
      exact hn (j + 1) st hj

theorem follows_visit (rounds : Nat) {node : Node} {pos : Position} {asval : Pointer}
    (hs : Intact root s) (hn : nodeAt root pos = some node) (ha : Points root s asval) :
    Follows root (visit exec rounds node pos asval) s fun p s' => Points root s' p := by
  cases node with
  | expression e => exact follows_visitExpression he hs hn
  | lhs l => exact follows_visitLHS he hs (fun edge part hp => nodeAt_part hn hp) ha
  | statement st => exact follows_visitStatement he rounds hs hn
  | block b =>
    refine follows_visitBlock he pos b 0 hs ?_
    intro i st hi
    refine nodeAt_part hn ?_
    rw [Nat.zero_add, partOf, hi, Option.map_some]

end Visitors

/-- By induction on the depth of the recursion. -/
theorem sound_exec (root : Node) (fuel : Nat) : Sound root (exec fuel) := by
  induction fuel with
  | zero => exact fun _ _ _ _ hs _ _ => grows_stop _ hs
  | succ fuel ih =>
    intro node pos asval s hs hn ha
    exact grows_record (follows_visit ih fuel hs hn ha) fun _ => ⟨hs, hn, ha⟩

theorem intact_start (root : Node) (input : List String) : Intact root (start input) := by
  refine ⟨?_, rfl, ?_, ?_, ?_, ?_⟩
  · intro f hf
    cases List.mem_singleton.mp hf
    exact Nat.zero_lt_one
  · intro f hf
    cases Nat.lt_one_iff.mp hf
    exact .inl ⟨rfl, rfl⟩
  · intro f x p hp
    simp only [start] at hp
    split at hp
    · simp only [StackFrame.vars_update] at hp
      repeat' split at hp
      all_goals cases hp
      all_goals exact points_value trivial
    · cases hp
  · intro f
    simp only [start]
    split
    · exact points_null
    · exact points_null
  · intro r key p hp
    cases hp

end ReferenceLemmas

open ReferenceLemmas

/-- In a run each visit starts in a state whose references all lead to what exists, with
its node at its position of the program and the global frame at the end of its
walks. A run that ends leaves the global frame, and a value to be followed. -/
theorem references_exist (fuel : Nat) (prog : Program) (input : List String) :
    (∀ v, .visit v ∈ CallTree.eventsAll (trees fuel prog input) →
      Intact (.block prog) v.before ∧ nodeAt (.block prog) v.position = some v.node ∧
        Points (.block prog) v.before v.asval ∧ Walks v.before) ∧
    Intact (.block prog) ((exec fuel (.block prog) [] none).after (start input)) ∧
    ∀ p, run fuel prog input = .ok p →
      ((exec fuel (.block prog) [] none).after (start input)).stack = [0] ∧
      Points (.block prog) ((exec fuel (.block prog) [] none).after (start input)) p := by
  have h := sound_exec (.block prog) fuel (.block prog) [] none (start input)
    (intact_start _ input) rfl points_null
  refine ⟨?_, h.kept, ?_⟩
  · intro v hv
    obtain ⟨hs, hn, ha⟩ := h.events _ hv
    exact ⟨hs, hn, ha, walks_of_intact hs⟩
  · intro p hp
    obtain ⟨hext, hpoints⟩ := h.ends p hp
    exact ⟨hext.stack, hpoints⟩

end Beaverc.BasicInterpreter

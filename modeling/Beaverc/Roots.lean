import Beaverc.Twin
import Beaverc.Steps
import Beaverc.Compiler

/-!
# What a collection must not delete

Two machines run the same program; one collects, the other never does. As long
as every root of the first points to an object, the machines do the same. The
roots cover what the frames hold, but not the closures they execute: loading a
function reads the executing closure (`ClosurePresent`).
-/

namespace Beaverc
open Results CollectedHeap TwinLemmas StepsLemmas

/-- A frame holds no pointer to a deleted object, its closure apart. -/
structure Frame.Held (h : CollectedHeap) (f : Frame) : Prop where
  locals : ∀ v ∈ f.locals, h.Holds v
  references : ∀ r ∈ f.references, h.Present r
  stack : ∀ v ∈ f.stack, h.Holds v

/-- Outcomes of an instruction that began in `w`. -/
inductive OutcomeTwin (w : World) : Outcome → Outcome → Prop
  | next {f : Frame} {w' w₀' : World} {e : Option Event} :
      After w w' w₀' → f.Held w'.heap → OutcomeTwin w (.next f w' e) (.next f w₀' e)
  | call {function : Value} {arguments : List Value} {f : Frame} :
      w.heap.Holds function → (∀ v ∈ arguments, w.heap.Holds v) → f.Held w.heap →
      OutcomeTwin w (.call function arguments f) (.call function arguments f)
  | collect {f : Frame} : f.Held w.heap → OutcomeTwin w (.collect f) (.collect f)
  | ret {v : Value} : w.heap.Holds v → OutcomeTwin w (.ret v) (.ret v)

/-- The closure of a frame is there when the instruction reads it. -/
def ReadsClosure (f : Frame) (h : CollectedHeap) (i : Instruction) : Prop :=
  ∀ k, i = .loadFunc k → 0 ≤ k → h.Present f.closure

namespace RootLemmas

/-- A computation that follows no pointer. -/
def Blind {α : Type} (x : Except Stop α) : Prop :=
  ∀ e, x = .error e → e ≠ .useAfterFree

variable {w w₀ : World} {f : Frame} {α β γ : Type}

theorem blind_bind {x : Except Stop α} {R : β → γ → Prop} {g : α → Except Stop β}
    {g₀ : α → Except Stop γ} (hx : Blind x) (hg : ∀ a, x = .ok a → Agrees R (g a) (g₀ a)) :
    Agrees R (x >>= g) (x >>= g₀) := by
  cases x with
  | error e => exact .error (hx e rfl)
  | ok a => exact hg a rfl

theorem blind_safeIndex (l : List α) (i : Nat) : Blind (safeIndex l i) := by
  intro e he
  unfold safeIndex at he
  split at he
  · cases he
  · cases he; exact nofun

theorem blind_rawIndex (l : List α) (i : Nat) : Blind (rawIndex l i) := by
  intro e he
  unfold rawIndex at he
  split at he
  · cases he
  · cases he; exact nofun

theorem blind_getBoolean (v : Value) : Blind v.getBoolean := by
  intro e he
  cases v <;> cases he <;> exact nofun

/-- An operation on integers and booleans gives one or raises. -/
theorem apply_cases (op : Arithmetic) (left right : Value) :
    (∃ v, op.apply left right = .ok v ∧ v.pointer? = none) ∨
      ∃ x m, op.apply left right = .error (.raised x m) := by
  cases op <;> cases left <;> cases right <;>
    simp only [Arithmetic.apply, Value.getInteger, Value.getBoolean, ok_bind, error_bind, pure_ok]
      <;>
    first
      | exact .inl ⟨_, rfl, rfl⟩
      | exact .inr ⟨_, _, rfl⟩
      | (split
         · first
            | exact .inl ⟨_, rfl, rfl⟩
            | exact .inr ⟨_, _, rfl⟩
         · first
            | exact .inl ⟨_, rfl, rfl⟩
            | exact .inr ⟨_, _, rfl⟩)

theorem Held.mono {h h' : CollectedHeap} (hk : ∀ a, h.Present a → h'.Present a)
    (hf : f.Held h) : f.Held h' :=
  ⟨fun v hv => holds_mono hk (hf.locals v hv), fun r hr => hk r (hf.references r hr),
    fun v hv => holds_mono hk (hf.stack v hv)⟩

theorem Held.advance {h : CollectedHeap} (hf : f.Held h) {stack : List Value}
    (hs : ∀ v ∈ stack, h.Holds v) : (f.advance stack).Held h :=
  ⟨hf.locals, hf.references, hs⟩

theorem push_agrees (h : Twin w w₀) (hf : f.Held w.heap) {v : Value} {stack : List Value}
    (hv : w.heap.Holds v) (hs : ∀ v ∈ stack, w.heap.Holds v) :
    Agrees (OutcomeTwin w) (f.push v stack w) (f.push v stack w₀) :=
  .ok (.next h.after (Held.advance hf (List.forall_mem_cons.mpr ⟨hv, hs⟩)))

theorem load_agrees (h : Twin w w₀) (hf : f.Held w.heap) {a : Action} {stack : List Value}
    (ha : a.Held w.heap) (hs : ∀ v ∈ stack, w.heap.Holds v) :
    Agrees (OutcomeTwin w) (f.load a stack w) (f.load a stack w₀) := by
  refine (perform_agrees h ha).bind fun ⟨v, w'⟩ ⟨v₀, w₀'⟩ ⟨hv, haft, hh⟩ => ?_
  dsimp only at hv haft hh
  subst hv
  exact .ok (.next haft (Held.advance (Held.mono haft.keeps hf)
    (List.forall_mem_cons.mpr ⟨hh, fun v hv => holds_mono haft.keeps (hs v hv)⟩)))

theorem store_agrees (h : Twin w w₀) (hf : f.Held w.heap) {a : Action} {stack : List Value}
    (ha : a.Held w.heap) (hs : ∀ v ∈ stack, w.heap.Holds v) :
    Agrees (OutcomeTwin w) (f.store a stack w) (f.store a stack w₀) := by
  refine (perform_agrees h ha).bind fun ⟨v, w'⟩ ⟨v₀, w₀'⟩ ⟨hv, haft, hh⟩ => ?_
  exact .ok (.next haft (Held.advance (Held.mono haft.keeps hf)
    fun v hv => holds_mono haft.keeps (hs v hv)))

theorem arithmetic_agrees (h : Twin w w₀) (hf : f.Held w.heap) (op : Arithmetic) :
    Agrees (OutcomeTwin w) (f.arithmetic op w) (f.arithmetic op w₀) := by
  unfold Frame.arithmetic
  split
  · next right left stack hst =>
    have hs : ∀ v ∈ stack, w.heap.Holds v := fun v hv => hf.stack v (by rw [hst]; simp [hv])
    rcases apply_cases op left right with ⟨v, hv, hp⟩ | ⟨x, m, hv⟩
    · rw [hv]
      exact push_agrees h hf (holds_of_not_pointer hp) hs
    · rw [hv]
      exact .error nofun
  · exact .error nofun

/-- An operand holds no pointer to a deleted object. -/
theorem Held.top {h : CollectedHeap} (hf : f.Held h) (front : List Value) {v : Value}
    {stack : List Value} (he : f.stack = front ++ v :: stack) : h.Holds v :=
  hf.stack v (by rw [he]; exact List.mem_append_right _ List.mem_cons_self)

/-- Nor does what is under the operands. -/
theorem Held.rest {h : CollectedHeap} (hf : f.Held h) (front : List Value) {stack : List Value}
    (he : f.stack = front ++ stack) : ∀ v ∈ stack, h.Holds v :=
  fun v hv => hf.stack v (by rw [he]; exact List.mem_append_right _ hv)

/-- What an instruction checks before it misses an operand. -/
theorem check_agrees {R : γ → γ → Prop} {x : Except Stop α} {x₀ : Except Stop β}
    {S : α → β → Prop} (h : Agrees S x x₀) :
    Agrees R (x >>= fun _ => insufficentStack) (x₀ >>= fun _ => insufficentStack) :=
  h.bind fun _ _ _ => .error raised_ne_useAfterFree

theorem popMany_agrees {x : Except Stop α} {x₀ : Except Stop β} {S : α → β → Prop}
    (h : Agrees S x x₀) (n : Nat) (stack : List Value) :
    Agrees (fun r r₀ => r₀ = r ∧ r = (stack.take n, stack.drop n)) (Frame.popMany x n stack)
      (Frame.popMany x₀ n stack) := by
  unfold Frame.popMany
  split
  · exact .ok ⟨rfl, List.splitAt_eq⟩
  · exact check_agrees h

/-! An instruction does the same in both worlds. -/

theorem exec_storeLocal_agrees (h : Twin w w₀) (hf : f.Held w.heap) (k : Nat) :
    Agrees (OutcomeTwin w) (f.exec (.storeLocal k) w) (f.exec (.storeLocal k) w₀) := by
  simp only [Frame.exec]
  split
  · next v stack hst =>
    split
    · refine .ok (.next h.after ⟨fun v' hv' => ?_, hf.references, Held.rest hf [v] hst⟩)
      rcases List.mem_or_eq_of_mem_set hv' with hv' | rfl
      · exact hf.locals v' hv'
      · exact Held.top hf [] hst
    · exact .error fun he => by cases he
  · exact .error raised_ne_useAfterFree

theorem exec_storeGlobal_agrees (h : Twin w w₀) (hf : f.Held w.heap) (k : Nat) :
    Agrees (OutcomeTwin w) (f.exec (.storeGlobal k) w) (f.exec (.storeGlobal k) w₀) := by
  refine blind_bind (blind_safeIndex _ _) fun name _ => ?_
  split
  · next v stack hst => exact store_agrees h hf (Held.top hf [] hst) (Held.rest hf [v] hst)
  · exact .error raised_ne_useAfterFree

theorem exec_storeReference_agrees (h : Twin w w₀) (hf : f.Held w.heap) (k : Nat) :
    Agrees (OutcomeTwin w) (f.exec (.storeReference k) w) (f.exec (.storeReference k) w₀) := by
  simp only [Frame.exec]
  split
  · next v stack hst =>
    exact blind_bind (blind_rawIndex _ _) fun r hr => store_agrees h hf
      ⟨hf.references r (List.mem_of_getElem? (rawIndex_ok.mp hr)), Held.top hf [] hst⟩
      (Held.rest hf [v] hst)
  · exact .error raised_ne_useAfterFree

theorem exec_fieldLoad_agrees (h : Twin w w₀) (hf : f.Held w.heap) (k : Nat) :
    Agrees (OutcomeTwin w) (f.exec (.fieldLoad k) w) (f.exec (.fieldLoad k) w₀) := by
  refine blind_bind (blind_safeIndex _ _) fun name _ => ?_
  split
  · next record stack hst =>
    exact load_agrees h hf (Held.top hf [] hst) (Held.rest hf [record] hst)
  · exact .error raised_ne_useAfterFree

theorem exec_fieldStore_agrees (h : Twin w w₀) (hf : f.Held w.heap) (k : Nat) :
    Agrees (OutcomeTwin w) (f.exec (.fieldStore k) w) (f.exec (.fieldStore k) w₀) := by
  refine blind_bind (blind_safeIndex _ _) fun name _ => ?_
  split
  · next v record stack hst =>
    exact store_agrees h hf ⟨Held.top hf [v] hst, Held.top hf [] hst⟩
      (Held.rest hf [v, record] hst)
  · exact .error raised_ne_useAfterFree

theorem exec_indexLoad_agrees (h : Twin w w₀) (hf : f.Held w.heap) :
    Agrees (OutcomeTwin w) (f.exec .indexLoad w) (f.exec .indexLoad w₀) := by
  simp only [Frame.exec]
  split
  · next index record stack hst =>
    exact load_agrees h hf ⟨Held.top hf [index] hst, Held.top hf [] hst⟩
      (Held.rest hf [index, record] hst)
  · next index hst =>
    exact check_agrees (Value.toText_agrees h.heap h.wellFormed (Held.top hf [] hst))
  · exact .error raised_ne_useAfterFree

theorem exec_indexStore_agrees (h : Twin w w₀) (hf : f.Held w.heap) :
    Agrees (OutcomeTwin w) (f.exec .indexStore w) (f.exec .indexStore w₀) := by
  simp only [Frame.exec]
  split
  · next v index record stack hst =>
    exact store_agrees h hf ⟨Held.top hf [v, index] hst, Held.top hf [v] hst, Held.top hf [] hst⟩
      (Held.rest hf [v, index, record] hst)
  · next v index hst =>
    exact check_agrees (Value.toText_agrees h.heap h.wellFormed (Held.top hf [v] hst))
  · exact .error raised_ne_useAfterFree

theorem exec_allocClosure_agrees (h : Twin w w₀) (hf : f.Held w.heap) (n : Nat) :
    Agrees (OutcomeTwin w) (f.exec (.allocClosure n) w) (f.exec (.allocClosure n) w₀) := by
  simp only [Frame.exec]
  split
  · next function stack hst =>
    have hfunction : w.heap.Holds function := Held.top hf [] hst
    have hrest := Held.rest hf [function] hst
    refine (popMany_agrees (allocClosure_agrees h hfunction hrest) n stack).bind ?_
    rintro r _ ⟨rfl, rfl⟩
    exact load_agrees h hf ⟨hfunction, fun v hv => hrest v (List.mem_of_mem_take hv)⟩
      fun v hv => hrest v (List.mem_of_mem_drop hv)
  · exact .error raised_ne_useAfterFree

theorem exec_call_agrees (h : Twin w w₀) (hf : f.Held w.heap) (n : Nat) :
    Agrees (OutcomeTwin w) (f.exec (.call n) w) (f.exec (.call n) w₀) := by
  simp only [Frame.exec]
  split
  · next function stack hst =>
    have hfunction : w.heap.Holds function := Held.top hf [] hst
    have hrest := Held.rest hf [function] hst
    refine (popMany_agrees (getPointer_agrees h Payload.isFunction hfunction) n stack).bind ?_
    rintro r _ ⟨rfl, rfl⟩
    exact .ok (.call hfunction
      (fun v hv => hrest v (List.mem_of_mem_take (List.mem_reverse.mp hv)))
      (Held.advance hf fun v hv => hrest v (List.mem_of_mem_drop hv)))
  · exact .error raised_ne_useAfterFree

theorem exec_add_agrees (h : Twin w w₀) (hf : f.Held w.heap) :
    Agrees (OutcomeTwin w) (f.exec .add w) (f.exec .add w₀) := by
  simp only [Frame.exec]
  split
  · next right left stack hst =>
    exact load_agrees h hf ⟨Held.top hf [right] hst, Held.top hf [] hst⟩
      (Held.rest hf [right, left] hst)
  · exact .error raised_ne_useAfterFree

theorem exec_eq_agrees (h : Twin w w₀) (hf : f.Held w.heap) :
    Agrees (OutcomeTwin w) (f.exec .eq w) (f.exec .eq w₀) := by
  simp only [Frame.exec]
  split
  · next right left stack hst =>
    exact load_agrees h hf ⟨Held.top hf [right] hst, Held.top hf [] hst⟩
      (Held.rest hf [right, left] hst)
  · exact .error raised_ne_useAfterFree

theorem exec_neg_agrees (h : Twin w w₀) (hf : f.Held w.heap) :
    Agrees (OutcomeTwin w) (f.exec .neg w) (f.exec .neg w₀) := by
  simp only [Frame.exec]
  split
  · next v stack hst =>
    cases v with
    | integer k => exact push_agrees h hf (holds_of_not_pointer rfl) (Held.rest hf [_] hst)
    | _ => exact .error raised_ne_useAfterFree
  · exact .error raised_ne_useAfterFree

theorem exec_not_agrees (h : Twin w w₀) (hf : f.Held w.heap) :
    Agrees (OutcomeTwin w) (f.exec .not w) (f.exec .not w₀) := by
  simp only [Frame.exec]
  split
  · next v stack hst =>
    cases v with
    | boolean b => exact push_agrees h hf (holds_of_not_pointer rfl) (Held.rest hf [_] hst)
    | _ => exact .error raised_ne_useAfterFree
  · exact .error raised_ne_useAfterFree

theorem exec_ifTrue_agrees (h : Twin w w₀) (hf : f.Held w.heap) (l : Nat) :
    Agrees (OutcomeTwin w) (f.exec (.ifTrue l) w) (f.exec (.ifTrue l) w₀) := by
  simp only [Frame.exec]
  split
  · next v stack hst =>
    have hs := Held.rest hf [v] hst
    refine blind_bind (blind_getBoolean v) fun b _ => ?_
    split
    · exact .ok (.next h.after ⟨hf.locals, hf.references, hs⟩)
    · exact .ok (.next h.after (Held.advance hf hs))
  · exact .error raised_ne_useAfterFree

theorem exec_dup_agrees (h : Twin w w₀) (hf : f.Held w.heap) :
    Agrees (OutcomeTwin w) (f.exec .dup w) (f.exec .dup w₀) := by
  simp only [Frame.exec]
  split
  · next v stack hst =>
    have hv : w.heap.Holds v := Held.top hf [] hst
    exact .ok (.next h.after (Held.advance hf (List.forall_mem_cons.mpr
      ⟨hv, List.forall_mem_cons.mpr ⟨hv, Held.rest hf [v] hst⟩⟩)))
  · exact .error raised_ne_useAfterFree

theorem exec_swap_agrees (h : Twin w w₀) (hf : f.Held w.heap) :
    Agrees (OutcomeTwin w) (f.exec .swap w) (f.exec .swap w₀) := by
  simp only [Frame.exec]
  split
  · next v₁ v₂ stack hst =>
    exact .ok (.next h.after (Held.advance hf (List.forall_mem_cons.mpr
      ⟨Held.top hf [v₁] hst, List.forall_mem_cons.mpr
        ⟨Held.top hf [] hst, Held.rest hf [v₁, v₂] hst⟩⟩)))
  · exact .error raised_ne_useAfterFree

theorem exec_pop_agrees (h : Twin w w₀) (hf : f.Held w.heap) :
    Agrees (OutcomeTwin w) (f.exec .pop w) (f.exec .pop w₀) := by
  simp only [Frame.exec]
  split
  · next v stack hst => exact .ok (.next h.after (Held.advance hf (Held.rest hf [v] hst)))
  · exact .error raised_ne_useAfterFree

theorem exec_ret_agrees (hf : f.Held w.heap) :
    Agrees (OutcomeTwin w) (f.exec .ret w) (f.exec .ret w₀) := by
  simp only [Frame.exec]
  split
  · next v stack hst => exact .ok (.ret (Held.top hf [] hst))
  · exact .error raised_ne_useAfterFree

theorem exec_agrees (h : Twin w w₀) (hf : f.Held w.heap) {i : Instruction}
    (hi : ReadsClosure f w.heap i) :
    Agrees (OutcomeTwin w) (f.exec i w) (f.exec i w₀) := by
  cases i with
  | loadConst k =>
    -- no constant is a pointer
    refine blind_bind (blind_safeIndex _ _) fun c _ => push_agrees h hf ?_ hf.stack
    cases c <;> exact holds_of_not_pointer rfl
  -- the only instruction that reads the closure it runs
  | loadFunc k => exact load_agrees h hf (fun hk => hi k rfl hk) hf.stack
  | loadLocal k =>
    exact blind_bind (blind_rawIndex _ _) fun v hv =>
      push_agrees h hf (hf.locals v (List.mem_of_getElem? (rawIndex_ok.mp hv))) hf.stack
  | storeLocal k => exact exec_storeLocal_agrees h hf k
  | loadGlobal k =>
    exact blind_bind (blind_safeIndex _ _) fun name _ => load_agrees h hf trivial hf.stack
  | storeGlobal k => exact exec_storeGlobal_agrees h hf k
  | pushReference k =>
    exact blind_bind (blind_rawIndex _ _) fun r hr => push_agrees h hf
      (holds_pointer (hf.references r (List.mem_of_getElem? (rawIndex_ok.mp hr)))) hf.stack
  | loadReference k =>
    exact blind_bind (blind_rawIndex _ _) fun r hr => load_agrees h hf
      (hf.references r (List.mem_of_getElem? (rawIndex_ok.mp hr))) hf.stack
  | storeReference k => exact exec_storeReference_agrees h hf k
  | allocRecord => exact load_agrees h hf trivial hf.stack
  | fieldLoad k => exact exec_fieldLoad_agrees h hf k
  | fieldStore k => exact exec_fieldStore_agrees h hf k
  | indexLoad => exact exec_indexLoad_agrees h hf
  | indexStore => exact exec_indexStore_agrees h hf
  | allocClosure n => exact exec_allocClosure_agrees h hf n
  | call n => exact exec_call_agrees h hf n
  | ret => exact exec_ret_agrees hf
  | add => exact exec_add_agrees h hf
  | eq => exact exec_eq_agrees h hf
  | sub => exact arithmetic_agrees h hf .sub
  | mul => exact arithmetic_agrees h hf .mul
  | div => exact arithmetic_agrees h hf .div
  | gt => exact arithmetic_agrees h hf .gt
  | geq => exact arithmetic_agrees h hf .geq
  | and => exact arithmetic_agrees h hf .and
  | or => exact arithmetic_agrees h hf .or
  | neg => exact exec_neg_agrees h hf
  | not => exact exec_not_agrees h hf
  | goto l => exact .ok (.next h.after ⟨hf.locals, hf.references, hf.stack⟩)
  | ifTrue l => exact exec_ifTrue_agrees h hf l
  | dup => exact exec_dup_agrees h hf
  | swap => exact exec_swap_agrees h hf
  | pop => exact exec_pop_agrees h hf
  | garbageCollect => exact .ok (.collect (Held.advance hf hf.stack))
  | label l => exact .ok (.next h.after (Held.advance hf hf.stack))
  | throwUninitialized k =>
    exact blind_bind (blind_rawIndex _ _) fun name _ => .error raised_ne_useAfterFree

/-! Calls. -/

/-- A new frame or a value, and the worlds after the call began in `w`. -/
inductive EnteredTwin (w : World) : Entered → Entered → Prop
  | frame {f : Frame} {w' w₀' : World} :
      After w w' w₀' → f.Held w'.heap → EnteredTwin w (.frame f w') (.frame f w₀')
  | value {v : Value} {w' w₀' : World} :
      After w w' w₀' → w'.heap.Holds v → EnteredTwin w (.value v w') (.value v w₀')

theorem callBuiltIn_agrees (h : Twin w w₀) (type : Nat) {arguments : List Value}
    (ha : ∀ v ∈ arguments, w.heap.Holds v) :
    Agrees (SameResult w) (callBuiltIn type arguments w) (callBuiltIn type arguments w₀) := by
  unfold callBuiltIn
  split
  · next v =>
    refine (Value.toText_agrees h.heap h.wellFormed (ha v (by simp))).bind fun text _ ht => ?_
    subst ht
    refine .ok ⟨rfl, ⟨⟨h.heap, h.wellFormed, h.mainClosure, h.globals, h.input, ?_, h.main,
      h.held⟩, fun _ hx => hx⟩, holds_of_not_pointer rfl⟩
    simp only [h.output]
  · exact .error nofun
  · obtain ⟨hadr, haft, hpres⟩ := h.allocate (p := .string (w.input.headD "")) nofun
    dsimp only
    rw [h.input]
    exact .ok ⟨congrArg Value.stringValue hadr,
      ⟨⟨haft.heap, haft.wellFormed, haft.mainClosure, haft.globals, rfl, haft.output, haft.main,
        haft.held⟩, haft.keeps⟩, holds_stringValue hpres⟩
  · exact .error nofun
  · next v =>
    split
    · refine (Value.toText_agrees h.heap h.wellFormed (ha v (by simp))).bind fun text _ ht => ?_
      subst ht
      exact .ok ⟨rfl, h.after, holds_of_not_pointer rfl⟩
    · exact .error nofun
  · exact .error nofun
  · exact .error nofun

theorem allocateBoxes_agrees (n : Nat) (h : Twin w w₀) :
    (allocateBoxes n w₀).1 = (allocateBoxes n w).1 ∧
      After w (allocateBoxes n w).2 (allocateBoxes n w₀).2 ∧
      ∀ r ∈ (allocateBoxes n w).1, (allocateBoxes n w).2.heap.Present r := by
  induction n generalizing w w₀ with
  | zero => exact ⟨rfl, h.after, nofun⟩
  | succ n ih =>
    obtain ⟨ha, haft, hpres⟩ := h.allocate (p := .reference .none) nofun
    obtain ⟨hb, haft', hpres'⟩ := ih haft.toTwin
    simp only [allocateBoxes]
    refine ⟨by rw [ha, hb], haft.trans haft', fun r hr => ?_⟩
    rcases List.mem_cons.mp hr with rfl | hr
    · exact haft'.keeps _ hpres
    · exact hpres' r hr

theorem storeArguments_agrees (f : Function) {references : List Addr} {i : Nat}
    (arguments : List Value) {locals : List Value} (h : Twin w w₀)
    (hr : ∀ r ∈ references, w.heap.Present r) (ha : ∀ v ∈ arguments, w.heap.Holds v)
    (hl : ∀ v ∈ locals, w.heap.Holds v) :
    Agrees (fun r r₀ => r₀.1 = r.1 ∧ After w r.2 r₀.2 ∧ ∀ v ∈ r.1, r.2.heap.Holds v)
      (storeArguments f references i arguments locals w)
      (storeArguments f references i arguments locals w₀) := by
  induction arguments generalizing w w₀ locals i with
  | nil => exact .ok ⟨rfl, h.after, hl⟩
  | cons v rest ih =>
    have hv := ha v (List.mem_cons_self ..)
    have hrest : ∀ v ∈ rest, w.heap.Holds v := fun v hv => ha v (List.mem_cons_of_mem _ hv)
    unfold storeArguments
    refine blind_bind (blind_rawIndex _ _) fun box _ => ?_
    split
    · split
      · refine ih h hr hrest fun v' hv' => ?_
        rcases List.mem_or_eq_of_mem_set hv' with hv' | rfl
        · exact hl v' hv'
        · exact hv
      · exact .error nofun
    · refine blind_bind (blind_rawIndex _ _) fun r hr' => ?_
      refine (referenceWrite_agrees h.heap h.wellFormed
        (hr r (List.mem_of_getElem? (rawIndex_ok.mp hr'))) hv).bind fun heap heap₀ hb => ?_
      have haft := h.became hb
      exact (ih haft.toTwin (fun r hr' => haft.keeps r (hr r hr'))
        (fun v hv' => holds_mono haft.keeps (hrest v hv'))
        fun v hv' => holds_mono haft.keeps (hl v hv')).mono
          fun _ _ ⟨he, ht, hh⟩ => ⟨he, haft.trans ht, hh⟩

theorem blind_mapM {l : List α} {g : α → Except Stop β} (hg : ∀ a, Blind (g a)) :
    Blind (l.mapM g) := by
  induction l with
  | nil => exact nofun
  | cons a l ih =>
    intro e he
    rw [List.mapM_cons] at he
    cases ha : g a with
    | error e' => rw [ha] at he; cases he; exact hg a e ha
    | ok b =>
      rw [ha] at he
      cases hl : l.mapM g with
      | error e' =>
        rw [ok_bind, hl] at he
        cases he
        exact ih e hl
      | ok bs => rw [ok_bind, hl] at he; cases he

theorem mem_mapM {l : List α} {g : α → Except Stop β} {bs : List β} (h : l.mapM g = .ok bs)
    {b : β} (hb : b ∈ bs) : ∃ a ∈ l, g a = .ok b := by
  induction l generalizing bs with
  | nil => cases h; cases hb
  | cons a l ih =>
    rw [List.mapM_cons] at h
    obtain ⟨b', hb', h⟩ := bind_ok.mp h
    obtain ⟨bs', hbs', h⟩ := bind_ok.mp h
    cases h
    rcases List.mem_cons.mp hb with rfl | hb
    · exact ⟨a, List.mem_cons_self .., hb'⟩
    · obtain ⟨a', ha', hg⟩ := ih hbs' hb
      exact ⟨a', List.mem_cons_of_mem _ ha', hg⟩

theorem enterClosure_agrees (h : Twin w w₀) (closure : Addr) (f : Function)
    {captured : List Addr} {arguments : List Value} (hc : ∀ r ∈ captured, w.heap.Present r)
    (ha : ∀ v ∈ arguments, w.heap.Holds v) :
    Agrees (fun r r₀ => r₀.1 = r.1 ∧ After w r.2 r₀.2 ∧ r.1.Held r.2.heap)
      (enterClosure closure f captured arguments w)
      (enterClosure closure f captured arguments w₀) := by
  unfold enterClosure
  split
  · exact .error nofun
  · obtain ⟨hb, haft, hpres⟩ := allocateBoxes_agrees f.localReferenceVars.length h
    dsimp only
    rw [hb]
    refine blind_bind (blind_mapM fun i => blind_rawIndex _ _) fun free hfree => ?_
    have hrefs : ∀ r ∈ (allocateBoxes f.localReferenceVars.length w).1 ++ free,
        (allocateBoxes f.localReferenceVars.length w).2.heap.Present r := by
      intro r hr
      rcases List.mem_append.mp hr with hr | hr
      · exact hpres r hr
      · obtain ⟨i, -, hi⟩ := mem_mapM hfree hr
        exact haft.keeps r (hc r (List.mem_of_getElem? (rawIndex_ok.mp hi)))
    refine (storeArguments_agrees f arguments haft.toTwin hrefs
      (fun v hv => holds_mono haft.keeps (ha v hv)) fun v hv => ?_).bind
      fun ⟨locals, w₁⟩ ⟨locals₀, w₁'⟩ ⟨hl, haft₁, hh⟩ => ?_
    · rw [(List.mem_replicate.mp hv).2]
      exact holds_of_not_pointer rfl
    · dsimp only at hl haft₁ hh
      subst hl
      exact .ok ⟨rfl, haft.trans haft₁, hh, fun r hr => haft₁.keeps r (hrefs r hr), nofun⟩

theorem enter_agrees (h : Twin w w₀) {function : Value} {arguments : List Value}
    (hf : w.heap.Holds function) (ha : ∀ v ∈ arguments, w.heap.Holds v) :
    Agrees (EnteredTwin w) (enter function arguments w) (enter function arguments w₀) := by
  unfold enter
  refine (getPointer_agrees h Payload.isFunction hf).bind fun a _ ⟨he, hpa⟩ => ?_
  subst he
  refine (deref_agrees h.heap hpa).bind fun o o₀ ⟨ho, _, hpay⟩ => ?_
  rw [hpay]
  split
  · next g captured hp =>
    refine (enterClosure_agrees h _ g (fun r hr => children_present h.wellFormed ho ?_) ha).bind
      fun ⟨frame, w₁⟩ ⟨frame₀, w₁'⟩ ⟨hfr, haft, hheld⟩ => ?_
    · rw [hp]
      exact hr
    · dsimp only at hfr haft hheld
      subst hfr
      exact .ok (.frame haft hheld)
  · refine (callBuiltIn_agrees h _ ha).bind fun ⟨v, w₁⟩ ⟨v₀, w₁'⟩ ⟨hv, haft, hheld⟩ => ?_
    dsimp only at hv haft hheld
    subst hv
    exact .ok (.value haft hheld)
  · exact .error nofun

end RootLemmas

/-! ## Machines -/

open RootLemmas

/-- Machines with the same frames, whose worlds differ in deleted objects that
no root of the first points to. -/
structure MachineTwin (m m₀ : Machine) : Prop where
  frames : m₀.frames = m.frames
  world : Twin m.world m₀.world
  held : ∀ f ∈ m.frames, f.Held m.world.heap

inductive ProgressTwin : Progress → Progress → Prop
  | running {m m₀ : Machine} : MachineTwin m m₀ → ProgressTwin (.running m) (.running m₀)
  | finished {v : Value} {w w₀ : World} :
      Twin w w₀ → ProgressTwin (.finished v w) (.finished v w₀)

/-- If the machine is about to load a function of the program, the closure it
executes has not been deleted. -/
def ClosurePresent (m : Machine) : Prop :=
  match m.frames with
  | [] => True
  | f :: _ =>
    match f.function.instructions[f.ip]? with
    | some (.loadFunc (.ofNat _)) => m.world.heap.Present f.closure
    | _ => True

/-- The counter of collections does not wrap in a step that collects. -/
def CounterFits (collect : Bool) (m : Machine) : Prop :=
  collect = true → m.world.heap.generation.toNat + 1 < UInt32.size

namespace RootLemmas

variable {m m₀ : Machine}

theorem mem_pointersIn {values : List Value} {a : Addr} :
    a ∈ pointersIn values ↔ ∃ v ∈ values, v.pointer? = some a :=
  List.mem_filterMap

/-- Every root points to an object. -/
theorem roots_present (h : MachineTwin m m₀) {a : Addr} (ha : a ∈ m.roots) :
    m.world.heap.Present a := by
  unfold Machine.roots at ha
  simp only [List.mem_append, List.mem_cons, List.mem_flatMap, List.mem_reverse,
    mem_pointersIn] at ha
  rcases ha with ((((rfl | ⟨f, hf, v, hv, hp⟩) | ⟨f, hf, hr⟩) | ⟨f, hf, v, hv, hp⟩) |
    ⟨v, hv, hp⟩)
  · exact h.world.main
  · exact (h.held f hf).locals v hv a hp
  · exact (h.held f hf).references a hr
  · exact (h.held f hf).stack v hv a hp
  · obtain ⟨p, hpm, rfl⟩ := List.mem_map.mp hv
    exact h.world.held p hpm a hp

/-- What is rooted survives the collection. -/
theorem collect_agrees (h : MachineTwin m m₀)
    (hg : m.world.heap.generation.toNat + 1 < UInt32.size) :
    ∃ heap deleted, m.world.heap.gcFull m.roots = .ok (heap, deleted) ∧
      MachineTwin { m with world := { m.world with heap := heap } } m₀ := by
  have hr : ∀ a ∈ m.roots, m.world.heap.Present a := fun a ha => roots_present h ha
  obtain ⟨heap, deleted, he, -, -, -, hlisted, hpresent, hpayload⟩ :=
    gcFull_exact h.world.wellFormed hg hr
  obtain ⟨hw, marks, hc⟩ := gcFull_wellFormed h.world.wellFormed hg hr he
  have hroot : ∀ a ∈ m.roots, heap.Present a := fun a ha =>
    (hpresent a).mpr ((hlisted a).mpr ⟨hr a ha, a, ha, .refl⟩)
  have hheld : ∀ v, (∀ a, v.pointer? = some a → a ∈ m.roots) → heap.Holds v :=
    fun v hv a ha => hroot a (hv a ha)
  have hbelow : heap.Below m₀.world.heap := by
    refine ⟨h.world.heap.options.trans hc.options.symm, h.world.heap.next.trans hc.next.symm,
      fun a o ho => ?_⟩
    have hp : heap.Present a := by
      unfold Present
      rw [ho]
      rfl
    have hpay := hpayload a ((hpresent a).mp hp)
    unfold payloadAt at hpay
    rw [ho, Option.map_some] at hpay
    obtain ⟨o', ho', hpo⟩ := Option.map_eq_some_iff.mp hpay.symm
    obtain ⟨o₀, ho₀, hp₀⟩ := h.world.heap.payload a o' ho'
    exact ⟨o₀, ho₀, hp₀.trans hpo⟩
  have hmem := fun (f : Frame) (hf : f ∈ m.frames) => List.mem_reverse.mpr hf
  refine ⟨heap, deleted, he, h.frames, ⟨hbelow, hw, h.world.mainClosure, h.world.globals,
    h.world.input, h.world.output, ?_, fun p hp => hheld p.2 fun a ha => ?_⟩, fun f hf => ?_⟩
  · exact hroot _ (by simp [Machine.roots])
  · simp only [Machine.roots, List.mem_append, mem_pointersIn]
    exact .inr ⟨p.2, List.mem_map_of_mem hp, ha⟩
  · refine ⟨fun v hv => hheld v fun a ha => ?_, fun r hr => hroot r ?_,
      fun v hv => hheld v fun a ha => ?_⟩
    · simp only [Machine.roots, List.mem_append, List.mem_cons, List.mem_flatMap, mem_pointersIn]
      exact .inl (.inl (.inl (.inr ⟨f, hmem f hf, v, hv, ha⟩)))
    · simp only [Machine.roots, List.mem_append, List.mem_cons, List.mem_flatMap, mem_pointersIn]
      exact .inl (.inl (.inr ⟨f, hmem f hf, hr⟩))
    · simp only [Machine.roots, List.mem_append, List.mem_cons, List.mem_flatMap, mem_pointersIn]
      exact .inl (.inr ⟨f, hmem f hf, v, hv, ha⟩)

theorem resume_agrees {w w₀ : World} {v : Value} {callers : List Frame} (h : Twin w w₀)
    (hv : w.heap.Holds v) (hf : ∀ f ∈ callers, f.Held w.heap) :
    ProgressTwin (resume v callers w) (resume v callers w₀) := by
  unfold resume
  cases callers with
  | nil => exact .finished h
  | cons f rest =>
    have hheld := hf f (List.mem_cons_self ..)
    refine .running ⟨rfl, h, List.forall_mem_cons.mpr ⟨⟨hheld.locals, hheld.references,
      List.forall_mem_cons.mpr ⟨hv, hheld.stack⟩⟩, fun f hf' => ?_⟩⟩
    exact hf f (List.mem_cons_of_mem _ hf')

end RootLemmas

/-- A step of a machine that may collect agrees with the step of one that does
not. -/
theorem Machine.step_agrees {m m₀ : Machine} (h : MachineTwin m m₀) {collect : Bool}
    (hc : ClosurePresent m) (hg : CounterFits collect m) :
    Agrees ProgressTwin (m.step collect) (m₀.step false) := by
  unfold Machine.step
  rw [h.frames]
  cases hfr : m.frames with
  | nil => exact .error nofun
  | cons f callers =>
    have hheld := h.held
    rw [hfr] at hheld
    obtain ⟨hf, hcallers⟩ := List.forall_mem_cons.mp hheld
    dsimp only
    cases hi : f.function.instructions[f.ip]? with
    | none =>
      exact .ok (resume_agrees h.world (holds_of_not_pointer (v := .none) rfl) hcallers)
    | some i =>
      have hreads : ReadsClosure f m.world.heap i := by
        rintro k rfl hk
        unfold ClosurePresent at hc
        rw [hfr] at hc
        simp only [hi] at hc
        cases k with
        | ofNat n => exact hc
        | negSucc n => exact absurd hk (by simp)
      refine (exec_agrees h.world hf hreads).bind fun o o₀ ho => ?_
      cases ho with
      | next haft hf' =>
        exact .ok (.running ⟨rfl, haft.toTwin, List.forall_mem_cons.mpr ⟨hf', fun f hf =>
          Held.mono haft.keeps (hcallers f hf)⟩⟩)
      | ret hv => exact .ok (resume_agrees h.world hv hcallers)
      | call hg ha hf' =>
        refine (enter_agrees h.world hg ha).bind fun e e₀ he => ?_
        cases he with
        | frame haft hnew =>
          exact .ok (.running ⟨rfl, haft.toTwin, List.forall_mem_cons.mpr ⟨hnew,
            List.forall_mem_cons.mpr ⟨Held.mono haft.keeps hf', fun f hf =>
              Held.mono haft.keeps (hcallers f hf)⟩⟩⟩)
        | value haft hv =>
          exact .ok (resume_agrees haft.toTwin hv (List.forall_mem_cons.mpr
            ⟨Held.mono haft.keeps hf', fun f hf => Held.mono haft.keeps (hcallers f hf)⟩))
      | @collect f' hf' =>
        have hnext : MachineTwin ⟨f' :: callers, m.world⟩ ⟨f' :: callers, m₀.world⟩ :=
          ⟨rfl, h.world, List.forall_mem_cons.mpr ⟨hf', hcallers⟩⟩
        cases collect with
        | false => exact .ok (.running hnext)
        | true =>
          obtain ⟨heap, deleted, he, htwin⟩ := collect_agrees hnext (hg rfl)
          simp only [if_true, he, ok_bind, Bool.false_eq_true, if_false]
          exact .ok (.running htwin)

/-! ## Runs -/

/-- The machine after the steps whose choices are listed, or how it stopped. -/
def Machine.run : List Bool → Machine → Except Stop Progress
  | [], m => .ok (.running m)
  | collect :: rest, m => do
    match ← m.step collect with
    | .running m => Machine.run rest m
    | p => .ok p

/-- `P` holds before each of the listed steps. -/
def Machine.Along (P : Bool → Machine → Prop) : List Bool → Machine → Prop
  | [], _ => True
  | collect :: rest, m => P collect m ∧
    match m.step collect with
    | .ok (.running m) => Machine.Along P rest m
    | _ => True

instance (collect : Bool) (m : Machine) : Decidable (CounterFits collect m) :=
  inferInstanceAs (Decidable (_ → _))

instance Machine.decidableAlong (P : Bool → Machine → Prop) [∀ c m, Decidable (P c m)] :
    (choices : List Bool) → (m : Machine) → Decidable (Machine.Along P choices m)
  | [], _ => .isTrue trivial
  | collect :: rest, m =>
    @instDecidableAnd _ _ _
      (match (motive := (x : Except Stop Progress) →
          Decidable (match x with
            | .ok (.running m) => Machine.Along P rest m
            | _ => True)) m.step collect with
        | .ok (.running m) => Machine.decidableAlong P rest m
        | .ok (.finished _ _) => .isTrue trivial
        | .error _ => .isTrue trivial)

/-- What the outside sees: the output, and the result once there is one. -/
def Progress.observe : Progress → Option Value × List String
  | .running m => (none, m.world.output)
  | .finished v w => (some v, w.output)

/-- The run accesses no deleted object, and shows what it would show if no
collection had run. -/
def Invisible (choices : List Bool) (m : Machine) : Prop :=
  m.run choices ≠ .error .useAfterFree ∧
    (m.run choices).map Progress.observe =
      (m.run (choices.map fun _ => false)).map Progress.observe

namespace RootLemmas

theorem run_agrees {choices : List Bool} {m m₀ : Machine} (h : MachineTwin m m₀)
    (hc : Machine.Along (fun _ => ClosurePresent) choices m)
    (hg : Machine.Along CounterFits choices m) :
    Agrees ProgressTwin (m.run choices) (m₀.run (choices.map fun _ => false)) := by
  induction choices generalizing m m₀ with
  | nil => exact .ok (.running h)
  | cons collect rest ih =>
    obtain ⟨hc₁, hc₂⟩ := hc
    obtain ⟨hg₁, hg₂⟩ := hg
    have hstep := Machine.step_agrees h hc₁ hg₁
    simp only [Machine.run, List.map_cons]
    generalize m.step collect = x at hstep hc₂ hg₂
    generalize m₀.step false = y at hstep
    cases hstep with
    | error he => exact .error he
    | ok hp =>
      cases hp with
      | running htwin => exact ih htwin hc₂ hg₂
      | finished htwin => exact .ok (.finished htwin)

theorem step_absent {m : Machine} (collect : Bool) (h : ¬ ClosurePresent m) :
    m.step collect = .error .useAfterFree := by
  unfold ClosurePresent at h
  split at h
  · exact absurd trivial h
  · next f callers hfr =>
    split at h
    · next n hi =>
      have hnone : m.world.heap.store f.closure = none := by
        unfold Present at h
        simpa using h
      unfold Machine.step
      simp only [hfr, hi, Frame.exec, Frame.load, perform, World.allocateFunction, deref, hnone,
        error_bind]
    · exact absurd trivial h

theorem along_of_run {choices : List Bool} {m : Machine}
    (h : m.run choices ≠ .error .useAfterFree) :
    Machine.Along (fun _ => ClosurePresent) choices m := by
  induction choices generalizing m with
  | nil => trivial
  | cons collect rest ih =>
    refine ⟨?_, ?_⟩
    · refine Classical.byContradiction fun hc => h ?_
      simp only [Machine.run, step_absent collect hc, error_bind]
    · split
      · next m' hs =>
        refine ih ?_
        simpa only [Machine.run, hs, ok_bind] using h
      · trivial

/-- A machine that has just been started is its own twin. -/
theorem start_twin {options : HeapOptions} {input : List String} {main : Function} {m : Machine}
    (h : Machine.start options input main = .ok m) : MachineTwin m m := by
  have hempty : (empty options).Below (empty options) :=
    ⟨rfl, rfl, fun a o ho => ⟨o, ho, rfl⟩⟩
  obtain ⟨-, hb, hpres⟩ := allocate_became (p := .closure main []) hempty
    (WellFormed.empty options) nofun
  have hself : ∀ {w : World}, w.heap.WellFormed → w.heap.Present w.mainClosure →
      (∀ p ∈ w.globals, w.heap.Holds p.2) → Twin w w := fun hw hm hg =>
    ⟨⟨rfl, rfl, fun a o ho => ⟨o, ho, rfl⟩⟩, hw, rfl, rfl, rfl, rfl, hm, hg⟩
  unfold Machine.start at h
  obtain ⟨⟨frame, w⟩, he, h⟩ := bind_ok.mp h
  cases h
  let w₀ : World := ⟨((empty options).allocate (.closure main [])).2,
    ((empty options).allocate (.closure main [])).1, [], input, []⟩
  have hag := @enterClosure_agrees w₀ w₀ (hself hb.wellFormed hpres nofun)
    w₀.mainClosure main [] [] nofun nofun
  have he' : enterClosure w₀.mainClosure main [] [] w₀ = .ok (frame, w) := he
  rw [he'] at hag
  cases hag with
  | ok hr =>
    obtain ⟨-, haft, hheld⟩ := hr
    exact ⟨rfl, haft.toTwin, fun f hf => by rw [List.mem_singleton.mp hf]; exact hheld⟩

end RootLemmas

/-- Collections are invisible to a run, whichever of them happen and as long as
their counter does not wrap, exactly if no function of the program is loaded by
a frame whose closure has been deleted. -/
theorem collections_invisible_iff (prog : Program) (options : HeapOptions) (input : List String)
    (m : Machine) (hm : Machine.start options input (compile prog) = .ok m)
    (choices : List Bool) (hg : Machine.Along CounterFits choices m) :
    Invisible choices m ↔ Machine.Along (fun _ => ClosurePresent) choices m := by
  refine ⟨fun h => along_of_run h.1, fun hc => ?_⟩
  have hrun := run_agrees (start_twin hm) hc hg
  unfold Invisible
  generalize m.run choices = x at hrun
  generalize m.run (choices.map fun _ => false) = y at hrun
  cases hrun with
  | error he => exact ⟨fun hx => he (Except.error.inj hx), rfl⟩
  | ok hp =>
    refine ⟨nofun, ?_⟩
    cases hp with
    | running htwin => simp only [Except.map, Progress.observe, htwin.world.output]
    | finished htwin => simp only [Except.map, Progress.observe, htwin.output]

/-! ## A deleted closure -/

/-- `f = fun() { global f; f = 0; while (false) {} g = fun() {}; }; f();` -/
def forgetsItself : Program :=
  .cons (.assignment (.name "f") (.function []
    (.cons (.global "f") (.cons (.assignment (.name "f") (.intConst 0))
      (.cons (.whileLoop (.boolConst false) .nil)
        (.cons (.assignment (.name "g") (.function [] .nil)) .nil))))))
    (.cons (.callStatement (.name "f") .nil) .nil)

theorem collections_invisible_iff_forgetsItself :
    ∃ m, Machine.start (.x64 false false) [] (compile forgetsItself) = .ok m ∧
      (Invisible (List.replicate 17 true) m ↔
        Machine.Along (fun _ => ClosurePresent) (List.replicate 17 true) m) :=
  ⟨_, rfl, collections_invisible_iff forgetsItself (.x64 false false) [] _ rfl
    (List.replicate 17 true) (by decide)⟩

/-- The collection in the loop deletes the closure that is running, and the
next function is loaded from it. -/
theorem forgetsItself_reads_deleted :
    ∃ m, Machine.start (.x64 false false) [] (compile forgetsItself) = .ok m ∧
      Machine.Along CounterFits (List.replicate 20 true) m ∧
      ¬ Invisible (List.replicate 20 true) m :=
  ⟨_, rfl, by decide, fun h => h.1 rfl⟩

end Beaverc

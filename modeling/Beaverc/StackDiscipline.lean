import Mathlib.Tactic.Common
import Beaverc.Labels
import Beaverc.Steps

/-!
# The stack discipline

The paths of control through a function and the depth of the operand stack
along them. The depth before an instruction of emitted code depends on its
position only, so no pop of `run_function` finds too few operands, and the
stack of a frame is empty when it collects.
-/

namespace Beaverc
open Process Results StepsLemmas DisciplineLemmas LabelsLemmas

/-- The values an instruction takes from the operand stack or looks at. -/
def Instruction.pops (i : Instruction) : Nat :=
  match i.effect with
  | some (pops, _) => pops
  | none =>
    match i with
    | .ret | .ifTrue _ => 1
    | _ => 0

/-- The values an instruction leaves in the place of those. -/
def Instruction.pushes (i : Instruction) : Nat :=
  match i.effect with
  | some (_, pushes) => pushes
  | none => 0

/-- Control may go on to the instruction that follows. -/
def Instruction.continues : Instruction → Bool
  | .ret | .goto _ | .throwUninitialized _ => false
  | _ => true

/-- Control can go from position `p` to position `q`. -/
inductive Function.Edge (f : Function) : Nat → Nat → Prop
  | next {p : Nat} {i : Instruction} :
      f.instructions[p]? = some i → i.continues = true → f.Edge p (p + 1)
  | jump {p : Nat} {i : Instruction} {l : Nat} :
      f.instructions[p]? = some i → i.target? = some l → f.Edge p (f.labelPosition l)

/-- There is a path of control from the first instruction to position `p` whose
instructions push `d` values more than they pop. -/
inductive Function.ArrivesWith (f : Function) : Nat → Int → Prop
  | start : f.ArrivesWith 0 0
  | step {p q : Nat} {d : Int} {i : Instruction} :
      f.ArrivesWith p d → f.instructions[p]? = some i → f.Edge p q →
      f.ArrivesWith q (d - i.pops + i.pushes)

/-- The instructions in front of which the operand stack is empty. -/
def Instruction.atRest : Instruction → Bool
  | .label _ | .goto _ | .garbageCollect => true
  | _ => false

/-- The instructions in front of which the operand stack holds one value. -/
def Instruction.takesAll : Instruction → Bool
  | .ifTrue _ | .ret => true
  | _ => false

/-- What the depth `d` in front of an instruction has to be. -/
structure Instruction.Suits (i : Instruction) (d : Int) : Prop where
  pops : (i.pops : Int) ≤ d
  atRest : i.atRest = true → d = 0
  takesAll : i.takesAll = true → d = 1

/-- The depth does not depend on the path, and suits each instruction. -/
structure Function.Disciplined (f : Function) : Prop where
  unique : ∀ p d d', f.ArrivesWith p d → f.ArrivesWith p d' → d = d'
  suits : ∀ p d i, f.ArrivesWith p d → f.instructions[p]? = some i → i.Suits d

/-! ## Depths along paths -/

namespace StackDisciplineLemmas

theorem suits_of_depth {i : Instruction} {k k' : Nat} (h : i.depth k = some k') :
    i.Suits k ∧ (k' : Int) = k - i.pops + i.pushes := by
  cases i <;>
    simp only [Instruction.depth, Instruction.effect, Option.ite_none_right_eq_some,
      Option.some.injEq] at h <;>
    obtain ⟨hk, rfl⟩ := h <;>
    refine ⟨⟨?_, ?_, ?_⟩, ?_⟩ <;>
    simp [Instruction.pops, Instruction.pushes, Instruction.effect, Instruction.atRest,
      Instruction.takesAll] <;>
    omega

/-- A jump leaves the stack empty. -/
theorem depth_of_target {i : Instruction} {l k k' : Nat} (hl : i.target? = some l)
    (h : i.depth k = some k') : k' = 0 := by
  cases i with
  | goto _ | ifTrue _ =>
    simp only [Instruction.depth, Instruction.effect, Option.ite_none_right_eq_some,
      Option.some.injEq] at h
    exact h.2.symm
  | _ => cases hl

theorem wellEmitted_depth {f : Function} (h : WellEmitted f) : depth 0 f.instructions = some 0 := by
  obtain ⟨⟨lo, hi, hseg⟩, -⟩ := h
  exact hseg.depth_eq

/-- The depth along a path is the depth of the code in front of the position. -/
theorem arrivesWith_depth {f : Function} (h : WellEmitted f) {p : Nat} {d : Int}
    (hp : f.ArrivesWith p d) : ∃ k : Nat, d = k ∧ depth 0 (f.instructions.take p) = some k := by
  induction hp with
  | start => exact ⟨0, rfl, by rw [List.take_zero]; rfl⟩
  | @step p q d i _ hi hedge ih =>
    obtain ⟨k, rfl, hk⟩ := ih
    obtain ⟨k₁, k', hk₁, hi', hnext⟩ := depth_at (wellEmitted_depth h) hi
    rw [hk] at hk₁
    cases hk₁
    refine ⟨k', (suits_of_depth hi').2.symm, ?_⟩
    cases hedge with
    | next => exact hnext
    | @jump j l hj hl =>
      rw [hi] at hj
      cases hj
      obtain ⟨m, m', hm, hlab, -⟩ := depth_at (wellEmitted_depth h) (jump_lands h hi hl)
      have hm0 : (m : Int) = 0 := (suits_of_depth hlab).1.atRest rfl
      rw [hm, depth_of_target hl hi']
      congr 1
      omega

theorem disciplined_of_wellEmitted {f : Function} (h : WellEmitted f) : f.Disciplined where
  unique p d d' hd hd' := by
    obtain ⟨k, rfl, hk⟩ := arrivesWith_depth h hd
    obtain ⟨k', rfl, hk'⟩ := arrivesWith_depth h hd'
    rw [hk] at hk'
    cases hk'
    rfl
  suits p d i hd hi := by
    obtain ⟨k, rfl, hk⟩ := arrivesWith_depth h hd
    obtain ⟨k₁, k', hk₁, hi', -⟩ := depth_at (wellEmitted_depth h) hi
    rw [hk] at hk₁
    cases hk₁
    exact (suits_of_depth hi').1

end StackDisciplineLemmas

open StackDisciplineLemmas

/-! ## Which computations can miss an operand -/

/-- A computation that never ends with an `InsufficentStackException`. -/
def Supplied {α : Type} (x : Except Stop α) : Prop :=
  ∀ message, x ≠ .error (.raised .insufficentStack message)

namespace StackDisciplineLemmas

theorem supplied_ok {α : Type} (a : α) : Supplied (.ok a : Except Stop α) :=
  nofun

theorem supplied_error {α : Type} {e : Stop} (h : ∀ m, e ≠ .raised .insufficentStack m) :
    Supplied (.error e : Except Stop α) :=
  fun m hm => h m (Except.error.inj hm)

theorem supplied_bind {α β : Type} {x : Except Stop α} {g : α → Except Stop β} (hx : Supplied x)
    (hg : ∀ a, x = .ok a → Supplied (g a)) : Supplied (x >>= g) := by
  cases x with
  | ok a => exact hg a rfl
  | error e => exact fun m hm => hx m (by rw [Except.error.inj hm])

theorem supplied_mapM {α β : Type} {g : α → Except Stop β} {l : List α}
    (h : ∀ a, Supplied (g a)) : Supplied (l.mapM g) := by
  induction l with
  | nil => exact supplied_ok _
  | cons a l ih =>
    rw [List.mapM_cons]
    exact supplied_bind (h a) fun _ _ => supplied_bind ih fun _ _ => supplied_ok _

theorem supplied_safeIndex {α : Type} (l : List α) (n : Nat) : Supplied (safeIndex l n) := by
  unfold safeIndex
  split
  · exact supplied_ok _
  · exact supplied_error nofun

theorem supplied_rawIndex {α : Type} (l : List α) (n : Nat) : Supplied (rawIndex l n) := by
  unfold rawIndex
  split
  · exact supplied_ok _
  · exact supplied_error nofun

theorem supplied_deref (h : CollectedHeap) (a : Addr) : Supplied (h.deref a) := by
  unfold CollectedHeap.deref
  split
  · exact supplied_ok _
  · exact supplied_error nofun

theorem supplied_getInteger (v : Value) : Supplied v.getInteger := by
  cases v with
  | integer => exact supplied_ok _
  | _ => exact supplied_error nofun

theorem supplied_getBoolean (v : Value) : Supplied v.getBoolean := by
  cases v with
  | boolean => exact supplied_ok _
  | _ => exact supplied_error nofun

theorem supplied_getPointerValue (v : Value) : Supplied v.getPointerValue := by
  unfold Value.getPointerValue
  split
  · exact supplied_ok _
  · exact supplied_error nofun

theorem supplied_getPointer (is : Payload → Bool) (v : Value) (h : CollectedHeap) :
    Supplied (v.getPointer is h) := by
  refine supplied_bind (supplied_getPointerValue v) fun a _ => ?_
  refine supplied_bind (supplied_deref h a) fun o _ => ?_
  split
  · exact supplied_ok _
  · exact supplied_error nofun

theorem supplied_toStringDepth (h : CollectedHeap) (depth : Nat) (v : Value) :
    Supplied (Value.toStringDepth h depth v) := by
  induction depth generalizing v with
  | zero => exact supplied_error nofun
  | succ depth ih =>
    cases v with
    | stringValue a | pointer a =>
      refine supplied_bind (supplied_deref h a) fun o _ => ?_
      cases o.payload with
      | string => exact supplied_ok _
      | tree left right =>
        exact supplied_bind (ih left) fun _ _ => supplied_bind (ih right) fun _ _ => supplied_ok _
      | record values =>
        refine supplied_bind (supplied_mapM fun key => ?_) fun _ _ => supplied_ok _
        exact supplied_bind (ih _) fun _ _ => supplied_ok _
      | reference => exact supplied_error nofun
      | _ => exact supplied_ok _
    | _ => exact supplied_ok _

theorem supplied_toText (h : CollectedHeap) (v : Value) : Supplied (v.toText h) :=
  supplied_toStringDepth h _ v

theorem supplied_remember (owner : Addr) (slot : Slot) (v : Value) (h : CollectedHeap) :
    Supplied (h.remember owner slot v) := by
  unfold CollectedHeap.remember
  split
  · split
    · exact supplied_ok _
    · refine supplied_bind (supplied_deref h _) fun _ _ => ?_
      refine supplied_bind (supplied_deref h _) fun _ _ => ?_
      split
      · exact supplied_ok _
      · exact supplied_ok _
  · exact supplied_ok _

theorem supplied_recordGet (a : Addr) (key : String) (h : CollectedHeap) :
    Supplied (h.recordGet a key) := by
  refine supplied_bind (supplied_deref h a) fun o _ => ?_
  split
  · split
    · exact supplied_ok _
    · exact supplied_ok _
  · exact supplied_error nofun

theorem supplied_recordInsert (a : Addr) (key : String) (v : Value) (h : CollectedHeap) :
    Supplied (h.recordInsert a key v) := by
  refine supplied_bind (supplied_deref h a) fun o _ => ?_
  split
  · exact supplied_remember _ _ _ _
  · exact supplied_error nofun

theorem supplied_referenceWrite (a : Addr) (v : Value) (h : CollectedHeap) :
    Supplied (h.referenceWrite a v) := by
  refine supplied_bind (supplied_deref h a) fun o _ => ?_
  split
  · exact supplied_remember _ _ _ _
  · exact supplied_error nofun

theorem supplied_addReference (a reference : Addr) (h : CollectedHeap) :
    Supplied (h.addReference a reference) := by
  refine supplied_bind (supplied_deref h a) fun o _ => ?_
  split
  · exact supplied_ok _
  · exact supplied_error nofun

theorem supplied_addReferences (closure : Addr) (l : List Value) (w : World) :
    Supplied (w.addReferences closure l) := by
  induction l generalizing w with
  | nil => exact supplied_ok _
  | cons v rest ih =>
    refine supplied_bind (supplied_getPointer _ v w.heap) fun r _ => ?_
    exact supplied_bind (supplied_addReference closure r w.heap) fun _ _ => ih _

theorem supplied_flatten (v : Value) (w : World) : Supplied (w.flatten v) := by
  unfold World.flatten
  split
  · exact supplied_bind (supplied_toText _ _) fun _ _ => supplied_ok _
  · exact supplied_ok _

theorem supplied_add (left right : Value) (w : World) : Supplied (w.add left right) := by
  unfold World.add
  split
  · split
    · refine supplied_bind (supplied_flatten left w) fun p _ => ?_
      exact supplied_bind (supplied_flatten right p.2) fun _ _ => supplied_ok _
    · refine supplied_bind (supplied_toText _ left) fun _ _ => ?_
      exact supplied_bind (supplied_toText _ right) fun _ _ => supplied_ok _
  · split
    · exact supplied_ok _
    · exact supplied_error (by intro m h; cases h)

theorem supplied_equals (left right : Value) (w : World) : Supplied (w.equals left right) := by
  unfold World.equals
  split
  · refine supplied_bind (supplied_toText _ left) fun _ _ => ?_
    exact supplied_bind (supplied_toText _ right) fun _ _ => supplied_ok _
  · exact supplied_ok _

theorem supplied_allocateFunction (closure : Addr) (i : Int) (w : World) :
    Supplied (w.allocateFunction closure i) := by
  cases i with
  | negSucc n =>
    simp only [World.allocateFunction]
    split
    · exact supplied_ok _
    · exact supplied_error nofun
  | ofNat n =>
    refine supplied_bind (supplied_deref _ _) fun o _ => ?_
    split
    · exact supplied_bind (supplied_safeIndex _ _) fun _ _ => supplied_ok _
    · exact supplied_error nofun

theorem supplied_allocClosure (function : Value) (references : List Value) (w : World) :
    Supplied (w.allocClosure function references) := by
  refine supplied_bind (supplied_getPointer _ _ _) fun a _ => ?_
  refine supplied_bind (supplied_deref _ _) fun o _ => ?_
  split
  · exact supplied_bind (supplied_addReferences _ _ _) fun _ _ => supplied_ok _
  · exact supplied_error nofun

theorem supplied_getField (record : Value) (key : String) (w : World) :
    Supplied (w.getField record key) := by
  refine supplied_bind (supplied_getPointer _ _ _) fun a _ => ?_
  exact supplied_bind (supplied_recordGet _ _ _) fun _ _ => supplied_ok _

theorem supplied_setField (record : Value) (key : String) (v : Value) (w : World) :
    Supplied (w.setField record key v) := by
  refine supplied_bind (supplied_getPointer _ _ _) fun a _ => ?_
  exact supplied_bind (supplied_recordInsert _ _ _ _) fun _ _ => supplied_ok _

theorem supplied_perform (a : Action) (w : World) : Supplied (perform a w) := by
  cases a with
  | loadFunc closure i => exact supplied_allocateFunction closure i w
  | loadGlobal name =>
    simp only [perform]
    split
    · exact supplied_ok _
    · exact supplied_error nofun
  | storeGlobal | allocRecord => exact supplied_ok _
  | loadReference r =>
    refine supplied_bind (supplied_deref _ _) fun o _ => ?_
    split
    · exact supplied_ok _
    · exact supplied_error nofun
  | storeReference r v =>
    exact supplied_bind (supplied_referenceWrite r v w.heap) fun _ _ => supplied_ok _
  | fieldLoad record name => exact supplied_getField record name w
  | fieldStore record name v => exact supplied_setField record name v w
  | indexLoad record index =>
    exact supplied_bind (supplied_toText _ index) fun name _ => supplied_getField record name w
  | indexStore record index v =>
    exact supplied_bind (supplied_toText _ index) fun name _ => supplied_setField record name v w
  | allocClosure function references => exact supplied_allocClosure function references w
  | add left right => exact supplied_add left right w
  | eq left right => exact supplied_bind (supplied_equals left right w) fun _ _ => supplied_ok _

theorem supplied_arithmetic (op : Arithmetic) (left right : Value) :
    Supplied (op.apply left right) := by
  have hl := supplied_getInteger left
  have hr := supplied_getInteger right
  have bl := supplied_getBoolean left
  have br := supplied_getBoolean right
  cases op with
  | sub | mul | gt | geq =>
    exact supplied_bind hl fun _ _ => supplied_bind hr fun _ _ => supplied_ok _
  | div =>
    refine supplied_bind hr fun divisor _ => ?_
    split
    · exact supplied_error nofun
    · exact supplied_bind hl fun _ _ => supplied_ok _
  | and | or =>
    refine supplied_bind bl fun b _ => ?_
    cases b with
    | true => first | exact supplied_ok _ | exact supplied_bind br fun _ _ => supplied_ok _
    | false => first | exact supplied_ok _ | exact supplied_bind br fun _ _ => supplied_ok _

theorem supplied_load {a : Action} {stack : List Value} {w : World} {fr : Frame} :
    Supplied (fr.load a stack w) :=
  supplied_bind (supplied_perform a w) fun _ _ => supplied_ok _

theorem supplied_store {a : Action} {stack : List Value} {w : World} {fr : Frame} :
    Supplied (fr.store a stack w) :=
  supplied_bind (supplied_perform a w) fun _ _ => supplied_ok _

theorem supplied_popMany {α : Type} {check : Except Stop α} {n : Nat} {stack : List Value}
    (h : n ≤ stack.length) : Supplied (Frame.popMany check n stack) := by
  unfold Frame.popMany
  rw [if_pos h]
  exact supplied_ok _

theorem supplied_storeLocal {closure : Addr} {f : Function} {references : List Addr}
    {locals stack : List Value} {ip : Nat} (v : Value) (n : Nat) (w : World) :
    Supplied (Frame.exec (.storeLocal n) ⟨closure, f, references, locals, v :: stack, ip⟩ w) := by
  simp only [Frame.exec]
  split
  · exact supplied_ok _
  · refine supplied_error fun m h => ?_
    cases h

/-- An instruction that finds its operands does not miss one. -/
theorem supplied_exec {i : Instruction} {fr : Frame} (w : World)
    (h : i.pops ≤ fr.stack.length) : Supplied (fr.exec i w) := by
  obtain ⟨closure, f, references, locals, stack, ip⟩ := fr
  -- the operands named, as far as the instruction looks
  cases i with
  | loadConst => exact supplied_bind (supplied_safeIndex _ _) fun _ _ => supplied_ok _
  | loadFunc | allocRecord => exact supplied_load
  | loadLocal | pushReference =>
    exact supplied_bind (supplied_rawIndex _ _) fun _ _ => supplied_ok _
  | loadGlobal => exact supplied_bind (supplied_safeIndex _ _) fun _ _ => supplied_load
  | loadReference => exact supplied_bind (supplied_rawIndex _ _) fun _ _ => supplied_load
  | goto | garbageCollect | label => exact supplied_ok _
  | throwUninitialized =>
    exact supplied_bind (supplied_rawIndex _ _) fun _ _ => supplied_error nofun
  | storeLocal n =>
    match stack, h with
    | v :: stack, _ => exact supplied_storeLocal v n w
  | storeGlobal =>
    match stack, h with
    | v :: stack, _ => exact supplied_bind (supplied_safeIndex _ _) fun _ _ => supplied_store
  | storeReference =>
    match stack, h with
    | v :: stack, _ => exact supplied_bind (supplied_rawIndex _ _) fun _ _ => supplied_store
  | fieldLoad =>
    match stack, h with
    | record :: stack, _ => exact supplied_bind (supplied_safeIndex _ _) fun _ _ => supplied_load
  | fieldStore =>
    match stack, h with
    | v :: record :: stack, _ =>
      exact supplied_bind (supplied_safeIndex _ _) fun _ _ => supplied_store
  | indexLoad | add | eq =>
    match stack, h with
    | right :: left :: stack, _ => exact supplied_load
  | indexStore =>
    match stack, h with
    | v :: index :: record :: stack, _ => exact supplied_store
  | allocClosure n =>
    match stack, h with
    | function :: stack, h =>
      exact supplied_bind (supplied_popMany (Nat.le_of_succ_le_succ h)) fun _ _ => supplied_load
  | call n =>
    match stack, h with
    | function :: stack, h =>
      exact supplied_bind (supplied_popMany (Nat.le_of_succ_le_succ h)) fun _ _ => supplied_ok _
  | ret | dup | pop =>
    match stack, h with
    | v :: stack, _ => exact supplied_ok _
  | sub | mul | div | gt | geq | and | or =>
    match stack, h with
    | right :: left :: stack, _ =>
      exact supplied_bind (supplied_arithmetic _ left right) fun _ _ => supplied_ok _
  | neg =>
    match stack, h with
    | v :: stack, _ =>
      refine supplied_bind (supplied_bind (supplied_getInteger v) fun _ _ => ?_) fun _ _ => ?_
      · exact supplied_ok _
      · exact supplied_ok _
  | not =>
    match stack, h with
    | v :: stack, _ =>
      refine supplied_bind (supplied_bind (supplied_getBoolean v) fun _ _ => ?_) fun _ _ => ?_
      · exact supplied_ok _
      · exact supplied_ok _
  | ifTrue =>
    match stack, h with
    | v :: stack, _ =>
      refine supplied_bind (supplied_getBoolean v) fun b _ => ?_
      split
      · exact supplied_ok _
      · exact supplied_ok _
  | swap =>
    match stack, h with
    | v₁ :: v₂ :: stack, _ => exact supplied_ok _

end StackDisciplineLemmas

open StackDisciplineLemmas

/-! ## Runs -/

/-- The state of a running function agrees with a path to its position. -/
structure OnPath (f : Function) (s : Frame × World) : Prop where
  function : s.1.function = f
  arrives : f.ArrivesWith s.1.ip s.1.stack.length

/-- Going from `fr` to `fr'` an instruction pops and pushes, and goes along an edge. -/
def Instruction.Passes (i : Instruction) (fr fr' : Frame) : Prop :=
  fr'.function = fr.function ∧ (fr'.stack.length : Int) = fr.stack.length - i.pops + i.pushes ∧
    (fr'.ip = fr.ip + 1 ∧ i.continues = true ∨
      ∃ l, i.target? = some l ∧ fr'.ip = fr.function.labelPosition l)

namespace StackDisciplineLemmas

theorem passes_advance {i : Instruction} {fr : Frame} {stack : List Value}
    (hc : i.continues = true) (hl : stack.length + i.pops = fr.stack.length + i.pushes) :
    i.Passes fr (fr.advance stack) := by
  refine ⟨rfl, ?_, .inl ⟨rfl, hc⟩⟩
  show (stack.length : Int) = _
  omega

theorem arithmetic_next {op : Arithmetic} {i : Instruction} {fr fr' : Frame} {w w' : World}
    {ev : Option Event} (hc : i.continues = true) (hpops : i.pops = 2) (hpushes : i.pushes = 1)
    (h : fr.arithmetic op w = .ok (.next fr' w' ev)) : i.Passes fr fr' := by
  obtain ⟨closure, f, references, locals, stack, ip⟩ := fr
  obtain _ | ⟨right, _ | ⟨left, stack⟩⟩ := stack
  · cases h
  · cases h
  · obtain ⟨v, -, hv⟩ := bind_ok.mp h
    cases hv
    exact passes_advance hc (by rw [hpops, hpushes]; rfl)

theorem load_next {a : Action} {i : Instruction} {fr fr' : Frame} {stack : List Value}
    {w w' : World} {ev : Option Event} (hc : i.continues = true)
    (hl : stack.length + 1 + i.pops = fr.stack.length + i.pushes)
    (h : fr.load a stack w = .ok (.next fr' w' ev)) : i.Passes fr fr' := by
  obtain ⟨v, w₁, -, ho⟩ := load_ok.mp h
  cases ho
  exact passes_advance hc hl

theorem store_next {a : Action} {i : Instruction} {fr fr' : Frame} {stack : List Value}
    {w w' : World} {ev : Option Event} (hc : i.continues = true)
    (hl : stack.length + i.pops = fr.stack.length + i.pushes)
    (h : fr.store a stack w = .ok (.next fr' w' ev)) : i.Passes fr fr' := by
  obtain ⟨v, w₁, -, ho⟩ := store_ok.mp h
  cases ho
  exact passes_advance hc hl

/-- What a step does to the frame. -/
theorem exec_next {i : Instruction} {fr fr' : Frame} {w w' : World} {ev : Option Event}
    (h : fr.exec i w = .ok (.next fr' w' ev)) : i.Passes fr fr' := by
  obtain ⟨closure, f, references, locals, stack, ip⟩ := fr
  cases i with
  | sub | mul | div | gt | geq | and | or => exact arithmetic_next rfl rfl rfl h
  -- values from outside the stack
  | loadConst k | loadLocal k | pushReference k =>
    obtain ⟨v, -, hv⟩ := bind_ok.mp h
    cases hv
    exact passes_advance rfl rfl
  | loadFunc k | allocRecord => exact load_next rfl rfl h
  | loadGlobal k | loadReference k =>
    obtain ⟨v, -, hv⟩ := bind_ok.mp h
    exact load_next rfl rfl hv
  -- operands of the world
  | fieldLoad k =>
    obtain ⟨name, -, hname⟩ := bind_ok.mp h
    obtain _ | ⟨record, stack⟩ := stack
    · cases hname
    · exact load_next rfl rfl hname
  | add | eq =>
    obtain _ | ⟨right, _ | ⟨left, stack⟩⟩ := stack
    · cases h
    · cases h
    · exact load_next rfl rfl h
  | indexLoad =>
    obtain _ | ⟨index, _ | ⟨record, stack⟩⟩ := stack
    · cases h
    · obtain ⟨_, -, hnone⟩ := bind_ok.mp h
      cases hnone
    · exact load_next rfl rfl h
  | allocClosure n =>
    obtain _ | ⟨function, stack⟩ := stack
    · cases h
    · obtain ⟨r, hr, ho⟩ := bind_ok.mp h
      obtain ⟨hn, rfl⟩ := popMany_ok.mp hr
      refine load_next rfl ?_ ho
      simp only [List.length_drop, List.length_cons, Instruction.pops, Instruction.pushes,
        Instruction.effect]
      omega
  | storeGlobal k =>
    obtain ⟨name, -, hname⟩ := bind_ok.mp h
    obtain _ | ⟨v, stack⟩ := stack
    · cases hname
    · exact store_next rfl rfl hname
  | storeReference k =>
    obtain _ | ⟨v, stack⟩ := stack
    · cases h
    · obtain ⟨reference, -, hr⟩ := bind_ok.mp h
      exact store_next rfl rfl hr
  | fieldStore k =>
    obtain ⟨name, -, hname⟩ := bind_ok.mp h
    obtain _ | ⟨v, _ | ⟨record, stack⟩⟩ := stack
    · cases hname
    · cases hname
    · exact store_next rfl rfl hname
  | indexStore =>
    obtain _ | ⟨v, _ | ⟨index, _ | ⟨record, stack⟩⟩⟩ := stack
    · cases h
    · cases h
    · obtain ⟨_, -, hnone⟩ := bind_ok.mp h
      cases hnone
    · exact store_next rfl rfl h
  | storeLocal k =>
    obtain _ | ⟨v, stack⟩ := stack
    · cases h
    · simp only [Frame.exec] at h
      split at h
      · cases h
        exact @passes_advance _ ⟨closure, f, references, locals, v :: stack, ip⟩ stack rfl rfl
      · cases h
  -- the stack alone
  | neg | not =>
    obtain _ | ⟨v, stack⟩ := stack
    · cases h
    · obtain ⟨u, -, hu⟩ := bind_ok.mp h
      cases hu
      exact passes_advance rfl rfl
  | dup | pop =>
    obtain _ | ⟨v, stack⟩ := stack
    · cases h
    · cases h
      exact passes_advance rfl rfl
  | swap =>
    obtain _ | ⟨v₁, _ | ⟨v₂, stack⟩⟩ := stack
    · cases h
    · cases h
    · cases h
      exact passes_advance rfl rfl
  | label l =>
    cases h
    exact passes_advance rfl rfl
  -- jumps
  | goto l =>
    cases h
    exact ⟨rfl, (Int.sub_zero _).symm, .inr ⟨l, rfl, rfl⟩⟩
  | ifTrue l =>
    obtain _ | ⟨v, stack⟩ := stack
    · cases h
    · obtain ⟨b, -, hb⟩ := bind_ok.mp h
      split at hb
      · cases hb
        refine ⟨rfl, ?_, .inr ⟨l, rfl, rfl⟩⟩
        simp [Instruction.pops, Instruction.pushes, Instruction.effect]
      · cases hb
        exact passes_advance rfl rfl
  -- no step of this kind
  | call n =>
    obtain _ | ⟨function, stack⟩ := stack
    · cases h
    · obtain ⟨_, -, ho⟩ := bind_ok.mp h
      cases ho
  | ret =>
    obtain _ | ⟨v, stack⟩ := stack
    · cases h
    · cases h
  | garbageCollect => cases h
  | throwUninitialized k =>
    obtain ⟨_, -, hnone⟩ := bind_ok.mp h
    cases hnone

theorem exec_call {i : Instruction} {fr fr' : Frame} {w : World} {function : Value}
    {arguments : List Value} (h : fr.exec i w = .ok (.call function arguments fr')) :
    fr'.function = fr.function ∧ fr'.ip = fr.ip + 1 ∧ i.continues = true ∧
      (fr'.stack.length + 1 : Int) = fr.stack.length - i.pops + i.pushes := by
  rcases exec_outcome h with ⟨_, _, _, hn⟩ | ⟨n, rfl⟩ | rfl | rfl
  · cases hn
  · obtain ⟨closure, f, references, locals, stack, ip⟩ := fr
    cases stack with
    | nil => cases h
    | cons g stack =>
      obtain ⟨r, hr, ho⟩ := bind_ok.mp h
      obtain ⟨hn, rfl⟩ := popMany_ok.mp hr
      cases ho
      refine ⟨rfl, rfl, rfl, ?_⟩
      simp only [Frame.advance, List.length_drop, List.length_cons, Instruction.pops,
        Instruction.pushes, Instruction.effect]
      omega
  · cases h
  · simp only [Frame.exec] at h
    split at h
    · cases h
    · cases h

theorem exec_collect {i : Instruction} {fr fr' : Frame} {w : World}
    (h : fr.exec i w = .ok (.collect fr')) : i = .garbageCollect ∧ fr' = fr.advance fr.stack := by
  rcases exec_outcome h with ⟨_, _, _, hn⟩ | ⟨n, rfl⟩ | rfl | rfl
  · cases hn
  · simp only [Frame.exec] at h
    split at h
    · obtain ⟨_, _, ho⟩ := bind_ok.mp h
      cases ho
    · cases h
  · cases h
    exact ⟨rfl, rfl⟩
  · simp only [Frame.exec] at h
    split at h
    · cases h
    · cases h

/-- The step lemma: what a running function does keeps it on a path. -/
theorem onPath_step {f : Function} {s s' : Frame × World} {es : List Event} (hs : OnPath f s)
    (h : Frame.move s = .ok (.step es s')) : OnPath f s' := by
  obtain ⟨i, ev, hi, hx, -⟩ := frame_step h
  obtain ⟨hf, hlen, hip⟩ := exec_next hx
  rw [hs.function] at hi hip
  refine ⟨hf.trans hs.function, ?_⟩
  rw [hlen]
  rcases hip with ⟨hip, hc⟩ | ⟨l, hl, hip⟩
  · rw [hip]
    exact .step hs.arrives hi (.next hi hc)
  · rw [hip]
    exact .step hs.arrives hi (.jump hi hl)

theorem onPath_ask {f : Function} {s : Frame × World} {r : Request × World}
    {next : Value × World → Frame × World} (hs : OnPath f s)
    (h : Frame.move s = .ok (.ask r next)) (a : Value × World) : OnPath f (next a) := by
  obtain ⟨i, hi, ⟨g, as, fr, hx, -, rfl⟩ | ⟨fr, hx, -, rfl⟩⟩ := frame_ask h
  · obtain ⟨hf, hip, hc, hlen⟩ := exec_call hx
    rw [hs.function] at hi
    refine ⟨hf.trans hs.function, ?_⟩
    show f.ArrivesWith fr.ip ((fr.stack.length + 1 : Nat) : Int)
    rw [hip, Int.natCast_succ, hlen]
    exact .step hs.arrives hi (.next hi hc)
  · obtain ⟨rfl, rfl⟩ := exec_collect hx
    rw [hs.function] at hi
    refine ⟨hs.function, ?_⟩
    have harr := Function.ArrivesWith.step hs.arrives hi (.next hi rfl)
    show f.ArrivesWith (s.1.ip + 1) s.1.stack.length
    simpa [Instruction.pops, Instruction.pushes, Instruction.effect] using harr

/-- The run lemma. -/
theorem run_onPath {f : Function} {env : Request × World → Value × World → Prop} {n : Nat}
    {s s' : Frame × World} {t : List (Label Event (Request × World) (Value × World))}
    (h : Run Frame.move env (fun _ => True) n s t s') (hs : OnPath f s) : OnPath f s' :=
  h.invariant (fun _ _ _ hs _ hm => onPath_step hs hm) (fun _ _ _ a hs _ hm _ => onPath_ask hs hm a)
    hs

/-- On a path of a disciplined function no operand is missing. -/
theorem supplied_move {f : Function} (hf : f.Disciplined) {s : Frame × World}
    (hs : OnPath f s) : Supplied (Frame.move s) := by
  unfold Frame.move
  split
  · exact supplied_ok _
  · next i hi =>
    rw [hs.function] at hi
    have hpops := (hf.suits _ _ _ hs.arrives hi).pops
    refine supplied_bind (supplied_exec s.2 (by omega)) fun o _ => ?_
    cases o with
    | _ => exact supplied_ok _

/-- On a path of a disciplined function a collection finds no operands. -/
theorem collect_operands {f : Function} (hf : f.Disciplined) {s : Frame × World}
    (hs : OnPath f s) {locals operands : List Value} {references : List Addr} {w : World}
    {next : Value × World → Frame × World}
    (h : Frame.move s = .ok (.ask (.collect locals references operands, w) next)) :
    operands = [] := by
  obtain ⟨i, hi, ⟨g, as, fr, -, hr, -⟩ | ⟨fr, hx, hr, -⟩⟩ := frame_ask h
  · cases hr
  · obtain ⟨rfl, rfl⟩ := exec_collect hx
    rw [hs.function] at hi
    have hrest := (hf.suits _ _ _ hs.arrives hi).atRest rfl
    cases hr
    exact List.length_eq_zero_iff.mp (by exact_mod_cast hrest)

theorem supplied_storeArguments (f : Function) (references : List Addr) (k : Nat)
    (arguments locals : List Value) (w : World) :
    Supplied (storeArguments f references k arguments locals w) := by
  induction arguments generalizing k locals w with
  | nil => exact supplied_ok _
  | cons v rest ih =>
    refine supplied_bind (supplied_rawIndex _ _) fun box _ => ?_
    split
    · split
      · exact ih _ _ _
      · exact supplied_error nofun
    · refine supplied_bind (supplied_rawIndex _ _) fun r _ => ?_
      exact supplied_bind (supplied_referenceWrite _ _ _) fun _ _ => ih _ _ _

theorem supplied_enterClosure (closure : Addr) (f : Function) (captured : List Addr)
    (arguments : List Value) (w : World) :
    Supplied (enterClosure closure f captured arguments w) := by
  unfold enterClosure
  split
  · exact supplied_error nofun
  · refine supplied_bind (supplied_mapM fun _ => supplied_rawIndex _ _) fun _ _ => ?_
    exact supplied_bind (supplied_storeArguments _ _ _ _ _ _) fun _ _ => supplied_ok _

theorem supplied_callBuiltIn (type : Nat) (arguments : List Value) (w : World) :
    Supplied (callBuiltIn type arguments w) := by
  unfold callBuiltIn
  split
  · exact supplied_bind (supplied_toText _ _) fun _ _ => supplied_ok _
  · exact supplied_error nofun
  · exact supplied_ok _
  · exact supplied_error nofun
  · split
    · exact supplied_bind (supplied_toText _ _) fun _ _ => supplied_ok _
    · exact supplied_error nofun
  · exact supplied_error nofun
  · exact supplied_error nofun

theorem supplied_enter (function : Value) (arguments : List Value) (w : World) :
    Supplied (enter function arguments w) := by
  refine supplied_bind (supplied_getPointer _ _ _) fun a _ => ?_
  refine supplied_bind (supplied_deref _ _) fun o _ => ?_
  split
  · exact supplied_bind (supplied_enterClosure _ _ _ _ _) fun _ _ => supplied_ok _
  · exact supplied_bind (supplied_callBuiltIn _ _ _) fun _ _ => supplied_ok _
  · exact supplied_error nofun

end StackDisciplineLemmas

/-- Each function of a compiled program is disciplined; whatever its callees and
the collector answer, no move of `run_function` on it misses an operand, nor
does a call, and a collection finds its operand stack empty. -/
theorem compile_stackDisciplined (prog : Program) {f : Function}
    (h : SubFunction (compile prog) f) : f.Disciplined ∧
      (∀ (env : Request × World → Value × World → Prop) (closure : Addr) (references : List Addr)
        (locals : List Value) (w : World) (n : Nat)
        (t : List (Label Event (Request × World) (Value × World))) (s : Frame × World),
        Run Frame.move env (fun _ => True) n (⟨closure, f, references, locals, [], 0⟩, w) t s →
        Supplied (Frame.move s) ∧
          ∀ locals' references' operands w' next,
            Frame.move s = .ok (.ask (.collect locals' references' operands, w') next) →
            operands = []) ∧
      ∀ function arguments w, Supplied (enter function arguments w) := by
  have hf := disciplined_of_wellEmitted (compile_wellEmitted prog h)
  refine ⟨hf, fun env closure references locals w n t s hr => ?_, supplied_enter⟩
  have hs : OnPath f s := run_onPath hr ⟨rfl, .start⟩
  exact ⟨supplied_move hf hs, fun _ _ _ _ _ hm => collect_operands hf hs hm⟩

/-- `while (true) { print(input()); }` -/
def echo : Program :=
  .cons (.whileLoop (.boolConst true)
    (.cons (.callStatement (.name "print") (.cons (.call (.name "input") .nil) .nil)) .nil)) .nil

/-- Every call gives 3, and nothing else happens. -/
def answersThree (r : Request × World) (a : Value × World) : Prop :=
  a = (.integer 3, r.2)

def echoWorld : World :=
  ⟨.empty (.x64 false false), 0, [], [], []⟩

theorem run_answersThree {s s' : Frame × World} {r : Request × World}
    {next : Value × World → Frame × World} {n : Nat}
    {t : List (Label Event (Request × World) (Value × World))}
    (hs : Frame.move s = .ok (.ask r next))
    (hr : Run Frame.move answersThree (fun _ => True) n (next (.integer 3, r.2)) t s') :
    Run Frame.move answersThree (fun _ => True) (n + 1) s (.exchange r (.integer 3, r.2) :: t) s' :=
  .ask trivial hs rfl hr

/-- From the start to the collection after the call of `print`. -/
theorem echo_run : ∃ t s, Run Frame.move answersThree (fun _ => True) 16
    (⟨0, compile echo, [], [], [], 0⟩, echoWorld) t s ∧ s.1.ip = 17 ∧
      ∃ operands w next, Frame.move s = .ok (.ask (.collect [] [] operands, w) next) := by
  apply Exists.intro
  apply Exists.intro
  refine ⟨?_, ?_⟩
  -- the native functions are stored, and the loop begins with a collection
  iterate 7 apply Run.step trivial rfl
  apply run_answersThree rfl
  -- `input` is called, and then `print`
  iterate 4 apply Run.step trivial rfl
  apply run_answersThree rfl
  apply Run.step trivial rfl
  apply run_answersThree rfl
  apply Run.step trivial rfl
  apply Run.refl
  exact ⟨rfl, _, _, _, rfl⟩

theorem compile_stackDisciplined_echo : (compile echo).Disciplined ∧ ∃ t s w next,
    Run Frame.move answersThree (fun _ => True) 16 (⟨0, compile echo, [], [], [], 0⟩, echoWorld)
        t s ∧ s.1.ip = 17 ∧ Supplied (Frame.move s) ∧
      Frame.move s = .ok (.ask (.collect [] [] [], w) next) := by
  obtain ⟨hf, hruns, -⟩ := compile_stackDisciplined echo (.refl _)
  obtain ⟨t, s, hrun, hip, operands, w, next, hmove⟩ := echo_run
  obtain ⟨hsupplied, hempty⟩ := hruns _ 0 [] [] echoWorld 16 t s hrun
  obtain rfl := hempty [] [] operands w next hmove
  exact ⟨hf, t, s, w, next, hrun, hip, hsupplied, hmove⟩

end Beaverc

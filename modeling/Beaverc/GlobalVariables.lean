import Beaverc.Generations
import Beaverc.Operands
import Beaverc.Roots

/-!
# Global variables in a run

`visit(Name&)` decides in the order of the text whether a name is a known global,
and the program stores its globals in the order of its execution. A read that was
compiled while the name was known finds the value stored last; one that was
compiled too early throws whatever has been stored since.
-/

namespace Beaverc
open Tables Results StepsLemmas VisitsLemmas OperandsLemmas CollectedHeap.GenerationLemmas

/-! ## Stores and reads of a run -/

/-- The global that an instruction stores, with its value. -/
def Frame.storing (f : Frame) : Instruction → Option (String × Value)
  | .storeGlobal i => f.stack.head?.bind fun v => f.function.names[i]?.map (·, v)
  | _ => none

/-- The global that the next instruction stores. -/
def Machine.storing (m : Machine) : Option (String × Value) :=
  m.frames.head?.bind fun f => f.function.instructions[f.ip]?.bind f.storing

/-- The stores of a run, the last one first. -/
def Machine.stores : List Bool → Machine → List (String × Value)
  | [], _ => []
  | collect :: rest, m =>
    match m.step collect with
    | .ok (.running m') => Machine.stores rest m' ++ m.storing.toList
    | _ => []

/-- The global that the code at hand reads, and the number of its instructions: one
for a name that was known to the compiler, two for an unknown one. -/
def Frame.reading (f : Frame) : Option (String × Nat) :=
  match f.function.instructions[f.ip]?, f.function.instructions[f.ip + 1]? with
  | some (.loadGlobal i), _ => f.function.names[i]?.map (·, 1)
  | some (.loadConst 0), some (.throwUninitialized i) => f.function.names[i]?.map (·, 2)
  | _, _ => none

/-- The running frame after a read of `n` instructions that gives `v`. -/
def Frame.received (v : Value) (n : Nat) (f : Frame) : Frame :=
  { f with stack := v :: f.stack, ip := f.ip + n }

/-- No table of variables holds `x`, or the function declares it global. -/
def State.TakesAsGlobal (s : State) (x : String) : Prop :=
  x ∈ s.node.globals ∨ x ∉ s.node.function.freeVars ∧
    x ∉ s.node.function.localReferenceVars ∧ x ∉ s.node.function.localVars

/-- The frame is at the code of `s`, in a function that what is compiled up to `s'`
begins. -/
structure Frame.At (f : Frame) (s s' : State) : Prop where
  ip : f.ip = s.count
  code : s'.node.function.instructions <+: f.function.instructions
  names : s'.node.function.names <+: f.function.names

/-- A read of a global gives the value stored last; it throws
`UninitializedVariableException` if nothing was stored. -/
def Machine.ReadsLatest (stores : List (String × Value)) (m : Machine) : Prop :=
  ∀ f callers x n, m.frames = f :: callers → f.reading = some (x, n) →
    ∀ choices : List Bool, choices.length = n →
      match stores.lookup x with
      | some v => m.run choices = .ok (.running ⟨f.received v n :: callers, m.world⟩)
      | none => ∃ text, m.run choices = .error (.raised .uninitializedVariable text)

/-- A read of a name that was unknown to the compiler comes before any store of it,
in a function that has a constant. -/
def Machine.ReadsKnown (m : Machine) : Prop :=
  ∀ f callers x, m.frames = f :: callers → f.reading = some (x, 2) →
    m.world.globals.lookup x = none ∧ f.function.constants ≠ []

namespace GlobalVariablesLemmas

/-! ### What changes the globals -/

theorem addReferences_globals {closure : Addr} {references : List Value} {w w' : World}
    (h : World.addReferences closure references w = .ok w') : w'.globals = w.globals := by
  induction references generalizing w with
  | nil =>
    cases h
    rfl
  | cons v rest ih =>
    obtain ⟨r, -, h⟩ := bind_ok.mp h
    obtain ⟨heap, -, h⟩ := bind_ok.mp h
    have hrest := ih h
    exact hrest

theorem flatten_globals {v u : Value} {w w' : World} (h : w.flatten v = .ok (u, w')) :
    w'.globals = w.globals := by
  unfold World.flatten at h
  split at h
  · obtain ⟨s, -, h⟩ := bind_ok.mp h
    cases h
    rfl
  · cases h
    rfl

theorem add_globals {left right u : Value} {w w' : World} (h : w.add left right = .ok (u, w')) :
    w'.globals = w.globals := by
  unfold World.add at h
  split at h
  · split at h
    · obtain ⟨⟨l, w₁⟩, h₁, h⟩ := bind_ok.mp h
      obtain ⟨⟨r, w₂⟩, h₂, h⟩ := bind_ok.mp h
      cases h
      exact (flatten_globals h₂).trans (flatten_globals h₁)
    · obtain ⟨l, -, h⟩ := bind_ok.mp h
      obtain ⟨r, -, h⟩ := bind_ok.mp h
      cases h
      rfl
  · split at h
    · cases h
      rfl
    · cases h

theorem allocClosure_globals {function u : Value} {references : List Value} {w w' : World}
    (h : w.allocClosure function references = .ok (u, w')) : w'.globals = w.globals := by
  obtain ⟨a, -, h⟩ := bind_ok.mp h
  obtain ⟨o, -, h⟩ := bind_ok.mp h
  split at h
  · obtain ⟨w₁, h₁, h⟩ := bind_ok.mp h
    cases h
    have hrest := addReferences_globals h₁
    exact hrest
  · cases h

theorem allocateFunction_globals {closure : Addr} {i : Int} {u : Value} {w w' : World}
    (h : w.allocateFunction closure i = .ok (u, w')) : w'.globals = w.globals := by
  unfold World.allocateFunction at h
  split at h
  · split at h
    · cases h
      rfl
    · cases h
  · obtain ⟨o, -, h⟩ := bind_ok.mp h
    split at h
    · obtain ⟨g, -, h⟩ := bind_ok.mp h
      cases h
      rfl
    · cases h

theorem getField_globals {record u : Value} {key : String} {w w' : World}
    (h : w.getField record key = .ok (u, w')) : w'.globals = w.globals := by
  obtain ⟨a, -, h⟩ := bind_ok.mp h
  obtain ⟨⟨v, heap⟩, -, h⟩ := bind_ok.mp h
  cases h
  rfl

theorem setField_globals {record v u : Value} {key : String} {w w' : World}
    (h : w.setField record key v = .ok (u, w')) : w'.globals = w.globals := by
  obtain ⟨a, -, h⟩ := bind_ok.mp h
  obtain ⟨heap, -, h⟩ := bind_ok.mp h
  cases h
  rfl

/-- Only `StoreGlobal` changes the globals. -/
theorem perform_globals {a : Action} {u : Value} {w w' : World} (h : perform a w = .ok (u, w'))
    (ha : ∀ x v, a ≠ .storeGlobal x v) : w'.globals = w.globals := by
  cases a with
  | loadFunc => exact allocateFunction_globals h
  | loadGlobal x =>
    rw [perform] at h
    split at h
    · cases h
      rfl
    · cases h
  | storeGlobal x v => exact absurd rfl (ha x v)
  | loadReference r =>
    obtain ⟨o, -, h⟩ := bind_ok.mp h
    split at h
    · cases h
      rfl
    · cases h
  | storeReference =>
    obtain ⟨heap, -, h⟩ := bind_ok.mp h
    cases h
    rfl
  | allocRecord =>
    cases h
    rfl
  | fieldLoad => exact getField_globals h
  | fieldStore => exact setField_globals h
  | indexLoad =>
    obtain ⟨name, -, h⟩ := bind_ok.mp h
    exact getField_globals h
  | indexStore =>
    obtain ⟨name, -, h⟩ := bind_ok.mp h
    exact setField_globals h
  | allocClosure => exact allocClosure_globals h
  | add => exact add_globals h
  | eq =>
    obtain ⟨v, -, h⟩ := bind_ok.mp h
    cases h
    rfl

/-- An instruction other than `StoreGlobal` performs one action or none. -/
theorem exec_world {f f' : Frame} {i : Instruction} {w w' : World} {e : Option Event}
    (h : f.exec i w = .ok (.next f' w' e)) (hi : ∀ k, i ≠ .storeGlobal k) :
    (∃ a v, (∀ x u, a ≠ .storeGlobal x u) ∧ perform a w = .ok (v, w')) ∨ w' = w := by
  cases i
  case storeGlobal k => exact absurd rfl (hi k)
  all_goals
    simp only [Frame.exec, Frame.arithmetic, Frame.push, bind_ok, load_ok, insufficentStack] at h
    grind [load_ok, store_ok, bind_ok, Frame.push]

theorem storing_other {f : Frame} {i : Instruction} (hi : ∀ k, i ≠ .storeGlobal k) :
    f.storing i = none := by
  cases i with
  | storeGlobal k => exact absurd rfl (hi k)
  | _ => rfl

theorem exec_globals {f f' : Frame} {i : Instruction} {w w' : World} {e : Option Event}
    (h : f.exec i w = .ok (.next f' w' e)) :
    w'.globals = (f.storing i).elim w.globals fun p => assign p.1 p.2 w.globals := by
  by_cases hs : ∃ k, i = .storeGlobal k
  · obtain ⟨k, rfl⟩ := hs
    obtain ⟨x, hx, h⟩ := bind_ok.mp h
    split at h
    · next v stack hstack =>
      obtain ⟨u, w₁, hw, he⟩ := store_ok.mp h
      cases hw
      cases he
      rw [Frame.storing, hstack, safeIndex_ok.mp hx]
      rfl
    · cases h
  · have hno : ∀ k, i ≠ .storeGlobal k := fun k he => hs ⟨k, he⟩
    rw [storing_other hno]
    rcases exec_world h hno with ⟨a, v, ha, hw⟩ | rfl
    · exact perform_globals hw ha
    · rfl

/-! ### Steps -/

theorem allocateBoxes_globals (n : Nat) (w : World) :
    (allocateBoxes n w).2.globals = w.globals := by
  induction n generalizing w with
  | zero => rfl
  | succ n ih => exact ih (w.allocate (.reference .none)).2

theorem storeArguments_globals {f : Function} {references : List Addr} {i : Nat}
    {rest locals locals' : List Value} {w w' : World}
    (h : storeArguments f references i rest locals w = .ok (locals', w')) :
    w'.globals = w.globals := by
  induction rest generalizing i locals w with
  | nil =>
    cases h
    rfl
  | cons v rest ih =>
    obtain ⟨box, -, h⟩ := bind_ok.mp h
    split at h
    · split at h
      · exact ih h
      · cases h
    · obtain ⟨r, -, h⟩ := bind_ok.mp h
      obtain ⟨heap, -, h⟩ := bind_ok.mp h
      have hrest := ih h
      exact hrest

theorem enterClosure_globals {closure : Addr} {f : Function} {captured : List Addr}
    {arguments : List Value} {w w' : World} {frame : Frame}
    (h : enterClosure closure f captured arguments w = .ok (frame, w')) :
    w'.globals = w.globals := by
  unfold enterClosure at h
  split at h
  · cases h
  · obtain ⟨free, -, h⟩ := bind_ok.mp h
    obtain ⟨⟨locals, w₁⟩, h₁, h⟩ := bind_ok.mp h
    cases h
    exact (storeArguments_globals h₁).trans (allocateBoxes_globals _ w)

theorem callBuiltIn_globals {type : Nat} {arguments : List Value} {v : Value} {w w' : World}
    (h : callBuiltIn type arguments w = .ok (v, w')) : w'.globals = w.globals := by
  unfold callBuiltIn at h
  split at h
  · obtain ⟨text, -, h⟩ := bind_ok.mp h
    cases h
    rfl
  · cases h
  · cases h
    rfl
  · cases h
  · split at h
    · obtain ⟨text, -, h⟩ := bind_ok.mp h
      cases h
      rfl
    · cases h
  · cases h
  · cases h

theorem enter_globals {function : Value} {arguments : List Value} {w : World} {r : Entered}
    (h : enter function arguments w = .ok r) :
    (∃ f w', r = .frame f w' ∧ w'.globals = w.globals) ∨
      ∃ v w', r = .value v w' ∧ w'.globals = w.globals := by
  obtain ⟨a, -, h⟩ := bind_ok.mp h
  obtain ⟨o, -, h⟩ := bind_ok.mp h
  split at h
  · obtain ⟨⟨frame, w'⟩, hw, h⟩ := bind_ok.mp h
    cases h
    exact .inl ⟨frame, w', rfl, enterClosure_globals hw⟩
  · obtain ⟨⟨v, w'⟩, hw, h⟩ := bind_ok.mp h
    cases h
    exact .inr ⟨v, w', rfl, callBuiltIn_globals hw⟩
  · cases h

theorem resume_globals {v : Value} {callers : List Frame} {w : World} {m : Machine}
    (h : resume v callers w = .running m) : m.world = w := by
  unfold resume at h
  split at h
  · cases h
  · cases h
    rfl

/-- A step stores the global it is about to store, and no other. -/
theorem step_globals {m m' : Machine} {collect : Bool} (h : m.step collect = .ok (.running m')) :
    m'.world.globals = m.storing.elim m.world.globals fun p => assign p.1 p.2 m.world.globals := by
  unfold Machine.step at h
  unfold Machine.storing
  split at h
  · cases h
  · next f callers hframes =>
    rw [hframes, List.head?_cons, Option.bind_some]
    split at h
    · next hi =>
      rw [hi, resume_globals (Except.ok.inj h)]
      rfl
    · next i hi =>
      rw [hi, Option.bind_some]
      obtain ⟨o, ho, h⟩ := bind_ok.mp h
      rcases exec_outcome ho with ⟨f', w', e, rfl⟩ | ⟨k, rfl⟩ | rfl | rfl
      · cases h
        exact exec_globals ho
      · have hno : f.storing (.call k) = none := rfl
        rw [hno]
        simp only [Frame.exec] at ho
        split at ho
        · obtain ⟨r, -, ho⟩ := bind_ok.mp ho
          cases ho
          obtain ⟨entered, hentered, h⟩ := bind_ok.mp h
          rcases enter_globals hentered with ⟨g, w', rfl, hw⟩ | ⟨v, w', rfl, hw⟩
          · cases h
            exact hw
          · rw [resume_globals (Except.ok.inj h)]
            exact hw
        · cases ho
      · have hno : f.storing .garbageCollect = none := rfl
        rw [hno]
        cases ho
        dsimp only at h
        split at h
        · obtain ⟨⟨heap, n⟩, -, h⟩ := bind_ok.mp h
          cases h
          rfl
        · cases h
          rfl
      · have hno : f.storing .ret = none := rfl
        rw [hno]
        simp only [Frame.exec] at ho
        split at ho
        · cases ho
          rw [resume_globals (Except.ok.inj h)]
          rfl
        · cases ho

/-- The run lemma: the globals are what was stored last. -/
theorem run_globals {choices : List Bool} {m m' : Machine}
    (h : m.run choices = .ok (.running m')) (x : String) :
    m'.world.globals.lookup x =
      ((m.stores choices).lookup x).or (m.world.globals.lookup x) := by
  induction choices generalizing m with
  | nil =>
    cases h
    rfl
  | cons collect rest ih =>
    obtain ⟨p, hp, h⟩ := bind_ok.mp h
    cases p with
    | finished => cases h
    | running m₁ =>
      have hstores : m.stores (collect :: rest) = m₁.stores rest ++ m.storing.toList := by
        rw [Machine.stores, hp]
      rw [ih h, step_globals hp, hstores, List.lookup_append]
      cases m.storing with
      | none =>
        rw [Option.toList_none, List.lookup_nil, Option.or_none]
        rfl
      | some p =>
        rw [Option.toList_some, lookup_cons_ite, List.lookup_nil, Option.elim_some, lookup_assign,
          Option.or_assoc]
        split
        · rfl
        · rfl

theorem start_globals {options : HeapOptions} {input : List String} {main : Function}
    {m : Machine} (h : Machine.start options input main = .ok m) : m.world.globals = [] := by
  unfold Machine.start at h
  obtain ⟨⟨frame, w⟩, hw, h⟩ := bind_ok.mp h
  cases h
  have hglobals := enterClosure_globals hw
  exact hglobals

/-! ### Reads -/

theorem reading_cases {f : Frame} {x : String} {n : Nat} (h : f.reading = some (x, n)) :
    (n = 1 ∧ ∃ i, f.function.instructions[f.ip]? = some (.loadGlobal i) ∧
      f.function.names[i]? = some x) ∨
    (n = 2 ∧ ∃ i, f.function.instructions[f.ip]? = some (.loadConst 0) ∧
      f.function.instructions[f.ip + 1]? = some (.throwUninitialized i) ∧
      f.function.names[i]? = some x) := by
  unfold Frame.reading at h
  split at h
  · next i hi =>
    obtain ⟨y, hy, he⟩ := Option.map_eq_some_iff.mp h
    cases he
    exact .inl ⟨rfl, i, hi, hy⟩
  · next i hi hi' =>
    obtain ⟨y, hy, he⟩ := Option.map_eq_some_iff.mp h
    cases he
    exact .inr ⟨rfl, i, hi, hi', hy⟩
  · cases h

theorem step_next {m : Machine} {f f' : Frame} {callers : List Frame} {i : Instruction}
    {w' : World} {e : Option Event} (hf : m.frames = f :: callers)
    (hi : f.function.instructions[f.ip]? = some i) (h : f.exec i m.world = .ok (.next f' w' e))
    (collect : Bool) : m.step collect = .ok (.running ⟨f' :: callers, w'⟩) := by
  unfold Machine.step
  rw [hf]
  dsimp only
  rw [hi]
  dsimp only
  rw [h]
  rfl

theorem step_error {m : Machine} {f : Frame} {callers : List Frame} {i : Instruction}
    {stop : Stop} (hf : m.frames = f :: callers)
    (hi : f.function.instructions[f.ip]? = some i) (h : f.exec i m.world = .error stop)
    (collect : Bool) : m.step collect = .error stop := by
  unfold Machine.step
  rw [hf]
  dsimp only
  rw [hi]
  dsimp only
  rw [h]
  rfl

/-- A read of a known name. -/
theorem run_loadGlobal {m : Machine} {f : Frame} {callers : List Frame} {i : Nat} {x : String}
    (hf : m.frames = f :: callers) (hi : f.function.instructions[f.ip]? = some (.loadGlobal i))
    (hx : f.function.names[i]? = some x) (collect : Bool) :
    match m.world.globals.lookup x with
    | some v => m.run [collect] = .ok (.running ⟨f.received v 1 :: callers, m.world⟩)
    | none => ∃ text, m.run [collect] = .error (.raised .uninitializedVariable text) := by
  have hexec : f.exec (.loadGlobal i) m.world = f.load (.loadGlobal x) f.stack m.world := by
    rw [Frame.exec, safeIndex_ok.mpr hx]
    rfl
  cases hv : m.world.globals.lookup x with
  | some v =>
    have hnext : f.exec (.loadGlobal i) m.world =
        .ok (.next (f.received v 1) m.world (some (.act (.loadGlobal x)))) := by
      rw [hexec, Frame.load, perform, hv]
      rfl
    rw [Machine.run, step_next hf hi hnext]
    rfl
  | none =>
    have hstop : f.exec (.loadGlobal i) m.world = .error (.raised .uninitializedVariable
        (x ++ " has not been assigned yet, but it has been used")) := by
      rw [hexec, Frame.load, perform, hv]
      rfl
    refine ⟨x ++ " has not been assigned yet, but it has been used", ?_⟩
    rw [Machine.run, step_error hf hi hstop]
    rfl

/-- A read of a name that was unknown. -/
theorem run_throwUninitialized {m : Machine} {f : Frame} {callers : List Frame} {i : Nat}
    {x : String} (hf : m.frames = f :: callers)
    (hi : f.function.instructions[f.ip]? = some (.loadConst 0))
    (hi' : f.function.instructions[f.ip + 1]? = some (.throwUninitialized i))
    (hx : f.function.names[i]? = some x) (c c' : Bool) :
    m.run [c, c'] = if f.function.constants = [] then
        .error (.raised .runtime "Tried to access an index out of bounds.")
      else .error (.raised .uninitializedVariable x) := by
  cases hc : f.function.constants with
  | nil =>
    have hstop : f.exec (.loadConst 0) m.world =
        .error (.raised .runtime "Tried to access an index out of bounds.") := by
      rw [Frame.exec, hc]
      rfl
    rw [if_pos rfl, Machine.run, step_error hf hi hstop]
    rfl
  | cons k constants =>
    have hnext : f.exec (.loadConst 0) m.world =
        .ok (.next (f.advance (constantToValue k :: f.stack)) m.world none) := by
      rw [Frame.exec, hc]
      rfl
    have hstop : (f.advance (constantToValue k :: f.stack)).exec (.throwUninitialized i) m.world =
        .error (.raised .uninitializedVariable x) := by
      rw [Frame.exec]
      show (rawIndex f.function.names i >>= _) = _
      rw [rawIndex_ok.mpr hx]
      rfl
    rw [if_neg (List.cons_ne_nil k constants), Machine.run, step_next hf hi hnext]
    let m₁ : Machine := ⟨f.advance (constantToValue k :: f.stack) :: callers, m.world⟩
    have hstep : m₁.step c' = .error (.raised .uninitializedVariable x) :=
      step_error (m := m₁) rfl hi' hstop c'
    show m₁.run [c'] = _
    rw [Machine.run, hstep]
    rfl

/-- In a state with these globals. -/
theorem readsLatest_iff {m : Machine} {stores : List (String × Value)}
    (h : ∀ x, m.world.globals.lookup x = stores.lookup x) :
    m.ReadsLatest stores ↔ m.ReadsKnown := by
  constructor
  · intro hreads f callers x hf hreading
    have hread := hreads f callers x 2 hf hreading [false, false] rfl
    rcases reading_cases hreading with ⟨hn, -⟩ | ⟨-, i, hi, hi', hx⟩
    · cases hn
    · rw [run_throwUninitialized hf hi hi' hx] at hread
      rw [h x]
      cases hlookup : stores.lookup x with
      | some v =>
        rw [hlookup] at hread
        dsimp only at hread
        split at hread
        · cases hread
        · cases hread
      | none =>
        rw [hlookup] at hread
        obtain ⟨text, hread⟩ := hread
        refine ⟨rfl, fun hc => ?_⟩
        rw [if_pos hc] at hread
        cases hread
  · intro hknown f callers x n hf hreading choices hlen
    rw [← h x]
    rcases reading_cases hreading with ⟨rfl, i, hi, hx⟩ | ⟨rfl, i, hi, hi', hx⟩
    · obtain ⟨c, rfl⟩ := List.length_eq_one_iff.mp hlen
      exact run_loadGlobal hf hi hx c
    · obtain ⟨c, c', rfl⟩ := List.length_eq_two.mp hlen
      obtain ⟨hnone, hc⟩ := hknown f callers x hf hreading
      rw [hnone]
      exact ⟨x, (run_throwUninitialized hf hi hi' hx c c').trans (if_neg hc)⟩

/-! ### The code of a read -/

theorem getElem?_extended {α : Type} {l r : List α} (h : l <+: r) {i : Nat} {a : α}
    (hi : l[i]? = some a) : r[i]? = some a := by
  obtain ⟨hlt, rfl⟩ := List.getElem?_eq_some_iff.mp hi
  exact List.prefix_iff_getElem?.mp h i hlt

theorem visitName_unknown {s : State} {x : String} (isGlobal : Bool) (hg : x ∉ s.node.globals)
    (h : s.TakesAsGlobal x) : visitName isGlobal false x s =
      ((s.insertName x).output (.loadConst 0)).output (.throwUninitialized (s.nameIndex x)) := by
  obtain ⟨hfree, hreference, hlocal⟩ := h.resolve_left hg
  simp only [visitName, if_neg hg, index_eq_none.mpr hfree, index_eq_none.mpr hreference,
    index_eq_none.mpr hlocal]
  rfl

theorem visitName_known {s : State} {x : String} (isGlobal : Bool) (hg : x ∈ s.node.globals) :
    visitName isGlobal false x s =
      s.output (.loadGlobal ((index s.node.function.names x).getD 0)) := by
  simp only [visitName, if_pos hg]
  rfl

/-- The code of a read of `x`: one instruction if the name is a known global there. -/
theorem reading_visitName {s : State} (hs : s.Ready) {x : String} (hx : s.TakesAsGlobal x)
    (isGlobal : Bool) {f : Frame} (hf : f.At s (visitName isGlobal false x s)) :
    f.reading = some (x, if x ∈ s.node.globals then 1 else 2) := by
  obtain ⟨hip, hcode, hnames⟩ := hf
  unfold Frame.reading
  rw [hip, State.count]
  by_cases hg : x ∈ s.node.globals
  · rw [visitName_known isGlobal hg] at hcode hnames
    obtain ⟨i, hi⟩ := Option.isSome_iff_exists.mp (index_isSome.mpr (hs.globals x hg))
    have hget : f.function.instructions[s.node.function.instructions.length]? =
        some (.loadGlobal ((index s.node.function.names x).getD 0)) :=
      getElem?_extended hcode List.getElem?_concat_length
    have hname : f.function.names[i]? = some x := getElem?_extended hnames (index_getElem? hi)
    rw [hget, hi, if_pos hg]
    dsimp only [Option.getD_some]
    rw [hname]
    rfl
  · rw [visitName_unknown isGlobal hg hx] at hcode hnames
    have hget : f.function.instructions[s.node.function.instructions.length]? =
        some (.loadConst 0) := by
      refine getElem?_extended ((List.prefix_append _ _).trans hcode) ?_
      exact List.getElem?_concat_length
    have hget' : f.function.instructions[s.node.function.instructions.length + 1]? =
        some (.throwUninitialized (s.nameIndex x)) := by
      refine getElem?_extended hcode ?_
      show ((s.node.function.instructions ++ [.loadConst 0]) ++ [_])[_]? = _
      have hlen : s.node.function.instructions.length + 1 =
          (s.node.function.instructions ++ [Instruction.loadConst 0]).length := by
        rw [List.length_append]
        rfl
      rw [hlen]
      exact List.getElem?_concat_length
    have hname : f.function.names[s.nameIndex x]? = some x :=
      getElem?_extended hnames (insertIndex_getElem? s.node.function.names x)
    rw [hget, hget', if_neg hg]
    show f.function.names[s.nameIndex x]?.map (·, 2) = _
    rw [hname]
    rfl

/-- The code of a store of `x`, at the top level or where the name is a known global. -/
theorem storing_visitName {s : State} (hs : s.Ready) {x : String} (hx : s.TakesAsGlobal x)
    {isGlobal : Bool} (hknown : isGlobal = true ∨ x ∈ s.node.globals) {f : Frame}
    (hf : f.At s (visitName isGlobal true x s)) {v : Value} {stack : List Value}
    (hstack : f.stack = v :: stack) :
    f.function.instructions[f.ip]?.bind f.storing = some (x, v) := by
  obtain ⟨hip, hcode, hnames⟩ := hf
  have hstores {i : Nat}
      (hi : f.function.instructions[s.node.function.instructions.length]? = some (.storeGlobal i))
      (hname : f.function.names[i]? = some x) :
      f.function.instructions[f.ip]?.bind f.storing = some (x, v) := by
    rw [hip, State.count, hi, Option.bind_some, Frame.storing, hstack, hname]
    rfl
  by_cases hg : x ∈ s.node.globals
  · have hvisit : visitName isGlobal true x s =
        s.output (.storeGlobal ((index s.node.function.names x).getD 0)) := by
      simp only [visitName, if_pos hg]
      rfl
    rw [hvisit] at hcode hnames
    obtain ⟨i, hi⟩ := Option.isSome_iff_exists.mp (index_isSome.mpr (hs.globals x hg))
    rw [hi] at hcode
    exact hstores (getElem?_extended hcode List.getElem?_concat_length)
      (getElem?_extended hnames (index_getElem? hi))
  · obtain ⟨hfree, hreference, hlocal⟩ := hx.resolve_left hg
    obtain rfl := hknown.resolve_right hg
    simp only [visitName, if_neg hg, index_eq_none.mpr hfree, index_eq_none.mpr hreference,
      index_eq_none.mpr hlocal, Bool.and_self, if_true] at hcode hnames
    exact hstores (getElem?_extended hcode List.getElem?_concat_length)
      (getElem?_extended hnames (insertIndex_getElem? s.node.function.names x))

end GlobalVariablesLemmas

open GlobalVariablesLemmas

/-! ## The result -/

/-- `f = fun() { return g; }; g = 1; f();` -/
def forwardReference : Program :=
  .cons (.assignment (.name "f") (.function [] (.cons (.ret (.lhs (.name "g"))) .nil)))
    (.cons (.assignment (.name "g") (.intConst 1)) (.cons (.callStatement (.name "f") .nil) .nil))

end Beaverc

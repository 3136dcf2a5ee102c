import Beaverc.CompilerCorrectness
import Beaverc.Generations

/-!
# The code of function values

A function object of the heap has code that its program was compiled to: new
code comes from the table of a running closure only. So a call enters a function
of the program (`enter_started`), whatever was done to the heap before.
-/

namespace Beaverc
open Results CollectedHeap StepsLemmas

/-- The code of a function object that is not native. -/
def Payload.code? : Payload → Option Function
  | .bareFunction f | .closure f _ => some f
  | _ => none

/-- Every function object of the heap has code in `C`. -/
def CollectedHeap.CodeIn (C : Function → Prop) (h : CollectedHeap) : Prop :=
  ∀ a o f, h.store a = some o → o.payload.code? = some f → C f

namespace FunctionValuesLemmas

variable {C : Function → Prop} {h h' : CollectedHeap} {w w' : World}

/-! ## The heap -/

theorem deref_ok {a : Addr} {o : Object} : h.deref a = .ok o ↔ h.store a = some o := by
  unfold deref
  cases h.store a <;> simp

theorem codeIn_store (hc : h.CodeIn C) (hs : h'.store = h.store) : h'.CodeIn C := by
  intro a o f ho
  rw [hs] at ho
  exact hc a o f ho

theorem no_code {p : Payload} (hp : p.code? = none) : ∀ f, p.code? = some f → C f := by
  intro f hf
  rw [hp] at hf
  cases hf

theorem codeIn_update (hc : h.CodeIn C) {a : Addr} {o : Option Object}
    (hs : h'.store = Function.update h.store a o)
    (ho : ∀ o' f, o = some o' → o'.payload.code? = some f → C f) : h'.CodeIn C := by
  intro b o' f hb hf
  rw [hs, Function.update_apply] at hb
  split at hb
  · exact ho o' f hb hf
  · exact hc b o' f hb hf

theorem codeIn_allocate (hc : h.CodeIn C) {p : Payload} (hp : ∀ f, p.code? = some f → C f) :
    (h.allocate p).2.CodeIn C := by
  refine codeIn_update hc (a := h.next) (o := some ⟨false, 0, p⟩) rfl ?_
  rintro o' f ⟨⟩ hf
  exact hp f hf

theorem codeIn_setPayload (hc : h.CodeIn C) (a : Addr) {p : Payload}
    (hp : ∀ f, p.code? = some f → C f) : (h.setPayload a p).CodeIn C := by
  refine codeIn_update hc (a := a) rfl ?_
  intro o' f ho hf
  obtain ⟨o, -, rfl⟩ := Option.map_eq_some_iff.mp ho
  exact hp f hf

theorem codeIn_remember {owner : Addr} {slot : Slot} {v : Value} (hc : h.CodeIn C)
    (he : h.remember owner slot v = .ok h') : h'.CodeIn C := by
  obtain ⟨cross, rfl, -⟩ := GenerationLemmas.remember_cases he
  exact codeIn_store hc rfl

theorem codeIn_recordGet {a : Addr} {key : String} {v : Value} (hc : h.CodeIn C)
    (he : h.recordGet a key = .ok (v, h')) : h'.CodeIn C := by
  obtain ⟨o, -, he⟩ := bind_ok.mp he
  split at he
  · split at he
    · cases he
      exact hc
    · cases he
      exact codeIn_setPayload hc a (no_code rfl)
  · cases he

theorem codeIn_recordInsert {a : Addr} {key : String} {v : Value} (hc : h.CodeIn C)
    (he : h.recordInsert a key v = .ok h') : h'.CodeIn C := by
  obtain ⟨o, -, he⟩ := bind_ok.mp he
  split at he
  · refine codeIn_remember (codeIn_setPayload ?_ a (no_code rfl)) he
    split
    · exact codeIn_store hc rfl
    · exact hc
  · cases he

theorem codeIn_referenceWrite {a : Addr} {v : Value} (hc : h.CodeIn C)
    (he : h.referenceWrite a v = .ok h') : h'.CodeIn C := by
  obtain ⟨o, -, he⟩ := bind_ok.mp he
  split at he
  · exact codeIn_remember (codeIn_setPayload hc a (no_code rfl)) he
  · cases he

theorem codeIn_addReference {a r : Addr} (hc : h.CodeIn C) (he : h.addReference a r = .ok h') :
    h'.CodeIn C := by
  obtain ⟨o, ho, he⟩ := bind_ok.mp he
  split at he
  · next f references hp =>
    cases he
    refine codeIn_setPayload (h := h.increaseSize _) (codeIn_store hc rfl) a ?_
    rintro g ⟨⟩
    exact hc a o f (deref_ok.mp ho) (by rw [hp]; rfl)
  · cases he

/-! ## Actions -/

theorem codeIn_addReferences {a : Addr} {references : List Value} (hc : w.heap.CodeIn C)
    (he : w.addReferences a references = .ok w') : w'.heap.CodeIn C := by
  induction references generalizing w with
  | nil =>
    cases he
    exact hc
  | cons v rest ih =>
    obtain ⟨r, -, he⟩ := bind_ok.mp he
    obtain ⟨heap, hr, he⟩ := bind_ok.mp he
    exact ih (w := { w with heap := heap }) (codeIn_addReference hc hr) he

theorem codeIn_flatten {v u : Value} (hc : w.heap.CodeIn C) (he : w.flatten v = .ok (u, w')) :
    w'.heap.CodeIn C := by
  unfold World.flatten at he
  split at he
  · obtain ⟨s, -, he⟩ := bind_ok.mp he
    cases he
    exact codeIn_allocate hc (no_code rfl)
  · cases he
    exact hc

theorem codeIn_add {left right u : Value} (hc : w.heap.CodeIn C)
    (he : w.add left right = .ok (u, w')) : w'.heap.CodeIn C := by
  unfold World.add at he
  split at he
  · split at he
    · obtain ⟨⟨l, w₁⟩, hl, he⟩ := bind_ok.mp he
      obtain ⟨⟨r, w₂⟩, hr, he⟩ := bind_ok.mp he
      cases he
      exact codeIn_allocate (codeIn_flatten (codeIn_flatten hc hl) hr) (no_code rfl)
    · obtain ⟨l, -, he⟩ := bind_ok.mp he
      obtain ⟨r, -, he⟩ := bind_ok.mp he
      cases he
      exact codeIn_allocate hc (no_code rfl)
  · split at he
    · cases he
      exact hc
    · cases he

/-- A function is loaded from the table of a function that is there. -/
theorem codeIn_allocateFunction {closure : Addr} {i : Int} {u : Value}
    (hC : ∀ f g, C f → g ∈ f.functions → C g) (hc : w.heap.CodeIn C)
    (he : w.allocateFunction closure i = .ok (u, w')) : w'.heap.CodeIn C := by
  unfold World.allocateFunction at he
  split at he
  · split at he
    · cases he
      exact codeIn_allocate hc (no_code rfl)
    · cases he
  · obtain ⟨o, ho, he⟩ := bind_ok.mp he
    split at he
    · next f references hp =>
      obtain ⟨g, hg, he⟩ := bind_ok.mp he
      cases he
      refine codeIn_allocate hc ?_
      rintro g' ⟨⟩
      exact hC f g (hc closure o f (deref_ok.mp ho) (by rw [hp]; rfl))
        (List.mem_of_getElem? (safeIndex_ok.mp hg))
    · cases he

theorem codeIn_allocClosure {function u : Value} {references : List Value} (hc : w.heap.CodeIn C)
    (he : w.allocClosure function references = .ok (u, w')) : w'.heap.CodeIn C := by
  obtain ⟨a, -, he⟩ := bind_ok.mp he
  obtain ⟨o, ho, he⟩ := bind_ok.mp he
  split at he
  · next g hp =>
    obtain ⟨w₁, hr, he⟩ := bind_ok.mp he
    cases he
    refine codeIn_addReferences (codeIn_allocate hc ?_) hr
    rintro g' ⟨⟩
    exact hc a o g (deref_ok.mp ho) (by rw [hp]; rfl)
  · cases he

theorem codeIn_getField {record u : Value} {key : String} (hc : w.heap.CodeIn C)
    (he : w.getField record key = .ok (u, w')) : w'.heap.CodeIn C := by
  obtain ⟨a, -, he⟩ := bind_ok.mp he
  obtain ⟨⟨v, heap⟩, hv, he⟩ := bind_ok.mp he
  cases he
  exact codeIn_recordGet hc hv

theorem codeIn_setField {record v u : Value} {key : String} (hc : w.heap.CodeIn C)
    (he : w.setField record key v = .ok (u, w')) : w'.heap.CodeIn C := by
  obtain ⟨a, -, he⟩ := bind_ok.mp he
  obtain ⟨heap, hv, he⟩ := bind_ok.mp he
  cases he
  exact codeIn_recordInsert hc hv

theorem codeIn_perform {a : Action} {u : Value} (hC : ∀ f g, C f → g ∈ f.functions → C g)
    (hc : w.heap.CodeIn C) (he : perform a w = .ok (u, w')) : w'.heap.CodeIn C := by
  cases a with
  | loadFunc closure i => exact codeIn_allocateFunction hC hc he
  | loadGlobal name =>
    rw [perform] at he
    split at he
    · cases he
      exact hc
    · cases he
  | storeGlobal name v =>
    cases he
    exact hc
  | loadReference r =>
    obtain ⟨o, -, he⟩ := bind_ok.mp he
    split at he
    · cases he
      exact hc
    · cases he
  | storeReference r v =>
    obtain ⟨heap, hr, he⟩ := bind_ok.mp he
    cases he
    exact codeIn_referenceWrite hc hr
  | allocRecord =>
    cases he
    exact codeIn_allocate hc (no_code rfl)
  | fieldLoad record name => exact codeIn_getField hc he
  | fieldStore record name v => exact codeIn_setField hc he
  | indexLoad record index =>
    obtain ⟨name, -, he⟩ := bind_ok.mp he
    exact codeIn_getField hc he
  | indexStore record index v =>
    obtain ⟨name, -, he⟩ := bind_ok.mp he
    exact codeIn_setField hc he
  | allocClosure function references => exact codeIn_allocClosure hc he
  | add left right => exact codeIn_add hc he
  | eq left right =>
    obtain ⟨v, -, he⟩ := bind_ok.mp he
    cases he
    exact hc

/-! ## Calls -/

theorem allocateBoxes_code (n : Nat) (hc : w.heap.CodeIn C) :
    (allocateBoxes n w).2.heap.CodeIn C := by
  induction n generalizing w with
  | zero => exact hc
  | succ n ih =>
    exact ih (w := (w.allocate (.reference .none)).2) (codeIn_allocate hc (no_code rfl))

theorem allocateBoxes_length (n : Nat) (w : World) : (allocateBoxes n w).1.length = n := by
  induction n generalizing w with
  | zero => rfl
  | succ n ih => exact congrArg (· + 1) (ih (w.allocate (.reference .none)).2)

theorem storeArguments_code {f : Function} {references : List Addr} {i : Nat}
    {rest locals locals' : List Value} (hc : w.heap.CodeIn C)
    (he : storeArguments f references i rest locals w = .ok (locals', w')) :
    w'.heap.CodeIn C ∧ locals'.length = locals.length := by
  induction rest generalizing i locals w with
  | nil =>
    cases he
    exact ⟨hc, rfl⟩
  | cons v rest ih =>
    obtain ⟨box, -, he⟩ := bind_ok.mp he
    split at he
    · split at he
      · obtain ⟨hcode, hlength⟩ := ih hc he
        exact ⟨hcode, hlength.trans List.length_set⟩
      · cases he
    · obtain ⟨r, -, he⟩ := bind_ok.mp he
      obtain ⟨heap, hr, he⟩ := bind_ok.mp he
      exact ih (w := { w with heap := heap }) (codeIn_referenceWrite hc hr) he

theorem mapM_length {α β : Type} {g : α → Except Stop β} {l : List α} {bs : List β}
    (h : l.mapM g = .ok bs) : bs.length = l.length := by
  induction l generalizing bs with
  | nil =>
    cases h
    rfl
  | cons a l ih =>
    rw [List.mapM_cons] at h
    obtain ⟨b, -, h⟩ := bind_ok.mp h
    obtain ⟨bs', hbs, h⟩ := bind_ok.mp h
    cases h
    exact congrArg (· + 1) (ih hbs)

/-- What a call has done where `run_function` begins. -/
theorem enterClosure_started {closure : Addr} {f : Function} {captured : List Addr}
    {arguments : List Value} {frame : Frame} (hc : w.heap.CodeIn C)
    (he : enterClosure closure f captured arguments w = .ok (frame, w')) :
    frame.Starts f ∧ w'.heap.CodeIn C := by
  unfold enterClosure at he
  split at he
  · cases he
  · obtain ⟨free, hfree, he⟩ := bind_ok.mp he
    obtain ⟨⟨locals, w₁⟩, hlocals, he⟩ := bind_ok.mp he
    obtain ⟨hcode, hlength⟩ := storeArguments_code (allocateBoxes_code _ hc) hlocals
    cases he
    refine ⟨⟨rfl, rfl, rfl, ?_, ?_⟩, hcode⟩
    · rw [List.length_append, allocateBoxes_length, mapM_length hfree, List.length_range]
      rfl
    · rw [hlength, List.length_replicate]

theorem callBuiltIn_code {type : Nat} {arguments : List Value} {v : Value}
    (hc : w.heap.CodeIn C) (he : callBuiltIn type arguments w = .ok (v, w')) :
    w'.heap.CodeIn C := by
  unfold callBuiltIn at he
  split at he
  · obtain ⟨text, -, he⟩ := bind_ok.mp he
    cases he
    exact hc
  · cases he
  · cases he
    exact codeIn_allocate hc (no_code rfl)
  · cases he
  · split at he
    · obtain ⟨text, -, he⟩ := bind_ok.mp he
      cases he
      exact hc
    · cases he
  · cases he
  · cases he

/-- A call enters a function of the heap, or answers at once. -/
theorem enter_started {function : Value} {arguments : List Value} {r : Entered}
    (hc : w.heap.CodeIn C) (he : enter function arguments w = .ok r) :
    (∃ f frame w', r = .frame frame w' ∧ C f ∧ frame.Starts f ∧ w'.heap.CodeIn C) ∨
      ∃ v w', r = .value v w' ∧ w'.heap.CodeIn C := by
  obtain ⟨a, -, he⟩ := bind_ok.mp he
  obtain ⟨o, ho, he⟩ := bind_ok.mp he
  split at he
  · next f captured hp =>
    obtain ⟨⟨frame, w'⟩, hentered, he⟩ := bind_ok.mp he
    cases he
    obtain ⟨hstarts, hcode⟩ := enterClosure_started hc hentered
    exact .inl ⟨f, frame, w', rfl, hc a o f (deref_ok.mp ho) (by rw [hp]; rfl), hstarts, hcode⟩
  · obtain ⟨⟨v, w'⟩, hv, he⟩ := bind_ok.mp he
    cases he
    exact .inr ⟨v, w', rfl, callBuiltIn_code hc hv⟩
  · cases he

end FunctionValuesLemmas

end Beaverc

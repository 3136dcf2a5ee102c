import Mathlib.Data.Fintype.EquivFin
import Beaverc.Prologue

/-!
# How arguments get to their parameters

The layout of a function, the prologue of a call and `visit(Name&)` fit together if
the parameters are distinct, none is captured under its own name from the function
around, and a literal that captures one through a function in between mentions it
before the parameters of that function which have the name of something captured
there: then each read of a parameter, in the body and in the closures that capture
it, finds its argument.
-/

namespace Beaverc
open Tables Results DisciplineLemmas VisitsLemmas OperandsLemmas StepsLemmas
  CollectedHeap.GenerationLemmas PrologueLemmas

/-! ## Closures that capture a parameter -/

/-- The literal `m` in the body captures `p`: it mentions it, and has no parameter of
that name. -/
structure Site.Hands (a : Site) (p : String) (s : State) (m : Literal) (n : Nat) : Prop where
  inBody : a.InBody s
  inner : m ∈ a.literal.body.literals
  apart : p ∉ m.arguments
  free : p ∈ (a.inner s m n).layout.freeVars

/-- In a call of the literal at `a` with the boxes `boxes`, the closure of the literal
at `c` captures `p`, maybe through literals in between; a call of it has the
boxes `boxes'`. A literal with a parameter `p` of its own captures none. -/
inductive Captures (a : Site) (boxes : List Addr) (p : String) : Site → List Addr → Prop
  | direct {s : State} {m : Literal} {n : Nat} {captured own : List Addr} :
      a.Hands p s m n →
      (captures s.node m.body).mapM (boxes[·]?) = some captured →
      own.length = (a.inner s m n).layout.localReferenceVars.length →
      Captures a boxes p (a.inner s m n)
        (own ++ captured.take (a.inner s m n).layout.freeVars.length)
  | deeper {b : Site} {boxes' : List Addr} {s : State} {m : Literal} {n : Nat}
      {captured own : List Addr} : Captures a boxes p b boxes' → b.Hands p s m n →
      (captures s.node m.body).mapM (boxes'[·]?) = some captured →
      own.length = (b.inner s m n).layout.localReferenceVars.length →
      Captures a boxes p (b.inner s m n)
        (own ++ captured.take (b.inner s m n).layout.freeVars.length)

/-- The literal at `b` captures `p` from the one at `a`, maybe through literals in
between. -/
inductive CapturedIn (a : Site) (p : String) : Site → Prop
  | direct {s : State} {m : Literal} {n : Nat} : a.Hands p s m n →
      CapturedIn a p (a.inner s m n)
  | deeper {b : Site} {s : State} {m : Literal} {n : Nat} : CapturedIn a p b →
      b.Hands p s m n → CapturedIn a p (b.inner s m n)

namespace Site

/-- No parameter has the name of a captured variable. -/
def KeepsCapturesApart (a : Site) : Prop :=
  ∀ p ∈ a.literal.arguments, p ∉ a.layout.freeVars

/-- The parameters are distinct, and none has the name of a captured variable. -/
structure PlainParameters (a : Site) : Prop where
  distinct : a.literal.arguments.Nodup
  apart : a.KeepsCapturesApart

/-- After the prologue the variables are bound. -/
structure Bound (a : Site) (arguments : List Value) (frame : Frame) (w : World) : Prop where
  slots : frame.locals.length = a.function.localVars.length ∧
    frame.references.length = a.function.numReferences
  parameters : ∀ s, a.InBody s → ∀ p v, a.argument arguments p = some v →
    p ∉ getGlobals a.literal.body → Reads s p frame w v
  -- in a body that declares it global, the name is not the parameter's
  globals : ∀ s, a.InBody s → ∀ p ∈ a.literal.arguments, p ∈ getGlobals a.literal.body →
    ∃ i, visitName false false p s = s.output (.loadGlobal i)
  others : ∀ s, a.InBody s → ∀ x ∈ a.layout.localVars, x ∉ a.literal.arguments →
    Reads s x frame w .none
  closures : ∀ p v, a.argument arguments p = some v →
    ∀ c boxes, Captures a frame.references p c boxes → ∀ s, c.InBody s →
    ∀ callee : Frame, callee.references = boxes →
    ∀ w' : World, (∀ b ∈ frame.references, w'.heap.box b = w.heap.box b) → Reads s p callee w' v

/-- What a call starts with: as many arguments as parameters, a box for each captured
variable, and no argument that points to a deleted object. -/
structure Callable (a : Site) (captured : List Addr) (arguments : List Value) (w : World) :
    Prop where
  count : arguments.length = a.literal.arguments.length
  captures : captured.length = a.layout.freeVars.length
  boxes : ∀ b ∈ captured, (w.heap.box b).isSome = true
  values : ∀ v ∈ arguments, ∀ b, v.pointer? = some b → (w.heap.store b).isSome = true

/-- A literal in the body that captures `p` mentions it before each variable that it
captures twice, from this function and from the functions around: a parameter of this
function with the name of a variable that it captures. -/
def KeepsOrder (b : Site) (p : String) : Prop :=
  ∀ s m n, b.Hands p s m n →
    ∀ q ∈ localRef0s s.node m.body, q ∈ freeRef0s s.node m.body →
      (freeRef0s s.node m.body).idxOf p < (freeRef0s s.node m.body).idxOf q

/-- The parameters are plain, and stay in order in the literals that capture them. -/
structure BindableParameters (a : Site) : Prop extends a.PlainParameters where
  order : ∀ p ∈ a.literal.arguments, ∀ b, CapturedIn a p b → b.KeepsOrder p

/-- Every call gets through its prologue, touching only the slots there are, and all
reads find what they should. -/
def BindsArguments (a : Site) : Prop :=
  ∀ closure captured arguments w, a.Callable captured arguments w →
    ∃ frame w', enterClosure closure a.function captured arguments w = .ok (frame, w') ∧
      a.Bound arguments frame w'

end Site

namespace ParameterPassingLemmas

variable {a : Site}

theorem localVars_not_captured (h : a.KeepsCapturesApart) {x : String}
    (hx : x ∈ a.layout.localVars) : x ∉ a.layout.freeVars := by
  intro hf
  rcases mem_localVars.mp hx with hp | hl
  · exact h x hp hf
  · exact (freeVars_outside hf).1 hl

/-! ### Captured boxes -/

section Captured

variable {s : State} {m : Literal} {n : Nat}

theorem inBody_layout (hs : a.InBody s) :
    s.node.function.localVars = a.layout.localVars ∧
      s.node.function.localReferenceVars = a.layout.localReferenceVars ∧
      s.node.function.freeVars = a.layout.freeVars ∧
      s.node.freeReferenceVars = a.layout.freeReferenceVars :=
  ⟨congrArg Layout.localVars hs.layout, congrArg Layout.localReferenceVars hs.layout,
    congrArg Layout.freeVars hs.layout, congrArg Layout.freeReferenceVars hs.layout⟩

theorem localRef0s_local (hs : a.InBody s) {x : String} (h : x ∈ localRef0s s.node m.body) :
    x ∈ a.layout.localReferenceVars :=
  (inBody_layout hs).2.1 ▸ mem_getOuterRefs h

theorem freeRef0s_free (hs : a.InBody s) {x : String} (h : x ∈ freeRef0s s.node m.body) :
    x ∈ a.layout.freeVars := by
  have hx : x ∈ s.node.freeReferenceVars := mem_getOuterRefs h
  rw [(inBody_layout hs).2.2.2] at hx
  exact mem_getInnerRefs ((mem_insertAll.mp hx).resolve_left List.not_mem_nil)

/-- The captured variables of a literal are first the local ones, then those captured
before, without what is among the local ones already. -/
theorem inner_freeVars (a : Site) (s : State) (m : Literal) (n : Nat) :
    (a.inner s m n).layout.freeVars = localRef0s s.node m.body ++
      (freeRef0s s.node m.body).filter (· ∉ localRef0s s.node m.body) := by
  have hlocal : (localRef0s s.node m.body).Nodup := outerRefs_nodup _ _ _ _
  have hfirst : insertAll [] (localRef0s s.node m.body) = localRef0s s.node m.body :=
    insertAll_of_nodup (v := []) hlocal
  show insertAll (insertAll [] (localRef0s s.node m.body)) (freeRef0s s.node m.body) = _
  rw [hfirst]
  exact insertAll_filter (outerRefs_nodup _ _ _ _)

theorem getElem?_mapM {l : List Nat} {f : Nat → Option Addr} {r : List Addr}
    (h : l.mapM f = some r) (i : Nat) : r[i]? = l[i]?.bind f := by
  induction l generalizing r i with
  | nil =>
    cases h
    rfl
  | cons k l ih =>
    rw [List.mapM_cons] at h
    obtain ⟨b, hb, h⟩ := Option.bind_eq_some_iff.mp h
    obtain ⟨r', hr, h⟩ := Option.bind_eq_some_iff.mp h
    cases h
    cases i with
    | zero => exact hb.symm
    | succ i => exact ih hr i

theorem length_mapM {l : List Nat} {f : Nat → Option Addr} {r : List Addr}
    (h : l.mapM f = some r) : r.length = l.length := by
  induction l generalizing r with
  | nil =>
    cases h
    rfl
  | cons k l ih =>
    rw [List.mapM_cons] at h
    obtain ⟨b, -, h⟩ := Option.bind_eq_some_iff.mp h
    obtain ⟨r', hr, h⟩ := Option.bind_eq_some_iff.mp h
    cases h
    exact congrArg (· + 1) (ih hr)

theorem mapM_of_isSome {l : List Nat} {f : Nat → Option Addr}
    (h : ∀ k ∈ l, (f k).isSome = true) : ∃ r, l.mapM f = some r := by
  induction l with
  | nil => exact ⟨[], rfl⟩
  | cons k l ih =>
    obtain ⟨b, hb⟩ := Option.isSome_iff_exists.mp (h k List.mem_cons_self)
    obtain ⟨r, hr⟩ := ih fun k' hk' => h k' (List.mem_cons_of_mem k hk')
    refine ⟨b :: r, ?_⟩
    rw [List.mapM_cons, hb, hr]
    rfl

section Boxes

variable {boxes captured : List Addr} {x : String} {i : Nat}

/-- A captured box is the one of a variable of the function around, or of one captured
there. -/
theorem captured_local (hs : a.InBody s)
    (hm : (captures s.node m.body).mapM (boxes[·]?) = some captured)
    (hi : (localRef0s s.node m.body)[i]? = some x) :
    captured[i]? = boxes[(index a.layout.localReferenceVars x).getD 0]? := by
  obtain ⟨hlt, -⟩ := List.getElem?_eq_some_iff.mp hi
  rw [getElem?_mapM hm, captures, (inBody_layout hs).2.1,
    List.getElem?_append_left (by rwa [List.length_map]), List.getElem?_map, hi]
  rfl

theorem captured_free (hs : a.InBody s)
    (hm : (captures s.node m.body).mapM (boxes[·]?) = some captured)
    (hi : (freeRef0s s.node m.body)[i]? = some x) :
    captured[(localRef0s s.node m.body).length + i]? =
      boxes[a.layout.localReferenceVars.length + (index a.layout.freeVars x).getD 0]? := by
  obtain ⟨-, hreference, hfree, -⟩ := inBody_layout hs
  rw [getElem?_mapM hm, captures, hreference, hfree,
    List.getElem?_append_right (by rw [List.length_map]; exact Nat.le_add_right _ _),
    List.length_map, Nat.add_sub_cancel_left, List.getElem?_map, hi]
  rfl

theorem captured_length (hm : (captures s.node m.body).mapM (boxes[·]?) = some captured) :
    captured.length = (localRef0s s.node m.body).length + (freeRef0s s.node m.body).length := by
  rw [length_mapM hm, captures, List.length_append, List.length_map, List.length_map]

/-- Where a captured variable of the function around is in the closure. -/
theorem index_inner_local (n : Nat) (hx : x ∈ localRef0s s.node m.body)
    (hi : index (a.inner s m n).layout.freeVars x = some i) :
    (localRef0s s.node m.body)[i]? = some x := by
  rw [inner_freeVars, index_append hx] at hi
  exact index_getElem? hi

theorem index_inner_free (n : Nat) (hx : x ∉ localRef0s s.node m.body)
    (hi : index (a.inner s m n).layout.freeVars x = some i) :
    i = (localRef0s s.node m.body).length +
      ((freeRef0s s.node m.body).filter (· ∉ localRef0s s.node m.body)).idxOf x := by
  have hidx := index_eq_some hi
  rw [inner_freeVars, List.idxOf_append, if_neg hx] at hidx
  omega

/-- It is where it is among the variables captured before if nothing was left out in
front of it. -/
theorem filtered_iff (hx : x ∉ localRef0s s.node m.body) (hf : x ∈ freeRef0s s.node m.body) :
    ((freeRef0s s.node m.body).filter (· ∉ localRef0s s.node m.body)).idxOf x =
        (freeRef0s s.node m.body).idxOf x ↔
      ∀ q ∈ localRef0s s.node m.body, q ∈ freeRef0s s.node m.body →
        (freeRef0s s.node m.body).idxOf x < (freeRef0s s.node m.body).idxOf q := by
  have hiff : ((freeRef0s s.node m.body).filter (· ∉ localRef0s s.node m.body)).idxOf x =
        (freeRef0s s.node m.body).idxOf x ↔
      ∀ q ∈ freeRef0s s.node m.body, decide (q ∉ localRef0s s.node m.body) = false →
        (freeRef0s s.node m.body).idxOf x < (freeRef0s s.node m.body).idxOf q :=
    idxOf_filter_eq_iff (decide_eq_true hx) hf
  refine hiff.trans ⟨fun h q hq hqf => h q hqf ?_, fun h q hqf hq => h q ?_ hqf⟩
  · exact decide_eq_false (not_not.mpr hq)
  · exact not_not.mp (of_decide_eq_false hq)

end Boxes

end Captured

/-- The box that a closure has for a parameter is the one of the call. -/
structure Reaches (a : Site) (boxes : List Addr) (p : String) (c : Site) (boxes' : List Addr) :
    Prop where
  free : p ∈ c.layout.freeVars
  boxed : p ∈ a.layout.localReferenceVars
  same : ∀ i k, index c.layout.freeVars p = some i →
    index a.layout.localReferenceVars p = some k →
    boxes'[c.layout.localReferenceVars.length + i]? = boxes[k]?

theorem getElem?_closure {own captured : List Addr} {c : Site} {p : String} {i : Nat}
    (hown : own.length = c.layout.localReferenceVars.length)
    (hi : index c.layout.freeVars p = some i) :
    (own ++ captured.take c.layout.freeVars.length)[c.layout.localReferenceVars.length + i]? =
      captured[i]? := by
  rw [← hown, List.getElem?_append_right (Nat.le_add_right _ _), Nat.add_sub_cancel_left,
    List.getElem?_take_of_lt (index_lt hi)]

/-- The literals in between have no parameter of the name. -/
theorem apart_of_capturedIn {p : String} {b : Site} (h : CapturedIn a p b) :
    p ∉ b.literal.arguments := by
  cases h with
  | direct h => exact h.apart
  | deeper _ h => exact h.apart

theorem free_of_capturedIn {p : String} {b : Site} (h : CapturedIn a p b) :
    p ∈ b.layout.freeVars := by
  cases h with
  | direct h => exact h.free
  | deeper _ h => exact h.free

theorem capturedIn_of_captures {boxes boxes' : List Addr} {p : String} {c : Site}
    (h : Captures a boxes p c boxes') : CapturedIn a p c := by
  induction h with
  | direct h => exact .direct h
  | deeper _ h _ _ ih => exact .deeper ih h

/-- A parameter is captured from its own function under the local variables. -/
theorem hands_local (h : a.KeepsCapturesApart) {p : String} (hp : p ∈ a.literal.arguments)
    {s : State} {m : Literal} {n : Nat} (hh : a.Hands p s m n) :
    p ∈ localRef0s s.node m.body := by
  rcases mem_freeVars.mp hh.free with hx | hx
  · exact hx
  · exact absurd (freeRef0s_free hh.inBody hx) (h p hp)

/-- From a literal in between it is captured under those captured before. -/
theorem hands_free {p : String} {b : Site} (hb : CapturedIn a p b) {s : State} {m : Literal}
    {n : Nat} (hh : b.Hands p s m n) :
    p ∉ localRef0s s.node m.body ∧ p ∈ freeRef0s s.node m.body := by
  have hnot : p ∉ localRef0s s.node m.body := by
    intro hx
    rcases mem_localVars.mp (mem_localReferenceVars (localRef0s_local hh.inBody hx)) with hp | hl
    · exact apart_of_capturedIn hb hp
    · exact (freeVars_outside (free_of_capturedIn hb)).1 hl
  exact ⟨hnot, (mem_freeVars.mp hh.free).resolve_left hnot⟩

/-- The induction over the closures in between. -/
theorem reaches_of_captures (h : a.KeepsCapturesApart) {boxes boxes' : List Addr} {p : String}
    {c : Site} (hp : p ∈ a.literal.arguments) (ho : ∀ b, CapturedIn a p b → b.KeepsOrder p)
    (hc : Captures a boxes p c boxes') : Reaches a boxes p c boxes' := by
  induction hc with
  | @direct s m n captured own hh hmap hown =>
    have hx := hands_local h hp hh
    refine ⟨hh.free, localRef0s_local hh.inBody hx, fun i k hi hk => ?_⟩
    rw [getElem?_closure hown hi, captured_local hh.inBody hmap (index_inner_local n hx hi), hk]
    rfl
  | @deeper b boxes₁ s m n captured own hb hh hmap hown ih =>
    have hcaptured := capturedIn_of_captures hb
    obtain ⟨hnot, hx⟩ := hands_free hcaptured hh
    refine ⟨hh.free, ih.boxed, fun i k hi hk => ?_⟩
    obtain ⟨j, hj⟩ := Option.isSome_iff_exists.mp (index_isSome.mpr ih.free)
    have hplace := index_inner_free n hnot hi
    rw [(filtered_iff hnot hx).mpr (ho b hcaptured s m n hh)] at hplace
    rw [getElem?_closure hown hi, hplace,
      captured_free hh.inBody hmap (List.getElem?_idxOf hx), hj]
    exact ih.same j k hj hk

/-! ### The values after the prologue -/

section Values

variable {captured boxes : List Addr} {arguments : List Value} {w w' : World} {frame : Frame}
  {x : String} {i : Nat}

/-- What the variable at a position holds. -/
def held (arguments : List Value) (i : Nat) : Option Value :=
  if i < arguments.length then arguments[i]? else some .none

theorem slot_eq_some {k : Nat} (h : a.slot i = some k) :
    ∃ y, a.layout.localVars[i]? = some y ∧ index a.layout.localReferenceVars y = some k :=
  Option.bind_eq_some_iff.mp h

theorem slot_of_index (hi : a.layout.localVars[i]? = some x) :
    a.slot i = index a.layout.localReferenceVars x := by
  rw [Site.slot, hi]
  rfl

theorem entered_box (he : Begun a captured arguments w frame w' boxes)
    (hi : a.layout.localVars[i]? = some x) {k : Nat}
    (hk : index a.layout.localReferenceVars x = some k) :
    ∃ b, b ∈ boxes ∧ frame.references[k]? = some b ∧ w'.heap.box b = held arguments i := by
  have hlt : k < boxes.length := he.new.length ▸ index_lt hk
  have hb : (boxes ++ captured)[k]? = some boxes[k] := by
    rw [List.getElem?_append_left hlt, List.getElem?_eq_getElem hlt]
  -- no other variable has this box
  have hone : ∀ j k', a.slot j = some k' → (boxes ++ captured)[k']? = some boxes[k] → j = i := by
    intro j k' hj hk'
    obtain ⟨y, hy, hky⟩ := slot_eq_some hj
    have hlt' : k' < boxes.length := he.new.length ▸ index_lt hky
    rw [List.getElem?_append_left hlt', ← List.getElem?_eq_getElem hlt] at hk'
    obtain rfl := (List.getElem?_inj hlt' he.new.nodup).mp hk'
    obtain rfl : y = x := Option.some.inj ((index_getElem? hky).symm.trans (index_getElem? hk))
    obtain ⟨hjlt, -⟩ := List.getElem?_eq_some_iff.mp hy
    exact (List.getElem?_inj hjlt (localVars_nodup a)).mp (hy.trans hi.symm)
  refine ⟨boxes[k], List.getElem_mem hlt, he.references ▸ hb, ?_⟩
  have hslot : a.slot i = some k := (slot_of_index hi).trans hk
  unfold held
  split
  · next hin =>
    have hin' : i < 0 + arguments.length := by rwa [Nat.zero_add]
    exact he.stored.written i k _ (Nat.zero_le i) hin' hslot hb fun j k' _ _ => hone j k'
  · next hout =>
    rw [he.stored.kept _ fun j k' _ hj hk' hb' => hout ?_, he.new.box,
      if_pos (List.getElem_mem hlt)]
    rw [Nat.zero_add] at hj
    exact hone j k' hk' hb' ▸ hj

theorem entered_local (he : Begun a captured arguments w frame w' boxes)
    (hi : a.layout.localVars[i]? = some x) (hn : x ∉ a.layout.localReferenceVars) :
    frame.locals[i]? = held arguments i := by
  have hslot : a.slot i = none := (slot_of_index hi).trans (index_eq_none.mpr hn)
  obtain ⟨hlt, -⟩ := List.getElem?_eq_some_iff.mp hi
  rw [he.stored.plain, held, Nat.zero_add, Nat.sub_zero]
  simp only [hslot, Nat.zero_le, true_and]
  split
  · rfl
  · rw [List.getElem?_replicate, if_pos hlt]

/-- A variable of the function that is not captured under its name is read where it was
stored. -/
theorem entered_reads (he : Begun a captured arguments w frame w' boxes) {s : State}
    (hs : a.InBody s) (hi : a.layout.localVars[i]? = some x) (hg : x ∉ s.node.globals)
    (hf : x ∉ a.layout.freeVars) {v : Value} (hv : held arguments i = some v) :
    Reads s x frame w' v := by
  obtain ⟨hlocal, hreference, hfree, -⟩ := inBody_layout hs
  by_cases hx : x ∈ a.layout.localReferenceVars
  · obtain ⟨k, hk⟩ := Option.isSome_iff_exists.mp (index_isSome.mpr hx)
    obtain ⟨b, -, hb, hbox⟩ := entered_box he hi hk
    exact reads_box hg (hfree ▸ hf) (hreference ▸ hk) hb (hbox.trans hv)
  · exact reads_local hg (hfree ▸ hf) (hreference ▸ hx)
      (hlocal ▸ index_of_getElem? (localVars_nodup a) hi) ((entered_local he hi hx).trans hv)

end Values

/-! ### Distinct parameters -/

section Distinct

variable {arguments : List Value} {x : String} {v : Value}

theorem localVars_parameters (h : a.literal.arguments.Nodup) :
    a.literal.arguments <+: a.layout.localVars := by
  have hfirst : insertAll [] a.literal.arguments = a.literal.arguments :=
    insertAll_of_nodup (v := []) h
  show _ <+: insertAll (insertAll [] a.literal.arguments) _
  rw [hfirst]
  exact prefix_insertAll _ _

/-- The position of a parameter's argument. -/
theorem argument_position (hv : a.argument arguments x = some v) :
    ∃ i : Nat, a.literal.arguments[i]? = some x ∧ arguments[i]? = some v := by
  obtain ⟨front, back, hsplit, -⟩ := List.lookup_eq_some_iff.mp hv
  have hmem : (x, v) ∈ a.literal.arguments.zip arguments :=
    List.mem_reverse.mp (hsplit ▸ List.mem_append_right front List.mem_cons_self)
  obtain ⟨i, hi⟩ := List.mem_iff_getElem?.mp hmem
  exact ⟨i, List.getElem?_zip_eq_some.mp hi⟩

theorem localVars_get (h : a.literal.arguments.Nodup) {i : Nat}
    (hi : a.literal.arguments[i]? = some x) : a.layout.localVars[i]? = some x := by
  obtain ⟨rest, hrest⟩ := localVars_parameters h
  obtain ⟨hlt, -⟩ := List.getElem?_eq_some_iff.mp hi
  rwa [← hrest, List.getElem?_append_left hlt]

theorem held_of_argument {i : Nat} (hi : arguments[i]? = some v) : held arguments i = some v := by
  obtain ⟨hlt, -⟩ := List.getElem?_eq_some_iff.mp hi
  rw [held, if_pos hlt, hi]

/-- The prologue of a function with distinct parameters gets through. -/
theorem enters (h : a.literal.arguments.Nodup) {captured : List Addr} {w : World}
    (hc : a.Callable captured arguments w) (closure : Addr) :
    ∃ frame w', enterClosure closure a.function captured arguments w = .ok (frame, w') := by
  obtain ⟨hparameters, hlocal, hreference, hfree⟩ := function_layout a
  have hnew := allocateBoxes_new a.layout.localReferenceVars.length w
  obtain ⟨rest, hrest⟩ := localVars_parameters h
  have hlen : arguments.length ≤ a.layout.localVars.length := by
    rw [← hrest, List.length_append, hc.count]
    exact Nat.le_add_right _ _
  have hruns : ∃ locals w', storeArguments a.function
      ((allocateBoxes a.layout.localReferenceVars.length w).1 ++ captured) 0 arguments
      (List.replicate a.layout.localVars.length .none)
      (allocateBoxes a.layout.localReferenceVars.length w).2 = .ok (locals, w') := by
    refine storeArguments_runs (fun j _ hj => argMapping_get a ?_ ?_) (fun j _ hj _ => ?_)
      (fun j k _ _ hk => ?_) (fun b hb => ?_) fun u hu b hp => hnew.kept b (hc.values u hu b hp)
    · rwa [Nat.zero_add, hc.count] at hj
    · rw [Nat.zero_add] at hj
      exact Nat.lt_of_lt_of_le hj hlen
    · rw [Nat.zero_add] at hj
      rw [List.length_replicate]
      exact Nat.lt_of_lt_of_le hj hlen
    · obtain ⟨y, -, hy⟩ := slot_eq_some hk
      rw [List.length_append, hnew.length]
      exact Nat.lt_add_right _ (index_lt hy)
    · rw [hnew.box]
      split
      · rfl
      · next hb' => exact hc.boxes b ((List.mem_append.mp hb).resolve_left hb')
  obtain ⟨locals, w', hrun⟩ := hruns
  refine ⟨⟨closure, a.function,
    (allocateBoxes a.layout.localReferenceVars.length w).1 ++ captured, locals, [], 0⟩, w', ?_⟩
  unfold enterClosure
  rw [if_neg (not_not.mpr (hparameters.trans hc.count.symm)), hreference, hfree, hlocal,
    mapM_range hc.captures.ge, ← hc.captures, List.take_length]
  generalize allocateBoxes a.layout.localReferenceVars.length w = pair at hrun ⊢
  obtain ⟨boxes, w₁⟩ := pair
  dsimp only at hrun ⊢
  rw [ok_bind, hrun]
  rfl

/-- A name that the body declares global is read with `LoadGlobal`. -/
theorem visitName_global {s : State} (hx : x ∈ s.node.globals) :
    ∃ i, visitName false false x s = s.output (.loadGlobal i) := by
  refine ⟨(index s.node.function.names x).getD 0, ?_⟩
  simp only [visitName, if_pos hx]
  rfl

theorem declared_global {s : State} (hs : a.InBody s) (hx : x ∈ getGlobals a.literal.body) :
    x ∈ s.node.globals := by
  rw [hs.globals]
  exact (entered_globals a).1 x hx

/-- The parameters are bound if they are bindable. -/
theorem bindsArguments (h : a.BindableParameters) : a.BindsArguments := by
  intro closure captured arguments w hc
  obtain ⟨frame, w', henter⟩ := enters h.distinct hc closure
  have he := enterClosure_entered hc.count hc.captures henter
  obtain ⟨-, hlocal, hreference, hfree⟩ := function_layout a
  refine ⟨frame, w', henter, ⟨?_, ?_⟩, fun s hs p v hv hg => ?_,
    fun s hs p _ hg => visitName_global (declared_global hs hg), fun s hs x hx hp => ?_,
    fun p v hv c boxes hcaptures s hs callee hcallee w'' hkept => ?_⟩
  · rw [he.stored.length, List.length_replicate, hlocal]
  · rw [he.references, List.length_append, allocateBoxes_new _ w |>.length, hc.captures,
      Function.numReferences, hreference, hfree]
  · obtain ⟨i, hi, hvalue⟩ := argument_position hv
    have hx := mem_localVars.mpr (.inl (List.mem_of_getElem? hi))
    exact entered_reads he hs (localVars_get h.distinct hi) (localVars_not_global hs hx hg)
      (localVars_not_captured h.apart hx) (held_of_argument hvalue)
  · obtain ⟨i, hi⟩ := List.mem_iff_getElem?.mp hx
    -- the parameters come first
    have hout : ¬ i < arguments.length := by
      intro hlt
      rw [hc.count] at hlt
      have hget := localVars_get h.distinct (List.getElem?_eq_getElem hlt)
      exact hp (Option.some.inj (hi.symm.trans hget) ▸ List.getElem_mem hlt)
    have hlocals := (mem_localVars.mp hx).resolve_left hp
    exact entered_reads he hs hi (localVars_not_global hs hx (locals_not_global hlocals))
      (localVars_not_captured h.apart hx) (if_neg hout)
  · obtain ⟨i, hi, hvalue⟩ := argument_position hv
    have hp := List.mem_of_getElem? hi
    have hreaches := reaches_of_captures h.apart hp (h.order p hp) hcaptures
    obtain ⟨k, hk⟩ := Option.isSome_iff_exists.mp (index_isSome.mpr hreaches.boxed)
    obtain ⟨j, hj⟩ := Option.isSome_iff_exists.mp (index_isSome.mpr hreaches.free)
    obtain ⟨b, -, hb, hbox⟩ := entered_box he (localVars_get h.distinct hi) hk
    obtain ⟨-, hreference', hfree', -⟩ := inBody_layout hs
    have hget := (hreaches.same j k hj hk).trans hb
    rw [← hcallee, ← hreference'] at hget
    refine reads_captured (freeVars_not_global hs hreaches.free) (hfree' ▸ hj) hget ?_
    rw [hkept b (List.mem_of_getElem? hb), hbox]
    exact held_of_argument hvalue

end Distinct

/-! ### What a call shows of the parameters -/

section Shown

variable {s : State} {x : String} {frame : Frame} {w : World} {u v : Value}

theorem output_inj {i j : Instruction} (h : s.output i = s.output j) : i = j := by
  have hcode : s.node.function.instructions ++ [i] = s.node.function.instructions ++ [j] :=
    congrArg (fun s : State => s.node.function.instructions) h
  exact List.singleton_inj.mp (List.append_cancel_left hcode)

theorem reads_unique (hu : Reads s x frame w u) (hv : Reads s x frame w v) : u = v := by
  obtain ⟨i, event, hi, hx⟩ := hu
  obtain ⟨j, event', hj, hx'⟩ := hv
  obtain rfl := output_inj (hi.symm.trans hj)
  have hframe := Except.ok.inj (hx.symm.trans hx')
  injection hframe with hframe
  exact (List.cons.inj (congrArg Frame.stack hframe)).1

end Shown

/-- The numbers of the parameters as arguments. -/
def numbered (n : Nat) : List Value :=
  (List.range n).map fun i : Nat => Value.integer (i : Int)

theorem numbered_length (n : Nat) : (numbered n).length = n := by
  rw [numbered, List.length_map, List.length_range]

theorem numbered_get {n i : Nat} {v : Value} (h : (numbered n)[i]? = some v) :
    i < n ∧ v = .integer i := by
  rw [numbered, List.getElem?_map] at h
  obtain ⟨k, hk, rfl⟩ := Option.map_eq_some_iff.mp h
  obtain ⟨hlt, rfl⟩ := List.getElem?_eq_some_iff.mp hk
  rw [List.length_range] at hlt
  rw [List.getElem_range]
  exact ⟨hlt, rfl⟩

theorem argument_exists {x : String} (hx : x ∈ a.literal.arguments) :
    ∃ j : Nat, a.argument (numbered a.literal.arguments.length) x = some (.integer j) := by
  obtain ⟨i, hi⟩ := List.mem_iff_getElem?.mp hx
  obtain ⟨hlt, -⟩ := List.getElem?_eq_some_iff.mp hi
  rw [← numbered_length a.literal.arguments.length] at hlt
  have hzip : (x, (numbered a.literal.arguments.length)[i]) ∈
      (a.literal.arguments.zip (numbered a.literal.arguments.length)).reverse :=
    List.mem_reverse.mpr
      (List.mem_of_getElem? (List.getElem?_zip_eq_some.mpr ⟨hi, List.getElem?_eq_getElem hlt⟩))
  cases hv : a.argument (numbered a.literal.arguments.length) x with
  | none => exact absurd rfl (bne_iff_ne.mp (List.lookup_eq_none_iff.mp hv _ hzip))
  | some v =>
    obtain ⟨j, -, hj⟩ := argument_position hv
    exact ⟨j, congrArg some (numbered_get hj).2⟩

/-- A world with a box for each captured variable. -/
theorem callable_numbered (a : Site) :
    ∃ captured w, a.Callable captured (numbered a.literal.arguments.length) w ∧
      ∀ b ∈ captured, b < w.heap.next ∧ w.heap.box b = some .none := by
  have hnew := allocateBoxes_new a.layout.freeVars.length
    ⟨.empty (.x64 true true), 0, [], [], []⟩
  have hbox : ∀ b ∈ (allocateBoxes a.layout.freeVars.length
      ⟨.empty (.x64 true true), 0, [], [], []⟩).1, CollectedHeap.box _ b = some .none :=
    fun b hb => (hnew.box b).trans (if_pos hb)
  refine ⟨_, _, ⟨numbered_length _, hnew.length, fun b hb => ?_, fun v hv b hp => ?_⟩,
    fun b hb => ⟨hnew.below.2 b hb, hbox b hb⟩⟩
  · rw [hbox b hb]
    rfl
  · obtain ⟨i, hi⟩ := List.mem_iff_getElem?.mp hv
    rw [(numbered_get hi).2] at hp
    cases hp

section Necessary

variable {captured boxes : List Addr} {arguments : List Value} {w w' : World} {frame : Frame}
  {x : String}

/-- A captured box keeps its value, whatever the arguments. -/
theorem captured_box (he : Begun a captured arguments w frame w' boxes)
    (hbox : ∀ b ∈ captured, b < w.heap.next ∧ w.heap.box b = some .none) {b : Addr}
    (hb : b ∈ captured) : b ∉ boxes ∧ w'.heap.box b = some .none := by
  obtain ⟨hold, hnone⟩ := hbox b hb
  have hout : b ∉ boxes := fun hm => Nat.not_lt.mpr (he.new.new _ hm) hold
  refine ⟨hout, ?_⟩
  rw [he.stored.kept _ fun j k _ _ hj hk => hout ?_, he.new.box, if_neg hout, hnone]
  -- the arguments only get to the function's own boxes
  obtain ⟨y, -, hy⟩ := slot_eq_some hj
  rw [List.getElem?_append_left (he.new.length ▸ index_lt hy)] at hk
  exact List.mem_of_getElem? hk

/-- A captured variable is read where it was captured, whatever the arguments. -/
theorem captured_reads (he : Begun a captured arguments w frame w' boxes)
    (hcaptured : captured.length = a.layout.freeVars.length)
    (hbox : ∀ b ∈ captured, b < w.heap.next ∧ w.heap.box b = some .none)
    (hx : x ∈ a.layout.freeVars) {s : State} (hs : a.InBody s) : Reads s x frame w' .none := by
  obtain ⟨-, hreference, hfree, -⟩ := inBody_layout hs
  obtain ⟨i, hi⟩ := Option.isSome_iff_exists.mp (index_isSome.mpr hx)
  have hlt : i < captured.length := hcaptured ▸ index_lt hi
  have hget : frame.references[s.node.function.localReferenceVars.length + i]? =
      some captured[i] := by
    rw [he.references, hreference, ← he.new.length,
      List.getElem?_append_right (Nat.le_add_right _ _), Nat.add_sub_cancel_left,
      List.getElem?_eq_getElem hlt]
  exact reads_captured (freeVars_not_global hs hx) (hfree ▸ hi) hget
    (captured_box he hbox (List.getElem_mem hlt)).2

theorem insertAll_length_lt {params : List String} (h : ¬ params.Nodup) :
    (insertAll [] params).length < params.length := by
  have hnodup : (insertAll [] params).Nodup := nodup_insertAll params List.nodup_nil
  have hsub : (insertAll [] params).Subperm params :=
    List.subperm_of_subset hnodup fun y hy => (mem_insertAll.mp hy).resolve_left List.not_mem_nil
  by_contra hle
  exact h ((hsub.perm_of_length_le (Nat.not_lt.mp hle)).nodup_iff.mp hnodup)

/-- With a repeated parameter the last argument gets to no parameter. -/
theorem last_argument (h : ¬ a.literal.arguments.Nodup)
    (hi : a.layout.localVars[a.literal.arguments.length - 1]? = some x) :
    x ∉ a.literal.arguments := by
  obtain ⟨rest, hrest⟩ : insertAll [] a.literal.arguments <+: a.layout.localVars :=
    prefix_insertAll _ _
  have hnodup := localVars_nodup a
  rw [← hrest] at hi hnodup
  rw [List.getElem?_append_right (Nat.le_sub_one_of_lt (insertAll_length_lt h))] at hi
  intro hx
  exact (List.nodup_append.mp hnodup).2.2 x (mem_insertAll.mpr (.inr hx)) x
    (List.mem_of_getElem? hi) rfl

end Necessary

/-- The parameters are bound only if they are plain. -/
theorem plainParameters (h : a.BindsArguments) : a.PlainParameters := by
  obtain ⟨captured, w, hc, hbox⟩ := callable_numbered a
  obtain ⟨frame, w', henter, hbound⟩ := h 0 captured _ w hc
  have he := enterClosure_entered hc.count hc.captures henter
  have hs : a.InBody ⟨enterFunction a.parent a.up a.literal.arguments a.literal.body, 0⟩ :=
    ⟨enterFunction_layout _ _ _, rfl⟩
  have hlen := numbered_length a.literal.arguments.length
  have hapart : a.KeepsCapturesApart := by
    intro p hp hf
    obtain ⟨j, hj⟩ := argument_exists hp
    have hread := hbound.parameters _ hs p _ hj (freeVars_outside hf).2
    cases reads_unique hread (captured_reads he hc.captures hbox hf hs)
  refine ⟨by_contra fun hn => ?_, hapart⟩
  have hpos : 0 < a.literal.arguments.length :=
    Nat.lt_of_le_of_lt (Nat.zero_le _) (insertAll_length_lt hn)
  have hlast : a.literal.arguments.length - 1 < (numbered a.literal.arguments.length).length := by
    rw [hlen]
    exact Nat.sub_lt hpos Nat.one_pos
  cases hx : a.layout.localVars[a.literal.arguments.length - 1]? with
  -- the last argument is stored beyond the variables
  | none =>
    have hslot : a.slot (a.literal.arguments.length - 1) = none := by
      rw [Site.slot, hx]
      rfl
    have hstored := he.stored.plain (a.literal.arguments.length - 1)
    rw [if_pos ⟨hslot, Nat.zero_le _, by rwa [Nat.zero_add]⟩, Nat.sub_zero,
      List.getElem?_eq_getElem hlast] at hstored
    obtain ⟨hlt, -⟩ := List.getElem?_eq_some_iff.mp hstored
    rw [he.stored.length, List.length_replicate] at hlt
    exact absurd hlt (Nat.not_lt.mpr (List.getElem?_eq_none_iff.mp hx))
  -- the last argument gets to a variable that should be `None`
  | some x =>
    have hp := last_argument hn hx
    have hlocal := List.mem_of_getElem? hx
    have hlocals := (mem_localVars.mp hlocal).resolve_left hp
    have hvalue := List.getElem?_eq_getElem hlast
    have hheld : held (numbered a.literal.arguments.length) (a.literal.arguments.length - 1) =
        some (numbered a.literal.arguments.length)[a.literal.arguments.length - 1] :=
      held_of_argument hvalue
    have hread := entered_reads he hs hx
      (localVars_not_global hs hlocal (locals_not_global hlocals))
      (localVars_not_captured hapart hlocal) hheld
    have hnone := reads_unique hread (hbound.others _ hs x hlocal hp)
    rw [(numbered_get hvalue).2] at hnone
    cases hnone

/-! ### Closures that take another box -/

/-- In the boxes of a closure, `b₀` is where `p` is read. -/
def PlaceOf (c : Site) (boxes : List Addr) (p : String) (b₀ : Addr) : Prop :=
  ∀ j : Nat, boxes[j]? = some b₀ ↔
    ∃ i, index c.layout.freeVars p = some i ∧ j = c.layout.localReferenceVars.length + i

section Step

variable {b : Site} {s : State} {m : Literal} {n : Nat} {p : String} {boxes captured : List Addr}
  {b₀ d : Addr} {j : Nat}

theorem index_getD_inj {v : List String} {x y : String} (hx : x ∈ v) (hy : y ∈ v)
    (h : (index v x).getD 0 = (index v y).getD 0) : x = y := by
  obtain ⟨i, hi⟩ := Option.isSome_iff_exists.mp (index_isSome.mpr hx)
  obtain ⟨k, hk⟩ := Option.isSome_iff_exists.mp (index_isSome.mpr hy)
  rw [hi, hk, Option.getD_some, Option.getD_some] at h
  exact Option.some.inj ((index_getElem? hi).symm.trans (h ▸ index_getElem? hk))

theorem index_getD_lt {v : List String} {x : String} (hx : x ∈ v) :
    (index v x).getD 0 < v.length := by
  obtain ⟨i, hi⟩ := Option.isSome_iff_exists.mp (index_isSome.mpr hx)
  rw [hi]
  exact index_lt hi

/-- Every variable that a literal captures has a box in the function around. -/
theorem captures_runs (hs : b.InBody s)
    (hlen : b.layout.localReferenceVars.length + b.layout.freeVars.length ≤ boxes.length)
    (m : Literal) : ∃ captured, (captures s.node m.body).mapM (boxes[·]?) = some captured := by
  obtain ⟨-, hreference, hfree, -⟩ := inBody_layout hs
  refine mapM_of_isSome fun k hk => ?_
  suffices hlt : k < boxes.length by rw [List.getElem?_eq_getElem hlt, Option.isSome_some]
  rw [captures, hreference, hfree, List.mem_append, List.mem_map, List.mem_map] at hk
  rcases hk with ⟨x, hx, rfl⟩ | ⟨x, hx, rfl⟩
  · have hlt := index_getD_lt (localRef0s_local hs hx)
    omega
  · have hlt := index_getD_lt (freeRef0s_free hs hx)
    omega

theorem mem_of_mapM {l : List Nat} (h : l.mapM (boxes[·]?) = some captured) {x : Addr}
    (hx : x ∈ captured) : x ∈ boxes := by
  obtain ⟨i, hi⟩ := List.mem_iff_getElem?.mp hx
  rw [getElem?_mapM h] at hi
  obtain ⟨k, -, hk⟩ := Option.bind_eq_some_iff.mp hi
  exact List.mem_of_getElem? hk

/-- What a captured box is. -/
theorem captured_cases (hs : b.InBody s)
    (hm : (captures s.node m.body).mapM (boxes[·]?) = some captured)
    (hj : captured[j]? = some b₀) :
    (∃ x, (localRef0s s.node m.body)[j]? = some x ∧
      boxes[(index b.layout.localReferenceVars x).getD 0]? = some b₀) ∨
    ∃ k x, j = (localRef0s s.node m.body).length + k ∧
      (freeRef0s s.node m.body)[k]? = some x ∧
      boxes[b.layout.localReferenceVars.length + (index b.layout.freeVars x).getD 0]? =
        some b₀ := by
  obtain ⟨hlt, -⟩ := List.getElem?_eq_some_iff.mp hj
  rw [captured_length hm] at hlt
  rcases Nat.lt_or_ge j (localRef0s s.node m.body).length with hl | hl
  · have hx := List.getElem?_eq_getElem hl
    exact .inl ⟨_, hx, (captured_local hs hm hx).symm.trans hj⟩
  · obtain ⟨k, rfl⟩ := Nat.exists_eq_add_of_le hl
    have hx := List.getElem?_eq_getElem (Nat.lt_of_add_lt_add_left hlt)
    exact .inr ⟨k, _, rfl, hx, (captured_free hs hm hx).symm.trans hj⟩

/-- A closure that gets the box once, and reads `p` there. -/
theorem placeOf_closure {c : Site} {J i : Nat}
    (hJ : ∀ j : Nat, captured[j]? = some b₀ → j = J)
    (hi : index c.layout.freeVars p = some i) (hread : captured[i]? = some b₀) (hd : d ≠ b₀) :
    PlaceOf c (List.replicate c.layout.localReferenceVars.length d ++
      captured.take c.layout.freeVars.length) p b₀ := by
  intro j
  rcases Nat.lt_or_ge j c.layout.localReferenceVars.length with hl | hl
  · rw [List.getElem?_append_left (by rwa [List.length_replicate]), List.getElem?_replicate,
      if_pos hl]
    refine ⟨fun h => absurd (Option.some.inj h) hd, ?_⟩
    rintro ⟨k, -, rfl⟩
    exact absurd hl (Nat.not_lt.mpr (Nat.le_add_right _ _))
  · obtain ⟨k, rfl⟩ := Nat.exists_eq_add_of_le hl
    rw [List.getElem?_append_right (by rwa [List.length_replicate]), List.length_replicate,
      Nat.add_sub_cancel_left]
    constructor
    · intro h
      obtain ⟨hlt, -⟩ := List.getElem?_eq_some_iff.mp h
      rw [List.length_take, Nat.lt_min] at hlt
      rw [List.getElem?_take_of_lt hlt.1] at h
      exact ⟨i, hi, congrArg _ ((hJ k h).trans (hJ i hread).symm)⟩
    · rintro ⟨k', hk', he⟩
      obtain rfl := Option.some.inj (hi.symm.trans hk')
      obtain rfl : k = i := Nat.add_left_cancel he
      rw [List.getElem?_take_of_lt (index_lt hi)]
      exact hread

/-- The closure of the literal at `c` captures `p` and reads it in the box `b₀`; its boxes
are those of the call, or `d`. -/
structure Led (a : Site) (references : List Addr) (p : String) (b₀ d : Addr) (c : Site)
    (boxes : List Addr) : Prop where
  captures : Captures a references p c boxes
  place : PlaceOf c boxes p b₀
  length : c.layout.localReferenceVars.length + c.layout.freeVars.length ≤ boxes.length
  known : ∀ x ∈ boxes, x ∈ d :: references

/-- In the world all boxes hold something, only `b₀` holds `v`, and all closures that
capture `p` read `v`. -/
structure Marked (a : Site) (references : List Addr) (p : String) (b₀ d : Addr) (w : World)
    (v : Value) : Prop where
  apart : d ≠ b₀
  holds : ∀ x ∈ d :: references, ∃ u, w.heap.box x = some u ∧ (u = v → x = b₀)
  reads : ∀ c boxes, Captures a references p c boxes → ∀ s, c.InBody s →
    ∀ callee : Frame, callee.references = boxes → Reads s p callee w v

variable {references : List Addr} {w : World} {v : Value}

theorem inner_length (hm : (captures s.node m.body).mapM (boxes[·]?) = some captured) :
    (b.inner s m n).layout.freeVars.length ≤ captured.length := by
  rw [inner_freeVars, captured_length hm, List.length_append]
  exact Nat.add_le_add_left (List.length_filter_le _ _) _

/-- A closure that reads `v` has got `b₀`. -/
theorem led_closure (hw : Marked a references p b₀ d w v) (hh : b.Hands p s m n)
    (hm : (captures s.node m.body).mapM (boxes[·]?) = some captured)
    (hknown : ∀ x ∈ boxes, x ∈ d :: references)
    (hc : Captures a references p (b.inner s m n)
      (List.replicate (b.inner s m n).layout.localReferenceVars.length d ++
        captured.take (b.inner s m n).layout.freeVars.length))
    {J : Nat} (hJ : ∀ j : Nat, captured[j]? = some b₀ → j = J) :
    index (b.inner s m n).layout.freeVars p = some J ∧
      ∃ boxes', Led a references p b₀ d (b.inner s m n) boxes' := by
  obtain ⟨i, hi⟩ := Option.isSome_iff_exists.mp (index_isSome.mpr hh.free)
  have hlen : (b.inner s m n).layout.freeVars.length ≤ captured.length := inner_length hm
  have hlt : i < captured.length := Nat.lt_of_lt_of_le (index_lt hi) hlen
  have hsome := List.getElem?_eq_getElem hlt
  have hmem := hknown _ (mem_of_mapM hm (List.getElem_mem hlt))
  obtain ⟨u, hu, hv⟩ := hw.holds _ hmem
  have hs : (b.inner s m n).InBody
      ⟨enterFunction s.node (b.parent :: b.up) m.arguments m.body, 0⟩ :=
    ⟨enterFunction_layout _ _ _, rfl⟩
  obtain ⟨-, hreference, hfree, -⟩ := inBody_layout hs
  have hlocals : (List.replicate (b.inner s m n).layout.localReferenceVars.length d).length = _ :=
    List.length_replicate
  have hget := (getElem?_closure hlocals hi).trans hsome
  have hread : captured[i]? = some b₀ := by
    rw [hsome, hv ?_]
    refine reads_unique (reads_captured (freeVars_not_global hs hh.free) (hfree ▸ hi) ?_ hu)
      (hw.reads _ _ hc _ hs ⟨0, {}, _, [], [], 0⟩ rfl)
    rw [hreference]
    exact hget
  refine ⟨hJ i hread ▸ hi, _, hc, placeOf_closure hJ hi hread hw.apart, ?_, fun x hx => ?_⟩
  · rw [List.length_append, List.length_replicate, List.length_take, Nat.min_eq_left hlen]
  · rcases List.mem_append.mp hx with hx | hx
    · rw [List.eq_of_mem_replicate hx]
      exact List.mem_cons_self
    · exact hknown x (mem_of_mapM hm (List.mem_of_mem_take hx))

/-- From the call to the closures in its body. -/
theorem led_direct (hw : Marked a references p b₀ d w v) (h : a.KeepsCapturesApart)
    (hp : p ∈ a.literal.arguments)
    (hplace : ∀ j : Nat, references[j]? = some b₀ → index a.layout.localReferenceVars p = some j)
    (hlen : a.layout.localReferenceVars.length + a.layout.freeVars.length ≤ references.length)
    (hh : a.Hands p s m n) : ∃ boxes', Led a references p b₀ d (a.inner s m n) boxes' := by
  obtain ⟨captured, hm⟩ := captures_runs hh.inBody hlen m
  have hx := hands_local h hp hh
  have hlocal := localRef0s_local hh.inBody hx
  refine (led_closure (J := (localRef0s s.node m.body).idxOf p) hw hh hm
    (fun x hx => List.mem_cons_of_mem d hx) (.direct hh hm List.length_replicate)
    fun j hj => ?_).2
  rcases captured_cases hh.inBody hm hj with ⟨x, hx', hb⟩ | ⟨k, x, -, hx', hb⟩
  · have hxlocal := localRef0s_local hh.inBody (List.mem_of_getElem? hx')
    have hi := hplace _ hb
    obtain rfl : x = p := index_getD_inj hxlocal hlocal (by rw [hi, Option.getD_some])
    have hnodup : (localRef0s s.node m.body).Nodup := outerRefs_nodup _ _ _ _
    exact (index_eq_some (index_of_getElem? hnodup hx')).symm
  · have hlt := index_lt (hplace _ hb)
    exact absurd hlt (Nat.not_lt.mpr (Nat.le_add_right _ _))

/-- From one closure to those in its body: they get the box only where `p` stays in order. -/
theorem led_deeper (hw : Marked a references p b₀ d w v) (hb : Led a references p b₀ d b boxes)
    (hh : b.Hands p s m n) :
    (∀ q ∈ localRef0s s.node m.body, q ∈ freeRef0s s.node m.body →
      (freeRef0s s.node m.body).idxOf p < (freeRef0s s.node m.body).idxOf q) ∧
    ∃ boxes', Led a references p b₀ d (b.inner s m n) boxes' := by
  have hcaptured := capturedIn_of_captures hb.captures
  obtain ⟨hnot, hx⟩ := hands_free hcaptured hh
  obtain ⟨captured, hm⟩ := captures_runs hh.inBody hb.length m
  obtain ⟨hi, hled⟩ := led_closure
    (J := (localRef0s s.node m.body).length + (freeRef0s s.node m.body).idxOf p) hw hh hm hb.known
    (.deeper hb.captures hh hm List.length_replicate) fun j hj => by
      rcases captured_cases hh.inBody hm hj with ⟨x, hx', hbox⟩ | ⟨k, x, rfl, hx', hbox⟩
      · obtain ⟨i, -, he⟩ := (hb.place _).mp hbox
        have hlt := index_getD_lt (localRef0s_local hh.inBody (List.mem_of_getElem? hx'))
        omega
      · obtain ⟨i, hi, he⟩ := (hb.place _).mp hbox
        have hxfree := freeRef0s_free hh.inBody (List.mem_of_getElem? hx')
        have hget : (index b.layout.freeVars x).getD 0 = (index b.layout.freeVars p).getD 0 := by
          rw [hi, Option.getD_some]
          exact Nat.add_left_cancel he
        obtain rfl := index_getD_inj hxfree (free_of_capturedIn hcaptured) hget
        have hnodup : (freeRef0s s.node m.body).Nodup := outerRefs_nodup _ _ _ _
        rw [index_eq_some (index_of_getElem? hnodup hx')]
  have hplace := index_inner_free n hnot hi
  exact ⟨(filtered_iff hnot hx).mp (Nat.add_left_cancel hplace).symm, hled⟩

/-- The induction over the closures in between. -/
theorem led_of_capturedIn (hw : Marked a references p b₀ d w v) (h : a.KeepsCapturesApart)
    (hp : p ∈ a.literal.arguments)
    (hplace : ∀ j : Nat, references[j]? = some b₀ → index a.layout.localReferenceVars p = some j)
    (hlen : a.layout.localReferenceVars.length + a.layout.freeVars.length ≤ references.length)
    {c : Site} (hc : CapturedIn a p c) : ∃ boxes', Led a references p b₀ d c boxes' := by
  induction hc with
  | direct hh => exact led_direct hw h hp hplace hlen hh
  | deeper _ hh ih =>
    obtain ⟨boxes, hb⟩ := ih
    exact (led_deeper hw hb hh).2

end Step

theorem boxed_of_capturedIn (h : a.KeepsCapturesApart) {p : String}
    (hp : p ∈ a.literal.arguments) {c : Site} (hc : CapturedIn a p c) :
    p ∈ a.layout.localReferenceVars := by
  induction hc with
  | direct hh => exact localRef0s_local hh.inBody (hands_local h hp hh)
  | deeper _ _ ih => exact ih

/-- The world with a new box. -/
def withBox (w : World) (d : Addr) : World :=
  { w with heap := { w.heap with
    store := Function.update w.heap.store d (some ⟨false, 0, .reference .none⟩) } }

theorem box_withBox (w : World) (d x : Addr) :
    (withBox w d).heap.box x = if x = d then some .none else w.heap.box x := by
  unfold withBox CollectedHeap.box
  dsimp only
  rw [Function.update_apply]
  split
  · rfl
  · rfl

theorem held_numbered {n i j : Nat} {u : Value} (h : held (numbered n) j = some u)
    (hu : u = .integer i) : j = i := by
  unfold held at h
  split at h
  · obtain ⟨-, hj⟩ := numbered_get h
    cases hj.symm.trans hu
    rfl
  · cases h
    cases hu

section Numbered

variable {captured boxes : List Addr} {w w' : World} {frame : Frame} {p : String} {i k : Nat}
  {b₀ d : Addr}

/-- After the prologue only the box of the parameter holds its argument. -/
theorem marked_numbered
    (he : Begun a captured (numbered a.literal.arguments.length) w frame w' boxes)
    (hbox : ∀ b ∈ captured, b < w.heap.next ∧ w.heap.box b = some .none)
    (hbound : a.Bound (numbered a.literal.arguments.length) frame w')
    (hv : a.argument (numbered a.literal.arguments.length) p = some (.integer i))
    (hi : a.layout.localVars[i]? = some p)
    (hk : index a.layout.localReferenceVars p = some k) (hb : frame.references[k]? = some b₀)
    (hd : d ∉ frame.references) :
    Marked a frame.references p b₀ d (withBox w' d) (.integer i) := by
  have hkept : ∀ x ∈ frame.references, (withBox w' d).heap.box x = w'.heap.box x := by
    intro x hx
    rw [box_withBox, if_neg]
    exact fun hxd => hd (hxd ▸ hx)
  refine ⟨fun hbd => hd (hbd ▸ List.mem_of_getElem? hb), fun x hx => ?_,
    fun c boxes' hc s hs callee hcallee =>
      hbound.closures p _ hv c boxes' hc s hs callee hcallee _ hkept⟩
  rcases List.mem_cons.mp hx with rfl | hx
  · refine ⟨.none, ?_, fun h => by cases h⟩
    rw [box_withBox, if_pos rfl]
  rw [hkept x hx]
  obtain ⟨j, hj⟩ := List.mem_iff_getElem?.mp hx
  rcases List.mem_append.mp (he.references ▸ hx) with hown | hcaptured
  · obtain ⟨k', hk'⟩ := List.mem_iff_getElem?.mp hown
    obtain ⟨hlt', -⟩ := List.getElem?_eq_some_iff.mp hk'
    rw [he.new.length] at hlt'
    -- the variable that has the box
    have hnodup : a.layout.localReferenceVars.Nodup := nodup_insertAll _ List.nodup_nil
    have hy := List.getElem?_eq_getElem hlt'
    have hindex := index_of_getElem? hnodup hy
    obtain ⟨i', hi'⟩ := List.mem_iff_getElem?.mp (mem_localReferenceVars (List.mem_of_getElem? hy))
    obtain ⟨b, -, hb', hheld⟩ := entered_box he hi' hindex
    have hxk : frame.references[k']? = some x := by
      rw [he.references, List.getElem?_append_left (he.new.length ▸ hlt'), hk']
    obtain rfl : b = x := Option.some.inj (hb'.symm.trans hxk)
    rw [hheld]
    cases hu : held (numbered a.literal.arguments.length) i' with
    | none =>
      unfold held at hu
      split at hu
      · next hin => exact absurd (List.getElem?_eq_none_iff.mp hu) (Nat.not_le.mpr hin)
      · cases hu
    | some u =>
      refine ⟨u, rfl, fun hv => ?_⟩
      obtain rfl := held_numbered hu hv
      have hyp := Option.some.inj (hi'.symm.trans hi)
      obtain rfl : k' = k := Option.some.inj (hindex.symm.trans (hyp ▸ hk))
      exact Option.some.inj (hxk.symm.trans hb)
  · exact ⟨.none, (captured_box he hbox hcaptured).2, fun h => by cases h⟩

/-- The box of a parameter is in one place. -/
theorem entered_place {arguments : List Value}
    (he : Begun a captured arguments w frame w' boxes)
    (hbox : ∀ b ∈ captured, b < w.heap.next ∧ w.heap.box b = some .none)
    (hk : index a.layout.localReferenceVars p = some k) (hb : frame.references[k]? = some b₀)
    {j : Nat} (hj : frame.references[j]? = some b₀) :
    index a.layout.localReferenceVars p = some j := by
  have hlt : k < boxes.length := he.new.length ▸ index_lt hk
  rw [he.references] at hb hj
  rw [List.getElem?_append_left hlt] at hb
  rcases Nat.lt_or_ge j boxes.length with hjlt | hjge
  · rw [List.getElem?_append_left hjlt] at hj
    rw [hk, (List.getElem?_inj hjlt he.new.nodup).mp (hj.trans hb.symm)]
  · rw [List.getElem?_append_right hjge] at hj
    exact absurd (List.mem_of_getElem? hb) (captured_box he hbox (List.mem_of_getElem? hj)).1

end Numbered

/-- The parameters are bound only if they stay in order. -/
theorem keepsOrder (h : a.BindsArguments) {p : String} (hp : p ∈ a.literal.arguments) {b : Site}
    (hb : CapturedIn a p b) : b.KeepsOrder p := by
  have hplain := plainParameters h
  obtain ⟨captured, w, hc, hbox⟩ := callable_numbered a
  obtain ⟨frame, w', henter, hbound⟩ := h 0 captured _ w hc
  have he := enterClosure_entered hc.count hc.captures henter
  obtain ⟨j, hj⟩ := argument_exists hp
  obtain ⟨i, hi, hvalue⟩ := argument_position hj
  obtain ⟨-, hij⟩ := numbered_get hvalue
  rw [hij] at hj
  have hlocal := localVars_get hplain.distinct hi
  obtain ⟨k, hk⟩ := Option.isSome_iff_exists.mp
    (index_isSome.mpr (boxed_of_capturedIn hplain.apart hp hb))
  obtain ⟨b₀, -, hb₀, -⟩ := entered_box he hlocal hk
  obtain ⟨d, hd⟩ := Infinite.exists_notMem_finset frame.references.toFinset
  have hmarked := marked_numbered he hbox hbound hj hlocal hk hb₀
    (fun hm => hd (List.mem_toFinset.mpr hm))
  have hlen : a.layout.localReferenceVars.length + a.layout.freeVars.length ≤
      frame.references.length := by
    rw [he.references, List.length_append, he.new.length, hc.captures]
  obtain ⟨boxes, hled⟩ := led_of_capturedIn hmarked hplain.apart hp
    (fun _ => entered_place he hbox hk hb₀) hlen hb
  exact fun s m n hh => (led_deeper hmarked hled hh).1

end ParameterPassingLemmas

open ParameterPassingLemmas

/-! ## The result -/

/-- `fun(x x) { y = 7; return x; }` at the top level. -/
def repeatedParameter : Site where
  up := []
  parent := {}
  literal := ⟨["x", "x"], .cons (.assignment (.name "y") (.intConst 7))
    (.cons (.ret (.lhs (.name "x"))) .nil)⟩

end Beaverc

import Beaverc.Interpreter
import Beaverc.Operands
import Beaverc.Generations

/-!
# The prologue of a call

`visit(AST::Function&)` lays out the variables of a function and `arg_mapping`,
`ClosureFunctionValue::call` stores the arguments by position, and `visit(Name&)`
decides for each name in the body where it is read.
-/

namespace Beaverc
open Tables Results DisciplineLemmas VisitsLemmas OperandsLemmas StepsLemmas
  CollectedHeap.GenerationLemmas

/-! ## A literal in its place -/

/-- A function literal with the functions around it and the labels used before it. -/
structure Site where
  up : List Node
  parent : Node
  literal : Literal
  labelNum : Nat := 0

namespace Site

/-- The function emitted for the literal. -/
def function (a : Site) : Function :=
  a.literal.emitted a.up a.parent a.labelNum

/-- The variables of the function. -/
def layout (a : Site) : Layout :=
  enteredLayout a.parent a.literal

/-- The tables that `visit(Name&)` looks at, wherever it is in the body. -/
structure InBody (a : Site) (s : State) : Prop where
  layout : s.node.layout = a.layout
  globals : s.node.globals =
    (enterFunction a.parent a.up a.literal.arguments a.literal.body).globals

/-- The literal `m` in the body, seen from there. -/
def inner (a : Site) (s : State) (m : Literal) (n : Nat) : Site :=
  ⟨a.parent :: a.up, s.node, m, n⟩

/-- The argument at the position of a parameter, the last one if it is repeated. -/
def argument (a : Site) (arguments : List Value) (p : String) : Option Value :=
  (a.literal.arguments.zip arguments).reverse.lookup p

/-- The box of the parameter at a position. -/
def slot (a : Site) (i : Nat) : Option Nat :=
  a.layout.localVars[i]?.bind (index a.layout.localReferenceVars)

end Site

/-! ## Reads -/

/-- The value in a `ReferenceValue`. -/
def CollectedHeap.box (h : CollectedHeap) (a : Addr) : Option Value :=
  (h.store a).bind fun o =>
    match o.payload with
    | .reference v => some v
    | _ => none

/-- The instruction for a read of `x`, executed in `frame`, pushes `v`. -/
def Reads (s : State) (x : String) (frame : Frame) (w : World) (v : Value) : Prop :=
  ∃ i event, visitName false false x s = s.output i ∧
    frame.exec i w = .ok (.next (frame.advance (v :: frame.stack)) w event)

namespace PrologueLemmas

/-! ### The heap -/

theorem isSome_of_box {h : CollectedHeap} {a : Addr} (hb : (h.box a).isSome = true) :
    (h.store a).isSome = true := by
  unfold CollectedHeap.box at hb
  cases hs : h.store a with
  | none =>
    rw [hs] at hb
    cases hb
  | some o => rfl

/-- The boxes of a call are new and hold `None`. -/
structure NewBoxes (w : World) (n : Nat) (boxes : List Addr) (w' : World) : Prop where
  length : boxes.length = n
  nodup : boxes.Nodup
  new : ∀ a ∈ boxes, w.heap.next ≤ a
  below : w.heap.next ≤ w'.heap.next ∧ ∀ a ∈ boxes, a < w'.heap.next
  globals : w'.globals = w.globals
  box : ∀ a, w'.heap.box a = if a ∈ boxes then some .none else w.heap.box a
  kept : ∀ a, (w.heap.store a).isSome = true → (w'.heap.store a).isSome = true

theorem allocateBoxes_new (n : Nat) (w : World) :
    NewBoxes w n (allocateBoxes n w).1 (allocateBoxes n w).2 := by
  induction n generalizing w with
  | zero =>
    exact ⟨rfl, List.nodup_nil, nofun, ⟨Nat.le_refl _, nofun⟩, rfl, fun _ => rfl, fun _ => id⟩
  | succ n ih =>
    have hrest := ih (w.allocate (.reference .none)).2
    have hstore (a : Addr) : (w.allocate (.reference .none)).2.heap.store a =
        if a = w.heap.next then some ⟨false, 0, .reference .none⟩ else w.heap.store a :=
      Function.update_apply ..
    have hnew : ∀ a ∈ (allocateBoxes n (w.allocate (.reference .none)).2).1,
        w.heap.next + 1 ≤ a := hrest.new
    have hnext : w.heap.next + 1 ≤
        (allocateBoxes n (w.allocate (.reference .none)).2).2.heap.next := hrest.below.1
    refine ⟨congrArg (· + 1) hrest.length, List.nodup_cons.mpr ⟨fun hm => ?_, hrest.nodup⟩,
      fun a ha => ?_, ⟨Nat.le_of_succ_le hnext, fun a ha => ?_⟩, hrest.globals, fun a => ?_,
      fun a ha => hrest.kept a ?_⟩
    · exact Nat.not_succ_le_self _ (hnew _ hm)
    · rcases List.mem_cons.mp ha with rfl | ha
      · exact Nat.le_refl _
      · exact Nat.le_of_succ_le (hnew a ha)
    · rcases List.mem_cons.mp ha with rfl | ha
      · exact hnext
      · exact hrest.below.2 a ha
    · show (allocateBoxes n (w.allocate (.reference .none)).2).2.heap.box a =
        if a ∈ w.heap.next :: (allocateBoxes n (w.allocate (.reference .none)).2).1 then _ else _
      rw [hrest.box]
      by_cases hm : a ∈ (allocateBoxes n (w.allocate (.reference .none)).2).1
      · rw [if_pos hm, if_pos (List.mem_cons_of_mem _ hm)]
      · rw [if_neg hm]
        unfold CollectedHeap.box
        rw [hstore]
        by_cases ha : a = w.heap.next
        · rw [if_pos ha, if_pos (ha ▸ List.mem_cons_self)]
          rfl
        · rw [if_neg ha, if_neg fun h => (List.mem_cons.mp h).elim ha hm]
    · rw [hstore]
      split
      · rfl
      · exact ha

theorem store_setPayload (h : CollectedHeap) (a b : Addr) (p : Payload) :
    (h.setPayload a p).store b =
      if b = a then (h.store a).map fun o => { o with payload := p } else h.store b :=
  Function.update_apply ..

theorem referenceWrite_box {h h' : CollectedHeap} {a : Addr} {v : Value}
    (he : h.referenceWrite a v = .ok h') (b : Addr) :
    h'.box b = if b = a then some v else h.box b := by
  unfold CollectedHeap.referenceWrite at he
  obtain ⟨o, ho, he⟩ := bind_ok.mp he
  have hstore : h.store a = some o := by
    unfold CollectedHeap.deref at ho
    split at ho
    · next o' ho' => cases ho; exact ho'
    · cases ho
  split at he
  · obtain ⟨cross, rfl, -⟩ := remember_cases he
    unfold CollectedHeap.box
    dsimp only
    rw [store_setPayload, hstore]
    split
    · rfl
    · rfl
  · cases he

theorem referenceWrite_ok {h : CollectedHeap} {a : Addr} {v : Value}
    (hb : (h.box a).isSome = true)
    (hv : ∀ b, v.pointer? = some b → (h.store b).isSome = true) :
    ∃ h', h.referenceWrite a v = .ok h' ∧
      ∀ b, (h.store b).isSome = true → (h'.store b).isSome = true := by
  have hkept (p : Payload) (b : Addr) (h₁ : (h.store b).isSome = true) :
      ((h.setPayload a p).store b).isSome = true := by
    rw [store_setPayload]
    split
    · next he => rw [Option.isSome_map, ← he]; exact h₁
    · exact h₁
  obtain ⟨o, ho⟩ := Option.isSome_iff_exists.mp (isSome_of_box hb)
  have hderef : h.deref a = .ok o := by
    unfold CollectedHeap.deref
    rw [ho]
  unfold CollectedHeap.box at hb
  rw [ho] at hb
  obtain ⟨isOld, marked, payload⟩ := o
  cases payload with
  | reference v' =>
    have hremember : ∃ h', (h.setPayload a (.reference v)).remember a (.value a) v = .ok h' := by
      unfold CollectedHeap.remember
      split
      · cases hp : v.pointer? with
        | none => exact ⟨_, rfl⟩
        | some b =>
          obtain ⟨o₁, ho₁⟩ := Option.isSome_iff_exists.mp (hkept (.reference v) b (hv b hp))
          obtain ⟨o₂, ho₂⟩ := Option.isSome_iff_exists.mp
            (hkept (.reference v) a (ho ▸ rfl))
          have hd₁ : (h.setPayload a (.reference v)).deref b = .ok o₁ := by
            unfold CollectedHeap.deref
            rw [ho₁]
          have hd₂ : (h.setPayload a (.reference v)).deref a = .ok o₂ := by
            unfold CollectedHeap.deref
            rw [ho₂]
          simp only [hd₁, hd₂, ok_bind]
          split
          · exact ⟨_, rfl⟩
          · exact ⟨_, rfl⟩
      · exact ⟨_, rfl⟩
    obtain ⟨h', hr⟩ := hremember
    refine ⟨h', ?_, fun b h₁ => ?_⟩
    · unfold CollectedHeap.referenceWrite
      rw [hderef]
      exact hr
    · obtain ⟨cross, rfl, -⟩ := remember_cases hr
      exact hkept _ b h₁
  | _ => cases hb

/-! ### The prologue -/

/-- The entry of `arg_mapping` for a parameter with the box `k`, or without one. -/
def mapping : Option Nat → Int
  | some k => k
  | none => -1

/-- What the prologue has stored when it has stored the arguments from `i` on. -/
structure Stored (slot : Nat → Option Nat) (references : List Addr) (i : Nat) (rest : List Value)
    (locals : List Value) (w : World) (locals' : List Value) (w' : World) : Prop where
  length : locals'.length = locals.length
  globals : w'.globals = w.globals
  plain : ∀ j, locals'[j]? =
    if slot j = none ∧ i ≤ j ∧ j < i + rest.length then rest[j - i]? else locals[j]?
  kept : ∀ b, (∀ j k, i ≤ j → j < i + rest.length → slot j = some k → references[k]? ≠ some b) →
    w'.heap.box b = w.heap.box b
  written : ∀ j k b, i ≤ j → j < i + rest.length → slot j = some k → references[k]? = some b →
    (∀ j' k', i ≤ j' → j' < i + rest.length → slot j' = some k' → references[k']? = some b →
      j' = j) → w'.heap.box b = rest[j - i]?

theorem getElem?_behind {v : Value} {rest : List Value} {i j : Nat} (h : i < j) :
    (v :: rest)[j - i]? = rest[j - (i + 1)]? := by
  have hj : j - i = (j - (i + 1)) + 1 := by omega
  rw [hj, List.getElem?_cons_succ]

theorem storeArguments_stored {f : Function} {references : List Addr} {slot : Nat → Option Nat}
    {rest : List Value} {i : Nat} {locals locals' : List Value} {w w' : World}
    (hmap : ∀ j m, f.argMapping[j]? = some m → m = mapping (slot j))
    (h : storeArguments f references i rest locals w = .ok (locals', w')) :
    Stored slot references i rest locals w locals' w' := by
  induction rest generalizing i locals w with
  | nil =>
    cases h
    refine ⟨rfl, rfl, fun j => (if_neg fun hj => ?_).symm, fun _ _ => rfl, fun j k b hi hj => ?_⟩
    · exact absurd hj.2.1 (Nat.not_le.mpr hj.2.2)
    · exact absurd hi (Nat.not_le.mpr hj)
  | cons v rest ih =>
    have hlen : i + (v :: rest).length = i + 1 + rest.length := by
      rw [List.length_cons]
      omega
    rw [storeArguments] at h
    obtain ⟨m, hm, h⟩ := bind_ok.mp h
    obtain rfl := hmap i m (rawIndex_ok.mp hm)
    cases hslot : slot i with
    | none =>
      rw [hslot, mapping, if_pos rfl] at h
      split at h
      · next hlt =>
        have hrest := ih h
        refine ⟨hrest.length.trans List.length_set, hrest.globals, fun j => ?_, fun b hb => ?_,
          fun j k b hj hj' hk hb hone => ?_⟩
        · rw [hrest.plain, hlen]
          rcases Nat.lt_trichotomy i j with hij | rfl | hij
          · rw [List.getElem?_set_ne (Nat.ne_of_lt hij), getElem?_behind hij]
            simp only [Nat.succ_le_of_lt hij, Nat.le_of_lt hij, true_and]
          · rw [if_neg fun hj => Nat.lt_irrefl i hj.2.1,
              if_pos ⟨hslot, Nat.le_refl i, by omega⟩, Nat.sub_self, List.getElem?_set_self hlt]
            rfl
          · rw [if_neg fun hj => Nat.lt_irrefl i (by omega),
              if_neg fun hj => Nat.lt_irrefl i (by omega),
              List.getElem?_set_ne (Nat.ne_of_gt hij)]
        · exact hrest.kept b fun j k hj hj' => hb j k (Nat.le_of_succ_le hj) (hlen ▸ hj')
        · have hij : i < j := by
            refine Nat.lt_of_le_of_ne hj fun he => ?_
            rw [← he, hslot] at hk
            cases hk
          rw [getElem?_behind hij]
          exact hrest.written j k b hij (hlen ▸ hj') hk hb fun j' k' h₁ h₂ =>
            hone j' k' (Nat.le_of_succ_le h₁) (hlen ▸ h₂)
      · cases h
    | some k =>
      have hne : mapping (some k) ≠ -1 := by
        show (k : Int) ≠ -1
        omega
      rw [hslot, if_neg hne] at h
      obtain ⟨r, hr, h⟩ := bind_ok.mp h
      obtain ⟨heap, hheap, h⟩ := bind_ok.mp h
      have hrest := ih h
      have hbox (b : Addr) : heap.box b = if b = r then some v else w.heap.box b :=
        referenceWrite_box hheap b
      have hr : references[k]? = some r := rawIndex_ok.mp hr
      refine ⟨hrest.length, hrest.globals, fun j => ?_, fun b hb => ?_,
        fun j k' b hj hj' hk hb hone => ?_⟩
      · rw [hrest.plain, hlen]
        rcases Nat.lt_trichotomy i j with hij | rfl | hij
        · rw [getElem?_behind hij]
          simp only [Nat.succ_le_of_lt hij, Nat.le_of_lt hij, true_and]
        · have hsome (P : Prop) : ¬ (slot i = none ∧ P) := fun hj => by
            rw [hslot] at hj
            cases hj.1
          rw [if_neg (hsome _), if_neg (hsome _)]
        · rw [if_neg fun hj => Nat.lt_irrefl i (by omega),
            if_neg fun hj => Nat.lt_irrefl i (by omega)]
      · have hne : b ≠ r := fun he =>
          hb i k (Nat.le_refl i) (hlen ▸ by omega) hslot (he ▸ hr)
        rw [hrest.kept b fun j k hj hj' => hb j k (Nat.le_of_succ_le hj) (hlen ▸ hj')]
        exact (hbox b).trans (if_neg hne)
      · rcases Nat.lt_or_eq_of_le hj with hij | rfl
        · rw [getElem?_behind hij]
          exact hrest.written j k' b hij (hlen ▸ hj') hk hb fun j' k' h₁ h₂ =>
            hone j' k' (Nat.le_of_succ_le h₁) (hlen ▸ h₂)
        -- the box is written now, and by no later argument
        · rw [hslot] at hk
          cases hk
          rw [hr] at hb
          cases hb
          rw [hrest.kept r fun j' k' h₁ h₂ hk' hb' => ?_]
          · rw [Nat.sub_self]
            exact (hbox r).trans (if_pos rfl)
          · have he := hone j' k' (Nat.le_of_succ_le h₁) (hlen ▸ h₂) hk' hb'
            omega

/-- The prologue gets through if every slot and box is there. -/
theorem storeArguments_runs {f : Function} {references : List Addr} {slot : Nat → Option Nat}
    {rest : List Value} {i : Nat} {locals : List Value} {w : World}
    (hmap : ∀ j, i ≤ j → j < i + rest.length → f.argMapping[j]? = some (mapping (slot j)))
    (hplain : ∀ j, i ≤ j → j < i + rest.length → slot j = none → j < locals.length)
    (hboxed : ∀ j k, i ≤ j → j < i + rest.length → slot j = some k → k < references.length)
    (hboxes : ∀ b ∈ references, (w.heap.box b).isSome = true)
    (hvalues : ∀ v ∈ rest, ∀ b, v.pointer? = some b → (w.heap.store b).isSome = true) :
    ∃ locals' w', storeArguments f references i rest locals w = .ok (locals', w') := by
  induction rest generalizing i locals w with
  | nil => exact ⟨locals, w, rfl⟩
  | cons v rest ih =>
    have hlen : i + (v :: rest).length = i + 1 + rest.length := by
      rw [List.length_cons]
      omega
    have hlt : i < i + (v :: rest).length := Nat.lt_add_of_pos_right (Nat.succ_pos _)
    have hmap' : ∀ j, i + 1 ≤ j → j < i + 1 + rest.length →
        f.argMapping[j]? = some (mapping (slot j)) :=
      fun j hj hj' => hmap j (Nat.le_of_succ_le hj) (hlen ▸ hj')
    have hboxed' : ∀ j k, i + 1 ≤ j → j < i + 1 + rest.length → slot j = some k →
        k < references.length :=
      fun j k hj hj' => hboxed j k (Nat.le_of_succ_le hj) (hlen ▸ hj')
    have hvalues' : ∀ u ∈ rest, ∀ b, u.pointer? = some b → (w.heap.store b).isSome = true :=
      fun u hu => hvalues u (List.mem_cons_of_mem v hu)
    rw [storeArguments, rawIndex_ok.mpr (hmap i (Nat.le_refl i) hlt), ok_bind]
    cases hslot : slot i with
    | none =>
      rw [mapping, if_pos rfl, if_pos (hplain i (Nat.le_refl i) hlt hslot)]
      refine ih hmap' (fun j hj hj' hk => ?_) hboxed' hboxes hvalues'
      rw [List.length_set]
      exact hplain j (Nat.le_of_succ_le hj) (hlen ▸ hj') hk
    | some k =>
      have hne : mapping (some k) ≠ -1 := by
        show (k : Int) ≠ -1
        omega
      have hk := hboxed i k (Nat.le_refl i) hlt hslot
      have hr : rawIndex references (mapping (some k)).toNat = .ok references[k] :=
        rawIndex_ok.mpr (List.getElem?_eq_getElem hk)
      obtain ⟨heap, hheap, hkept⟩ := referenceWrite_ok
        (hboxes _ (List.getElem_mem hk)) (hvalues v List.mem_cons_self)
      rw [if_neg hne, hr, ok_bind, hheap, ok_bind]
      refine ih (w := { w with heap := heap }) hmap'
        (fun j hj hj' => hplain j (Nat.le_of_succ_le hj) (hlen ▸ hj')) hboxed'
        (fun b hb => ?_) fun u hu b hp => hkept b (hvalues' u hu b hp)
      show (heap.box b).isSome = true
      rw [referenceWrite_box hheap]
      split
      · rfl
      · exact hboxes b hb

/-! ### The layout -/

theorem index_of_getElem? {v : List String} {x : String} {i : Nat} (hn : v.Nodup)
    (h : v[i]? = some x) : index v x = some i := by
  obtain ⟨k, hk⟩ := Option.isSome_iff_exists.mp (index_isSome.mpr (List.mem_of_getElem? h))
  obtain ⟨hi, -⟩ := List.getElem?_eq_some_iff.mp h
  rw [hk, (List.getElem?_inj (index_lt hk) hn).mp ((index_getElem? hk).trans h.symm)]

variable {a : Site}

theorem localVars_nodup (a : Site) : a.layout.localVars.Nodup :=
  nodup_insertAll _ (nodup_insertAll _ List.nodup_nil)

theorem mem_localVars {x : String} :
    x ∈ a.layout.localVars ↔
      x ∈ a.literal.arguments ∨ x ∈ getLocals (getGlobals a.literal.body) a.literal.body := by
  show x ∈ insertAll (insertAll [] a.literal.arguments) _ ↔ _
  rw [mem_insertAll, mem_insertAll]
  simp only [List.not_mem_nil, false_or]

theorem mem_localReferenceVars {x : String} (h : x ∈ a.layout.localReferenceVars) :
    x ∈ a.layout.localVars :=
  mem_getInnerRefs ((mem_insertAll.mp h).resolve_left List.not_mem_nil)

theorem function_layout (a : Site) :
    a.function.parameterCount = a.literal.arguments.length ∧
      a.function.localVars = a.layout.localVars ∧
      a.function.localReferenceVars = a.layout.localReferenceVars ∧
      a.function.freeVars = a.layout.freeVars := by
  have hlayout := compiled_layout a.up a.parent a.labelNum a.literal
  exact ⟨congrArg Layout.parameterCount hlayout, congrArg Layout.localVars hlayout,
    congrArg Layout.localReferenceVars hlayout, congrArg Layout.freeVars hlayout⟩

theorem argMapping_get (a : Site) {i : Nat} (hi : i < a.literal.arguments.length)
    (hlt : i < a.layout.localVars.length) :
    a.function.argMapping[i]? = some (mapping (a.slot i)) := by
  obtain ⟨hcount, hlocal, hreference, -⟩ := function_layout a
  have hmapping : a.function.argMapping = argMappingOf a.function := rfl
  rw [hmapping, argMappingOf, List.getElem?_map, hcount, hlocal, hreference,
    List.getElem?_take_of_lt hi, Site.slot, List.getElem?_eq_getElem hlt, Option.map_some,
    Option.bind_some]
  cases index a.layout.localReferenceVars a.layout.localVars[i] with
  | none => rfl
  | some k => rfl

theorem argMapping_slot (a : Site) {i : Nat} {m : Int}
    (h : a.function.argMapping[i]? = some m) : m = mapping (a.slot i) := by
  obtain ⟨hcount, hlocal, -, -⟩ := function_layout a
  have hlt : i < (a.layout.localVars.take a.literal.arguments.length).length := by
    have hlt := (List.getElem?_eq_some_iff.mp h).1
    have hmapping : a.function.argMapping = argMappingOf a.function := rfl
    rwa [hmapping, argMappingOf, List.length_map, hcount, hlocal] at hlt
  rw [List.length_take, Nat.lt_min] at hlt
  exact Option.some.inj (h.symm.trans (argMapping_get a hlt.1 hlt.2))

/-! ### Names -/

section Names

variable {s : State} {x : String} {frame : Frame} {w : World} {v : Value}

theorem exec_box {k : Nat} {b : Addr} (hr : frame.references[k]? = some b)
    (hb : w.heap.box b = some v) :
    frame.exec (.loadReference k) w =
      .ok (.next (frame.advance (v :: frame.stack)) w (some (.act (.loadReference b)))) := by
  unfold CollectedHeap.box at hb
  obtain ⟨o, ho, hp⟩ := Option.bind_eq_some_iff.mp hb
  obtain ⟨isOld, marked, payload⟩ := o
  cases payload with
  | reference u =>
    cases hp
    have hderef : w.heap.deref b = .ok ⟨isOld, marked, .reference v⟩ := by
      unfold CollectedHeap.deref
      rw [ho]
    rw [Frame.exec, rawIndex_ok.mpr hr, ok_bind, Frame.load, perform, hderef]
    rfl
  | _ => cases hp

theorem reads_captured {i : Nat} {b : Addr} (hg : x ∉ s.node.globals)
    (hf : index s.node.function.freeVars x = some i)
    (hr : frame.references[s.node.function.localReferenceVars.length + i]? = some b)
    (hb : w.heap.box b = some v) : Reads s x frame w v := by
  refine ⟨.loadReference (s.node.function.localReferenceVars.length + i), _, ?_,
    exec_box hr hb⟩
  simp only [visitName, if_neg hg, hf]
  rfl

theorem reads_box {i : Nat} {b : Addr} (hg : x ∉ s.node.globals) (hf : x ∉ s.node.function.freeVars)
    (hi : index s.node.function.localReferenceVars x = some i)
    (hr : frame.references[i]? = some b) (hb : w.heap.box b = some v) : Reads s x frame w v := by
  refine ⟨.loadReference i, _, ?_, exec_box hr hb⟩
  simp only [visitName, if_neg hg, index_eq_none.mpr hf, hi]
  rfl

theorem reads_local {i : Nat} (hg : x ∉ s.node.globals) (hf : x ∉ s.node.function.freeVars)
    (hn : x ∉ s.node.function.localReferenceVars)
    (hi : index s.node.function.localVars x = some i)
    (hv : frame.locals[i]? = some v) : Reads s x frame w v := by
  refine ⟨.loadLocal i, none, ?_, ?_⟩
  · simp only [visitName, if_neg hg, index_eq_none.mpr hf, index_eq_none.mpr hn, hi]
    rfl
  · rw [Frame.exec, rawIndex_ok.mpr hv]
    rfl

end Names

/-! ### The call -/

theorem mapM_range {l : List Addr} {n : Nat} (h : n ≤ l.length) :
    (List.range n).mapM (rawIndex l) = .ok (l.take n) := by
  induction n with
  | zero => rfl
  | succ n ih =>
    have hn : n < l.length := h
    rw [List.range_succ, List.mapM_append, ih (Nat.le_of_lt hn),
      List.take_succ_eq_append_getElem hn]
    simp [rawIndex_ok.mpr (List.getElem?_eq_getElem hn)]

/-- The frame of a call, and the world after its prologue. -/
structure Begun (a : Site) (captured : List Addr) (arguments : List Value) (w : World)
    (frame : Frame) (w' : World) (boxes : List Addr) : Prop where
  new : NewBoxes w a.layout.localReferenceVars.length boxes
    (allocateBoxes a.layout.localReferenceVars.length w).2
  references : frame.references = boxes ++ captured
  stored : Stored a.slot (boxes ++ captured) 0 arguments
    (List.replicate a.layout.localVars.length .none)
    (allocateBoxes a.layout.localReferenceVars.length w).2 frame.locals w'

theorem enterClosure_entered {closure : Addr} {captured : List Addr} {arguments : List Value}
    {w w' : World} {frame : Frame} (hcount : arguments.length = a.literal.arguments.length)
    (hcaptured : captured.length = a.layout.freeVars.length)
    (h : enterClosure closure a.function captured arguments w = .ok (frame, w')) :
    Begun a captured arguments w frame w'
      (allocateBoxes a.layout.localReferenceVars.length w).1 := by
  obtain ⟨hparameters, hlocal, hreference, hfree⟩ := function_layout a
  unfold enterClosure at h
  rw [if_neg (not_not.mpr (hparameters.trans hcount.symm)), hreference, hfree, hlocal,
    mapM_range hcaptured.ge, ← hcaptured, List.take_length] at h
  obtain ⟨free, hfree, h⟩ := bind_ok.mp h
  cases hfree
  obtain ⟨⟨locals, w₂⟩, hrun, h⟩ := bind_ok.mp h
  cases h
  exact ⟨allocateBoxes_new _ w, rfl, storeArguments_stored (fun _ _ => argMapping_slot a) hrun⟩

/-! ### Which table a name is in -/

/-- A scan for references finds none of the names it was told to leave out. -/
theorem outerRefs_outside {ref0s locals globals : List String} {body : Block} {x : String}
    (h : x ∈ getOuterRefs ref0s locals globals body) : x ∉ locals ∧ x ∉ globals := by
  have hneedle := body.scan_keeps (refsScanner_keeps _) ⟨[[]], []⟩
    (fun _ h => absurd h List.not_mem_nil) x h
  exact of_decide_eq_true (List.mem_filter.mp hneedle).2

theorem refsScanner_nodup (needles : List String) :
    (refsScanner needles).Keeps fun s => s.refs.Nodup where
  name := fun assigning x s h => by
    simp only [refsScanner]
    split
    · unfold RefsState.ignore
      split
      · exact h
      · exact h
    · split
      · exact nodup_setInsert x h
      · exact h
  global := fun x s h => by
    simp only [refsScanner, RefsState.ignore]
    split
    · exact h
    · exact h
  assignment := fun _ h => by simp [refsScanner] at h
  enter := fun enter he arguments s h => by
    cases he
    exact h
  leave := fun _ h => h

theorem outerRefs_nodup (ref0s locals globals : List String) (body : Block) :
    (getOuterRefs ref0s locals globals body).Nodup :=
  body.scan_keeps (refsScanner_nodup _) ⟨[[]], []⟩ List.nodup_nil

theorem localsScanner_keeps (globals : List String) :
    (localsScanner globals).Keeps fun s => ∀ x ∈ s, x ∉ globals where
  name := fun _ _ _ h => h
  global := fun x s h => h
  assignment := fun visit hv lhs s h => by
    cases hv
    cases lhs with
    | name y =>
      dsimp only
      split
      · exact h
      · next hy =>
        intro x hx
        rcases mem_setInsert.mp hx with rfl | hx
        · exact hy
        · exact h x hx
    | _ => exact h
  enter := fun enter he arguments s h => by
    cases he
    exact h
  leave := fun _ h => h

theorem locals_not_global {globals : List String} {body : Block} {x : String}
    (h : x ∈ getLocals globals body) : x ∉ globals :=
  body.scan_keeps (localsScanner_keeps globals) [] (fun _ h => absurd h List.not_mem_nil) x h

/-- The scan for dependencies declares no variable of the function global. -/
theorem dependenciesScanner_keeps_declared (up : List Node) (l : Layout) (declared : List String) :
    (dependenciesScanner up).Keeps fun n => n.layout = l ∧
      (∀ x ∈ declared, x ∈ n.globals) ∧
      ∀ x ∈ n.globals, x ∈ declared ∨ x ∉ l.localVars ∧ x ∉ l.freeVars where
  name := fun _ x n h => by
    obtain ⟨rfl, hall, hnew⟩ := h
    simp only [dependenciesScanner]
    split
    · exact ⟨rfl, hall, hnew⟩
    · next hx =>
      split
      · refine ⟨rfl, fun y hy => mem_insert.mpr (.inl (hall y hy)), fun y hy => ?_⟩
        rcases mem_insert.mp hy with hy | rfl
        · exact hnew y hy
        · exact .inr ⟨fun hm => hx (.inr (.inl hm)), fun hm => hx (.inl hm)⟩
      · exact ⟨rfl, hall, hnew⟩
  global := fun _ _ h => h
  assignment := fun _ h => by simp [dependenciesScanner] at h
  enter := fun _ h => by simp [dependenciesScanner] at h
  leave := fun _ h => h

theorem entered_globals (a : Site) :
    (∀ x ∈ getGlobals a.literal.body,
      x ∈ (enterFunction a.parent a.up a.literal.arguments a.literal.body).globals) ∧
    ∀ x ∈ (enterFunction a.parent a.up a.literal.arguments a.literal.body).globals,
      x ∈ getGlobals a.literal.body ∨ x ∉ a.layout.localVars ∧ x ∉ a.layout.freeVars := by
  have hkeeps := a.literal.body.scan_keeps
    (dependenciesScanner_keeps_declared (a.parent :: a.up) a.layout (getGlobals a.literal.body))
  exact (hkeeps _ ⟨rfl, fun x hx => mem_insertAll.mpr (.inr hx),
    fun x hx => .inl ((mem_insertAll.mp hx).resolve_left List.not_mem_nil)⟩).2

theorem mem_freeVars {x : String} :
    x ∈ a.layout.freeVars ↔
      x ∈ localRef0s a.parent a.literal.body ∨ x ∈ freeRef0s a.parent a.literal.body := by
  show x ∈ insertAll (insertAll [] _) _ ↔ _
  rw [mem_insertAll, mem_insertAll]
  simp only [List.not_mem_nil, false_or]

/-- A captured variable is neither assigned in the body nor global there. -/
theorem freeVars_outside {x : String} (h : x ∈ a.layout.freeVars) :
    x ∉ getLocals (getGlobals a.literal.body) a.literal.body ∧ x ∉ getGlobals a.literal.body := by
  rcases mem_freeVars.mp h with h | h
  · exact outerRefs_outside h
  · exact outerRefs_outside h

theorem freeVars_not_global {s : State} (hs : a.InBody s) {x : String}
    (h : x ∈ a.layout.freeVars) : x ∉ s.node.globals := by
  intro hg
  rw [hs.globals] at hg
  exact ((entered_globals a).2 x hg).elim (freeVars_outside h).2 fun hout => hout.2 h

/-- A variable of the function is global where its body declares it so. -/
theorem localVars_not_global {s : State} (hs : a.InBody s) {x : String}
    (h : x ∈ a.layout.localVars) (hx : x ∉ getGlobals a.literal.body) : x ∉ s.node.globals := by
  intro hg
  rw [hs.globals] at hg
  exact ((entered_globals a).2 x hg).elim hx fun hout => hout.1 h

end PrologueLemmas

end Beaverc

import Beaverc.Accounting
import Beaverc.Twin

/-!
# String trees

With `OPTIMIZATION_STRING_TREES` the sum of a string and another value is a
`StringValue` that holds its operands and is rendered when it is asked for its
text. Its operands are strings, or words without an object, or flat copies of
the texts of records and functions. So whatever is written later, its text
stays what it was, the texts of the operands joined.

That is the text of the flat string which is made without the option, but for
one thing: the constructor of a flat string copies with `strncpy`, which stops
at a NUL. The rest of the models of `add` and `input` leaves NULs out; here
they are in.
-/

namespace Beaverc
open Results

/-! ## Copied texts -/

def nul : Char :=
  Char.ofNat 0

/-- The bytes of a text. -/
def byteCount : List Char → Nat
  | [] => 0
  | c :: rest => c.utf8Size + byteCount rest

/-- `strncpy(memory, value.c_str(), length)`: what follows the first NUL is
replaced by NULs. -/
def strncpy : List Char → List Char
  | [] => []
  | c :: rest => if c = nul then List.replicate (byteCount (c :: rest)) nul else c :: strncpy rest

/-- The text of a flat string made from `value`. -/
def copied (value : String) : String :=
  String.ofList (strncpy value.toList)

namespace StringTreesLemmas

theorem byteCount_append (a b : List Char) : byteCount (a ++ b) = byteCount a + byteCount b := by
  induction a with
  | nil => exact (Nat.zero_add _).symm
  | cons c rest ih => rw [List.cons_append, byteCount, byteCount, ih, Nat.add_assoc]

theorem byteCount_replicate (n : Nat) : byteCount (List.replicate n nul) = n := by
  induction n with
  | zero => rfl
  | succ n ih =>
    rw [List.replicate_succ, byteCount, ih]
    exact Nat.add_comm 1 n

theorem byteCount_strncpy (a : List Char) : byteCount (strncpy a) = byteCount a := by
  induction a with
  | nil => rfl
  | cons c rest ih =>
    unfold strncpy
    split
    · exact byteCount_replicate _
    · exact congrArg (c.utf8Size + ·) ih

theorem strncpy_of_nul (rest : List Char) :
    strncpy (nul :: rest) = List.replicate (byteCount (nul :: rest)) nul :=
  if_pos rfl

/-- Copying the first part before does not change the copy of the whole, -/
theorem strncpy_left (a b : List Char) : strncpy (strncpy a ++ b) = strncpy (a ++ b) := by
  induction a with
  | nil => rfl
  | cons c rest ih =>
    by_cases hc : c = nul
    · subst hc
      have hbytes : byteCount (nul :: rest) = byteCount rest + 1 := Nat.add_comm 1 _
      rw [strncpy_of_nul, hbytes, List.replicate_succ, List.cons_append, List.cons_append,
        strncpy_of_nul, strncpy_of_nul]
      congr 1
      rw [← List.cons_append, ← List.replicate_succ, ← List.cons_append, byteCount_append,
        byteCount_append, byteCount_replicate, hbytes]
    · have hleft : strncpy (c :: rest) = c :: strncpy rest := if_neg hc
      rw [hleft, List.cons_append, List.cons_append, strncpy, strncpy, if_neg hc, if_neg hc, ih]

/-- nor does copying the second. -/
theorem strncpy_right (a b : List Char) : strncpy (a ++ strncpy b) = strncpy (a ++ b) := by
  induction a with
  | nil =>
    have hself := strncpy_left b []
    rwa [List.append_nil, List.append_nil] at hself
  | cons c rest ih =>
    rw [List.cons_append, List.cons_append, strncpy, strncpy, ih]
    simp only [← List.cons_append, byteCount_append, byteCount_strncpy]

theorem copied_append (s t : String) :
    copied (copied s ++ t) = copied (s ++ t) ∧ copied (s ++ copied t) = copied (s ++ t) := by
  simp only [copied, String.toList_append, String.toList_ofList, strncpy_left, strncpy_right,
    and_self]

theorem strncpy_of_clean {a : List Char} (h : nul ∉ a) : strncpy a = a := by
  induction a with
  | nil => rfl
  | cons c rest ih =>
    rw [List.mem_cons, not_or] at h
    rw [strncpy, if_neg (Ne.symm h.1), ih h.2]

end StringTreesLemmas

/-! ## Addition -/

namespace CollectedHeap

/-- `makeString(heap.allocate<StringValue>(value))`. -/
def makeString (value : String) (h : CollectedHeap) : Value × CollectedHeap :=
  (.stringValue (h.allocate (.string (copied value))).1,
    (h.allocate (.string (copied value))).2)

/-- What the constructor `StringValue(heap, l, r)` keeps of an operand. -/
def keepOperand (v : Value) (h : CollectedHeap) : Except Stop (Value × CollectedHeap) :=
  match v with
  | .pointer _ => do
    let text ← v.toText h
    .ok (h.makeString text)
  | _ => .ok (v, h)

/-- `makeString(heap.allocate<StringValue>(left, right))`. -/
def addTree (left right : Value) (h : CollectedHeap) : Except Stop (Value × CollectedHeap) := do
  let (l, h) ← h.keepOperand left
  let (r, h) ← h.keepOperand right
  .ok (.stringValue (h.allocate (.tree l r)).1, (h.allocate (.tree l r)).2)

/-- The flat string of the two texts. -/
def addFlat (left right : Value) (h : CollectedHeap) : Except Stop (Value × CollectedHeap) := do
  let l ← left.toText h
  let r ← right.toText h
  .ok (h.makeString (l ++ r))

/-- `add`. -/
def add (left right : Value) (h : CollectedHeap) : Except Stop (Value × CollectedHeap) :=
  if right.isString || left.isString then
    if h.options.stringTrees then h.addTree left right else h.addFlat left right
  else
    match right, left with
    | .integer r, .integer l => .ok (.makeInteger (r + l), h)
    | _, _ => .error (.raised .illegalCast "Can't perform addition")

/-! ## Tags -/

end CollectedHeap

/-- The objects of the class `StringValue`. -/
def Payload.isText : Payload → Bool
  | .string _ | .tree .. => true
  | _ => false

def Payload.values : Payload → List Value
  | .tree left right => [left, right]
  | .record values => values.map Prod.snd
  | .reference value => [value]
  | _ => []

namespace CollectedHeap

/-- The tag of a value tells the class of its object: `makeString` gets a pointer
to a `StringValue`. -/
def Tells (h : CollectedHeap) (v : Value) : Prop :=
  ∀ a, v = .stringValue a → a < h.next ∧ ∀ p, payloadAt h.store a = some p → p.isText = true

/-- What an object may hold: values with the right tags, and in a string tree no
record and no function. -/
structure Admits (h : CollectedHeap) (p : Payload) : Prop where
  values : ∀ v ∈ p.values, h.Tells v
  trees : ∀ left right, p = .tree left right → ∀ b, left ≠ .pointer b ∧ right ≠ .pointer b

structure Tagged (h : CollectedHeap) : Prop where
  fresh : ∀ a, h.Present a → a < h.next
  admits : ∀ a p, payloadAt h.store a = some p → h.Admits p

/-- The operands of an operation have the right tags. -/
def Operation.Tagged (h : CollectedHeap) : Operation → Prop
  | .allocate p => h.Admits p
  | .insert _ _ v | .write _ v => h.Tells v
  | _ => True

/-- A collection deletes objects, the other operations make or change one. -/
def Operation.collects : Operation → Bool
  | .gcFast _ | .gcFull _ => true
  | _ => false

/-- The value an operation writes into an object. -/
def Operation.written : Operation → Option Value
  | .insert _ _ v | .write _ v => some v
  | _ => none

/-- What an operation does to the payloads. -/
inductive HeapEffect (op : Operation) (h h' : CollectedHeap) : Prop
  | made (p : Payload) : op = .allocate p → h'.next = h.next + 1 →
      (∀ b, payloadAt h'.store b = if b = h.next then some p else payloadAt h.store b) →
      HeapEffect op h h'
  | changed (a : Addr) (p p' : Payload) : h'.next = h.next → payloadAt h.store a = some p →
      p.isText = false → p'.isText = false →
      (∀ v ∈ p'.values, v ∈ p.values ∨ v = .none ∨ op.written = some v) →
      (∀ b, payloadAt h'.store b = if b = a then some p' else payloadAt h.store b) →
      HeapEffect op h h'
  | deleted : op.collects = true → h'.next = h.next →
      (∀ b p, payloadAt h'.store b = some p → payloadAt h.store b = some p) → HeapEffect op h h'

end CollectedHeap

namespace StringTreesLemmas
open CollectedHeap AccountingLemmas GenerationLemmas

variable {h h' : CollectedHeap}

theorem mem_assign {key : String} {v x : Value} {values : List (String × Value)}
    (hv : v ∈ (assign key x values).map Prod.snd) : v ∈ values.map Prod.snd ∨ v = x := by
  induction values with
  | nil => exact .inr (List.mem_singleton.mp hv)
  | cons p rest ih =>
    unfold assign at hv
    split at hv
    · rcases List.mem_cons.mp hv with rfl | hv
      · exact .inr rfl
      · exact .inl (List.mem_cons_of_mem _ hv)
    · rcases List.mem_cons.mp hv with rfl | hv
      · exact .inl List.mem_cons_self
      · exact (ih hv).imp_left (List.mem_cons_of_mem _)

theorem deref_payload {a : Addr} {o : Object} (ho : h.deref a = .ok o) :
    payloadAt h.store a = some o.payload := by
  unfold CollectedHeap.deref at ho
  split at ho
  · next hs =>
    cases ho
    rw [payloadAt, hs]
    rfl
  · cases ho

/-- What changes the payload at `a` to `p'`. -/
theorem payloadAt_changed {g : CollectedHeap} {a : Addr} {p p' : Payload}
    (hp : payloadAt h.store a = some p) (hg : g.store = (h.setPayload a p').store) (b : Addr) :
    payloadAt g.store b = if b = a then some p' else payloadAt h.store b := by
  rw [hg, payloadAt_setPayload, hp]
  rfl

theorem sweep_payload {overhead : Nat} {swept kept deleted : List Addr}
    (he : h.sweep overhead swept = .ok (h', kept, deleted)) :
    h'.options = h.options ∧ h'.next = h.next ∧
      ∀ b p, payloadAt h'.store b = some p → payloadAt h.store b = some p := by
  induction swept generalizing h h' kept deleted with
  | nil =>
    cases he
    exact ⟨rfl, rfl, fun _ _ => id⟩
  | cons a swept ih =>
    obtain ⟨o, ho, he⟩ := bind_ok.mp he
    have hpay := deref_payload ho
    split at he
    · obtain ⟨r, hs, he⟩ := bind_ok.mp he
      cases he
      obtain ⟨hopt, hnext, hstore⟩ := ih hs
      refine ⟨hopt, hnext, fun b p hb => ?_⟩
      have hold := hstore b p hb
      by_cases hba : b = a
      · subst hba
        simp [payloadAt, CollectedHeap.decreaseSize, CollectedHeap.delete] at hold
      · simpa [payloadAt, CollectedHeap.decreaseSize, CollectedHeap.delete, hba] using hold
    · obtain ⟨r, hs, he⟩ := bind_ok.mp he
      cases he
      obtain ⟨hopt, hnext, hstore⟩ := ih hs
      refine ⟨hopt, hnext, fun b p hb => ?_⟩
      have hold := hstore b p hb
      by_cases hba : b = a
      · subst hba
        rw [hpay]
        simpa [payloadAt] using hold
      · simpa [payloadAt, hba] using hold

theorem effect_allocate (p : Payload) : HeapEffect (.allocate p) h (h.allocate p).2 :=
  .made p rfl rfl fun b => by
    rw [payloadAt, WellFormed.store_allocate]
    split <;> rfl

theorem effect_get {a : Addr} {key : String} {v : Value} (he : h.recordGet a key = .ok (v, h')) :
    h'.options = h.options ∧ HeapEffect (.get a key) h h' := by
  obtain ⟨o, ho, he⟩ := bind_ok.mp he
  have hpay := deref_payload ho
  split at he
  · next values hrec =>
    rw [hrec] at hpay
    split at he
    · -- the record has the key, and the heap stays
      cases he
      refine ⟨rfl, .changed a _ (.record values) rfl hpay rfl rfl (fun v hv => .inl hv) fun b => ?_⟩
      split
      · next hb => rw [hb, hpay]
      · rfl
    · cases he
      refine ⟨rfl, .changed a _ _ rfl hpay rfl rfl (fun v hv => ?_) (payloadAt_changed hpay rfl)⟩
      exact (mem_assign hv).imp_right .inl
  · cases he

theorem effect_insert {a : Addr} {key : String} {v : Value}
    (he : h.recordInsert a key v = .ok h') :
    h'.options = h.options ∧ HeapEffect (.insert a key v) h h' := by
  obtain ⟨o, ho, he⟩ := bind_ok.mp he
  have hpay := deref_payload ho
  split at he
  · next values hrec =>
    rw [hrec] at hpay
    obtain ⟨cross, rfl, -⟩ := remember_cases he
    have hvalues : ∀ x ∈ (Payload.record (assign key v values)).values,
        x ∈ (Payload.record values).values ∨ x = .none ∨ some v = some x := fun x hx =>
      (mem_assign hx).imp_right fun hxv => .inr (congrArg some hxv.symm)
    -- the size of a new field is counted before the field is written
    split
    · exact ⟨rfl, .changed a _ _ rfl hpay rfl rfl hvalues (payloadAt_changed hpay rfl)⟩
    · exact ⟨rfl, .changed a _ _ rfl hpay rfl rfl hvalues (payloadAt_changed hpay rfl)⟩
  · cases he

theorem effect_write {a : Addr} {v : Value} (he : h.referenceWrite a v = .ok h') :
    h'.options = h.options ∧ HeapEffect (.write a v) h h' := by
  obtain ⟨o, ho, he⟩ := bind_ok.mp he
  have hpay := deref_payload ho
  split at he
  · next value href =>
    rw [href] at hpay
    obtain ⟨cross, rfl, -⟩ := remember_cases he
    refine ⟨rfl, .changed a _ (.reference v) rfl hpay rfl rfl (fun x hx => ?_)
      (payloadAt_changed hpay rfl)⟩
    exact .inr (.inr (congrArg some (List.mem_singleton.mp hx).symm))
  · cases he

theorem effect_addReference {a r : Addr} (he : h.addReference a r = .ok h') :
    h'.options = h.options ∧ HeapEffect (.addReference a r) h h' := by
  obtain ⟨o, ho, he⟩ := bind_ok.mp he
  have hpay := deref_payload ho
  split at he
  · next f references hclosure =>
    rw [hclosure] at hpay
    cases he
    exact ⟨rfl, .changed a _ (.closure f (references ++ [r])) rfl hpay rfl rfl
      (fun x hx => absurd hx List.not_mem_nil) (payloadAt_changed hpay rfl)⟩
  · cases he

theorem effect_gcFull {roots deleted : List Addr} (he : h.gcFull roots = .ok (h', deleted)) :
    h'.options = h.options ∧ HeapEffect (.gcFull roots) h h' := by
  obtain ⟨st, h₁, kept, hm, hs, rfl⟩ := gcFull_ok he
  obtain ⟨hopt, -, hnext, hstore, -⟩ := spliced_same h
  obtain ⟨hmark, -⟩ := foldlM_marked (fun _ c b => c = b) (fun _ _ _ _ _ h => h)
    (fun _ _ c h => ⟨(mark_marked h).1, fun b hb => hb ▸ (mark_marked h).2⟩) roots hm
  obtain ⟨hsopt, hsnext, hpay⟩ := sweep_payload hs
  refine ⟨hsopt.trans hopt, .deleted rfl (hsnext.trans hnext) fun b p hb => ?_⟩
  rw [← hstore, ← hmark.payload b]
  exact hpay b p hb

theorem effect_gcFast {roots deleted : List Addr} (he : h.gcFast roots = .ok (h', deleted)) :
    h'.options = h.options ∧ HeapEffect (.gcFast roots) h h' := by
  obtain ⟨st, st', h₁, kept, hm, hm', hs, rfl⟩ := gcFast_ok he
  obtain ⟨hroots, -⟩ := foldlM_marked (fun _ c b => c = b) (fun _ _ _ _ _ h => h)
    (fun _ _ c h => ⟨(mark_marked h).1, fun b hb => hb ▸ (mark_marked h).2⟩) roots hm
  obtain ⟨hslots, -⟩ := foldlM_marked
    (fun st slot a => (readSlot st slot).bind Value.pointer? = some a)
    (fun _ _ slot a h ha => by rw [readSlot_marked h slot]; exact ha)
    (fun _ _ _ h => markSlot_marked h) h.crossGenerationPointers hm'
  obtain ⟨hsopt, hsnext, hpay⟩ := sweep_payload hs
  refine ⟨hsopt, .deleted rfl hsnext fun b p hb => ?_⟩
  rw [← hroots.payload b, ← hslots.payload b]
  exact hpay b p hb

theorem run_effect {op : Operation} (he : op.run h = .ok h') :
    h'.options = h.options ∧ HeapEffect op h h' := by
  cases op with
  | allocate p =>
    cases he
    exact ⟨rfl, effect_allocate p⟩
  | get a key =>
    obtain ⟨r, hg, rfl⟩ := map_ok.mp he
    exact effect_get hg
  | insert a key v => exact effect_insert he
  | write a v => exact effect_write he
  | addReference a r => exact effect_addReference he
  | gcFast roots =>
    obtain ⟨r, hg, rfl⟩ := map_ok.mp he
    exact effect_gcFast hg
  | gcFull roots =>
    obtain ⟨r, hg, rfl⟩ := map_ok.mp he
    exact effect_gcFull hg

theorem next_le {op : Operation} (he : HeapEffect op h h') : h.next ≤ h'.next := by
  cases he with
  | made p _ hnext _ => exact hnext ▸ Nat.le_succ _
  | changed a p p' hnext _ _ _ _ _ => exact Nat.le_of_eq hnext.symm
  | deleted _ hnext _ => exact Nat.le_of_eq hnext.symm

theorem present_of_payload {a : Addr} {p : Payload} (hp : payloadAt h.store a = some p) :
    h.Present a :=
  present_iff_payloadAt.mpr (by rw [hp]; rfl)

theorem fresh_effect {op : Operation} (hf : ∀ a, h.Present a → a < h.next)
    (he : HeapEffect op h h') : ∀ a, h'.Present a → a < h'.next := by
  intro a ha
  obtain ⟨q, hq⟩ := Option.isSome_iff_exists.mp (present_iff_payloadAt.mp ha)
  cases he with
  | made p _ hnext hpay =>
    rw [hpay] at hq
    rw [hnext]
    split at hq
    · next hb => exact hb ▸ Nat.lt_succ_self _
    · exact Nat.lt_succ_of_lt (hf a (present_of_payload hq))
  | changed b p p' hnext hp _ _ _ hpay =>
    rw [hpay] at hq
    rw [hnext]
    split at hq
    · next hb => exact hb ▸ hf b (present_of_payload hp)
    · exact hf a (present_of_payload hq)
  | deleted _ hnext hpay =>
    rw [hnext]
    exact hf a (present_of_payload (hpay a q hq))

/-- A right tag stays right: no operation makes another object of a `StringValue`. -/
theorem tells_effect {op : Operation} (he : HeapEffect op h h') {v : Value} (hv : h.Tells v) :
    h'.Tells v := by
  intro a hva
  obtain ⟨hlt, htext⟩ := hv a hva
  refine ⟨Nat.lt_of_lt_of_le hlt (next_le he), fun q hq => ?_⟩
  cases he with
  | made p _ _ hpay =>
    rw [hpay, if_neg (Nat.ne_of_lt hlt)] at hq
    exact htext q hq
  | changed b p p' _ hp hold _ _ hpay =>
    rw [hpay] at hq
    split at hq
    · next hb =>
      have htext' := htext p (hb ▸ hp)
      rw [hold] at htext'
      cases htext'
    · exact htext q hq
  | deleted _ _ hpay => exact htext q (hpay a q hq)

theorem admits_effect {op : Operation} (he : HeapEffect op h h') {p : Payload} (hp : h.Admits p) :
    h'.Admits p :=
  ⟨fun v hv => tells_effect he (hp.values v hv), hp.trees⟩

/-- The step lemma. -/
theorem tagged_effect {op : Operation} (ht : h.Tagged) (hop : op.Tagged h)
    (he : HeapEffect op h h') : h'.Tagged := by
  refine ⟨fresh_effect ht.fresh he, fun a q hq => ?_⟩
  cases id he with
  | made p hmade _ hpay =>
    subst hmade
    rw [hpay] at hq
    split at hq
    · cases hq
      exact admits_effect he hop
    · exact admits_effect he (ht.admits a q hq)
  | changed b p p' _ hp _ hnew hvalues hpay =>
    rw [hpay] at hq
    split at hq
    · cases hq
      refine ⟨fun v hv => ?_, fun left right hq => ?_⟩
      · rcases hvalues v hv with hv | rfl | hw
        · exact tells_effect he ((ht.admits b p hp).values v hv)
        · exact fun _ hn => nomatch hn
        · cases op with
          | insert | write =>
            cases hw
            exact tells_effect he hop
          | _ => cases hw
      · rw [hq] at hnew
        cases hnew
    · exact admits_effect he (ht.admits a q hq)
  | deleted _ _ hpay => exact admits_effect he (ht.admits a q (hpay a q hq))

/-- The run lemma. -/
theorem tagged_history {options : HeapOptions} {steps : List (CollectedHeap × Operation)}
    (hr : History options steps h) (hs : ∀ step ∈ steps, step.2.Tagged step.1) : h.Tagged := by
  induction hr with
  | empty => exact ⟨fun a ha => absurd ha Bool.false_ne_true, fun a p hp => (nomatch hp)⟩
  | step _ he ih =>
    have ht := ih fun step hstep => hs step (List.mem_cons_of_mem _ hstep)
    exact tagged_effect ht (hs _ List.mem_cons_self) (run_effect he).2

end StringTreesLemmas

/-! ## Later writes -/

namespace CollectedHeap

/-- The heaps that later operations make of a heap: records, references and
closures are written, and objects are allocated. -/
inductive Mutated : CollectedHeap → CollectedHeap → Prop
  | refl (h : CollectedHeap) : Mutated h h
  | step {h h₁ h₂ : CollectedHeap} {op : Operation} : Mutated h h₁ → op.collects = false →
      op.run h₁ = .ok h₂ → Mutated h h₂

/-- The objects with property `P` stay as they are. -/
structure Retains (P : Payload → Prop) (h h' : CollectedHeap) : Prop where
  options : h'.options = h.options
  next : h.next ≤ h'.next
  payload : ∀ a p, payloadAt h.store a = some p → P p → payloadAt h'.store a = some p

/-- The value is the string `text`, in this heap and after any later writes: that
is what `toString()` returns, and `==` compares it with. -/
def Shows (h : CollectedHeap) (v : Value) (text : String) : Prop :=
  ∀ w : World, h.Mutated w.heap → v.toText w.heap = .ok text ∧
    ∀ other : Value,
      (∀ t, other.isString = true → other.toText w.heap = .ok t →
        w.equals v other = .ok (.boolean (text == t))) ∧
      (other.isString = false → w.equals v other = .ok (.boolean false))

end CollectedHeap

namespace StringTreesLemmas
open CollectedHeap AccountingLemmas

variable {h h' : CollectedHeap}

theorem retains_effect {op : Operation} (hf : ∀ a, h.Present a → a < h.next)
    (hop : op.collects = false) (ho : h'.options = h.options) (he : HeapEffect op h h') :
    h.Retains (fun p => p.isText = true) h' := by
  refine ⟨ho, next_le he, fun a p hp htext => ?_⟩
  cases he with
  | made q _ _ hpay =>
    rw [hpay, if_neg (Nat.ne_of_lt (hf a (present_of_payload hp)))]
    exact hp
  | changed b q q' _ hq hold _ _ hpay =>
    rw [hpay, if_neg fun hab => ?_]
    · exact hp
    · rw [hab, hq] at hp
      cases hp
      rw [hold] at htext
      cases htext
  | deleted hc => rw [hc] at hop; cases hop

/-- The strings stay as they are in the whole run. -/
theorem retains_mutated (hf : ∀ a, h.Present a → a < h.next) (hm : h.Mutated h') :
    h.Retains (fun p => p.isText = true) h' ∧ ∀ a, h'.Present a → a < h'.next := by
  induction hm with
  | refl => exact ⟨⟨rfl, Nat.le_refl _, fun _ _ hp _ => hp⟩, hf⟩
  | step _ hop he ih =>
    obtain ⟨hk, hf₁⟩ := ih
    obtain ⟨ho, heff⟩ := run_effect he
    have hk₁ := retains_effect hf₁ hop ho heff
    exact ⟨⟨hk₁.options.trans hk.options, Nat.le_trans hk.next hk₁.next, fun a p hp htext =>
      hk₁.payload a p (hk.payload a p hp htext) htext⟩, fresh_effect hf₁ heff⟩

theorem mapM_ok_mono {ε α β : Type} {f g : α → Except ε β} {l : List α} {bs : List β}
    (h : l.mapM f = .ok bs) (hfg : ∀ a b, f a = .ok b → g a = .ok b) : l.mapM g = .ok bs := by
  induction l generalizing bs with
  | nil => exact h
  | cons a l ih =>
    rw [List.mapM_cons] at h ⊢
    obtain ⟨b, hb, h⟩ := bind_ok.mp h
    obtain ⟨bs', hbs, h⟩ := bind_ok.mp h
    rw [hfg a b hb, ok_bind, ih hbs, ok_bind]
    exact h

/-- The text of a value of a kind `K` stays what it was, where `K` looks at objects
that stay only and holds of all that these hold. -/
theorem toStringDepth_retains {P : Payload → Prop} (hk : h.Retains P h') {K : Value → Prop}
    (hnone : K .none)
    (hK : ∀ v a p, K v → v.pointer? = some a → payloadAt h.store a = some p →
      P p ∧ ∀ x ∈ p.values, K x) {depth : Nat} {v : Value} {s : String} (hv : K v)
    (hs : v.toStringDepth h depth = .ok s) {depth' : Nat} (hd : depth ≤ depth') :
    v.toStringDepth h' depth' = .ok s := by
  induction depth generalizing v s depth' with
  | zero => cases hs
  | succ depth ih =>
    obtain ⟨m, rfl⟩ := Nat.exists_eq_add_of_le hd
    rw [Nat.add_right_comm]
    have hle : depth ≤ depth + m := Nat.le_add_right depth m
    cases v with
    | stringValue a | pointer a =>
      obtain ⟨o, ho, hs⟩ := bind_ok.mp hs
      have hpay := deref_payload ho
      obtain ⟨hP, hvalues⟩ := hK _ a o.payload hv rfl hpay
      have hpay' := hk.payload a o.payload hpay hP
      obtain ⟨o', ho', hp'⟩ := Option.map_eq_some_iff.mp hpay'
      have hderef : h'.deref a = .ok o' := by rw [CollectedHeap.deref, ho']
      simp only [Value.toStringDepth, hderef, ok_bind, hp']
      -- by the class of the object
      cases hp : o.payload with
      | string => rw [hp] at hs; exact hs
      | tree left right =>
        rw [hp] at hs hvalues
        obtain ⟨l, hl, hs⟩ := bind_ok.mp hs
        obtain ⟨r, hr, hs⟩ := bind_ok.mp hs
        have hl' := ih (hvalues left List.mem_cons_self) hl hle
        have hr' := ih (hvalues right (List.mem_cons_of_mem _ List.mem_cons_self)) hr hle
        simp only [hl', hr', ok_bind]
        exact hs
      | record values =>
        rw [hp] at hs hvalues
        obtain ⟨fields, hfields, hs⟩ := bind_ok.mp hs
        rw [hk.options]
        have hfields' := mapM_ok_mono (g := fun key => do
          let s ← Value.toStringDepth h' (depth + m) ((values.lookup key).getD .none)
          .ok (key ++ ":" ++ s ++ " ")) hfields fun key b hb => by
            obtain ⟨t, ht, hb⟩ := bind_ok.mp hb
            have hmem : K ((values.lookup key).getD .none) := by
              cases hl : values.lookup key with
              | none => exact hnone
              | some x => exact hvalues x (List.mem_map_of_mem (TwinLemmas.mem_of_lookup hl))
            simp only [ih hmem ht hle, ok_bind]
            exact hb
        simp only [hfields', ok_bind]
        exact hs
      | reference => rw [hp] at hs; cases hs
      | _ => rw [hp] at hs; exact hs
    | _ => exact hs

/-- Every object stays, so every text does. -/
theorem toText_retains (hk : h.Retains (fun _ => True) h') {v : Value} {s : String}
    (hs : v.toText h = .ok s) : v.toText h' = .ok s :=
  toStringDepth_retains hk (K := fun _ => True) trivial
    (fun _ _ _ _ _ _ => ⟨trivial, fun _ _ => trivial⟩) trivial hs (Nat.succ_le_succ hk.next)

/-- What a string tree holds: a word or a string. -/
def Leaf (h : CollectedHeap) (v : Value) : Prop :=
  (∀ b, v ≠ .pointer b) ∧ h.Tells v

theorem leaf_closed (ht : h.Tagged) {v : Value} {a : Addr} {p : Payload} (hv : Leaf h v)
    (ha : v.pointer? = some a) (hp : payloadAt h.store a = some p) :
    p.isText = true ∧ ∀ x ∈ p.values, Leaf h x := by
  cases v with
  | stringValue b =>
    cases ha
    have htext := (hv.2 _ rfl).2 p hp
    refine ⟨htext, fun x hx => ⟨?_, (ht.admits _ p hp).values x hx⟩⟩
    cases p with
    | tree left right =>
      have hno := (ht.admits _ _ hp).trees left right rfl
      simp only [Payload.values, List.mem_cons, List.not_mem_nil, or_false] at hx
      rcases hx with rfl | rfl
      · exact fun b => (hno b).1
      · exact fun b => (hno b).2
    | string => cases hx
    | _ => cases htext
  | pointer b => exact absurd rfl (hv.1 b)
  | _ => cases ha

theorem shows_iff (ht : h.Tagged) {a : Addr} (hv : h.Tells (.stringValue a)) {s t : String}
    (hs : (Value.stringValue a).toText h = .ok s) : h.Shows (.stringValue a) t ↔ s = t := by
  constructor
  · intro hshows
    have ht := (hshows ⟨h, 0, [], [], []⟩ (.refl h)).1
    exact Except.ok.inj (hs.symm.trans ht)
  · rintro rfl w hm
    obtain ⟨hk, -⟩ := retains_mutated ht.fresh hm
    have htext : (Value.stringValue a).toText w.heap = .ok s :=
      toStringDepth_retains hk ⟨fun _ hn => (nomatch hn), fun _ hn => (nomatch hn)⟩
        (fun _ _ _ hx ha hp => leaf_closed ht hx ha hp)
        (⟨fun _ hn => (nomatch hn), hv⟩ : Leaf h (.stringValue a)) hs (Nat.succ_le_succ hk.next)
    refine ⟨htext, fun other => ⟨fun t hother ht => ?_, fun hother => ?_⟩⟩
    · have hboth : ((Value.stringValue a).isString && other.isString) = true := hother
      unfold World.equals
      rw [if_pos hboth, htext, ht]
      rfl
    · have hboth : ¬ ((Value.stringValue a).isString && other.isString) = true := by
        rw [hother]
        exact Bool.false_ne_true
      have hne : Value.stringValue a ≠ other := fun he => by
        rw [← he] at hother
        cases hother
      unfold World.equals
      rw [if_neg hboth, decide_eq_false hne]

/-! ### Allocations -/

theorem retains_allocate (hf : ∀ a, h.Present a → a < h.next) (p : Payload) :
    h.Retains (fun _ => True) (h.allocate p).2 := by
  refine ⟨rfl, Nat.le_succ _, fun a q hq _ => ?_⟩
  rw [payloadAt, WellFormed.store_allocate, if_neg (Nat.ne_of_lt (hf a (present_of_payload hq)))]
  exact hq

theorem deref_allocate (p : Payload) :
    (h.allocate p).2.deref h.next = .ok ⟨false, 0, p⟩ := by
  unfold CollectedHeap.deref
  rw [WellFormed.store_allocate, if_pos rfl]

theorem tells_allocate {p : Payload} (hp : p.isText = true) :
    (h.allocate p).2.Tells (.stringValue h.next) := by
  intro a ha
  cases ha
  refine ⟨Nat.lt_succ_self _, fun q hq => ?_⟩
  rw [payloadAt, WellFormed.store_allocate, if_pos rfl] at hq
  cases hq
  exact hp

theorem tagged_allocate (ht : h.Tagged) {p : Payload} (hp : h.Admits p) :
    (h.allocate p).2.Tagged :=
  tagged_effect ht (show Operation.Tagged h (.allocate p) from hp) (effect_allocate p)

theorem makeString_spec (ht : h.Tagged) (value : String) :
    (h.makeString value).2.Tagged ∧ h.Retains (fun _ => True) (h.makeString value).2 ∧
      Leaf (h.makeString value).2 (h.makeString value).1 ∧
      (h.makeString value).1.toText (h.makeString value).2 = .ok (copied value) := by
  have hadmits : h.Admits (.string (copied value)) :=
    ⟨fun v hv => absurd hv List.not_mem_nil, fun _ _ he => (nomatch he)⟩
  refine ⟨tagged_allocate ht hadmits, retains_allocate ht.fresh _,
    ⟨fun _ hn => (nomatch hn), tells_allocate rfl⟩, ?_⟩
  show ((h.allocate (.string (copied value))).2.deref h.next >>= _) = _
  rw [deref_allocate]
  rfl

end StringTreesLemmas

/-- The text a string tree has for an operand with the text `text`. -/
def Value.heldText (v : Value) (text : String) : String :=
  match v with
  | .pointer _ => copied text
  | _ => text

namespace StringTreesLemmas
open CollectedHeap

variable {h : CollectedHeap}

theorem keepOperand_spec (ht : h.Tagged) {v : Value} (hv : h.Tells v) {s : String}
    (hs : v.toText h = .ok s) : ∃ v' h', h.keepOperand v = .ok (v', h') ∧ h'.Tagged ∧
      h.Retains (fun _ => True) h' ∧ (∀ x, h.Tells x → h'.Tells x) ∧ Leaf h' v' ∧
      v'.toText h' = .ok (v.heldText s) := by
  have hsame : h.Retains (fun _ => True) h := ⟨rfl, Nat.le_refl _, fun _ _ hp _ => hp⟩
  cases v with
  | pointer a =>
    obtain ⟨ht', hk, hleaf, htext⟩ := makeString_spec ht s
    refine ⟨_, _, ?_, ht', hk, fun x hx => ?_, hleaf, htext⟩
    · show (Value.toText h (.pointer a) >>= _) = _
      rw [hs]
      rfl
    · exact tells_effect (effect_allocate (.string (copied s))) hx
  | _ => exact ⟨_, _, rfl, ht, hsame, fun _ => id, ⟨fun _ hn => (nomatch hn), hv⟩, hs⟩

/-- The sum as a tree: a string, with the two texts joined. -/
theorem addTree_spec (ht : h.Tagged) {left right : Value} (hl : h.Tells left)
    (hr : h.Tells right) {l r : String} (hlt : left.toText h = .ok l)
    (hrt : right.toText h = .ok r) : ∃ a h', h.addTree left right = .ok (.stringValue a, h') ∧
      h'.Tagged ∧ h'.Tells (.stringValue a) ∧
      (Value.stringValue a).toText h' = .ok (left.heldText l ++ right.heldText r) := by
  obtain ⟨l', h₁, he₁, ht₁, hk₁, htell₁, hleaf₁, htext₁⟩ := keepOperand_spec ht hl hlt
  obtain ⟨r', h₂, he₂, ht₂, hk₂, htell₂, hleaf₂, htext₂⟩ :=
    keepOperand_spec ht₁ (htell₁ right hr) (toText_retains hk₁ hrt)
  have hadmits : h₂.Admits (.tree l' r') := by
    refine ⟨fun v hv => ?_, fun _ _ he b => ?_⟩
    · simp only [Payload.values, List.mem_cons, List.not_mem_nil, or_false] at hv
      rcases hv with rfl | rfl
      · exact htell₂ _ hleaf₁.2
      · exact hleaf₂.2
    · cases he
      exact ⟨hleaf₁.1 b, hleaf₂.1 b⟩
  have hk₃ := retains_allocate ht₂.fresh (.tree l' r')
  have hleft := toText_retains hk₂ htext₁
  -- the operands are rendered one level below the sum
  have hchild : ∀ {v : Value} {s : String}, v.toText h₂ = .ok s →
      v.toStringDepth (h₂.allocate (.tree l' r')).2 (h₂.next + 1) = .ok s := fun hs =>
    toStringDepth_retains hk₃ (K := fun _ => True) trivial
      (fun _ _ _ _ _ _ => ⟨trivial, fun _ _ => trivial⟩) trivial hs (Nat.le_refl _)
  refine ⟨h₂.next, (h₂.allocate (.tree l' r')).2, ?_, tagged_allocate ht₂ hadmits,
    tells_allocate rfl, ?_⟩
  · unfold addTree
    simp only [he₁, he₂, ok_bind]
    rfl
  · show ((h₂.allocate (.tree l' r')).2.deref h₂.next >>= _) = _
    rw [deref_allocate]
    simp only [ok_bind]
    show (l'.toStringDepth (h₂.allocate (.tree l' r')).2 (h₂.next + 1) >>= _) = _
    rw [hchild hleft]
    simp only [ok_bind]
    show (r'.toStringDepth (h₂.allocate (.tree l' r')).2 (h₂.next + 1) >>= _) = _
    rw [hchild htext₂]
    rfl

theorem addFlat_spec (ht : h.Tagged) {left right : Value} {l r : String}
    (hlt : left.toText h = .ok l) (hrt : right.toText h = .ok r) :
    ∃ a h', h.addFlat left right = .ok (.stringValue a, h') ∧ h'.Tagged ∧
      h'.Tells (.stringValue a) ∧ (Value.stringValue a).toText h' = .ok (copied (l ++ r)) := by
  obtain ⟨ht', -, hleaf, htext⟩ := makeString_spec ht (l ++ r)
  refine ⟨h.next, (h.makeString (l ++ r)).2, ?_, ht', hleaf.2, htext⟩
  unfold addFlat
  rw [hlt, hrt]
  rfl

/-- The text of a flat string does not depend on which operand was copied before. -/
theorem copied_heldText (left right : Value) (l r : String) :
    copied (left.heldText l ++ right.heldText r) = copied (l ++ r) := by
  have hleft : ∀ t, copied (left.heldText l ++ t) = copied (l ++ t) := fun t => by
    cases left with
    | pointer => exact (copied_append l t).1
    | _ => rfl
  rw [hleft]
  cases right with
  | pointer => exact (copied_append l r).2
  | _ => rfl

end StringTreesLemmas

open StringTreesLemmas CollectedHeap

/-- In every heap that a run leads to, a string tree and the flat string that could
have been made in its place show the same text for ever if and only if nothing
but NULs follows a NUL in the text that the tree joins. -/
theorem stringTrees_flat_iff {options : HeapOptions} {steps : List (CollectedHeap × Operation)}
    {h : CollectedHeap} (hh : History options steps h)
    (hs : ∀ step ∈ steps, step.2.Tagged step.1) (htrees : h.options.stringTrees = true)
    {left right : Value} (hstring : (right.isString || left.isString) = true)
    (hl : h.Tells left) (hr : h.Tells right) {l r : String} (hlt : left.toText h = .ok l)
    (hrt : right.toText h = .ok r) :
    ∃ v h' v₀ h₀ text, h.add left right = .ok (v, h') ∧ h.addFlat left right = .ok (v₀, h₀) ∧
      h₀.Shows v₀ text ∧ (h'.Shows v text ↔
        copied (left.heldText l ++ right.heldText r) = left.heldText l ++ right.heldText r) := by
  have ht := tagged_history hh hs
  obtain ⟨a, h', he, ht', hv, htext⟩ := addTree_spec ht hl hr hlt hrt
  obtain ⟨a₀, h₀, he₀, ht₀, hv₀, htext₀⟩ := addFlat_spec ht hlt hrt
  have hshows₀ : h₀.Shows (.stringValue a₀) (copied (l ++ r)) :=
    (shows_iff ht₀ hv₀ htext₀).mpr rfl
  refine ⟨.stringValue a, h', .stringValue a₀, h₀, copied (l ++ r), ?_, he₀, hshows₀, ?_⟩
  · unfold add
    rw [if_pos hstring, if_pos htrees, he]
  · rw [shows_iff ht' hv htext, copied_heldText]
    exact eq_comm

/-- The sum of `"a"` and an empty record. -/
theorem stringTrees_flat_iff_record : ∃ v h',
    (CollectedHeap.empty (.x64 true true)).allocate (.record []) = (0, h') ∧
      ∃ h'', h'.add (.stringConstant "a") (.pointer 0) = .ok (v, h'') ∧
        h''.Shows v "a\x7b\x7d" := by
  have hh : History (.x64 true true) [(_, .allocate (.record []))] _ :=
    History.empty.step rfl
  have htells : ∀ {h : CollectedHeap} {v : Value}, (∀ a, v ≠ .stringValue a) → h.Tells v :=
    fun hv a ha => absurd ha (hv a)
  obtain ⟨v, h'', v₀, h₀, text, hadd, hflat, hshows₀, hiff⟩ := stringTrees_flat_iff hh
    (fun step hstep => by
      cases List.mem_singleton.mp hstep
      exact ⟨fun v hv => absurd hv List.not_mem_nil, fun _ _ he => (nomatch he)⟩)
    rfl (show ((Value.pointer 0).isString || (Value.stringConstant "a").isString) = true from rfl)
    (htells fun _ hn => (nomatch hn)) (htells fun _ hn => (nomatch hn)) rfl rfl
  refine ⟨v, _, rfl, h'', hadd, ?_⟩
  cases hflat
  have htext := (hshows₀ ⟨_, 0, [], [], []⟩ (.refl _)).1
  cases htext
  exact hiff.mpr (by decide)

/-- A heap with the word `a` and a NUL, as `input` makes it, at address 0. -/
def nulWord : CollectedHeap :=
  ((CollectedHeap.empty (.x64 true true)).makeString (String.ofList ['a', nul])).2

/-- The tree still has the letter behind the NUL, the flat string does not. -/
theorem stringTrees_not_flat :
    (nulWord.add (.stringValue 0) (.stringConstant "b") >>= fun r => r.1.toText r.2) =
        .ok (String.ofList ['a', nul, 'b']) ∧
      (nulWord.addFlat (.stringValue 0) (.stringConstant "b") >>= fun r => r.1.toText r.2) =
        .ok (String.ofList ['a', nul, nul]) :=
  ⟨rfl, rfl⟩

/-! ## Texts without a NUL -/

namespace StringTreesLemmas

theorem copied_of_clean {t : String} (ht : nul ∉ t.toList) : copied t = t := by
  rw [copied, strncpy_of_clean ht, String.ofList_toList]

theorem heldText_of_clean (v : Value) {t : String} (ht : nul ∉ t.toList) : v.heldText t = t := by
  cases v with
  | pointer => exact copied_of_clean ht
  | _ => rfl

theorem clean_append {l r : String} (hl : nul ∉ l.toList) (hr : nul ∉ r.toList) :
    nul ∉ (l ++ r).toList := by
  rw [String.toList_append, List.mem_append]
  exact fun h => h.elim hl hr

/-- The world with the heap an addition leaves. -/
def inWorld (w : World) (q : Value × CollectedHeap) : Value × World :=
  (q.1, { w with heap := q.2 })

theorem flatten_eq {w : World} {v : Value} {s : String} (hs : v.toText w.heap = .ok s)
    (hclean : nul ∉ s.toList) : w.flatten v = (w.heap.keepOperand v).map (inWorld w) := by
  cases v with
  | pointer a =>
    show (Value.toText w.heap (.pointer a) >>= _) =
      (Value.toText w.heap (.pointer a) >>= _ : Except Stop _).map _
    rw [hs]
    simp only [ok_bind, makeString, copied_of_clean hclean]
    rfl
  | _ => rfl

end StringTreesLemmas

/-- Where the operands have no NUL in their texts, the condition above holds, -/
theorem joined_of_clean (left right : Value) {l r : String} (hl : nul ∉ l.toList)
    (hr : nul ∉ r.toList) :
    copied (left.heldText l ++ right.heldText r) = left.heldText l ++ right.heldText r := by
  rw [heldText_of_clean left hl, heldText_of_clean right hr]
  exact copied_of_clean (clean_append hl hr)

/-- and `World.add`, which leaves NULs out, is `add`. -/
theorem add_of_clean {w : World} (hf : ∀ a, w.heap.Present a → a < w.heap.next)
    {left right : Value} {l r : String} (hlt : left.toText w.heap = .ok l)
    (hrt : right.toText w.heap = .ok r) (hl : nul ∉ l.toList) (hr : nul ∉ r.toList) :
    w.add left right = (w.heap.add left right).map (inWorld w) := by
  unfold World.add CollectedHeap.add
  split
  · split
    · unfold addTree
      rw [flatten_eq hlt hl]
      -- the right operand has the same text once the left one is copied
      have hright : ∀ q, w.heap.keepOperand left = .ok q → right.toText q.2 = .ok r := by
        intro q hq
        cases left with
        | pointer a =>
          obtain ⟨text, -, hq⟩ := bind_ok.mp hq
          cases hq
          exact toText_retains (retains_allocate hf _) hrt
        | _ => cases hq; exact hrt
      cases hq : w.heap.keepOperand left with
      | error e => rfl
      | ok q =>
        have hflat : (inWorld w q).2.flatten right = _ := flatten_eq (hright q hq) hr
        simp only [Except.map, ok_bind]
        rw [hflat]
        show ((q.2.keepOperand right).map _ >>= _) =
          ((q.2.keepOperand right >>= _) : Except Stop _).map _
        cases q.2.keepOperand right with
        | error e => rfl
        | ok q' => rfl
    · unfold addFlat
      rw [hlt, hrt]
      simp only [ok_bind, makeString, copied_of_clean (clean_append hl hr)]
      rfl
  · cases right with
    | integer => cases left <;> rfl
    | _ => rfl

end Beaverc

import Beaverc.Generations
import Beaverc.World
import Beaverc.Base.Results

/-!
# Two worlds that differ in deleted objects

`Below h h₀`: the heap `h` holds some of the objects of `h₀`, at the same
addresses and with the same payloads. An operation whose operands point to
objects of `h` does the same on both heaps, and so it does on two worlds that
differ in nothing else (`Twin`).
-/

namespace Beaverc
open Results CollectedHeap

/-- Computations that agree, and do not follow a pointer to a deleted object. -/
abbrev Agrees {α β : Type} (R : α → β → Prop) (x : Except Stop α) (y : Except Stop β) : Prop :=
  Agree (fun e => e = Stop.useAfterFree) R x y

/-! ## Heaps -/

namespace CollectedHeap

structure Below (h h₀ : CollectedHeap) : Prop where
  options : h₀.options = h.options
  next : h₀.next = h.next
  payload : ∀ a o, h.store a = some o → ∃ o₀, h₀.store a = some o₀ ∧ o₀.payload = o.payload

/-- The heaps after an operation on `h` and on a heap above it. -/
structure Became (h h' h₀' : CollectedHeap) : Prop where
  below : h'.Below h₀'
  wellFormed : h'.WellFormed
  keeps : ∀ a, h.Present a → h'.Present a

end CollectedHeap

namespace TwinLemmas

variable {h h₀ : CollectedHeap}

theorem holds_of_not_pointer {v : Value} (hv : v.pointer? = none) : h.Holds v :=
  fun b hb => by rw [hv] at hb; cases hb

theorem holds_pointer {a : Addr} (ha : h.Present a) : h.Holds (.pointer a) :=
  fun b hb => by cases hb; exact ha

theorem holds_stringValue {a : Addr} (ha : h.Present a) : h.Holds (.stringValue a) :=
  fun b hb => by cases hb; exact ha

theorem holds_mono {h' : CollectedHeap} (hk : ∀ a, h.Present a → h'.Present a) {v : Value}
    (hv : h.Holds v) : h'.Holds v :=
  fun b hb => hk b (hv b hb)

theorem children_present (hw : h.WellFormed) {a : Addr} {o : Object} (ho : h.store a = some o)
    {b : Addr} (hb : b ∈ o.payload.children) : h.Present b :=
  hw.closed a b ⟨o, ho, hb⟩

theorem mem_of_lookup {values : List (String × Value)} {key : String} {v : Value}
    (hl : values.lookup key = some v) : (key, v) ∈ values := by
  obtain ⟨l₁, l₂, hv, -⟩ := List.lookup_eq_some_iff.mp hl
  rw [hv]
  simp

theorem holds_field (hw : h.WellFormed) {a : Addr} {o : Object} (ho : h.store a = some o)
    {values : List (String × Value)} (hp : o.payload = .record values) {key : String} {v : Value}
    (hl : values.lookup key = some v) : h.Holds v := by
  intro b hb
  refine children_present hw ho ?_
  rw [hp]
  exact List.mem_filterMap.mpr ⟨(key, v), mem_of_lookup hl, hb⟩

theorem children_assign (hw : h.WellFormed) {a : Addr} {o : Object} (ho : h.store a = some o)
    {values : List (String × Value)} (hp : o.payload = .record values) {key : String} {v : Value}
    (hv : h.Holds v) {b : Addr} (hb : b ∈ (Payload.record (assign key v values)).children) :
    h.Present b := by
  obtain ⟨p, hp', hpb⟩ := List.mem_filterMap.mp hb
  rcases GenerationLemmas.mem_assign hp' with rfl | hmem
  · exact hv b hpb
  · refine children_present hw ho ?_
    rw [hp]
    exact List.mem_filterMap.mpr ⟨p, hmem, hpb⟩

theorem deref_agrees (hb : h.Below h₀) {a : Addr} (ha : h.Present a) :
    Agrees (fun o o₀ => h.store a = some o ∧ h₀.store a = some o₀ ∧ o₀.payload = o.payload)
      (h.deref a) (h₀.deref a) := by
  obtain ⟨o, ho⟩ := Option.isSome_iff_exists.mp ha
  obtain ⟨o₀, ho₀, hp⟩ := hb.payload a o ho
  unfold deref
  rw [ho, ho₀]
  exact .ok ⟨rfl, rfl, hp⟩

/-- Changes that do not touch the store. -/
theorem became_same {h' h₀' : CollectedHeap} (hb : h.Below h₀) (hw : h'.WellFormed)
    (hs : h'.store = h.store) (hs₀ : h₀'.store = h₀.store) (ho : h'.options = h.options)
    (ho₀ : h₀'.options = h₀.options) (hn : h'.next = h.next) (hn₀ : h₀'.next = h₀.next) :
    Became h h' h₀' := by
  refine ⟨⟨by rw [ho, ho₀, hb.options], by rw [hn, hn₀, hb.next], fun a o hao => ?_⟩, hw,
    fun a ha => ?_⟩
  · rw [hs₀]
    exact hb.payload a o (hs ▸ hao)
  · unfold Present
    rw [hs]
    exact ha

theorem became_trans {h₁ h₂ h₁' h₂' : CollectedHeap} (a : Became h h₁ h₁') (b : Became h₁ h₂ h₂') :
    Became h h₂ h₂' :=
  ⟨b.below, b.wellFormed, fun x hx => b.keeps x (a.keeps x hx)⟩

theorem allocate_became (hb : h.Below h₀) (hw : h.WellFormed) {p : Payload}
    (hp : ∀ b ∈ p.children, h.Present b) :
    (h₀.allocate p).1 = (h.allocate p).1 ∧ Became h (h.allocate p).2 (h₀.allocate p).2 ∧
      (h.allocate p).2.Present (h.allocate p).1 := by
  refine ⟨hb.next, ⟨⟨hb.options, congrArg (· + 1) hb.next, fun a o ho => ?_⟩, hw.allocate hp,
    fun a ha => (WellFormed.present_allocate h p a).mpr (.inr ha)⟩,
    (WellFormed.present_allocate h p _).mpr (.inl rfl)⟩
  rw [WellFormed.store_allocate] at ho ⊢
  rw [hb.next]
  split at ho
  · next ha =>
    cases ho
    exact ⟨_, if_pos ha, rfl⟩
  · next ha =>
    rw [if_neg ha]
    exact hb.payload a o ho

theorem setPayload_became (hb : h.Below h₀) (hw : h.WellFormed) (a : Addr) {p : Payload}
    (hp : ∀ b ∈ p.children, h.Present b) : Became h (h.setPayload a p) (h₀.setPayload a p) := by
  refine ⟨⟨hb.options, hb.next, fun b o ho => ?_⟩, hw.setPayload a hp, fun b hpb => ?_⟩
  · simp only [setPayload] at ho ⊢
    by_cases hba : b = a
    · subst hba
      rw [Function.update_self, Option.map_eq_some_iff] at ho
      obtain ⟨o', ho', rfl⟩ := ho
      obtain ⟨o₀, ho₀, -⟩ := hb.payload b o' ho'
      refine ⟨{ o₀ with payload := p }, ?_, rfl⟩
      rw [Function.update_self, ho₀]
      rfl
    · rw [Function.update_of_ne hba] at ho ⊢
      exact hb.payload b o ho
  · unfold Present at hpb ⊢
    unfold setPayload
    by_cases hba : b = a
    · subst hba
      simpa using hpb
    · simpa [Function.update_of_ne hba] using hpb

theorem increaseSize_became (hb : h.Below h₀) (hw : h.WellFormed) (n : Nat) :
    Became h (h.increaseSize n) (h₀.increaseSize n) :=
  became_same hb ⟨hw.nodup, hw.mem_listed, hw.closed, hw.marked, hw.young, hw.fresh⟩ rfl rfl rfl
    rfl rfl rfl

theorem remember_agrees (hb : h.Below h₀) (hw : h.WellFormed) {a : Addr} (slot : Slot) {v : Value}
    (ha : h.Present a) (hv : h.Holds v) :
    Agrees (Became h) (h.remember a slot v) (h₀.remember a slot v) := by
  have same : ∀ cross cross₀, Became h { h with crossGenerationPointers := cross }
      { h₀ with crossGenerationPointers := cross₀ } := fun _ _ =>
    became_same hb ⟨hw.nodup, hw.mem_listed, hw.closed, hw.marked, hw.young, hw.fresh⟩ rfl rfl rfl
      rfl rfl rfl
  have keep := same h.crossGenerationPointers h₀.crossGenerationPointers
  have hg : h₀.options.generational = h.options.generational := by rw [hb.options]
  unfold remember
  rw [hg]
  split
  · cases hp : v.pointer? with
    | none => exact .ok keep
    | some b =>
      refine (deref_agrees hb (hv b hp)).bind fun o o₀ _ => ?_
      refine (deref_agrees hb ha).bind fun p p₀ _ => ?_
      split <;> split
      · exact .ok (same _ _)
      · exact .ok (same _ h₀.crossGenerationPointers)
      · exact .ok (same h.crossGenerationPointers _)
      · exact .ok keep
  · exact .ok keep

theorem recordGet_agrees (hb : h.Below h₀) (hw : h.WellFormed) {a : Addr} (key : String)
    (ha : h.Present a) :
    Agrees (fun r r₀ => r₀.1 = r.1 ∧ Became h r.2 r₀.2 ∧ r.2.Holds r.1)
      (h.recordGet a key) (h₀.recordGet a key) := by
  unfold recordGet
  refine (deref_agrees hb ha).bind fun o o₀ ⟨ho, ho₀, hp⟩ => ?_
  rw [hp]
  cases hpay : o.payload with
  | record values =>
    cases hl : values.lookup key with
    | some v =>
      simp only [hl]
      exact .ok ⟨rfl, became_same hb hw rfl rfl rfl rfl rfl rfl, holds_field hw ho hpay hl⟩
    | none =>
      simp only [hl]
      refine .ok ⟨rfl, setPayload_became hb hw a fun b hb' => ?_, holds_of_not_pointer rfl⟩
      exact children_assign hw ho hpay (holds_of_not_pointer rfl) hb'
  | _ => exact .error nofun

theorem recordInsert_agrees (hb : h.Below h₀) (hw : h.WellFormed) {a : Addr} (key : String)
    {v : Value} (ha : h.Present a) (hv : h.Holds v) :
    Agrees (Became h) (h.recordInsert a key v) (h₀.recordInsert a key v) := by
  unfold recordInsert
  refine (deref_agrees hb ha).bind fun o o₀ ⟨ho, ho₀, hp⟩ => ?_
  rw [hp]
  cases hpay : o.payload with
  | record values =>
    have hgrow : Became h
        (if (values.lookup key).isNone then h.increaseSize (h.options.sizes.field key) else h)
        (if (values.lookup key).isNone then h₀.increaseSize (h₀.options.sizes.field key)
          else h₀) := by
      split
      · rw [hb.options]
        exact increaseSize_became hb hw _
      · exact became_same hb hw rfl rfl rfl rfl rfl rfl
    have hset := setPayload_became (p := .record (assign key v values)) hgrow.below
      hgrow.wellFormed a fun b hb' => hgrow.keeps b (children_assign hw ho hpay hv hb')
    have hboth := became_trans hgrow hset
    exact (remember_agrees hset.below hset.wellFormed (.field a key) (hboth.keeps a ha)
      (holds_mono hboth.keeps hv)).mono fun _ _ hr => became_trans hboth hr
  | _ => exact .error nofun

theorem referenceWrite_agrees (hb : h.Below h₀) (hw : h.WellFormed) {a : Addr} {v : Value}
    (ha : h.Present a) (hv : h.Holds v) :
    Agrees (Became h) (h.referenceWrite a v) (h₀.referenceWrite a v) := by
  unfold referenceWrite
  refine (deref_agrees hb ha).bind fun o o₀ ⟨ho, ho₀, hp⟩ => ?_
  rw [hp]
  cases hpay : o.payload with
  | reference _ =>
    have hset := setPayload_became (p := .reference v) hb hw a fun b hb' =>
      hv b (Option.mem_toList.mp hb')
    exact (remember_agrees hset.below hset.wellFormed (.value a) (hset.keeps a ha)
      (holds_mono hset.keeps hv)).mono fun _ _ hr => became_trans hset hr
  | _ => exact .error nofun

theorem addReference_agrees (hb : h.Below h₀) (hw : h.WellFormed) {a r : Addr}
    (ha : h.Present a) (hr : h.Present r) :
    Agrees (Became h) (h.addReference a r) (h₀.addReference a r) := by
  unfold addReference
  refine (deref_agrees hb ha).bind fun o o₀ ⟨ho, ho₀, hp⟩ => ?_
  rw [hp]
  cases hpay : o.payload with
  | closure f references =>
    have hgrow := increaseSize_became hb hw h.options.sizes.pointer
    have hset := setPayload_became (p := .closure f (references ++ [r])) hgrow.below
      hgrow.wellFormed a fun b hb' => by
        rcases List.mem_append.mp hb' with hb' | hb'
        · exact children_present hw ho (by rw [hpay]; exact hb')
        · rw [List.mem_singleton.mp hb']
          exact hr
    rw [hb.options]
    exact .ok (became_trans hgrow hset)
  | _ => exact .error nofun

end TwinLemmas

/-! ## Texts -/

open TwinLemmas

/-- An exception is the program's own doing: it is no use of a deleted object. -/
theorem raised_ne_useAfterFree {e : Exception} {message : String} :
    Stop.raised e message ≠ .useAfterFree := by
  intro h
  cases h

/-- A text is the same on both heaps. -/
theorem Value.toStringDepth_agrees {h h₀ : CollectedHeap} (hb : h.Below h₀) (hw : h.WellFormed)
    (depth : Nat) {v : Value} (hv : h.Holds v) :
    Agrees Eq (v.toStringDepth h depth) (v.toStringDepth h₀ depth) := by
  induction depth generalizing v with
  | zero => exact .error nofun
  | succ depth ih =>
    have object : ∀ a, h.Present a →
        Agrees Eq (Value.toStringDepth h (depth + 1) (.pointer a))
          (Value.toStringDepth h₀ (depth + 1) (.pointer a)) := by
      intro a ha
      simp only [toStringDepth]
      refine (deref_agrees hb ha).bind fun o o₀ ho => ?_
      obtain ⟨ho, ho₀, hp⟩ := ho
      rw [hp]
      cases hpay : o.payload with
      | string text => exact .ok rfl
      | tree left right =>
        have child : ∀ v, (v = left ∨ v = right) → h.Holds v := fun v hv b hvb => by
          refine children_present hw ho ?_
          rw [hpay]
          simp only [Payload.children, List.mem_append, Option.mem_toList]
          rcases hv with rfl | rfl
          · exact .inl hvb
          · exact .inr hvb
        refine (ih (child left (.inl rfl))).bind fun l _ hl => ?_
        subst hl
        refine (ih (child right (.inr rfl))).bind fun r _ hr => ?_
        subst hr
        exact .ok rfl
      | record values =>
        simp only [hb.options]
        refine (Agree.mapM fun key _ => ?_).bind fun fields _ hf => ?_
        · have hheld : h.Holds ((values.lookup key).getD .none) := by
            cases hl : values.lookup key with
            | none => exact holds_of_not_pointer rfl
            | some v => exact holds_field hw ho hpay hl
          refine (ih hheld).bind fun s _ hs => ?_
          subst hs
          exact .ok rfl
        · subst hf
          exact .ok rfl
      | reference _ => exact .error raised_ne_useAfterFree
      | bareFunction _ => exact .ok rfl
      | closure _ _ => exact .ok rfl
      | builtInFunction _ => exact .ok rfl
    cases v with
    | pointer a => exact object a (hv a rfl)
    | stringValue a => exact object a (hv a rfl)
    | _ => exact .ok rfl

theorem Value.toText_agrees {h h₀ : CollectedHeap} (hb : h.Below h₀) (hw : h.WellFormed)
    {v : Value} (hv : h.Holds v) : Agrees Eq (v.toText h) (v.toText h₀) := by
  unfold toText
  rw [hb.next]
  exact toStringDepth_agrees hb hw _ hv

/-! ## Worlds -/

/-- `w` differs from `w₀` at most in deleted objects that nothing in it points
to. -/
structure Twin (w w₀ : World) : Prop where
  heap : w.heap.Below w₀.heap
  wellFormed : w.heap.WellFormed
  mainClosure : w₀.mainClosure = w.mainClosure
  globals : w₀.globals = w.globals
  input : w₀.input = w.input
  output : w₀.output = w.output
  main : w.heap.Present w.mainClosure
  held : ∀ p ∈ w.globals, w.heap.Holds p.2

/-- The two worlds after an operation that began in `w`. -/
structure After (w w' w₀' : World) : Prop extends Twin w' w₀' where
  keeps : ∀ a, w.heap.Present a → w'.heap.Present a

/-- Results of an operation that began in `w`: the same value, held by the world. -/
def SameResult (w : World) (r r₀ : Value × World) : Prop :=
  r₀.1 = r.1 ∧ After w r.2 r₀.2 ∧ r.2.heap.Holds r.1

section

variable {w w₀ : World}

theorem Twin.after (h : Twin w w₀) : After w w w₀ :=
  ⟨h, fun _ ha => ha⟩

theorem After.trans {w₁ w₁' w₂ w₂' : World} (h₁ : After w w₁ w₁') (h₂ : After w₁ w₂ w₂') :
    After w w₂ w₂' :=
  ⟨h₂.toTwin, fun a ha => h₂.keeps a (h₁.keeps a ha)⟩

/-- An operation on the heaps is one on the worlds. -/
theorem Twin.became (h : Twin w w₀) {heap heap₀ : CollectedHeap} (hb : Became w.heap heap heap₀) :
    After w { w with heap := heap } { w₀ with heap := heap₀ } :=
  ⟨⟨hb.below, hb.wellFormed, h.mainClosure, h.globals, h.input, h.output, hb.keeps _ h.main,
    fun p hp => holds_mono hb.keeps (h.held p hp)⟩, hb.keeps⟩

theorem Twin.allocate (h : Twin w w₀) {p : Payload} (hp : ∀ b ∈ p.children, w.heap.Present b) :
    (w₀.allocate p).1 = (w.allocate p).1 ∧ After w (w.allocate p).2 (w₀.allocate p).2 ∧
      (w.allocate p).2.heap.Present (w.allocate p).1 := by
  obtain ⟨ha, hb, hpres⟩ := allocate_became h.heap h.wellFormed hp
  exact ⟨ha, h.became hb, hpres⟩

end

namespace TwinLemmas

variable {w w₀ : World}

theorem getPointer_agrees (h : Twin w w₀) (is : Payload → Bool) {v : Value}
    (hv : w.heap.Holds v) :
    Agrees (fun a a₀ => a₀ = a ∧ w.heap.Present a) (v.getPointer is w.heap)
      (v.getPointer is w₀.heap) := by
  unfold Value.getPointer Value.getPointerValue
  cases hp : v.pointer? with
  | none => exact .error nofun
  | some a =>
    refine (deref_agrees h.heap (hv a hp)).bind fun o o₀ ⟨_, _, hpay⟩ => ?_
    rw [hpay]
    split
    · exact .ok ⟨rfl, hv a hp⟩
    · exact .error nofun

theorem flatten_agrees (h : Twin w w₀) {v : Value} (hv : w.heap.Holds v) :
    Agrees (SameResult w) (w.flatten v) (w₀.flatten v) := by
  unfold World.flatten
  cases v with
  | pointer a =>
    refine (Value.toText_agrees h.heap h.wellFormed hv).bind fun s _ hs => ?_
    subst hs
    obtain ⟨ha, haft, hpres⟩ := h.allocate (p := .string s) nofun
    exact .ok ⟨congrArg Value.stringValue ha, haft, holds_stringValue hpres⟩
  | _ => exact .ok ⟨rfl, h.after, hv⟩

theorem add_agrees (h : Twin w w₀) {left right : Value} (hl : w.heap.Holds left)
    (hr : w.heap.Holds right) : Agrees (SameResult w) (w.add left right) (w₀.add left right) := by
  unfold World.add
  rw [h.heap.options]
  split
  · split
    · refine (flatten_agrees h hl).bind fun ⟨l, w₁⟩ ⟨l₀, w₁'⟩ ⟨hl₁, h₁, hlh⟩ => ?_
      refine (flatten_agrees h₁.toTwin (holds_mono h₁.keeps hr)).bind
        fun ⟨r, w₂⟩ ⟨r₀, w₂'⟩ ⟨hr₂, h₂, hrh⟩ => ?_
      simp only at hl₁ hr₂ h₁ h₂ hlh hrh
      subst hl₁ hr₂
      obtain ⟨ha, haft, hpres⟩ := h₂.toTwin.allocate (p := .tree l₀ r₀) fun b hb => by
        simp only [Payload.children, List.mem_append, Option.mem_toList] at hb
        rcases hb with hb | hb
        · exact h₂.keeps b (hlh b hb)
        · exact hrh b hb
      exact .ok ⟨congrArg Value.stringValue ha, h₁.trans (h₂.trans haft),
        holds_stringValue hpres⟩
    · refine (Value.toText_agrees h.heap h.wellFormed hl).bind fun l _ hl' => ?_
      subst hl'
      refine (Value.toText_agrees h.heap h.wellFormed hr).bind fun r _ hr' => ?_
      subst hr'
      obtain ⟨ha, haft, hpres⟩ := h.allocate (p := .string (l ++ r)) fun b hb => by cases hb
      exact .ok ⟨congrArg Value.stringValue ha, haft, holds_stringValue hpres⟩
  · split
    · exact .ok ⟨rfl, h.after, holds_of_not_pointer rfl⟩
    · exact .error raised_ne_useAfterFree

theorem equals_agrees (h : Twin w w₀) {left right : Value} (hl : w.heap.Holds left)
    (hr : w.heap.Holds right) :
    Agrees (fun v v₀ => v₀ = v ∧ v.pointer? = none) (w.equals left right)
      (w₀.equals left right) := by
  unfold World.equals
  split
  · refine (Value.toText_agrees h.heap h.wellFormed hl).bind fun l _ hl' => ?_
    subst hl'
    refine (Value.toText_agrees h.heap h.wellFormed hr).bind fun r _ hr' => ?_
    subst hr'
    exact .ok ⟨rfl, rfl⟩
  · exact .ok ⟨rfl, rfl⟩

theorem allocateFunction_agrees (h : Twin w w₀) {closure : Addr} {index : Int}
    (hc : 0 ≤ index → w.heap.Present closure) :
    Agrees (SameResult w) (w.allocateFunction closure index)
      (w₀.allocateFunction closure index) := by
  unfold World.allocateFunction
  cases index with
  | negSucc n =>
    dsimp only
    split
    · obtain ⟨ha, haft, hpres⟩ := h.allocate (p := .builtInFunction n) nofun
      exact .ok ⟨congrArg Value.pointer ha, haft, holds_pointer hpres⟩
    · exact .error nofun
  | ofNat n =>
    refine (deref_agrees h.heap (hc (Int.natCast_nonneg n))).bind fun o o₀ ⟨_, _, hpay⟩ => ?_
    rw [hpay]
    split
    · next f _ _ =>
      cases hg : safeIndex f.functions n with
      | error e =>
        refine .error ?_
        unfold safeIndex at hg
        split at hg
        · cases hg
        · cases hg
          exact nofun
      | ok g =>
        obtain ⟨ha, haft, hpres⟩ := h.allocate (p := .bareFunction g) nofun
        exact .ok ⟨congrArg Value.pointer ha, haft, holds_pointer hpres⟩
    · exact .error nofun

theorem addReferences_agrees {closure : Addr} (values : List Value) (h : Twin w w₀)
    (hc : w.heap.Present closure) (hv : ∀ v ∈ values, w.heap.Holds v) :
    Agrees (After w) (w.addReferences closure values) (w₀.addReferences closure values) := by
  induction values generalizing w w₀ with
  | nil => exact .ok h.after
  | cons v rest ih =>
    unfold World.addReferences
    refine (getPointer_agrees h Payload.isReference (hv v (List.mem_cons_self ..))).bind
      fun r _ ⟨hr, hpr⟩ => ?_
    subst hr
    refine (addReference_agrees h.heap h.wellFormed hc hpr).bind fun heap heap₀ hb => ?_
    have haft := h.became hb
    exact (ih haft.toTwin (haft.keeps _ hc) fun v hv' =>
      holds_mono haft.keeps (hv v (List.mem_cons_of_mem _ hv'))).mono
        fun _ _ hr => haft.trans hr

theorem allocClosure_agrees (h : Twin w w₀) {function : Value} {references : List Value}
    (hf : w.heap.Holds function) (hr : ∀ v ∈ references, w.heap.Holds v) :
    Agrees (SameResult w) (w.allocClosure function references)
      (w₀.allocClosure function references) := by
  unfold World.allocClosure
  refine (getPointer_agrees h Payload.isBareFunction hf).bind fun f _ ⟨he, hpf⟩ => ?_
  subst he
  refine (deref_agrees h.heap hpf).bind fun o o₀ ⟨_, _, hpay⟩ => ?_
  rw [hpay]
  split
  · next g _ =>
    obtain ⟨ha, haft, hpres⟩ := h.allocate (p := .closure g []) nofun
    dsimp only
    rw [ha]
    refine (addReferences_agrees references haft.toTwin hpres fun v hv =>
      holds_mono haft.keeps (hr v hv)).bind fun w₁ w₁' h₁ => ?_
    exact .ok ⟨rfl, haft.trans h₁, holds_pointer (h₁.keeps _ hpres)⟩
  · exact .error nofun

theorem getField_agrees (h : Twin w w₀) {record : Value} (key : String)
    (hr : w.heap.Holds record) :
    Agrees (SameResult w) (w.getField record key) (w₀.getField record key) := by
  unfold World.getField
  refine (getPointer_agrees h Payload.isRecord hr).bind fun a _ ⟨he, hpa⟩ => ?_
  subst he
  refine (recordGet_agrees h.heap h.wellFormed key hpa).bind
    fun ⟨v, heap⟩ ⟨v₀, heap₀⟩ ⟨hv, hb, hh⟩ => ?_
  exact .ok ⟨hv, h.became hb, hh⟩

theorem setField_agrees (h : Twin w w₀) {record v : Value} (key : String)
    (hr : w.heap.Holds record) (hv : w.heap.Holds v) :
    Agrees (SameResult w) (w.setField record key v) (w₀.setField record key v) := by
  unfold World.setField
  refine (getPointer_agrees h Payload.isRecord hr).bind fun a _ ⟨he, hpa⟩ => ?_
  subst he
  refine (recordInsert_agrees h.heap h.wellFormed key hpa hv).bind fun heap heap₀ hb => ?_
  exact .ok ⟨rfl, h.became hb, holds_of_not_pointer rfl⟩

end TwinLemmas

/-- The operands of an action point to no deleted object. The closure is looked
at only to load a function of the program. -/
def Action.Held (h : CollectedHeap) : Action → Prop
  | .loadFunc closure i => 0 ≤ i → h.Present closure
  | .loadGlobal _ | .allocRecord => True
  | .storeGlobal _ v => h.Holds v
  | .loadReference r => h.Present r
  | .storeReference r v => h.Present r ∧ h.Holds v
  | .fieldLoad record _ => h.Holds record
  | .fieldStore record _ v => h.Holds record ∧ h.Holds v
  | .indexLoad record index => h.Holds record ∧ h.Holds index
  | .indexStore record index v => h.Holds record ∧ h.Holds index ∧ h.Holds v
  | .allocClosure function references =>
    h.Holds function ∧ ∀ v ∈ references, h.Holds v
  | .add left right | .eq left right => h.Holds left ∧ h.Holds right

/-- An action does the same in both worlds. -/
theorem perform_agrees {w w₀ : World} (h : Twin w w₀) {a : Action} (ha : a.Held w.heap) :
    Agrees (SameResult w) (perform a w) (perform a w₀) := by
  cases a with
  | loadFunc closure i => exact allocateFunction_agrees h ha
  | loadGlobal name =>
    simp only [perform, h.globals]
    cases hl : w.globals.lookup name with
    | none => exact .error nofun
    | some v => exact .ok ⟨rfl, h.after, h.held _ (mem_of_lookup hl)⟩
  | storeGlobal name v =>
    refine .ok ⟨rfl, ⟨⟨h.heap, h.wellFormed, h.mainClosure, ?_, h.input, h.output, h.main,
      fun p hp => ?_⟩, fun _ hx => hx⟩, holds_of_not_pointer rfl⟩
    · simp only [h.globals]
    · rcases GenerationLemmas.mem_assign hp with rfl | hp
      · exact ha
      · exact h.held p hp
  | loadReference r =>
    refine (deref_agrees h.heap ha).bind fun o o₀ ⟨ho, _, hpay⟩ => ?_
    rw [hpay]
    cases hp : o.payload with
    | reference v =>
      refine .ok ⟨rfl, h.after, fun b hb => children_present h.wellFormed ho ?_⟩
      rw [hp]
      exact Option.mem_toList.mpr hb
    | _ => exact .error nofun
  | storeReference r v =>
    refine (referenceWrite_agrees h.heap h.wellFormed ha.1 ha.2).bind fun heap heap₀ hb => ?_
    exact .ok ⟨rfl, h.became hb, holds_of_not_pointer rfl⟩
  | allocRecord =>
    obtain ⟨hadr, haft, hpres⟩ := h.allocate (p := .record []) nofun
    exact .ok ⟨congrArg Value.pointer hadr, haft, holds_pointer hpres⟩
  | fieldLoad record name => exact getField_agrees h name ha
  | fieldStore record name v => exact setField_agrees h name ha.1 ha.2
  | indexLoad record index =>
    refine (Value.toText_agrees h.heap h.wellFormed ha.2).bind fun name _ hn => ?_
    subst hn
    exact getField_agrees h name ha.1
  | indexStore record index v =>
    refine (Value.toText_agrees h.heap h.wellFormed ha.2.1).bind fun name _ hn => ?_
    subst hn
    exact setField_agrees h name ha.1 ha.2.2
  | allocClosure function references => exact allocClosure_agrees h ha.1 ha.2
  | add left right => exact add_agrees h ha.1 ha.2
  | eq left right =>
    refine (equals_agrees h ha.1 ha.2).bind fun v _ ⟨hv, hp⟩ => ?_
    subst hv
    exact .ok ⟨rfl, h.after, holds_of_not_pointer hp⟩

end Beaverc

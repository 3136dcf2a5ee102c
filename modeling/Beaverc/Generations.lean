import Beaverc.FullCollection

/-!
# The generations of the heap

The invariant that `gcFast` rests on (`Generational`), and the heaps a program
can build (`Built`): any sequence of mutations and collections.
-/

namespace Beaverc

/-- The value slots of an object. A slot that no mutator remembers has no name. -/
def Payload.slots (a : Addr) : Payload → List (Option Slot × Value)
  | .tree left right => [(none, left), (none, right)]
  | .record values => values.map fun p => (some (.field a p.1), p.2)
  | .reference value => [(some (.value a), value)]
  | .closure _ references => references.map fun r => (none, .pointer r)
  | _ => []

/-- The payloads that the constructors of the object classes make. -/
def Payload.isInitial : Payload → Bool
  | .record values => values.isEmpty
  | .closure _ references => references.isEmpty
  | _ => true

namespace CollectedHeap

/-- What the generational collector relies on: `is_old` holds exactly of the
members of `old_objects`; each slot of an old object that points to a young one
is recorded; what is recorded is a slot; the keys of a record are distinct. -/
structure Generational (h : CollectedHeap) : Prop where
  aged : ∀ a o, h.store a = some o → (o.isOld = true ↔ a ∈ h.oldObjects)
  remembered : ∀ a o, h.store a = some o → o.isOld = true →
    ∀ slot v b, (slot, v) ∈ o.payload.slots a → v.pointer? = some b → b ∉ h.oldObjects →
      ∃ s ∈ h.crossGenerationPointers, slot = some s
  slots : ∀ s ∈ h.crossGenerationPointers, (readSlot h.store s).isSome
  keys : ∀ a o values, h.store a = some o → o.payload = .record values →
    (values.map Prod.fst).Nodup

/-- A value that points to no deleted object. -/
def Holds (h : CollectedHeap) (v : Value) : Prop :=
  ∀ b, v.pointer? = some b → h.Present b

/-- The operations of the program on its heap. A reference is added only to a
closure that is still young. -/
inductive Mutates (h : CollectedHeap) : CollectedHeap → Prop
  | allocate {p : Payload} :
      p.isInitial = true → (∀ b ∈ p.children, h.Present b) → Mutates h (h.allocate p).2
  | recordGet {a : Addr} {key : String} {v : Value} {h' : CollectedHeap} :
      h.recordGet a key = .ok (v, h') → Mutates h h'
  | recordInsert {a : Addr} {key : String} {v : Value} {h' : CollectedHeap} :
      h.Holds v → h.recordInsert a key v = .ok h' → Mutates h h'
  | referenceWrite {a : Addr} {v : Value} {h' : CollectedHeap} :
      h.Holds v → h.referenceWrite a v = .ok h' → Mutates h h'
  | addReference {a r : Addr} {h' : CollectedHeap} :
      (h.options.generational = true → a ∈ h.recentlyAllocatedObjects) → h.Present r →
      h.addReference a r = .ok h' → Mutates h h'

/-- The heaps built from an empty one with `n` collections. -/
inductive Built (options : HeapOptions) : Nat → CollectedHeap → Prop
  | empty : Built options 0 (empty options)
  | mutate {n : Nat} {h h' : CollectedHeap} : Built options n h → Mutates h h' → Built options n h'
  | gcFast {n : Nat} {h h' : CollectedHeap} {roots deleted : List Addr} :
      Built options n h → (∀ a ∈ roots, h.Present a) → h.options.generational = true →
      h.gcFast roots = .ok (h', deleted) → Built options (n + 1) h'
  | gcFull {n : Nat} {h h' : CollectedHeap} {roots deleted : List Addr} :
      Built options n h → (∀ a ∈ roots, h.Present a) →
      h.gcFull roots = .ok (h', deleted) → Built options (n + 1) h'

/-! ## Slots -/

namespace GenerationLemmas

theorem mem_children_iff (a : Addr) (p : Payload) (b : Addr) :
    b ∈ p.children ↔ ∃ slot v, (slot, v) ∈ p.slots a ∧ v.pointer? = some b := by
  cases p with
  | string _ | bareFunction _ | builtInFunction _ => simp [Payload.children, Payload.slots]
  | tree l r => simp [Payload.children, Payload.slots, or_and_right, exists_or]
  | record values =>
    simp only [Payload.children, Payload.slots, List.mem_filterMap, List.mem_map, Prod.mk.injEq]
    constructor
    · rintro ⟨p, hp, hb⟩
      exact ⟨_, _, ⟨p, hp, rfl, rfl⟩, hb⟩
    · rintro ⟨_, _, ⟨p, hp, -, rfl⟩, hb⟩
      exact ⟨p, hp, hb⟩
  | reference v => simp [Payload.children, Payload.slots]
  | closure f refs => simp [Payload.children, Payload.slots, Value.pointer?]

theorem mem_assign {key : String} {v : Value} {values : List (String × Value)}
    {p : String × Value} (h : p ∈ assign key v values) : p = (key, v) ∨ p ∈ values := by
  induction values with
  | nil => exact .inl (List.mem_singleton.mp h)
  | cons q rest ih =>
    simp only [assign] at h
    split at h
    · rcases List.mem_cons.mp h with h | h
      · exact .inl h
      · exact .inr (List.mem_cons_of_mem _ h)
    · rcases List.mem_cons.mp h with h | h
      · exact .inr (h ▸ List.mem_cons_self)
      · exact (ih h).imp id (List.mem_cons_of_mem _)

theorem nodup_assign {key : String} {v : Value} {values : List (String × Value)}
    (hn : (values.map Prod.fst).Nodup) : ((assign key v values).map Prod.fst).Nodup := by
  induction values with
  | nil => simp [assign]
  | cons q rest ih =>
    obtain ⟨hq, hn'⟩ := List.nodup_cons.mp hn
    simp only [assign]
    split
    · next he =>
      rw [List.map_cons, ← he]
      exact List.nodup_cons.mpr ⟨hq, hn'⟩
    · next he =>
      refine List.nodup_cons.mpr ⟨fun hm => ?_, ih hn'⟩
      obtain ⟨p, hp, hpq⟩ := List.mem_map.mp hm
      rcases mem_assign hp with rfl | hp
      · exact he hpq.symm
      · exact hq (hpq ▸ List.mem_map_of_mem hp)

theorem lookup_cons_ite (k : String) (p : String × Value) (values : List (String × Value)) :
    (p :: values).lookup k = if k = p.1 then some p.2 else values.lookup k := by
  obtain ⟨key, v⟩ := p
  rw [List.lookup_cons]
  by_cases hk : k = key
  · simp [hk]
  · simp [hk, beq_eq_false_iff_ne.mpr hk]

theorem lookup_assign (key : String) (v : Value) (values : List (String × Value)) (k : String) :
    (assign key v values).lookup k = if k = key then some v else values.lookup k := by
  induction values with
  | nil => simp only [assign, lookup_cons_ite]
  | cons q rest ih =>
    simp only [assign]
    split
    · next he =>
      simp only [lookup_cons_ite, he]
      split <;> rfl
    · next he =>
      simp only [lookup_cons_ite, ih]
      by_cases hk : k = key
      · have hq : key ≠ q.1 := fun h => he h.symm
        simp only [hk, hq, if_true, if_false]
      · simp only [hk, if_false]

theorem lookup_of_mem {values : List (String × Value)} (hn : (values.map Prod.fst).Nodup)
    {p : String × Value} (hp : p ∈ values) : values.lookup p.1 = some p.2 := by
  induction values with
  | nil => exact absurd hp List.not_mem_nil
  | cons q rest ih =>
    obtain ⟨hq, hn'⟩ := List.nodup_cons.mp hn
    rw [lookup_cons_ite]
    rcases List.mem_cons.mp hp with rfl | hp
    · rw [if_pos rfl]
    · have hne : p.1 ≠ q.1 := fun he => hq (he ▸ List.mem_map_of_mem hp)
      rw [if_neg hne]
      exact ih hn' hp

theorem readSlot_of_store {st : Store} {s : Slot} {o : Object} (ho : st s.owner = some o) :
    readSlot st s = o.payload.read s := by
  simp [readSlot, payloadAt, ho]

theorem readSlot_setPayload {h : CollectedHeap} {a : Addr} {p : Payload} {o : Object}
    (ho : h.store a = some o) {s : Slot}
    (hs : s.owner = a → (o.payload.read s).isSome → (p.read s).isSome)
    (hr : (readSlot h.store s).isSome) : (readSlot (h.setPayload a p).store s).isSome := by
  by_cases ha : s.owner = a
  · subst ha
    rw [readSlot_of_store ho] at hr
    have ho' : (h.setPayload s.owner p).store s.owner = some { o with payload := p } := by
      simp [setPayload, ho]
    rw [readSlot_of_store ho']
    exact hs rfl hr
  · simpa [readSlot, payloadAt, setPayload, Function.update_of_ne ha] using hr

end GenerationLemmas

open GenerationLemmas

/-! ## The mutators keep the invariant -/

/-- Replacing the payload of one object, with more slots recorded. -/
theorem Generational.update {h : CollectedHeap} (hgn : h.Generational) {a : Addr} {o : Object}
    {p : Payload} {cross : List Slot} (ho : h.store a = some o)
    (hsub : ∀ s ∈ h.crossGenerationPointers, s ∈ cross)
    (hrem : o.isOld = true → ∀ slot v b, (slot, v) ∈ p.slots a → v.pointer? = some b →
      b ∉ h.oldObjects → ∃ s ∈ cross, slot = some s)
    (hread : ∀ s ∈ cross, (readSlot (h.setPayload a p).store s).isSome)
    (hkeys : ∀ values, p = .record values → (values.map Prod.fst).Nodup) :
    { h.setPayload a p with crossGenerationPointers := cross }.Generational := by
  have object : ∀ b o', (h.setPayload a p).store b = some o' →
      (b = a ∧ o' = { o with payload := p }) ∨ h.store b = some o' := by
    intro b o' ho'
    by_cases hb : b = a
    · subst hb
      simp only [setPayload, Function.update_self, ho, Option.map_some, Option.some.injEq] at ho'
      exact .inl ⟨rfl, ho'.symm⟩
    · simp only [setPayload, Function.update_of_ne hb] at ho'
      exact .inr ho'
  refine ⟨fun b o' ho' => ?_, fun b o' ho' hold slot v c hm hv hy => ?_, hread,
    fun b o' values ho' hp => ?_⟩
  · rcases object b o' ho' with ⟨rfl, rfl⟩ | ho'
    · exact hgn.aged b o ho
    · exact hgn.aged b o' ho'
  · rcases object b o' ho' with ⟨rfl, rfl⟩ | ho'
    · exact hrem hold slot v c hm hv hy
    · obtain ⟨s, hs, he⟩ := hgn.remembered b o' ho' hold slot v c hm hv hy
      exact ⟨s, hsub s hs, he⟩
  · rcases object b o' ho' with ⟨rfl, rfl⟩ | ho'
    · exact hkeys values hp
    · exact hgn.keys b o' values ho' hp

namespace GenerationLemmas

/-- What `remember` adds to the recorded slots. -/
theorem remember_cases {h h' : CollectedHeap} {owner : Addr} {slot : Slot} {v : Value}
    (he : h.remember owner slot v = .ok h') :
    ∃ cross, h' = { h with crossGenerationPointers := cross } ∧
      (∀ s ∈ h.crossGenerationPointers, s ∈ cross) ∧
      (∀ s ∈ cross, s ∈ h.crossGenerationPointers ∨ s = slot) ∧
      (h.options.generational = true → ∀ o b target, h.store owner = some o → o.isOld = true →
        v.pointer? = some b → h.store b = some target → target.isOld = false → slot ∈ cross) := by
  -- nothing is remembered where the pointer does not lead from old to young
  have same (hh : h' = h) (hn : h.options.generational = true → ∀ o b target,
      h.store owner = some o → o.isOld = true → v.pointer? = some b → h.store b = some target →
      target.isOld = false → False) : ∃ cross, h' = { h with crossGenerationPointers := cross } ∧
      (∀ s ∈ h.crossGenerationPointers, s ∈ cross) ∧
      (∀ s ∈ cross, s ∈ h.crossGenerationPointers ∨ s = slot) ∧
      (h.options.generational = true → ∀ o b target, h.store owner = some o → o.isOld = true →
        v.pointer? = some b → h.store b = some target → target.isOld = false → slot ∈ cross) :=
    ⟨h.crossGenerationPointers, hh, fun _ h => h, fun _ h => .inl h,
      fun hg o b t ho hi hv ht hy => (hn hg o b t ho hi hv ht hy).elim⟩
  unfold remember at he
  split at he
  · split at he
    · next hv =>
      cases he
      exact same rfl fun _ _ _ _ _ _ hv' _ _ => by rw [hv] at hv'; exact absurd hv' (by simp)
    · next b hv =>
      rcases Option.eq_none_or_eq_some (h.store b) with ht | ⟨target, ht⟩
      · simp [deref, ht, bind, Except.bind] at he
      · rcases Option.eq_none_or_eq_some (h.store owner) with ho | ⟨o, ho⟩
        · simp [deref, ht, ho, bind, Except.bind] at he
        · simp only [deref, ht, ho, bind, Except.bind] at he
          split at he
          · cases he
            exact ⟨_, rfl, fun s hs => List.mem_append_left _ hs,
              fun s hs => (List.mem_append.mp hs).imp id List.mem_singleton.mp,
              fun _ _ _ _ _ _ _ _ _ => List.mem_append_right _ (List.mem_singleton.mpr rfl)⟩
          · next hc =>
            cases he
            refine same rfl fun _ o' b' t' ho' hi hv' ht' hy => hc ?_
            cases hv.symm.trans hv'
            cases ht.symm.trans ht'
            cases ho.symm.trans ho'
            simp [hi, hy]
  · next hg =>
    cases he
    exact same rfl fun hg' => absurd hg' hg

end GenerationLemmas

/-- Storing `v` into slot `slot` of object `a`, whose other slots stay. -/
theorem Generational.write {h h' : CollectedHeap} (hg : h.options.generational = true)
    (hgn : h.Generational) {a : Addr} {o : Object} {p : Payload} {slot : Slot} {v : Value}
    (ho : h.store a = some o) (he : (h.setPayload a p).remember a slot v = .ok h')
    (hv : h.Holds v)
    (hslots : ∀ s w, (s, w) ∈ p.slots a → (s = some slot ∧ w = v) ∨ (s, w) ∈ o.payload.slots a)
    (hread : ∀ s, s = slot ∨ s ∈ h.crossGenerationPointers →
      (readSlot (h.setPayload a p).store s).isSome)
    (hkeys : ∀ values, p = .record values → (values.map Prod.fst).Nodup) : h'.Generational := by
  obtain ⟨cross, rfl, hsub, hsup, hnew⟩ := remember_cases he
  refine hgn.update ho hsub (fun hold s w b hm hb hy => ?_) (fun s hs => ?_) hkeys
  · rcases hslots s w hm with ⟨rfl, rfl⟩ | hm
    · obtain ⟨target, ht⟩ := Option.isSome_iff_exists.mp (hv b hb)
      have hyoung : target.isOld = false := by
        cases hi : target.isOld with
        | false => rfl
        | true => exact absurd ((hgn.aged b target ht).mp hi) hy
      by_cases hba : b = a
      · subst hba
        cases ho.symm.trans ht
        rw [hold] at hyoung
        exact Bool.noConfusion hyoung
      · refine ⟨slot, hnew hg { o with payload := p } b target ?_ hold hb ?_ hyoung, rfl⟩
        · simp [setPayload, ho]
        · simp [setPayload, Function.update_of_ne hba, ht]
    · obtain ⟨s', hs', he⟩ := hgn.remembered a o ho hold s w b hm hb hy
      exact ⟨s', hsub s' hs', he⟩
  · exact hread s (hsup s hs).symm

theorem Generational.allocate {h : CollectedHeap} (hw : h.WellFormed)
    (hg : h.options.generational = true) (hgn : h.Generational) {p : Payload}
    (hp : p.isInitial = true) : (h.allocate p).2.Generational := by
  have hold : (h.allocate p).2.oldObjects = h.oldObjects := by
    simp only [CollectedHeap.allocate, registerAllocation, increaseSize, hg, if_true]
  have hcross : (h.allocate p).2.crossGenerationPointers = h.crossGenerationPointers := rfl
  have hnext : ∀ a, h.Present a → a ≠ h.next := fun a ha he => Nat.lt_irrefl _ (he ▸ hw.fresh a ha)
  refine ⟨fun a o ho => ?_, fun a o ho hi slot v b hm hv hy => ?_, fun s hs => ?_,
    fun a o values ho hpl => ?_⟩
  · rw [WellFormed.store_allocate] at ho
    rw [hold]
    split at ho
    · next he =>
      cases ho
      have hn : a ∉ h.oldObjects := fun hm =>
        hnext a ((hw.mem_listed a).mp (List.mem_append_right _ hm)) he
      simp [hn]
    · exact hgn.aged a o ho
  · rw [WellFormed.store_allocate] at ho
    rw [hold] at hy
    split at ho
    · cases ho
      exact Bool.noConfusion hi
    · exact hgn.remembered a o ho hi slot v b hm hv hy
  · have hr := hgn.slots s hs
    have hpres : h.Present s.owner := by
      unfold Present
      cases ho : h.store s.owner with
      | none => simp [readSlot, payloadAt, ho] at hr
      | some o => rfl
    simpa only [readSlot, payloadAt, WellFormed.store_allocate, if_neg (hnext _ hpres)] using hr
  · rw [WellFormed.store_allocate] at ho
    split at ho
    · cases ho
      subst hpl
      simp [List.isEmpty_iff.mp hp]
    · exact hgn.keys a o values ho hpl

/-- The invariant of all heaps a program builds. -/
structure Sound (h : CollectedHeap) : Prop where
  wellFormed : h.WellFormed
  generational : h.options.generational = true → h.Generational

namespace GenerationLemmas

theorem wellFormed_remember {h h' : CollectedHeap} (hw : h.WellFormed) {a : Addr} {slot : Slot}
    {v : Value} (he : h.remember a slot v = .ok h') :
    h'.WellFormed ∧ h'.options = h.options ∧ h'.generation = h.generation := by
  obtain ⟨cross, rfl, -⟩ := remember_cases he
  exact ⟨⟨hw.nodup, hw.mem_listed, hw.closed, hw.marked, hw.young, hw.fresh⟩, rfl, rfl⟩

theorem sound_increaseSize {h : CollectedHeap} (hs : h.Sound) (n : Nat) :
    (h.increaseSize n).Sound :=
  ⟨⟨hs.1.nodup, hs.1.mem_listed, hs.1.closed, hs.1.marked, hs.1.young, hs.1.fresh⟩,
    fun hg => ⟨(hs.2 hg).aged, (hs.2 hg).remembered, (hs.2 hg).slots, (hs.2 hg).keys⟩⟩

/-- The store at the end of `RecordValue::insert`. -/
theorem sound_field {h h' : CollectedHeap} (hs : h.Sound) {a : Addr} {o : Object} {key : String}
    {v : Value} {values : List (String × Value)} (ho : h.store a = some o)
    (hp : o.payload = .record values) (hv : h.Holds v)
    (he : (h.setPayload a (.record (assign key v values))).remember a (.field a key) v = .ok h') :
    h'.Sound ∧ h'.options = h.options ∧ h'.generation = h.generation := by
  have hchildren : ∀ b ∈ (Payload.record (assign key v values)).children, h.Present b := by
    intro b hb
    obtain ⟨p, hpm, hpb⟩ := List.mem_filterMap.mp hb
    rcases mem_assign hpm with rfl | hpm
    · exact hv b hpb
    · refine hs.wellFormed.closed a b ⟨o, ho, ?_⟩
      rw [hp]
      exact List.mem_filterMap.mpr ⟨p, hpm, hpb⟩
  obtain ⟨hw', ho', hg'⟩ := wellFormed_remember (hs.wellFormed.setPayload a hchildren) he
  refine ⟨⟨hw', fun hg => ?_⟩, ho', hg'⟩
  have hgen : h.options.generational = true := by rw [ho'] at hg; exact hg
  have hgn := hs.generational hgen
  refine hgn.write hgen ho he hv (fun s w hm => ?_) (fun s hsl => ?_) (fun ws hws => ?_)
  · obtain ⟨p, hpm, hpe⟩ := List.mem_map.mp hm
    cases hpe
    rcases mem_assign hpm with rfl | hpm
    · exact .inl ⟨rfl, rfl⟩
    · right
      rw [hp]
      exact List.mem_map.mpr ⟨p, hpm, rfl⟩
  · rcases hsl with rfl | hsl
    · simp [readSlot, payloadAt, setPayload, Slot.owner, ho, Payload.read, lookup_assign]
    · refine readSlot_setPayload ho (fun _ hr => ?_) (hgn.slots s hsl)
      rw [hp] at hr
      cases s with
      | field b k =>
        simp only [Payload.read, lookup_assign]
        split
        · rfl
        · exact hr
      | value b => exact absurd hr (by simp [Payload.read])
  · cases hws
    exact nodup_assign (hgn.keys a o values ho hp)

/-- The store at the end of `ReferenceValue::write`. -/
theorem sound_reference {h h' : CollectedHeap} (hs : h.Sound) {a : Addr} {o : Object}
    {v w : Value} (ho : h.store a = some o) (hp : o.payload = .reference w) (hv : h.Holds v)
    (he : (h.setPayload a (.reference v)).remember a (.value a) v = .ok h') :
    h'.Sound ∧ h'.options = h.options ∧ h'.generation = h.generation := by
  have hchildren : ∀ b ∈ (Payload.reference v).children, h.Present b := fun b hb =>
    hv b (by simpa [Payload.children] using hb)
  obtain ⟨hw', ho', hg'⟩ := wellFormed_remember (hs.wellFormed.setPayload a hchildren) he
  refine ⟨⟨hw', fun hg => ?_⟩, ho', hg'⟩
  have hgen : h.options.generational = true := by rw [ho'] at hg; exact hg
  have hgn := hs.generational hgen
  refine hgn.write hgen ho he hv (fun s x hm => .inl ?_) (fun s hsl => ?_) (fun ws hws => ?_)
  · simpa [Payload.slots] using hm
  · rcases hsl with rfl | hsl
    · simp [readSlot, payloadAt, setPayload, Slot.owner, ho, Payload.read]
    · refine readSlot_setPayload ho (fun _ hr => ?_) (hgn.slots s hsl)
      rw [hp] at hr
      cases s with
      | field b k => exact absurd hr (by simp [Payload.read])
      | value b => rfl
  · exact absurd hws (by simp)

/-- The store at the end of `ClosureFunctionValue::add_reference`. -/
theorem sound_closure {h : CollectedHeap} (hs : h.Sound) {a r : Addr} {o : Object}
    {f : Function} {refs : List Addr} (ho : h.store a = some o) (hp : o.payload = .closure f refs)
    (hr : h.Present r) (hy : h.options.generational = true → a ∈ h.recentlyAllocatedObjects) :
    (h.setPayload a (.closure f (refs ++ [r]))).Sound ∧
      (h.setPayload a (.closure f (refs ++ [r]))).options = h.options ∧
      (h.setPayload a (.closure f (refs ++ [r]))).generation = h.generation := by
  refine ⟨⟨hs.wellFormed.setPayload a fun b hb => ?_, fun hg => ?_⟩, rfl, rfl⟩
  · rcases List.mem_append.mp hb with hb | hb
    · exact hs.wellFormed.closed a b ⟨o, ho, by rw [hp]; exact hb⟩
    · rw [List.mem_singleton.mp hb]
      exact hr
  · have hgn := hs.generational hg
    have hyoung : o.isOld ≠ true := fun hi =>
      (List.nodup_append.mp hs.wellFormed.nodup).2.2 a (hy hg) a ((hgn.aged a o ho).mp hi) rfl
    refine hgn.update ho (fun _ h => h) (fun hi => absurd hi hyoung) (fun s hsl => ?_)
      (fun ws hws => absurd hws (by simp))
    refine readSlot_setPayload ho (fun _ hr => ?_) (hgn.slots s hsl)
    rw [hp] at hr
    exact absurd hr (by cases s <;> simp [Payload.read])

end GenerationLemmas

/-- Every mutation keeps the invariant. -/
theorem Mutates.sound {h h' : CollectedHeap} (hs : h.Sound) (hm : Mutates h h') :
    h'.Sound ∧ h'.options = h.options ∧ h'.generation = h.generation := by
  cases hm with
  | allocate hp hc =>
    exact ⟨⟨hs.wellFormed.allocate hc, fun hg => (hs.generational hg).allocate hs.wellFormed hg hp⟩,
      rfl, rfl⟩
  | @recordGet a key v _ he =>
    rcases Option.eq_none_or_eq_some (h.store a) with ho | ⟨o, ho⟩
    · simp [CollectedHeap.recordGet, deref, ho, bind, Except.bind] at he
    · simp only [CollectedHeap.recordGet, deref, ho, bind, Except.bind] at he
      split at he
      · next values hp =>
        split at he
        · cases he
          exact ⟨hs, rfl, rfl⟩
        · cases he
          have hnone : h.Holds .none := fun b hb => absurd hb (by simp [Value.pointer?])
          have he : (h.setPayload a (.record (assign key .none values))).remember a (.field a key)
              .none = .ok (h.setPayload a (.record (assign key .none values))) := by
            simp [remember, Value.pointer?]
          exact sound_field hs ho hp hnone he
      · exact absurd he (by simp)
  | @recordInsert a key v _ hv he =>
    rcases Option.eq_none_or_eq_some (h.store a) with ho | ⟨o, ho⟩
    · simp [CollectedHeap.recordInsert, deref, ho, bind, Except.bind] at he
    · simp only [CollectedHeap.recordInsert, deref, ho, bind, Except.bind] at he
      split at he
      · next values hp =>
        split at he
        · have hf := sound_field (sound_increaseSize hs _) ho hp hv he
          exact hf
        · exact sound_field hs ho hp hv he
      · exact absurd he (by simp)
  | @referenceWrite a v _ hv he =>
    rcases Option.eq_none_or_eq_some (h.store a) with ho | ⟨o, ho⟩
    · simp [CollectedHeap.referenceWrite, deref, ho, bind, Except.bind] at he
    · simp only [CollectedHeap.referenceWrite, deref, ho, bind, Except.bind] at he
      split at he
      · next w hp => exact sound_reference hs ho hp hv he
      · exact absurd he (by simp)
  | @addReference a r _ hy hr he =>
    rcases Option.eq_none_or_eq_some (h.store a) with ho | ⟨o, ho⟩
    · simp [CollectedHeap.addReference, deref, ho, bind, Except.bind] at he
    · simp only [CollectedHeap.addReference, deref, ho, bind, Except.bind] at he
      split at he
      · next f refs hp =>
        cases he
        have hf := sound_closure (sound_increaseSize hs h.options.sizes.pointer) ho hp hr hy
        exact hf
      · exact absurd he (by simp)

end CollectedHeap

end Beaverc

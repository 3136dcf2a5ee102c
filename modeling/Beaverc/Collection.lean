import Beaverc.WellFormed
import Beaverc.Base.DepthFirst

/-!
# What a collection does

The mark phase is a depth-first search (`Base/DepthFirst`), the sweep splits a
list. `gcFull_eq` and `gcFast_eq` put the two together: on a well-formed heap a
collection returns, and what it deletes is decided by the marks of the search.
-/

namespace Beaverc
open DepthFirst

/-! ## The mark phase as a search -/

/-- The store with the objects in `marks` stamped. -/
def restamp (stamp : UInt32) (marks : Addr → Bool) (st : Store) : Store :=
  fun a => (st a).map fun o => if marks a then { o with marked := stamp } else o

def stamped (stamp : UInt32) (st : Store) (a : Addr) : Bool :=
  (st a).any fun o => o.marked = stamp

def successors (st : Store) (a : Addr) : Option (List Addr) :=
  (st a).map fun o => o.payload.children

def isBlocked (markRecentOnly : Bool) (st : Store) (a : Addr) : Bool :=
  markRecentOnly && (st a).any fun o => o.isOld

namespace CollectionLemmas

variable {stamp : UInt32} {markRecentOnly : Bool} {st : Store}

theorem restamp_stamped : restamp stamp (stamped stamp st) st = st := by
  funext a
  unfold restamp stamped
  cases st a with
  | none => rfl
  | some o =>
    simp only [Option.map_some, Option.any_some, decide_eq_true_eq]
    split
    · next h => rw [← h]
    · rfl

theorem restamp_update {marks : Addr → Bool} {a : Addr} {o o' : Object} (ho : st a = some o)
    (ho' : restamp stamp marks st a = some o') :
    Function.update (restamp stamp marks st) a (some { o' with marked := stamp }) =
      restamp stamp (Function.update marks a true) st := by
  funext b
  by_cases hb : b = a
  · subst hb
    simp only [restamp, ho, Option.map_some, Option.some.injEq] at ho'
    subst ho'
    simp only [Function.update_self, restamp, ho, Option.map_some, if_true]
    split <;> rfl
  · rw [Function.update_of_ne hb]
    simp only [restamp, Function.update_of_ne hb]

/-- Folding a step that acts on the store as `v` acts on the marks. -/
theorem foldlM_restamp {α : Type} {f : Store → α → Except Stop Store}
    {v : (Addr → Bool) → α → Option (Addr → Bool)}
    (hf : ∀ m m' c, (∀ b, stamped stamp st b = true → m b = true) → v m c = some m' →
      f (restamp stamp m st) c = .ok (restamp stamp m' st) ∧ ∀ b, m b = true → m' b = true)
    (cs : List α) {m m' : Addr → Bool} (hs : ∀ b, stamped stamp st b = true → m b = true)
    (hm : cs.foldlM v m = some m') :
    cs.foldlM f (restamp stamp m st) = .ok (restamp stamp m' st) ∧
      ∀ b, m b = true → m' b = true := by
  induction cs generalizing m with
  | nil =>
    cases hm
    exact ⟨rfl, fun _ h => h⟩
  | cons c cs ih =>
    rw [List.foldlM_cons] at hm ⊢
    cases hv : v m c with
    | none => rw [hv] at hm; exact absurd hm (by simp)
    | some m₁ =>
      rw [hv] at hm
      obtain ⟨he, hg⟩ := hf m m₁ c hs hv
      obtain ⟨he', hg'⟩ := ih (fun b hb => hg b (hs b hb)) hm
      exact ⟨by rw [he]; exact he', fun b hb => hg' b (hg b hb)⟩

/-- The test at the start of `mark`, on a restamped store. -/
theorem mark_step {depth : Nat} {marks : Addr → Bool} {a : Addr} {o : Object}
    (hs : ∀ b, stamped stamp st b = true → marks b = true) (ho : st a = some o) :
    mark stamp markRecentOnly (depth + 1) (restamp stamp marks st) a =
      if (marks a || isBlocked markRecentOnly st a) = true then .ok (restamp stamp marks st)
      else o.payload.children.foldlM (mark stamp markRecentOnly depth)
        (restamp stamp (Function.update marks a true) st) := by
  have hr : restamp stamp marks st a =
      some (if marks a then { o with marked := stamp } else o) := by simp [restamp, ho]
  have htest : (decide ((if marks a then { o with marked := stamp } else o).marked = stamp) ||
      markRecentOnly && (if marks a then { o with marked := stamp } else o).isOld) =
      (marks a || isBlocked markRecentOnly st a) := by
    cases hm : marks a with
    | true => simp
    | false =>
      have hne : o.marked ≠ stamp := fun he => by
        have h := hs a (by simp [stamped, ho, he])
        rw [hm] at h
        exact Bool.noConfusion h
      simp [hne, isBlocked, ho]
  rw [← restamp_update ho hr, ← htest]
  simp only [mark, hr, Bool.or_eq_true, decide_eq_true_eq]
  split <;> rfl

/-- `mark` does to the store what a visit does to the set of stamped objects. -/
theorem mark_visit {depth : Nat} {marks marks' : Addr → Bool} {a : Addr}
    (hs : ∀ b, stamped stamp st b = true → marks b = true)
    (h : visit (successors st) (isBlocked markRecentOnly st) depth a marks = some marks') :
    mark stamp markRecentOnly depth (restamp stamp marks st) a = .ok (restamp stamp marks' st) ∧
      ∀ b, marks b = true → marks' b = true := by
  induction depth generalizing marks marks' a with
  | zero => simp [visit] at h
  | succ depth ih =>
    cases ho : st a with
    | none => simp [visit, successors, ho] at h
    | some o =>
      simp only [visit, successors, ho, Option.map_some] at h
      rw [mark_step hs ho]
      split at h
      · next ht =>
        cases h
        rw [if_pos ht]
        exact ⟨rfl, fun _ h => h⟩
      · next ht =>
        rw [if_neg ht]
        have up : ∀ b, marks b = true → Function.update marks a true b = true := fun b hb => by
          by_cases hba : b = a
          · rw [hba, Function.update_self]
          · rw [Function.update_of_ne hba, hb]
        obtain ⟨he, hg⟩ := foldlM_restamp (fun m m' c hm hv => ih hm hv) o.payload.children
          (fun b hb => up b (hs b hb)) h
        exact ⟨he, fun b hb => hg b (up b hb)⟩

theorem readSlot_restamp (marks : Addr → Bool) (slot : Slot) :
    readSlot (restamp stamp marks st) slot = readSlot st slot := by
  have payload : ∀ a, (restamp stamp marks st a).map (·.payload) = (st a).map (·.payload) := by
    intro a
    unfold restamp
    cases st a with
    | none => rfl
    | some o => cases marks a <;> rfl
  simp only [readSlot, payloadAt, payload]

/-- The objects the remembered slots point to, in order. -/
def slotTargets (st : Store) (slots : List Slot) : List Addr :=
  slots.filterMap fun slot => (readSlot st slot).bind Value.pointer?

theorem markSlots_visit {depth : Nat} {marks marks' : Addr → Bool} (slots : List Slot)
    (hr : ∀ slot ∈ slots, (readSlot st slot).isSome)
    (hs : ∀ b, stamped stamp st b = true → marks b = true)
    (h : visitAll (successors st) (isBlocked true st) depth (slotTargets st slots) marks =
      some marks') :
    slots.foldlM (markSlot stamp depth) (restamp stamp marks st) =
      .ok (restamp stamp marks' st) := by
  induction slots generalizing marks with
  | nil =>
    cases h
    rfl
  | cons slot slots ih =>
    have hr' : ∀ slot ∈ slots, (readSlot st slot).isSome := fun s hs => hr s (by simp [hs])
    obtain ⟨v, hv⟩ := Option.isSome_iff_exists.mp (hr slot List.mem_cons_self)
    rw [List.foldlM_cons]
    cases hp : v.pointer? with
    | none =>
      have hstep : markSlot stamp depth (restamp stamp marks st) slot =
          .ok (restamp stamp marks st) := by
        simp only [markSlot, readSlot_restamp, hv, hp]
      have ht : slotTargets st (slot :: slots) = slotTargets st slots := by
        simp [slotTargets, hv, hp]
      rw [ht] at h
      rw [hstep]
      exact ih hr' hs h
    | some a =>
      have ht : slotTargets st (slot :: slots) = a :: slotTargets st slots := by
        simp [slotTargets, hv, hp]
      rw [ht, visitAll, List.foldlM_cons] at h
      cases hva : visit (successors st) (isBlocked true st) depth a marks with
      | none => rw [hva] at h; exact absurd h (by simp)
      | some m₁ =>
        rw [hva] at h
        obtain ⟨he, hg⟩ := mark_visit hs hva
        have hstep : markSlot stamp depth (restamp stamp marks st) slot =
            .ok (restamp stamp m₁ st) := by
          simp only [markSlot, readSlot_restamp, hv, hp, he]
        rw [hstep]
        exact ih hr' (fun b hb => hg b (hs b hb)) h

theorem visitAll_restamp {depth : Nat} {roots : List Addr} {marks marks' : Addr → Bool}
    (hs : ∀ b, stamped stamp st b = true → marks b = true)
    (h : visitAll (successors st) (isBlocked markRecentOnly st) depth roots marks = some marks') :
    roots.foldlM (mark stamp markRecentOnly depth) (restamp stamp marks st) =
      .ok (restamp stamp marks' st) :=
  (foldlM_restamp (fun _ _ _ hm hv => mark_visit hm hv) roots hs h).1

end CollectionLemmas

open CollectionLemmas

/-! ## The sweep -/

namespace CollectedHeap

def survives (h : CollectedHeap) (a : Addr) : Bool :=
  (h.store a).any fun o => o.marked.toUInt64 = h.generation

/-- The store after a sweep over `swept`. -/
def sweptStore (h : CollectedHeap) (swept : List Addr) : Store := fun a =>
  if a ∈ swept then
    if h.survives a then (h.store a).map fun o => { o with isOld := true } else none
  else h.store a

/-- The heaps agree but for the objects and the byte count. -/
structure SameLists (h h' : CollectedHeap) : Prop where
  options : h'.options = h.options
  next : h'.next = h.next
  recentlyAllocatedObjects : h'.recentlyAllocatedObjects = h.recentlyAllocatedObjects
  oldObjects : h'.oldObjects = h.oldObjects
  generation : h'.generation = h.generation
  crossGenerationPointers : h'.crossGenerationPointers = h.crossGenerationPointers

theorem sweep_eq (overhead : Nat) (swept : List Addr) (h : CollectedHeap) (hn : swept.Nodup)
    (hp : ∀ a ∈ swept, h.Present a) :
    ∃ h', h.sweep overhead swept =
        .ok (h', swept.filter h.survives, swept.filter fun a => !h.survives a) ∧
      h'.store = h.sweptStore swept ∧ SameLists h h' := by
  induction swept generalizing h with
  | nil => exact ⟨h, rfl, by funext a; simp [sweptStore], ⟨rfl, rfl, rfl, rfl, rfl, rfl⟩⟩
  | cons a rest ih =>
    obtain ⟨ha, hn'⟩ := List.nodup_cons.mp hn
    obtain ⟨o, ho⟩ := Option.isSome_iff_exists.mp (hp a List.mem_cons_self)
    have hd : h.deref a = .ok o := by simp [deref, ho]
    -- the heap after `a` has been treated differs from `h` at `a` only
    have next : ∀ h₁ : CollectedHeap, SameLists h h₁ → (∀ b, b ≠ a → h₁.store b = h.store b) →
        ∃ h', h₁.sweep overhead rest =
            .ok (h', rest.filter h.survives, rest.filter fun b => !h.survives b) ∧
          (∀ b, b ≠ a → h'.store b = h.sweptStore (a :: rest) b) ∧
          h'.store a = h₁.store a ∧ SameLists h h' := by
      intro h₁ hsame hst
      have hsv : ∀ b, b ≠ a → h₁.survives b = h.survives b := fun b hb => by
        simp only [survives, hst b hb, hsame.generation]
      have hne : ∀ b ∈ rest, b ≠ a := fun b hb he => ha (he ▸ hb)
      obtain ⟨h', he, hs', hl⟩ := ih h₁ hn' (fun b hb => by
        unfold Present
        rw [hst b (hne b hb)]
        exact hp b (List.mem_cons_of_mem _ hb))
      refine ⟨h', ?_, fun b hb => ?_, ?_, ?_⟩
      · have hkept : rest.filter h₁.survives = rest.filter h.survives :=
          List.filter_congr fun b hb => hsv b (hne b hb)
        have hdel : (rest.filter fun b => !h₁.survives b) = rest.filter fun b => !h.survives b :=
          List.filter_congr fun b hb => by rw [hsv b (hne b hb)]
        rw [he, hkept, hdel]
      · rw [hs']
        simp only [sweptStore, List.mem_cons, hb, false_or, hst b hb, hsv b hb]
      · rw [hs']
        simp only [sweptStore, ha, if_false]
      · exact ⟨hl.options.trans hsame.options, hl.next.trans hsame.next,
          hl.recentlyAllocatedObjects.trans hsame.recentlyAllocatedObjects,
          hl.oldObjects.trans hsame.oldObjects, hl.generation.trans hsame.generation,
          hl.crossGenerationPointers.trans hsame.crossGenerationPointers⟩
    have hsa : h.survives a = decide (o.marked.toUInt64 = h.generation) := by simp [survives, ho]
    by_cases hm : o.marked.toUInt64 = h.generation
    · obtain ⟨h', he, hs', ha', hl⟩ := next
        { h with store := Function.update h.store a (some { o with isOld := true }) }
        ⟨rfl, rfl, rfl, rfl, rfl, rfl⟩ (fun b hb => Function.update_of_ne hb ..)
      have hsv : h.survives a = true := by rw [hsa]; simp [hm]
      refine ⟨h', ?_, ?_, hl⟩
      · simp only [sweep, hd, bind, Except.bind, hm, ne_eq, not_true, if_false, he]
        simp [hsv]
      · funext b
        by_cases hb : b = a
        · subst hb
          rw [ha']
          simp [sweptStore, hsv, ho]
        · exact hs' b hb
    · obtain ⟨h', he, hs', ha', hl⟩ := next ((h.delete a o).decreaseSize overhead)
        ⟨rfl, rfl, rfl, rfl, rfl, rfl⟩ (fun b hb => Function.update_of_ne hb ..)
      have hsv : h.survives a = false := by rw [hsa]; simp [hm]
      refine ⟨h', ?_, ?_, hl⟩
      · simp only [sweep, hd, bind, Except.bind, hm, ne_eq, not_false_eq_true, if_true, he]
        simp [hsv]
      · funext b
        by_cases hb : b = a
        · subst hb
          rw [ha']
          simp [sweptStore, hsv, delete, decreaseSize]
        · exact hs' b hb

/-! ## A whole collection -/

/-- The heap between the two phases of a collection. -/
def markedHeap (h : CollectedHeap) (marks : Addr → Bool) : CollectedHeap :=
  { h with
    generation := h.generation + 1
    store := restamp (h.generation + 1).toUInt32 marks h.store }

theorem markedHeap_present {h : CollectedHeap} {marks : Addr → Bool} {a : Addr} :
    (h.markedHeap marks).Present a ↔ h.Present a := by
  simp [Present, markedHeap, restamp]

/-- A collection that marked `marks` and swept `swept`; the objects of `unswept`
were already in the old list. -/
structure Collected (h : CollectedHeap) (marks : Addr → Bool) (unswept swept : List Addr)
    (h' : CollectedHeap) (deleted : List Addr) : Prop where
  deleted : deleted = swept.filter fun a => !(h.markedHeap marks).survives a
  recentlyAllocatedObjects : h'.recentlyAllocatedObjects = []
  oldObjects : h'.oldObjects = unswept ++ swept.filter (h.markedHeap marks).survives
  store : h'.store = (h.markedHeap marks).sweptStore swept
  options : h'.options = h.options
  next : h'.next = h.next
  generation : h'.generation = h.generation + 1
  crossGenerationPointers : h.options.generational = true → h'.crossGenerationPointers = []

namespace WellFormed

variable {h : CollectedHeap}

theorem closed_nodes (hw : h.WellFormed) : Closed (successors h.store) h.listed.toFinset := by
  intro a ha
  obtain ⟨o, ho⟩ := Option.isSome_iff_exists.mp ((hw.mem_listed a).mp (List.mem_toFinset.mp ha))
  refine ⟨o.payload.children, by simp [successors, ho], fun c hc => ?_⟩
  exact List.mem_toFinset.mpr ((hw.mem_listed c).mpr (hw.closed a c ⟨o, ho, hc⟩))

theorem card_lt (h : CollectedHeap) (marks : Addr → Bool) :
    (unmarked h.listed.toFinset marks).card < h.depthBound := by
  have h₁ := Finset.card_filter_le h.listed.toFinset fun a => marks a = false
  have h₂ := List.toFinset_card_le h.listed
  have h₃ : h.listed.length = h.recentlyAllocatedObjects.length + h.oldObjects.length :=
    List.length_append
  have h₄ : (unmarked h.listed.toFinset marks).card ≤ h.listed.length := le_trans h₁ h₂
  unfold depthBound
  omega

theorem search (hw : h.WellFormed) (markRecentOnly : Bool) {roots : List Addr}
    (hr : ∀ a ∈ roots, h.Present a) (marks : Addr → Bool) :
    ∃ marks', visitAll (successors h.store) (isBlocked markRecentOnly h.store) h.depthBound
        roots marks = some marks' ∧
      Searched (successors h.store) (isBlocked markRecentOnly h.store) h.listed.toFinset roots
        marks marks' :=
  visitAll_searched hw.closed_nodes
    (fun a ha => List.mem_toFinset.mpr ((hw.mem_listed a).mpr (hr a ha))) (card_lt h marks)

/-- A visit with the bound of a collection searches what it is asked to, whatever
blocks it. -/
theorem searched (hw : h.WellFormed) {blocked : Addr → Bool} {roots : List Addr}
    (hr : ∀ a ∈ roots, h.Present a) {marks marks' : Addr → Bool}
    (hv : visitAll (successors h.store) blocked h.depthBound roots marks = some marks') :
    Searched (successors h.store) blocked h.listed.toFinset roots marks marks' := by
  obtain ⟨marks₁, hv₁, hs⟩ := @visitAll_searched _ _ _ blocked _ hw.closed_nodes _ _
    (fun a ha => List.mem_toFinset.mpr ((hw.mem_listed a).mpr (hr a ha))) _ (card_lt h marks)
  rw [hv] at hv₁
  cases hv₁
  exact hs

end WellFormed

/-- What `gcFull` does, with the visit that decides the marks. -/
theorem gcFull_visit {h : CollectedHeap} (hw : h.WellFormed) {roots : List Addr}
    (hr : ∀ a ∈ roots, h.Present a) :
    ∃ marks h' deleted,
      visitAll (successors h.store) (isBlocked false h.store) h.depthBound roots
        (stamped (h.generation + 1).toUInt32 h.store) = some marks ∧
      h.gcFull roots = .ok (h', deleted) ∧
      h.Collected marks [] (h.oldObjects ++ h.recentlyAllocatedObjects) h' deleted := by
  set stamp := (h.generation + 1).toUInt32 with hstamp
  obtain ⟨marks, hv, -⟩ := hw.search false hr (stamped stamp h.store)
  have hmark := visitAll_restamp (fun _ hb => hb) hv
  rw [restamp_stamped] at hmark
  have hlisted : ∀ a ∈ h.oldObjects ++ h.recentlyAllocatedObjects, h.Present a := fun a ha =>
    (hw.mem_listed a).mp (List.mem_append.mpr (List.mem_append.mp ha).symm)
  -- marking changes no list and deletes nothing, so every listed object can be swept
  have hpres : ∀ a ∈ h.oldObjects ++ h.recentlyAllocatedObjects,
      (restamp stamp marks h.store a).isSome := fun a ha => by
    simpa [restamp, Present] using hlisted a ha
  have hnodup : (h.oldObjects ++ h.recentlyAllocatedObjects).Nodup :=
    (List.perm_append_comm.nodup_iff).mp hw.nodup
  set swept := h.oldObjects ++ h.recentlyAllocatedObjects with hswept
  cases hg : h.options.generational with
  | true =>
    obtain ⟨h', he, hst, hl⟩ := sweep_eq h.options.sizes.pointer swept
      { h.markedHeap marks with
        crossGenerationPointers := [], oldObjects := swept, recentlyAllocatedObjects := [] }
      hnodup hpres
    have hdepth : depthBound
        { h with
          generation := h.generation + 1
          crossGenerationPointers := [], oldObjects := swept, recentlyAllocatedObjects := [] } =
        h.depthBound := by
      simp only [depthBound, hswept, List.length_nil, List.length_append]
      omega
    refine ⟨marks, { h' with oldObjects := swept.filter (h.markedHeap marks).survives }, _, hv,
      ?_, rfl, ?_, rfl, ?_, ?_, ?_, ?_, fun _ => ?_⟩
    · simp only [gcFull, hg, if_true, bind, Except.bind, hdepth, ← hswept, ← hstamp, hmark]
      rw [show ({ h with
        generation := h.generation + 1
        store := restamp stamp marks h.store
        crossGenerationPointers := [], oldObjects := swept, recentlyAllocatedObjects := [] } :
          CollectedHeap) =
        { h.markedHeap marks with
          crossGenerationPointers := [], oldObjects := swept, recentlyAllocatedObjects := [] }
        from rfl, he]
      rfl
    · exact hl.recentlyAllocatedObjects
    · exact hst
    · exact hl.options
    · exact hl.next
    · exact hl.generation
    · exact hl.crossGenerationPointers
  | false =>
    have hy := hw.young hg
    -- without generations every object is old
    have hold : swept = h.oldObjects := by rw [hswept, hy, List.append_nil]
    obtain ⟨h', he, hst, hl⟩ := sweep_eq h.options.sizes.pointer swept (h.markedHeap marks)
      hnodup hpres
    refine ⟨marks, { h' with oldObjects := swept.filter (h.markedHeap marks).survives }, _, hv,
      ?_, rfl, ?_, rfl, ?_, ?_, ?_, ?_, fun ht => by rw [hg] at ht; exact Bool.noConfusion ht⟩
    · simp only [gcFull, hg, Bool.false_eq_true, if_false, bind, Except.bind, ← hstamp]
      rw [show depthBound { h with generation := h.generation + 1 } = h.depthBound from rfl, hmark]
      simp only
      rw [show ({ h with
        generation := h.generation + 1
        store := restamp stamp marks h.store } : CollectedHeap) = h.markedHeap marks from rfl,
        show h.oldObjects = swept from hold.symm, he]
    · exact hl.recentlyAllocatedObjects.trans hy
    · exact hst
    · exact hl.options
    · exact hl.next
    · exact hl.generation

theorem gcFull_eq {h : CollectedHeap} (hw : h.WellFormed) {roots : List Addr}
    (hr : ∀ a ∈ roots, h.Present a) :
    ∃ marks h' deleted,
      Searched (successors h.store) (isBlocked false h.store) h.listed.toFinset roots
        (stamped (h.generation + 1).toUInt32 h.store) marks ∧
      h.gcFull roots = .ok (h', deleted) ∧
      h.Collected marks [] (h.oldObjects ++ h.recentlyAllocatedObjects) h' deleted := by
  obtain ⟨marks, h', deleted, hv, he, hc⟩ := gcFull_visit hw hr
  exact ⟨marks, h', deleted, hw.searched hr hv, he, hc⟩

/-- The objects marked before the descent of `gcFast`: the roots and what the
remembered slots hold. -/
def fastRoots (h : CollectedHeap) (roots : List Addr) : List Addr :=
  roots ++ slotTargets h.store h.crossGenerationPointers

/-- What `gcFast` does, with the visit that decides the marks. -/
theorem gcFast_visit {h : CollectedHeap} (hw : h.WellFormed) {roots : List Addr}
    (hr : ∀ a ∈ h.fastRoots roots, h.Present a)
    (hslots : ∀ slot ∈ h.crossGenerationPointers, (readSlot h.store slot).isSome) :
    ∃ marks h' deleted,
      visitAll (successors h.store) (isBlocked true h.store) h.depthBound (h.fastRoots roots)
        (stamped (h.generation + 1).toUInt32 h.store) = some marks ∧
      h.gcFast roots = .ok (h', deleted) ∧
      h.Collected marks h.oldObjects h.recentlyAllocatedObjects h' deleted := by
  set stamp := (h.generation + 1).toUInt32 with hstamp
  obtain ⟨marks, hv, -⟩ := hw.search true hr (stamped stamp h.store)
  have hboth := hv
  rw [visitAll, fastRoots, List.foldlM_append] at hboth
  -- the search from the roots, and then from the remembered slots, is one search
  cases hv₁ : visitAll (successors h.store) (isBlocked true h.store) h.depthBound roots
      (stamped stamp h.store) with
  | none => rw [visitAll] at hv₁; rw [hv₁] at hboth; exact absurd hboth (by simp)
  | some m =>
    have hv₂ : visitAll (successors h.store) (isBlocked true h.store) h.depthBound
        (slotTargets h.store h.crossGenerationPointers) m = some marks := by
      rw [visitAll] at hv₁
      rw [hv₁] at hboth
      exact hboth
    have hgrow : ∀ b, stamped stamp h.store b = true → m b = true :=
      (foldlM_restamp (fun _ _ _ hm hv => mark_visit hm hv) roots (fun _ hb => hb) hv₁).2
    have hmark := visitAll_restamp (fun _ hb => hb) hv₁
    rw [restamp_stamped] at hmark
    have hmarkSlots := markSlots_visit _ hslots hgrow hv₂
    have hpres : ∀ a ∈ h.recentlyAllocatedObjects, (restamp stamp marks h.store a).isSome :=
      fun a ha => by
        simpa [restamp, Present] using (hw.mem_listed a).mp (List.mem_append_left _ ha)
    obtain ⟨h', he, hst, hl⟩ := sweep_eq 0 h.recentlyAllocatedObjects
      { h.markedHeap marks with crossGenerationPointers := [] } (List.nodup_append.mp hw.nodup).1
      hpres
    refine ⟨marks, { h' with
      recentlyAllocatedObjects := []
      oldObjects := h'.oldObjects ++
        h.recentlyAllocatedObjects.filter (h.markedHeap marks).survives }, _, hv,
      ?_, rfl, rfl, ?_, ?_, ?_, ?_, ?_, fun _ => ?_⟩
    · simp only [gcFast, bind, Except.bind, ← hstamp]
      rw [show depthBound { h with generation := h.generation + 1 } = h.depthBound from rfl, hmark]
      simp only
      rw [hmarkSlots]
      simp only
      rw [show ({ h with
        generation := h.generation + 1
        store := restamp stamp marks h.store
        crossGenerationPointers := [] } : CollectedHeap) =
        { h.markedHeap marks with crossGenerationPointers := [] } from rfl, he]
      rfl
    · exact congrArg (· ++ _) hl.oldObjects
    · exact hst
    · exact hl.options
    · exact hl.next
    · exact hl.generation
    · exact hl.crossGenerationPointers

theorem gcFast_eq {h : CollectedHeap} (hw : h.WellFormed) {roots : List Addr}
    (hr : ∀ a ∈ h.fastRoots roots, h.Present a)
    (hslots : ∀ slot ∈ h.crossGenerationPointers, (readSlot h.store slot).isSome) :
    ∃ marks h' deleted,
      Searched (successors h.store) (isBlocked true h.store) h.listed.toFinset
        (h.fastRoots roots) (stamped (h.generation + 1).toUInt32 h.store) marks ∧
      h.gcFast roots = .ok (h', deleted) ∧
      h.Collected marks h.oldObjects h.recentlyAllocatedObjects h' deleted := by
  obtain ⟨marks, h', deleted, hv, he, hc⟩ := gcFast_visit hw hr hslots
  exact ⟨marks, h', deleted, hw.searched hr hv, he, hc⟩

/-! ## The stamp -/

section Stamp

variable {h : CollectedHeap}

theorem size_eq : UInt32.size = 4294967296 := rfl

theorem toNat_nextGeneration (hg : h.generation.toNat < UInt32.size) :
    (h.generation + 1).toNat = h.generation.toNat + 1 := by
  rw [UInt64.toNat_add]
  exact Nat.mod_eq_of_lt (by have : (1 : UInt64).toNat = 1 := rfl; have := size_eq; omega)

theorem toNat_stamp (hg : h.generation.toNat + 1 < UInt32.size) :
    (h.generation + 1).toUInt32.toNat = h.generation.toNat + 1 := by
  rw [UInt64.toNat_toUInt32, toNat_nextGeneration (by omega)]
  exact Nat.mod_eq_of_lt hg

/-- Before the counter reaches 2^32 no object has the stamp of the collection. -/
theorem stamped_eq_false (hw : h.WellFormed) (hg : h.generation.toNat + 1 < UInt32.size)
    (a : Addr) :
    stamped (h.generation + 1).toUInt32 h.store a = false := by
  unfold stamped
  cases ho : h.store a with
  | none => rfl
  | some o =>
    have hle := hw.marked a o ho
    simp only [Option.any_some, decide_eq_false_iff_not]
    intro he
    have := toNat_stamp hg
    rw [← he] at this
    omega

theorem survives_iff (hw : h.WellFormed) (hg : h.generation.toNat + 1 < UInt32.size)
    (marks : Addr → Bool) (a : Addr) :
    (h.markedHeap marks).survives a = true ↔ h.Present a ∧ marks a = true := by
  have hstamp : (h.generation + 1).toUInt32.toUInt64 = h.generation + 1 := by
    apply UInt64.toNat_inj.mp
    rw [UInt32.toNat_toUInt64, toNat_stamp hg, toNat_nextGeneration (by omega)]
  simp only [survives, markedHeap, restamp, Present]
  cases ho : h.store a with
  | none => simp
  | some o =>
    have hle := hw.marked a o ho
    cases marks a with
    | true => simp only [Option.map_some, if_true, Option.any_some, hstamp, decide_true,
        Option.isSome_some, and_true]
    | false =>
      simp only [Option.map_some, Bool.false_eq_true, if_false, Option.any_some,
        Option.isSome_some, and_false, iff_false]
      intro he
      have := congrArg UInt64.toNat (of_decide_eq_true he)
      rw [UInt32.toNat_toUInt64, toNat_nextGeneration (by omega)] at this
      omega

/-- The 2^32nd collection keeps nothing it sweeps. -/
theorem survives_wrapped (hg : h.generation.toNat + 1 = UInt32.size) (marks : Addr →
    Bool) (a : Addr) :
    (h.markedHeap marks).survives a = false := by
  unfold survives
  cases ho : (h.markedHeap marks).store a with
  | none => rfl
  | some o =>
    simp only [Option.any_some, decide_eq_false_iff_not]
    intro he
    have := congrArg UInt64.toNat he
    have hlt : o.marked.toNat < 4294967296 := o.marked.toNat_lt
    have hsize := size_eq
    have hgen : ((h.markedHeap marks).generation).toNat = h.generation.toNat + 1 :=
      toNat_nextGeneration (by omega)
    rw [UInt32.toNat_toUInt64, hgen] at this
    omega

end Stamp

/-! ## What is left after a collection -/

namespace Collected

variable {h h' : CollectedHeap} {marks : Addr → Bool} {unswept swept deleted : List Addr}

/-- The objects of the new heap are those of the old one that were kept. -/
theorem object (hc : h.Collected marks unswept swept h' deleted) {a : Addr} {o : Object}
    (ho : h'.store a = some o) :
    ∃ o₀, h.store a = some o₀ ∧ o.payload = o₀.payload ∧
      (o.marked = o₀.marked ∨ o.marked = (h.generation + 1).toUInt32) ∧
      o.isOld = (decide (a ∈ swept) || o₀.isOld) := by
  have restamped : ∀ {o₁}, (h.markedHeap marks).store a = some o₁ →
      ∃ o₀, h.store a = some o₀ ∧ o₁.payload = o₀.payload ∧
        (o₁.marked = o₀.marked ∨ o₁.marked = (h.generation + 1).toUInt32) ∧
        o₁.isOld = o₀.isOld := by
    intro o₁ ho₁
    simp only [markedHeap, restamp, Option.map_eq_some_iff] at ho₁
    obtain ⟨o₀, ho₀, rfl⟩ := ho₁
    refine ⟨o₀, ho₀, ?_⟩
    split
    · exact ⟨rfl, .inr rfl, rfl⟩
    · exact ⟨rfl, .inl rfl, rfl⟩
  rw [hc.store] at ho
  simp only [sweptStore] at ho
  split at ho
  · next hs =>
    split at ho
    · obtain ⟨o₁, ho₁, rfl⟩ := Option.map_eq_some_iff.mp ho
      obtain ⟨o₀, ho₀, hp, hm, -⟩ := restamped ho₁
      exact ⟨o₀, ho₀, hp, hm, by simp [hs]⟩
    · exact absurd ho (by simp)
  · next hs =>
    obtain ⟨o₀, ho₀, hp, hm, hi⟩ := restamped ho
    exact ⟨o₀, ho₀, hp, hm, by simp [hs, hi]⟩

theorem present_iff (hc : h.Collected marks unswept swept h' deleted) (a : Addr) :
    h'.Present a ↔ h.Present a ∧ (a ∈ swept → (h.markedHeap marks).survives a = true) := by
  have hm : (h.markedHeap marks).Present a ↔ h.Present a := markedHeap_present
  unfold Present at hm ⊢
  rw [hc.store, ← hm]
  simp only [sweptStore]
  split
  · next hs =>
    cases (h.markedHeap marks).survives a <;> simp [hs]
  · next hs => simp [hs]

/-- A collection leaves a well-formed heap when what it keeps points to what it keeps. -/
theorem wellFormed (hw : h.WellFormed) (hg : h.generation.toNat + 1 < UInt32.size)
    (hc : h.Collected marks unswept swept h' deleted) (hl : (unswept ++ swept).Perm h.listed)
    (hk : ∀ a b, h'.Present a → h.PointsTo a b → b ∈ swept →
      (h.markedHeap marks).survives b = true) : h'.WellFormed := by
  have hnodup : (unswept ++ swept).Nodup := hl.nodup_iff.mpr hw.nodup
  have hlisted : h'.listed = unswept ++ swept.filter (h.markedHeap marks).survives := by
    rw [listed, hc.recentlyAllocatedObjects, hc.oldObjects]
    rfl
  have hgen : h'.generation.toNat = h.generation.toNat + 1 := by
    rw [hc.generation, toNat_nextGeneration (by omega)]
  refine ⟨?_, fun a => ?_, fun a b hab => ?_, fun a o ho => ?_, fun _ => ?_, fun a ha => ?_⟩
  · rw [hlisted]
    exact hnodup.sublist ((List.Sublist.refl _).append List.filter_sublist)
  · have hmem := hl.mem_iff (a := a)
    rw [hw.mem_listed, List.mem_append] at hmem
    have hdisj : a ∈ unswept → a ∉ swept := fun h₁ h₂ =>
      (List.nodup_append.mp hnodup).2.2 a h₁ a h₂ rfl
    rw [hlisted, List.mem_append, List.mem_filter, hc.present_iff, ← hmem]
    tauto
  · obtain ⟨o, ho, hb⟩ := hab
    obtain ⟨o₀, ho₀, hp, -, -⟩ := hc.object ho
    have hpt : h.PointsTo a b := ⟨o₀, ho₀, hp ▸ hb⟩
    exact (hc.present_iff b).mpr ⟨hw.closed a b hpt, hk a b (Option.isSome_of_mem ho) hpt⟩
  · obtain ⟨o₀, ho₀, -, hm, -⟩ := hc.object ho
    rw [hgen]
    rcases hm with hm | hm
    · rw [hm]
      exact Nat.le_succ_of_le (hw.marked a o₀ ho₀)
    · rw [hm, toNat_stamp hg]
  · exact hc.recentlyAllocatedObjects
  · rw [hc.next]
    exact hw.fresh a ((hc.present_iff a).mp ha).1

end Collected

end CollectedHeap

end Beaverc

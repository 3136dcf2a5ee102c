import Beaverc.Generations

/-!
# `gcFast` keeps what is reachable

The marking of `gcFast` stops at old objects. On a heap with the invariant
`Generational` it still reaches every young object that the roots reach, because
the path leaves the old generation through a recorded slot
(`gcFast_marks_young`). All heaps a program builds with fewer than 2^32
collections have the invariant (`Built.sound`).
-/

namespace Beaverc
open DepthFirst CollectionLemmas

namespace CollectedHeap
open GenerationLemmas FullLemmas

def Young (h : CollectedHeap) (a : Addr) : Prop :=
  a ∈ h.recentlyAllocatedObjects

/-- `gcFast roots` returns and deletes no object that `roots` reach. -/
def GcFastSafe (h : CollectedHeap) (roots : List Addr) : Prop :=
  ∃ h' deleted, h.gcFast roots = .ok (h', deleted) ∧ ∀ a ∈ deleted, ¬ h.Reachable roots a

namespace FastLemmas

variable {h : CollectedHeap}

theorem blocked_iff (hs : h.Sound) (hg : h.options.generational = true) {a : Addr}
    (hp : h.Present a) : isBlocked true h.store a = true ↔ a ∈ h.oldObjects := by
  obtain ⟨o, ho⟩ := Option.isSome_iff_exists.mp hp
  rw [← (hs.generational hg).aged a o ho]
  simp [isBlocked, ho]

theorem young_iff (hs : h.Sound) {a : Addr} (hp : h.Present a) :
    h.Young a ↔ a ∉ h.oldObjects := by
  have hm := (hs.wellFormed.mem_listed a).mpr hp
  constructor
  · exact fun hy ho => (List.nodup_append.mp hs.wellFormed.nodup).2.2 a hy a ho rfl
  · exact fun ho => (List.mem_append.mp hm).resolve_right ho

theorem fastRoots_present (hs : h.Sound) {roots : List Addr}
    (hr : ∀ a ∈ roots, h.Present a) : ∀ a ∈ h.fastRoots roots, h.Present a := by
  intro a ha
  rcases List.mem_append.mp ha with ha | ha
  · exact hr a ha
  · obtain ⟨slot, hslot, hb⟩ := List.mem_filterMap.mp ha
    obtain ⟨v, hv, hva⟩ := Option.bind_eq_some_iff.mp hb
    obtain ⟨p, hp, hpv⟩ := Option.bind_eq_some_iff.mp hv
    obtain ⟨o, ho, rfl⟩ := Option.map_eq_some_iff.mp hp
    refine hs.wellFormed.closed slot.owner a ⟨o, ho, ?_⟩
    obtain ⟨old, m, p⟩ := o
    cases p with
    | record values =>
      cases slot with
      | field b key =>
        have hmem : (key, v) ∈ values := by
          have hl : values.lookup key = some v := hpv
          obtain ⟨l₁, l₂, rfl, -⟩ := List.lookup_eq_some_iff.mp hl
          simp
        exact List.mem_filterMap.mpr ⟨_, hmem, hva⟩
      | value b => exact absurd hpv (by simp [Payload.read])
    | reference w =>
      cases slot with
      | field b key => exact absurd hpv (by simp [Payload.read])
      | value b =>
        cases hpv
        simp [Payload.children, hva]
    | string _ | tree _ _ | bareFunction _ | closure _ _ | builtInFunction _ =>
      exact absurd hpv (by cases slot <;> simp [Payload.read])

/-- A young child of an old object is among the objects marked first. -/
theorem mem_fastRoots (hs : h.Sound) (hg : h.options.generational = true) {roots : List Addr}
    {a b : Addr} (ha : a ∈ h.oldObjects) (hab : h.PointsTo a b) (hb : b ∉ h.oldObjects) :
    b ∈ h.fastRoots roots := by
  have hgn := hs.generational hg
  obtain ⟨o, ho, hc⟩ := hab
  obtain ⟨slot, v, hm, hv⟩ := (mem_children_iff a o.payload b).mp hc
  obtain ⟨s, hsm, rfl⟩ := hgn.remembered a o ho ((hgn.aged a o ho).mpr ha) slot v b hm hv hb
  refine List.mem_append_right _ (List.mem_filterMap.mpr ⟨s, hsm, ?_⟩)
  have hread : s.owner = a ∧ o.payload.read s = some v := by
    obtain ⟨old, m, p⟩ := o
    cases p with
    | record values =>
      obtain ⟨p, hp, he⟩ := List.mem_map.mp hm
      cases he
      exact ⟨rfl, lookup_of_mem (hgn.keys a _ values ho rfl) hp⟩
    | reference w =>
      simp only [Payload.slots, List.mem_singleton, Prod.mk.injEq, Option.some.injEq] at hm
      obtain ⟨rfl, rfl⟩ := hm
      exact ⟨rfl, rfl⟩
    | string _ | tree _ _ | bareFunction _ | closure _ _ | builtInFunction _ =>
      exact absurd hm (by simp [Payload.slots])
  have hst : h.store s.owner = some o := by rw [hread.1]; exact ho
  rw [readSlot_of_store hst, hread.2]
  exact hv

end FastLemmas

open FastLemmas

/-- Marking from the roots and the recorded slots reaches every young object
that the roots reach. -/
theorem gcFast_marks_young {h : CollectedHeap} (hs : h.Sound) (hg : h.options.generational = true)
    (hgen : h.generation.toNat + 1 < UInt32.size) {roots : List Addr}
    (hr : ∀ a ∈ roots, h.Present a)
    {marks : Addr → Bool}
    (hm : Searched (successors h.store) (isBlocked true h.store) h.listed.toFinset
      (h.fastRoots roots) (stamped (h.generation + 1).toUInt32 h.store) marks)
    {a : Addr} (ha : h.Reachable roots a) : a ∈ h.oldObjects ∨ marks a = true := by
  have root : ∀ b ∈ h.fastRoots roots, h.Present b → b ∈ h.oldObjects ∨ marks b = true :=
    fun b hb hp => (hm.covers b hb).symm.imp (blocked_iff hs hg hp).mp id
  obtain ⟨r, hrm, hp⟩ := ha
  induction hp with
  | refl => exact root r (List.mem_append_left _ hrm) (hr r hrm)
  | @tail b c hpath hstep ih =>
    have hpc : h.Present c := hs.wellFormed.closed b c hstep
    rcases ih with hold | hmark
    · by_cases hc : c ∈ h.oldObjects
      · exact .inl hc
      · exact root c (mem_fastRoots hs hg hold hstep hc) hpc
    · by_cases hc : c ∈ h.oldObjects
      · exact .inl hc
      · refine .inr (hm.closed b hmark (stamped_eq_false hs.wellFormed hgen b) c ?_)
        obtain ⟨o, ho, hcm⟩ := hstep
        refine ⟨o.payload.children, by simp [successors, ho], hcm, ?_⟩
        rw [← Bool.not_eq_true, blocked_iff hs hg hpc]
        exact hc

/-- The collection of a heap with the invariant. -/
theorem gcFast_sound_eq {h : CollectedHeap} (hs : h.Sound) (hg : h.options.generational = true)
    {roots : List Addr} (hr : ∀ a ∈ roots, h.Present a) :
    ∃ marks h' deleted,
      Searched (successors h.store) (isBlocked true h.store) h.listed.toFinset
        (h.fastRoots roots) (stamped (h.generation + 1).toUInt32 h.store) marks ∧
      h.gcFast roots = .ok (h', deleted) ∧
      h.Collected marks h.oldObjects h.recentlyAllocatedObjects h' deleted :=
  gcFast_eq hs.wellFormed (fastRoots_present hs hr) (hs.generational hg).slots

/-! ## Collections keep the invariant -/

/-- After a collection every object is old. -/
theorem Collected.generational {h h' : CollectedHeap} {marks : Addr → Bool}
    {unswept swept deleted : List Addr} (hs : h.Sound) (hg : h.options.generational = true)
    (hc : h.Collected marks unswept swept h' deleted) (hw : h'.WellFormed)
    (hu : ∀ a, h.Present a → a ∉ swept → a ∈ h.oldObjects) : h'.Generational := by
  have hold : ∀ a, h'.Present a → a ∈ h'.oldObjects := fun a ha => by
    have hm := (hw.mem_listed a).mpr ha
    rwa [listed, hc.recentlyAllocatedObjects, List.nil_append] at hm
  have hcross := hc.crossGenerationPointers hg
  refine ⟨fun a o ho => ?_, fun a o ho _ slot v b hm hv hy => ?_, fun s hsl => ?_,
    fun a o values ho hp => ?_⟩
  · obtain ⟨o₀, ho₀, -, -, hi⟩ := hc.object ho
    have hisOld : o.isOld = true := by
      rw [hi]
      by_cases hsw : a ∈ swept
      · simp [hsw]
      · have := ((hs.generational hg).aged a o₀ ho₀).mpr (hu a (Option.isSome_of_mem ho₀) hsw)
        simp [this]
    exact ⟨fun _ => hold a (Option.isSome_of_mem ho), fun _ => hisOld⟩
  · have hb : b ∈ o.payload.children := (mem_children_iff a o.payload b).mpr ⟨slot, v, hm, hv⟩
    exact absurd (hold b (hw.closed a b ⟨o, ho, hb⟩)) hy
  · rw [hcross] at hsl
    exact absurd hsl List.not_mem_nil
  · obtain ⟨o₀, ho₀, hpl, -, -⟩ := hc.object ho
    exact (hs.generational hg).keys a o₀ values ho₀ (hpl ▸ hp)

theorem gcFull_sound {h h' : CollectedHeap} {roots deleted : List Addr} (hs : h.Sound)
    (hgen : h.generation.toNat + 1 < UInt32.size) (hr : ∀ a ∈ roots, h.Present a)
    (he : h.gcFull roots = .ok (h', deleted)) :
    h'.Sound ∧ h'.options = h.options ∧ h'.generation = h.generation + 1 := by
  obtain ⟨hw, marks, hc⟩ := gcFull_wellFormed hs.wellFormed hgen hr he
  refine ⟨⟨hw, fun hg => ?_⟩, hc.options, hc.generation⟩
  exact hc.generational hs (by rw [← hc.options]; exact hg) hw
    fun a ha hn => absurd ((mem_swept hs.wellFormed a).mpr ha) hn

theorem gcFast_sound {h h' : CollectedHeap} {roots deleted : List Addr} (hs : h.Sound)
    (hg : h.options.generational = true) (hgen : h.generation.toNat + 1 < UInt32.size)
    (hr : ∀ a ∈ roots, h.Present a) (he : h.gcFast roots = .ok (h', deleted)) :
    h'.Sound ∧ h'.options = h.options ∧ h'.generation = h.generation + 1 := by
  obtain ⟨marks, h₁, d₁, hm, he₁, hc⟩ := gcFast_sound_eq hs hg hr
  cases he.symm.trans he₁
  have hw : h'.WellFormed := by
    refine hc.wellFormed hs.wellFormed hgen List.perm_append_comm fun a b ha hab hb => ?_
    obtain ⟨hpa, hka⟩ := (hc.present_iff a).mp ha
    have hpb := hs.wellFormed.closed a b hab
    have hnb : b ∉ h.oldObjects := (young_iff hs hpb).mp hb
    have hub : isBlocked true h.store b = false := by
      rw [← Bool.not_eq_true, blocked_iff hs hg hpb]
      exact hnb
    refine (survives_iff hs.wellFormed hgen marks b).mpr ⟨hpb, ?_⟩
    by_cases hoa : a ∈ h.oldObjects
    · rcases hm.covers b (mem_fastRoots hs hg hoa hab hnb) with hk | hk
      · exact hk
      · rw [hub] at hk
        exact Bool.noConfusion hk
    · have hka' := hka ((young_iff hs hpa).mpr hoa)
      have hma := ((survives_iff hs.wellFormed hgen marks a).mp hka').2
      obtain ⟨o, ho, hcm⟩ := hab
      exact hm.closed a hma (stamped_eq_false hs.wellFormed hgen a) b
        ⟨o.payload.children, by simp [successors, ho], hcm, hub⟩
  refine ⟨⟨hw, fun _ => ?_⟩, hc.options, hc.generation⟩
  refine hc.generational hs hg hw fun a ha hn => ?_
  by_contra ho
  exact hn ((young_iff hs ha).mpr ho)

/-- Every heap a program builds with fewer than 2^32 collections has the invariant. -/
theorem Built.sound {options : HeapOptions} {n : Nat} {h : CollectedHeap}
    (hb : Built options n h) (hn : n < UInt32.size) :
    h.Sound ∧ h.options = options ∧ h.generation.toNat = n := by
  induction hb with
  | empty =>
    refine ⟨⟨.empty options, fun _ => ⟨?_, ?_, ?_, ?_⟩⟩, rfl, rfl⟩
    all_goals simp [CollectedHeap.empty, increaseSize]
  | mutate _ hm ih =>
    obtain ⟨hs, ho, hg⟩ := ih hn
    obtain ⟨hs', ho', hg'⟩ := hm.sound hs
    exact ⟨hs', ho'.trans ho, by rw [hg', hg]⟩
  | gcFast _ hr hgen he ih =>
    obtain ⟨hs, ho, hg⟩ := ih (by omega)
    obtain ⟨hs', ho', hg'⟩ := gcFast_sound hs hgen (by omega) hr he
    exact ⟨hs', ho'.trans ho, by rw [hg', toNat_nextGeneration (by omega), hg]⟩
  | gcFull _ hr he ih =>
    obtain ⟨hs, ho, hg⟩ := ih (by omega)
    obtain ⟨hs', ho', hg'⟩ := gcFull_sound hs (by omega) hr he
    exact ⟨hs', ho'.trans ho, by rw [hg', toNat_nextGeneration (by omega), hg]⟩

/-- A heap built with fewer than 2^32 collections has the invariant of the
generations, and `gcFast` is safe on it if and only if it is not the 2^32nd
collection, or no young object is reachable anyway. -/
theorem gcFast_safe_iff (options : HeapOptions) (ho : options.generational = true) (n : Nat)
    (hn : n < UInt32.size) (h : CollectedHeap) (hb : Built options n h) (roots : List Addr)
    (hr : ∀ a ∈ roots, h.Present a) :
    h.Generational ∧
      (h.GcFastSafe roots ↔ n + 1 < UInt32.size ∨ ∀ a, h.Reachable roots a → ¬ h.Young a) := by
  obtain ⟨hs, hopt, hgn⟩ := hb.sound hn
  have hg : h.options.generational = true := by rw [hopt]; exact ho
  obtain ⟨marks, h', deleted, hm, he, hc⟩ := gcFast_sound_eq hs hg hr
  have hdel : ∀ a, a ∈ deleted ↔ h.Young a ∧ (h.markedHeap marks).survives a = false := fun a => by
    rw [hc.deleted, List.mem_filter, Bool.not_eq_true', Young]
  refine ⟨hs.generational hg, ?_, ?_⟩
  · rintro ⟨h₁, d₁, he₁, hsafe⟩
    cases he.symm.trans he₁
    rcases Nat.lt_or_ge (n + 1) UInt32.size with hlt | hge
    · exact .inl hlt
    · exact .inr fun a ha hy => hsafe a ((hdel a).mpr ⟨hy, survives_wrapped (by omega) marks a⟩) ha
  · intro hcond
    refine ⟨h', deleted, he, fun a ha hreach => ?_⟩
    obtain ⟨hy, hsv⟩ := (hdel a).mp ha
    rcases hcond with hlt | hnone
    · have hp : h.Present a := reachable_present hs.wellFormed hr hreach
      rcases gcFast_marks_young hs hg (by omega) hr hm hreach with hold | hmark
      · exact (young_iff hs hp).mp hy hold
      · rw [(survives_iff hs.wellFormed (by omega) marks a).mpr ⟨hp, hmark⟩] at hsv
        exact Bool.noConfusion hsv
    · exact hnone a hreach hy

/-- A record is allocated and survives a collection. Of the two allocated after it
one is stored into it. -/
def oldToYoung : Except Stop CollectedHeap := do
  let (h, _) ← ((empty (.x64 true true)).allocate (.record [])).2.gcFast [0]
  ((h.allocate (.record [])).2.allocate (.record [])).2.recordInsert 0 "young" (.pointer 2)

theorem oldToYoung_built : ∃ h, oldToYoung = .ok h ∧ Built (.x64 true true) 1 h ∧
    (∀ a ∈ [0], h.Present a) ∧ ∃ h', h.gcFast [0] = .ok (h', [1]) := by
  have hrecord : Built (.x64 true true) 0 ((empty (.x64 true true)).allocate (.record [])).2 :=
    Built.empty.mutate (.allocate rfl fun _ hb => absurd hb List.not_mem_nil)
  have hroot : ∀ a ∈ [0], ((empty (.x64 true true)).allocate (.record [])).2.Present a := by
    intro a ha
    rw [List.mem_singleton.mp ha]
    rfl
  have hold := @Built.gcFast _ _ _ _ [0] _ hrecord hroot rfl rfl
  have hgarbage := hold.mutate
    (@Mutates.allocate _ (.record []) rfl fun _ hb => absurd hb List.not_mem_nil)
  have hyoung := hgarbage.mutate
    (@Mutates.allocate _ (.record []) rfl fun _ hb => absurd hb List.not_mem_nil)
  refine ⟨_, rfl, hyoung.mutate (@Mutates.recordInsert _ 0 "young" (.pointer 2) _ ?_ rfl), ?_,
    _, rfl⟩
  · intro b hb
    cases hb
    rfl
  · intro a ha
    rw [List.mem_singleton.mp ha]
    rfl

/-- The young record in the old one is kept, the other one deleted. -/
theorem gcFast_safe_iff_oldToYoung : ∃ h, oldToYoung = .ok h ∧
    (h.Generational ∧
      (h.GcFastSafe [0] ↔ 1 + 1 < UInt32.size ∨ ∀ a, h.Reachable [0] a → ¬ h.Young a)) ∧
    ∃ h', h.gcFast [0] = .ok (h', [1]) := by
  obtain ⟨h, he, hb, hr, hdeleted⟩ := oldToYoung_built
  exact ⟨h, he, gcFast_safe_iff (.x64 true true) rfl 1 (by decide) h hb [0] hr, hdeleted⟩

/-! ## The failing heap -/

namespace FastLemmas

theorem built_empty (options : HeapOptions) (n : Nat) :
    Built options n { empty options with generation := UInt64.ofNat n } := by
  induction n with
  | zero => exact .empty
  | succ n ih =>
    have h := ih.gcFull (fun _ h => absurd h List.not_mem_nil) (gcFull_empty _ _)
    rwa [show UInt64.ofNat n + 1 = UInt64.ofNat (n + 1) by rw [UInt64.ofNat_add]; rfl] at h

theorem built_record (options : HeapOptions) (n : Nat) :
    Built options n ({ empty options with generation := UInt64.ofNat n }.allocate (.record [])).2 :=
  (built_empty options n).mutate (.allocate rfl fun _ h => absurd h List.not_mem_nil)

end FastLemmas

/-- After 2^32 - 1 collections of an empty heap a record is allocated; the next
`gcFast` deletes it although it is a root. -/
theorem gcFast_deletes_root :
    ∃ h, Built (.x64 true true) (UInt32.size - 1) h ∧ h.Present 0 ∧ ¬ h.GcFastSafe [0] := by
  set h := ({ empty (.x64 true true) with generation := UInt64.ofNat (UInt32.size - 1) }.allocate
    (.record [])).2 with hh
  have hb : Built (.x64 true true) (UInt32.size - 1) h := built_record _ _
  have hp : h.Present 0 := rfl
  have hr : ∀ a ∈ [0], h.Present a := fun a ha => by rw [List.mem_singleton.mp ha]; exact hp
  refine ⟨h, hb, hp, fun ⟨h₁, d₁, he₁, hsafe⟩ => ?_⟩
  obtain ⟨hs, hopt, hgn⟩ := hb.sound (by decide)
  obtain ⟨marks, h₂, d₂, -, he₂, hc⟩ := gcFast_sound_eq hs (by rw [hopt]; rfl) hr
  cases he₁.symm.trans he₂
  refine hsafe 0 ?_ ⟨0, List.mem_singleton.mpr rfl, .refl⟩
  rw [hc.deleted, List.mem_filter, survives_wrapped (by rw [hgn]; decide)]
  exact ⟨List.mem_singleton.mpr rfl, rfl⟩

end CollectedHeap

end Beaverc

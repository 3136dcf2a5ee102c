import Beaverc.Collection

/-!
# `gcFull` is exact

Before the 2^32nd collection `gcFull` deletes the unreachable objects, each of
them once, and keeps the reachable ones listed once (`gcFull_exact_iff`). The
2^32nd collection works with the stamp 0, the mark of an object that was never
marked, while its sweep looks for the untruncated 2^32; it deletes everything
(`gcFull_wraps`).
-/

namespace Beaverc
open DepthFirst CollectionLemmas

namespace CollectedHeap

/-- `gcFull roots` returns; it deletes each unreachable object once and nothing
else, and its lists hold each survivor once, unchanged. -/
def GcFullExact (h : CollectedHeap) (roots : List Addr) : Prop :=
  ∃ h' deleted, h.gcFull roots = .ok (h', deleted) ∧
    deleted.Nodup ∧
    (∀ a, a ∈ deleted ↔ h.Present a ∧ ¬ h.Reachable roots a) ∧
    h'.listed.Nodup ∧
    (∀ a, a ∈ h'.listed ↔ h.Present a ∧ h.Reachable roots a) ∧
    (∀ a, h'.Present a ↔ a ∈ h'.listed) ∧
    (∀ a ∈ h'.listed, payloadAt h'.store a = payloadAt h.store a)

namespace FullLemmas

variable {h : CollectedHeap}

theorem open_iff (h : CollectedHeap) (a c : Addr) :
    Open (successors h.store) (isBlocked false h.store) a c ↔ h.PointsTo a c := by
  simp only [Open, successors, isBlocked, Bool.false_and, and_true, PointsTo,
    Option.map_eq_some_iff]
  constructor
  · rintro ⟨_, ⟨o, ho, rfl⟩, hc⟩
    exact ⟨o, ho, hc⟩
  · rintro ⟨o, ho, hc⟩
    exact ⟨_, ⟨o, ho, rfl⟩, hc⟩

theorem reached_iff (h : CollectedHeap) (roots : List Addr) (a : Addr) :
    Reached (successors h.store) (isBlocked false h.store) roots a ↔ h.Reachable roots a := by
  have hrel : Open (successors h.store) (isBlocked false h.store) = h.PointsTo := by
    funext a c
    exact propext (open_iff h a c)
  simp only [Reached, Reachable, hrel, isBlocked, Bool.false_and, true_and]

theorem reachable_present (hw : h.WellFormed) {roots : List Addr}
    (hr : ∀ a ∈ roots, h.Present a) {a : Addr} (ha : h.Reachable roots a) : h.Present a := by
  obtain ⟨r, hrm, hp⟩ := ha
  induction hp with
  | refl => exact hr r hrm
  | tail _ hstep _ => exact hw.closed _ _ hstep

theorem reachable_step {roots : List Addr} {a b : Addr} (ha : h.Reachable roots a)
    (hab : h.PointsTo a b) : h.Reachable roots b := by
  obtain ⟨r, hrm, hp⟩ := ha
  exact ⟨r, hrm, hp.tail hab⟩

theorem mem_swept (hw : h.WellFormed) (a : Addr) :
    a ∈ h.oldObjects ++ h.recentlyAllocatedObjects ↔ h.Present a := by
  rw [← hw.mem_listed, listed, List.mem_append, List.mem_append, or_comm]

theorem payloadAt_sweptStore {h : CollectedHeap} {marks : Addr →
    Bool} {swept : List Addr} {a : Addr}
    (hs : a ∈ swept → (h.markedHeap marks).survives a = true) :
    payloadAt ((h.markedHeap marks).sweptStore swept) a = payloadAt h.store a := by
  have hmarked : payloadAt (h.markedHeap marks).store a = payloadAt h.store a := by
    simp only [payloadAt, markedHeap, restamp]
    cases h.store a with
    | none => rfl
    | some o => cases marks a <;> rfl
  rw [← hmarked]
  simp only [sweptStore, payloadAt]
  split
  · next hm =>
    rw [hs hm, if_pos rfl]
    cases (h.markedHeap marks).store a <;> rfl
  · rfl

end FullLemmas

open FullLemmas

/-- Exactness, given that the sweep keeps exactly the reachable objects. -/
theorem exact_of_survives {h : CollectedHeap} (hw : h.WellFormed) {roots : List Addr}
    {marks : Addr → Bool} {h' : CollectedHeap} {deleted : List Addr}
    (he : h.gcFull roots = .ok (h', deleted))
    (hc : h.Collected marks [] (h.oldObjects ++ h.recentlyAllocatedObjects) h' deleted)
    (hs : ∀ a, h.Present a → ((h.markedHeap marks).survives a = true ↔ h.Reachable roots a)) :
    h.GcFullExact roots := by
  have hnodup : (h.oldObjects ++ h.recentlyAllocatedObjects).Nodup :=
    List.perm_append_comm.nodup_iff.mp hw.nodup
  have hlisted : h'.listed =
      (h.oldObjects ++ h.recentlyAllocatedObjects).filter (h.markedHeap marks).survives := by
    rw [listed, hc.recentlyAllocatedObjects, hc.oldObjects]
    rfl
  have hmem : ∀ a, a ∈ h'.listed ↔ h.Present a ∧ (h.markedHeap marks).survives a = true :=
    fun a => by rw [hlisted, List.mem_filter, mem_swept hw]
  refine ⟨h', deleted, he, ?_, fun a => ?_, ?_, fun a => ?_, fun a => ?_, fun a ha => ?_⟩
  · rw [hc.deleted]
    exact hnodup.filter _
  · rw [hc.deleted, List.mem_filter, mem_swept hw]
    refine and_congr_right fun hp => ?_
    rw [← hs a hp, Bool.not_eq_true', Bool.not_eq_true]
  · rw [hlisted]
    exact hnodup.filter _
  · rw [hmem]
    exact and_congr_right fun hp => hs a hp
  · rw [hmem, Present, hc.store]
    by_cases hp : h.Present a
    · have hm := (mem_swept hw a).mpr hp
      have hst : ((h.markedHeap marks).store a).isSome := markedHeap_present.mpr hp
      cases hv : (h.markedHeap marks).survives a <;> simp [sweptStore, hm, hv, hst, hp]
    · have hm : a ∉ h.oldObjects ++ h.recentlyAllocatedObjects := fun hm =>
        hp ((mem_swept hw a).mp hm)
      have hst : ¬ ((h.markedHeap marks).store a).isSome := fun h => hp (markedHeap_present.mp h)
      simp only [sweptStore, if_neg hm]
      exact ⟨fun h => absurd h hst, fun h => absurd h.1 hp⟩
  · rw [hc.store]
    exact payloadAt_sweptStore fun _ => ((hmem a).mp ha).2

theorem survives_iff_reachable {h : CollectedHeap} (hw : h.WellFormed)
    (hg : h.generation.toNat + 1 < UInt32.size) {roots : List Addr} {marks : Addr → Bool}
    (hs : Searched (successors h.store) (isBlocked false h.store) h.listed.toFinset roots
      (stamped (h.generation + 1).toUInt32 h.store) marks) {a : Addr} (hp : h.Present a) :
    (h.markedHeap marks).survives a = true ↔ h.Reachable roots a := by
  have hmarks : marks a = true ↔ h.Reachable roots a :=
    (hs.iff_reached (stamped_eq_false hw hg) a).trans (reached_iff h roots a)
  rw [survives_iff hw hg, hmarks]
  exact ⟨fun h => h.2, fun h => ⟨hp, h⟩⟩

/-- With fewer than 2^32 - 1 collections before it, `gcFull` is exact. -/
theorem gcFull_exact {h : CollectedHeap} (hw : h.WellFormed)
    (hg : h.generation.toNat + 1 < UInt32.size)
    {roots : List Addr} (hr : ∀ a ∈ roots, h.Present a) : h.GcFullExact roots := by
  obtain ⟨marks, h', deleted, hs, he, hc⟩ := gcFull_eq hw hr
  exact exact_of_survives hw he hc fun a hp => survives_iff_reachable hw hg hs hp

/-- `gcFull` keeps the heap well formed; afterwards every object is old. -/
theorem gcFull_wellFormed {h h' : CollectedHeap} {deleted : List Addr} (hw : h.WellFormed)
    (hg : h.generation.toNat + 1 < UInt32.size) {roots : List Addr} (hr : ∀ a ∈ roots, h.Present a)
    (he : h.gcFull roots = .ok (h', deleted)) :
    h'.WellFormed ∧ ∃ marks, h.Collected marks [] (h.oldObjects ++ h.recentlyAllocatedObjects)
      h' deleted := by
  obtain ⟨marks, h₁, d₁, hs, he₁, hc⟩ := gcFull_eq hw hr
  cases he.symm.trans he₁
  have hl : ([] ++ (h.oldObjects ++ h.recentlyAllocatedObjects)).Perm h.listed := by
    rw [List.nil_append]
    exact List.perm_append_comm
  refine ⟨hc.wellFormed hw hg hl fun a b ha hab _ => ?_, marks, hc⟩
  obtain ⟨hp, hsv⟩ := (hc.present_iff a).mp ha
  have hra := (survives_iff_reachable hw hg hs hp).mp (hsv ((mem_swept hw a).mpr hp))
  exact (survives_iff_reachable hw hg hs (hw.closed a b hab)).mpr (reachable_step hra hab)

/-- The 2^32nd collection deletes every object. -/
theorem gcFull_wraps {h : CollectedHeap} (hw : h.WellFormed)
    (hg : h.generation.toNat + 1 =
      UInt32.size) {roots : List Addr} (hr : ∀ a ∈ roots, h.Present a) :
    ∃ h' deleted, h.gcFull roots = .ok (h', deleted) ∧ ∀ a, h.Present a → a ∈ deleted := by
  obtain ⟨marks, h', deleted, _, he, hc⟩ := gcFull_eq hw hr
  refine ⟨h', deleted, he, fun a hp => ?_⟩
  rw [hc.deleted, List.mem_filter, mem_swept hw, survives_wrapped hg]
  exact ⟨hp, rfl⟩

/-- After fewer than 2^32 collections `gcFull` is exact if and only if this one
is not the 2^32nd, or nothing is reachable anyway. -/
theorem gcFull_exact_iff (h : CollectedHeap) (hw : h.WellFormed)
    (hg : h.generation.toNat < UInt32.size) (roots : List Addr) (hr : ∀ a ∈ roots, h.Present a) :
    h.GcFullExact roots ↔ h.generation.toNat + 1 < UInt32.size ∨ roots = [] := by
  constructor
  · intro hx
    rcases Nat.lt_or_ge (h.generation.toNat + 1) UInt32.size with hlt | hge
    · exact .inl hlt
    · refine .inr (List.eq_nil_iff_forall_not_mem.mpr fun r hrm => ?_)
      obtain ⟨h₁, d₁, he₁, -, hdel, -⟩ := hx
      obtain ⟨h₂, d₂, he₂, hall⟩ := gcFull_wraps hw (by omega) hr
      rw [he₁] at he₂
      cases he₂
      exact ((hdel r).mp (hall r (hr r hrm))).2 ⟨r, hrm, .refl⟩
  · rintro (hlt | rfl)
    · exact gcFull_exact hw hlt hr
    · rcases Nat.lt_or_ge (h.generation.toNat + 1) UInt32.size with hlt | hge
      · exact gcFull_exact hw hlt hr
      · obtain ⟨marks, h', deleted, _, he, hc⟩ := gcFull_eq hw hr
        refine exact_of_survives hw he hc fun a _ => ?_
        rw [survives_wrapped (by omega)]
        exact ⟨fun h => Bool.noConfusion h, fun ⟨r, hrm, _⟩ => absurd hrm List.not_mem_nil⟩

/-- Two records that point to each other, and one to which nothing points. -/
def ring : CollectedHeap :=
  let h := ((empty (.x64 true true)).allocate (.record [])).2
  let h := (h.allocate (.record [("next", .pointer 0)])).2
  (h.allocate (.record [])).2.setPayload 0 (.record [("next", .pointer 1)])

theorem ring_wellFormed : ring.WellFormed := by
  have hone : ((empty (.x64 true true)).allocate (.record [])).2.WellFormed :=
    (WellFormed.empty _).allocate fun _ hb => absurd hb List.not_mem_nil
  have htwo := hone.allocate (p := .record [("next", .pointer 0)]) fun b hb => by
    rw [List.mem_singleton.mp hb]
    rfl
  refine (htwo.allocate fun _ hb => absurd hb List.not_mem_nil).setPayload 0 fun b hb => ?_
  rw [List.mem_singleton.mp hb]
  rfl

/-- Only the third record is deleted. -/
theorem gcFull_exact_iff_ring :
    (ring.GcFullExact [0] ↔ ring.generation.toNat + 1 < UInt32.size ∨ [0] = []) ∧
      ∃ h, ring.gcFull [0] = .ok (h, [2]) :=
  ⟨gcFull_exact_iff ring ring_wellFormed (by decide) [0]
    (fun a ha => by rw [List.mem_singleton.mp ha]; rfl), _, rfl⟩

/-! ## The failing heap -/

/-- `n` collections without roots. -/
def gcFullTimes : Nat → CollectedHeap → Except Stop CollectedHeap
  | 0, h => .ok h
  | n + 1, h =>
    match h.gcFull [] with
    | .ok (h, _) => gcFullTimes n h
    | .error stop => .error stop

theorem gcFull_empty (options : HeapOptions) (g : UInt64) :
    gcFull [] { empty options with generation := g } =
      .ok ({ empty options with generation := g + 1 }, []) := by
  cases hg : options.generational <;>
    simp [gcFull, empty, increaseSize, hg, bind, Except.bind, pure, Except.pure, sweep]

theorem gcFullTimes_empty (options : HeapOptions) (n : Nat) (g : UInt64) :
    gcFullTimes n { empty options with generation := g } =
      .ok { empty options with generation := g + UInt64.ofNat n } := by
  induction n generalizing g with
  | zero => simp [gcFullTimes]
  | succ n ih =>
    simp only [gcFullTimes, gcFull_empty]
    rw [ih]
    congr 3
    rw [UInt64.add_assoc]
    rw [Nat.add_comm, UInt64.ofNat_add]
    rfl

/-- A heap with one record. -/
theorem record_wellFormed (options : HeapOptions) (g : UInt64) :
    ({ empty options with generation := g }.allocate (.record [])).2.WellFormed :=
  ((WellFormed.empty options).generation (Nat.zero_le _)).allocate
    fun _ hb => absurd hb List.not_mem_nil

/-- After 2^32 - 1 collections of an empty heap a record is allocated; the next
`gcFull` deletes it although it is a root. -/
theorem gcFull_deletes_root :
    ∃ worn, gcFullTimes (UInt32.size - 1) (empty (.x64 true true)) = .ok worn ∧
      (worn.allocate (.record [])).2.WellFormed ∧
      (worn.allocate (.record [])).2.generation.toNat < UInt32.size ∧
      (worn.allocate (.record [])).2.Present (worn.allocate (.record [])).1 ∧
      ¬ (worn.allocate (.record [])).2.GcFullExact [(worn.allocate (.record [])).1] := by
  refine ⟨{ empty (.x64 true true) with generation := 4294967295 },
    gcFullTimes_empty _ (UInt32.size - 1) 0, record_wellFormed _ _, by decide, rfl, ?_⟩
  rintro ⟨h₁, d₁, he₁, -, hdel, -⟩
  have hr : ∀ a ∈ [0],
      ({ empty (.x64 true true) with generation := 4294967295 }.allocate (.record [])).2.Present
        a :=
    fun a ha => by rw [List.mem_singleton.mp ha]; rfl
  obtain ⟨h₂, d₂, he₂, hall⟩ := gcFull_wraps (record_wellFormed (.x64 true true) 4294967295)
    (by decide) hr
  have he : (h₁, d₁) = (h₂, d₂) := Except.ok.inj (he₁.symm.trans he₂)
  cases he
  exact ((hdel 0).mp (hall 0 rfl)).2 ⟨0, List.mem_singleton.mpr rfl, .refl⟩

end CollectedHeap

end Beaverc

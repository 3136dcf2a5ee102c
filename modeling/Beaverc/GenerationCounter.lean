import Beaverc.FastCollection

/-!
# The generation counter and the stamps

The counter of collections has 64 bits, the stamp that `mark` leaves in an object
has 32, and the sweeps compare the two. `collections_safe_iff` follows this for
every value of the counter: up to 2^32 - 1 a collection keeps what is reachable,
from 2^32 on no stamp equals the counter and nothing swept is kept. When the
counter comes back to 0 the objects stamped 0 are kept, but not looked into.
-/

namespace Beaverc
open DepthFirst CollectionLemmas

namespace CollectedHeap
open FullLemmas FastLemmas

/-- `gcFull roots` returns and deletes no object that `roots` reach. -/
def GcFullSafe (h : CollectedHeap) (roots : List Addr) : Prop :=
  ∃ h' deleted, h.gcFull roots = .ok (h', deleted) ∧ ∀ a ∈ deleted, ¬ h.Reachable roots a

/-- The object has the mark 0, or a path leads to it from `starts` on which no
object has the mark 0 or stops the descent. -/
def FoundAroundZeros (h : CollectedHeap) (markRecentOnly : Bool) (starts : List Addr) (a : Addr) :
    Prop :=
  stamped 0 h.store a = true ∨
    Reached (successors h.store)
      (fun b => isBlocked markRecentOnly h.store b || stamped 0 h.store b) starts a

/-- The counter and the marks are such that a sweep keeps `a`, if marking from
`starts` is to find it. -/
def Keeps (h : CollectedHeap) (markRecentOnly : Bool) (starts : List Addr) (a : Addr) : Prop :=
  h.generation.toNat + 1 < UInt32.size ∨
    h.generation.toNat + 1 = UInt64.size ∧ h.FoundAroundZeros markRecentOnly starts a

namespace GenerationCounterLemmas

variable {h : CollectedHeap}

theorem toNat_next (hg : h.generation.toNat + 1 < UInt64.size) :
    (h.generation + 1).toNat = h.generation.toNat + 1 := by
  rw [UInt64.toNat_add]
  exact Nat.mod_eq_of_lt hg

theorem next_eq_zero (hg : h.generation.toNat + 1 = UInt64.size) : h.generation + 1 = 0 := by
  apply UInt64.toNat_inj.mp
  have hone : (1 : UInt64).toNat = 1 := rfl
  rw [UInt64.toNat_add, hone, hg]
  rfl

/-- A 32-bit stamp is never a counter from 2^32 on. -/
theorem survives_beyond (hlow : UInt32.size ≤ h.generation.toNat + 1)
    (hhigh : h.generation.toNat + 1 < UInt64.size) (marks : Addr → Bool) (a : Addr) :
    (h.markedHeap marks).survives a = false := by
  unfold survives
  cases ho : (h.markedHeap marks).store a with
  | none => rfl
  | some o =>
    rw [Option.any_some, decide_eq_false_iff_not]
    intro he
    have hstamp : o.marked.toNat = h.generation.toNat + 1 := by
      rw [← toNat_next hhigh, ← UInt32.toNat_toUInt64, he]
      rfl
    exact absurd (hstamp ▸ o.marked.toNat_lt) (Nat.not_lt_of_le hlow)

/-- With the counter at 0 what is marked is kept. -/
theorem survives_zero (hg : h.generation.toNat + 1 = UInt64.size) {marks : Addr → Bool}
    (hgrow : ∀ b, stamped 0 h.store b = true → marks b = true) {a : Addr} (hp : h.Present a) :
    (h.markedHeap marks).survives a = true ↔ marks a = true := by
  obtain ⟨o, ho⟩ := Option.isSome_iff_exists.mp hp
  have hstamp := hgrow a
  unfold stamped at hstamp
  unfold survives markedHeap restamp
  rw [next_eq_zero hg]
  simp only [ho, Option.map_some, Option.any_some] at hstamp ⊢
  cases hm : marks a with
  | true => exact ⟨fun _ => rfl, fun _ => rfl⟩
  | false =>
    rw [hm] at hstamp
    refine ⟨fun hs => hstamp (decide_eq_true ?_), fun hs => absurd hs Bool.false_ne_true⟩
    exact UInt32.toUInt64_inj.mp (of_decide_eq_true hs)

/-- What a visit from `starts` means for a present object. -/
theorem survives_iff_keeps (hw : h.WellFormed) {markRecentOnly : Bool} {starts : List Addr}
    (hstarts : ∀ a ∈ starts, h.Present a) {marks : Addr → Bool}
    (hv : visitAll (successors h.store) (isBlocked markRecentOnly h.store) h.depthBound starts
      (stamped (h.generation + 1).toUInt32 h.store) = some marks) {a : Addr} (hp : h.Present a)
    (hfound : h.generation.toNat + 1 < UInt32.size → marks a = true) :
    (h.markedHeap marks).survives a = true ↔ h.Keeps markRecentOnly starts a := by
  rcases Nat.lt_or_ge (h.generation.toNat + 1) UInt32.size with hlt | hlow
  · exact ⟨fun _ => .inl hlt, fun _ => (survives_iff hw hlt marks a).mpr ⟨hp, hfound hlt⟩⟩
  rcases Nat.lt_or_eq_of_le (Nat.succ_le_of_lt h.generation.toNat_lt) with hhigh | hzero
  · rw [survives_beyond hlow hhigh]
    refine ⟨fun hs => absurd hs Bool.false_ne_true, ?_⟩
    rintro (hlt | ⟨hzero, -⟩)
    · exact absurd hlt (Nat.not_lt_of_le hlow)
    · exact absurd hzero (Nat.ne_of_lt hhigh)
  · rw [next_eq_zero hzero, visitAll_blocked] at hv
    have hsearch := hw.searched hstarts hv
    rw [survives_zero hzero hsearch.grows hp, hsearch.iff_around]
    refine ⟨fun hf => .inr ⟨hzero, hf⟩, ?_⟩
    rintro (hlt | ⟨-, hf⟩)
    · exact absurd hlt (Nat.not_lt_of_le hlow)
    · exact hf

end GenerationCounterLemmas

open GenerationCounterLemmas

theorem gcFull_safe_iff {h : CollectedHeap} (hw : h.WellFormed) {roots : List Addr}
    (hr : ∀ a ∈ roots, h.Present a) :
    h.GcFullSafe roots ↔ ∀ a, h.Reachable roots a → h.Keeps false roots a := by
  obtain ⟨marks, h', deleted, hv, he, hc⟩ := gcFull_visit hw hr
  have hkeeps {a : Addr} (ha : h.Reachable roots a) :
      (h.markedHeap marks).survives a = true ↔ h.Keeps false roots a := by
    have hp := reachable_present hw hr ha
    refine survives_iff_keeps hw hr hv hp fun hlt => ?_
    have hs := (survives_iff_reachable hw hlt (hw.searched hr hv) hp).mpr ha
    exact ((survives_iff hw hlt marks a).mp hs).2
  constructor
  · rintro ⟨h₁, d₁, he₁, hsafe⟩ a ha
    cases he.symm.trans he₁
    rw [← hkeeps ha]
    by_contra hn
    refine hsafe a ?_ ha
    rw [hc.deleted, List.mem_filter, mem_swept hw, Bool.not_eq_true']
    exact ⟨reachable_present hw hr ha, Bool.eq_false_of_not_eq_true hn⟩
  · intro hall
    refine ⟨h', deleted, he, fun a hdel ha => ?_⟩
    rw [hc.deleted, List.mem_filter, (hkeeps ha).mpr (hall a ha)] at hdel
    exact Bool.false_ne_true hdel.2

theorem gcFast_deletes_none_iff {h : CollectedHeap} (hs : h.Sound)
    (hg : h.options.generational = true) {roots : List Addr} (hr : ∀ a ∈ roots, h.Present a) :
    h.GcFastSafe roots ↔
      ∀ a, h.Reachable roots a → h.Young a → h.Keeps true (h.fastRoots roots) a := by
  have hw := hs.wellFormed
  have hstarts := fastRoots_present hs hr
  obtain ⟨marks, h', deleted, hv, he, hc⟩ := gcFast_visit hw hstarts (hs.generational hg).slots
  have hkeeps {a : Addr} (ha : h.Reachable roots a) (hy : h.Young a) :
      (h.markedHeap marks).survives a = true ↔ h.Keeps true (h.fastRoots roots) a := by
    have hp := reachable_present hw hr ha
    refine survives_iff_keeps hw hstarts hv hp fun hlt => ?_
    exact (gcFast_marks_young hs hg hlt hr (hw.searched hstarts hv) ha).resolve_left
      ((young_iff hs hp).mp hy)
  constructor
  · rintro ⟨h₁, d₁, he₁, hsafe⟩ a ha hy
    cases he.symm.trans he₁
    rw [← hkeeps ha hy]
    by_contra hn
    refine hsafe a ?_ ha
    rw [hc.deleted, List.mem_filter, Bool.not_eq_true']
    exact ⟨hy, Bool.eq_false_of_not_eq_true hn⟩
  · intro hall
    refine ⟨h', deleted, he, fun a hdel ha => ?_⟩
    rw [hc.deleted, List.mem_filter] at hdel
    rw [(hkeeps ha hdel.1).mpr (hall a ha hdel.1)] at hdel
    exact Bool.false_ne_true hdel.2

/-- For every value of the counter: `gcFull` deletes no reachable object if and only
if the counter and the marks let the sweep keep each of them, and `gcFast` if and
only if they let it keep the young ones. -/
theorem collections_safe_iff (h : CollectedHeap) (hs : h.Sound) (roots : List Addr)
    (hr : ∀ a ∈ roots, h.Present a) :
    (h.GcFullSafe roots ↔ ∀ a, h.Reachable roots a → h.Keeps false roots a) ∧
      (h.options.generational = true → (h.GcFastSafe roots ↔
        ∀ a, h.Reachable roots a → h.Young a → h.Keeps true (h.fastRoots roots) a)) :=
  ⟨gcFull_safe_iff hs.wellFormed hr, fun hg => gcFast_deletes_none_iff hs hg hr⟩

/-! ## A heap after many collections -/

/-- A record in a heap that has been collected `n` times while it was empty. -/
def agedRecord (n : Nat) : CollectedHeap :=
  ({ empty (.x64 true true) with generation := UInt64.ofNat n }.allocate (.record [])).2

theorem agedRecord_built (n : Nat) : Built (.x64 true true) n (agedRecord n) :=
  built_record _ n

theorem agedRecord_sound (n : Nat) : (agedRecord n).Sound := by
  have hempty : { empty (.x64 true true) with generation := UInt64.ofNat n }.Sound :=
    ⟨(WellFormed.empty _).generation (Nat.zero_le _), fun _ => ⟨nofun, nofun, nofun, nofun⟩⟩
  exact ((Mutates.allocate rfl fun _ hb => absurd hb List.not_mem_nil).sound hempty).1

theorem agedRecord_present (n : Nat) : ∀ a ∈ [0], (agedRecord n).Present a := by
  intro a ha
  rw [List.mem_singleton.mp ha]
  rfl

/-- A second record, which the first one points to. -/
def agedPair (n : Nat) : Except Stop CollectedHeap :=
  ((agedRecord n).allocate (.record [])).2.recordInsert 0 "next" (.pointer 1)

theorem agedPair_built (n : Nat) : ∃ h, agedPair n = .ok h ∧ Built (.x64 true true) n h ∧
    (∀ a ∈ [0], h.Present a) ∧ h.Reachable [0] 1 := by
  have hsecond := (agedRecord_built n).mutate
    (@Mutates.allocate _ (.record []) rfl fun _ hb => absurd hb List.not_mem_nil)
  refine ⟨_, rfl, hsecond.mutate (@Mutates.recordInsert _ 0 "next" (.pointer 1) _ ?_ rfl), ?_,
    0, List.mem_singleton.mpr rfl, .single ⟨_, rfl, List.mem_singleton.mpr rfl⟩⟩
  · intro b hb
    cases hb
    rfl
  · intro a ha
    rw [List.mem_singleton.mp ha]
    rfl

/-- At the last collection before the stamps wrap. -/
theorem collections_safe_pair : ∃ h, agedPair (UInt32.size - 2) = .ok h ∧ h.Reachable [0] 1 ∧
    (h.GcFullSafe [0] ↔ ∀ a, h.Reachable [0] a → h.Keeps false [0] a) ∧
    (h.options.generational = true → (h.GcFastSafe [0] ↔
      ∀ a, h.Reachable [0] a → h.Young a → h.Keeps true (h.fastRoots [0]) a)) := by
  obtain ⟨h, he, hb, hr, hreach⟩ := agedPair_built (UInt32.size - 2)
  exact ⟨h, he, hreach, collections_safe_iff h (hb.sound (by decide)).1 [0] hr⟩

/-- After 2^32 + 5 collections both collectors delete a record that is a root. -/
theorem collections_delete_root :
    ∃ h, Built (.x64 true true) 4294967301 h ∧ h.Sound ∧ h.Reachable [0] 0 ∧
      ¬ h.GcFullSafe [0] ∧ ¬ h.GcFastSafe [0] := by
  have hroot : (agedRecord 4294967301).Reachable [0] 0 :=
    ⟨0, List.mem_singleton.mpr rfl, .refl⟩
  have hlost (markRecentOnly : Bool) (starts : List Addr) :
      ¬ (agedRecord 4294967301).Keeps markRecentOnly starts 0 := by
    rintro (hlt | ⟨hzero, -⟩)
    · exact absurd hlt (by decide)
    · exact absurd hzero (by decide)
  refine ⟨agedRecord 4294967301, agedRecord_built _, agedRecord_sound _, hroot, ?_, ?_⟩
  · rw [gcFull_safe_iff (agedRecord_sound _).wellFormed (agedRecord_present _)]
    exact fun hall => hlost _ _ (hall 0 hroot)
  · rw [gcFast_deletes_none_iff (agedRecord_sound _) rfl (agedRecord_present _)]
    exact fun hall => hlost _ _ (hall 0 hroot (List.mem_singleton.mpr rfl))

end CollectedHeap

end Beaverc

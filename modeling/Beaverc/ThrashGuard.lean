import Beaverc.FullCollection
import Beaverc.Base.Results

/-!
# The guard against thrashing

`potentially_garbage_collect` skips a collection unless the heap has grown by
`GC_THRASH_THRESHOLD` since the last one. It remembers the size of the heap in
a `uint32_t` and adds the threshold in that type. `collections_grown`: in a run
whose collections leave less than 2^32 - 20000 bytes the guard holds.
`nextGrown_iff`: from there on it does not, unless the other test, on the share
of the memory that is used, happens to stand in for it.
-/

namespace Beaverc
namespace ThrashGuard
open Results

/-! ## The interpreter's side -/

/-- `GC_THRASH_THRESHOLD`. -/
def gcThrashThreshold : Nat := 20000

/-- `old_heap_size + GC_THRASH_THRESHOLD`: an `int` added to a `uint32_t`. -/
def required (oldHeapSize : UInt32) : UInt64 :=
  (oldHeapSize + UInt32.ofNat gcThrashThreshold).toUInt64

section Interpreter

-- Whether `bytes >= heap.bytes_max * GC_COLLECTION_RATIO`, a comparison of
-- `double`s in which `bytes_max` is fixed; `<` is its negation.
variable (overRatio : UInt64 → Bool)

/-- `will_garbage_collect`. -/
def willGarbageCollect (heap : CollectedHeap) (oldHeapSize : UInt32) : Bool :=
  decide (heap.bytesCurrent ≥ required oldHeapSize) && overRatio heap.bytesCurrent

/-- `potentially_garbage_collect` past its first test, with the roots it has
built: the heap and the new `old_heap_size`. -/
def collect (roots : List Addr) (heap : CollectedHeap) :
    Except Stop (CollectedHeap × UInt32) :=
  if heap.options.generational then do
    let (heap, _) ← heap.gcFast roots
    if !overRatio heap.bytesCurrent then .ok (heap, heap.bytesCurrent.toUInt32)
    else do
      let (heap, _) ← heap.gcFull roots
      .ok (heap, heap.bytesCurrent.toUInt32)
  else do
    let (heap, _) ← heap.gcFull roots
    .ok (heap, heap.bytesCurrent.toUInt32)

/-- `potentially_garbage_collect`. -/
def potentiallyGarbageCollect (roots : List Addr) (heap : CollectedHeap) (oldHeapSize : UInt32) :
    Except Stop (CollectedHeap × UInt32) :=
  if !willGarbageCollect overRatio heap oldHeapSize then .ok (heap, oldHeapSize)
  else collect overRatio roots heap

/-- `bytes_current` when a collection begins and when it has ended. -/
structure Collection where
  began : UInt64
  ended : UInt64

/-- The runs from a heap, with the collections performed, the newest first. -/
inductive Run (start : CollectedHeap) : List Collection → CollectedHeap → UInt32 → Prop
  | start : Run start [] start 0
  /-- Other instructions may do anything to the heap. -/
  | execute {collections heap old} (heap' : CollectedHeap) :
      Run start collections heap old → Run start collections heap' old
  | skip {collections heap old roots} : Run start collections heap old →
      willGarbageCollect overRatio heap old = false →
      potentiallyGarbageCollect overRatio roots heap old = .ok (heap, old) →
      Run start collections heap old
  | collect {collections heap old roots heap' old'} : Run start collections heap old →
      willGarbageCollect overRatio heap old = true →
      potentiallyGarbageCollect overRatio roots heap old = .ok (heap', old') →
      Run start (⟨heap.bytesCurrent, heap'.bytesCurrent⟩ :: collections) heap' old'

end Interpreter

/-! ## The guard -/

/-- The heap has grown by the threshold between two collections. -/
def Grown (older newer : Collection) : Prop :=
  older.ended.toNat + gcThrashThreshold ≤ newer.began.toNat

/-- It has grown before each collection but the first. -/
def AllGrown : List Collection → Prop
  | newer :: older :: rest => Grown older newer ∧ AllGrown (older :: rest)
  | _ => True

/-- The size after the collection, and the threshold on top, fit into 32 bits. -/
def Small (c : Collection) : Prop :=
  c.ended.toNat + gcThrashThreshold < UInt32.size

instance (c : Collection) : Decidable (Small c) :=
  inferInstanceAs (Decidable (_ < _))

namespace ThrashGuardLemmas

variable {overRatio : UInt64 → Bool}

theorem required_toNat (size : UInt64) :
    (required size.toUInt32).toNat = (size.toNat + gcThrashThreshold) % UInt32.size := by
  have hsize : (UInt32.ofNat gcThrashThreshold).toNat = gcThrashThreshold := rfl
  unfold required
  rw [UInt32.toNat_toUInt64, UInt32.toNat_add, UInt64.toNat_toUInt32, hsize, Nat.mod_add_mod]

/-- Below 32 bits nothing is cut off. -/
theorem required_of_small {c : Collection} (hc : Small c) :
    (required c.ended.toUInt32).toNat = c.ended.toNat + gcThrashThreshold := by
  rw [required_toNat, Nat.mod_eq_of_lt hc]

/-- Both exits of a collection remember the size of the heap they leave. -/
theorem collect_old {roots : List Addr} {heap heap' : CollectedHeap} {old' : UInt32}
    (he : collect overRatio roots heap = .ok (heap', old')) :
    old' = heap'.bytesCurrent.toUInt32 := by
  have full {g : CollectedHeap} (he : (do
      let (heap, _) ← g.gcFull roots
      .ok (heap, heap.bytesCurrent.toUInt32) : Except Stop _) = .ok (heap', old')) :
      old' = heap'.bytesCurrent.toUInt32 := by
    obtain ⟨⟨g', deleted⟩, -, he⟩ := bind_ok.mp he
    cases he
    rfl
  unfold collect at he
  split at he
  · obtain ⟨⟨g, deleted⟩, -, he⟩ := bind_ok.mp he
    dsimp only at he
    split at he
    · cases he
      rfl
    · exact full he
  · exact full he

theorem potentiallyGarbageCollect_old {roots : List Addr} {heap heap' : CollectedHeap}
    {old old' : UInt32} (hw : willGarbageCollect overRatio heap old = true)
    (he : potentiallyGarbageCollect overRatio roots heap old = .ok (heap', old')) :
    old' = heap'.bytesCurrent.toUInt32 := by
  unfold potentiallyGarbageCollect at he
  rw [hw] at he
  exact collect_old he

/-- What is remembered is the size at the end of the last collection. -/
theorem run_old {start : CollectedHeap} {collections : List Collection} {heap : CollectedHeap}
    {old : UInt32} (hrun : Run overRatio start collections heap old) :
    ∀ c rest, collections = c :: rest → old = c.ended.toUInt32 := by
  induction hrun with
  | start => exact fun c rest h => absurd h.symm (List.cons_ne_nil c rest)
  | execute heap' _ ih => exact ih
  | skip _ _ _ ih => exact ih
  | collect hrun hw he ih =>
    intro c rest h
    cases h
    exact potentiallyGarbageCollect_old hw he

theorem grown_of_small {heap : CollectedHeap} {c : Collection} {ended : UInt64} (hc : Small c)
    (hw : willGarbageCollect overRatio heap c.ended.toUInt32 = true) :
    Grown c ⟨heap.bytesCurrent, ended⟩ := by
  have hge := of_decide_eq_true (Bool.and_eq_true_iff.mp hw).1
  have hle := UInt64.le_iff_toNat_le.mp hge
  rwa [required_of_small hc] at hle

end ThrashGuardLemmas

open ThrashGuardLemmas

/-- In a run whose collections, the last apart, leave less than 2^32 - 20000 bytes,
the heap has grown by the threshold before each collection after the first. -/
theorem collections_grown (overRatio : UInt64 → Bool) {start heap : CollectedHeap}
    {collections : List Collection} {old : UInt32}
    (hrun : Run overRatio start collections heap old)
    (hsmall : ∀ c ∈ collections.tail, Small c) : AllGrown collections := by
  induction hrun with
  | start => trivial
  | execute heap' _ ih => exact ih hsmall
  | skip _ _ _ ih => exact ih hsmall
  | @collect collections heap old roots heap' old' hrun hw he ih =>
    cases collections with
    | nil => trivial
    | cons c rest =>
      obtain rfl := run_old hrun c rest rfl
      exact ⟨grown_of_small (hsmall c List.mem_cons_self) hw,
        ih fun d hd => hsmall d (List.mem_cons_of_mem c hd)⟩

/-- After a collection, whatever is allocated, the next one waits for the growth:
exactly if the size is small, or no size in the window that the wrapped sum
leaves open is over the ratio. -/
theorem nextGrown_iff (overRatio : UInt64 → Bool) {start heap : CollectedHeap} {c : Collection}
    {collections : List Collection} {old : UInt32}
    (hrun : Run overRatio start (c :: collections) heap old) :
    (∀ heap' ended, willGarbageCollect overRatio heap' old = true →
        Grown c ⟨heap'.bytesCurrent, ended⟩) ↔
      Small c ∨ ∀ b : UInt64, required old ≤ b → b.toNat < c.ended.toNat + gcThrashThreshold →
        overRatio b = false := by
  obtain rfl := run_old hrun c collections rfl
  constructor
  · intro h
    refine .inr fun b hb hlt => ?_
    cases hr : overRatio b with
    | false => rfl
    | true =>
      have hw : willGarbageCollect overRatio { heap with bytesCurrent := b } c.ended.toUInt32 =
          true := by
        unfold willGarbageCollect
        rw [Bool.and_eq_true_iff]
        exact ⟨decide_eq_true hb, hr⟩
      exact absurd (h _ 0 hw) (Nat.not_le_of_lt hlt)
  · rintro (hs | hwindow) heap' ended hw
    · exact grown_of_small hs hw
    · obtain ⟨hge, hr⟩ := Bool.and_eq_true_iff.mp hw
      by_contra hn
      have hfalse := hwindow _ (of_decide_eq_true hge) (Nat.lt_of_not_le hn)
      rw [hr] at hfalse
      cases hfalse

/-! ## Two heaps -/

/-- The ratio of 9/10 of a memory of `bytesMax` bytes. -/
def overNineTenths (bytesMax : Nat) (b : UInt64) : Bool :=
  decide (b.toNat * 10 ≥ bytesMax * 9)

/-- A new heap in which `n` further bytes are counted. -/
def filled (n : Nat) : CollectedHeap :=
  (CollectedHeap.empty (.x64 false true)).increaseSize n

theorem collect_filled (overRatio : UInt64 → Bool) (roots : List Addr) (hr : roots = []) (n : Nat)
    (old : UInt32) (hw : willGarbageCollect overRatio (filled n) old = true) :
    potentiallyGarbageCollect overRatio roots (filled n) old =
      .ok ({ filled n with generation := 1 }, (filled n).bytesCurrent.toUInt32) := by
  subst hr
  unfold potentiallyGarbageCollect
  rw [hw]
  rfl

/-- Two collections of a small heap, with 100000 bytes allocated in between. -/
theorem collections_grown_small :
    AllGrown [⟨(filled 40000).bytesCurrent, (filled 40000).bytesCurrent⟩,
      ⟨(filled 20000).bytesCurrent, (filled 20000).bytesCurrent⟩] := by
  have hfirst : willGarbageCollect (overNineTenths 50000) (filled 20000) 0 = true := by decide
  have hsecond : willGarbageCollect (overNineTenths 50000) (filled 40000)
      (filled 20000).bytesCurrent.toUInt32 = true := by decide
  have hrun : Run (overNineTenths 50000) (filled 20000) _ _ _ :=
    .collect (.execute (filled 40000) (.collect .start hfirst
      (collect_filled _ [] rfl 20000 0 hfirst))) hsecond (collect_filled _ [] rfl 40000 _ hsecond)
  exact collections_grown (overNineTenths 50000) hrun (by decide)

/-- With 2 gigabytes of memory, and 4.5 counted, two collections follow each other
without any growth. -/
theorem collections_thrash :
    ¬ ∀ overRatio start collections heap old,
      Run overRatio start collections heap old → AllGrown collections := by
  intro h
  have hfirst : willGarbageCollect (overNineTenths 2000000000) (filled 900000000) 0 = true := by
    decide
  have hsecond : willGarbageCollect (overNineTenths 2000000000) (filled 900000000)
      (filled 900000000).bytesCurrent.toUInt32 = true := by decide
  have hrun : Run (overNineTenths 2000000000) (filled 900000000) _ _ _ :=
    .collect (.execute (filled 900000000) (.collect .start hfirst
        (collect_filled _ [] rfl 900000000 0 hfirst))) hsecond
      (collect_filled _ [] rfl 900000000 _ hsecond)
  have hgrown := (h _ _ _ _ _ hrun).1
  revert hgrown
  unfold Grown
  decide

end ThrashGuard
end Beaverc

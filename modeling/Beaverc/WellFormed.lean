import Mathlib.Data.List.Nodup
import Mathlib.Logic.Relation
import Beaverc.Heap

/-!
# Well-formed heaps

What holds of a heap whatever the program does with it, and that the mutators
keep it. Collections keep it too, as long as their counter does not wrap
(`Beaverc.FullCollection`, `Beaverc.FastCollection`).
-/

namespace Beaverc
namespace CollectedHeap

def Present (h : CollectedHeap) (a : Addr) : Prop :=
  (h.store a).isSome

/-- Object `a` holds a pointer to `b`. -/
def PointsTo (h : CollectedHeap) (a b : Addr) : Prop :=
  ∃ o, h.store a = some o ∧ b ∈ o.payload.children

def Reachable (h : CollectedHeap) (roots : List Addr) (a : Addr) : Prop :=
  ∃ r ∈ roots, Relation.ReflTransGen h.PointsTo r a

/-- The objects in the two lists of the heap. -/
def listed (h : CollectedHeap) : List Addr :=
  h.recentlyAllocatedObjects ++ h.oldObjects

/-- The lists hold every object once, no pointer dangles, the marks are stamps
of earlier collections, and the addresses to come are free. -/
structure WellFormed (h : CollectedHeap) : Prop where
  nodup : h.listed.Nodup
  mem_listed : ∀ a, a ∈ h.listed ↔ h.Present a
  closed : ∀ a b, h.PointsTo a b → h.Present b
  marked : ∀ a o, h.store a = some o → o.marked.toNat ≤ h.generation.toNat
  young : h.options.generational = false → h.recentlyAllocatedObjects = []
  fresh : ∀ a, h.Present a → a < h.next

namespace WellFormed

theorem empty (options : HeapOptions) : (CollectedHeap.empty options).WellFormed where
  nodup := List.nodup_nil
  mem_listed := fun a => by
    simp [listed, Present, CollectedHeap.empty, increaseSize]
  closed := fun _ _ ⟨_, ho, _⟩ => by simp [CollectedHeap.empty, increaseSize] at ho
  marked := fun _ _ ho => by simp [CollectedHeap.empty, increaseSize] at ho
  young := fun _ => rfl
  fresh := fun _ hp => by simp [Present, CollectedHeap.empty, increaseSize] at hp

variable {h : CollectedHeap}

theorem generation (hw : h.WellFormed) {g : UInt64} (hg : h.generation.toNat ≤ g.toNat) :
    { h with generation := g }.WellFormed :=
  ⟨hw.nodup, hw.mem_listed, hw.closed, fun a o ho => Nat.le_trans (hw.marked a o ho) hg, hw.young,
    hw.fresh⟩

theorem store_allocate (h : CollectedHeap) (p : Payload) (a : Addr) :
    (h.allocate p).2.store a = if a = h.next then some ⟨false, 0, p⟩ else h.store a := by
  simp only [CollectedHeap.allocate, registerAllocation, increaseSize, Function.update_apply]

theorem present_allocate (h : CollectedHeap) (p : Payload) (a : Addr) :
    (h.allocate p).2.Present a ↔ a = h.next ∨ h.Present a := by
  unfold Present
  rw [store_allocate]
  split
  · next he => simp [he]
  · next he => simp [he]

theorem perm_listed_allocate (h : CollectedHeap) (p : Payload) :
    (h.allocate p).2.listed.Perm (h.next :: h.listed) := by
  simp only [CollectedHeap.allocate, registerAllocation, increaseSize, listed]
  by_cases hg : h.options.generational = true
  · simp only [hg, if_true]
    exact (List.perm_append_singleton _ _).append_right _
  · simp only [hg]
    simpa using List.perm_append_singleton h.next (h.recentlyAllocatedObjects ++ h.oldObjects)

theorem allocate (hw : h.WellFormed) {p : Payload} (hp : ∀ b ∈ p.children, h.Present b) :
    (h.allocate p).2.WellFormed := by
  have hn : h.next ∉ h.listed := fun hn =>
    Nat.lt_irrefl _ (hw.fresh _ ((hw.mem_listed _).mp hn))
  refine ⟨?_, fun a => ?_, ?_, fun a o ho => ?_, fun hg => ?_, fun a ha => ?_⟩
  · exact (perm_listed_allocate h p).nodup_iff.mpr (List.nodup_cons.mpr ⟨hn, hw.nodup⟩)
  · rw [(perm_listed_allocate h p).mem_iff, List.mem_cons, present_allocate, hw.mem_listed]
  · rintro a b ⟨o, ho, hb⟩
    rw [present_allocate]
    rw [store_allocate] at ho
    split at ho
    · cases ho
      exact .inr (hp b hb)
    · exact .inr (hw.closed a b ⟨o, ho, hb⟩)
  · rw [store_allocate] at ho
    split at ho
    · cases ho
      exact Nat.zero_le _
    · exact hw.marked a o ho
  · have hopt : h.options.generational = false := hg
    simp only [CollectedHeap.allocate, registerAllocation, increaseSize, hopt, Bool.false_eq_true,
      if_false]
    exact hw.young hopt
  · rcases (present_allocate h p a).mp ha with rfl | ha
    · exact Nat.lt_succ_self _
    · exact Nat.lt_succ_of_lt (hw.fresh a ha)

theorem setPayload (hw : h.WellFormed) (a : Addr) {p : Payload}
    (hp : ∀ b ∈ p.children, h.Present b) : (h.setPayload a p).WellFormed := by
  have hpresent : ∀ b, (h.setPayload a p).Present b ↔ h.Present b := fun b => by
    unfold Present CollectedHeap.setPayload
    by_cases hb : b = a
    · subst hb; simp
    · simp [Function.update_of_ne hb]
  have hobject : ∀ b o, (h.setPayload a p).store b = some o →
      ∃ o', h.store b = some o' ∧ o.marked = o'.marked ∧
        ∀ c ∈ o.payload.children, c ∈ o'.payload.children ∨ c ∈ p.children := fun b o ho => by
    simp only [CollectedHeap.setPayload] at ho
    by_cases hb : b = a
    · subst hb
      rw [Function.update_self, Option.map_eq_some_iff] at ho
      obtain ⟨o', ho', he⟩ := ho
      subst he
      exact ⟨o', ho', rfl, fun c hc => .inr hc⟩
    · rw [Function.update_of_ne hb] at ho
      exact ⟨o, ho, rfl, fun c hc => .inl hc⟩
  refine ⟨hw.nodup, fun b => (hw.mem_listed b).trans (hpresent b).symm, ?_, ?_, hw.young,
    fun b hb => hw.fresh b ((hpresent b).mp hb)⟩
  · rintro b c ⟨o, ho, hc⟩
    obtain ⟨o', ho', -, hsub⟩ := hobject b o ho
    rw [hpresent]
    rcases hsub c hc with hc | hc
    · exact hw.closed b c ⟨o', ho', hc⟩
    · exact hp c hc
  · intro b o ho
    obtain ⟨o', ho', hm, -⟩ := hobject b o ho
    rw [hm]
    exact hw.marked b o' ho'

end WellFormed
end CollectedHeap
end Beaverc

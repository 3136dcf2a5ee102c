import Beaverc.Generations
import Beaverc.Base.Results

/-!
# The byte count of the heap

`bytesCurrent` against what the heap holds. The mutators and the collector move
the count by themselves, at the constructor, at the destructor and in the two
sweeps; `Exact` says that the sum of these moves is the size of what is alive.

Four places break it: the constructor of a string tree adds nothing, `get` adds
a field without its size, `add_reference` adds what `size()` has counted at the
constructor, and `gcFast` does not subtract the list entry of what it deletes.
`bytesCurrent_exact` says that nothing else does: in a run without these steps
the count is exact after every operation.
-/

namespace Beaverc

/-! ## Totals -/

def total {α : Type} (cost : α → Nat) : List α → Nat
  | [] => 0
  | a :: rest => cost a + total cost rest

namespace TotalLemmas

variable {α : Type} {cost cost' : α → Nat}

theorem total_append (l l' : List α) : total cost (l ++ l') = total cost l + total cost l' := by
  induction l with
  | nil => simp [total]
  | cons a l ih => simp only [List.cons_append, total, ih, Nat.add_assoc]

theorem total_perm {l l' : List α} (hp : l.Perm l') : total cost l = total cost l' := by
  induction hp with
  | nil => rfl
  | cons a _ ih => simp only [total, ih]
  | swap a b l => simp only [total, Nat.add_left_comm]
  | trans _ _ ih₁ ih₂ => exact ih₁.trans ih₂

theorem total_congr {l : List α} (h : ∀ a ∈ l, cost a = cost' a) : total cost l =
    total cost' l := by
  induction l with
  | nil => rfl
  | cons a l ih =>
    rw [total, total, h a List.mem_cons_self, ih fun b hb => h b (List.mem_cons_of_mem _ hb)]

/-- Changing the cost of one member changes the total by as much. -/
theorem total_update {l : List α} {a : α} {k : Nat} (hn : l.Nodup) (ha : a ∈ l)
    (hk : cost' a = cost a + k) (hne : ∀ b, b ≠ a → cost' b = cost b) :
    total cost' l = total cost l + k := by
  induction l with
  | nil => exact absurd ha List.not_mem_nil
  | cons b l ih =>
    obtain ⟨hb, hn'⟩ := List.nodup_cons.mp hn
    simp only [total]
    rcases List.mem_cons.mp ha with rfl | ha
    · have hrest : total cost' l = total cost l :=
        total_congr fun c hc => hne c fun he => hb (he ▸ hc)
      rw [hk, hrest, Nat.add_right_comm]
    · rw [ih hn' ha, hne b fun he => hb (he ▸ ha), Nat.add_assoc]

theorem total_add (k : Nat) (l : List α) :
    total (fun a => cost a + k) l = total cost l + total (fun _ => k) l := by
  induction l with
  | nil => rfl
  | cons a l ih => simp only [total, ih, Nat.add_assoc, Nat.add_left_comm]

end TotalLemmas

open TotalLemmas

/-! ## What the heap holds -/

namespace CollectedHeap

/-- `size()` of the object at `a`. -/
def objectSize (sizes : Sizes) (st : Store) (a : Addr) : Nat :=
  match payloadAt st a with
  | some p => p.size sizes
  | none => 0

/-- An object and the pointer to it in a list of the heap. -/
def footprint (h : CollectedHeap) (a : Addr) : Nat :=
  objectSize h.options.sizes h.store a + h.options.sizes.pointer

/-- The bytes of the heap and of its live objects. -/
def liveBytes (h : CollectedHeap) : Nat :=
  h.options.sizes.collectedHeap + total h.footprint h.listed

/-- The count stands for `n` bytes. -/
def Counts (h : CollectedHeap) (n : Nat) : Prop :=
  h.bytesCurrent = UInt64.ofNat (n * overheadFactor)

/-- The accounting is exact. -/
def Exact (h : CollectedHeap) : Prop :=
  h.Counts h.liveBytes

instance (h : CollectedHeap) : Decidable h.Exact :=
  inferInstanceAs (Decidable (h.bytesCurrent = UInt64.ofNat (h.liveBytes * overheadFactor)))

/-! ## Runs -/

/-- What is done to a heap from outside. -/
inductive Operation where
  | allocate (p : Payload)
  | get (a : Addr) (key : String)
  | insert (a : Addr) (key : String) (inserted : Value)
  | write (a : Addr) (v : Value)
  | addReference (a reference : Addr)
  | gcFast (roots : List Addr)
  | gcFull (roots : List Addr)

def Operation.run : Operation → CollectedHeap → Except Stop CollectedHeap
  | .allocate p, h => .ok (h.allocate p).2
  | .get a key, h => (h.recordGet a key).map (·.2)
  | .insert a key inserted, h => h.recordInsert a key inserted
  | .write a v, h => h.referenceWrite a v
  | .addReference a reference, h => h.addReference a reference
  | .gcFast roots, h => (h.gcFast roots).map (·.1)
  | .gcFull roots, h => (h.gcFull roots).map (·.1)

/-- The runs of a heap: the steps, last first, and the heap they lead to. -/
inductive History (options : HeapOptions) : List (CollectedHeap × Operation) → CollectedHeap → Prop
  | empty : History options [] (CollectedHeap.empty options)
  | step {steps : List (CollectedHeap × Operation)} {h h' : CollectedHeap} {op : Operation} :
      History options steps h → op.run h = .ok h' → History options ((h, op) :: steps) h'

/-- `gcFast` does not delete the young object `a`: the counter still fits a mark,
and `a` has the new stamp already or is reached from the roots and the
remembered slots through young objects without it. -/
def Spared (h : CollectedHeap) (roots : List Addr) (a : Addr) : Prop :=
  h.generation.toNat + 1 < UInt32.size ∧
    (stamped (h.generation + 1).toUInt32 h.store a = true ∨
      DepthFirst.Reached (successors h.store)
        (fun b => isBlocked true h.store b || stamped (h.generation + 1).toUInt32 h.store b)
        (h.fastRoots roots) a)

/-- The steps that keep the books: no string tree is allocated, no absent key is
read, no reference is added, and `gcFast` finds nothing to delete. -/
def Operation.Booked (h : CollectedHeap) : Operation → Prop
  | .allocate p => ∀ left right, p ≠ .tree left right
  | .get a key => ∀ values, payloadAt h.store a = some (.record values) →
      (values.lookup key).isSome
  | .addReference _ _ => False
  | .gcFast roots => ∀ a ∈ h.recentlyAllocatedObjects, h.Spared roots a
  | _ => True

/-! ## The lists -/

/-- The lists hold every object once. Unlike `WellFormed` this outlives the
wrap of the generation counter. -/
structure Listed (h : CollectedHeap) : Prop where
  nodup : h.listed.Nodup
  mem_listed : ∀ a, a ∈ h.listed ↔ h.Present a
  fresh : ∀ a, h.Present a → a < h.next

open GenerationLemmas

/-- The heap that `gcFull` marks. -/
def spliced (h : CollectedHeap) : CollectedHeap :=
  if h.options.generational then
    { h with
      generation := h.generation + 1
      crossGenerationPointers := []
      oldObjects := h.oldObjects ++ h.recentlyAllocatedObjects
      recentlyAllocatedObjects := [] }
  else { h with generation := h.generation + 1 }

namespace AccountingLemmas

variable {h h' : CollectedHeap} {n k : Nat}

theorem counts_increaseSize (hc : h.Counts n) : (h.increaseSize k).Counts (n + k) := by
  unfold Counts increaseSize at *
  rw [Nat.add_mul, UInt64.ofNat_add, ← hc]

theorem counts_decreaseSize (hc : h.Counts (n + k)) : (h.decreaseSize k).Counts n := by
  unfold Counts decreaseSize at *
  rw [hc, Nat.add_mul, UInt64.ofNat_add, UInt64.add_sub_cancel]

/-! ## Objects and lists that stay -/

theorem objectSize_eq {sizes : Sizes} {st st' : Store} {a : Addr}
    (hp : payloadAt st' a = payloadAt st a) : objectSize sizes st' a = objectSize sizes st a := by
  simp only [objectSize, hp]

theorem footprint_eq {a : Addr} (ho : h'.options = h.options)
    (hp : payloadAt h'.store a = payloadAt h.store a) : h'.footprint a = h.footprint a := by
  rw [footprint, footprint, ho, objectSize_eq hp]

theorem present_iff_payloadAt {a : Addr} : h.Present a ↔ (payloadAt h.store a).isSome := by
  simp [Present, payloadAt]

/-- A step that keeps the objects, and the lists up to their order. -/
theorem listed_same (hl : h.Listed) (he : h'.listed.Perm h.listed) (hn : h'.next = h.next)
    (hp : ∀ a, h'.Present a ↔ h.Present a) : h'.Listed where
  nodup := he.nodup_iff.mpr hl.nodup
  mem_listed := fun a => by rw [he.mem_iff, hp, hl.mem_listed]
  fresh := fun a ha => hn ▸ hl.fresh a ((hp a).mp ha)

theorem liveBytes_same (ho : h'.options = h.options) (he : h'.listed.Perm h.listed)
    (hp : ∀ a, payloadAt h'.store a = payloadAt h.store a) : h'.liveBytes = h.liveBytes := by
  rw [liveBytes, liveBytes, total_perm he, ho]
  exact congrArg _ (total_congr fun a _ => footprint_eq ho (hp a))

/-! ## Payloads -/

theorem payloadAt_setPayload (a : Addr) (p : Payload) (b : Addr) :
    payloadAt (h.setPayload a p).store b =
      if b = a then (payloadAt h.store a).map fun _ => p else payloadAt h.store b := by
  by_cases hb : b = a
  · subst hb
    simp [setPayload, payloadAt, Function.comp_def]
  · simp [setPayload, payloadAt, hb]

theorem present_setPayload (a : Addr) (p : Payload) (b : Addr) :
    (h.setPayload a p).Present b ↔ h.Present b := by
  rw [present_iff_payloadAt, present_iff_payloadAt, payloadAt_setPayload]
  split
  · next he => simp [he]
  · rfl

theorem listed_setPayload (hl : h.Listed) (a : Addr) (p : Payload) : (h.setPayload a p).Listed :=
  listed_same hl (.refl _) rfl (present_setPayload a p)

/-- The live bytes grow with the payload of one object. -/
theorem liveBytes_setPayload (hl : h.Listed) {a : Addr} {p q : Payload}
    (hq : payloadAt h.store a = some q) (hk : p.size h.options.sizes = q.size h.options.sizes + k) :
    (h.setPayload a p).liveBytes = h.liveBytes + k := by
  have ha : a ∈ h.listed := (hl.mem_listed a).mpr (present_iff_payloadAt.mpr (by rw [hq]; rfl))
  have htotal : total (h.setPayload a p).footprint h.listed = total h.footprint h.listed + k := by
    refine total_update hl.nodup ha ?_ fun b hb => ?_
    · have hsize : objectSize h.options.sizes (h.setPayload a p).store a =
          p.size h.options.sizes := by
        simp [objectSize, payloadAt_setPayload, hq]
      have hsize' : objectSize h.options.sizes h.store a = q.size h.options.sizes := by
        simp [objectSize, hq]
      rw [footprint, footprint, show (h.setPayload a p).options = h.options from rfl, hsize, hsize',
        hk, Nat.add_right_comm]
    · exact footprint_eq rfl (by rw [payloadAt_setPayload, if_neg hb])
  rw [liveBytes, liveBytes, show (h.setPayload a p).listed = h.listed from rfl, htotal,
    show (h.setPayload a p).options = h.options from rfl, Nat.add_assoc]

theorem size_record (sizes : Sizes) (values : List (String × Value)) (n : Nat) :
    values.foldl (fun n p => n + sizes.field p.1) n =
      n + total (fun p : String × Value => sizes.field p.1) values := by
  induction values generalizing n with
  | nil => rfl
  | cons p values ih => rw [List.foldl_cons, ih, total, Nat.add_assoc]

/-- `values[key] = v` adds a field if and only if the key is new. -/
theorem size_assign (sizes : Sizes) (key : String) (v : Value) (values : List (String × Value)) :
    (Payload.record (assign key v values)).size sizes = (Payload.record values).size sizes +
      if (values.lookup key).isNone then sizes.field key else 0 := by
  simp only [Payload.size, size_record, Nat.add_assoc]
  congr 1
  induction values with
  | nil => simp [assign, total, List.lookup_nil]
  | cons p values ih =>
    obtain ⟨k, w⟩ := p
    by_cases hp : k = key
    · have hb : (key == k) = true := by simp [hp]
      simp [assign, hp, total]
    · have hb : (key == k) = false := by simpa using Ne.symm hp
      simp only [assign, if_neg hp, total, ih, List.lookup_cons, hb, Nat.add_assoc]

/-! ## The mutators -/

/-- The end of `insert` and `write` touches the remembered slots only. -/
theorem remember_same {a : Addr} {slot : Slot} {v : Value} (he : h.remember a slot v = .ok h') :
    h'.options = h.options ∧ h'.listed = h.listed ∧ h'.next = h.next ∧ h'.store = h.store ∧
      h'.bytesCurrent = h.bytesCurrent := by
  obtain ⟨cross, rfl, -⟩ := remember_cases he
  exact ⟨rfl, rfl, rfl, rfl, rfl⟩

/-- A step that leaves objects and count as `h` has them. -/
theorem exact_same (hl : h.Listed) (hx : h.Exact) (ho : h'.options = h.options)
    (he : h'.listed.Perm h.listed) (hn : h'.next = h.next)
    (hp : ∀ a, payloadAt h'.store a = payloadAt h.store a)
    (hb : h'.bytesCurrent = h.bytesCurrent) : h'.Listed ∧ h'.Exact ∧ h'.options = h.options := by
  refine ⟨listed_same hl he hn fun a => ?_, ?_, ho⟩
  · rw [present_iff_payloadAt, present_iff_payloadAt, hp]
  · unfold Exact Counts at *
    rw [liveBytes_same ho he hp, hb, hx]

theorem listed_allocate (hl : h.Listed) (p : Payload) : (h.allocate p).2.Listed := by
  have hn : h.next ∉ h.listed := fun hn => Nat.lt_irrefl _ (hl.fresh _ ((hl.mem_listed _).mp hn))
  have hperm := WellFormed.perm_listed_allocate h p
  refine ⟨hperm.nodup_iff.mpr (List.nodup_cons.mpr ⟨hn, hl.nodup⟩), fun a => ?_, fun a ha => ?_⟩
  · rw [hperm.mem_iff, List.mem_cons, WellFormed.present_allocate, hl.mem_listed]
  · rcases (WellFormed.present_allocate h p a).mp ha with rfl | ha
    · exact Nat.lt_succ_self _
    · exact Nat.lt_succ_of_lt (hl.fresh a ha)

theorem exact_allocate (hl : h.Listed) (hx : h.Exact) {p : Payload}
    (hp : ∀ left right, p ≠ .tree left right) : (h.allocate p).2.Exact := by
  have hn : h.next ∉ h.listed := fun hn => Nat.lt_irrefl _ (hl.fresh _ ((hl.mem_listed _).mp hn))
  have hsize : p.constructorSize h.options.sizes = p.size h.options.sizes := by
    cases p with
    | tree left right => exact absurd rfl (hp left right)
    | _ => rfl
  have hopt : (h.allocate p).2.options = h.options := rfl
  have hpay : ∀ a, payloadAt (h.allocate p).2.store a =
      if a = h.next then some p else payloadAt h.store a := fun a => by
    rw [payloadAt, WellFormed.store_allocate]
    split <;> rfl
  have hnew : (h.allocate p).2.footprint h.next =
      p.size h.options.sizes + h.options.sizes.pointer := by
    simp [footprint, objectSize, hpay, hopt]
  have hold : total (h.allocate p).2.footprint h.listed = total h.footprint h.listed :=
    total_congr fun a ha => footprint_eq hopt
      (by rw [hpay, if_neg fun he : a = h.next => hn (he ▸ ha)])
  have hlive : (h.allocate p).2.liveBytes =
      h.liveBytes + p.size h.options.sizes + h.options.sizes.pointer := by
    rw [liveBytes, total_perm (WellFormed.perm_listed_allocate h p), total, hnew, hold, hopt,
      liveBytes]
    omega
  have hstart : ({ h with
      store := Function.update h.store h.next (some ⟨false, 0, p⟩)
      next := h.next + 1 } : CollectedHeap).Counts h.liveBytes := hx
  unfold Exact
  rw [hlive, ← hsize]
  exact counts_increaseSize (counts_increaseSize hstart)

theorem exact_recordInsert (hl : h.Listed) (hx : h.Exact) {a : Addr} {key : String} {v : Value}
    (he : h.recordInsert a key v = .ok h') : h'.Listed ∧ h'.Exact ∧ h'.options = h.options := by
  simp only [recordInsert, deref] at he
  cases ho : h.store a with
  | none => rw [ho] at he; exact absurd he (by simp [bind, Except.bind])
  | some o =>
    rw [ho] at he
    cases hp : o.payload with
    | record values =>
      simp only [bind, Except.bind, hp] at he
      have hq : payloadAt h.store a = some (.record values) := by simp [payloadAt, ho, hp]
      -- the heap before the remembered slots are looked at
      have hset : ∀ h₁ : CollectedHeap, h₁.options = h.options → h₁.listed = h.listed →
          h₁.next = h.next → h₁.store = h.store →
          h₁.Counts (h.liveBytes +
            if (values.lookup key).isNone then h.options.sizes.field key else 0) →
          (h₁.setPayload a (.record (assign key v values))).remember a (.field a key) v = .ok h' →
          h'.Listed ∧ h'.Exact ∧ h'.options = h.options := by
        intro h₁ hopt hlst hnext hstore hcount hr
        obtain ⟨ho', hl', hn', hs', hb'⟩ := remember_same hr
        have hl₁ : h₁.Listed := listed_same hl (.of_eq hlst) hnext fun b => by
          rw [present_iff_payloadAt, present_iff_payloadAt, hstore]
        have hlive : h₁.liveBytes = h.liveBytes :=
          liveBytes_same hopt (.of_eq hlst) fun b => by rw [hstore]
        have hx₁ : (h₁.setPayload a (.record (assign key v values))).Exact := by
          unfold Exact
          rw [liveBytes_setPayload hl₁ (by rw [hstore]; exact hq) (size_assign _ key v values),
            hlive, hopt]
          exact hcount
        obtain ⟨hl'', hx'', ho''⟩ := exact_same (listed_setPayload hl₁ a _) hx₁ ho' (.of_eq hl') hn'
          (fun b => by rw [hs']) hb'
        exact ⟨hl'', hx'', ho''.trans hopt⟩
      split at he
      · next hk =>
        refine hset (h.increaseSize (h.options.sizes.field key)) rfl rfl rfl rfl ?_ he
        rw [if_pos hk]
        exact counts_increaseSize hx
      · next hk =>
        refine hset h rfl rfl rfl rfl ?_ he
        rw [if_neg hk]
        exact hx
    | _ => simp only [bind, Except.bind, hp] at he; exact absurd he (by simp)

theorem exact_referenceWrite (hl : h.Listed) (hx : h.Exact) {a : Addr} {v : Value}
    (he : h.referenceWrite a v = .ok h') : h'.Listed ∧ h'.Exact ∧ h'.options = h.options := by
  simp only [referenceWrite, deref] at he
  cases ho : h.store a with
  | none => rw [ho] at he; exact absurd he (by simp [bind, Except.bind])
  | some o =>
    rw [ho] at he
    cases hp : o.payload with
    | reference w =>
      simp only [bind, Except.bind, hp] at he
      obtain ⟨ho', hl', hn', hs', hb'⟩ := remember_same he
      have hq : payloadAt h.store a = some (.reference w) := by simp [payloadAt, ho, hp]
      have hset : (h.setPayload a (.reference v)).Exact := by
        unfold Exact
        rw [liveBytes_setPayload (k := 0) hl hq rfl]
        exact hx
      have hlset := listed_setPayload hl a (.reference v)
      obtain ⟨hl'', hx'', ho''⟩ := exact_same hlset hset ho' (.of_eq hl') hn'
        (fun b => by rw [hs']) hb'
      exact ⟨hl'', hx'', ho''⟩
    | _ => simp only [bind, Except.bind, hp] at he; exact absurd he (by simp)

/-- Reading a key that is there changes nothing. -/
theorem recordGet_present {a : Addr} {key : String} {v : Value}
    (hk : ∀ values, payloadAt h.store a = some (.record values) → (values.lookup key).isSome)
    (he : h.recordGet a key = .ok (v, h')) : h' = h := by
  simp only [recordGet, deref] at he
  cases ho : h.store a with
  | none => rw [ho] at he; exact absurd he (by simp [bind, Except.bind])
  | some o =>
    rw [ho] at he
    cases hp : o.payload with
    | record values =>
      obtain ⟨w, hw⟩ := Option.isSome_iff_exists.mp (hk values (by simp [payloadAt, ho, hp]))
      simp only [bind, Except.bind, hp, hw] at he
      cases he
      rfl
    | _ => simp only [bind, Except.bind, hp] at he; exact absurd he (by simp)

/-! ## The mark phase -/

/-- What marking does to a store: the objects stay but for their marks, the
stamped ones stay stamped, and what it stamps it has searched. -/
structure Marked (stamp : UInt32) (recent : Bool) (st st' : Store) : Prop where
  payload : ∀ a, payloadAt st' a = payloadAt st a
  old : ∀ a, isBlocked recent st' a = isBlocked recent st a
  grows : ∀ a, stamped stamp st a = true → stamped stamp st' a = true
  closed : ∀ a, stamped stamp st' a = true → stamped stamp st a = false →
    ∀ p, payloadAt st a = some p → ∀ c ∈ p.children,
      stamped stamp st' c = true ∨ isBlocked recent st c = true

variable {stamp : UInt32} {recent : Bool} {st st' st'' : Store}

theorem marked_refl : Marked stamp recent st st :=
  ⟨fun _ => rfl, fun _ => rfl, fun _ h => h,
    fun _ h h' => by rw [h] at h'; exact Bool.noConfusion h'⟩

theorem marked_trans (h₁ : Marked stamp recent st st') (h₂ : Marked stamp recent st' st'') :
    Marked stamp recent st st'' where
  payload := fun a => (h₂.payload a).trans (h₁.payload a)
  old := fun a => (h₂.old a).trans (h₁.old a)
  grows := fun a h => h₂.grows a (h₁.grows a h)
  closed := fun a h h' p hp c hc => by
    cases hm : stamped stamp st' a with
    | true => exact (h₁.closed a hm h' p hp c hc).imp (h₂.grows c) id
    | false =>
      have := h₂.closed a h hm p (by rw [h₁.payload, hp]) c hc
      rwa [h₁.old] at this

/-- Folding a step that marks. -/
theorem foldlM_marked {α : Type} (target : Store → α → Addr → Prop)
    {f : Store → α → Except Stop Store}
    (ht : ∀ st st' c a, Marked stamp recent st st' → target st c a → target st' c a)
    (hf : ∀ st st' c, f st c = .ok st' → Marked stamp recent st st' ∧
      ∀ a, target st c a → stamped stamp st' a = true ∨ isBlocked recent st a = true)
    (cs : List α) (he : cs.foldlM f st = .ok st') : Marked stamp recent st st' ∧
      ∀ c ∈ cs, ∀ a, target st c a → stamped stamp st' a = true ∨ isBlocked recent st a = true := by
  induction cs generalizing st with
  | nil =>
    cases he
    exact ⟨marked_refl, fun _ h => absurd h List.not_mem_nil⟩
  | cons c cs ih =>
    rw [List.foldlM_cons] at he
    cases hfc : f st c with
    | error e => rw [hfc] at he; exact absurd he (by simp [bind, Except.bind])
    | ok st₁ =>
      rw [hfc] at he
      obtain ⟨h₁, hc₁⟩ := hf st st₁ c hfc
      obtain ⟨h₂, hc₂⟩ := ih he
      refine ⟨marked_trans h₁ h₂, fun d hd a ha => ?_⟩
      rcases List.mem_cons.mp hd with rfl | hd
      · exact (hc₁ a ha).imp (h₂.grows a) id
      · have := hc₂ d hd a (ht st st₁ d a h₁ ha)
        rwa [h₁.old] at this

/-- A mark that returns has stamped its object or stopped at an old one. -/
theorem mark_marked {depth : Nat} {a : Addr} (he : mark stamp recent depth st a = .ok st') :
    Marked stamp recent st st' ∧
      (stamped stamp st' a = true ∨ isBlocked recent st a = true) := by
  induction depth generalizing st st' a with
  | zero => exact absurd he (by simp [mark])
  | succ depth ih =>
    simp only [mark] at he
    cases ho : st a with
    | none => rw [ho] at he; exact absurd he (by simp)
    | some o =>
      simp only [ho] at he
      split at he
      · next ht =>
        cases he
        refine ⟨marked_refl, ?_⟩
        rcases Bool.or_eq_true_iff.mp ht with h | h
        · exact .inl (by simpa [stamped, ho] using h)
        · exact .inr (by simpa [isBlocked, ho] using h)
      · next ht =>
        -- the children are marked in the store where `a` has its stamp
        obtain ⟨hm, hc⟩ := foldlM_marked (fun _ c b => c = b)
          (fun _ _ _ _ _ h => h) (fun _ _ c h => by
            obtain ⟨h₁, h₂⟩ := ih h
            exact ⟨h₁, fun b hb => hb ▸ h₂⟩) _ he
        set st₁ := Function.update st a (some { o with marked := stamp }) with hst₁
        have hpay : ∀ b, payloadAt st₁ b = payloadAt st b := fun b => by
          by_cases hb : b = a
          · subst hb; simp [hst₁, payloadAt, ho]
          · simp [hst₁, payloadAt, Function.update_of_ne hb]
        have hold : ∀ b, isBlocked recent st₁ b = isBlocked recent st b := fun b => by
          by_cases hb : b = a
          · subst hb; simp [hst₁, isBlocked, ho]
          · simp [hst₁, isBlocked, Function.update_of_ne hb]
        have hself : stamped stamp st₁ a = true := by simp [hst₁, stamped]
        have hother : ∀ b, b ≠ a → stamped stamp st₁ b = stamped stamp st b := fun b hb => by
          simp [hst₁, stamped, Function.update_of_ne hb]
        refine ⟨⟨fun b => (hm.payload b).trans (hpay b), fun b => (hm.old b).trans (hold b),
          fun b hb => hm.grows b ?_, fun b hb hb' p hp c hcm => ?_⟩, .inl (hm.grows a hself)⟩
        · by_cases hba : b = a
          · rw [hba, hself]
          · rw [hother b hba, hb]
        · by_cases hba : b = a
          · subst hba
            have hpo : p = o.payload := by simpa [payloadAt, ho] using hp.symm
            have := hc c (hpo ▸ hcm) c rfl
            rwa [hold] at this
          · have := hm.closed b hb (by rw [hother b hba, hb']) p (by rw [hpay, hp]) c hcm
            rwa [hold] at this

theorem markSlot_marked {depth : Nat} {slot : Slot} (he : markSlot stamp depth st slot = .ok st') :
    Marked stamp true st st' ∧ ∀ a, (readSlot st slot).bind Value.pointer? = some a →
      stamped stamp st' a = true ∨ isBlocked true st a = true := by
  simp only [markSlot] at he
  cases hr : readSlot st slot with
  | none => rw [hr] at he; exact absurd he (by simp)
  | some v =>
    simp only [hr] at he
    cases hv : v.pointer? with
    | none =>
      simp only [hv] at he
      cases he
      exact ⟨marked_refl, fun a ha => by simp [hv] at ha⟩
    | some b =>
      simp only [hv] at he
      obtain ⟨hm, hb⟩ := mark_marked he
      refine ⟨hm, fun a ha => ?_⟩
      have hab : b = a := by simpa [hv] using ha
      exact hab ▸ hb

theorem readSlot_marked (hm : Marked stamp recent st st') (slot : Slot) :
    readSlot st' slot = readSlot st slot := by
  simp only [readSlot, hm.payload]

/-- The mark phase of `gcFast` stamps what its roots reach among the young. -/
theorem stamped_of_reached {roots : List Addr} (hm : Marked stamp true st st')
    (hr : ∀ a ∈ roots, stamped stamp st' a = true ∨ isBlocked true st a = true) {a : Addr}
    (ha : DepthFirst.Reached (successors st)
      (fun b => isBlocked true st b || stamped stamp st b) roots a) :
    stamped stamp st' a = true := by
  obtain ⟨r, hrm, hb, hpath⟩ := ha
  have hfree : ∀ b, (isBlocked true st b || stamped stamp st b) = false →
      isBlocked true st b = false ∧ stamped stamp st b = false := fun b hb => by simpa using hb
  -- along the path every node is stamped, and was neither old nor stamped before
  have : stamped stamp st' a = true ∧ stamped stamp st a = false := by
    induction hpath with
    | refl =>
      refine ⟨(hr r hrm).resolve_right ?_, (hfree r hb).2⟩
      rw [(hfree r hb).1]
      exact Bool.false_ne_true
    | tail _ hedge ih =>
      obtain ⟨children, hs, hc, hbc⟩ := hedge
      obtain ⟨o, ho, rfl⟩ := Option.map_eq_some_iff.mp hs
      refine ⟨(hm.closed _ ih.1 ih.2 o.payload (by simp [payloadAt, ho]) _ hc).resolve_right ?_,
        (hfree _ hbc).2⟩
      rw [(hfree _ hbc).1]
      exact Bool.false_ne_true
  exact this.1

/-! ## The sweep -/

theorem sweep_kept_subset {overhead : Nat} {swept kept deleted : List Addr}
    (he : h.sweep overhead swept = .ok (h', kept, deleted)) : ∀ a ∈ kept, a ∈ swept := by
  induction swept generalizing h h' kept deleted with
  | nil =>
    cases he
    exact fun _ h => h
  | cons a swept ih =>
    simp only [sweep, bind, Except.bind] at he
    cases hd : h.deref a with
    | error e => rw [hd] at he; exact absurd he (by simp)
    | ok o =>
      simp only [hd] at he
      split at he <;> split at he
      · exact absurd he (by simp)
      · next hs =>
        cases he
        exact fun b hb => List.mem_cons_of_mem _ (ih hs b hb)
      · exact absurd he (by simp)
      · next hs =>
        cases he
        exact fun b hb => (List.mem_cons.mp hb).elim (fun h => h ▸ List.mem_cons_self)
          fun hb => List.mem_cons_of_mem _ (ih hs b hb)

/-- What a sweep subtracts is the size of what it deletes. -/
theorem sweep_counts {overhead rest : Nat} {swept kept deleted : List Addr} (hn : swept.Nodup)
    (he : h.sweep overhead swept = .ok (h', kept, deleted))
    (hc : h.Counts (rest +
      total (fun a => objectSize h.options.sizes h.store a + overhead) swept)) :
    h'.Counts (rest + total (fun a => objectSize h.options.sizes h.store a + overhead) kept) := by
  induction swept generalizing h h' rest kept deleted with
  | nil =>
    cases he
    exact hc
  | cons a swept ih =>
    obtain ⟨ha, hn'⟩ := List.nodup_cons.mp hn
    simp only [sweep, deref] at he
    cases ho : h.store a with
    | none => rw [ho] at he; exact absurd he (by simp [bind, Except.bind])
    | some o =>
      simp only [ho, bind, Except.bind] at he
      have hsize : objectSize h.options.sizes h.store a = o.payload.size h.options.sizes := by
        simp [objectSize, payloadAt, ho]
      rw [total] at hc
      -- the sizes of the other objects are those of `h`
      have hsame : ∀ h₁ : CollectedHeap, h₁.options = h.options →
          (∀ b, b ≠ a → h₁.store b = h.store b) → ∀ l : List Addr, a ∉ l →
          total (fun b => objectSize h₁.options.sizes h₁.store b + overhead) l =
            total (fun b => objectSize h.options.sizes h.store b + overhead) l := by
        intro h₁ hopt hst l hl
        refine total_congr fun b hb => ?_
        have hba : b ≠ a := fun he => hl (he ▸ hb)
        have hpay : payloadAt h₁.store b = payloadAt h.store b := by
          simp only [payloadAt, hst b hba]
        rw [hopt, objectSize_eq hpay]
      have hsub : ∀ {h₁ h₂ : CollectedHeap} {l d : List Addr},
          h₁.sweep overhead swept = .ok (h₂, l, d) → a ∉ l := fun hs hm =>
            ha (sweep_kept_subset hs _ hm)
      split at he
      · -- `a` is deleted
        cases hs : sweep overhead swept ((h.delete a o).decreaseSize overhead) with
        | error e => rw [hs] at he; exact absurd he (by simp)
        | ok r =>
          obtain ⟨h₂, l, d⟩ := r
          rw [hs] at he
          cases he
          have hst : ∀ b, b ≠ a → ((h.delete a o).decreaseSize overhead).store b = h.store b :=
            fun b hb => Function.update_of_ne hb ..
          have hstart : h.Counts (rest + total (fun b =>
              objectSize h.options.sizes h.store b + overhead) swept + overhead +
              o.payload.size h.options.sizes) := by
            rw [hsize] at hc
            convert hc using 1
            omega
          have hdel : ((h.delete a o).decreaseSize overhead).Counts (rest + total (fun b =>
              objectSize h.options.sizes h.store b + overhead) swept) :=
            counts_decreaseSize (h := h.delete a o) (counts_decreaseSize hstart)
          rw [← hsame ((h.delete a o).decreaseSize overhead) rfl hst _ ha] at hdel
          rw [← hsame ((h.delete a o).decreaseSize overhead) rfl hst _ (hsub hs)]
          exact ih hn' hs hdel
      · -- `a` survives
        cases hs : sweep overhead swept
            { h with store := Function.update h.store a (some { o with isOld := true }) } with
        | error e => rw [hs] at he; exact absurd he (by simp)
        | ok r =>
          obtain ⟨h₂, l, d⟩ := r
          rw [hs] at he
          cases he
          have hst : ∀ b, b ≠ a → Function.update h.store a (some { o with isOld := true }) b =
              h.store b := fun b hb => Function.update_of_ne hb ..
          have hsame' := hsame
            { h with store := Function.update h.store a (some { o with isOld := true }) } rfl hst
          rw [← Nat.add_assoc] at hc
          rw [total, ← Nat.add_assoc, ← hsame' _ (hsub hs)]
          refine ih hn' hs ?_
          rw [hsame' _ ha]
          exact hc

/-- A sweep that subtracts the list entries too, or that deletes nothing. -/
theorem sweep_exact {overhead : Nat} {unswept swept kept deleted : List Addr} {h₁ : CollectedHeap}
    (hl : h.Listed) (hx : h.Exact) (hperm : h.listed.Perm (unswept ++ swept))
    (he : h.sweep overhead swept = .ok (h₁, kept, deleted))
    (hov : overhead = h.options.sizes.pointer ∨
      overhead = 0 ∧ ∀ a ∈ swept, h.survives a = true)
    (ho : h'.options = h₁.options) (hn : h'.next = h₁.next) (hs : h'.store = h₁.store)
    (hb : h'.bytesCurrent = h₁.bytesCurrent) (hl' : SameLists h h₁ →
      h'.listed.Perm (unswept ++ kept)) :
    h'.Listed ∧ h'.Exact ∧ h'.options = h.options := by
  have hnodup : (unswept ++ swept).Nodup := hperm.nodup_iff.mp hl.nodup
  -- the lists name every present object once
  have hpres : ∀ a, h.Present a ↔ a ∈ unswept ∨ a ∈ swept := fun a => by
    rw [← hl.mem_listed, hperm.mem_iff, List.mem_append]
  obtain ⟨h₂, he₂, hst, hsame⟩ := sweep_eq overhead swept h (List.nodup_append.mp hnodup).2.1
    fun a ha => (hpres a).mpr (.inr ha)
  cases he.symm.trans he₂
  have hl' := hl' hsame
  have hdisj : ∀ a ∈ unswept, a ∉ swept := fun a h₁ h₂ =>
    (List.nodup_append.mp hnodup).2.2 a h₁ a h₂ rfl
  have hstore : ∀ a, h'.store a = h.sweptStore swept a := fun a => by rw [hs, hst]
  have hopt : h'.options = h.options := ho.trans hsame.options
  -- what is kept keeps its payload, so its footprint
  have hkept : ∀ a ∈ unswept ++ swept.filter h.survives,
      payloadAt h'.store a = payloadAt h.store a := by
    intro a ha
    simp only [payloadAt, hstore, sweptStore]
    rcases List.mem_append.mp ha with ha | ha
    · rw [if_neg (hdisj a ha)]
    · obtain ⟨ha, hsv⟩ := List.mem_filter.mp ha
      rw [if_pos ha, if_pos hsv, Option.map_map]
      rfl
  have hlive : h'.liveBytes = h.options.sizes.collectedHeap +
      (total h.footprint unswept + total h.footprint (swept.filter h.survives)) := by
    rw [liveBytes, hopt, total_perm hl', ← total_append]
    exact congrArg _ (total_congr fun a ha => footprint_eq hopt (hkept a ha))
  have hlive₀ : h.liveBytes = h.options.sizes.collectedHeap +
      (total h.footprint unswept + total h.footprint swept) := by
    rw [liveBytes, total_perm hperm, total_append]
  refine ⟨⟨?_, fun a => ?_, fun a ha => ?_⟩, ?_, hopt⟩
  · refine hl'.nodup_iff.mpr (hnodup.sublist ?_)
    exact (List.Sublist.refl _).append List.filter_sublist
  · have hp : h'.Present a ↔ h.Present a ∧ (a ∈ swept → h.survives a = true) := by
      unfold Present
      rw [hstore, sweptStore]
      split
      · next ha => cases h.survives a <;> simp [ha]
      · next ha => simp [ha]
    rw [hl'.mem_iff, hp, hpres, List.mem_append, List.mem_filter]
    have := hdisj a
    tauto
  · have hp : h.Present a := by
      unfold Present at ha ⊢
      rw [hstore, sweptStore] at ha
      split at ha
      · next hm => exact (hpres a).mpr (.inr hm)
      · exact ha
    rw [hn, hsame.next]
    exact hl.fresh a hp
  · have hcount : h₁.Counts h'.liveBytes := by
      rw [hlive, ← Nat.add_assoc]
      unfold Exact at hx
      rw [hlive₀, ← Nat.add_assoc] at hx
      rcases hov with rfl | ⟨rfl, hall⟩
      · exact sweep_counts (List.nodup_append.mp hnodup).2.1 he hx
      · -- nothing is deleted, so the entries that are not subtracted are still there
        have hfilter : swept.filter h.survives = swept := List.filter_eq_self.mpr hall
        have hsplit : total h.footprint swept =
            total (fun _ => h.options.sizes.pointer) swept +
              total (fun a => objectSize h.options.sizes h.store a) swept :=
          (total_add _ _).trans (Nat.add_comm _ _)
        rw [hsplit, ← Nat.add_assoc] at hx
        rw [hfilter, hsplit, ← Nat.add_assoc]
        have := sweep_counts (List.nodup_append.mp hnodup).2.1 he hx
        rwa [hfilter] at this
    unfold Exact Counts at *
    rw [hb, hcount]

/-! ## The collections -/

theorem spliced_same (h : CollectedHeap) : h.spliced.options = h.options ∧
    h.spliced.listed.Perm h.listed ∧ h.spliced.next = h.next ∧ h.spliced.store = h.store ∧
    h.spliced.bytesCurrent = h.bytesCurrent := by
  unfold spliced
  split
  · refine ⟨rfl, ?_, rfl, rfl, rfl⟩
    rw [listed, List.nil_append]
    exact List.perm_append_comm
  · exact ⟨rfl, .refl _, rfl, rfl, rfl⟩

theorem gcFull_ok {roots deleted : List Addr} (he : h.gcFull roots = .ok (h', deleted)) :
    ∃ st h₁ kept,
      roots.foldlM (mark h.spliced.generation.toUInt32 false h.spliced.depthBound)
        h.spliced.store = .ok st ∧
      sweep h.options.sizes.pointer h.spliced.oldObjects { h.spliced with store := st } =
        .ok (h₁, kept, deleted) ∧ h' = { h₁ with oldObjects := kept } := by
  have he' : (roots.foldlM (mark h.spliced.generation.toUInt32 false h.spliced.depthBound)
      h.spliced.store >>= fun st =>
        sweep h.spliced.options.sizes.pointer h.spliced.oldObjects
          { h.spliced with store := st } >>=
          fun r => Except.ok ({ r.1 with oldObjects := r.2.1 }, r.2.2)) = .ok (h', deleted) := he
  obtain ⟨st, hm, he⟩ := Results.bind_ok.mp he'
  obtain ⟨⟨h₁, kept, d⟩, hs, he⟩ := Results.bind_ok.mp he
  cases he
  rw [(spliced_same h).1] at hs
  exact ⟨st, h₁, kept, hm, hs, rfl⟩

theorem exact_gcFull (hl : h.Listed) (hx : h.Exact) {roots deleted : List Addr}
    (he : h.gcFull roots = .ok (h', deleted)) : h'.Listed ∧ h'.Exact ∧ h'.options = h.options := by
  obtain ⟨st, h₁, kept, hm, hs, rfl⟩ := gcFull_ok he
  obtain ⟨hopt, hperm, hnext, hstore, hbytes⟩ := spliced_same h
  obtain ⟨hmark, -⟩ := foldlM_marked (fun _ c b => c = b) (fun _ _ _ _ _ h => h)
    (fun _ _ c h => ⟨(mark_marked h).1, fun b hb => hb ▸ (mark_marked h).2⟩) roots hm
  set g : CollectedHeap := { h.spliced with store := st } with hg
  have hstart : g.Listed ∧ g.Exact ∧ g.options = h.options := exact_same hl hx hopt hperm hnext
    (fun a => by rw [← hstore]; exact hmark.payload a) hbytes
  obtain ⟨hgl, hgx, hgo⟩ := hstart
  set h' : CollectedHeap := { h₁ with oldObjects := kept } with hh'
  have hend : h'.Listed ∧ h'.Exact ∧ h'.options = g.options := sweep_exact hgl hgx (.refl _) hs
    (.inl (by rw [← hopt])) rfl rfl rfl rfl fun hsame => by
      rw [hh', listed, hsame.recentlyAllocatedObjects]
  exact ⟨hend.1, hend.2.1, hend.2.2.trans hgo⟩

theorem gcFast_ok {roots deleted : List Addr} (he : h.gcFast roots = .ok (h', deleted)) :
    ∃ st st' h₁ kept,
      roots.foldlM (mark (h.generation + 1).toUInt32 true h.depthBound) h.store = .ok st ∧
      h.crossGenerationPointers.foldlM (markSlot (h.generation + 1).toUInt32 h.depthBound) st =
        .ok st' ∧
      sweep 0 h.recentlyAllocatedObjects
        { h with generation := h.generation + 1, store := st', crossGenerationPointers := [] } =
        .ok (h₁, kept, deleted) ∧
      h' = { h₁ with recentlyAllocatedObjects := [], oldObjects := h₁.oldObjects ++ kept } := by
  unfold gcFast at he
  obtain ⟨st, hm, he⟩ := Results.bind_ok.mp he
  obtain ⟨st', hm', he⟩ := Results.bind_ok.mp he
  obtain ⟨⟨h₁, kept, d⟩, hs, he⟩ := Results.bind_ok.mp he
  cases he
  exact ⟨st, st', h₁, kept, hm, hm', hs, rfl⟩

/-- A stamp is read back as the counter while that fits 32 bits. -/
theorem toUInt64_stamp (hg : h.generation.toNat + 1 < UInt32.size) :
    (h.generation + 1).toUInt32.toUInt64 = h.generation + 1 := by
  apply UInt64.toNat_inj.mp
  rw [UInt32.toNat_toUInt64, toNat_stamp hg, toNat_nextGeneration (by omega)]

theorem exact_gcFast (hl : h.Listed) (hx : h.Exact) {roots deleted : List Addr}
    (hk : ∀ a ∈ h.recentlyAllocatedObjects, h.Spared roots a)
    (he : h.gcFast roots = .ok (h', deleted)) : h'.Listed ∧ h'.Exact ∧ h'.options = h.options := by
  obtain ⟨st, st', h₁, kept, hm, hm', hs, rfl⟩ := gcFast_ok he
  obtain ⟨h₁', hroots⟩ := foldlM_marked (fun _ c b => c = b) (fun _ _ _ _ _ h => h)
    (fun _ _ c h => ⟨(mark_marked h).1, fun b hb => hb ▸ (mark_marked h).2⟩) roots hm
  obtain ⟨h₂', hslots⟩ := foldlM_marked
    (fun st slot a => (readSlot st slot).bind Value.pointer? = some a)
    (fun _ _ slot a h ha => by rw [readSlot_marked h slot]; exact ha)
    (fun _ _ _ h => markSlot_marked h) h.crossGenerationPointers hm'
  have hmark := marked_trans h₁' h₂'
  -- the roots of the search: those passed in, and what the remembered slots hold
  have hfast : ∀ a ∈ h.fastRoots roots, stamped (h.generation + 1).toUInt32 st' a = true ∨
      isBlocked true h.store a = true := by
    intro a ha
    rcases List.mem_append.mp ha with ha | ha
    · exact (hroots a ha a rfl).imp (h₂'.grows a) id
    · obtain ⟨slot, hslot, htarget⟩ := List.mem_filterMap.mp ha
      have := hslots slot hslot a (by rw [readSlot_marked h₁' slot]; exact htarget)
      rwa [h₁'.old] at this
  set g : CollectedHeap :=
    { h with generation := h.generation + 1, store := st', crossGenerationPointers := [] } with hg
  have hstart : g.Listed ∧ g.Exact ∧ g.options = h.options :=
    exact_same hl hx rfl (.refl _) rfl hmark.payload rfl
  obtain ⟨hgl, hgx, hgo⟩ := hstart
  have hkeep : ∀ a ∈ h.recentlyAllocatedObjects, g.survives a = true := by
    intro a ha
    obtain ⟨hgen, hstamp⟩ := hk a ha
    have hst : stamped (h.generation + 1).toUInt32 st' a = true :=
      hstamp.elim (hmark.grows a) (stamped_of_reached hmark hfast)
    unfold survives
    unfold stamped at hst
    cases ho : st' a with
    | none => rw [ho] at hst; exact absurd hst (by simp)
    | some o =>
      rw [ho] at hst
      have hmo : o.marked = (h.generation + 1).toUInt32 := of_decide_eq_true hst
      simp only [hg, ho, Option.any_some, hmo, toUInt64_stamp hgen, decide_true]
  set h' : CollectedHeap :=
    { h₁ with recentlyAllocatedObjects := [], oldObjects := h₁.oldObjects ++ kept } with hh'
  have hend : h'.Listed ∧ h'.Exact ∧ h'.options = g.options :=
    sweep_exact hgl hgx List.perm_append_comm hs (.inr ⟨rfl, hkeep⟩) rfl rfl rfl rfl
      fun hsame => by rw [hh', listed, List.nil_append, hsame.oldObjects]
  exact ⟨hend.1, hend.2.1, hend.2.2.trans hgo⟩

/-- A step that keeps the books keeps the accounting exact. -/
theorem exact_run {op : Operation} (hl : h.Listed) (hx : h.Exact) (hb : op.Booked h)
    (he : op.run h = .ok h') : h'.Listed ∧ h'.Exact ∧ h'.options = h.options := by
  cases op with
  | allocate p =>
    cases he
    exact ⟨listed_allocate hl p, exact_allocate hl hx hb, rfl⟩
  | get a key =>
    obtain ⟨⟨v, h₁⟩, hg, rfl⟩ := Results.map_ok.mp he
    obtain rfl : h₁ = h := recordGet_present hb hg
    exact ⟨hl, hx, rfl⟩
  | insert a key inserted => exact exact_recordInsert hl hx he
  | write a v => exact exact_referenceWrite hl hx he
  | addReference a reference => exact absurd hb id
  | gcFast roots =>
    obtain ⟨⟨h₁, deleted⟩, hg, rfl⟩ := Results.map_ok.mp he
    exact exact_gcFast hl hx hb hg
  | gcFull roots =>
    obtain ⟨⟨h₁, deleted⟩, hg, rfl⟩ := Results.map_ok.mp he
    exact exact_gcFull hl hx hg

theorem exact_empty (options : HeapOptions) :
    (CollectedHeap.empty options).Listed ∧ (CollectedHeap.empty options).Exact := by
  refine ⟨⟨List.nodup_nil, fun a => ?_, fun a ha => ?_⟩, ?_⟩
  · simp [listed, Present, CollectedHeap.empty, increaseSize]
  · simp [Present, CollectedHeap.empty, increaseSize] at ha
  · simp [Exact, Counts, liveBytes, listed, total, CollectedHeap.empty, increaseSize]

theorem exact_history {options : HeapOptions} {steps : List (CollectedHeap × Operation)}
    (hr : History options steps h) (hb : ∀ step ∈ steps, step.2.Booked step.1) :
    h.Listed ∧ h.Exact ∧ h.options = options := by
  induction hr with
  | empty =>
    obtain ⟨hl, hx⟩ := exact_empty options
    exact ⟨hl, hx, rfl⟩
  | step hr he ih =>
    obtain ⟨hl, hx, ho⟩ := ih fun step hs => hb step (List.mem_cons_of_mem _ hs)
    obtain ⟨hl', hx', ho'⟩ := exact_run hl hx (hb _ List.mem_cons_self) he
    exact ⟨hl', hx', ho'.trans ho⟩

end AccountingLemmas

open AccountingLemmas

/-! ## Runs that keep the books -/

/-- In a run whose steps all keep the books the count is `overheadFactor` times
the bytes of the heap and of its live objects. As long as that fits a `size_t`
nothing has wrapped, and an empty heap has the count it was made with. -/
theorem bytesCurrent_exact (options : HeapOptions) (steps : List (CollectedHeap × Operation))
    (h : CollectedHeap) (hr : History options steps h)
    (hb : ∀ step ∈ steps, step.2.Booked step.1) :
    h.Exact ∧
      (h.liveBytes * overheadFactor < UInt64.size →
        h.bytesCurrent.toNat = h.liveBytes * overheadFactor) ∧
      ((∀ a, ¬ h.Present a) → h.bytesCurrent = (CollectedHeap.empty options).bytesCurrent) := by
  obtain ⟨hl, hx, ho⟩ := exact_history hr hb
  refine ⟨hx, fun hlt => ?_, fun hnone => ?_⟩
  · unfold Exact Counts at hx
    rw [hx, UInt64.toNat_ofNat']
    exact Nat.mod_eq_of_lt hlt
  · have hnil : h.listed = [] :=
      List.eq_nil_iff_forall_not_mem.mpr fun a ha => hnone a ((hl.mem_listed a).mp ha)
    have hx₀ := (exact_empty options).2
    unfold Exact Counts at hx hx₀
    rw [hx, hx₀, liveBytes, hnil, ho]
    rfl

/-- A record gets a field, and is deleted by a full collection. -/
theorem bytesCurrent_exact_record :
    ∃ steps h, History (.x64 true true) steps h ∧ steps.length = 3 ∧
      (h.Exact ∧
        (h.liveBytes * overheadFactor < UInt64.size →
          h.bytesCurrent.toNat = h.liveBytes * overheadFactor) ∧
        ((∀ a, ¬ h.Present a) →
          h.bytesCurrent = (CollectedHeap.empty (.x64 true true)).bytesCurrent)) := by
  have h₁ : History (.x64 true true) [] _ := .empty
  have h₂ : History (.x64 true true) [(_, .allocate (.record []))] _ := h₁.step rfl
  have h₃ : History (.x64 true true) ((_, .insert 0 "x" (.integer 1)) :: _) _ := h₂.step rfl
  have h₄ : History (.x64 true true) ((_, .gcFull []) :: _) _ := h₃.step rfl
  refine ⟨_, _, h₄, rfl, bytesCurrent_exact _ _ _ h₄ fun step hs => ?_⟩
  simp only [List.mem_cons, List.not_mem_nil, or_false] at hs
  rcases hs with rfl | rfl | rfl
  · exact trivial
  · exact trivial
  · exact fun _ _ => nofun

/-- The four defects, one operation each after an allocation at most: a string
tree, an absent key, a captured variable, a young object that dies. -/
theorem bytesCurrent_drifts :
    (∃ steps h, History (.x64 true true) steps h ∧
      steps.map (·.2) = [.allocate (.tree .none .none)] ∧ ¬ h.Exact) ∧
    (∃ steps h, History (.x64 true true) steps h ∧
      steps.map (·.2) = [.get 0 "x", .allocate (.record [])] ∧ ¬ h.Exact) ∧
    (∃ steps h, History (.x64 true true) steps h ∧
      steps.map (·.2) = [.addReference 1 0, .allocate (.closure { freeVars := ["x"] } []),
        .allocate (.reference .none)] ∧ ¬ h.Exact) ∧
    ∃ steps h, History (.x64 true true) steps h ∧
      steps.map (·.2) = [.gcFast [], .allocate (.record [])] ∧ ¬ h.Exact := by
  have h₀ : History (.x64 true true) [] _ := .empty
  refine ⟨?_, ?_, ?_, ?_⟩
  · have h₁ : History (.x64 true true) [(_, .allocate (.tree .none .none))] _ := h₀.step rfl
    exact ⟨_, _, h₁, rfl, by decide⟩
  · have h₁ : History (.x64 true true) [(_, .allocate (.record []))] _ := h₀.step rfl
    have h₂ : History (.x64 true true) ((_, .get 0 "x") :: _) _ := h₁.step rfl
    exact ⟨_, _, h₂, rfl, by decide⟩
  · have h₁ : History (.x64 true true) [(_, .allocate (.reference .none))] _ := h₀.step rfl
    have h₂ : History (.x64 true true)
        ((_, .allocate (.closure { freeVars := ["x"] } [])) :: _) _ := h₁.step rfl
    have h₃ : History (.x64 true true) ((_, .addReference 1 0) :: _) _ := h₂.step rfl
    exact ⟨_, _, h₃, rfl, by decide⟩
  · have h₁ : History (.x64 true true) [(_, .allocate (.record []))] _ := h₀.step rfl
    have h₂ : History (.x64 true true) ((_, .gcFast []) :: _) _ := h₁.step rfl
    exact ⟨_, _, h₂, rfl, by decide⟩

end CollectedHeap

end Beaverc

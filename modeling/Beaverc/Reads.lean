import Beaverc.Accounting
import Beaverc.World

/-!
# Reads of record fields

`FieldLoad` and `IndexLoad` end in `RecordValue::get`, which is `values[key]` of
an `unordered_map` and so adds an absent key. The AST interpreter's
`RecordValue::Read` (`readField`) adds none. A program can tell the world after
a read from the world before it if and only if the key was absent
(`reads_withoutEffect_iff`).
-/

namespace Beaverc

/-- `FieldLoad` and `IndexLoad` with their operands. -/
inductive Read where
  | field (record : Value) (name : String)
  | index (record index : Value)

namespace Read

def action : Read → Action
  | field record name => .fieldLoad record name
  | index record i => .indexLoad record i

def record : Read → Value
  | field record _ | index record _ => record

/-- `var_name` of the two cases. -/
def key (w : World) : Read → Except Stop String
  | field _ name => .ok name
  | index _ i => i.toText w.heap

end Read

/-- `BasicInterpreter::RecordValue::Read`. -/
def readField (values : List (String × Value)) (key : String) : Value :=
  if (values.lookup key).isSome then (values.lookup key).getD .none else .none

/-- Actions one after another, with their results. -/
def performAll : List Action → World → Except Stop (List Value × World)
  | [], w => .ok ([], w)
  | action :: rest, w => do
    let (v, w) ← perform action w
    let (vs, w) ← performAll rest w
    .ok (v :: vs, w)

/-- What a program and its destructors get to see of the two worlds is the same. -/
structure SameToProgram (w w' : World) : Prop where
  fields : ∀ a values, payloadAt w'.heap.store a = some (.record values) ↔
    payloadAt w.heap.store a = some (.record values)
  text : ∀ v : Value, v.toText w'.heap = v.toText w.heap
  size : ∀ a, (payloadAt w'.heap.store a).map (Payload.size w'.heap.options.sizes) =
    (payloadAt w.heap.store a).map (Payload.size w.heap.options.sizes)
  later : ∀ actions, (performAll actions w').map Prod.fst = (performAll actions w).map Prod.fst

namespace Read

/-- The read gives the stored value or `None`, and nothing else comes of it. -/
def WithoutEffect (r : Read) (w : World) : Prop :=
  ∀ v w', perform r.action w = .ok (v, w') →
    (∃ key a values, r.key w = .ok key ∧ r.record.pointer? = some a ∧
      payloadAt w.heap.store a = some (.record values) ∧ v = readField values key) ∧
    SameToProgram w w'

/-- The record has the key. -/
def Finds (r : Read) (w : World) : Prop :=
  ∀ key a values, r.key w = .ok key → r.record.pointer? = some a →
    payloadAt w.heap.store a = some (.record values) → (values.lookup key).isSome

end Read

namespace ReadLemmas

open Results

theorem lookup_assign (key : String) (v : Value) (values : List (String × Value)) :
    (assign key v values).lookup key = some v := by
  induction values with
  | nil => simp [assign]
  | cons p rest ih =>
    obtain ⟨k, u⟩ := p
    by_cases hk : k = key
    · simp [assign, hk]
    · have hne : (key == k) = false := by simpa using Ne.symm hk
      simp [assign, hk, List.lookup_cons, hne, ih]

theorem readField_eq (values : List (String × Value)) (key : String) :
    readField values key = (values.lookup key).getD .none := by
  unfold readField
  cases values.lookup key with
  | none => rfl
  | some v => rfl

/-- The world after a read of `key` in the record at `a`. -/
def afterGet (a : Addr) (values : List (String × Value)) (key : String) (w : World) : World :=
  if (values.lookup key).isSome then w
  else { w with heap := w.heap.setPayload a (.record (assign key .none values)) }

theorem getField_eq {w : World} {record : Value} {a : Addr} {values : List (String × Value)}
    (key : String) (ha : record.pointer? = some a)
    (hp : payloadAt w.heap.store a = some (.record values)) :
    w.getField record key = .ok (readField values key, afterGet a values key w) := by
  obtain ⟨o, ho, hpay⟩ := Option.map_eq_some_iff.mp hp
  rw [readField_eq]
  cases hl : values.lookup key with
  | none =>
    simp [World.getField, Value.getPointer, Value.getPointerValue, CollectedHeap.recordGet,
      CollectedHeap.deref, afterGet, ha, ho, hpay, hl, Payload.isRecord]
  | some u =>
    simp [World.getField, Value.getPointer, Value.getPointerValue, CollectedHeap.recordGet,
      CollectedHeap.deref, afterGet, ha, ho, hpay, hl, Payload.isRecord]

/-- A read that ends has found a record. -/
theorem getField_reaches {w : World} {record : Value} {key : String} {r : Value × World}
    (h : w.getField record key = .ok r) : ∃ a values, record.pointer? = some a ∧
      payloadAt w.heap.store a = some (.record values) := by
  obtain ⟨a, ha, -⟩ := bind_ok.mp h
  obtain ⟨b, hb, ha⟩ := bind_ok.mp ha
  obtain ⟨o, ho, ha⟩ := bind_ok.mp ha
  have hpointer : record.pointer? = some b := by
    cases hr : record.pointer? with
    | none => rw [Value.getPointerValue, hr] at hb; cases hb
    | some c => rw [Value.getPointerValue, hr] at hb; cases hb; rfl
  have hstore : w.heap.store b = some o := by
    cases hs : w.heap.store b with
    | none => rw [CollectedHeap.deref, hs] at ho; cases ho
    | some c => rw [CollectedHeap.deref, hs] at ho; cases ho; rfl
  cases hp : o.payload with
  | record values => exact ⟨b, values, hpointer, by rw [payloadAt, hstore, Option.map_some, hp]⟩
  | _ => rw [hp] at ha; cases ha

theorem getField_ok {v : Value} {w w' : World} {record : Value} {key : String} :
    w.getField record key = .ok (v, w') ↔ ∃ a values, record.pointer? = some a ∧
      payloadAt w.heap.store a = some (.record values) ∧ v = readField values key ∧
        w' = afterGet a values key w := by
  constructor
  · intro h
    obtain ⟨a, values, ha, hp⟩ := getField_reaches h
    rw [getField_eq key ha hp] at h
    cases h
    exact ⟨a, values, ha, hp, rfl, rfl⟩
  · rintro ⟨a, values, ha, hp, rfl, rfl⟩
    exact getField_eq key ha hp

/-- What a read does, in one statement. -/
theorem perform_read {r : Read} {v : Value} {w w' : World} :
    perform r.action w = .ok (v, w') ↔ ∃ key a values, r.key w = .ok key ∧
      r.record.pointer? = some a ∧ payloadAt w.heap.store a = some (.record values) ∧
        v = readField values key ∧ w' = afterGet a values key w := by
  cases r with
  | field record name =>
    rw [show perform (Read.field record name).action w = w.getField record name from rfl,
      getField_ok]
    constructor
    · rintro ⟨a, values, h⟩
      exact ⟨name, a, values, rfl, h⟩
    · rintro ⟨_, a, values, hk, h⟩
      cases hk
      exact ⟨a, values, h⟩
  | index record index =>
    rw [show perform (Read.index record index).action w =
      (index.toText w.heap >>= fun name => w.getField record name) from rfl, bind_ok]
    constructor
    · rintro ⟨key, hk, h⟩
      obtain ⟨a, values, h⟩ := getField_ok.mp h
      exact ⟨key, a, values, hk, h⟩
    · rintro ⟨key, a, values, hk, h⟩
      exact ⟨key, hk, getField_ok.mpr ⟨a, values, h⟩⟩

theorem sameToProgram_refl (w : World) : SameToProgram w w :=
  ⟨fun _ _ => Iff.rfl, fun _ => rfl, fun _ => rfl, fun _ => rfl⟩

/-- A key that was added shows in the fields of its record. -/
theorem not_same_of_absent {w : World} {a : Addr} {values : List (String × Value)} {key : String}
    (hp : payloadAt w.heap.store a = some (.record values)) (hk : values.lookup key = none) :
    ¬ SameToProgram w (afterGet a values key w) := by
  intro hsame
  have hafter := (hsame.fields a values).mpr hp
  rw [afterGet, hk] at hafter
  simp only [Option.isSome_none, Bool.false_eq_true, if_false,
    CollectedHeap.AccountingLemmas.payloadAt_setPayload,
    hp, if_true, Option.map_some, Option.some.injEq, Payload.record.injEq] at hafter
  have hadded := lookup_assign key .none values
  rw [hafter, hk] at hadded
  cases hadded

end ReadLemmas

open ReadLemmas

/-- A read of a record field has no effect if and only if the record has the field. -/
theorem reads_withoutEffect_iff (r : Read) (w : World) : r.WithoutEffect w ↔ r.Finds w := by
  constructor
  · intro h key a values hkey ha hp
    cases hl : values.lookup key with
    | some v => rfl
    | none =>
      have hread : perform r.action w = .ok (readField values key, afterGet a values key w) :=
        perform_read.mpr ⟨key, a, values, hkey, ha, hp, rfl, rfl⟩
      exact absurd (h _ _ hread).2 (not_same_of_absent hp hl)
  · intro h v w' hread
    obtain ⟨key, a, values, hkey, ha, hp, hv, hw⟩ := perform_read.mp hread
    refine ⟨⟨key, a, values, hkey, ha, hp, hv⟩, ?_⟩
    rw [hw, afterGet, if_pos (h key a values hkey ha hp)]
    exact sameToProgram_refl w

/-- `r = {}; x = r.a` leaves a field in `r`. -/
theorem reads_haveEffect : ¬ ∀ (r : Read) (w : World), r.WithoutEffect w := by
  intro h
  let heap := ((CollectedHeap.empty (.x64 true true)).allocate (.record [])).2
  have hfinds := (reads_withoutEffect_iff (.field (.pointer 0) "a")
    ⟨heap, 0, [], [], []⟩).mp (h _ _) "a" 0 [] rfl rfl rfl
  cases hfinds

end Beaverc

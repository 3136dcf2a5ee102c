import Beaverc.BasicInterpreter
import Mathlib.Data.List.Dedup

/-!
# The ordered map

`OrderedMap` keeps its keys twice, in a `map` and in a vector. `_add` writes to
both, but `at` reads with `data[key]`, which puts a missing key into the map
alone: from then on the key is counted and never visited. `keptInStep_iff` says
that this is the only way the two come apart; `RecordValue` never takes it.
-/

namespace Beaverc

/-- `OrderedMap<K, V>`. -/
structure OrderedMap (K V : Type) where
  data : K → Option V := fun _ => none
  indexes : List K := []

namespace OrderedMap

variable {K V : Type} [DecidableEq K]

section Operations

variable [Inhabited V]

/-! ## The operations -/

/-- `_add`. -/
def _add (m : OrderedMap K V) (key : K) (value : V) : OrderedMap K V :=
  ⟨Function.update m.data key (some value), m.indexes ++ [key]⟩

/-- `data[key]` of a `map`: a missing key gets a new `V()`. -/
def subscript (m : OrderedMap K V) (key : K) : V × OrderedMap K V :=
  match m.data key with
  | some value => (value, m)
  | none => (default, { m with data := Function.update m.data key (some default) })

/-- `count`. -/
def count (m : OrderedMap K V) (key : K) : Nat :=
  if (m.data key).isSome then 1 else 0

/-- `add`; `none` is the `DuplicateAddException`. -/
def add (m : OrderedMap K V) (key : K) (value : V) : Option (OrderedMap K V) :=
  if (m.data key).isSome then none else some (m._add key value)

/-- `insert`. -/
def insert (m : OrderedMap K V) (key : K) (value : V) : OrderedMap K V :=
  if (m.data key).isSome then { m with data := Function.update m.data key (some value) }
  else m._add key value

/-- `at`. -/
def atKey (m : OrderedMap K V) (key : K) : V × OrderedMap K V :=
  m.subscript key

/-- `operator[]`. -/
def operatorAt (m : OrderedMap K V) (key : K) : V × OrderedMap K V :=
  m.atKey key

/-- The calls that `iterate` makes for the keys of a list. -/
def visit (m : OrderedMap K V) : List K → List (K × V) × OrderedMap K V
  | [] => ([], m)
  | key :: rest =>
    let (value, m') := m.subscript key
    let (calls, m'') := m'.visit rest
    ((key, value) :: calls, m'')

/-- `iterate`, with the calls of its argument. -/
def iterate (m : OrderedMap K V) : List (K × V) × OrderedMap K V :=
  m.visit m.indexes

/-! ## Sequences of operations -/

/-- An operation of the map. -/
inductive Op (K V : Type)
  | add (key : K) (value : V)
  | insert (key : K) (value : V)
  | atKey (key : K)
  | operatorAt (key : K)
  | count (key : K)
  | iterate

/-- What an operation gives back. -/
inductive Outcome (K V : Type)
  | done
  | duplicateAdd (key : K)
  | value (value : V)
  | number (n : Nat)
  | calls (calls : List (K × V))
deriving DecidableEq

namespace Op

/-- The key that the operation is to put into the map. -/
def entered : Op K V → Option K
  | .add key _ | .insert key _ => some key
  | _ => none

/-- The key whose value is read. -/
def readKey : Op K V → Option K
  | .atKey key | .operatorAt key => some key
  | _ => none

end Op

/-- One operation. -/
def step (m : OrderedMap K V) : Op K V → Outcome K V × OrderedMap K V
  | .add key value =>
    match m.add key value with
    | some m' => (.done, m')
    | none => (.duplicateAdd key, m)
  | .insert key value => (.done, m.insert key value)
  | .atKey key => (.value (m.atKey key).1, (m.atKey key).2)
  | .operatorAt key => (.value (m.operatorAt key).1, (m.operatorAt key).2)
  | .count key => (.number (m.count key), m)
  | .iterate => (.calls m.iterate.1, m.iterate.2)

/-- What the operations of a list give back, one after another. -/
def outcomes (m : OrderedMap K V) : List (Op K V) → List (Outcome K V)
  | [] => []
  | op :: rest => (m.step op).1 :: (m.step op).2.outcomes rest

/-- The map after the operations of `past`, the newest first. -/
def after : List (Op K V) → OrderedMap K V
  | [] => {}
  | op :: past => ((after past).step op).2

end Operations

/-! ## What is asked of a sequence -/

/-- The keys added or inserted so far, in the order of their first time. -/
def enteredKeys (past : List (Op K V)) : List K :=
  (past.filterMap Op.entered).dedup.reverse

/-- The latest value of a key: `insert` always sets it, `add` only once. -/
def latest : List (Op K V) → K → Option V
  | [], _ => none
  | .insert key value :: past, k => if k = key then some value else latest past k
  | .add key value :: past, k =>
    (latest past k).or (if k = key then some value else none)
  | _ :: past, k => latest past k

section Histories

variable [Inhabited V]

/-- The map and its order list agree with the operations of `past`. -/
structure InStep (past : List (Op K V)) : Prop where
  counted : ∀ key, (after past).count key = if key ∈ enteredKeys past then 1 else 0
  iterated : (after past).iterate.1.map (fun call => (call.1, some call.2)) =
    (enteredKeys past).map fun key => (key, latest past key)

/-- A failed `add` changes nothing, and a read or a visit changes no later outcome. -/
structure Harmless (op : Op K V) (past : List (Op K V)) : Prop where
  failedAdd : ∀ key, ((after past).step op).1 = .duplicateAdd key → after (op :: past) = after past
  read : op.entered = none →
    ∀ later, (after (op :: past)).outcomes later = (after past).outcomes later

/-- The map is in step with its order list all along `history`. -/
structure KeptInStep (history : List (Op K V)) : Prop where
  states : ∀ past, past <:+ history → InStep past
  steps : ∀ op past, op :: past <:+ history → Harmless op past

end Histories

/-- Each key that is read has been added or inserted before. -/
def ReadsEntered (history : List (Op K V)) : Prop :=
  ∀ op past key, op :: past <:+ history → op.readKey = some key → key ∈ enteredKeys past

namespace OrderedMapLemmas

/-! ### The keys and values of a history -/

theorem mem_enteredKeys {past : List (Op K V)} {key : K} :
    key ∈ enteredKeys past ↔ ∃ op ∈ past, op.entered = some key := by
  unfold enteredKeys
  rw [List.mem_reverse, List.mem_dedup, List.mem_filterMap]

theorem enteredKeys_cons (op : Op K V) (past : List (Op K V)) :
    enteredKeys (op :: past) =
      match op.entered with
      | none => enteredKeys past
      | some key => if key ∈ enteredKeys past then enteredKeys past
        else enteredKeys past ++ [key] := by
  unfold enteredKeys
  cases hop : op.entered with
  | none => rw [List.filterMap_cons_none hop]
  | some key =>
    rw [List.filterMap_cons_some hop]
    dsimp only
    by_cases hk : key ∈ past.filterMap Op.entered
    · rw [List.dedup_cons_of_mem hk, if_pos (List.mem_reverse.mpr (List.mem_dedup.mpr hk))]
    · rw [List.dedup_cons_of_notMem hk, List.reverse_cons,
        if_neg fun hm => hk (List.mem_dedup.mp (List.mem_reverse.mp hm))]

/-- A key has a value as soon as it is entered. -/
theorem latest_isSome (past : List (Op K V)) (key : K) :
    (latest past key).isSome = true ↔ key ∈ enteredKeys past := by
  rw [mem_enteredKeys]
  induction past with
  | nil => exact ⟨nofun, fun ⟨op, hop, _⟩ => absurd hop List.not_mem_nil⟩
  | cons op past ih =>
    rw [List.exists_mem_cons_iff, ← ih]
    cases op with
    | insert k value =>
      rw [latest, Op.entered, Option.some_inj]
      by_cases hk : key = k
      · simp [hk]
      · simp [hk, Ne.symm hk]
    | add k value =>
      rw [latest, Op.entered, Option.some_inj, Option.isSome_or]
      by_cases hk : key = k
      · simp [hk]
      · simp [hk, Ne.symm hk]
    | atKey k => exact ⟨Or.inr, fun h => h.resolve_left nofun⟩
    | operatorAt k => exact ⟨Or.inr, fun h => h.resolve_left nofun⟩
    | count k => exact ⟨Or.inr, fun h => h.resolve_left nofun⟩
    | iterate => exact ⟨Or.inr, fun h => h.resolve_left nofun⟩

theorem update_latest_insert (past : List (Op K V)) (key : K) (value : V) :
    Function.update (latest past) key (some value) = latest (.insert key value :: past) := by
  funext k
  rw [Function.update_apply, latest]

theorem latest_add_present {past : List (Op K V)} {key : K} (value : V)
    (hk : (latest past key).isSome = true) : latest (.add key value :: past) = latest past := by
  funext k
  rw [latest]
  by_cases h : k = key
  · subst h
    obtain ⟨v, hv⟩ := Option.isSome_iff_exists.mp hk
    rw [hv, Option.some_or]
  · rw [if_neg h, Option.or_none]

theorem latest_add_missing {past : List (Op K V)} {key : K} (value : V)
    (hk : ¬(latest past key).isSome = true) :
    latest (.add key value :: past) = Function.update (latest past) key (some value) := by
  funext k
  rw [latest, Function.update_apply]
  by_cases h : k = key
  · subst h
    rw [Option.not_isSome_iff_eq_none.mp hk, Option.none_or]
  · rw [if_neg h, if_neg h, Option.or_none]

theorem readsEntered_cons {op : Op K V} {past : List (Op K V)} (h : ReadsEntered (op :: past)) :
    ReadsEntered past ∧ ∀ key, op.readKey = some key → key ∈ enteredKeys past :=
  ⟨fun op' past' key hs => h op' past' key (hs.trans (List.suffix_cons op past)),
    fun key => h op past key List.suffix_rfl⟩

theorem readsEntered_of_cons {op : Op K V} {past : List (Op K V)} (h : ReadsEntered past)
    (hop : ∀ key, op.readKey = some key → key ∈ enteredKeys past) : ReadsEntered (op :: past) := by
  intro op' past' key hs hkey
  rcases List.suffix_cons_iff.mp hs with heq | hs
  · cases heq
    exact hop key hkey
  · exact h op' past' key hs hkey

/-- The map that a history should lead to. -/
def expected (past : List (Op K V)) : OrderedMap K V :=
  ⟨latest past, enteredKeys past⟩

theorem expected_of_reads {op : Op K V} (hop : op.entered = none) (past : List (Op K V)) :
    expected (op :: past) = expected past := by
  have hkeys := enteredKeys_cons op past
  rw [hop] at hkeys
  unfold expected
  rw [hkeys]
  cases op with
  | add key value => cases hop
  | insert key value => cases hop
  | _ => rfl

/-! ### The state of a history whose reads find their keys -/

variable [Inhabited V]

theorem subscript_of_isSome {m : OrderedMap K V} {key : K} (h : (m.data key).isSome = true) :
    ∃ value, m.data key = some value ∧ m.subscript key = (value, m) := by
  obtain ⟨value, hv⟩ := Option.isSome_iff_exists.mp h
  refine ⟨value, hv, ?_⟩
  unfold subscript
  rw [hv]

/-- Visiting keys that are in the map only reads. -/
theorem visit_present {m : OrderedMap K V} {keys : List K}
    (h : ∀ key ∈ keys, (m.data key).isSome = true) :
    (m.visit keys).2 = m ∧
      (m.visit keys).1.map (fun call => (call.1, some call.2)) =
        keys.map fun key => (key, m.data key) := by
  induction keys with
  | nil => exact ⟨rfl, rfl⟩
  | cons key rest ih =>
    obtain ⟨value, hv, hs⟩ := subscript_of_isSome (h key List.mem_cons_self)
    obtain ⟨hm, hcalls⟩ := ih fun k hk => h k (List.mem_cons_of_mem _ hk)
    have hvisit : m.visit (key :: rest) = ((key, value) :: (m.visit rest).1, (m.visit rest).2) := by
      rw [visit, hs]
    rw [hvisit]
    refine ⟨hm, ?_⟩
    rw [List.map_cons, List.map_cons, hcalls, hv]

theorem iterate_expected (past : List (Op K V)) :
    (expected past).iterate.2 = expected past ∧
      (expected past).iterate.1.map (fun call => (call.1, some call.2)) =
        (enteredKeys past).map fun key => (key, latest past key) :=
  visit_present fun key hk => (latest_isSome past key).mpr hk

/-- One operation keeps the map the expected one, unless it reads a missing key. -/
theorem step_expected (op : Op K V) (past : List (Op K V))
    (hread : ∀ key, op.readKey = some key → key ∈ enteredKeys past) :
    ((expected past).step op).2 = expected (op :: past) := by
  have hkeys := enteredKeys_cons op past
  have hpresent (key : K) : ((expected past).data key).isSome = true ↔ key ∈ enteredKeys past :=
    latest_isSome past key
  cases op with
  | add key value =>
    dsimp only [Op.entered] at hkeys
    by_cases hk : key ∈ enteredKeys past
    · have hadd : (expected past).add key value = none := if_pos ((hpresent key).mpr hk)
      rw [step, hadd]
      unfold expected
      rw [hkeys, if_pos hk, latest_add_present value ((latest_isSome past key).mpr hk)]
    · have hadd : (expected past).add key value = some ((expected past)._add key value) :=
        if_neg fun h => hk ((hpresent key).mp h)
      rw [step, hadd]
      unfold expected _add
      rw [hkeys, if_neg hk, latest_add_missing value fun h => hk ((latest_isSome past key).mp h)]
  | insert key value =>
    dsimp only [Op.entered] at hkeys
    simp only [step, insert, hpresent]
    by_cases hk : key ∈ enteredKeys past
    · rw [if_pos hk]
      simp only [expected, update_latest_insert]
      rw [hkeys, if_pos hk]
    · rw [if_neg hk]
      simp only [expected, _add, update_latest_insert]
      rw [hkeys, if_neg hk]
  | atKey key =>
    obtain ⟨value, -, hs⟩ := subscript_of_isSome ((hpresent key).mpr (hread key rfl))
    exact congrArg Prod.snd hs
  | operatorAt key =>
    obtain ⟨value, -, hs⟩ := subscript_of_isSome ((hpresent key).mpr (hread key rfl))
    exact congrArg Prod.snd hs
  | count key => rfl
  | iterate => exact (iterate_expected past).1

/-- A run that only reads keys that are there has the expected map. -/
theorem after_expected {past : List (Op K V)} (h : ReadsEntered past) :
    after past = expected past := by
  induction past with
  | nil => rfl
  | cons op past ih =>
    obtain ⟨hpast, hop⟩ := readsEntered_cons h
    rw [after, ih hpast, step_expected op past hop]

theorem inStep_of_readsEntered {past : List (Op K V)} (h : ReadsEntered past) : InStep past := by
  refine ⟨fun key => ?_, ?_⟩
  · rw [after_expected h]
    exact if_congr (latest_isSome past key) rfl rfl
  · rw [after_expected h]
    exact (iterate_expected past).2

theorem step_duplicateAdd {m : OrderedMap K V} {op : Op K V} {key : K}
    (h : (m.step op).1 = .duplicateAdd key) : (m.step op).2 = m := by
  cases op with
  | add k value =>
    rw [step] at h ⊢
    cases hadd : m.add k value with
    | none => rfl
    | some m' =>
      rw [hadd] at h
      cases h
  | _ => cases h

theorem harmless_of_readsEntered {op : Op K V} {past : List (Op K V)}
    (h : ReadsEntered (op :: past)) : Harmless op past := by
  refine ⟨fun key hdup => step_duplicateAdd hdup, fun hop later => ?_⟩
  rw [after_expected h, after_expected (readsEntered_cons h).1, expected_of_reads hop]

/-! ### A read of a missing key -/

theorem count_subscript_missing {m : OrderedMap K V} {key : K} (h : m.data key = none) :
    (m.subscript key).2.count key = 1 := by
  have hdata : (m.subscript key).2.data key = some default := by
    unfold subscript
    rw [h]
    exact Function.update_self ..
  exact if_pos (hdata ▸ rfl)

theorem step_readKey {op : Op K V} {key : K} (m : OrderedMap K V) (h : op.readKey = some key) :
    (m.step op).2 = (m.subscript key).2 ∧ op.entered = none := by
  cases op with
  | atKey k => cases h; exact ⟨rfl, rfl⟩
  | operatorAt k => cases h; exact ⟨rfl, rfl⟩
  | _ => cases h

end OrderedMapLemmas

open OrderedMapLemmas

variable [Inhabited V]

/-- The map and its order list stay in step exactly as long as no key is read
that has not been added or inserted. -/
theorem keptInStep_iff (history : List (Op K V)) : KeptInStep history ↔ ReadsEntered history := by
  constructor
  · intro h op past key hs hkey
    by_contra hmissing
    have hbefore := h.states past ((List.suffix_cons op past).trans hs)
    have hafter := h.states (op :: past) hs
    obtain ⟨hstep, hop⟩ := step_readKey (after past) hkey
    -- The key is missing before the read and counted after it.
    have hnone : (after past).data key = none := by
      have hcount := hbefore.counted key
      rw [if_neg hmissing] at hcount
      unfold count at hcount
      split at hcount
      · cases hcount
      · next hn => exact Option.not_isSome_iff_eq_none.mp hn
    have hkeys := enteredKeys_cons op past
    rw [hop] at hkeys
    have hcount := hafter.counted key
    rw [after, hstep, count_subscript_missing hnone, hkeys, if_neg hmissing] at hcount
    cases hcount
  · intro h
    have hsuffix {past : List (Op K V)} (hs : past <:+ history) : ReadsEntered past :=
      fun op past' key hs' => h op past' key (hs'.trans hs)
    exact ⟨fun past hs => inStep_of_readsEntered (hsuffix hs),
      fun op past hs => harmless_of_readsEntered (hsuffix hs)⟩

/-- After a read of a missing key, the key that is inserted is not visited. -/
theorem read_hides_insert :
    ¬ ∀ history : List (Op String Nat), KeptInStep history := by
  intro h
  have hs := ((h [.insert "x" 1, .atKey "x"]).states _ List.suffix_rfl).iterated
  revert hs
  decide

end OrderedMap

/-! ## Records of the interpreter -/

namespace RecordValue
open OrderedMap OrderedMapLemmas BasicInterpreter

variable {V : Type} [Inhabited V]

/-- The operations on a `RecordValue` of the tree-walking interpreter. -/
inductive Op (V : Type)
  | update (key : String) (val : V)
  | read (key : String)

/-- What `Update` and `Read` do with the ordered map, the newest first. -/
def history : List (Op V) → List (OrderedMap.Op String V)
  | [] => []
  | .update key val :: past => .insert key val :: history past
  | .read key :: past =>
    if (after (history past)).count key = 0 then .count key :: history past
    else .operatorAt key :: .count key :: history past

theorem readsEntered_history (past : List (Op V)) : ReadsEntered (history past) := by
  induction past with
  | nil =>
    intro op past' key hs
    exact absurd (List.eq_nil_of_suffix_nil hs) (List.cons_ne_nil _ _)
  | cons op past ih =>
    cases op with
    | update key val => exact readsEntered_of_cons ih nofun
    | read key =>
      have hcount : ReadsEntered (.count key :: history past) := readsEntered_of_cons ih nofun
      rw [history]
      split
      · exact hcount
      · next hn =>
        refine readsEntered_of_cons hcount fun k hk => ?_
        cases hk
        have hin := (inStep_of_readsEntered ih).counted key
        rw [enteredKeys_cons]
        by_contra hmissing
        exact hn (hin.trans (if_neg hmissing))

/-- The fields of the record, as the model of the interpreter keeps them. -/
def fields : List (Op Pointer) → List (String × Pointer)
  | [] => []
  | .update key val :: past => State.updateField.insert key val (fields past)
  | .read _ :: past => fields past

/-- Setting a field among fields whose keys are distinct. -/
theorem insert_fields (key : String) (val : Pointer) {l : List (String × Pointer)}
    {keys : List String} {g : String → Option Pointer} (hnodup : keys.Nodup)
    (h : l.map (fun p => (p.1, some p.2)) = keys.map fun k => (k, g k)) :
    (State.updateField.insert key val l).map (fun p => (p.1, some p.2)) =
      (if key ∈ keys then keys else keys ++ [key]).map
        fun k => (k, Function.update g key (some val) k) := by
  induction l generalizing keys with
  | nil =>
    obtain rfl : keys = [] := List.map_eq_nil_iff.mp h.symm
    rw [if_neg List.not_mem_nil, List.nil_append, List.map_singleton, Function.update_self]
    rfl
  | cons p rest ih =>
    obtain _ | ⟨k, ks⟩ := keys
    · cases h
    rw [List.map_cons, List.map_cons, List.cons.injEq, Prod.mk.injEq] at h
    obtain ⟨⟨rfl, hv⟩, hrest⟩ := h
    obtain ⟨hfresh, hks⟩ := List.nodup_cons.mp hnodup
    rw [State.updateField.insert]
    by_cases hk : p.1 = key
    · subst hk
      rw [if_pos rfl, if_pos List.mem_cons_self, List.map_cons, List.map_cons, hrest,
        Function.update_self]
      refine congrArg _ (List.map_congr_left fun k hm => ?_)
      rw [Function.update_of_ne (ne_of_mem_of_not_mem hm hfresh)]
    · have hmem : key ∈ p.1 :: ks ↔ key ∈ ks :=
        ⟨fun hm => (List.mem_cons.mp hm).resolve_left (Ne.symm hk), List.mem_cons_of_mem _⟩
      rw [if_neg hk, List.map_cons, ih hks hrest, hv]
      by_cases hin : key ∈ ks
      · rw [if_pos hin, if_pos (hmem.mpr hin), List.map_cons, Function.update_of_ne hk]
      · rw [if_neg hin, if_neg (hin ∘ hmem.mp), List.cons_append, List.map_cons,
          Function.update_of_ne hk]

theorem fields_eq (past : List (Op Pointer)) :
    (fields past).map (fun p => (p.1, some p.2)) =
      (enteredKeys (history past)).map fun key => (key, latest (history past) key) := by
  induction past with
  | nil => rfl
  | cons op past ih =>
    cases op with
    | update key val =>
      have hnodup : (enteredKeys (history past)).Nodup :=
        List.nodup_reverse.mpr (List.nodup_dedup _)
      rw [fields, insert_fields key val hnodup ih, history, enteredKeys_cons,
        ← update_latest_insert]
      rfl
    | read key =>
      rw [fields, ih, history]
      split
      · rw [enteredKeys_cons]
        rfl
      · rw [enteredKeys_cons, enteredKeys_cons]
        rfl

/-- A record asks with `count` before it reads, so its map stays in step, and the
fields it lists are those that the model of the interpreter keeps. -/
theorem record_keptInStep (past : List (Op Pointer)) :
    KeptInStep (history past) ∧ (after (history past)).iterate.1 = fields past := by
  refine ⟨(keptInStep_iff _).mpr (readsEntered_history past), ?_⟩
  have hinj : Function.Injective fun p : String × Pointer => (p.1, some p.2) := by
    rintro ⟨k, v⟩ ⟨k', v'⟩ h
    cases h
    rfl
  apply List.map_injective_iff.mpr hinj
  rw [fields_eq]
  exact (inStep_of_readsEntered (readsEntered_history past)).iterated

end RecordValue

end Beaverc

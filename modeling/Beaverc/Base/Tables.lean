import Mathlib.Data.List.Sort
import Mathlib.Data.List.Nodup

/-!
# Append-only tables and ordered sets

A table is a list that only grows at its end and in which a value is looked up
by its first position. `insert` returns the position of the value, appending it
when it is absent. An ordered set is a sorted list without repetitions.
-/

namespace Beaverc.Tables

variable {α : Type} [DecidableEq α]

/-- The position of the first occurrence of `x`. -/
def index (v : List α) (x : α) : Option Nat :=
  v.idxOf? x

/-- The table that holds `x`, extended by `x` when it was absent. -/
def insert (v : List α) (x : α) : List α :=
  if x ∈ v then v else v ++ [x]

/-- The position of `x` in `insert v x`. -/
def insertIndex (v : List α) (x : α) : Nat :=
  (index v x).getD v.length

/-- Insert the values of a list one after another. -/
def insertAll (v : List α) (xs : List α) : List α :=
  xs.foldl insert v

/-- Insertion into a set that is kept as a list sorted by `r`. -/
def setInsert (r : α → α → Prop) [DecidableRel r] (x : α) (s : List α) : List α :=
  if x ∈ s then s else s.orderedInsert r x

theorem index_eq_none {v : List α} {x : α} : index v x = none ↔ x ∉ v := by
  unfold index
  exact List.idxOf?_eq_none_iff

theorem index_isSome {v : List α} {x : α} : (index v x).isSome ↔ x ∈ v := by
  unfold index
  exact List.isSome_idxOf?

theorem index_getElem? {v : List α} {x : α} {i : Nat} (h : index v x = some i) :
    v[i]? = some x := by
  obtain ⟨hi, hx, -⟩ := List.idxOf?_eq_some_iff.mp h
  rw [List.getElem?_eq_getElem hi, hx]

theorem index_eq_some {v : List α} {x : α} {i : Nat} (h : index v x = some i) :
    v.idxOf x = i := by
  rw [List.idxOf_eq_getD_idxOf?]
  unfold index at h
  rw [h]
  rfl

theorem index_lt {v : List α} {x : α} {i : Nat} (h : index v x = some i) : i < v.length := by
  obtain ⟨hi, -⟩ := List.idxOf?_eq_some_iff.mp h
  exact hi

/-- A table that grows at its end keeps every position it has handed out. -/
theorem index_append {v w : List α} {x : α} (h : x ∈ v) : index (v ++ w) x = index v x := by
  obtain ⟨i, hi⟩ := Option.isSome_iff_exists.mp (index_isSome.mpr h)
  rw [hi]
  obtain ⟨hlt, hx, hmin⟩ := List.idxOf?_eq_some_iff.mp hi
  refine List.idxOf?_eq_some_iff.mpr ⟨by simp; omega, ?_, fun j hj => ?_⟩
  · rw [List.getElem_append_left hlt, hx]
  · rw [List.getElem_append_left (by omega)]
    exact hmin j hj

@[simp] theorem mem_insert {v : List α} {x y : α} : y ∈ insert v x ↔ y ∈ v ∨ y = x := by
  unfold insert
  split
  · next h => exact ⟨Or.inl, fun hy => hy.elim id (fun he => he ▸ h)⟩
  · simp

theorem prefix_insert (v : List α) (x : α) : v <+: insert v x := by
  unfold insert
  split
  · exact List.prefix_rfl
  · exact List.prefix_append v [x]

theorem insertIndex_getElem? (v : List α) (x : α) :
    (insert v x)[insertIndex v x]? = some x := by
  unfold insert insertIndex
  split
  · next h =>
    obtain ⟨i, hi⟩ := Option.isSome_iff_exists.mp (index_isSome.mpr h)
    rw [hi]
    exact index_getElem? hi
  · next h =>
    rw [index_eq_none.mpr h]
    simp

theorem nodup_insert {v : List α} (x : α) (h : v.Nodup) : (insert v x).Nodup := by
  unfold insert
  split
  · exact h
  · next hx =>
    refine List.nodup_append.mpr ⟨h, by simp, ?_⟩
    rintro a ha b hb rfl
    simp at hb
    exact hx (hb ▸ ha)

@[simp] theorem mem_insertAll {v xs : List α} {y : α} :
    y ∈ insertAll v xs ↔ y ∈ v ∨ y ∈ xs := by
  unfold insertAll
  induction xs generalizing v with
  | nil => simp
  | cons x xs ih => simp [ih, or_assoc]

theorem prefix_insertAll (v xs : List α) : v <+: insertAll v xs := by
  unfold insertAll
  induction xs generalizing v with
  | nil => exact List.prefix_rfl
  | cons x xs ih => exact (prefix_insert v x).trans (ih _)

theorem nodup_insertAll {v : List α} (xs : List α) (h : v.Nodup) : (insertAll v xs).Nodup := by
  unfold insertAll
  induction xs generalizing v with
  | nil => exact h
  | cons x xs ih => exact ih (nodup_insert x h)

/-- Inserting distinct values adds those that were absent, in their order. -/
theorem insertAll_filter {v xs : List α} (h : xs.Nodup) :
    insertAll v xs = v ++ xs.filter (· ∉ v) := by
  unfold insertAll
  induction xs generalizing v with
  | nil => simp
  | cons x xs ih =>
    obtain ⟨hx, hxs⟩ := List.nodup_cons.mp h
    rw [List.foldl_cons, ih hxs]
    unfold insert
    split
    · next hv => rw [List.filter_cons_of_neg (by simpa using hv)]
    · next hv =>
      have hsame : xs.filter (· ∉ v ++ [x]) = xs.filter (· ∉ v) := by
        refine List.filter_congr fun y hy => ?_
        have hyx : y ≠ x := fun he => hx (he ▸ hy)
        simp [hyx]
      rw [hsame, List.filter_cons_of_pos (by simpa using hv), List.append_assoc]
      rfl

/-- A value keeps its position in a filtered list just when what is filtered out
stands behind it. -/
theorem idxOf_filter_eq_iff {keep : α → Bool} {xs : List α} {x : α} (hk : keep x = true)
    (hx : x ∈ xs) : (xs.filter keep).idxOf x = xs.idxOf x ↔
      ∀ y ∈ xs, keep y = false → xs.idxOf x < xs.idxOf y := by
  have hle (l : List α) : (l.filter keep).idxOf x ≤ l.idxOf x := by
    induction l with
    | nil => exact Nat.le_refl _
    | cons y l ih =>
      by_cases hyx : y = x
      · rw [hyx, List.filter_cons_of_pos hk, List.idxOf_cons_self]
        exact Nat.zero_le _
      · rw [List.idxOf_cons_ne _ hyx]
        by_cases hy : keep y = true
        · rw [List.filter_cons_of_pos hy, List.idxOf_cons_ne _ hyx]
          exact Nat.succ_le_succ ih
        · rw [List.filter_cons_of_neg hy]
          exact Nat.le_succ_of_le ih
  induction xs with
  | nil => cases hx
  | cons y xs ih =>
    by_cases hyx : y = x
    · rw [hyx, List.filter_cons_of_pos hk, List.idxOf_cons_self, List.idxOf_cons_self]
      refine ⟨fun _ z _ hz => ?_, fun _ => rfl⟩
      have hne : x ≠ z := by
        rintro rfl
        cases hk.symm.trans hz
      rw [List.idxOf_cons_ne _ hne]
      exact Nat.succ_pos _
    · have hmem := (List.mem_cons.mp hx).resolve_left (Ne.symm hyx)
      rw [List.idxOf_cons_ne _ hyx]
      by_cases hy : keep y = true
      · rw [List.filter_cons_of_pos hy, List.idxOf_cons_ne _ hyx, Nat.succ_inj]
        refine (ih hmem).trans ⟨fun h z hz hkz => ?_, fun h z hz hkz => ?_⟩
        · have hyz : y ≠ z := by
            rintro rfl
            cases hy.symm.trans hkz
          rw [List.idxOf_cons_ne _ hyz]
          exact Nat.succ_lt_succ (h z ((List.mem_cons.mp hz).resolve_left (Ne.symm hyz)) hkz)
        · have hlt := h z (List.mem_cons_of_mem y hz) hkz
          have hyz : y ≠ z := by
            rintro rfl
            cases hy.symm.trans hkz
          rw [List.idxOf_cons_ne _ hyz] at hlt
          exact Nat.lt_of_succ_lt_succ hlt
      · rw [List.filter_cons_of_neg hy]
        refine ⟨fun h => ?_, fun h => ?_⟩
        · exact absurd (h ▸ hle xs) (Nat.not_succ_le_self _)
        · have hlt := h y List.mem_cons_self (Bool.not_eq_true _ ▸ hy)
          rw [List.idxOf_cons_self] at hlt
          exact absurd hlt (Nat.not_lt_zero _)

/-- Inserting distinct values into an empty table keeps their order. -/
theorem insertAll_of_nodup {v xs : List α} (h : (v ++ xs).Nodup) : insertAll v xs = v ++ xs := by
  unfold insertAll
  induction xs generalizing v with
  | nil => simp
  | cons x xs ih =>
    have hx : x ∉ v := fun hv => (List.nodup_append.mp h).2.2 x hv x (by simp) rfl
    simp only [List.foldl_cons, insert, if_neg hx]
    rw [ih (by simpa using h)]
    simp

@[simp] theorem mem_setInsert {r : α → α → Prop} [DecidableRel r] {x y : α} {s : List α} :
    y ∈ setInsert r x s ↔ y = x ∨ y ∈ s := by
  unfold setInsert
  split
  · next h => exact ⟨Or.inr, fun hy => hy.elim (fun he => he ▸ h) id⟩
  · simp

theorem nodup_setInsert {r : α → α → Prop} [DecidableRel r] (x : α) {s : List α} (h : s.Nodup) :
    (setInsert r x s).Nodup := by
  unfold setInsert
  split
  · exact h
  · next hx => exact (List.perm_orderedInsert r x s).nodup_iff.mpr (List.nodup_cons.mpr ⟨hx, h⟩)

end Beaverc.Tables

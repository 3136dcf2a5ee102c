import Mathlib.Data.List.Sort
import Mathlib.Data.List.Perm.Subperm
import Beaverc.RegisterAllocation

/-!
# The linear scan comes to its end

The registers in use are those of the active operands, and those of operands that
were taken out of `active` along with a spilled one because they end at the same
place; the latter are never given back. All the same a register is free whenever
`active` is empty: it becomes empty only where an operand has just given its
register back. So the scan finds an operand to spill and a register to allocate
whenever it looks for one.
-/

namespace Beaverc.Ir

namespace Allocation

/-- The active operands `l` have registers of their own. -/
structure Busy (s : Allocation) (l : List Item) : Prop where
  nodup : l.Nodup
  hasReg : ∀ y ∈ l, ∃ r ∈ s.inUse, (y.operand s.operands).reg = some r
  distinct : ∀ y ∈ l, ∀ z ∈ l,
    (y.operand s.operands).reg = (z.operand s.operands).reg → y = z
  bound : s.inUse.length ≤ regPool.length

/-- The state of the scan between two operands. -/
structure Holds (s : Allocation) (l : List Item) : Prop extends s.Busy l where
  free : l = [] → s.inUse.length < regPool.length

end Allocation

namespace LinearScanLemmas
open Allocation

theorem operand_modifyTemp (o : Operands) (n : Nat) (f : Temp → Temp) (y : Item) :
    y.operand (o.modifyTemp n f) =
      if y = .temp n then (f (o.temp n)).toOperand else y.operand o := by
  cases y with
  | var m => rw [if_neg nofun]; rfl
  | temp m =>
    show (Function.update o.temp n (f (o.temp n)) m).toOperand = _
    by_cases h : m = n
    · rw [h, Function.update_self, if_pos rfl]
    · rw [Function.update_of_ne h, if_neg fun he => h (Item.temp.inj he)]
      rfl

theorem operand_modifyVar (o : Operands) (n : Nat) (f : Var → Var) (y : Item) :
    y.operand (o.modifyVar n f) =
      if y = .var n then (f (o.var n)).toOperand else y.operand o := by
  cases y with
  | temp m => rw [if_neg nofun]; rfl
  | var m =>
    show (Function.update o.var n (f (o.var n)) m).toOperand = _
    by_cases h : m = n
    · rw [h, Function.update_self, if_pos rfl]
    · rw [Function.update_of_ne h, if_neg fun he => h (Item.var.inj he)]
      rfl

theorem reg_setReg (x y : Item) (r : Option Reg) (o : Operands) :
    (y.operand (x.setReg r o)).reg = if y = x then r else (y.operand o).reg := by
  cases x with
  | var n =>
    rw [Item.setReg, operand_modifyVar]
    split <;> rfl
  | temp n =>
    rw [Item.setReg, operand_modifyTemp]
    split <;> rfl

theorem reg_leaveReg (x y : Item) (r : Reg) (o : Operands) :
    (y.operand (leaveReg x r o)).reg = (y.operand o).reg := by
  unfold leaveReg
  split
  · rfl
  · split
    · rw [operand_modifyVar]
      split
      · next h => rw [h]; rfl
      · rw [operand_modifyTemp]
        split
        · next h => rw [h]; rfl
        · rfl
    · rfl

theorem reg_shareReg {x y : Item} (h : y ≠ x) (r : Reg) (s : Allocation) :
    (y.operand (s.shareReg x r).operands).reg = (y.operand s.operands).reg := by
  cases x with
  | var n => rfl
  | temp n =>
    show (y.operand (s.operands.modifyTemp n fun t =>
      { t with reg := some r, sharedReg := true })).reg = _
    rw [operand_modifyTemp, if_neg h]

/-- Other registers do not matter. -/
theorem holds_congr {s s' : Allocation} {l : List Item} (h : s.Holds l)
    (hr : ∀ y ∈ l, (y.operand s'.operands).reg = (y.operand s.operands).reg)
    (hu : s'.inUse = s.inUse) : s'.Holds l := by
  refine ⟨⟨h.nodup, fun y hy => ?_, fun y hy z hz he => ?_, hu ▸ h.bound⟩, hu ▸ h.free⟩
  · rw [hr y hy, hu]
    exact h.hasReg y hy
  · rw [hr y hy, hr z hz] at he
    exact h.distinct y hy z hz he

/-- An active operand gives its register back. -/
theorem deallocate_holds {s : Allocation} {y : Item} {rest : List Item} (h : s.Holds (y :: rest)) :
    ∃ s', s.deallocateReg y = .ok s' ∧ s'.Holds rest := by
  obtain ⟨r, hr, hreg⟩ := h.hasReg y List.mem_cons_self
  have hlen : (s.inUse.erase r).length < s.inUse.length := by
    rw [List.length_erase_of_mem hr]
    exact Nat.sub_one_lt (Nat.ne_of_gt (List.length_pos_of_mem hr))
  have hlt : (s.inUse.erase r).length < regPool.length := Nat.lt_of_lt_of_le hlen h.bound
  refine ⟨{ s with inUse := s.inUse.erase r, operands := leaveReg y r s.operands }, ?_, ?_⟩
  · unfold deallocateReg
    rw [hreg]
  · refine ⟨⟨(List.nodup_cons.mp h.nodup).2, fun z hz => ?_, fun z hz w hw he => ?_, hlt.le⟩,
      fun _ => hlt⟩
    · obtain ⟨q, hq, hzq⟩ := h.hasReg z (List.mem_cons_of_mem _ hz)
      have hne : q ≠ r := by
        rintro rfl
        have hsame := h.distinct z (List.mem_cons_of_mem _ hz) y List.mem_cons_self
          (hzq.trans hreg.symm)
        exact (List.nodup_cons.mp h.nodup).1 (hsame ▸ hz)
      exact ⟨q, (List.mem_erase_of_ne hne).mpr hq, (reg_leaveReg ..).trans hzq⟩
    · rw [reg_leaveReg, reg_leaveReg] at he
      exact h.distinct z (List.mem_cons_of_mem _ hz) w (List.mem_cons_of_mem _ hw) he

/-- What is left of the active operands. -/
theorem expire_holds {x : Item} {l : List Item} {s : Allocation} (h : s.Holds l) :
    ∃ s', expire x l s = .ok s' ∧ s'.Holds s'.active ∧ ∀ y ∈ s'.active, y ∈ l := by
  induction l generalizing s with
  | nil => exact ⟨_, rfl, holds_congr h (fun _ _ => rfl) rfl, fun _ => id⟩
  | cons y rest ih =>
    rw [expire]
    split
    · exact ⟨_, rfl, holds_congr h (fun _ _ => rfl) rfl, fun _ => id⟩
    · obtain ⟨s₁, h₁, hs₁⟩ := deallocate_holds h
      obtain ⟨s₂, h₂, hs₂, hsub⟩ := ih hs₁
      rw [h₁]
      exact ⟨s₂, h₂, hs₂, fun z hz => List.mem_cons_of_mem _ (hsub z hz)⟩

/-- A register that is not in use. -/
theorem exists_free {inUse : List Reg} (h : inUse.length < regPool.length) :
    ∃ r ∈ regPool, r ∉ inUse := by
  by_contra hall
  have hsub : regPool ⊆ inUse := fun r hr => by
    by_contra hn
    exact hall ⟨r, hr, hn⟩
  have hnodup : regPool.Nodup := by decide
  exact absurd (hnodup.subperm hsub).length_le (Nat.not_le_of_lt h)

theorem allocate_ok {s : Allocation} (x : Item) (h : s.inUse.length < regPool.length) :
    ∃ r, r ∉ s.inUse ∧ s.allocateReg x = .ok (r, { s with inUse := r :: s.inUse }) := by
  unfold allocateReg
  cases hl : s.lastReg x with
  | some r =>
    refine ⟨r, ?_, rfl⟩
    unfold lastReg at hl
    split at hl
    · exact of_decide_eq_true (Option.filter_eq_some_iff.mp hl).2
    · cases hl
  | none =>
    cases hf : regPool.find? (· ∉ s.inUse) with
    | some r =>
      have hr := List.find?_some (p := fun r => decide (r ∉ s.inUse)) hf
      exact ⟨r, of_decide_eq_true hr, rfl⟩
    | none =>
      obtain ⟨r, hr, hn⟩ := exists_free h
      exact absurd (decide_eq_true hn) (List.find?_eq_none.mp hf r hr)

theorem mem_activate {x y : Item} {s : Allocation} :
    y ∈ (s.activate x).active ↔ y = x ∨ y ∈ s.active :=
  List.mem_orderedInsert _

theorem holds_activate {s : Allocation} {x : Item} (h : s.Busy s.active) (hx : x ∉ s.active)
    {r : Reg} (hreg : (x.operand s.operands).reg = some r) (hr : r ∈ s.inUse)
    (hfresh : ∀ y ∈ s.active, (y.operand s.operands).reg ≠ some r) :
    (s.activate x).Holds (s.activate x).active := by
  refine ⟨⟨?_, fun y hy => ?_, fun y hy z hz he => ?_, h.bound⟩, fun hnil => ?_⟩
  · exact (List.perm_orderedInsert _ _ _).nodup_iff.mpr (List.nodup_cons.mpr ⟨hx, h.nodup⟩)
  · rcases mem_activate.mp hy with rfl | hy'
    · exact ⟨r, hr, hreg⟩
    · exact h.hasReg y hy'
  · rcases mem_activate.mp hy with rfl | hy'
    · rcases mem_activate.mp hz with rfl | hz'
      · rfl
      · exact absurd (he.symm.trans hreg) (hfresh z hz')
    · rcases mem_activate.mp hz with rfl | hz'
      · exact absurd (he.trans hreg) (hfresh y hy')
      · exact h.distinct y hy' z hz' he
  · have hmem : x ∈ (s.activate x).active := mem_activate.mpr (.inl rfl)
    rw [hnil] at hmem
    cases hmem

theorem share_holds {s : Allocation} {x : Item} (h : s.Holds s.active) (hx : x ∉ s.active)
    (r : Reg) : (s.shareReg x r).Holds (s.shareReg x r).active ∧
      (s.shareReg x r).active = s.active ∧ (s.shareReg x r).inUse = s.inUse := by
  have hsame : (s.shareReg x r).active = s.active ∧ (s.shareReg x r).inUse = s.inUse := by
    cases x <;> exact ⟨rfl, rfl⟩
  refine ⟨?_, hsame⟩
  rw [hsame.1]
  refine holds_congr h (fun y hy => reg_shareReg ?_ r s) hsame.2
  rintro rfl
  exact hx hy

/-- Where a register is free, the operand gets one that is. -/
theorem allocate_holds {s : Allocation} {x : Item} (h : s.Holds s.active) (hx : x ∉ s.active)
    (hfree : s.inUse.length < regPool.length) :
    ∃ r s', s.allocateReg x = .ok (r, s') ∧ r ∉ s.inUse ∧ s'.inUse = r :: s.inUse ∧
      s'.active = s.active ∧
      let s'' := activate x { s' with operands := x.setReg (some r) s'.operands }
      s''.Holds s''.active := by
  obtain ⟨r, hr, halloc⟩ := allocate_ok x hfree
  have hne {y : Item} (hy : y ∈ s.active) : y ≠ x := fun he => hx (he ▸ hy)
  let s₁ : Allocation :=
    { s with inUse := r :: s.inUse, operands := x.setReg (some r) s.operands }
  have hreg {y : Item} (hy : y ∈ s.active) :
      (y.operand s₁.operands).reg = (y.operand s.operands).reg := by
    rw [reg_setReg, if_neg (hne hy)]
  have hs₁ : s₁.Busy s₁.active := by
    refine ⟨h.nodup, fun y hy => ?_, fun y hy z hz he => ?_, hfree⟩
    · obtain ⟨q, hq, hyq⟩ := h.hasReg y hy
      exact ⟨q, List.mem_cons_of_mem _ hq, (hreg hy).trans hyq⟩
    · rw [hreg hy, hreg hz] at he
      exact h.distinct y hy z hz he
  refine ⟨r, _, halloc, hr, rfl, rfl, ?_⟩
  refine holds_activate hs₁ hx ?_ List.mem_cons_self fun y hy he => ?_
  · rw [reg_setReg, if_pos rfl]
  -- the registers of the active operands are in use
  · obtain ⟨q, hq, hyq⟩ := h.hasReg y hy
    rw [hreg hy, hyq] at he
    exact hr (Option.some.inj he ▸ hq)

/-- Where no register is free, there is an operand to spill. -/
theorem spill_holds {s : Allocation} {x : Item} (h : s.Holds s.active) (hx : x ∉ s.active)
    (hfull : ¬ s.inUse.length < regPool.length) :
    ∃ s', s.spillAtInterval x = .ok s' ∧ s'.Holds s'.active ∧
      ∀ y ∈ s'.active, y = x ∨ y ∈ s.active := by
  unfold spillAtInterval
  cases hlast : s.active.getLast? with
  | none => exact absurd (h.free (List.getLast?_eq_none_iff.mp hlast)) hfull
  | some spill =>
    have hspill := List.mem_of_getLast? hlast
    have hne {y : Item} (hy : y ∈ s.active) : y ≠ x := fun he => hx (he ▸ hy)
    dsimp only
    split
    · -- the spilled operand leaves its register to the new one
      obtain ⟨r, hr, hreg⟩ := h.hasReg spill hspill
      let kept := s.active.filter fun y =>
        (y.operand s.operands).liveEnd ≠ (spill.operand s.operands).liveEnd
      let o := spill.setReg none (x.setReg (spill.operand s.operands).reg s.operands)
      have hkept {y : Item} (hy : y ∈ kept) : y ∈ s.active ∧ y ≠ spill := by
        obtain ⟨hy, he⟩ := List.mem_filter.mp hy
        refine ⟨hy, fun hs => ?_⟩
        rw [hs] at he
        exact of_decide_eq_true he rfl
      have hsame {y : Item} (hy : y ∈ kept) : (y.operand o).reg = (y.operand s.operands).reg := by
        rw [reg_setReg, if_neg (hkept hy).2, reg_setReg, if_neg (hne (hkept hy).1)]
      have hxreg : (x.operand o).reg = some r := by
        rw [reg_setReg, if_neg (hne hspill).symm, reg_setReg, if_pos rfl, hreg]
      let s₁ : Allocation := { s with operands := o, active := kept }
      have hbusy : s₁.Busy s₁.active := by
        refine ⟨h.nodup.filter _, fun y hy => ?_, fun y hy z hz he => ?_, h.bound⟩
        · obtain ⟨q, hq, hyq⟩ := h.hasReg y (hkept hy).1
          exact ⟨q, hq, (hsame hy).trans hyq⟩
        · refine h.distinct y (hkept hy).1 z (hkept hz).1 ?_
          rw [← hsame hy, ← hsame hz]
          exact he
      refine ⟨s₁.activate x, rfl, ?_, fun y hy => ?_⟩
      · refine holds_activate hbusy (fun hk => hx (hkept hk).1) hxreg hr fun y hy he => ?_
        rw [hsame hy, ← hreg] at he
        exact (hkept hy).2 (h.distinct y (hkept hy).1 spill hspill he)
      · exact (mem_activate.mp hy).imp_right fun hk => (hkept hk).1
    · refine ⟨_, rfl, holds_congr h (fun y hy => ?_) rfl, fun y => .inr⟩
      rw [reg_setReg, if_neg (hne hy)]

/-- The step lemma: an operand's turn comes to its end. -/
theorem step_expired {s s₁ : Allocation} {x : Item} (h : expire x s.active s = .ok s₁) :
    s.step x = match s₁.sharedReg x with
      | some r => .ok (s₁.shareReg x r)
      | none =>
        if s₁.hasFreeReg then do
          let (r, s) ← s₁.allocateReg x
          .ok ({ s with operands := x.setReg (some r) s.operands }.activate x)
        else s₁.spillAtInterval x := by
  unfold step expireOldIntervals
  rw [h]
  rfl

theorem step_holds {s : Allocation} {x : Item} (h : s.Holds s.active) (hx : x ∉ s.active) :
    ∃ s', s.step x = .ok s' ∧ s'.Holds s'.active ∧ ∀ y ∈ s'.active, y = x ∨ y ∈ s.active := by
  obtain ⟨s₁, h₁, hs₁, hsub⟩ := expire_holds (x := x) h
  have hx₁ : x ∉ s₁.active := fun hm => hx (hsub x hm)
  have hkeep {y : Item} (hy : y = x ∨ y ∈ s₁.active) : y = x ∨ y ∈ s.active := hy.imp_right (hsub y)
  rw [step_expired h₁]
  cases hshared : s₁.sharedReg x with
  | some r =>
    obtain ⟨hs₂, hactive, -⟩ := share_holds hs₁ hx₁ r
    exact ⟨_, rfl, hs₂, fun y hy => .inr (hsub y (hactive ▸ hy))⟩
  | none =>
    dsimp only
    split
    · next hfree =>
      obtain ⟨r, s₂, halloc, -, -, hactive, hs₂⟩ := allocate_holds hs₁ hx₁ (of_decide_eq_true hfree)
      rw [halloc]
      exact ⟨_, rfl, hs₂, fun y hy => hkeep ((mem_activate.mp hy).imp_right (hactive ▸ ·))⟩
    · next hfull =>
      obtain ⟨s₂, h₂, hs₂, hsub₂⟩ := spill_holds hs₁ hx₁ fun hlt => hfull (decide_eq_true hlt)
      exact ⟨s₂, h₂, hs₂, fun y hy => hkeep (hsub₂ y hy)⟩

/-- The run lemma. -/
theorem scan_completes {l done : List Item} {s : Allocation} (h : s.Holds s.active)
    (hdone : ∀ y ∈ s.active, y ∈ done) (hl : (l ++ done).Nodup) :
    ∃ s', l.foldlM step s = .ok s' := by
  induction l generalizing s done with
  | nil => exact ⟨s, rfl⟩
  | cons x l ih =>
    obtain ⟨hx, hrest⟩ := List.nodup_cons.mp hl
    obtain ⟨s₁, h₁, hs₁, hsub⟩ := step_holds h fun hm => hx (List.mem_append_right _ (hdone x hm))
    rw [List.foldlM_cons, h₁]
    refine ih hs₁ (fun y hy => ?_) (List.nodup_middle.mpr hl)
    rcases hsub y hy with rfl | hy
    · exact List.mem_cons_self
    · exact List.mem_cons_of_mem _ (hdone y hy)

theorem foldl_insert_perm {α κ : Type} [LT κ] [DecidableRel (α := κ) (· < ·)] (key : α → κ)
    (l acc : List α) : (l.foldl (fun s x => multisetInsert key x s) acc).Perm (l ++ acc) := by
  induction l generalizing acc with
  | nil => exact .refl _
  | cons a l ih =>
    refine (ih _).trans ?_
    refine ((List.perm_orderedInsert _ a acc).append_left l).trans ?_
    exact List.perm_middle

theorem sorted_nodup {c : Compiler} (h : c.vars.Nodup) : c.sorted.Nodup := by
  refine (foldl_insert_perm _ _ _).nodup_iff.mpr ?_
  rw [List.append_nil]
  refine List.nodup_append.mpr ⟨?_, ?_, fun a ha b hb hab => ?_⟩
  · exact (List.nodup_map_iff fun _ _ => Item.var.inj).mpr h
  · exact (List.nodup_map_iff fun _ _ => Item.temp.inj).mpr List.nodup_range
  · obtain ⟨n, -, rfl⟩ := List.mem_map.mp ha
    obtain ⟨m, -, rfl⟩ := List.mem_map.mp hb
    cases hab

theorem holds_start (o : Operands) : Holds { operands := o } [] :=
  ⟨⟨List.nodup_nil, nofun, nofun, Nat.zero_le _⟩, fun _ => (by decide : 0 < regPool.length)⟩

theorem sorted_completes {c : Compiler} (h : c.vars.Nodup) :
    ∃ s, c.sorted.foldlM step { operands := c.operands } = .ok s := by
  have hsorted := sorted_nodup h
  exact scan_completes (holds_start c.operands) nofun (by rwa [List.append_nil])

end LinearScanLemmas

open LinearScanLemmas

/-- `linear_scan_allocate` ends for every compiler that has each variable once. -/
theorem linearScanAllocate_completes {c : Compiler} (h : c.vars.Nodup) :
    ∃ c', c.linearScanAllocate = .ok c' := by
  obtain ⟨s, hs⟩ := sorted_completes h
  refine ⟨{ c with operands := s.operands }, ?_⟩
  unfold Compiler.linearScanAllocate
  rw [hs]
  rfl

end Beaverc.Ir

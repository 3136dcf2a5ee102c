import Beaverc.Base.Results
import Beaverc.LinearScan

/-!
# The bookkeeping of the linear scan

`linear_scan_allocate` statement by statement: its places, the states in which
they are reached, and what `in_use` and `active` are there. The operands that a
spill drops from `active` leave their registers in `in_use`, so `in_use` may hold
the whole pool while `active` holds a single operand, but never while it is empty.
-/

namespace Beaverc.Ir

/-! ## The places -/

/-- A place in the scan, with the operands that are to come: the head of the loop
over them, the head of the loop in `expire_old_intervals`, the end of it, and the
calls of `allocate_reg` and `spill_at_interval`. -/
inductive Place where
  | loop (rest : List Item)
  | expire (x : Item) (rest : List Item)
  | expired (x : Item) (rest : List Item)
  | allocate (x : Item) (rest : List Item)
  | spill (x : Item) (rest : List Item)

/-- The states in which `linear_scan_allocate` reaches a place. -/
inductive Compiler.Arrives (c : Compiler) : Place → Allocation → Prop
  | start : c.Arrives (.loop c.sorted) { operands := c.operands }
  | turn {x : Item} {rest : List Item} {s : Allocation} :
      c.Arrives (.loop (x :: rest)) s → c.Arrives (.expire x rest) s
  | deallocate {x y : Item} {rest tail : List Item} {s s' : Allocation} :
      c.Arrives (.expire x rest) s → s.active = y :: tail →
      ¬ ((x.operand s.operands).liveStart : WithTop Int) < (y.operand s.operands).liveEnd →
      s.deallocateReg y = .ok s' → c.Arrives (.expire x rest) { s' with active := tail }
  | expired {x : Item} {rest : List Item} {s : Allocation} :
      c.Arrives (.expire x rest) s →
      (∀ y tail, s.active = y :: tail →
        ((x.operand s.operands).liveStart : WithTop Int) < (y.operand s.operands).liveEnd) →
      c.Arrives (.expired x rest) s
  | share {x : Item} {rest : List Item} {s : Allocation} {r : Reg} :
      c.Arrives (.expired x rest) s → s.sharedReg x = some r →
      c.Arrives (.loop rest) (s.shareReg x r)
  | allocate {x : Item} {rest : List Item} {s : Allocation} :
      c.Arrives (.expired x rest) s → s.sharedReg x = none → s.hasFreeReg = true →
      c.Arrives (.allocate x rest) s
  | spill {x : Item} {rest : List Item} {s : Allocation} :
      c.Arrives (.expired x rest) s → s.sharedReg x = none → s.hasFreeReg = false →
      c.Arrives (.spill x rest) s
  | allocated {x : Item} {rest : List Item} {s s' : Allocation} {r : Reg} :
      c.Arrives (.allocate x rest) s → s.allocateReg x = .ok (r, s') →
      c.Arrives (.loop rest) ({ s' with operands := x.setReg (some r) s'.operands }.activate x)
  | spilled {x : Item} {rest : List Item} {s s' : Allocation} :
      c.Arrives (.spill x rest) s → s.spillAtInterval x = .ok s' → c.Arrives (.loop rest) s'

/-- `in_use` and `active` agree. -/
structure Allocation.Consistent (s : Allocation) : Prop where
  set : s.inUse.Nodup
  inUse : ∀ y ∈ s.active, ∃ r ∈ s.inUse, (y.operand s.operands).reg = some r
  distinct : s.active.Pairwise fun y z => (y.operand s.operands).reg ≠ (z.operand s.operands).reg
  nonempty : (∀ r ∈ regPool, r ∈ s.inUse) → s.active ≠ []

/-- What the call at a place needs: `deallocate_reg` an operand with a register,
`allocate_reg` a free register, `spill_at_interval` an active operand. -/
def Place.Served (s : Allocation) : Place → Prop
  | .loop _ => True
  | .expire x _ => ∀ y tail, s.active = y :: tail →
      ¬ ((x.operand s.operands).liveStart : WithTop Int) < (y.operand s.operands).liveEnd →
      ∃ r, (y.operand s.operands).reg = some r
  | .expired _ _ => True
  | .allocate _ _ => ∃ r ∈ regPool, r ∉ s.inUse
  | .spill _ _ => s.active ≠ []

namespace BookkeepingLemmas
open Allocation LinearScanLemmas Results

/-! ### The invariant -/

/-- The operands that are not active yet. -/
def pending : Place → List Item
  | .loop rest => rest
  | .expire x rest | .expired x rest | .allocate x rest | .spill x rest => x :: rest

/-- What `has_free_reg` returned on the way to a place. -/
def Checked (s : Allocation) : Place → Prop
  | .allocate _ _ => s.hasFreeReg = true
  | .spill _ _ => s.hasFreeReg = false
  | _ => True

/-- The invariant of the scan. -/
structure Kept (p : Place) (s : Allocation) : Prop where
  holds : s.Holds s.active
  set : s.inUse.Nodup
  apart : ∀ y ∈ s.active, y ∉ pending p
  pending : (pending p).Nodup
  checked : Checked s p

variable {c : Compiler} {p : Place} {s : Allocation} {x : Item} {rest : List Item}

theorem kept_next {s' : Allocation} (h : Kept p s) (hp : pending p = x :: rest)
    (hs : s'.Holds s'.active) (hset : s'.inUse.Nodup)
    (hsub : ∀ y ∈ s'.active, y = x ∨ y ∈ s.active) : Kept (.loop rest) s' := by
  have hpending := h.pending
  rw [hp] at hpending
  refine ⟨hs, hset, fun y hy => ?_, (List.nodup_cons.mp hpending).2, trivial⟩
  rcases hsub y hy with rfl | hy
  · exact (List.nodup_cons.mp hpending).1
  · intro hm
    exact h.apart y hy (hp ▸ List.mem_cons_of_mem x hm)

theorem Kept.apart_head (h : Kept p s) (hp : BookkeepingLemmas.pending p = x :: rest) :
    x ∉ s.active :=
  fun hx => h.apart x hx (hp ▸ List.mem_cons_self)

theorem spill_inUse {s' : Allocation} (h : s.spillAtInterval x = .ok s') : s'.inUse = s.inUse := by
  unfold spillAtInterval at h
  split at h
  · cases h
  · dsimp only at h
    split at h
    · cases h
      rfl
    · cases h
      rfl

theorem deallocate_kept {y : Item} {tail : List Item} {s' : Allocation}
    (h : Kept (.expire x rest) s) (hactive : s.active = y :: tail)
    (hs' : s.deallocateReg y = .ok s') : Kept (.expire x rest) { s' with active := tail } := by
  have hholds := h.holds
  rw [hactive] at hholds
  obtain ⟨s₁, h₁, hs₁⟩ := deallocate_holds hholds
  cases hs'.symm.trans h₁
  have hset : s'.inUse.Nodup := by
    unfold deallocateReg at hs'
    split at hs'
    · cases hs'
      exact h.set.erase _
    · cases hs'
  refine ⟨holds_congr hs₁ (fun _ _ => rfl) rfl, hset, fun z hz => ?_, h.pending, trivial⟩
  exact h.apart z (hactive ▸ List.mem_cons_of_mem y hz)

/-- The step lemma, one case for each way on. -/
theorem arrives_kept (hstart : c.sorted.Nodup) (h : c.Arrives p s) : Kept p s := by
  induction h with
  | start => exact ⟨holds_start _, List.nodup_nil, nofun, hstart, trivial⟩
  | turn _ ih => exact ⟨ih.holds, ih.set, ih.apart, ih.pending, trivial⟩
  | deallocate _ hactive _ hs' ih => exact deallocate_kept ih hactive hs'
  | expired _ _ ih => exact ⟨ih.holds, ih.set, ih.apart, ih.pending, trivial⟩
  | @share x rest s r _ _ ih =>
    obtain ⟨hholds, hactive, hinUse⟩ := share_holds ih.holds (ih.apart_head rfl) r
    exact kept_next ih rfl hholds (hinUse ▸ ih.set) fun y hy => .inr (hactive ▸ hy)
  | allocate _ _ hfree ih => exact ⟨ih.holds, ih.set, ih.apart, ih.pending, hfree⟩
  | spill _ _ hfull ih => exact ⟨ih.holds, ih.set, ih.apart, ih.pending, hfull⟩
  | @allocated x rest s s' r _ hs' ih =>
    obtain ⟨r₁, s₁, h₁, hr, hinUse, hactive, hholds⟩ :=
      allocate_holds ih.holds (ih.apart_head rfl) (of_decide_eq_true ih.checked)
    cases hs'.symm.trans h₁
    refine kept_next ih rfl hholds ?_ fun y hy => (mem_activate.mp hy).imp_right (hactive ▸ ·)
    show s'.inUse.Nodup
    rw [hinUse]
    exact List.nodup_cons.mpr ⟨hr, ih.set⟩
  | @spilled x rest s s' _ hs' ih =>
    obtain ⟨s₁, h₁, hholds, hsub⟩ :=
      spill_holds ih.holds (ih.apart_head rfl) (of_decide_eq_false ih.checked)
    cases hs'.symm.trans h₁
    exact kept_next ih rfl hholds (spill_inUse hs' ▸ ih.set) hsub

/-! ### What the invariant gives -/

theorem pool_fits {inUse : List Reg} (h : ∀ r ∈ regPool, r ∈ inUse) :
    ¬ inUse.length < regPool.length := by
  intro hlt
  obtain ⟨r, hr, hn⟩ := exists_free hlt
  exact hn (h r hr)

theorem kept_consistent (h : Kept p s) : s.Consistent := by
  refine ⟨h.set, h.holds.hasReg, ?_, fun hpool hnil => pool_fits hpool (h.holds.free hnil)⟩
  refine h.holds.nodup.imp_of_mem fun {y z} hy hz hne he => ?_
  exact hne (h.holds.distinct y hy z hz he)

theorem kept_served (h : Kept p s) : p.Served s := by
  cases p with
  | loop => trivial
  | expire x rest =>
    intro y tail hactive _
    obtain ⟨r, -, hr⟩ := h.holds.hasReg y (hactive ▸ List.mem_cons_self)
    exact ⟨r, hr⟩
  | expired => trivial
  | allocate => exact exists_free (of_decide_eq_true h.checked)
  | spill => exact fun hnil => of_decide_eq_false h.checked (h.holds.free hnil)

/-! ### The scan goes through these places -/

theorem arrives_expired {l : List Item} {s₁ : Allocation}
    (h : c.Arrives (.expire x rest) { s with active := l }) (hs : expire x l s = .ok s₁) :
    c.Arrives (.expired x rest) s₁ := by
  induction l generalizing s with
  | nil =>
    cases hs
    exact .expired h nofun
  | cons y tail ih =>
    rw [expire] at hs
    split at hs
    · next hlt =>
      cases hs
      refine .expired h fun z tail' he => ?_
      cases he
      exact hlt
    · next hge =>
      obtain ⟨s', hs', hs⟩ := bind_ok.mp hs
      have hdeallocate : deallocateReg y { s with active := y :: tail } =
          .ok { s' with active := y :: tail } := by
        unfold deallocateReg at hs' ⊢
        split at hs'
        · next r hr =>
          cases hs'
          rw [hr]
        · cases hs'
      have hnext := Compiler.Arrives.deallocate h rfl hge hdeallocate
      exact ih (s := s') hnext hs

theorem arrives_step {s' : Allocation} (h : c.Arrives (.loop (x :: rest)) s)
    (hs : s.step x = .ok s') : c.Arrives (.loop rest) s' := by
  unfold step at hs
  obtain ⟨s₁, h₁, hs⟩ := bind_ok.mp hs
  have hexpired : c.Arrives (.expired x rest) s₁ := arrives_expired h.turn h₁
  split at hs
  · next r hr =>
    cases hs
    exact hexpired.share hr
  · next hr =>
    split at hs
    · next hfree =>
      obtain ⟨⟨r, s₂⟩, h₂, hs⟩ := bind_ok.mp hs
      cases hs
      exact (hexpired.allocate hr hfree).allocated h₂
    · next hfull => exact (hexpired.spill hr (Bool.eq_false_iff.mpr hfull)).spilled hs

theorem arrives_scan {l : List Item} {s' : Allocation} (h : c.Arrives (.loop l) s)
    (hs : l.foldlM step s = .ok s') : c.Arrives (.loop []) s' := by
  induction l generalizing s with
  | nil =>
    cases hs
    exact h
  | cons x l ih =>
    obtain ⟨s₁, h₁, hs⟩ := bind_ok.mp hs
    exact ih (arrives_step h h₁) hs

end BookkeepingLemmas

open BookkeepingLemmas LinearScanLemmas

/-- Wherever the scan arrives, `in_use` and `active` agree and the next call finds
what it needs, and the scan arrives at its end. -/
theorem linearScan_consistent {c : Compiler} (h : c.vars.Nodup) :
    (∀ p s, c.Arrives p s → s.Consistent ∧ p.Served s) ∧
      ∃ s, c.Arrives (.loop []) s ∧
        c.linearScanAllocate = .ok { c with operands := s.operands } := by
  refine ⟨fun p s harrives => ?_, ?_⟩
  · have hkept := arrives_kept (sorted_nodup h) harrives
    exact ⟨kept_consistent hkept, kept_served hkept⟩
  · obtain ⟨s, hs⟩ := sorted_completes h
    refine ⟨s, arrives_scan .start hs, ?_⟩
    unfold Compiler.linearScanAllocate
    rw [hs]
    rfl

/-- A variable and nine temps, none of them ever alive. -/
def neverAlive : Compiler where
  bytecode := {}
  vars := [0]
  temps := 9
  operands := .fresh

theorem neverAlive_consistent :
    (∀ p s, neverAlive.Arrives p s → s.Consistent ∧ p.Served s) ∧
      ∃ s, neverAlive.Arrives (.loop []) s ∧
        neverAlive.linearScanAllocate = .ok { neverAlive with operands := s.operands } :=
  linearScan_consistent (c := neverAlive) (by decide)

/-- Eight temps that end together and a ninth that ends before them: the spill drops
all eight, and the whole pool is in use with one active operand. -/
example :
    let o : Operands := { Operands.fresh with
      temp := fun n => { liveStart := n, liveEnd := if n < 8 then (20 : Int) else (10 : Int) } }
    (((List.range 9).map Item.temp).foldlM Allocation.step { operands := o }).map
      (fun s => (s.active, s.inUse.length)) = .ok ([.temp 8], 8) := by
  decide

end Beaverc.Ir

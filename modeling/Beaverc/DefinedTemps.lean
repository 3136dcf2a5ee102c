import Mathlib.Data.List.Pairwise
import Beaverc.Loops
import Beaverc.SingleUse

/-!
# The passes keep the temps defined

`removeObsolete` deletes the assignments of temps that other passes have marked
as obsolete. No pass marks a temp that is still taken by an instruction: constant
folding and the deletion of stores mark what the instruction took that they
replace, which nothing else takes, and `DeadTempOptimization` marks temps that
the liveness of the same code has not seen read. So on every path through the
code, at any point of `runAllPasses`, what an instruction reads has been written
before, behind the last label.
-/

namespace Beaverc.Ir
open Results SingleUseLemmas

/-! ## Paths -/

/-- Control can get to a position through the positions `before`, the last one
first. -/
inductive Path (code : List Instruction) : List Nat → Nat → Prop
  | start : Path code [] 0
  | step {before : List Nat} {p q : Nat} : Path code before p → Flows code p q →
      Path code (p :: before) q

/-- On every path to a read of a temp, the temp has been written, and there has
been no label since. -/
def DefinedOnPaths (code : List Instruction) : Prop :=
  ∀ before p i t, Path code before p → code[p]? = some i → t ∈ i.reads →
    ∃ between q rest j, before = between ++ q :: rest ∧ code[q]? = some j ∧ t ∈ j.dests ∧
      ∀ m ∈ between, ∀ k, code[m]? = some k → k.isLabel = false

namespace DefinedTempsLemmas

/-- A temp that is written at the end of straight code was written on the way. -/
theorem written_take_succ {code : List Instruction} {p : Nat} {i : Instruction}
    (hi : code[p]? = some i) : written [] (code.take (p + 1)) =
      if i.isLabel then [] else i.dests ++ written [] (code.take p) := by
  rw [List.take_add_one, hi, written_append]
  rfl

theorem scoped_at {code : List Instruction} (h : Scoped [] code) {p : Nat} {i : Instruction}
    (hi : code[p]? = some i) : ∀ t ∈ i.reads, t ∈ written [] (code.take p) := by
  have hsplit : code.take p ++ code.drop p = code := List.take_append_drop p code
  rw [← hsplit, scoped_append] at h
  have hhead : (code.drop p).head? = some i := by rw [List.head?_drop, hi]
  cases hd : code.drop p with
  | nil => rw [hd] at hhead; cases hhead
  | cons j rest =>
    rw [hd] at hhead h
    cases hhead
    exact h.2.1

/-- Where a label stands, a label stands. -/
theorem position_label {code : List Instruction} {l : Nat} {i : Instruction}
    (hi : code[position code l]? = some i) : i = .outputLabel l := by
  have hlt := (List.getElem?_eq_some_iff.mp hi).1
  unfold position at hi hlt
  rw [List.getElem?_eq_getElem hlt, List.getElem_idxOf] at hi
  exact (Option.some.inj hi).symm

/-- What a path to a position has written since its last label. -/
def WrittenOn (code : List Instruction) (before : List Nat) (t : Nat) : Prop :=
  ∃ between q rest j, before = between ++ q :: rest ∧ code[q]? = some j ∧ t ∈ j.dests ∧
    ∀ m ∈ between, ∀ k, code[m]? = some k → k.isLabel = false

/-- The step lemma: on a path, what is written in the code in front of a position
is written on the path, unless a label stands there. -/
theorem writtenOn_of_path {code : List Instruction} {before : List Nat} {p : Nat}
    (h : Path code before p) : (∀ i, code[p]? = some i → i.isLabel = true) ∨
      ∀ t ∈ written [] (code.take p), WrittenOn code before t := by
  induction h with
  | start => exact .inr nofun
  | @step before p q hpath hflow ih =>
    cases hflow with
    | jump hi hl => exact .inl fun i hi => by rw [position_label hi]; rfl
    | @next i hi _ =>
      refine .inr fun t ht => ?_
      rw [written_take_succ hi] at ht
      cases hlabel : i.isLabel with
      | true => rw [if_pos hlabel] at ht; cases ht
      | false =>
        rw [if_neg (by rw [hlabel]; nofun)] at ht
        rcases List.mem_append.mp ht with ht | ht
        · exact ⟨[], p, before, i, rfl, hi, ht, nofun⟩
        · rcases ih with ih | ih
          · rw [ih i hi] at hlabel
            cases hlabel
          · obtain ⟨between, q, rest, j, rfl, hj, hd, hb⟩ := ih t ht
            refine ⟨p :: between, q, rest, j, rfl, hj, hd, fun m hm k hk => ?_⟩
            rcases List.mem_cons.mp hm with rfl | hm
            · rw [hi] at hk
              cases hk
              exact hlabel
            · exact hb m hm k hk

end DefinedTempsLemmas

open DefinedTempsLemmas

theorem definedOnPaths_of_scoped {code : List Instruction} (h : Scoped [] code) :
    DefinedOnPaths code := by
  intro before p i t hpath hi ht
  have hwritten := scoped_at h hi t ht
  rcases writtenOn_of_path hpath with hlabel | hall
  · have hl := hlabel i hi
    cases i <;> first | exact absurd ht List.not_mem_nil | cases hl
  · exact hall t hwritten

/-! ## Loops over the instructions -/

/-- What one visit makes of an instruction: it reads and takes no other temps, and
none that are dropped; it writes the same temps, but for dropped ones; it is no
new label, and the temps it marks as obsolete are no longer taken. -/
structure Reduces (dropped : Nat → Prop) (i i' : Instruction) (obsolete : List Nat) : Prop where
  reads : ∀ t ∈ i'.reads, t ∈ i.reads ∧ ¬ dropped t
  uses : i'.uses.Sublist i.uses
  dests : i'.dests.Sublist i.dests
  kept : ∀ t ∈ i.dests, t ∈ i'.dests ∨ dropped t
  label : i'.isLabel = true → i.isLabel = true
  assign : ∀ dest src, i = .assign dest src → i' = i ∨ i' = .noop
  obsolete : ∀ t ∈ obsolete, t ∈ i.uses ∧ t ∉ i'.uses

/-- What a loop makes of the code. -/
inductive Reduced (R : Instruction → Instruction → List Nat → Prop) :
    List Instruction → List Instruction → List Nat → Prop
  | nil : Reduced R [] [] []
  | cons {i i' : Instruction} {rest rest' : List Instruction} {obsolete obsolete' : List Nat} :
      R i i' obsolete → Reduced R rest rest' obsolete' →
      Reduced R (i :: rest) (i' :: rest') (obsolete ++ obsolete')

namespace DefinedTempsLemmas

theorem loop_reduced {visit : Nat → Instruction → Operands → Except Fault Visited}
    {R : Instruction → Instruction → List Nat → Prop} {count : Nat} {code code' : List Instruction}
    {o o' : Operands} {obsolete : List Nat}
    (step : ∀ {count i o v}, i ∈ code → visit count i o = .ok v → R i v.instruction v.obsolete)
    (h : loop visit count code o = .ok (code', o', obsolete)) : Reduced R code code' obsolete := by
  induction code generalizing count code' o obsolete with
  | nil =>
    cases h
    exact .nil
  | cons i rest ih =>
    obtain ⟨v, hv, h⟩ := bind_ok.mp h
    obtain ⟨⟨code₁, o₁, obsolete₁⟩, h₁, hr⟩ := bind_ok.mp h
    cases hr
    exact .cons (step (List.mem_cons_self ..) hv)
      (ih (fun hi => step (List.mem_cons_of_mem _ hi)) h₁)

section Reduced

variable {dropped : Nat → Prop} {code code' : List Instruction} {obsolete : List Nat}

theorem uses_sublist (h : Reduced (Reduces dropped) code code' obsolete) :
    (uses code').Sublist (uses code) := by
  induction h with
  | nil => exact List.Sublist.refl _
  | cons hi _ ih => exact hi.uses.append ih

theorem dests_sublist (h : Reduced (Reduces dropped) code code' obsolete) :
    (dests code').Sublist (dests code) := by
  induction h with
  | nil => exact List.Sublist.refl _
  | cons hi _ ih => exact hi.dests.append ih

theorem scoped_reduced (h : Reduced (Reduces dropped) code code' obsolete)
    {before before' : List Nat}
    (hb : ∀ t ∈ before, t ∈ before' ∨ dropped t) (hs : Scoped before code) :
    Scoped before' code' := by
  induction h generalizing before before' with
  | nil => trivial
  | @cons i i' _ _ _ _ hi _ ih =>
    refine ⟨fun t ht => ?_, ih (fun t ht => ?_) hs.2⟩
    · obtain ⟨hread, hdropped⟩ := hi.reads t ht
      exact (hb t (hs.1 t hread)).resolve_right hdropped
    · cases hl : i.isLabel with
      | true => rw [hl, if_pos rfl] at ht; cases ht
      | false =>
        have hl' : i'.isLabel = false := by
          cases hl' : i'.isLabel with
          | true => rw [hi.label hl'] at hl; cases hl
          | false => rfl
        rw [hl, if_neg (by nofun), List.mem_append] at ht
        rw [hl', if_neg (by nofun), List.mem_append]
        rcases ht with ht | ht
        · exact (hi.kept t ht).imp_left .inl
        · exact (hb t ht).imp_left .inr

/-- What is marked as obsolete is taken nowhere in the new code, since it was taken
only once. -/
theorem obsolete_unused (h : Reduced (Reduces dropped) code code' obsolete)
    (hn : (uses code).Nodup) : ∀ t ∈ obsolete, t ∈ uses code ∧ t ∉ uses code' := by
  induction h with
  | nil => exact nofun
  | @cons i i' rest rest' obsolete obsolete' hi hrest ih =>
    have hparts : (i.uses ++ uses rest).Nodup := hn
    obtain ⟨-, hr, hdisjoint⟩ := List.nodup_append.mp hparts
    intro t ht
    show t ∈ i.uses ++ uses rest ∧ t ∉ i'.uses ++ uses rest'
    rw [List.mem_append, List.mem_append]
    rcases List.mem_append.mp ht with ht | ht
    · obtain ⟨hused, hgone⟩ := hi.obsolete t ht
      refine ⟨.inl hused, fun h => ?_⟩
      rcases h with h | h
      · exact hgone h
      · exact hdisjoint t hused t ((uses_sublist hrest).subset h) rfl
    · obtain ⟨hused, hgone⟩ := ih hr t ht
      refine ⟨.inr hused, fun h => ?_⟩
      rcases h with h | h
      · exact hdisjoint t (hi.uses.subset h) t hused rfl
      · exact hgone h

end Reduced

end DefinedTempsLemmas

/-! ## The invariant -/

/-- The temps in the middle of `runAllPasses`. -/
structure OptimizingCompiler.Threaded (oc : OptimizingCompiler) : Prop where
  nodup : (uses oc.compiler.instructions).Nodup
  writes : (dests oc.compiler.instructions).Nodup
  inScope : Scoped [] oc.compiler.instructions
  obsolete : ∀ t ∈ oc.obsolete, t ∉ uses oc.compiler.instructions

namespace DefinedTempsLemmas

theorem threaded_reduced {dropped : Nat → Prop} {oc oc' : OptimizingCompiler} {obsolete : List Nat}
    (h : oc.Threaded)
    (hr : Reduced (Reduces dropped) oc.compiler.instructions oc'.compiler.instructions obsolete)
    (ho : ∀ t ∈ oc'.obsolete, t ∈ oc.obsolete ∨ t ∈ obsolete) : oc'.Threaded := by
  refine ⟨(uses_sublist hr).nodup h.nodup, (dests_sublist hr).nodup h.writes,
    scoped_reduced hr (fun _ => .inl) h.inScope, fun t ht => ?_⟩
  rcases ho t ht with ht | ht
  · exact fun hu => h.obsolete t ht ((uses_sublist hr).subset hu)
  · exact (obsolete_unused hr h.nodup t ht).2

theorem reduces_refl {dropped : Nat → Prop} {i : Instruction} (h : ∀ t ∈ i.reads, ¬ dropped t) :
    Reduces dropped i i [] :=
  ⟨fun t ht => ⟨ht, h t ht⟩, List.Sublist.refl _, List.Sublist.refl _, fun _ => .inl, id,
    fun _ _ _ => .inl rfl, nofun⟩

theorem optimize_ok {visit : Nat → Instruction → Operands → Except Fault Visited}
    {oc oc' : OptimizingCompiler} (h : oc.optimize visit = .ok oc') : ∃ obsolete,
      loop visit 0 oc.compiler.instructions oc.compiler.operands =
        .ok (oc'.compiler.instructions, oc'.compiler.operands, obsolete) ∧
      oc'.obsolete = oc.obsolete ++ obsolete := by
  obtain ⟨⟨code, o, obsolete⟩, hl, hr⟩ := bind_ok.mp h
  cases hr
  exact ⟨obsolete, hl, rfl⟩

/-! ### The visits -/

theorem reduces_fold {i : Instruction} {dest : Nat} {fold : Except Fault (Option Value)}
    {o : Operands} {v : Visited} (hi : ∃ op src1 src2, i = .binOp op dest src1 src2 ∨
      ∃ op src, i = .unOp op dest src) (h : foldTo i dest i.reads fold o = .ok v) :
    Reduces (fun _ => False) i v.instruction v.obsolete := by
  have huses : i.uses = i.reads ∧ i.dests = [dest] ∧ ∀ d s, i ≠ .assign d s := by
    obtain ⟨op, src1, src2, rfl | ⟨op, src, rfl⟩⟩ := hi
    · exact ⟨rfl, rfl, nofun⟩
    · exact ⟨rfl, rfl, nofun⟩
  unfold foldTo at h
  split at h
  · obtain ⟨r, -, h⟩ := bind_ok.mp h
    cases r with
    | none =>
      cases h
      exact reduces_refl fun _ _ => id
    | some c =>
      cases h
      refine ⟨nofun, List.nil_sublist _, ?_, fun t ht => .inl ?_, nofun, fun d s hd => ?_,
        fun t ht => ⟨?_, List.not_mem_nil⟩⟩
      · rw [huses.2.1]
        exact List.Sublist.refl _
      · rw [huses.2.1] at ht
        exact ht
      · exact absurd hd (huses.2.2 d s)
      · rw [huses.1]
        exact ht
  · cases h
    exact reduces_refl fun _ _ => id

theorem reduces_constantFolding {i : Instruction} {o : Operands} {v : Visited}
    (h : constantFolding i o = .ok v) : Reduces (fun _ => False) i v.instruction v.obsolete := by
  unfold constantFolding at h
  split at h
  · next op dest src1 src2 => exact reduces_fold ⟨op, src1, src2, .inl rfl⟩ h
  · next op dest src => exact reduces_fold ⟨.add, 0, 0, .inr ⟨op, src, rfl⟩⟩ h
  · cases h
    exact reduces_refl fun _ _ => id

theorem reduces_typeSpecialization (i : Instruction) (o : Operands) :
    Reduces (fun _ => False) i (typeSpecialization i o).instruction
      (typeSpecialization i o).obsolete := by
  unfold typeSpecialization
  split
  · dsimp only
    split
    · exact reduces_refl fun _ _ => id
    · exact ⟨fun _ ht => ⟨ht, id⟩, List.Sublist.refl _, List.Sublist.refl _, fun _ => .inl, nofun,
        nofun, nofun⟩
  · exact reduces_refl fun _ _ => id

/-- What is deleted is taken nowhere, so only `CallAssert`s read it. -/
theorem reduces_removeObsolete {obsolete : List Nat} {code : List Instruction}
    (hu : ∀ t ∈ obsolete, t ∉ uses code) {i : Instruction} (hi : i ∈ code) {o : Operands}
    {v : Visited} (h : removeObsolete obsolete i o = .ok v) :
    Reduces (· ∈ obsolete) i v.instruction v.obsolete := by
  have hnoop (hreads : i.uses = []) (hd : ∀ t ∈ i.dests, t ∈ obsolete) :
      Reduces (· ∈ obsolete) i .noop [] :=
    ⟨nofun, hreads ▸ List.Sublist.refl _, List.nil_sublist _, fun t ht => .inr (hd t ht), nofun,
      fun _ _ _ => .inr rfl, nofun⟩
  unfold removeObsolete at h
  split at h
  · next dest src =>
    cases h
    dsimp only
    split
    · next hd => exact hnoop rfl fun t ht => List.mem_singleton.mp ht ▸ hd
    · exact reduces_refl fun t ht => absurd ht List.not_mem_nil
  · next a arg =>
    split at h
    · cases h
      exact hnoop rfl fun t ht => absurd ht List.not_mem_nil
    · next harg =>
      obtain ⟨b, -, h⟩ := bind_ok.mp h
      cases h
      cases b with
      | true => exact hnoop rfl fun t ht => absurd ht List.not_mem_nil
      | false => exact reduces_refl fun t ht => List.mem_singleton.mp ht ▸ harg
  · next hassign hassert =>
    cases h
    refine reduces_refl fun t ht hd => hu t hd (List.mem_flatMap.mpr ⟨i, hi, ?_⟩)
    have hno : i.isAssert = false := by
      cases i <;> first | rfl | exact absurd rfl (hassert _ _)
    rwa [Instruction.uses, hno, if_neg Bool.false_ne_true]

theorem reduces_deadVariableAssignment (count : Nat) (i : Instruction) (o : Operands) :
    Reduces (fun _ => False) i (deadVariableAssignment count i o).instruction
      (deadVariableAssignment count i o).obsolete := by
  unfold deadVariableAssignment
  split
  · split
    · exact ⟨nofun, List.nil_sublist _, List.Sublist.refl _, nofun, nofun, nofun,
        fun t ht => ⟨ht, List.not_mem_nil⟩⟩
    · exact reduces_refl fun _ _ => id
  · exact reduces_refl fun _ _ => id

theorem reduces_shortJump (c : Compiler) (count : Nat) (i : Instruction) :
    Reduces (fun _ => False) i (shortJump c count i) [] := by
  unfold shortJump
  split
  · split
    · exact ⟨nofun, List.Sublist.refl _, List.Sublist.refl _, nofun, nofun, nofun, nofun⟩
    · exact reduces_refl nofun
  · exact reduces_refl fun _ _ => id

/-! ### The passes -/

theorem uses_removeNoop (code : List Instruction) :
    uses (code.filter (· ≠ .noop)) = uses code ∧ dests (code.filter (· ≠ .noop)) = dests code := by
  induction code with
  | nil => exact ⟨rfl, rfl⟩
  | cons i code ih =>
    by_cases hi : i = .noop
    · subst hi
      rw [List.filter_cons_of_neg (by simp)]
      exact ih
    · rw [List.filter_cons_of_pos (by simp [hi])]
      exact ⟨congrArg (i.uses ++ ·) ih.1, congrArg (i.dests ++ ·) ih.2⟩

theorem scoped_removeNoop {before : List Nat} {code : List Instruction} (h : Scoped before code) :
    Scoped before (code.filter (· ≠ .noop)) := by
  induction code generalizing before with
  | nil => trivial
  | cons i code ih =>
    by_cases hi : i = .noop
    · subst hi
      rw [List.filter_cons_of_neg (by simp)]
      exact ih h.2
    · rw [List.filter_cons_of_pos (by simp [hi])]
      exact ⟨h.1, ih h.2⟩

theorem forceLoads (params : List Nat) (code : List Instruction) :
    uses (params.map .forceLoad ++ code) = uses code ∧
      dests (params.map .forceLoad ++ code) = dests code ∧
        ∀ before, Scoped before code → Scoped before (params.map .forceLoad ++ code) := by
  induction params with
  | nil => exact ⟨rfl, rfl, fun _ => id⟩
  | cons n params ih => exact ⟨ih.1, ih.2.1, fun before h => ⟨nofun, ih.2.2 before h⟩⟩

end DefinedTempsLemmas

/-- Every temp that is read has a `live_end`. -/
def OptimizingCompiler.Measured (oc : OptimizingCompiler) : Prop :=
  ∀ i ∈ oc.compiler.instructions, ∀ t ∈ i.reads, (oc.compiler.operands.temp t).liveEnd ≠ ⊤

/-- An `Assign` of `oc` that writes a temp that is still written in `oc'` is still
there. -/
def OptimizingCompiler.KeepsAssigns (oc oc' : OptimizingCompiler) : Prop :=
  ∀ j ∈ oc'.compiler.instructions, ∀ t ∈ j.dests, ∃ i ∈ oc.compiler.instructions, t ∈ i.dests ∧
    ∀ dest src, i = .assign dest src → j = i

namespace DefinedTempsLemmas

theorem keepsAssigns_refl {oc oc' : OptimizingCompiler}
    (h : ∀ i ∈ oc'.compiler.instructions, i.dests ≠ [] → i ∈ oc.compiler.instructions) :
    oc.KeepsAssigns oc' :=
  fun j hj _ ht => ⟨j, h j hj (List.ne_nil_of_mem ht), ht, fun _ _ _ => rfl⟩

theorem keepsAssigns_trans {oc₁ oc₂ oc₃ : OptimizingCompiler} (h₁ : oc₁.KeepsAssigns oc₂)
    (h₂ : oc₂.KeepsAssigns oc₃) : oc₁.KeepsAssigns oc₃ := by
  intro j hj t ht
  obtain ⟨i, hi, hti, hij⟩ := h₂ j hj t ht
  obtain ⟨k, hk, htk, hki⟩ := h₁ i hi t hti
  refine ⟨k, hk, htk, fun dest src he => ?_⟩
  have hik := hki dest src he
  exact (hij dest src (hik.trans he)).trans hik

theorem keepsAssigns_reduced {dropped : Nat → Prop} {code code' : List Instruction}
    {obsolete : List Nat} (h : Reduced (Reduces dropped) code code' obsolete) :
    ∀ j ∈ code', ∀ t ∈ j.dests, ∃ i ∈ code, t ∈ i.dests ∧
      ∀ dest src, i = .assign dest src → j = i := by
  induction h with
  | nil => exact nofun
  | @cons i i' rest rest' _ _ hi _ ih =>
    intro j hj t ht
    rcases List.mem_cons.mp hj with rfl | hj
    · refine ⟨i, List.mem_cons_self, hi.dests.subset ht, fun dest src he => ?_⟩
      refine (hi.assign dest src he).resolve_right fun hnoop => ?_
      rw [hnoop] at ht
      cases ht
    · obtain ⟨k, hk, hrest⟩ := ih j hj t ht
      exact ⟨k, List.mem_cons_of_mem _ hk, hrest⟩

/-- A pass each of whose visits reduces its instruction. -/
theorem optimize_threaded {dropped : Nat → Prop}
    {visit : Nat → Instruction → Operands → Except Fault Visited} {oc oc' : OptimizingCompiler}
    (h : oc.Threaded) (hr : oc.optimize visit = .ok oc')
    (step : ∀ {count i o v}, i ∈ oc.compiler.instructions → visit count i o = .ok v →
      Reduces dropped i v.instruction v.obsolete) : oc'.Threaded ∧ oc.KeepsAssigns oc' := by
  obtain ⟨obsolete, hl, ho⟩ := optimize_ok hr
  have hreduced := loop_reduced step hl
  refine ⟨threaded_reduced h hreduced fun t ht => ?_, keepsAssigns_reduced hreduced⟩
  rw [ho] at ht
  exact List.mem_append.mp ht

theorem optimize_hints {f : Nat → Instruction → Operands → Operands} {oc oc' : OptimizingCompiler}
    (h : oc.Threaded) (hr : (oc.optimize fun count i o => .ok ⟨i, f count i o, []⟩) = .ok oc') :
    oc'.Threaded ∧ oc.KeepsAssigns oc' := by
  refine optimize_threaded h hr (fun {_ i _ v} _ hv =>
    (?_ : Reduces (fun _ => False) i v.instruction v.obsolete))
  cases hv
  exact reduces_refl fun _ _ => id

theorem temp_modifyTemp (o : Operands) (n t : Nat) (f : Temp → Temp) :
    (o.modifyTemp n f).temp t = if t = n then f (o.temp t) else o.temp t := by
  unfold Operands.modifyTemp
  show Function.update o.temp n (f (o.temp n)) t = _
  split
  · next h => rw [h, Function.update_self]
  · next h => rw [Function.update_of_ne h]

theorem temp_dead (count : Nat) (o : Operands) (u : Nat) : (dead count o u).temp =
    (o.modifyTemp u (Temp.modify fun t =>
    { t with liveEnd := ((count : Int) : WithTop Int) })).temp := by
  unfold dead
  dsimp only
  split <;> rfl

/-- `dead` gives the temps that are read a `live_end`. -/
theorem liveEnd_tempLiveness (count : Nat) (i : Instruction) (o : Operands) (t : Nat)
    (h : t ∈ i.reads ∨ (o.temp t).liveEnd ≠ ⊤) : ((tempLiveness count i o).temp t).liveEnd ≠ ⊤ := by
  have hdead (l : List Nat) (o : Operands) (h : t ∈ l ∨ (o.temp t).liveEnd ≠ ⊤) :
      ((l.foldl (dead count) o).temp t).liveEnd ≠ ⊤ := by
    induction l generalizing o with
    | nil => exact h.resolve_left List.not_mem_nil
    | cons u l ih =>
      refine ih _ ?_
      rw [temp_dead, temp_modifyTemp]
      by_cases hu : t = u
      · rw [if_pos hu]
        exact .inr (WithTop.coe_ne_top (a := (count : Int)))
      · rw [if_neg hu]
        exact h.imp_left fun ht => (List.mem_cons.mp ht).resolve_left hu
  have halive (l : List Nat) (o : Operands) (h : (o.temp t).liveEnd ≠ ⊤) :
      ((l.foldl (alive count) o).temp t).liveEnd ≠ ⊤ := by
    induction l generalizing o with
    | nil => exact h
    | cons u l ih =>
      refine ih _ ?_
      unfold alive
      rw [temp_modifyTemp]
      split <;> exact h
  exact halive _ _ (hdead _ _ h)

theorem measured_tempLiveness {oc oc' : OptimizingCompiler}
    (hr : oc.run .tempLiveness = .ok oc') : oc'.Measured := by
  obtain ⟨obsolete, hl, -⟩ := optimize_ok hr
  refine loop_invariant (fun done _ o _ => ∀ i ∈ done, ∀ t ∈ i.reads, (o.temp t).liveEnd ≠ ⊤)
    (fun {done i rest o _ v} h hv => ?_) nofun hl
  cases hv
  intro j hj t ht
  refine liveEnd_tempLiveness _ i o t ?_
  rcases List.mem_append.mp hj with hj | hj
  · exact .inr (h j hj t ht)
  · cases List.mem_singleton.mp hj
    exact .inl ht

/-- What is marked as dead is not read. -/
theorem deadTemp_threaded {oc oc' : OptimizingCompiler} (h : oc.Threaded) (hm : oc.Measured)
    (hr : oc.run .deadTemp = .ok oc') : oc'.Threaded ∧ oc.KeepsAssigns oc' := by
  obtain ⟨obsolete, hl, ho⟩ := optimize_ok hr
  have hinv := loop_invariant (fun done rest o obsolete => o = oc.compiler.operands ∧
      done ++ rest = oc.compiler.instructions ∧
      ∀ t ∈ obsolete, (oc.compiler.operands.temp t).liveEnd = ⊤)
    (fun {done i rest o obsolete v} hinv hv => by
      obtain ⟨rfl, hcode, hobs⟩ := hinv
      cases hv
      refine ⟨rfl, ?_, fun t ht => ?_⟩
      · rw [List.append_assoc]
        exact hcode
      · rcases List.mem_append.mp ht with ht | ht
        · exact hobs t ht
        · exact of_decide_eq_true (List.mem_filter.mp ht).2)
    ⟨rfl, rfl, nofun⟩ hl
  obtain ⟨-, hcode, hobs⟩ := hinv
  rw [List.append_nil] at hcode
  refine ⟨⟨hcode ▸ h.nodup, hcode ▸ h.writes, hcode ▸ h.inScope, fun t ht => ?_⟩,
    keepsAssigns_refl fun i hi _ => hcode ▸ hi⟩
  rw [hcode]
  rw [ho] at ht
  rcases List.mem_append.mp ht with ht | ht
  · exact h.obsolete t ht
  · intro hu
    obtain ⟨i, hi, hti⟩ := List.mem_flatMap.mp hu
    exact hm i hi t (uses_subset_reads i t hti) (hobs t ht)

theorem run_threaded {p : Pass} {oc oc' : OptimizingCompiler} (h : oc.Threaded)
    (hm : p = .deadTemp → oc.Measured) (hr : oc.run p = .ok oc') :
    oc'.Threaded ∧ oc.KeepsAssigns oc' := by
  cases p with
  | loadParams =>
    cases hr
    obtain ⟨hu, hd, hs⟩ := forceLoads
      ((List.range oc.compiler.bytecode.parameterCount).filter (· ∈ oc.compiler.vars))
      oc.compiler.instructions
    refine ⟨⟨?_, ?_, hs [] h.inScope, fun t ht => ?_⟩, keepsAssigns_refl fun i hi hne => ?_⟩
    · exact hu.symm ▸ h.nodup
    · exact hd.symm ▸ h.writes
    · exact hu.symm ▸ h.obsolete t ht
    · refine (List.mem_append.mp hi).resolve_left fun hforce => ?_
      obtain ⟨n, -, rfl⟩ := List.mem_map.mp hforce
      exact hne rfl
  | propagateTypes => exact optimize_hints (f := fun _ => propagateTypes) h hr
  | constantFolding => exact optimize_threaded h hr fun _ => reduces_constantFolding
  | typeSpecialization =>
    refine optimize_threaded h hr (fun {_ i o v} _ hv =>
      (?_ : Reduces (fun _ => False) i v.instruction v.obsolete))
    cases hv
    exact reduces_typeSpecialization i o
  | removeObsolete =>
    obtain ⟨oc₁, h₁, hr⟩ := bind_ok.mp hr
    cases hr
    obtain ⟨hthreaded, hkeeps⟩ := optimize_threaded h h₁ fun hi hv =>
      reduces_removeObsolete h.obsolete hi hv
    exact ⟨⟨hthreaded.nodup, hthreaded.writes, hthreaded.inScope, nofun⟩, hkeeps⟩
  | removeNoop =>
    cases hr
    obtain ⟨hu, hd⟩ := uses_removeNoop oc.compiler.instructions
    refine ⟨⟨hu.symm ▸ h.nodup, hd.symm ▸ h.writes, scoped_removeNoop h.inScope, fun t ht => ?_⟩,
      keepsAssigns_refl fun i hi _ => (List.mem_filter.mp hi).1⟩
    exact hu.symm ▸ h.obsolete t ht
  | varLiveness => exact optimize_hints (f := varLiveness oc.compiler) h hr
  | deadVariableAssignment =>
    refine optimize_threaded h hr (fun {count i o v} _ hv =>
      (?_ : Reduces (fun _ => False) i v.instruction v.obsolete))
    cases hv
    exact reduces_deadVariableAssignment count i o
  | tempLiveness => exact optimize_hints (f := tempLiveness) h hr
  | deadTemp => exact deadTemp_threaded h (hm rfl) hr
  | shortJump =>
    refine optimize_threaded h hr (fun {count i _ v} _ hv =>
      (?_ : Reduces (fun _ => False) i v.instruction v.obsolete))
    cases hv
    exact reduces_shortJump _ count i
  | registerAllocation =>
    obtain ⟨c, hc, hr⟩ := bind_ok.mp hr
    obtain ⟨s, -, hs⟩ := bind_ok.mp hc
    cases hs
    cases hr
    exact ⟨⟨h.nodup, h.writes, h.inScope, h.obsolete⟩, keepsAssigns_refl fun i hi _ => hi⟩

/-! ### Sequences of passes -/

/-- `DeadTempOptimization` runs directly after `TempLivenessOptimization`. -/
def measuredFirst : Option Pass → List Pass → Bool
  | _, [] => true
  | before, p :: ps => (p ≠ .deadTemp || before = some .tempLiveness) && measuredFirst (some p) ps

/-- The last pass that ran. -/
def lastPass (before : Option Pass) (ps : List Pass) : Option Pass :=
  ps.foldl (fun _ p => some p) before

theorem measuredFirst_append (before : Option Pass) (ps qs : List Pass) :
    measuredFirst before (ps ++ qs) =
      (measuredFirst before ps && measuredFirst (lastPass before ps) qs) := by
  induction ps generalizing before with
  | nil => exact (Bool.true_and _).symm
  | cons p ps ih =>
    rw [List.cons_append, measuredFirst, ih, measuredFirst, Bool.and_assoc]
    rfl

/-- Between two passes. -/
structure Ready (before : Option Pass) (oc : OptimizingCompiler) : Prop where
  threaded : oc.Threaded
  measured : before = some .tempLiveness → oc.Measured

theorem passes_ready {before : Option Pass} {ps : List Pass} {oc oc' : OptimizingCompiler}
    (h : Ready before oc) (hps : measuredFirst before ps = true)
    (hr : ps.foldlM OptimizingCompiler.run oc = .ok oc') :
    Ready (lastPass before ps) oc' ∧ oc.KeepsAssigns oc' := by
  induction ps generalizing before oc with
  | nil =>
    cases hr
    exact ⟨h, keepsAssigns_refl fun i hi _ => hi⟩
  | cons p ps ih =>
    rw [List.foldlM_cons] at hr
    obtain ⟨oc₁, h₁, hr⟩ := bind_ok.mp hr
    rw [measuredFirst, Bool.and_eq_true, Bool.or_eq_true] at hps
    have hm : p = .deadTemp → oc.Measured := fun hp =>
      h.measured (of_decide_eq_true (hps.1.resolve_left fun hne => of_decide_eq_true hne hp))
    obtain ⟨hthreaded, hkeeps⟩ := run_threaded h.threaded hm h₁
    obtain ⟨hend, hkeeps'⟩ := ih ⟨hthreaded, fun hp => by
      cases hp
      exact measured_tempLiveness h₁⟩ hps.2 hr
    exact ⟨hend, keepsAssigns_trans hkeeps hkeeps'⟩

theorem threaded_compile {shared : Operands} {f : Function} (hw : WellEmitted f) {c : Compiler}
    (h : Compiler.compile shared f = some c) : (⟨c, []⟩ : OptimizingCompiler).Threaded := by
  have hlin := compile_linear hw h
  exact ⟨(List.nodup_append.mp hlin.nodup).1, hlin.writes ▸ List.nodup_range, hlin.inScope, nofun⟩

theorem measuredFirst_take (n : Nat) : measuredFirst none (allPasses.take n) = true := by
  have hall : measuredFirst none (allPasses.take n ++ allPasses.drop n) = true := by
    rw [List.take_append_drop]
    decide
  rw [measuredFirst_append, Bool.and_eq_true] at hall
  exact hall.1

/-- Where compilation stands after more passes. -/
theorem stands_keeps {shared : Operands} {f : Function} (hw : WellEmitted f) {m n : Nat}
    {oc oc' : OptimizingCompiler} (hmn : m ≤ n) (h : Stands shared f m oc)
    (h' : Stands shared f n oc') : oc.Threaded ∧ oc'.Threaded ∧ oc.KeepsAssigns oc' := by
  obtain ⟨c, hc, hr⟩ := h
  obtain ⟨c', hc', hr'⟩ := h'
  rw [hc] at hc'
  cases hc'
  have hsplit : allPasses.take m ++ (allPasses.take n).drop m = allPasses.take n := by
    have htake : (allPasses.take n).take m = allPasses.take m := by
      rw [List.take_take, Nat.min_eq_left hmn]
    rw [← htake, List.take_append_drop]
  have hready : Ready none ⟨c, []⟩ := ⟨threaded_compile hw hc, nofun⟩
  obtain ⟨hm, -⟩ := passes_ready hready (measuredFirst_take m) hr
  have hrest := measuredFirst_take n
  rw [← hsplit, measuredFirst_append, Bool.and_eq_true] at hrest
  rw [← hsplit, List.foldlM_append, hr] at hr'
  obtain ⟨hn, hkeeps⟩ := passes_ready hm hrest.2 hr'
  exact ⟨hm.threaded, hn.threaded, hkeeps⟩

/-- The instruction that writes a temp. -/
theorem dests_unique {code : List Instruction} (h : (dests code).Nodup) {i j : Instruction}
    (hi : i ∈ code) (hj : j ∈ code) {t : Nat} (hti : t ∈ i.dests) (htj : t ∈ j.dests) : i = j := by
  have hpairwise := (List.nodup_flatMap.mp h).2
  by_contra hne
  have hsymm : Std.Symm (Function.onFun List.Disjoint Instruction.dests) :=
    ⟨fun _ _ hd _ h h' => hd h' h⟩
  exact hpairwise.forall hi hj hne hti htj

theorem written_subset (before : List Nat) (code : List Instruction) :
    ∀ t ∈ written before code, t ∈ before ∨ t ∈ dests code := by
  induction code generalizing before with
  | nil => exact fun t => .inl
  | cons i code ih =>
    intro t ht
    show t ∈ before ∨ t ∈ i.dests ++ dests code
    rw [List.mem_append]
    rcases ih _ t ht with h | h
    · split at h
      · cases h
      · exact (List.mem_append.mp h).symm.imp_right .inl
    · exact .inr (.inr h)

/-- What is read somewhere in the code is written in it. -/
theorem reads_written {code : List Instruction} (h : Scoped [] code) {i : Instruction}
    (hi : i ∈ code) {t : Nat} (ht : t ∈ i.reads) : ∃ j ∈ code, t ∈ j.dests := by
  obtain ⟨p, hp⟩ := List.getElem?_of_mem hi
  have hmem := (written_subset [] _ t (scoped_at h hp t ht)).resolve_left List.not_mem_nil
  obtain ⟨j, hj, hd⟩ := List.mem_flatMap.mp hmem
  exact ⟨j, List.mem_of_mem_take hj, hd⟩

end DefinedTempsLemmas

/-- After any number of passes on the code of a function of a compiled program, on
every path each temp that is read has been written, with no label since; and
where an `Assign` of an earlier stage is gone, nothing reads its destination. -/
theorem temps_defined (prog : Program) {f : Function} (hf : SubFunction (Beaverc.compile prog) f)
    (shared : Operands) {n : Nat} {oc : OptimizingCompiler} (h : Stands shared f n oc) :
    DefinedOnPaths oc.compiler.instructions ∧
      ∀ m oc₀, m ≤ n → Stands shared f m oc₀ → ∀ dest src,
        .assign dest src ∈ oc₀.compiler.instructions →
        (∀ src', .assign dest src' ∉ oc.compiler.instructions) →
        ∀ i ∈ oc.compiler.instructions, dest ∉ i.reads := by
  have hw := compile_wellEmitted prog hf
  refine ⟨definedOnPaths_of_scoped (stands_keeps hw (Nat.le_refl n) h h).1.inScope, ?_⟩
  intro m oc₀ hmn h₀ dest src hassign hgone i hi hread
  obtain ⟨hthreaded₀, hthreaded, hkeeps⟩ := stands_keeps hw hmn h₀ h
  obtain ⟨j, hj, hdest⟩ := reads_written hthreaded.inScope hi hread
  obtain ⟨k, hk, hdest₀, hsame⟩ := hkeeps j hj dest hdest
  have hkassign := dests_unique hthreaded₀.writes hk hassign hdest₀ (List.mem_singleton_self _)
  rw [hsame dest src hkassign, hkassign] at hj
  exact hgone src hj

/-- `f = fun() { x = 1 + 2; return x; };` -/
def folded : Program :=
  .cons (.assignment (.name "f") (.function []
    (.cons (.assignment (.name "x") (.binaryOp .plus (.intConst 1) (.intConst 2)))
    (.cons (.ret (.lhs (.name "x"))) .nil)))) .nil

/-- The function in it. -/
def foldedFunction : Function :=
  (Beaverc.compile folded).functions.headD {}

/-- Whether all passes run on it. -/
def foldedRuns : Bool :=
  match Compiler.compile .fresh foldedFunction with
  | some c => ((allPasses.take 31).foldlM OptimizingCompiler.run ⟨c, []⟩).isOk
  | none => false

theorem temps_defined_folded : ∃ oc, Stands .fresh foldedFunction 31 oc ∧
    DefinedOnPaths oc.compiler.instructions := by
  have hruns : foldedRuns = true := by decide +kernel
  have hf : SubFunction (Beaverc.compile folded) foldedFunction := by
    refine .step (.refl _) ?_
    have hfs : (Beaverc.compile folded).functions = [foldedFunction] := rfl
    rw [hfs]
    exact List.mem_singleton.mpr rfl
  unfold foldedRuns at hruns
  split at hruns
  · next c hc =>
    cases hr : (allPasses.take 31).foldlM OptimizingCompiler.run ⟨c, []⟩ with
    | error e => rw [hr] at hruns; cases hruns
    | ok oc =>
      have hstands : Stands .fresh foldedFunction 31 oc := ⟨c, hc, hr⟩
      exact ⟨oc, hstands, (temps_defined folded hf .fresh hstands).1⟩
  · cases hruns

end Beaverc.Ir

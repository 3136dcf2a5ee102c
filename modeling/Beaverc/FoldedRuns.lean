import Beaverc.Base.Observation
import Beaverc.Retyping

/-!
# Runs of folded code

`ConstantFoldingOptimization` puts the assignment of a constant in the place of an
operation on constants. The temps that the code assigns as constants hold them in
every run, so the operation computes the constant, where the fold does not leave
the range of `int`s; and the code folded shows what the code before does. Sums of
strings are left out: the operation makes a new object, the constant does not.
-/

namespace Beaverc.Ir
open Process Results SingleUseLemmas DefinedTempsLemmas ConstantHintsLemmas OptimizerErrorsLemmas
  LoopsLemmas ChangesLemmas DeadVariablesLemmas TranslationLemmas ConstantFoldingLemmas
  TypeHintsLemmas TypedTempsLemmas RetypingLemmas

/-- The temps that the code assigns as constants hold them. -/
def HoldsConstants (code : List Instruction) (temps : Nat → Option Value) : Prop :=
  ∀ t c v, .assign t (.const c) ∈ code → temps t = some v → v = c

/-- What the pass folds stays in the range of `int`s, and is no sum of strings. -/
def OptimizingCompiler.FoldsFit (oc : OptimizingCompiler) : Prop :=
  ∀ i o v, oc.FoldsAt i o → constantFolding i o = .ok v → v.instruction ≠ i →
    i.Fits o ∧ ∀ dest s, v.instruction ≠ .assign dest (.const (.stringConstant s))

namespace FoldedRunsLemmas

/-! ### Places of a loop -/

/-- What a loop does at one place. -/
theorem loop_split {visit : Nat → Instruction → Operands → Except Fault Visited} {count p : Nat}
    {code code' : List Instruction} {o o' : Operands} {obsolete : List Nat}
    (hl : loop visit count code o = .ok (code', o', obsolete)) {i : Instruction}
    (hi : code[p]? = some i) : ∃ done o₁ v rest obsolete₁ obsolete₂,
      loop visit count (code.take p) o = .ok (done, o₁, obsolete₁) ∧
      visit (count + p) i o₁ = .ok v ∧
      loop visit (count + p + 1) (code.drop (p + 1)) v.operands = .ok (rest, o', obsolete₂) ∧
      code' = done ++ v.instruction :: rest ∧ done.length = p ∧ Meets visit count code o i o₁ ∧
      obsolete = obsolete₁ ++ (v.obsolete ++ obsolete₂) := by
  induction p generalizing count code code' o obsolete with
  | zero =>
    cases code with
    | nil => cases hi
    | cons j rest =>
      cases hi
      obtain ⟨v, hv, hl⟩ := bind_ok.mp hl
      obtain ⟨⟨rest', o₁, obsolete₁⟩, hrest, hr⟩ := bind_ok.mp hl
      cases hr
      exact ⟨[], o, v, rest', [], obsolete₁, rfl, hv, hrest, rfl, rfl, .here, rfl⟩
  | succ p ih =>
    cases code with
    | nil => cases hi
    | cons j rest =>
      obtain ⟨v, hv, hl⟩ := bind_ok.mp hl
      obtain ⟨⟨rest', o₁, obsolete₁⟩, hrest, hr⟩ := bind_ok.mp hl
      cases hr
      obtain ⟨done, o₂, u, rest₂, obs₁, obs₂, hdone, hu, hafter, rfl, hlen, hm, rfl⟩ := ih hrest hi
      rw [show count + 1 + p = count + (p + 1) by omega] at hu hafter
      refine ⟨v.instruction :: done, o₂, u, rest₂, v.obsolete ++ obs₁, obs₂, ?_, hu, hafter, rfl,
        congrArg (· + 1) hlen, .later hv hm, List.append_assoc .. ▸ rfl⟩
      rw [List.take_succ_cons, loop, hv, ok_bind, hdone]
      rfl

/-- Where a loop marks a temp as obsolete. -/
theorem loop_obsolete {visit : Nat → Instruction → Operands → Except Fault Visited} {count : Nat}
    {code code' : List Instruction} {o o' : Operands} {obsolete : List Nat}
    (hl : loop visit count code o = .ok (code', o', obsolete)) {t : Nat} (ht : t ∈ obsolete) :
    ∃ n i o₁ v, Meets visit count code o i o₁ ∧ visit n i o₁ = .ok v ∧ t ∈ v.obsolete := by
  induction code generalizing count code' o obsolete with
  | nil =>
    cases hl
    cases ht
  | cons i rest ih =>
    obtain ⟨v, hv, hl⟩ := bind_ok.mp hl
    obtain ⟨⟨rest', o₁, obsolete₁⟩, hrest, hr⟩ := bind_ok.mp hl
    cases hr
    rcases List.mem_append.mp ht with ht | ht
    · exact ⟨count, i, o, v, .here, hv, ht⟩
    · obtain ⟨n, j, o₂, u, hm, hu, htu⟩ := ih hrest ht
      exact ⟨n, j, o₂, u, .later hv hm, hu, htu⟩

theorem pointwise_of_loop {visit : Nat → Instruction → Operands → Except Fault Visited}
    {R : Nat → Instruction → Instruction → Prop}
    {code code' : List Instruction} {o o' : Operands} {obsolete : List Nat}
    (hl : loop visit 0 code o = .ok (code', o', obsolete))
    (h : ∀ {p i v o₁}, code[p]? = some i → Meets visit 0 code o i o₁ → visit p i o₁ = .ok v →
      code'[p]? = some v.instruction → R p i v.instruction) : Pointwise R code code' := by
  refine ⟨?_, fun {p i} hi => ?_⟩
  · have hinv := loop_invariant (fun done rest _ _ => done.length + rest.length = code.length)
      (fun {done i rest o obsolete v} h _ => by
        rw [List.length_append, List.length_singleton, Nat.add_right_comm]
        exact h)
      (Nat.zero_add _) hl
    exact hinv
  · obtain ⟨done, o₁, v, rest, _, _, -, hv, -, hcode, hlen, hm, -⟩ := loop_split hl hi
    rw [Nat.zero_add] at hv
    have hi' : code'[p]? = some v.instruction := by
      rw [hcode, List.getElem?_append_right (hlen ▸ Nat.le_refl _), hlen, Nat.sub_self]
      rfl
    exact ⟨_, hi', h hi hm hv hi'⟩

/-! ### Constants -/

/-- The step lemma: an assignment of a constant is the only one to its temp. -/
theorem holdsConstants_exec {code : List Instruction} (hd : (dests code).Nodup)
    {f : Activation} {w : World} {i : Instruction} (hi : i ∈ code) {es : List Event}
    {s' : Activation × World} (hinv : HoldsConstants code f.temps)
    (h : f.exec i w = .ok (.step es s')) : HoldsConstants code s'.1.temps := by
  intro t c v hassign hv
  rcases exec_writes h hv with hold | ⟨ht, hw⟩
  · exact hinv t c v hassign hold
  · cases dests_unique hd hi hassign ht (List.mem_singleton_self t)
    exact hw

/-- What constant folding takes for a constant is assigned as one, also in the code
folded. -/
theorem constant_assigned {oc oc' : OptimizingCompiler} (h : oc.Hinted)
    (hd : (dests oc.compiler.instructions).Nodup) (hs : Scoped [] oc.compiler.instructions)
    (hr : oc.run .constantFolding = .ok oc') {i : Instruction} {o : Operands}
    (hm : oc.FoldsAt i o) {t : Nat} (ht : t ∈ i.reads)
    (hconst : (o.temp t).typeHint.constSrc = true) {c : Value} (hc : (o.temp t).srcVal = .value c) :
    .assign t (.const c) ∈ oc'.compiler.instructions := by
  obtain ⟨obsolete, hl, -⟩ := optimize_ok hr
  obtain ⟨before, after, before', obsolete₁, hcode, hbefore⟩ := meets_split hm
  have hp : oc.compiler.instructions[before.length]? = some i := by
    rw [hcode, List.getElem?_append_right (Nat.le_refl _), Nat.sub_self]
    rfl
  obtain ⟨done, o₁, v, rest, _, _, hdone, -, -, hcode', -, -, -⟩ := loop_split hl hp
  have htake : oc.compiler.instructions.take before.length = before := by
    rw [hcode]
    exact List.take_left
  rw [htake, hbefore] at hdone
  cases hdone
  have hparts := List.nodup_append.mp (dests_append before (i :: after) ▸ hcode ▸ hd)
  have hall : ∀ j ∈ before, j.Hinted oc.compiler.operands := fun j hj =>
    h.hinted j (hcode ▸ List.mem_append_left _ hj)
  obtain ⟨hhinted, -, hkept⟩ := loop_hinted
    (fun h hn hv => (keepsTypes_constantFolding h hn hv).toKeepsHints) hbefore hparts.1 hall
    h.noConstants
  -- the instruction that writes `t` has been folded by now, or is still to come
  obtain ⟨j, hj, htj⟩ := reads_written hs (List.mem_of_getElem? hp) ht
  rcases List.mem_append.mp (hcode ▸ hj) with hj' | hj'
  · obtain ⟨q, hq⟩ := List.getElem?_of_mem hj'
    obtain ⟨done₁, o₁, u, rest₁, _, _, -, hu, -, hdone₁, -, -, -⟩ := loop_split hbefore hq
    have hmem : u.instruction ∈ before' := by
      rw [hdone₁]
      exact List.mem_append_right _ List.mem_cons_self
    have htu := ((reduces_constantFolding hu).kept t htj).resolve_right id
    rw [← (hhinted _ hmem).const t htu hconst c hc, hcode']
    exact List.mem_append_left _ hmem
  · have hlater : t ∉ dests before := fun hb =>
      hparts.2.2 t hb t (List.mem_flatMap.mpr ⟨j, hj', htj⟩) rfl
    obtain ⟨hconst', hc'⟩ := (hkept t hlater).const hconst c hc
    have hassign := (h.hinted j hj).const t htj hconst' c hc'
    subst hassign
    obtain ⟨q, hq⟩ := List.getElem?_of_mem hj
    obtain ⟨done₁, o₁, u, rest₁, _, _, -, hu, -, hdone₁, -, -, -⟩ := loop_split hl hq
    cases hu
    rw [hdone₁]
    exact List.mem_append_right _ List.mem_cons_self

/-! ### What an operation computes -/

section Operations

variable {fr : Frame} {w : World}

theorem pushes_eq {a b v : Value} (hs : (b.isString && a.isString) = false)
    (h : Pushes .eq [b, a] fr w v) : v = .boolean (a = b) := by
  have heq : w.equals a b = .ok (.boolean (a = b)) := by
    unfold World.equals
    rw [Bool.and_comm, hs]
    rfl
  refine (pushes_iff (Frame.advance (.boolean (a = b) :: fr.stack)
    { fr with stack := [b, a] ++ fr.stack }) w (some (.act (.eq a b))) ?_ rfl rfl).mp h
  show ((w.equals a b >>= _) >>= _) = _
  rw [heq]
  rfl

/-- What the machine computes is what the interpreter pushes. -/
theorem machine_pushes {op : BinOp} {v1 v2 x r : Value}
    (h : op.machine (if op.leftFirst then (v1, v2) else (v2, v1)).1
      (if op.leftFirst then (v1, v2) else (v2, v1)).2 = .ok x)
    (hp : Pushes op.bytecode (op.stack v1 v2) fr w r) : r = x := by
  cases op with
  | add => cases v1 <;> cases v2 <;> cases h
  | eq => cases v1 <;> cases v2 <;> cases h
  | intAdd =>
    cases v1 <;> cases v2 <;> cases h
    exact pushes_add_iff.mp hp
  | sub =>
    cases v1 <;> cases v2 <;> cases h
    exact (pushes_arithmetic_iff .sub (fun _ _ => rfl) rfl rfl).mp hp
  | mul =>
    cases v1 <;> cases v2 <;> cases h
    exact (pushes_arithmetic_iff .mul (fun _ _ => rfl) rfl rfl).mp hp
  | gt =>
    cases v1 <;> cases v2 <;> cases h
    exact (pushes_arithmetic_iff .gt (fun _ _ => rfl) rfl rfl).mp hp
  | geq =>
    cases v1 <;> cases v2 <;> cases h
    exact (pushes_arithmetic_iff .geq (fun _ _ => rfl) rfl rfl).mp hp
  | div =>
    cases v1 <;> cases v2 <;> try cases h
    next a b =>
      change (if b = 0 then _ else _) = _ at h
      split at h
      · cases h
      · next hb =>
        cases h
        refine (pushes_arithmetic_iff .div (fun _ _ => rfl) ?_ rfl).mp hp
        show (if b = 0 then _ else _) = _
        rw [if_neg hb]
        rfl
  | and =>
    cases v1 <;> cases v2 <;> cases h
    next a b =>
      refine (pushes_arithmetic_iff .and (fun _ _ => rfl) ?_ rfl).mp hp
      cases a <;> cases b <;> rfl
  | or =>
    cases v1 <;> cases v2 <;> cases h
    next a b =>
      refine (pushes_arithmetic_iff .or (fun _ _ => rfl) ?_ rfl).mp hp
      cases a <;> cases b <;> rfl
  | fastEq =>
    change BinOp.fastEq.machine v2 v1 = .ok x at h
    unfold BinOp.machine at h
    dsimp only at h
    split at h
    · cases h
    · next hs =>
      cases h
      rw [pushes_eq (Bool.eq_false_iff.mpr hs) hp]
      simp only [eq_comm]

theorem machine_error {op : BinOp} {l r : Value} {e : Stop} (h : op.machine l r = .error e) :
    ¬ raised e := by
  unfold BinOp.machine at h
  split at h <;> first | cases h | skip
  · split at h
    · cases h
      exact id
    · cases h
  · split at h
    · cases h
      exact id
    · cases h
  · exact id

end Operations

/-- Executing `i` puts `r` in `dest` and shows nothing to compare, or raises nothing. -/
def Computes (i : Instruction) (dest : Nat) (r : Value) (f : Activation) (w : World) : Prop :=
  (∃ es, f.exec i w = .ok (.step es (f.advance.setTemp dest r, w)) ∧ es.filter effects = []) ∨
    ∃ e, f.exec i w = .error e ∧ ¬ raised e

theorem binOp_computes {op : BinOp} {dest src1 src2 : Nat} {v1 v2 r : Value} {f : Activation}
    {w : World} {fr : Frame} (h1 : ∀ v, f.temps src1 = some v → v = v1)
    (h2 : ∀ v, f.temps src2 = some v → v = v2) (heq : op ≠ .eq)
    (hadd : op = .add → ∃ a b, v1 = .integer a ∧ v2 = .integer b)
    (hp : Pushes op.bytecode (op.stack v1 v2) fr w r) :
    Computes (.binOp op dest src1 src2) dest r f w := by
  rcases @binOp_reads f w op dest src1 src2 _ rfl with ⟨e, he, hnot⟩ | ⟨u1, u2, hu1, hu2⟩
  · exact .inr ⟨e, he, hnot⟩
  · obtain rfl := h1 u1 hu1
    obtain rfl := h2 u2 hu2
    by_cases hop : op = .add
    · subst hop
      obtain ⟨a, b, rfl, rfl⟩ := hadd rfl
      rw [pushes_add_iff.mp hp]
      exact .inl ⟨_, (exec_add w dest hu1 hu2).1, rfl⟩
    · have hexec : f.exec (.binOp op dest src1 src2) w =
          op.machine (if op.leftFirst then (u1, u2) else (u2, u1)).1
            (if op.leftFirst then (u1, u2) else (u2, u1)).2 >>= fun v =>
              (f.advance.setTemp dest v).silent w := by
        rw [Activation.exec, read_eq hu1, ok_bind, read_eq hu2, ok_bind]
        cases op <;> first | rfl | exact absurd rfl hop | exact absurd rfl heq
      cases hx : op.machine (if op.leftFirst then (u1, u2) else (u2, u1)).1
          (if op.leftFirst then (u1, u2) else (u2, u1)).2 with
      | error e =>
        rw [hx] at hexec
        exact .inr ⟨e, hexec, machine_error hx⟩
      | ok x =>
        rw [hx] at hexec
        rw [machine_pushes hx hp]
        exact .inl ⟨[], hexec, rfl⟩

theorem unOp_computes {op : UnOp} {dest src : Nat} {v1 r : Value} {f : Activation} {w : World}
    {fr : Frame} (h1 : ∀ v, f.temps src = some v → v = v1) (hp : Pushes op.bytecode [v1] fr w r) :
    Computes (.unOp op dest src) dest r f w := by
  cases hread : f.read src with
  | error e =>
    refine .inr ⟨e, ?_, read_error hread⟩
    rw [Activation.exec, hread]
    rfl
  | ok v =>
    obtain rfl := h1 v (read_ok hread)
    have hexec : f.exec (.unOp op dest src) w =
        op.machine v >>= fun v => (f.advance.setTemp dest v).silent w := by
      rw [Activation.exec, hread]
      rfl
    cases hx : op.machine v with
    | error e =>
      rw [hx] at hexec
      refine .inr ⟨e, hexec, ?_⟩
      cases op <;> cases v <;> cases hx <;> exact id
    | ok x =>
      rw [hx] at hexec
      have hr : r = x := by
        cases op <;> cases v <;> cases hx
        · exact pushes_neg_iff.mp hp
        · exact pushes_not_iff.mp hp
      rw [hr]
      exact .inl ⟨[], hexec, rfl⟩

/-- An operation that computes a constant acts as the assignment of the constant. -/
theorem actsAs_constant {inv : (Nat → Option Value) → Prop} {i : Instruction} {dest : Nat}
    {r : Value} (hl : ∀ l, i ≠ .outputLabel l)
    (h : ∀ f w, inv f.temps → Computes i dest r f w) :
    ActsAs inv i (.assign dest (.const r)) := by
  refine ⟨fun l => ⟨hl l, nofun⟩, fun {f w m} hinv hm => ?_, fun {f w e} hinv he => ?_⟩
  · rcases h f w hinv with ⟨es, hexec, hes⟩ | ⟨e, hexec, -⟩
    · rw [hexec] at hm
      cases hm
      exact ⟨es, [], _, rfl, rfl, hes.symm⟩
    · rw [hexec] at hm
      cases hm
  · rcases h f w hinv with ⟨es, hexec, -⟩ | ⟨e', hexec, hnot⟩
    · rw [hexec] at he
      cases he
    · rw [hexec] at he
      cases he
      exact hnot

/-! ### The pass -/

section Pass

variable {oc oc' : OptimizingCompiler} {stored : Nat → Prop}

theorem folded_actsAs (h : oc.Hinted) (hd : (dests oc.compiler.instructions).Nodup)
    (hs : Scoped [] oc.compiler.instructions) (htold : oc.Told Reaching stored)
    (hfit : oc.FoldsFit) (hr : oc.run .constantFolding = .ok oc') {i : Instruction} {o : Operands}
    {v : Visited} (hm : oc.FoldsAt i o) (hv : constantFolding i o = .ok v) :
    v.instruction = i ∨ ActsAs (HoldsConstants oc'.compiler.instructions) i v.instruction := by
  by_cases hne : v.instruction = i
  · exact .inl hne
  · refine .inr ?_
    obtain ⟨hmem, -, htells⟩ := folds_told foldClosed_reaching hm htold.fine htold.noConstants
      htold.tellConstants
    obtain ⟨hfits, hstring⟩ := hfit i o v hm hv hne
    have hfine := htold.fine i hmem
    have hassigned {t : Nat} {c : Value} (ht : t ∈ i.reads)
        (hconst : (o.temp t).typeHint.constSrc = true) (hc : (o.temp t).srcVal = .value c)
        {temps : Nat → Option Value} (hinv : HoldsConstants oc'.compiler.instructions temps) :
        ∀ x, temps t = some x → x = c := fun x =>
      hinv t c x (constant_assigned h hd hs hr hm ht hconst hc)
    let fr : Frame := ⟨0, {}, [], [], [], 0⟩
    cases i with
    | binOp op dest src1 src2 =>
      obtain ⟨hall, r, hfold, hinst, -⟩ := foldTo_folded hv hne
      rw [hinst]
      refine actsAs_constant nofun fun f w hinv => ?_
      obtain ⟨dest', r', hinst', -, -, hiff⟩ := folded_iff hfine htells hv hne fr w
      rw [hinst] at hinst'
      cases hinst'
      obtain ⟨v1, v2, h1, h2, hp⟩ := hiff.mpr hfits
      have hm1 : src1 ∈ [src1, src2] := List.mem_cons_self
      have hm2 : src2 ∈ [src1, src2] := List.mem_cons_of_mem _ List.mem_cons_self
      refine binOp_computes (hassigned hm1 (hall src1 hm1) h1 hinv)
        (hassigned hm2 (hall src2 hm2) h2 hinv) ?_ (fun hop => ?_) hp
      · rintro rfl
        cases hfold
      · subst hop
        have ht1 := htells src1 (hfine.reads nofun src1 hm1) (hall src1 hm1)
        have ht2 := htells src2 (hfine.reads nofun src2 hm2) (hall src2 hm2)
        rcases foldAdd_type hfold with ⟨s, rfl⟩ | ⟨hi1, hi2, -, -⟩
        · exact absurd hinst (hstring dest s)
        · obtain ⟨a, ha, -⟩ := getInteger_ok foldClosed_reaching ht1 hi1
          obtain ⟨b, hb, -⟩ := getInteger_ok foldClosed_reaching ht2 hi2
          exact ⟨a, b, SrcVal.value.inj (h1.symm.trans (getConst_src ha)),
            SrcVal.value.inj (h2.symm.trans (getConst_src hb))⟩
    | unOp op dest src =>
      obtain ⟨hall, r, -, hinst, -⟩ := foldTo_folded hv hne
      rw [hinst]
      refine actsAs_constant nofun fun f w hinv => ?_
      obtain ⟨dest', r', hinst', -, -, hiff⟩ := folded_iff hfine htells hv hne fr w
      rw [hinst] at hinst'
      cases hinst'
      obtain ⟨v1, h1, hp⟩ := hiff.mpr hfits
      have hm1 : src ∈ [src] := List.mem_cons_self
      exact unOp_computes (hassigned hm1 (hall src hm1) h1 hinv) hp
    | _ =>
      cases hv
      exact absurd rfl hne

theorem folded_pointwise (h : oc.Hinted) (hd : (dests oc.compiler.instructions).Nodup)
    (hs : Scoped [] oc.compiler.instructions) (htold : oc.Told Reaching stored)
    (hfit : oc.FoldsFit) (hr : oc.run .constantFolding = .ok oc') :
    Pointwise (fun _ i i' => i' = i ∨ ActsAs (HoldsConstants oc'.compiler.instructions) i i')
      oc.compiler.instructions oc'.compiler.instructions := by
  obtain ⟨obsolete, hl, -⟩ := optimize_ok hr
  exact pointwise_of_loop hl fun _ hm hv _ => folded_actsAs h hd hs htold hfit hr hm hv

/-- The folded code keeps step with the code before. -/
theorem folded_lockstep (h : oc.Hinted) (hd : (dests oc.compiler.instructions).Nodup)
    (hd' : (dests oc'.compiler.instructions).Nodup) (hs : Scoped [] oc.compiler.instructions)
    (htold : oc.Told Reaching stored) (hfit : oc.FoldsFit)
    (hr : oc.run .constantFolding = .ok oc') :
    Lockstep (Activation.move.observe effects id) (Activation.move.observe effects id)
      (fun _ => True) raised (Aside oc.compiler.instructions oc'.compiler.instructions
        (HoldsConstants oc'.compiler.instructions)) := by
  have hpoint := folded_pointwise h hd hs htold hfit hr
  refine retyped_lockstep hpoint fun {f w i es s'} hf hi _ hinv hexec => ?_
  obtain ⟨i', hi', hR⟩ := hpoint.related (hf ▸ hi)
  have hmem := List.mem_of_getElem? hi'
  rcases hR with rfl | hacts
  · exact holdsConstants_exec hd' hmem hinv hexec
  · obtain ⟨es₀, es', s₁, hstep, hexec', -⟩ := hacts.steps hinv hexec
    cases hstep
    exact holdsConstants_exec hd' hmem hinv hexec'

end Pass

end FoldedRunsLemmas

end Beaverc.Ir

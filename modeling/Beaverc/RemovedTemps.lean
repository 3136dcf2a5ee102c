import Beaverc.ObsoleteTemps

/-!
# Runs without obsolete temps

The code after `RemoveObsoleteOptimization` keeps step with the code before: the temps
agree but for the obsolete ones, which nothing reads that is left.
-/

namespace Beaverc.Ir
open Process Results SingleUseLemmas DefinedTempsLemmas ConstantHintsLemmas OptimizerErrorsLemmas
  LoopsLemmas ChangesLemmas DeadVariablesLemmas TranslationLemmas TypeHintsLemmas TypedTempsLemmas
  RetypingLemmas FoldedRunsLemmas ObsoleteTempsLemmas

/-- What is compared: loads of words are not seen, nor that values are added or
compared, nor stores to locals. -/
def outward : Event → Bool
  | .act (.add _ _) | .act (.eq _ _) | .act (.loadGlobal _) | .act (.loadReference _)
  | .storeLocal _ _ => false
  | _ => true

/-- If the instruction in hand loads a global into one of the temps, the global has a value.
(Where it has none, the helper makes it `None`.) -/
def GlobalsFound (obsolete : List Nat) (s : Activation × World) : Prop :=
  ∀ t n name, s.1.code[s.1.ip]? = some (.assign t (.glob n)) → t ∈ obsolete →
    s.1.function.names[n]? = some name → (s.2.globals.lookup name).isSome = true

/-- What the pass does to an instruction. -/
inductive Removes (obsolete : List Nat) (o : Operands) (code : List Instruction) :
    Instruction → Instruction → Prop
  | kept {i : Instruction} : (∀ t ∈ i.reads, t ∉ obsolete) → Removes obsolete o code i i
  | assign {t : Nat} {src : Source} : t ∈ obsolete → (∀ n, src ≠ .function n) →
      Removes obsolete o code (.assign t src) .noop
  | hinted {a : Assert} {t : Nat} : a.passes (o.temp t).toOperand = .ok true →
      Removes obsolete o code (.callAssert a t) .noop
  | constant {a : Assert} {t : Nat} {c : Value} : .assign t (.const c) ∈ code → a.check c = .ok () →
      Removes obsolete o code (.callAssert a t) .noop

namespace RemovedTempsLemmas

/-- What holds of the temps of the code before: their operand objects, and the
assignments of constants, tell what they are. -/
structure Known (o : Operands) (code : List Instruction) (temps : Nat → Option Value) : Prop where
  agrees : ∀ t v, temps t = some v → RetypingLemmas.Agrees (o.temp t).toOperand v
  constants : HoldsConstants code temps

/-- The same place in both codes; the temps agree but for the obsolete ones. -/
structure Without (obsolete : List Nat) (o : Operands) (code code' : List Instruction)
    (s q : Activation × World) : Prop where
  world : q.2 = s.2
  source : s.1.code = code
  target : q.1 = s.1.alter code' s.1.locals q.1.temps
  temps : ∀ t ∉ obsolete, q.1.temps t = s.1.temps t
  known : Known o code s.1.temps

variable {obsolete : List Nat} {o : Operands} {code code' : List Instruction}
  {s q : Activation × World}

theorem position_removed (h : Pointwise (fun _ => Removes obsolete o code) code code') (l : Nat) :
    position code' l = position code l := by
  refine idxOf_pointwise h fun {p i i'} hR => ?_
  cases hR with
  | kept => exact Iff.rfl
  | assign | hinted | constant => exact ⟨nofun, nofun⟩

theorem Without.ip (h : Without obsolete o code code' s q) : q.1.ip = s.1.ip := by
  rw [h.target]
  rfl

theorem Without.instructions (h : Without obsolete o code code' s q) : q.1.code = code' := by
  rw [h.target]
  rfl

theorem Without.rest (h : Without obsolete o code code' s q) : q.1.locals = s.1.locals ∧
    q.1.references = s.1.references ∧ q.1.retVal = s.1.retVal := by
  rw [h.target]
  exact ⟨rfl, rfl, rfl⟩

theorem Without.same (h : Without obsolete o code code' s q)
    (hp : ∀ l, position code' l = position code l) {i : Instruction}
    (hreads : ∀ t ∈ i.reads, t ∉ obsolete) :
    ChangesLemmas.Same (SameMove i s.1 q.1) (s.1.exec i s.2) (q.1.exec i q.2) := by
  rw [h.world]
  refine exec_agrees ⟨?_, ?_, fun _ _ _ => ?_, fun t ht => h.temps t (hreads t ht), fun l _ => ?_⟩
    s.2
  · rw [h.target]
    rfl
  · rw [h.target]
    rfl
  · rw [h.target]
    rfl
  · rw [h.instructions, h.source]
    exact hp l

theorem writeTemps_off {temps temps' : Nat → Option Value} (writes : List (Nat × Value)) {t : Nat}
    (h : temps' t = temps t) : writeTemps temps' writes t = writeTemps temps writes t := by
  unfold writeTemps
  induction writes generalizing temps temps' with
  | nil => exact h
  | cons p writes ih =>
    refine ih ?_
    show Function.update temps' p.1 (some p.2) t = Function.update temps p.1 (some p.2) t
    by_cases hp : t = p.1
    · rw [hp, Function.update_self, Function.update_self]
    · rw [Function.update_of_ne hp, Function.update_of_ne hp, h]

theorem Without.apply (h : Without obsolete o code code' s q) {c : Change} {w : World}
    (hknown : Known o code (s.1.apply c).temps) :
    Without obsolete o code code' (s.1.apply c, w) (q.1.apply c, w) := by
  refine ⟨rfl, h.source, ?_, fun t ht => writeTemps_off c.temps (h.temps t ht), hknown⟩
  conv_lhs => rw [h.target]
  conv_rhs => rw [h.target]
  rfl

theorem Without.advance (h : Without obsolete o code code' s q) (v : Value) (w : World) :
    Without obsolete o code code' ({ s.1.advance with retVal := v }, w)
      ({ q.1.advance with retVal := v }, w) := by
  refine ⟨rfl, h.source, ?_, h.temps, h.known⟩
  conv_lhs => rw [h.target]
  rfl

/-- The first code is past an instruction that the second does not have. -/
theorem Without.removed (h : Without obsolete o code code' s q) {f' : Activation}
    (hrest : f' = s.1.advance.alter s.1.code s.1.locals f'.temps)
    (htemps : ∀ t ∉ obsolete, f'.temps t = s.1.temps t) (hknown : Known o code f'.temps) :
    Without obsolete o code code' (f', s.2) (q.1.advance, q.2) := by
  refine ⟨h.world, ?_, ?_, fun t ht => ?_, hknown⟩
  · show f'.code = code
    rw [hrest]
    exact h.source
  · show q.1.advance = f'.alter code' f'.locals q.1.temps
    rw [hrest]
    conv_lhs => rw [h.target]
    rfl
  · show q.1.temps t = f'.temps t
    rw [h.temps t ht, htemps t ht]

/-! ### One move -/

theorem read_or {f : Activation} (t : Nat) :
    (∃ v, f.read t = .ok v ∧ f.temps t = some v) ∨ ∃ e, f.read t = .error e ∧ ¬ raised e := by
  cases h : f.read t with
  | error e => exact .inr ⟨e, rfl, read_error h⟩
  | ok v => exact .inl ⟨v, rfl, read_ok h⟩

/-- A check of a value that passes it. -/
theorem assert_exec {f : Activation} {w : World} {a : Assert} {t : Nat}
    (h : ∀ v, f.temps t = some v → a.check v = .ok ()) :
    f.exec (.callAssert a t) w = .ok (.step [] (f.advance, w)) ∨
      ∃ e, f.exec (.callAssert a t) w = .error e ∧ ¬ raised e := by
  rcases read_or (f := f) t with ⟨v, hread, hv⟩ | ⟨e, hread, hnot⟩
  · refine .inl ?_
    rw [Activation.exec, hread, ok_bind, h v hv]
    rfl
  · refine .inr ⟨e, ?_, hnot⟩
    rw [Activation.exec, hread]
    rfl

theorem rawIndex_error {α : Type} {l : List α} {n : Nat} {e : Stop}
    (h : rawIndex l n = .error e) : ¬ raised e := by
  unfold rawIndex at h
  split at h
  · cases h
  · cases h
    exact id

/-- Loading a word does nothing but put it in the temp. -/
theorem load_exec {f : Activation} {w : World} {a : Action} (dest : Nat)
    (ha : outward (.act a) = false)
    (h : (∃ v, performHelper a w = .ok (v, w)) ∨ ∃ e, performHelper a w = .error e ∧ ¬ raised e) :
    (∃ es v, f.load a dest w = .ok (.step es (f.advance.setTemp dest v, w)) ∧
      es.filter outward = []) ∨ ∃ e, f.load a dest w = .error e ∧ ¬ raised e := by
  unfold Activation.load
  rcases h with ⟨v, hv⟩ | ⟨e, he, hnot⟩
  · refine .inl ⟨[.act a], v, ?_, ?_⟩
    · rw [hv]
      rfl
    · rw [List.filter_cons_of_neg (by rw [ha]; exact nofun)]
      rfl
  · refine .inr ⟨e, ?_, hnot⟩
    rw [he]
    rfl

theorem loadReference_perform (r : Addr) (w : World) :
    (∃ v, performHelper (.loadReference r) w = .ok (v, w)) ∨
      ∃ e, performHelper (.loadReference r) w = .error e ∧ ¬ raised e := by
  cases hd : w.heap.deref r with
  | error e =>
    refine .inr ⟨e, ?_, ?_⟩
    · simp only [performHelper, perform, hd]
      rfl
    · unfold CollectedHeap.deref at hd
      split at hd
      · cases hd
      · cases hd
        exact id
  | ok o =>
    obtain ⟨_, _, p⟩ := o
    cases p with
    | reference v =>
      refine .inl ⟨v, ?_⟩
      simp only [performHelper, perform, hd]
      rfl
    | _ =>
      refine .inr ⟨.undefined, ?_, id⟩
      simp only [performHelper, perform, hd]
      rfl

/-- The assignment of an obsolete temp shows nothing and writes the temp only. -/
theorem assign_exec {f : Activation} {w : World} {t : Nat} {src : Source}
    (hsrc : ∀ n, src ≠ .function n)
    (hfound : ∀ n name, src = .glob n → f.function.names[n]? = some name →
      (w.globals.lookup name).isSome = true) :
    (∃ es v, f.exec (.assign t src) w = .ok (.step es (f.advance.setTemp t v, w)) ∧
      es.filter outward = []) ∨ ∃ e, f.exec (.assign t src) w = .error e ∧ ¬ raised e := by
  cases src with
  | const v => exact .inl ⟨[], v, rfl, rfl⟩
  | retVal => exact .inl ⟨[], f.retVal, rfl, rfl⟩
  | function n => exact absurd rfl (hsrc n)
  | var n =>
    cases h : rawIndex f.locals n with
    | error e =>
      refine .inr ⟨e, ?_, rawIndex_error h⟩
      rw [Activation.exec, h]
      rfl
    | ok v =>
      refine .inl ⟨[], v, ?_, rfl⟩
      rw [Activation.exec, h]
      rfl
  | ref n =>
    cases h : rawIndex f.references n with
    | error e =>
      refine .inr ⟨e, ?_, rawIndex_error h⟩
      rw [Activation.exec, h]
      rfl
    | ok r =>
      refine .inl ⟨[], .pointer r, ?_, rfl⟩
      rw [Activation.exec, h]
      rfl
  | deref n =>
    cases h : rawIndex f.references n with
    | error e =>
      refine .inr ⟨e, ?_, rawIndex_error h⟩
      rw [Activation.exec, h]
      rfl
    | ok r =>
      rw [Activation.exec, h]
      exact load_exec t rfl (loadReference_perform r w)
  | glob n =>
    cases h : rawIndex f.function.names n with
    | error e =>
      refine .inr ⟨e, ?_, rawIndex_error h⟩
      rw [Activation.exec, h]
      rfl
    | ok name =>
      rw [Activation.exec, h]
      have hname : f.function.names[n]? = some name := by
        unfold rawIndex at h
        split at h
        · next hx =>
          cases h
          exact hx
        · cases h
      obtain ⟨v, hv⟩ := Option.isSome_iff_exists.mp (hfound n name rfl hname)
      refine load_exec t rfl (.inl ⟨v, ?_⟩)
      simp only [performHelper, hv]

/-! ### The code without the temps -/

theorem known_exec (hd : (dests code).Nodup) (hinted : ∀ i ∈ code, i.Hinted o) {f : Activation}
    {w : World} {i : Instruction} (hf : f.code = code) (hi : f.code[f.ip]? = some i)
    (hcopy : CopyFits o (f, w)) (hknown : Known o code f.temps) {es : List Event}
    {s' : Activation × World} (h : f.exec i w = .ok (.step es s')) : Known o code s'.1.temps := by
  have hmem : i ∈ code := List.mem_of_getElem? (hf ▸ hi)
  exact ⟨agrees_exec hi (hinted i hmem) hcopy hknown.agrees h,
    holdsConstants_exec hd hmem hknown.constants h⟩

/-- An instruction that is removed shows nothing and writes obsolete temps only. -/
def Unseen (obsolete : List Nat) (i : Instruction) (s : Activation × World) : Prop :=
  (∃ es f', s.1.exec i s.2 = .ok (.step es (f', s.2)) ∧ es.filter outward = [] ∧
    f' = s.1.advance.alter s.1.code s.1.locals f'.temps ∧
    ∀ t ∉ obsolete, f'.temps t = s.1.temps t) ∨
  ∃ e, s.1.exec i s.2 = .error e ∧ ¬ raised e

theorem unseen_assert {a : Assert} {t : Nat} (h : ∀ v, s.1.temps t = some v → a.check v = .ok ()) :
    Unseen obsolete (.callAssert a t) s := by
  refine (assert_exec (w := s.2) h).imp_left fun hexec => ?_
  exact ⟨[], s.1.advance, hexec, rfl, rfl, fun _ _ => rfl⟩

theorem unseen_assign {t : Nat} {src : Source} (ht : t ∈ obsolete) (hsrc : ∀ n, src ≠ .function n)
    (hfound : ∀ n name, src = .glob n → s.1.function.names[n]? = some name →
      (s.2.globals.lookup name).isSome = true) : Unseen obsolete (.assign t src) s := by
  refine (assign_exec (t := t) hsrc hfound).imp_left ?_
  rintro ⟨es, v, hexec, hes⟩
  refine ⟨es, s.1.advance.setTemp t v, hexec, hes, rfl, fun u hu => ?_⟩
  exact Function.update_of_ne (fun he : u = t => hu (he ▸ ht)) _ _

theorem removes_unseen {i i' : Instruction} (h : Removes obsolete o code i i')
    (hi : s.1.code[s.1.ip]? = some i) (hknown : Known o code s.1.temps)
    (hfound : GlobalsFound obsolete s) :
    i' = i ∧ (∀ t ∈ i.reads, t ∉ obsolete) ∨ i' = .noop ∧ Unseen obsolete i s := by
  cases h with
  | kept hreads => exact .inl ⟨rfl, hreads⟩
  | assign ht hsrc =>
    refine .inr ⟨rfl, unseen_assign ht hsrc fun n name he hname => ?_⟩
    subst he
    exact hfound _ _ _ hi ht hname
  | hinted hpasses =>
    exact .inr ⟨rfl, unseen_assert fun v hv => check_passes hpasses (hknown.agrees _ v hv)⟩
  | constant hassign hcheck =>
    refine .inr ⟨rfl, unseen_assert fun v hv => ?_⟩
    rwa [hknown.constants _ _ v hassign hv]

/-- The code without the obsolete temps keeps step with the code before. -/
theorem removed_lockstep (hd : (dests code).Nodup) (hinted : ∀ i ∈ code, i.Hinted o)
    (hcode : Pointwise (fun _ => Removes obsolete o code) code code') :
    Lockstep (Activation.move.observe outward id) (Activation.move.observe outward id)
      (fun s => CopyFits o s ∧ GlobalsFound obsolete s) raised (Without obsolete o code code') := by
  have hposition := position_removed hcode
  have place : ∀ {s q : Activation × World} {i : Instruction}, Without obsolete o code code' s q →
      s.1.code[s.1.ip]? = some i → ∃ i', q.1.code[q.1.ip]? = some i' ∧
        Removes obsolete o code i i' := by
    intro s q i h hi
    rw [h.instructions, h.ip]
    exact hcode.related (h.source ▸ hi)
  constructor
  · intro s q m h hok hm
    obtain ⟨m₀, hm₀, rfl⟩ := observe_ok.mp hm
    obtain ⟨i, hi, hexec⟩ := move_inv hm₀
    obtain ⟨i', hi', hR⟩ := place h hi
    rcases removes_unseen hR hi h.known hok.2 with ⟨rfl, hreads⟩ | ⟨rfl, hunseen⟩
    · have hsame := h.same hposition hreads
      rw [hexec] at hsame
      have hq : Activation.move q = q.1.exec i' q.2 := move_of hi'
      generalize hx : q.1.exec i' q.2 = x at hsame hq
      cases hsame with
      | ok hsm =>
        refine ⟨_, observe_ok.mpr ⟨_, hq, rfl⟩, ?_⟩
        cases hsm with
        | step _ =>
          exact .step (h.apply (known_exec hd hinted h.source hi hok.1 h.known hexec))
        | call _ => exact .ask fun a => h.advance a.1 a.2
        | collect _ =>
          obtain ⟨hlocals, hreferences, hret⟩ := h.rest
          rw [hlocals, hreferences]
          have hq : ({ q.1.advance with retVal := s.1.retVal } : Activation) = q.1.advance := by
            rw [← hret]
            rfl
          refine .ask fun a => ?_
          have hadvance := h.advance s.1.retVal a.2
          rw [hq] at hadvance
          exact hadvance
        | stop => exact .stop
    · rcases hunseen with ⟨es, f', hmove, hes, hrest, htemps⟩ | ⟨e, herror, -⟩
      · rw [hmove] at hexec
        cases hexec
        refine ⟨_, observe_ok.mpr ⟨.step [] (q.1.advance, q.2), move_of hi', rfl⟩, ?_⟩
        show (Move.step (es.filter outward) _ : Move (Activation × World) Event (Request × World)
          (Value × World) (Option Value × World)).Rel _ (.step [] _)
        rw [hes]
        exact .step (h.removed hrest htemps (known_exec hd hinted h.source hi hok.1 h.known hmove))
      · rw [herror] at hexec
        cases hexec
  · intro s q e h hok he hfail
    rw [observe_error] at hfail ⊢
    cases hi : s.1.code[s.1.ip]? with
    | none =>
      unfold Activation.move at hfail
      rw [hi] at hfail
      cases hfail
      exact absurd he id
    | some i =>
      rw [move_of hi] at hfail
      obtain ⟨i', hi', hR⟩ := place h hi
      rcases removes_unseen hR hi h.known hok.2 with ⟨rfl, hreads⟩ | ⟨rfl, hunseen⟩
      · have hsame := h.same hposition hreads
        rw [hfail] at hsame
        rw [move_of hi']
        generalize hx : q.1.exec i' q.2 = x at hsame
        cases hsame
        rfl
      · rcases hunseen with ⟨es, f', hmove, -⟩ | ⟨e', herror, hnot⟩
        · rw [hmove] at hfail
          cases hfail
        · rw [herror] at hfail
          cases hfail
          exact absurd he hnot

/-! ### The pass -/

theorem meets_operands {visit : Nat → Instruction → Operands → Except Fault Visited}
    (h : ∀ {n i o v}, visit n i o = .ok v → v.operands = o) {n : Nat} {code : List Instruction}
    {o o' : Operands} {i : Instruction} (hm : Meets visit n code o i o') : o' = o := by
  induction hm with
  | here => rfl
  | later hv _ ih => exact ih.trans (h hv)

theorem operands_removeObsolete {i : Instruction} {v : Visited}
    (h : removeObsolete obsolete i o = .ok v) : v.operands = o := by
  unfold removeObsolete at h
  split at h
  · cases h
    rfl
  · split at h
    · cases h
      rfl
    · obtain ⟨b, -, h⟩ := bind_ok.mp h
      cases h
      rfl
  · cases h
    rfl

theorem removeObsolete_pointwise {oc oc' : OptimizingCompiler} (ha : oc.Accounted)
    (ht : oc.Threaded) (hr : oc.run .removeObsolete = .ok oc') :
    Pointwise (fun _ => Removes oc.obsolete oc.compiler.operands oc.compiler.instructions)
      oc.compiler.instructions oc'.compiler.instructions := by
  obtain ⟨oc₁, h₁, hr⟩ := bind_ok.mp hr
  cases hr
  obtain ⟨marked, hl, -⟩ := optimize_ok h₁
  refine pointwise_of_loop hl fun {p i v o₁} hi hm hv _ => ?_
  have ho : o₁ = oc.compiler.operands := meets_operands operands_removeObsolete hm
  subst ho
  have hmem : i ∈ oc.compiler.instructions := List.mem_of_getElem? hi
  have unused : ∀ t ∈ i.uses, t ∉ oc.obsolete := fun t hu hobs =>
    ht.obsolete t hobs (List.mem_flatMap.mpr ⟨i, hmem, hu⟩)
  cases i with
  | assign dest src =>
    cases hv
    dsimp only
    split
    · next hobs =>
      refine .assign hobs ?_
      rintro n rfl
      obtain ⟨j, hj, htakes⟩ := ha.functions dest n hmem
      exact ht.obsolete dest hobs (List.mem_flatMap.mpr ⟨j, hj, takes_uses htakes⟩)
    · exact .kept nofun
  | callAssert a arg =>
    unfold removeObsolete at hv
    dsimp only at hv
    split at hv
    · next hobs =>
      cases hv
      obtain ⟨c, hassign, hcheck⟩ := ha.obsolete arg hobs a hmem
      exact .constant hassign hcheck
    · next hobs =>
      obtain ⟨b, hb, hv⟩ := bind_ok.mp hv
      cases hv
      cases b with
      | true => exact .hinted hb
      | false => exact .kept fun t hmem => List.mem_singleton.mp hmem ▸ hobs
  | _ =>
    cases hv
    exact .kept unused

end RemovedTempsLemmas

end Beaverc.Ir

import Beaverc.LiveRanges

/-!
# Dead variable elimination

`DeadVariableAssignmentOptimization` deletes the stores behind the `live_end` of
their variable. `VarLivenessOptimization` computes it in one scan: it is at
least the position of each load, and at a jump at least the position of the jump
for the variables loaded between the label and the jump. Where the label is, the
pass takes from the label map of the bytecode, although the instructions have
moved since. What is deleted is dead just when each value that is carried back to
its store or before it is kept alive behind the store nevertheless.
-/

namespace Beaverc.Ir
open Process Results LoopsLemmas ChangesLemmas LiveRangesLemmas

/-! ## Liveness -/

/-- On some path from the position the variable is loaded before it is stored. -/
inductive LiveAt (code : List Instruction) (v : Nat) : Nat → Prop
  | load {p dest : Nat} : code[p]? = some (.assign dest (.var v)) → LiveAt code v p
  | step {p q : Nat} {i : Instruction} : code[p]? = some i → i.stored? ≠ some v →
      Flows code p q → LiveAt code v q → LiveAt code v p

/-- A value that is carried back to its store, or before it, and loaded there: a
load stands behind the store in the list, or a jump behind it that finds a load
between the place of its label in the bytecode and itself. -/
def CarriedKept (c : Compiler) : Prop :=
  ∀ s v src rest t, c.instructions[s]? = some (.store (.var v) src) →
    ToLoad c.instructions v ((s + 1) :: rest) → t ∈ rest → t ≤ s → KeptUpTo c v (s + 1)

namespace DeadVariablesLemmas

theorem liveAt_path {code : List Instruction} {v p : Nat} (h : LiveAt code v p) :
    ∃ rest, ToLoad code v (p :: rest) := by
  induction h with
  | load hl => exact ⟨[], .load hl⟩
  | step hi hs hflow _ ih =>
    obtain ⟨rest, hrest⟩ := ih
    exact ⟨_, .step hi hs hflow hrest⟩

theorem path_liveAt {code : List Instruction} {v : Nat} {path : List Nat}
    (h : ToLoad code v path) : ∀ p rest, path = p :: rest → LiveAt code v p := by
  induction h with
  | load hl =>
    intro p rest hp
    cases hp
    exact .load hl
  | step hi hs hflow _ ih =>
    intro p rest hp
    cases hp
    exact .step hi hs hflow (ih _ _ rfl)

/-- A path that stays behind a place ends in a load behind it. -/
theorem keptUpTo_forward {c : Compiler} {v n : Nat} {path : List Nat}
    (h : ToLoad c.instructions v path) (hn : ∀ t ∈ path, n ≤ t) : KeptUpTo c v n := by
  induction h with
  | @load p dest hl => exact ⟨p, hn p List.mem_cons_self, .load hl⟩
  | step _ _ _ _ ih => exact ih fun t ht => hn t (List.mem_cons_of_mem _ ht)

/-- What is live behind a store is loaded behind it in the list, or carried back. -/
theorem keptUpTo_of_liveAt {c : Compiler} (hc : CarriedKept c) {s v src : Nat}
    (hs : c.instructions[s]? = some (.store (.var v) src))
    (h : LiveAt c.instructions v (s + 1)) : KeptUpTo c v (s + 1) := by
  obtain ⟨rest, hpath⟩ := liveAt_path h
  by_cases hback : ∃ t ∈ rest, t ≤ s
  · obtain ⟨t, ht, hts⟩ := hback
    exact hc s v src rest t hs hpath ht hts
  · refine keptUpTo_forward hpath fun t ht => ?_
    rcases List.mem_cons.mp ht with rfl | ht
    · exact Nat.le_refl _
    · exact Nat.lt_of_not_le fun hts => hback ⟨t, ht, hts⟩

end DeadVariablesLemmas

open DeadVariablesLemmas

/-! ## The pass -/

/-- What a visit of the pass does to an instruction. -/
def Deleted (o : Operands) (p : Nat) (i i' : Instruction) : Prop :=
  i' = i ∨ ∃ n src, i = .store (.var n) src ∧ i' = .noop ∧
    (o.var n).liveEnd ≤ ((p : Int) : WithTop Int)

/-- What is compared: stores to locals and the locals that a collection is given
are not seen. -/
def visible : Event → Bool
  | .storeLocal _ _ => false
  | _ => true

def withoutLocals : Request × World → Request × World
  | (.collect _ references operands, w) => (.collect [] references operands, w)
  | r => r

def raised : Stop → Prop
  | .raised _ _ => True
  | _ => False

/-- The second code is the first without dead stores: no path leads from a
deleted store to a load of its variable, and every run of the first code shows
the same and ends alike, after as many moves, in the second. -/
structure DeadStoresDeleted (c c' : Compiler) : Prop where
  dead : ∀ s v src, c.instructions[s]? = some (.store (.var v) src) →
    c'.instructions[s]? ≠ some (.store (.var v) src) → ¬ LiveAt c.instructions v (s + 1)
  mimics : ∀ (env : Request × World → Value × World → Prop) (fr : Frame) (w : World)
    (temps : Nat → Option Value) (retVal : Value),
    Mimics (Activation.move.observe visible withoutLocals)
      (Activation.move.observe visible withoutLocals) env (fun _ => True) raised
      (Activation.of fr c temps retVal, w) (Activation.of fr c' temps retVal, w)

namespace DeadVariablesLemmas

theorem deadVariable_pointwise {code code' : List Instruction} {o o' : Operands}
    {obsolete : List Nat}
    (h : loop (fun count i o => .ok (deadVariableAssignment count i o)) 0 code o =
      .ok (code', o', obsolete)) : Pointwise (Deleted o) code code' ∧ o' = o := by
  refine loop_pointwise (fun {p i v} hv => ?_) h
  cases hv
  unfold deadVariableAssignment
  split
  · next n src =>
    split
    · next hle => exact ⟨rfl, .inr ⟨n, src, rfl, rfl, hle⟩⟩
    · exact ⟨rfl, .inl rfl⟩
  · exact ⟨rfl, .inl rfl⟩

/-- A store that is not before the end of its variable is deleted. -/
theorem deadVariable_noop {code code' : List Instruction} {o o' : Operands}
    {obsolete : List Nat}
    (h : loop (fun count i o => .ok (deadVariableAssignment count i o)) 0 code o =
      .ok (code', o', obsolete)) {s v src : Nat} (hs : code[s]? = some (.store (.var v) src))
    (hle : (o.var v).liveEnd ≤ ((s : Int) : WithTop Int)) : code'[s]? = some .noop := by
  obtain ⟨hpoint, -⟩ := loop_pointwise
    (R := fun p i i' => i' = (deadVariableAssignment p i o).instruction) (o := o)
    (fun {p i x} hx => by
      cases hx
      refine ⟨?_, rfl⟩
      unfold deadVariableAssignment
      split
      · split <;> rfl
      · rfl) h
  obtain ⟨i', hi', rfl⟩ := hpoint.related hs
  rw [hi']
  unfold deadVariableAssignment
  simp only [if_pos hle]

/-- The same place in both codes; the locals agree where they are live. -/
structure Beside (code code' : List Instruction) (s q : Activation × World) : Prop where
  world : q.2 = s.2
  source : s.1.code = code
  target : q.1.code = code'
  rest : q.1 = s.1.alter q.1.code q.1.locals s.1.temps
  length : q.1.locals.length = s.1.locals.length
  live : ∀ v, LiveAt code v s.1.ip → q.1.locals[v]? = s.1.locals[v]?

theorem position_deleted {o : Operands} {code code' : List Instruction}
    (h : Pointwise (Deleted o) code code') (l : Nat) : position code' l = position code l := by
  refine idxOf_pointwise h fun {p i i'} hR => ?_
  rcases hR with rfl | ⟨n, src, rfl, rfl, -⟩
  · exact Iff.rfl
  · exact ⟨nofun, nofun⟩

variable {code code' : List Instruction} {s q : Activation × World}

/-- What is live after an instruction that does not store it is live before it. -/
theorem liveAt_reaches {i : Instruction} {f : Activation} {ip v : Nat}
    (hi : f.code[f.ip]? = some i) (hr : i.Reaches f ip) (hs : i.stored? ≠ some v)
    (h : LiveAt f.code v ip) : LiveAt f.code v f.ip := by
  rcases hr with ⟨hf, rfl⟩ | ⟨l, hl, rfl⟩
  · exact .step hi hs (.next hi hf) h
  · exact .step hi hs (.jump hi hl) h

theorem Beside.apply (h : Beside code code' s q) {i : Instruction}
    (hi : s.1.code[s.1.ip]? = some i) {c : Change} (hc : c.Fits i s.1) (w : World) :
    Beside code code' (s.1.apply c, w) (q.1.apply c, w) := by
  refine ⟨rfl, h.source, h.target, ?_, ?_, fun v hv => ?_⟩
  · rw [h.rest]
    rfl
  · show (storeLocal q.1.locals c.stored).length = (storeLocal s.1.locals c.stored).length
    cases c.stored with
    | none => exact h.length
    | some p => simp only [storeLocal, List.length_set, h.length]
  · show (storeLocal q.1.locals c.stored)[v]? = (storeLocal s.1.locals c.stored)[v]?
    have hstored := hc.stored
    cases hst : c.stored with
    | none =>
      rw [hst] at hstored
      refine h.live v ?_
      rw [← h.source] at hv ⊢
      exact liveAt_reaches hi hc.reaches (by rw [← hstored]; exact nofun) hv
    | some p =>
      simp only [storeLocal, List.getElem?_set, h.length]
      by_cases hpv : p.1 = v
      · rw [if_pos hpv, if_pos hpv]
      · rw [if_neg hpv, if_neg hpv]
        refine h.live v ?_
        rw [← h.source] at hv ⊢
        refine liveAt_reaches hi hc.reaches (fun hv' => hpv ?_) hv
        rw [← hstored, hst] at hv'
        exact Option.some.inj hv'

/-- After an exchange. -/
theorem Beside.advance (h : Beside code code' s q) {i : Instruction}
    (hi : s.1.code[s.1.ip]? = some i) (hf : i.falls = true) (hs : i.stored? = none)
    (v : Value) (w : World) :
    Beside code code' ({ s.1.advance with retVal := v }, w)
      ({ q.1.advance with retVal := v }, w) := by
  refine ⟨rfl, h.source, h.target, ?_, h.length, fun x hx => h.live x ?_⟩
  · rw [h.rest]
    rfl
  · rw [← h.source] at hx ⊢
    exact liveAt_reaches hi (.inl ⟨hf, rfl⟩) (by rw [hs]; exact nofun) hx

theorem Beside.retVal (h : Beside code code' s q) : q.1.retVal = s.1.retVal := by
  rw [h.rest]
  rfl

theorem Beside.ip (h : Beside code code' s q) : q.1.ip = s.1.ip := by
  rw [h.rest]
  rfl

theorem Beside.references (h : Beside code code' s q) : q.1.references = s.1.references := by
  rw [h.rest]
  rfl

theorem move_of {s : Activation × World} {i : Instruction} (hi : s.1.code[s.1.ip]? = some i) :
    Activation.move s = s.1.exec i s.2 := by
  unfold Activation.move
  rw [hi]

/-- An instruction that is kept moves both alike. -/
theorem Beside.same (h : Beside code code' s q) {i : Instruction}
    (hi : s.1.code[s.1.ip]? = some i) (hi' : q.1.code[q.1.ip]? = some i)
    (hp : ∀ l, position code' l = position code l) :
    Same (SameMove i s.1 q.1) (Activation.move s) (Activation.move q) := by
  rw [move_of hi, move_of hi', h.world]
  refine exec_agrees ⟨?_, h.length, ?_, ?_, ?_⟩ s.2
  · conv_lhs => rw [h.rest]
    conv_rhs => rw [h.rest]
    rfl
  · rintro dest n rfl
    have hload : code[s.1.ip]? = some (.assign dest (.var n)) := by
      rw [← h.source]
      exact hi
    exact h.live n (.load hload)
  · intro t _
    rw [h.rest]
    rfl
  · intro l _
    rw [h.source, h.target, hp]

/-- Both codes are past a store that only the first has. -/
theorem Beside.deleted (h : Beside code code' s q) {n src : Nat}
    (hi : s.1.code[s.1.ip]? = some (.store (.var n) src))
    (hdead : ¬ LiveAt code n (s.1.ip + 1)) (v : Value) :
    Beside code code' ({ s.1.advance with locals := s.1.locals.set n v }, s.2)
      (q.1.advance, q.2) := by
  refine ⟨h.world, h.source, h.target, ?_, ?_, fun x hx => ?_⟩
  · rw [h.rest]
    rfl
  · show q.1.locals.length = (s.1.locals.set n v).length
    rw [List.length_set, h.length]
  · have hne : n ≠ x := by
      rintro rfl
      exact hdead hx
    show q.1.locals[x]? = (s.1.locals.set n v)[x]?
    rw [List.getElem?_set_ne hne]
    refine h.live x ?_
    rw [← h.source] at hx ⊢
    exact liveAt_reaches hi (.inl ⟨rfl, rfl⟩) (fun hn => hne (Option.some.inj hn)) hx

theorem observe_rel (h : Beside code code' s q) {i : Instruction}
    (hi : s.1.code[s.1.ip]? = some i)
    {m m' : Move (Activation × World) Event (Request × World) (Value × World)
      (Option Value × World)} (hm : SameMove i s.1 q.1 m m') :
    (m.observe visible withoutLocals).Rel (Beside code code')
      (m'.observe visible withoutLocals) := by
  cases hm with
  | step hc => exact .step (h.apply hi hc _)
  | call hcall =>
    subst hcall
    exact .ask fun a => h.advance hi rfl rfl a.1 a.2
  | collect hcollect =>
    subst hcollect
    have href := h.references
    unfold Move.observe withoutLocals
    simp only [href]
    refine .ask fun a => ?_
    have hadv := h.advance hi rfl rfl s.1.retVal a.2
    have hq : q.1.advance = { q.1.advance with retVal := s.1.retVal } := by
      rw [← h.retVal]
      rfl
    rw [hq]
    exact hadv
  | stop => exact .stop

theorem store_var_exec (f : Activation) (n src : Nat) (w : World) :
    f.exec (.store (.var n) src) w = f.read src >>= fun v =>
      if n < f.locals.length then
        .ok (.step [.storeLocal n v] ({ f.advance with locals := f.locals.set n v }, w))
      else .error .undefined :=
  rfl

/-- A store to a local raises nothing. -/
theorem store_var_error {f : Activation} {n src : Nat} {w : World} {e : Stop}
    (h : f.exec (.store (.var n) src) w = .error e) : e = .undefined := by
  rw [store_var_exec] at h
  unfold Activation.read at h
  split at h
  · rw [ok_bind] at h
    split at h
    · cases h
    · cases h
      rfl
  · cases h
    rfl

/-- The code without dead stores keeps step with the code it comes from. -/
theorem deadVariable_lockstep {o : Operands} (hcode : Pointwise (Deleted o) code code')
    (hdead : ∀ (s n src : Nat), code[s]? = some (.store (.var n) src) →
      (o.var n).liveEnd ≤ ((s : Int) : WithTop Int) → ¬ LiveAt code n (s + 1)) :
    Lockstep (Activation.move.observe visible withoutLocals)
      (Activation.move.observe visible withoutLocals) (fun _ => True) raised
      (Beside code code') := by
  have hposition := position_deleted hcode
  -- what stands in the second code at the place of the instruction in hand
  have place : ∀ {s q : Activation × World} {i : Instruction}, Beside code code' s q →
      s.1.code[s.1.ip]? = some i → ∃ i', q.1.code[q.1.ip]? = some i' ∧ Deleted o s.1.ip i i' := by
    intro s q i h hi
    rw [h.target, h.ip]
    exact hcode.related (h.source ▸ hi)
  constructor
  · intro s q m h _ hm
    obtain ⟨m₀, hm₀, rfl⟩ := observe_ok.mp hm
    cases hi : s.1.code[s.1.ip]? with
    | none =>
      unfold Activation.move at hm₀
      rw [hi] at hm₀
      cases hm₀
    | some i =>
      obtain ⟨i', hi', hR⟩ := place h hi
      rcases hR with rfl | ⟨n, src, rfl, rfl, hle⟩
      · have hsame := h.same hi hi' hposition
        rw [hm₀] at hsame
        cases hmove : Activation.move q with
        | error e => rw [hmove] at hsame; cases hsame
        | ok m₁ =>
          rw [hmove] at hsame
          cases hsame with
          | ok hsm => exact ⟨_, observe_ok.mpr ⟨m₁, hmove, rfl⟩, observe_rel h hi hsm⟩
      · rw [move_of hi, store_var_exec] at hm₀
        obtain ⟨v, -, hm₀⟩ := bind_ok.mp hm₀
        split at hm₀
        · cases hm₀
          refine ⟨.step [] (q.1.advance, q.2),
            observe_ok.mpr ⟨.step [] (q.1.advance, q.2), ?_, rfl⟩,
            .step (h.deleted hi (hdead _ n src (h.source ▸ hi) hle) v)⟩
          rw [move_of hi']
          rfl
        · cases hm₀
  · intro s q e h _ he hfail
    rw [observe_error] at hfail ⊢
    cases hi : s.1.code[s.1.ip]? with
    | none =>
      unfold Activation.move at hfail
      rw [hi] at hfail
      cases hfail
      exact absurd he id
    | some i =>
      obtain ⟨i', hi', hR⟩ := place h hi
      rcases hR with rfl | ⟨n, src, rfl, rfl, hle⟩
      · have hsame := h.same hi hi' hposition
        rw [hfail] at hsame
        cases hmove : Activation.move q with
        | error e' => rw [hmove] at hsame; cases hsame; rfl
        | ok m₁ => rw [hmove] at hsame; cases hsame
      · rw [move_of hi] at hfail
        have hund := store_var_error hfail
        subst hund
        exact absurd he id

end DeadVariablesLemmas

/-- In whatever state of the pipeline the two passes run, they together delete dead
stores only if and only if what is carried back to a store is kept alive behind it. -/
theorem deadVariables_deleted_iff {oc oc₁ oc₂ : OptimizingCompiler}
    (hlive : oc.run .varLiveness = .ok oc₁) (hdead : oc₁.run .deadVariableAssignment = .ok oc₂) :
    DeadStoresDeleted oc.compiler oc₂.compiler ↔ CarriedKept oc.compiler := by
  obtain ⟨⟨code₁, o₁, obs₁⟩, hl₁, h₁⟩ := bind_ok.mp hlive
  cases h₁
  obtain ⟨rfl, rfl, hkept⟩ := varLiveness_liveEnd hl₁
  have hranges := varLiveness_ranges hl₁
  obtain ⟨⟨code₂, o₂, obs₂⟩, hl₂, h₂⟩ := bind_ok.mp hdead
  cases h₂
  obtain ⟨hpoint, rfl⟩ := deadVariable_pointwise hl₂
  constructor
  · intro hdeleted s v src rest t hs hpath _ _
    obtain ⟨r, dest, hr⟩ := toLoad_load hpath
    refine (le_stop_iff (hranges v).2 (hkept v) hr).mp ?_
    -- a store that the liveness puts behind the end of its variable is gone
    by_contra hlt
    refine hdeleted.dead s v src hs ?_ (path_liveAt hpath _ _ rfl)
    obtain ⟨e, he, -⟩ := (hranges v).2 ⟨r, dest, (List.getElem?_eq_some_iff.mp hr).1, hr⟩
    have hes : (e : Int) ≤ s := by
      rw [he, WithTop.coe_le_coe] at hlt
      omega
    rw [deadVariable_noop hl₂ hs (he ▸ WithTop.coe_le_coe.mpr hes)]
    exact fun hnoop => nomatch Option.some.inj hnoop
  · intro hc
    have hnot : ∀ (s n src : Nat), oc.compiler.instructions[s]? = some (.store (.var n) src) →
        (o₂.var n).liveEnd ≤ ((s : Int) : WithTop Int) →
        ¬ LiveAt oc.compiler.instructions n (s + 1) := by
      intro s n src hs hle hl
      obtain ⟨e, he, hk⟩ := keptUpTo_of_liveAt hc hs hl
      have hes := WithTop.coe_le_coe.mp ((hkept n e hk).trans hle)
      omega
    refine ⟨fun s v src hs hs' => ?_, fun env fr w temps retVal => ?_⟩
    · obtain ⟨i', hi', hR⟩ := hpoint.related hs
      rcases hR with rfl | ⟨n, src', hst, rfl, hle⟩
      · exact absurd hi' hs'
      · cases hst
        exact hnot s v src hs hle
    · exact (deadVariable_lockstep hpoint hnot).mimics
        ⟨rfl, rfl, rfl, rfl, rfl, fun _ _ => rfl⟩

/-- In the first round, at a loop that stores the variable of its condition. -/
theorem deadVariables_deleted_iff_waiting : ∃ oc oc₁ oc₂,
    Stands .fresh (functionIn waiting) 7 oc ∧ oc.run .varLiveness = .ok oc₁ ∧
      oc₁.run .deadVariableAssignment = .ok oc₂ ∧
      (DeadStoresDeleted oc.compiler oc₂.compiler ↔ CarriedKept oc.compiler) := by
  have hsome : (do
      let c ← Compiler.compile .fresh (functionIn waiting)
      let oc ← ((allPasses.take 7).foldlM OptimizingCompiler.run ⟨c, []⟩).toOption
      let oc₁ ← (oc.run .varLiveness).toOption
      (oc₁.run .deadVariableAssignment).toOption).isSome = true := by
    decide +kernel
  obtain ⟨oc₂, hsome⟩ := Option.isSome_iff_exists.mp hsome
  obtain ⟨c, hcompile, h⟩ := Option.bind_eq_some_iff.mp hsome
  obtain ⟨oc, hoc, h⟩ := Option.bind_eq_some_iff.mp h
  obtain ⟨oc₁, hoc₁, h⟩ := Option.bind_eq_some_iff.mp h
  have hlive := toOption_eq_some hoc₁
  have hdead := toOption_eq_some h
  exact ⟨oc, oc₁, oc₂, ⟨c, hcompile, toOption_eq_some hoc⟩, hlive, hdead,
    deadVariables_deleted_iff hlive hdead⟩

/-! ## A store that is not dead -/

/-- `f = fun() { r = {}; r[0] = 0; r[0] = 0; c = true; while (c) { c = false; } };` -/
def lostUpdate : Program :=
  let store : Statement := .assignment (.index (.name "r") (.intConst 0)) (.intConst 0)
  .cons (.assignment (.name "f") (.function []
    (.cons (.assignment (.name "r") (.record .nil))
    (.cons store (.cons store
    (.cons (.assignment (.name "c") (.boolConst true))
    (.cons (.whileLoop (.lhs (.name "c"))
      (.cons (.assignment (.name "c") (.boolConst false)) .nil)) .nil))))))) .nil

/-- The function in it. -/
def lostUpdateFunction : Function :=
  (Beaverc.compile lostUpdate).functions.headD {}

/-- Its code when dead variable elimination runs first, with the store in the
loop left open. -/
def lostUpdateCode (store : Instruction) : List Instruction :=
  [.callHelper .allocRecord [], .assign 0 .retVal, .store (.var 1) 0,
    .assign 1 (.const (.integer 0)), .assign 2 (.var 1), .assign 3 (.const (.integer 0)),
    .callHelper .indexStore [2, 3, 1],
    .assign 4 (.const (.integer 0)), .assign 5 (.var 1), .assign 6 (.const (.integer 0)),
    .callHelper .indexStore [5, 6, 4],
    .assign 7 (.const (.boolean true)), .store (.var 0) 7,
    .outputLabel 0, .callHelper .garbageCollect [], .assign 8 (.var 0), .condJump 8 1, .jump 2,
    .outputLabel 1, .assign 9 (.const (.boolean false)), store, .jump 0,
    .outputLabel 2, .assign 10 (.const .none), .ret 10]

namespace DeadVariablesLemmas

/-- The codes before the liveness pass, after it and after the deletion. -/
def lostUpdateStages : Option (List (List Instruction)) := do
  let c ← Compiler.compile .fresh lostUpdateFunction
  let oc ← ((allPasses.take 7).foldlM OptimizingCompiler.run ⟨c, []⟩).toOption
  let oc₁ ← (oc.run .varLiveness).toOption
  let oc₂ ← (oc₁.run .deadVariableAssignment).toOption
  return [oc.compiler.instructions, oc₂.compiler.instructions]

theorem lostUpdate_stages : lostUpdateStages =
    some [lostUpdateCode (.store (.var 0) 9), lostUpdateCode .noop] := by
  decide +kernel

def lostUpdateStart (code : List Instruction) : Activation × World :=
  (⟨0, lostUpdateFunction, code, [], [.none, .none], fun _ => none, .none, 0⟩,
    ⟨CollectedHeap.empty (.x64 false false), 0, [], [], []⟩)

end DeadVariablesLemmas

/-- The loop ends before its store is deleted, and does not end after that. -/
theorem lostUpdate_not_dead : ∃ oc oc₁ oc₂,
    SubFunction (Beaverc.compile lostUpdate) lostUpdateFunction ∧
      Stands .fresh lostUpdateFunction 7 oc ∧ allPasses[7]? = some .varLiveness ∧
      allPasses[8]? = some .deadVariableAssignment ∧ oc.run .varLiveness = .ok oc₁ ∧
      oc₁.run .deadVariableAssignment = .ok oc₂ ∧
      ¬ DeadStoresDeleted oc.compiler oc₂.compiler := by
  have hstages := lostUpdate_stages
  unfold lostUpdateStages at hstages
  obtain ⟨c, hcompile, h⟩ := Option.bind_eq_some_iff.mp hstages
  obtain ⟨oc, hoc, h⟩ := Option.bind_eq_some_iff.mp h
  obtain ⟨oc₁, hoc₁, h⟩ := Option.bind_eq_some_iff.mp h
  obtain ⟨oc₂, hoc₂, h⟩ := Option.bind_eq_some_iff.mp h
  obtain ⟨hcode, h⟩ := List.cons.inj (Option.some.inj h)
  obtain ⟨hcode₂, -⟩ := List.cons.inj h
  refine ⟨oc, oc₁, oc₂, .step (.refl _) ?_, ⟨c, hcompile, toOption_eq_some hoc⟩, rfl, rfl,
    toOption_eq_some hoc₁, toOption_eq_some hoc₂, fun hdead => ?_⟩
  · have hfs : (Beaverc.compile lostUpdate).functions = [lostUpdateFunction] := rfl
    rw [hfs]
    exact List.mem_singleton.mpr rfl
  · have hm := hdead.mimics (fun r a => a = (.none, r.2))
      ⟨0, lostUpdateFunction, [], [.none, .none], [], 0⟩
      ⟨CollectedHeap.empty (.x64 false false), 0, [], [], []⟩ (fun _ => none) .none
    unfold Activation.of at hm
    rw [hcode, hcode₂] at hm
    have hstops : stops (Activation.move.observe visible withoutLocals)
        (fun r => (.none, r.2)) 28 (lostUpdateStart (lostUpdateCode (.store (.var 0) 9))) =
          true := by
      decide +kernel
    have hgoes : stops (Activation.move.observe visible withoutLocals)
        (fun r => (.none, r.2)) 28 (lostUpdateStart (lostUpdateCode .noop)) = false := by
      decide +kernel
    obtain ⟨t, b, hends⟩ := stops_iff.mp hstops
    have hstops' := stops_iff.mpr ⟨t, b, hm.ends 28 t b hends⟩
    exact absurd (hgoes.symm.trans hstops') nofun

end Beaverc.Ir

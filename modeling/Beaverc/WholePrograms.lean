import Beaverc.Base.Calls
import Beaverc.FunctionValues
import Beaverc.GlobalVariables
import Beaverc.Roots
import Beaverc.StackDiscipline

/-!
# Whole programs

A program is run by the machine: its functions call each other through closures
of the heap, and the C++ stack holds the frames that wait. In the source a call
is the meaning of the literal that the closure was made for (`SourceMap.run`).
`run_correct` puts the two next to each other: what the machine ends with, and
how it fails, is what the meaning of the program says.

The machine never collects here; `collections_keep_meaning` adds the collections
that do not delete a closure in use.
-/

namespace Beaverc
open Process Results StepsLemmas CompilerCorrectnessLemmas FunctionValuesLemmas

/-! ## Meaning -/

/-- Knows what the functions of a compiled program were compiled from: a literal
with the scope of its body, or else the program itself. -/
structure SourceMap (prog : Program) where
  literal? : Function → Option (Literal × Scope)
  compiles : ∀ f l S, literal? f = some (l, S) → l.Compiles S f
  complete : ∀ f, SubFunction (compile prog) f → literal? f = none → f = compile prog

/-- How a call is met, where nothing is collected. -/
def linkage :
    Linkage (Frame × World) Stop (Request × World) (Value × World) (Option Value × World) where
  enter r :=
    match r.1 with
    | .call function arguments => do
      match ← enter function arguments r.2 with
      | .frame f w => .ok (.inl (f, w))
      | .value v w => .ok (.inr (v, w))
    | .collect _ _ _ => .ok (.inr (.none, r.2))
  answer r := (r.1.getD .none, r.2)

/-- The meaning of a function that has been entered. -/
def SourceMap.exec {prog : Program} (M : SourceMap prog) (fuel : Nat) (s : Frame × World) :
    Computation (Option Value × World) :=
  match M.literal? s.1.function with
  | some (l, S) => l.exec fuel S s.1.variables s.2
  | none => prog.execProgram fuel s.1.variables s.2

/-- Top-level code has no variables of its own. -/
def Variables.top (closure : Addr) : Variables :=
  ⟨closure, fun _ => 0, fun _ => 0, fun _ => .none⟩

/-- What the program does, if loops and calls that are nested deeper than the fuel
are cut off. -/
def SourceMap.behavior {prog : Program} (M : SourceMap prog) (fuel : Nat) (options : HeapOptions)
    (input : List String) : Behavior Stop Event Empty Empty (Option Value × World) :=
  let w := World.initial options input (compile prog)
  (prog.execProgram fuel (Variables.top w.mainClosure) w).handle (linkage.calls (M.exec fuel) fuel)

/-- What the program ends with. -/
def SourceMap.run {prog : Program} (M : SourceMap prog) (fuel : Nat) (options : HeapOptions)
    (input : List String) : Option (Except Stop (Value × World)) :=
  (M.behavior fuel options input).outcome.map fun o => o.map linkage.answer

/-- Every compiled program has a source map. -/
theorem nonempty_sourceMap (prog : Program) : Nonempty (SourceMap prog) := by
  classical
  have hsource (f : Function) : ∃ r : Option (Literal × Scope),
      (∀ l S, r = some (l, S) → l.Compiles S f) ∧
      (SubFunction (compile prog) f → r = none → f = compile prog) := by
    by_cases hf : ∃ l S, Literal.Compiles l S f
    · obtain ⟨l, S, h⟩ := hf
      refine ⟨some (l, S), ?_, ?_⟩
      · rintro _ _ ⟨⟩
        exact h
      · intro _ hn
        cases hn
    · refine ⟨none, ?_, ?_⟩
      · intro _ _ hn
        cases hn
      intro h _
      rcases subFunction_emitted h with rfl | ⟨up, l, -, parent, k, rfl⟩
      · rfl
      · exact absurd ⟨l, _, up, parent, k, rfl, rfl⟩ hf
  choose r hr using hsource
  exact ⟨⟨r, fun f => (hr f).1, fun f => (hr f).2⟩⟩

/-! ## The functions of a program stay among themselves -/

namespace WholeProgramLemmas

variable {prog : Program}

/-- A running function is one of the program, and so is all code in the heap. -/
def Inv (prog : Program) (s : Frame × World) : Prop :=
  SubFunction (compile prog) s.1.function ∧ s.2.heap.CodeIn (SubFunction (compile prog))

/-- The state at the start of a call. -/
def Entry (s : Frame × World) : Prop :=
  s.1.Starts s.1.function

theorem exec_code {f f' : Frame} {i : Instruction} {w w' : World} {e : Option Event}
    (h : f.exec i w = .ok (.next f' w' e))
    (hc : w.heap.CodeIn (SubFunction (compile prog))) :
    w'.heap.CodeIn (SubFunction (compile prog)) := by
  by_cases hs : ∃ k, i = .storeGlobal k
  · obtain ⟨k, rfl⟩ := hs
    obtain ⟨x, -, h⟩ := bind_ok.mp h
    split at h
    · obtain ⟨u, w₁, hw, he⟩ := store_ok.mp h
      cases hw
      cases he
      exact hc
    · cases h
  · rcases GlobalVariablesLemmas.exec_world h fun k he => hs ⟨k, he⟩ with ⟨a, v, -, hw⟩ | rfl
    · exact codeIn_perform (fun f g hf hg => .step hf hg) hc hw
    · exact hc

theorem observed_step {s s' : Frame × World} {es : List Event}
    (h : Frame.observed s = .ok (.step es s')) : ∃ fs, Frame.move s = .ok (.step fs s') := by
  obtain ⟨m, hm, ho⟩ := Process.observe_ok.mp h
  cases m with
  | step fs s₁ =>
    cases ho
    exact ⟨fs, hm⟩
  | ask => cases ho
  | stop => cases ho

theorem observed_ask {s : Frame × World} {r : Request × World}
    {next : Value × World → Frame × World} (h : Frame.observed s = .ok (.ask r next)) :
    Frame.move s = .ok (.ask r next) := by
  obtain ⟨m, hm, ho⟩ := Process.observe_ok.mp h
  cases m with
  | step => cases ho
  | ask r next =>
    cases ho
    exact hm
  | stop => cases ho

theorem observed_stop {s : Frame × World} {b : Option Value × World}
    (h : Frame.observed s = .ok (.stop b)) : b.2 = s.2 := by
  obtain ⟨m, hm, ho⟩ := Process.observe_ok.mp h
  unfold Frame.move at hm
  split at hm
  · cases hm
    cases ho
    rfl
  · obtain ⟨o, -, hm⟩ := bind_ok.mp hm
    cases o with
    | ret v =>
      cases hm
      cases ho
      rfl
    | next =>
      cases hm
      cases ho
    | call =>
      cases hm
      cases ho
    | collect =>
      cases hm
      cases ho

/-- A request is put in the world of the frame, which goes on with the function it has. -/
theorem observed_request {s : Frame × World} {r : Request × World}
    {next : Value × World → Frame × World} (h : Frame.observed s = .ok (.ask r next)) :
    r.2 = s.2 ∧ ∀ a, (next a).1.function = s.1.function ∧ (next a).2 = a.2 := by
  obtain ⟨i, -, ⟨function, arguments, fr, hx, rfl, rfl⟩ | ⟨fr, hx, rfl, rfl⟩⟩ :=
    frame_ask (observed_ask h)
  · exact ⟨rfl, fun a => ⟨(StackDisciplineLemmas.exec_call hx).1, rfl⟩⟩
  · obtain ⟨-, rfl⟩ := StackDisciplineLemmas.exec_collect hx
    exact ⟨rfl, fun a => ⟨rfl, rfl⟩⟩

theorem linkage_enter {C : Function → Prop} {r : Request × World} (hc : r.2.heap.CodeIn C)
    {x : (Frame × World) ⊕ (Value × World)} (h : linkage.enter r = .ok x) :
    (∃ s f, x = .inl s ∧ C f ∧ s.1.Starts f ∧ s.2.heap.CodeIn C) ∨
      ∃ a, x = .inr a ∧ a.2.heap.CodeIn C := by
  obtain ⟨r, w⟩ := r
  cases r with
  | call function arguments =>
    obtain ⟨e, he, h⟩ := bind_ok.mp h
    rcases enter_started hc he with ⟨f, frame, w', rfl, hf, hstarts, hcode⟩ | ⟨v, w', rfl, hcode⟩
    · cases h
      exact .inl ⟨(frame, w'), f, rfl, hf, hstarts, hcode⟩
    · cases h
      exact .inr ⟨(v, w'), rfl, hcode⟩
  | collect =>
    cases h
    exact .inr ⟨(.none, w), rfl, hc⟩

theorem linked (prog : Program) : Linked Frame.observed linkage (Inv prog) Entry
    fun a => a.2.heap.CodeIn (SubFunction (compile prog)) where
  step := by
    rintro s s' es ⟨hf, hc⟩ h
    obtain ⟨fs, hm⟩ := observed_step h
    obtain ⟨i, ev, -, hx, -⟩ := frame_step hm
    exact ⟨(StackDisciplineLemmas.exec_next hx).1 ▸ hf, exec_code hx hc⟩
  next := by
    rintro s r next a ⟨hf, -⟩ h ha
    obtain ⟨hfunction, hworld⟩ := (observed_request h).2 a
    exact ⟨hfunction ▸ hf, hworld ▸ ha⟩
  enter := by
    rintro s s' r next ⟨-, hc⟩ h he
    rcases linkage_enter ((observed_request h).1 ▸ hc) he with
      ⟨s₁, f, hs, hf, hstarts, hcode⟩ | ⟨a, ha, -⟩
    · cases hs
      have hfunction : s'.1.function = f := hstarts.function
      subst hfunction
      exact ⟨⟨hf, hcode⟩, hstarts⟩
    · cases ha
  answer := by
    rintro s r next a ⟨-, hc⟩ h he
    rcases linkage_enter ((observed_request h).1 ▸ hc) he with ⟨s₁, f, hs, -⟩ | ⟨a, ha, hcode⟩
    · cases hs
    · cases ha
      exact hcode
  stop := by
    rintro s b ⟨-, hc⟩ h
    exact (observed_stop h) ▸ hc

/-- Each function of the program does what its source means. -/
theorem entry_exhibits (M : SourceMap prog) (hprog : prog.lacksConstant = false) (n : Nat)
    (s : Frame × World) (hs : Inv prog s) (he : Entry s) :
    Frame.observed.Exhibits n s (M.exec n s) := by
  unfold SourceMap.exec
  split
  · next l S hl =>
    obtain ⟨up, parent, k, hf, rfl⟩ := M.compiles _ l S hl
    have h := literal_exhibits (compile_wellEmitted prog (hf ▸ hs.1)) n s.1.variables s.2
    rwa [← hf, frame_variables he (hf ▸ emitted_named up parent k l)] at h
  · next hl =>
    have hf := M.complete _ hs.1 hl
    have h := program_exhibits hprog n s.1.variables s.2
    rwa [← hf, frame_variables he (hf ▸ main_named prog)] at h

/-! ## The machine moves as the stacked functions -/

/-- The functions of a program with the stack of the machine. -/
abbrev Stacked :=
  Process ((Frame × World) × List (Value × World → Frame × World)) Stop Event Empty Empty
    (Option Value × World)

/-- What a waiting frame does with the result of its call. -/
def resumed (f : Frame) (a : Value × World) : Frame × World :=
  ({ f with stack := a.1 :: f.stack }, a.2)

/-- The machine as a state of the stacked process. -/
def state (f : Frame) (callers : List Frame) (w : World) :
    (Frame × World) × List (Value × World → Frame × World) :=
  ((f, w), callers.map resumed)

/-- A step of the machine and the move of its state. -/
inductive StepsAs : Except Stop (Move ((Frame × World) × List (Value × World → Frame × World))
    Event Empty Empty (Option Value × World)) → Except Stop Progress → Prop
  | error (e : Stop) : StepsAs (.error e) (.error e)
  | running (es : List Event) (f : Frame) (callers : List Frame) (w : World) :
      StepsAs (.ok (.step es (state f callers w))) (.ok (.running ⟨f :: callers, w⟩))
  | finished (r : Option Value × World) : StepsAs (.ok (.stop r))
      (.ok (.finished (linkage.answer r).1 (linkage.answer r).2))

theorem return_stepsAs {f : Frame} {callers : List Frame} {w : World} {o : Option Value}
    (h : Frame.observed (f, w) = .ok (.stop (o, w))) :
    StepsAs ((Frame.observed.stacked linkage : Stacked) (state f callers w))
      (.ok (resume (o.getD .none) callers w)) := by
  cases callers with
  | nil =>
    rw [state, List.map_nil, Linked.stacked_stop h]
    exact .finished (o, w)
  | cons g rest =>
    rw [state, List.map_cons, Linked.stacked_return h]
    exact .running [] { g with stack := o.getD .none :: g.stack } rest w

theorem step_stepsAs (f : Frame) (callers : List Frame) (w : World) :
    StepsAs ((Frame.observed.stacked linkage : Stacked) (state f callers w))
      (Machine.step false ⟨f :: callers, w⟩) := by
  unfold Machine.step
  dsimp only
  cases hi : f.function.instructions[f.ip]? with
  | none =>
    refine return_stepsAs (o := none) ?_
    unfold Frame.observed Process.observe Frame.move
    simp only [hi]
    rfl
  | some i =>
    dsimp only
    cases hx : f.exec i w with
    | error e =>
      have h : Frame.observed (f, w) = .error e := by
        unfold Frame.observed Process.observe Frame.move
        simp only [hi, hx]
        rfl
      rw [state, Linked.stacked_error h]
      exact .error e
    | ok o =>
      cases o with
      | next g w' ev =>
        have h : Frame.observed (f, w) =
            .ok (.step (ev.toList.filter Event.isAct) (g, w')) := by
          unfold Frame.observed Process.observe Frame.move
          simp only [hi, hx]
          rfl
        rw [state, Linked.stacked_step h]
        exact .running _ g callers w'
      | ret v =>
        refine return_stepsAs (o := some v) ?_
        unfold Frame.observed Process.observe Frame.move
        simp only [hi, hx]
        rfl
      | collect g =>
        have h : Frame.observed (f, w) = .ok (.ask (.collect g.locals g.references g.stack, w)
            fun a => (g, a.2)) := by
          unfold Frame.observed Process.observe Frame.move
          simp only [hi, hx]
          rfl
        rw [state, Linked.stacked_answer (a := (.none, w)) h rfl]
        exact .running [] g callers w
      | call function arguments g =>
        have h : Frame.observed (f, w) = .ok (.ask (.call function arguments, w) (resumed g)) := by
          unfold Frame.observed Process.observe Frame.move
          simp only [hi, hx]
          rfl
        simp only [ok_bind]
        cases he : enter function arguments w with
        | error e =>
          have hr : linkage.enter (.call function arguments, w) = .error e := by
            show (enter function arguments w >>= _) = _
            rw [he]
            rfl
          rw [state, Linked.stacked_fails h hr]
          exact .error e
        | ok entered =>
          cases entered with
          | frame callee w' =>
            have hr : linkage.enter (.call function arguments, w) = .ok (.inl (callee, w')) := by
              show (enter function arguments w >>= _) = _
              rw [he]
              rfl
            rw [state, Linked.stacked_call h hr]
            exact .running [] callee (g :: callers) w'
          | value v w' =>
            have hr : linkage.enter (.call function arguments, w) = .ok (.inr (v, w')) := by
              show (enter function arguments w >>= _) = _
              rw [he]
              rfl
            rw [state, Linked.stacked_answer h hr]
            exact .running [] { g with stack := v :: g.stack } callers w'

/-- How a machine ends. -/
def ending (o : Except Stop (Value × World)) : Except Stop Progress :=
  o.map fun r => .finished r.1 r.2

theorem run_of_finishes {env : Empty → Empty → Prop} {k : Nat} {f : Frame} {callers : List Frame}
    {w : World} {t : List (Label Event Empty Empty)} {o : Except Stop (Option Value × World)}
    (h : Process.Finishes (Frame.observed.stacked linkage : Stacked) env k
      (state f callers w) t o) :
    ∃ n, Machine.run (List.replicate n false) ⟨f :: callers, w⟩ =
      ending (o.map linkage.answer) := by
  induction k generalizing f callers w t with
  | zero =>
    obtain ⟨s', hr, ho⟩ := h
    cases hr
    have hstep := step_stepsAs f callers w
    rw [ho] at hstep
    refine ⟨1, ?_⟩
    rw [List.replicate_one, Machine.run]
    generalize Machine.step false ⟨f :: callers, w⟩ = x at hstep
    cases o with
    | error e =>
      cases hstep
      rfl
    | ok r =>
      cases hstep
      rfl
  | succ k ih =>
    obtain ⟨s', hr, ho⟩ := h
    have hstep := step_stepsAs f callers w
    cases hr with
    | step _ hs hr' =>
      rw [hs] at hstep
      generalize hx : Machine.step false ⟨f :: callers, w⟩ = x at hstep
      cases hstep with
      | running es g rest w' =>
        obtain ⟨n, hn⟩ := ih ⟨s', hr', ho⟩
        refine ⟨n + 1, ?_⟩
        rw [List.replicate_succ, Machine.run, hx]
        exact hn
    | @ask _ _ _ r => exact r.elim

theorem finishes_of_run (env : Empty → Empty → Prop) {n : Nat} {f : Frame} {callers : List Frame}
    {w : World} {o : Except Stop (Value × World)}
    (h : Machine.run (List.replicate n false) ⟨f :: callers, w⟩ = ending o) :
    ∃ k t o', Process.Finishes (Frame.observed.stacked linkage : Stacked) env k
      (state f callers w) t o' ∧ o'.map linkage.answer = o := by
  induction n generalizing f callers w with
  | zero => cases o <;> cases h
  | succ n ih =>
    have hstep := step_stepsAs f callers w
    rw [List.replicate_succ, Machine.run] at h
    generalize hs : (Frame.observed.stacked linkage : Stacked) (state f callers w) = move at hstep
    generalize Machine.step false ⟨f :: callers, w⟩ = x at hstep h
    cases hstep with
    | error e =>
      cases o with
      | error e' =>
        cases h
        exact ⟨0, [], .error e, ⟨_, .refl _, hs⟩, rfl⟩
      | ok r => cases h
    | running es g rest w' =>
      obtain ⟨k, t, o', ⟨s', hr, ho⟩, rfl⟩ := ih h
      exact ⟨k + 1, _, o', ⟨s', .step trivial hs hr, ho⟩, rfl⟩
    | finished r =>
      cases o with
      | error e => cases h
      | ok r' =>
        obtain ⟨hv, hw⟩ := Progress.finished.inj (Except.ok.inj h)
        exact ⟨0, [], .ok r, ⟨_, .refl _, hs⟩, congrArg Except.ok (Prod.ext hv hw)⟩

/-- The machine at the start of a program. -/
theorem start_eq {options : HeapOptions} {input : List String} {m : Machine}
    (hm : Machine.start options input (compile prog) = .ok m) :
    ∃ fr, m = ⟨[fr], World.initial options input (compile prog)⟩ ∧ fr.Starts (compile prog) ∧
      fr.variables = Variables.top (World.initial options input (compile prog)).mainClosure := by
  obtain ⟨⟨fr, w⟩, he, hm⟩ := bind_ok.mp hm
  cases hm
  obtain ⟨hlocals, hreferences, hfree⟩ := main_tables prog
  unfold enterClosure at he
  rw [hlocals, hreferences, hfree] at he
  split at he
  · cases he
  · cases he
    refine ⟨_, rfl, ⟨rfl, rfl, rfl, ?_, ?_⟩, ?_⟩
    · rw [Function.numReferences, hreferences, hfree]
      rfl
    · rw [hlocals]
      rfl
    · unfold Frame.variables Variables.top
      simp only [List.getD_nil, List.length_nil, List.replicate_zero]
      rfl

theorem initial_code (options : HeapOptions) (input : List String) (prog : Program) :
    (World.initial options input (compile prog)).heap.CodeIn (SubFunction (compile prog)) := by
  refine codeIn_allocate (h := CollectedHeap.empty options) ?_ ?_
  · intro a o f ho
    cases ho
  · rintro f ⟨⟩
    exact .refl _

/-- The functions of the program, started at the main one, exhibit its behavior. -/
theorem program_stacked (M : SourceMap prog) (hprog : prog.lacksConstant = false)
    {options : HeapOptions} {input : List String} {m : Machine}
    (hm : Machine.start options input (compile prog) = .ok m) : ∃ fr w, m = ⟨[fr], w⟩ ∧
      ∀ n, (Frame.observed.stacked linkage : Stacked).Exhibits n (state fr [] w)
        (M.behavior n options input) := by
  obtain ⟨fr, rfl, hstarts, hvariables⟩ := start_eq hm
  refine ⟨fr, _, rfl, fun n => ?_⟩
  set w := World.initial options input (compile prog) with hw
  have hf : fr.function = compile prog := hstarts.function
  have hinv : Inv prog (fr, w) := ⟨hf ▸ .refl _, initial_code options input prog⟩
  have h := program_exhibits hprog n fr.variables w
  rw [frame_variables hstarts (main_named prog), hvariables] at h
  exact (linked prog).exhibits (entry_exhibits M hprog n) h hinv

/-- The runs of the machine that end, and the ends of the behavior. -/
theorem run_iff_outcome (M : SourceMap prog) (hprog : prog.lacksConstant = false)
    {options : HeapOptions} {input : List String} {m : Machine}
    (hm : Machine.start options input (compile prog) = .ok m) {r : Except Stop (Value × World)} :
    (∃ n, m.run (List.replicate n false) = ending r) ↔
      ∃ fuel b, (M.behavior fuel options input).outcome = some b ∧ b.map linkage.answer = r := by
  obtain ⟨fr, w, rfl, hexhibits⟩ := program_stacked M hprog hm
  let env : Empty → Empty → Prop := fun _ _ => False
  constructor
  · rintro ⟨n, hn⟩
    obtain ⟨k, t, b, hb, hr⟩ := finishes_of_run env hn
    obtain ⟨fuel, hpath⟩ := (Process.finishes_iff hexhibits).mp ⟨k, hb⟩
    exact ⟨fuel, b, Behavior.path_iff_outcome.mp ⟨t, hpath⟩, hr⟩
  · rintro ⟨fuel, b, hb, rfl⟩
    obtain ⟨t, hpath⟩ : ∃ t, Behavior.Path env _ t b := Behavior.path_iff_outcome.mpr hb
    obtain ⟨k, hk⟩ := (Process.finishes_iff hexhibits).mpr ⟨fuel, hpath⟩
    exact run_of_finishes hk

/-- A machine that collects shows what one shows that does not. -/
theorem run_observed {options : HeapOptions} {input : List String} {m : Machine}
    (hm : Machine.start options input (compile prog) = .ok m) {choices : List Bool}
    (hc : Machine.Along (fun _ => ClosurePresent) choices m)
    (hg : Machine.Along CounterFits choices m) :
    (m.run choices).map Progress.observe =
      (m.run (List.replicate choices.length false)).map Progress.observe := by
  have hrun := RootLemmas.run_agrees (RootLemmas.start_twin hm) hc hg
  rw [List.map_const'] at hrun
  generalize m.run choices = x at hrun ⊢
  generalize m.run (List.replicate choices.length false) = y at hrun ⊢
  cases hrun with
  | error _ => rfl
  | ok hp =>
    cases hp with
    | running htwin => exact congrArg (fun o => Except.ok (none, o)) htwin.world.output.symm
    | @finished v w w₀ htwin => exact congrArg (fun o => Except.ok (some v, o)) htwin.output.symm

theorem ended_of_observed {x : Except Stop Progress} {o : Except Stop (Value × List String)}
    (h : x.map Progress.observe = o.map fun r => (some r.1, r.2)) :
    ∃ r : Except Stop (Value × World), x = ending r ∧ (r.map fun p => (p.1, p.2.output)) = o := by
  cases x with
  | error e =>
    cases o with
    | error e' =>
      cases h
      exact ⟨.error e, rfl, rfl⟩
    | ok r => cases h
  | ok p =>
    cases o with
    | error e => cases h
    | ok r =>
      cases p with
      | running m => cases h
      | finished v w =>
        obtain ⟨hv, ho⟩ := Prod.mk.inj (Except.ok.inj h)
        exact ⟨.ok (v, w), rfl, congrArg Except.ok (Prod.ext (Option.some.inj hv) ho)⟩

/-- What is known of the states that are reached holds along the run. -/
theorem along_of_reached {P : Bool → Machine → Prop} {c : Nat → Bool} {m : Machine}
    (h : ∀ n m', m.run ((List.range n).map c) = .ok (.running m') → P (c n) m') (n : Nat) :
    Machine.Along P ((List.range n).map c) m := by
  induction n generalizing c m with
  | zero => trivial
  | succ n ih =>
    rw [List.range_succ_eq_map, List.map_cons, List.map_map]
    refine ⟨h 0 m rfl, ?_⟩
    split
    · next m₁ hs =>
      refine ih (c := c ∘ Nat.succ) fun k m' hk => h (k + 1) m' ?_
      rw [List.range_succ_eq_map, List.map_cons, List.map_map, Machine.run, hs]
      exact hk
    · trivial

/-- No other state is reached than those along a run that has come to its end. -/
theorem reached_of_along {P : Bool → Machine → Prop} {c : Nat → Bool} {n : Nat} {m : Machine}
    {v : Value} {w : World} (hrun : m.run ((List.range n).map c) = .ok (.finished v w))
    (h : Machine.Along P ((List.range n).map c) m) (k : Nat) (m' : Machine)
    (hk : m.run ((List.range k).map c) = .ok (.running m')) : P (c k) m' := by
  induction n generalizing c k m with
  | zero => cases hrun
  | succ n ih =>
    rw [List.range_succ_eq_map, List.map_cons, List.map_map] at hrun h
    obtain ⟨hfirst, hrest⟩ := h
    cases k with
    | zero =>
      cases hk
      exact hfirst
    | succ k =>
      rw [List.range_succ_eq_map, List.map_cons, List.map_map, Machine.run] at hk
      rw [Machine.run] at hrun
      generalize m.step (c 0) = x at hk hrun hrest
      cases x with
      | error e => cases hk
      | ok p =>
        cases p with
        | finished => cases hk
        | running m₁ => exact ih hrun hrest k hk

/-- A run that comes to its end has loaded nothing from a deleted closure. -/
theorem undisturbed_of_finished {c : Nat → Bool} {n : Nat} {m : Machine} {v : Value} {w : World}
    (hrun : m.run ((List.range n).map c) = .ok (.finished v w))
    (hg : Machine.Along CounterFits ((List.range n).map c) m) (k : Nat) (m' : Machine)
    (hk : m.run ((List.range k).map c) = .ok (.running m')) :
    ClosurePresent m' ∧ CounterFits (c k) m' := by
  have hpresent : Machine.Along (fun _ => ClosurePresent) ((List.range n).map c) m := by
    refine RootLemmas.along_of_run ?_
    rw [hrun]
    intro h
    cases h
  exact ⟨reached_of_along hrun hpresent k m' hk, reached_of_along hrun hg k m' hk⟩

end WholeProgramLemmas

/-- In no state that the machine reaches, if it collects where `c` says, is a
function loaded from a deleted closure, or the counter of collections wrapped. -/
def Machine.Undisturbed (c : Nat → Bool) (m : Machine) : Prop :=
  ∀ n m', m.run ((List.range n).map c) = .ok (.running m') →
    ClosurePresent m' ∧ CounterFits (c n) m'

open WholeProgramLemmas

/-- The machine, run without collections, ends with what the program means, and
fails as it does. -/
theorem run_correct {prog : Program} (M : SourceMap prog) (hprog : prog.lacksConstant = false)
    (options : HeapOptions) (input : List String) (m : Machine)
    (hm : Machine.start options input (compile prog) = .ok m) (o : Except Stop (Value × World)) :
    (∃ n, m.run (List.replicate n false) = o.map fun r => .finished r.1 r.2) ↔
      ∃ fuel, M.run fuel options input = some o := by
  refine (run_iff_outcome M hprog hm).trans (exists_congr fun fuel => ?_)
  exact Option.map_eq_some_iff.symm

/-- The machine has evaluated the program; so its meaning is known. -/
theorem run_correct_printsSuccessor : ∃ fuel w,
    (nonempty_sourceMap printsSuccessor).some.run fuel (.x64 false false) [] =
      some (.ok (.makeInteger 0, w)) ∧ w.output = ["2"] := by
  obtain ⟨fuel, h⟩ := (run_correct (nonempty_sourceMap printsSuccessor).some (by decide)
    (.x64 false false) [] _ rfl (.ok (.makeInteger 0, _))).mp ⟨22, rfl⟩
  exact ⟨fuel, _, h, rfl⟩

/-- The options without `gc-generational`: all collections are full. -/
def HeapOptions.full (options : HeapOptions) : HeapOptions :=
  { options with generational := false }

/-- Whenever it collects, the machine ends with the value and the output that the
program means, as long as no closure is deleted that is still in use. -/
theorem collected_run_correct {prog : Program} (M : SourceMap prog)
    (hprog : prog.lacksConstant = false) (options : HeapOptions) (input : List String) (m : Machine)
    (hm : Machine.start options.full input (compile prog) = .ok m) (c : Nat → Bool)
    (hc : m.Undisturbed c) (o : Except Stop (Value × List String)) :
    (∃ n, (m.run ((List.range n).map c)).map Progress.observe =
        o.map fun r => (some r.1, r.2)) ↔
      ∃ fuel, (M.run fuel options.full input).map
        (fun r => r.map fun p => (p.1, p.2.output)) = some o := by
  have hobserved (n : Nat) : (m.run ((List.range n).map c)).map Progress.observe =
      (m.run (List.replicate n false)).map Progress.observe := by
    have h := run_observed hm
      (along_of_reached (P := fun _ => ClosurePresent) (fun k m' hk => (hc k m' hk).1) n)
      (along_of_reached (P := CounterFits) (fun k m' hk => (hc k m' hk).2) n)
    rwa [List.length_map, List.length_range] at h
  simp only [hobserved]
  constructor
  · rintro ⟨n, hn⟩
    obtain ⟨r, hr, rfl⟩ := ended_of_observed hn
    obtain ⟨fuel, b, hb, rfl⟩ := (run_iff_outcome M hprog hm).mp ⟨n, hr⟩
    refine ⟨fuel, ?_⟩
    rw [SourceMap.run, hb]
    rfl
  · rintro ⟨fuel, hfuel⟩
    obtain ⟨r, hr, rfl⟩ := Option.map_eq_some_iff.mp hfuel
    obtain ⟨b, hb, rfl⟩ := Option.map_eq_some_iff.mp hr
    obtain ⟨n, hn⟩ := (run_iff_outcome M hprog hm).mpr ⟨fuel, b, hb, rfl⟩
    refine ⟨n, ?_⟩
    rw [hn]
    cases b with
    | error e => rfl
    | ok r => rfl

/-- The same where the machine collects whenever it can. -/
theorem collected_run_correct_printsSuccessor : ∃ fuel,
    ((nonempty_sourceMap printsSuccessor).some.run fuel (HeapOptions.x64 true false).full []).map
      (fun r => r.map fun p => (p.1, p.2.output)) = some (.ok (.makeInteger 0, ["2"])) := by
  refine (collected_run_correct (nonempty_sourceMap printsSuccessor).some (by decide)
    (.x64 true false) [] _ rfl (fun _ => true) ?_ (.ok (.makeInteger 0, ["2"]))).mp ⟨22, rfl⟩
  exact undisturbed_of_finished (n := 22) rfl (by decide)

end Beaverc

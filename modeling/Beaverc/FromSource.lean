import Beaverc.CompilerCorrectness
import Beaverc.Failures
import Beaverc.OptimizedRuns

/-!
# From source to optimised code

The code that is left of a function literal after translation and optimisation does
what the literal means. The meaning is that of the bytecode emitted; the translation
follows the bytecode where the checks of the two are the same, and each pass keeps what
its code does.
-/

namespace Beaverc.Ir
open Process Results StepsLemmas TranslationLemmas FailuresLemmas ConstantFoldingLemmas
  OptimizerErrorsLemmas CompilerCorrectnessLemmas OptimizedRunsLemmas

/-- The operations on the world that are seen of a literal and of optimised code. -/
def seen (e : Event) : Bool :=
  e.isAct && outward e

/-- A value is returned, or an exception is raised. -/
def Reported : Except Stop (Option Value × World) → Prop
  | .ok (v, _) => v.isSome = true
  | .error e => raised e

namespace FromSourceLemmas

variable {env : Request × World → Value × World → Prop} {fr : Frame} {w : World} {retVal : Value}

theorem observe_seen (t : List (Label Event (Request × World) (Value × World))) :
    (t.filterMap (Label.observe outward withoutLocals)).filterMap (Label.observe seen id) =
      t.filterMap (Label.observe seen withoutLocals) :=
  observe_twice (fun _ he => (Bool.and_eq_true_iff.mp he).2) (fun _ => rfl) t

theorem observe_acts (t : List (Label Event (Request × World) (Value × World))) :
    (t.filterMap (Label.observe Event.isAct id)).filterMap (Label.observe seen withoutLocals) =
      t.filterMap (Label.observe seen withoutLocals) :=
  observe_twice (fun _ he => (Bool.and_eq_true_iff.mp he).1) (fun _ => rfl) t

/-- What code does that is optimised or not, seen from a run of bytecode. -/
theorem translated_kept {prog : Program} {f : Function} (hf : SubFunction (Beaverc.compile prog) f)
    {shared : Operands} {c : Compiler} (hc : Compiler.compile shared f = some c)
    (hfn : fr.function = f) (hip : fr.ip = 0) (hst : fr.stack = [])
    (hchecks : Always Frame.move env SameChecks (fr, w))
    {t : List (Label Event (Request × World) (Value × World))}
    {o : Except Stop (Option Value × World)} (ho : Reported o) {k : Nat}
    (h : Frame.move.Finishes env k (fr, w) t o) :
    ∃ n, Activation.move.Finishes env n ((⟨c, []⟩ : OptimizingCompiler).start fr retVal, w) t
      o := by
  have hw := compile_wellEmitted prog hf
  have hrange : ConstantsInRange f := foldlM_constants hc rfl
  have hstart : Follows shared f c (fr, w) ((⟨c, []⟩ : OptimizingCompiler).start fr retVal, w) :=
    follows_start hfn hip hst
  cases o with
  | ok b =>
    obtain ⟨v, w'⟩ := b
    obtain ⟨v, rfl⟩ := Option.isSome_iff_exists.mp ho
    have hends : Ends Frame.move env LogicalOperands (fr, w) t (some v, w') :=
      ends_always ⟨k, finishes_ok.mp h⟩ (hchecks.mono fun _ => sameChecks_logical)
    obtain ⟨n, hn⟩ := (simulation hw hrange hc).ends
      (fun hR _ hs => ⟨_, .refl _, follows_stop hw hrange hc hR hs⟩) hends hstart
    exact ⟨n, finishes_ok.mpr hn⟩
  | error e =>
    have hshown : Shown e := by
      cases e <;> exact ho
    have hsim := failureSimulation (P := Activation.move) hw hrange hc (compile_operands prog hf)
      fun _ _ _ => trivial
    obtain ⟨n, hn⟩ := (hsim.fails_iff hshown hstart fun n u s hr _ => hchecks n u s hr).mp
      ⟨k, finishes_error.mp h⟩
    exact ⟨n, finishes_error.mpr hn⟩

/-- A literal that ends gives a value. -/
theorem literal_returns {l : Literal} {fuel : Nat} {S : Scope} {A : Variables}
    {t : List (Label Event (Request × World) (Value × World))} {b : Option Value × World}
    (h : (l.exec fuel S A w).Path env t (.ok b)) : b.1.isSome = true := by
  obtain ⟨c, u, hc⟩ := Behavior.path_bind h
  cases c with
  | normal =>
    cases hc
    rfl
  | returned =>
    cases hc
    rfl

/-- What is kept of all that is reported. -/
theorem kept_finishes {s q : Activation × World}
    (h : Kept Activation.move Activation.move outward withoutLocals env raised s q)
    {o : Except Stop (Option Value × World)} (ho : Reported o)
    {t : List (Label Event (Request × World) (Value × World))}
    (hs : ∃ n, (Activation.move.observe outward withoutLocals).Finishes env n s t o) :
    ∃ n, (Activation.move.observe outward withoutLocals).Finishes env n q t o := by
  obtain ⟨n, hn⟩ := hs
  cases o with
  | ok b =>
    obtain ⟨m, hm⟩ := h.ends t b ⟨n, finishes_ok.mp hn⟩
    exact ⟨m, finishes_ok.mpr hm⟩
  | error e =>
    obtain ⟨m, hm⟩ := h.fails t e ho ⟨n, finishes_error.mp hn⟩
    exact ⟨m, finishes_error.mpr hm⟩

/-- A run of the bytecode, and what is seen of it in the optimised code. -/
theorem optimized_follows {prog : Program} {f : Function}
    (hf : SubFunction (Beaverc.compile prog) f) (hint : IntConstants f) {shared : Operands}
    (hs : Shared shared) {n : Nat} (hn : n < allPasses.length) {oc : OptimizingCompiler}
    (h : Stands shared f n oc) (hfn : fr.function = f) (hip : fr.ip = 0) (hst : fr.stack = [])
    (hchecks : Always Frame.move (fun r a => env (withoutLocals r) a) SameChecks (fr, w))
    (hrelied : Relied shared f (fun r a => env (withoutLocals r) a) fr w retVal)
    (hproducts : Always Activation.move (fun r a => env (withoutLocals r) a) ProductsFit
      (oc.start fr retVal, w))
    {t : List (Label Event (Request × World) (Value × World))}
    {o : Except Stop (Option Value × World)} (ho : Reported o)
    (hrun : ∃ k, Frame.move.Finishes (fun r a => env (withoutLocals r) a) k (fr, w) t o) :
    ∃ k, (Activation.emitted.observe outward withoutLocals).Finishes env k (oc.start fr retVal, w)
      (t.filterMap (Label.observe outward withoutLocals)) o := by
  obtain ⟨c, hc, -⟩ := id h
  obtain ⟨k, hk⟩ := hrun
  have htranslated : ∃ n, Activation.move.Finishes (fun r a => env (withoutLocals r) a) n
      ((⟨c, []⟩ : OptimizingCompiler).start fr retVal, w) t o :=
    translated_kept hf hc hfn hip hst hchecks ho hk
  have hkept : ∃ k, (Activation.move.observe outward withoutLocals).Finishes env k
      (oc.start fr retVal, w) (t.filterMap (Label.observe outward withoutLocals)) o :=
    kept_finishes (stands_kept hf hint hs (stands_zero hc) hn h hrelied) ho
      (finishes_observed.mpr ⟨t, htranslated, rfl⟩)
  obtain ⟨t₁, ⟨n₁, hn₁⟩, ht₁⟩ := finishes_observed.mp hkept
  exact finishes_observed.mpr
    ⟨t₁, ⟨n₁, finishes_agrees (hproducts.mono fun _ => emitted_move) hn₁⟩, ht₁⟩

end FromSourceLemmas

open FromSourceLemmas

/-- The code of a function literal in front of each pass does what the literal means, with
a place for each temp and the products that machine code computes: for each path
through the meaning of the literal there is a run of the code that shows the same of what both
show, with the same calls and collections, and ends with the same result or exception. -/
theorem optimized_literal_correct (prog : Program) {l : Literal} {S : Scope} {f : Function}
    (hf : SubFunction (Beaverc.compile prog) f) (hl : l.Compiles S f) (hint : IntConstants f)
    {shared : Operands} (hs : Shared shared) {m : Nat} (hm : m < allPasses.length)
    {oc : OptimizingCompiler} (h : Stands shared f m oc) {fr : Frame}
    (hfr : fr.Starts f) (w : World) (env : Request × World → Value × World → Prop)
    (retVal : Value)
    (hchecks : Always Frame.move (fun r a => env (withoutLocals r) a) SameChecks (fr, w))
    (hrelied : Relied shared f (fun r a => env (withoutLocals r) a) fr w retVal)
    (hproducts : Always Activation.move (fun r a => env (withoutLocals r) a) ProductsFit
      (oc.start fr retVal, w)) {fuel : Nat}
    {t : List (Label Event (Request × World) (Value × World))}
    {o : Except Stop (Option Value × World)}
    (hp : (l.exec fuel S fr.variables w).Path (fun r a => env (withoutLocals r) a) t o)
    (ho : ∀ e, o = .error e → raised e) :
    ∃ n, (Activation.emitted.observe seen withoutLocals).Finishes env n (oc.start fr retVal, w)
      (t.filterMap (Label.observe seen withoutLocals)) o := by
  have hreported : Reported o := by
    cases o with
    | ok b => exact literal_returns hp
    | error e => exact ho e rfl
  obtain ⟨up, parent, k, rfl, rfl⟩ := hl
  have hexhibits := fun n => literal_exhibits (compile_wellEmitted prog hf) n fr.variables w
  rw [frame_variables hfr (emitted_named up parent k l)] at hexhibits
  obtain ⟨t₀, hrun, ht₀⟩ := finishes_observed.mp ((finishes_iff hexhibits).mpr ⟨fuel, hp⟩)
  have hseen := optimized_follows hf hint hs hm h hfr.function hfr.ip hfr.stack hchecks hrelied
    hproducts hreported hrun
  obtain ⟨t₁, hrun₁, ht₁⟩ := finishes_observed.mp hseen
  refine finishes_observed.mpr ⟨t₁, hrun₁, ?_⟩
  rw [← observe_seen, ht₁, observe_seen, ← observe_acts, ht₀]

/-- `fun() { return 1 + 2; }` -/
def sum : Literal :=
  ⟨[], .cons (.ret (.binaryOp .plus (.intConst 1) (.intConst 2))) .nil⟩

namespace FromSourceLemmas

theorem always_function (env : Request × World → Value × World → Prop) (s : Frame × World) :
    Always Frame.move env (fun s' => s'.1.function = s.1.function) s := by
  intro n t s' hr
  let inv (s' : Frame × World) : Prop := s'.1.function = s.1.function
  suffices hinv : inv s' from hinv
  refine hr.invariant (fun s₁ es s₂ h _ hm => ?_) (fun s₁ r next a h _ hm _ => ?_) rfl
  · obtain ⟨i, ev, -, hx, -⟩ := frame_step hm
    exact (StackDisciplineLemmas.exec_next hx).1.trans h
  · obtain ⟨i, -, ⟨function, arguments, g, hx, rfl, rfl⟩ | ⟨g, hx, rfl, rfl⟩⟩ := frame_ask hm
    · exact (StackDisciplineLemmas.exec_call hx).1.trans h
    · obtain ⟨-, rfl⟩ := StackDisciplineLemmas.exec_collect hx
      exact h

theorem returnsSum_checks {s : Frame × World} (h : s.1.function = returnsSumFunction) :
    SameChecks s := by
  have hcode : returnsSumFunction.instructions =
    [.loadConst 0, .loadConst 1, .add, .ret, .loadConst 2, .ret] := rfl
  have hplain : ∀ i ∈ s.1.function.instructions, (∃ k, i = .loadConst k) ∨ i = .add ∨ i = .ret := by
    rw [h, hcode]
    simp
  unfold SameChecks
  cases hi : s.1.function.instructions[s.1.ip]? with
  | none => trivial
  | some i =>
    rcases hplain i (List.mem_of_getElem? hi) with ⟨k, rfl⟩ | rfl | rfl
    · trivial
    · trivial
    · trivial

theorem returnsSum_products {oc : OptimizingCompiler} {fr : Frame} {w : World} {retVal : Value}
    {env : Request × World → Value × World → Prop}
    (hcode : oc.compiler.instructions = [.assign 2 (.const (.integer 3)), .ret 2,
      .assign 3 (.const .none), .ret 3]) :
    Always Activation.move env ProductsFit (oc.start fr retVal, w) := by
  refine (always_code _).mono fun s hs i hi => ?_
  have hmem := List.mem_of_getElem? hi
  rw [hs.trans hcode] at hmem
  simp only [List.mem_cons, List.not_mem_nil, or_false] at hmem
  rcases hmem with rfl | rfl | rfl | rfl
  all_goals exact trivial

end FromSourceLemmas

theorem optimized_literal_correct_sum : ∃ oc,
    Stands .fresh returnsSumFunction (allPasses.length - 1) oc ∧
    ∀ w : World, ∃ n, (Activation.emitted.observe seen withoutLocals).Finishes (fun _ _ => False) n
      (oc.start ⟨0, returnsSumFunction, [], [], [], 0⟩ .none, w) []
      (.ok (some (.integer 3), w)) := by
  obtain ⟨oc, hoc, hcode⟩ := returnsSum_stands returnsSum_code.2
  have hstages : stagesPlain .fresh returnsSumFunction = true := by decide +kernel
  refine ⟨oc, hoc, fun w => ?_⟩
  have hstarts : Frame.Starts ⟨0, returnsSumFunction, [], [], [], 0⟩ returnsSumFunction :=
    ⟨rfl, rfl, rfl, rfl, rfl⟩
  have hcompiles : sum.Compiles ((enterFunction initialState.node [] [] sum.body).scope false)
      returnsSumFunction := ⟨[], initialState.node, 0, rfl, rfl⟩
  have hpath : (sum.exec 0 ((enterFunction initialState.node [] [] sum.body).scope false)
      (Frame.variables ⟨0, returnsSumFunction, [], [], [], 0⟩) w).Path (fun _ _ => False)
      [.event (.act (.add (.integer 1) (.integer 2)))] (.ok (some (.integer 3), w)) :=
    .act (.done _)
  exact optimized_literal_correct returnsSum returnsSum_sub hcompiles returnsSum_constants .fresh
    (by decide) hoc hstarts w (fun _ _ => False) .none
    ((always_function _ _).mono fun s hs => returnsSum_checks hs)
    (relied_of_plain hstages _ _ w .none) (returnsSum_products hcode) hpath nofun

end Beaverc.Ir

import Beaverc.Base.BigStep
import Beaverc.FromSource
import Beaverc.WholePrograms

/-!
# Programs that run compiled code

`ClosureFunctionValue::call` runs a function's compiled code where it has been compiled,
and `run_function` where it has not. Whichever functions are compiled, and with
however many of the passes, the machine that runs them ends as the one that interprets
them all, where every call that runs compiled code stays within what the code takes
for granted.
-/

namespace Beaverc.Ir
open Process Results OptimizerErrorsLemmas OptimizedRunsLemmas FromSourceLemmas
  WholeProgramLemmas CompilerCorrectnessLemmas

/-- The code that a function of a program has been compiled to: after `stage` of the
passes, with the operand objects that the compilations before have left, and no
registers yet. -/
structure Tier (prog : Program) (f : Function) where
  shared : Operands
  stage : Nat
  code : OptimizingCompiler
  isShared : Shared shared
  sub : SubFunction (Beaverc.compile prog) f
  constants : IntConstants f
  early : stage < allPasses.length
  stands : Stands shared f stage code

/-- Which functions are compiled. -/
abbrev Tiers (prog : Program) :=
  (f : Function) → Option (Tier prog f)

/-- A function that is interpreted, or runs compiled code: what machine code makes of it
with a place for each temp. -/
def tiered : Process ((Frame × World) ⊕ (Activation × World)) Stop Event (Request × World)
    (Value × World) (Option Value × World) :=
  Frame.move.sum Activation.emitted

namespace Tiers

variable {prog : Program}

/-- `is_compiled` decides how a call goes on. -/
def start (T : Tiers prog) (retVal : Value) (s : Frame × World) :
    (Frame × World) ⊕ (Activation × World) :=
  match T s.1.function with
  | some tier => .inr (tier.code.start s.1 retVal, s.2)
  | none => .inl s

/-- How a call is met, where nothing is collected. -/
def linkage (T : Tiers prog) (retVal : Value) : Linkage ((Frame × World) ⊕ (Activation × World))
    Stop (Request × World) (Value × World) (Option Value × World) where
  enter r := (Beaverc.linkage.enter r).map (Sum.map (T.start retVal) id)
  answer := Beaverc.linkage.answer

end Tiers

/-- What compiled code takes for granted of the call that starts at `s`. -/
structure Tier.Sound {prog : Program} {f : Function} (tier : Tier prog f)
    (env : Request × World → Value × World → Prop) (s : Frame × World) (retVal : Value) :
    Prop where
  checks : Always Frame.observed env SameChecks s
  returns : ∀ t b, Ends Frame.observed env (fun _ => True) s t b → b.1.isSome = true
  relied : Relied tier.shared f env s.1 s.2 retVal
  products : Always Activation.move env ProductsFit (tier.code.start s.1 retVal, s.2)

namespace TiersLemmas

variable {prog : Program} {env env' : Request × World → Value × World → Prop}

theorem enter_withoutLocals (r : Request × World) :
    Beaverc.linkage.enter (withoutLocals r) = Beaverc.linkage.enter r := by
  obtain ⟨r, w⟩ := r
  cases r with
  | call => rfl
  | collect => rfl

theorem relies_answered {oc : OptimizingCompiler} {s : Activation × World} {p : Pass}
    (h : oc.Relies env' s p) (henv : ∀ r a, env r a → env' r a) : oc.Relies env s p := by
  cases p with
  | typeSpecialization => exact Always.answered h henv
  | removeObsolete => exact Always.answered h henv
  | _ => exact h

theorem always_observed {ok : Frame × World → Prop} {s : Frame × World}
    (h : Always Frame.observed env ok s) : Always Frame.move env ok s :=
  fun n t s' hr => h n _ s' (observed_run.mpr ⟨t, hr, rfl⟩)

/-- A call that starts is at the start of its function. -/
theorem entered_starts {L : Frame × World} {s : Frame × World} (hL : L.1.Starts L.1.function)
    (h : Beaverc.linkage.Entered Frame.observed L s) : s.1.Starts s.1.function := by
  cases h with
  | start => exact hL
  | @call _ _ _ _ _ r _ _ _ _ henter =>
    have hcode : r.2.heap.CodeIn fun _ => True :=
      fun _ _ _ _ _ => trivial
    rcases linkage_enter hcode henter with ⟨s₂, f, he, -, hstarts, -⟩ | ⟨a, he, -⟩
    · cases he
      exact hstarts.function ▸ hstarts
    · cases he

/-- A program starts at the start of its main function. -/
theorem start_starts {options : HeapOptions} {input : List String} {fr : Frame} {w : World}
    (hm : Machine.start options input (Beaverc.compile prog) = .ok ⟨[fr], w⟩) :
    fr.Starts fr.function := by
  obtain ⟨fr', he, hstarts, -⟩ := start_eq hm
  cases he
  exact hstarts.function ▸ hstarts

/-- The call runs compiled code and ends as it would interpreted. -/
theorem compiled_ends {s : Frame × World} (hs : s.1.Starts s.1.function)
    (tier : Tier prog s.1.function) {retVal : Value} (h : tier.Sound env s retVal)
    (henv : ∀ r a, env (withoutLocals r) a ↔ env r a)
    {t : List (Label Event (Request × World) (Value × World))} {b : Option Value × World}
    (he : Ends Frame.observed env (fun _ => True) s t b) :
    ∃ u, Ends Activation.emitted env (fun _ => True) (tier.code.start s.1 retVal, s.2) u b := by
  have hviewed : (fun r a => env (withoutLocals r) a) = env :=
    funext fun r => funext fun a => propext (henv r a)
  obtain ⟨t₀, ⟨n, hn⟩, -⟩ := observed_ends.mp he
  have hseen : ∃ k, (Activation.emitted.observe outward withoutLocals).Finishes env k
      (tier.code.start s.1 retVal, s.2) (t₀.filterMap (Label.observe outward withoutLocals))
      (.ok b) := by
    refine optimized_follows tier.sub tier.constants tier.isShared tier.early tier.stands rfl hs.ip
      hs.stack ?_ ?_ ?_ (h.returns t b he) ⟨n, ?_⟩
    · rw [hviewed]
      exact always_observed h.checks
    · rw [hviewed]
      exact h.relied
    · rw [hviewed]
      exact h.products
    · rw [hviewed]
      exact finishes_ok.mpr hn
  obtain ⟨u, ⟨m, hm⟩, -⟩ := finishes_observed.mp hseen
  rw [hviewed] at hm
  exact ⟨u, m, finishes_ok.mp hm⟩

/-- Whatever is compiled takes the place of what is interpreted. -/
theorem tiers_replace (T : Tiers prog) (retVal : Value) {s₀ : Frame × World}
    (hs₀ : s₀.1.Starts s₀.1.function)
    (hsound : ∀ s, Beaverc.linkage.Entered Frame.observed s₀ s → ∀ tier,
      T s.1.function = some tier →
      tier.Sound (Beaverc.linkage.Answered Frame.observed) s retVal) :
    Replaces Beaverc.linkage Frame.observed (T.linkage retVal) tiered withoutLocals
      (T.start retVal) s₀ where
  viewed := enter_withoutLocals
  enter _ := rfl
  answer _ := rfl
  same s hs env hanswered hview t b he := by
    have hstarts := entered_starts hs₀ hs
    unfold Tiers.start
    split
    · next tier htier =>
      have h := hsound s hs tier htier
      have hsound' : tier.Sound env s retVal :=
        ⟨h.checks.answered hanswered,
          fun t b he => h.returns t b (he.answered fun _ _ => hanswered _ _),
          fun m p oc hp hst => relies_answered (h.relied m p oc hp hst) hanswered,
          h.products.answered hanswered⟩
      obtain ⟨u, hu⟩ := compiled_ends hstarts tier hsound' hview he
      exact ⟨u, hu.sum_inr⟩
    · obtain ⟨t₀, ht₀, -⟩ := observed_ends.mp he
      exact ⟨t₀, Ends.sum_inl ht₀⟩

end TiersLemmas

/-- `f = fun() { return 1 + 2; }; print(f());` -/
def printsSum : Program :=
  .cons (.assignment (.name "f") (.function [] sum.body))
    (.cons (.callStatement (.name "print") (.cons (.call (.name "f") .nil) .nil)) .nil)

namespace TiersLemmas

variable {prog : Program} {env : Request × World → Value × World → Prop}

/-- The function of a literal ends with a value. -/
theorem literal_ends {l : Literal} {S : Scope} {f : Function}
    (hf : SubFunction (Beaverc.compile prog) f) (hl : l.Compiles S f) {s : Frame × World}
    (hs : s.1.Starts f) {t : List (Label Event (Request × World) (Value × World))}
    {b : Option Value × World} (he : Ends Frame.observed env (fun _ => True) s t b) :
    b.1.isSome = true := by
  obtain ⟨up, parent, k, rfl, rfl⟩ := hl
  have hexhibits := fun n => literal_exhibits (compile_wellEmitted prog hf) n s.1.variables s.2
  rw [frame_variables hs (emitted_named up parent k l)] at hexhibits
  obtain ⟨n, hn⟩ := he
  obtain ⟨fuel, hpath⟩ := (finishes_iff hexhibits).mp ⟨n, finishes_ok.mpr hn⟩
  exact literal_returns hpath

theorem printsSum_sub : SubFunction (Beaverc.compile printsSum) returnsSumFunction := by
  have hfs : (Beaverc.compile printsSum).functions = [returnsSumFunction] := rfl
  exact .step (.refl _) (hfs ▸ List.mem_singleton_self _)

theorem sum_compiles : sum.Compiles ((enterFunction initialState.node [] [] sum.body).scope false)
    returnsSumFunction :=
  ⟨[], initialState.node, 0, rfl, rfl⟩

theorem sum_sound {f : Function} (hf : f = returnsSumFunction) {tier : Tier printsSum f}
    (ht : tier.shared = .fresh) (hcode : tier.code.compiler.instructions =
      [.assign 2 (.const (.integer 3)), .ret 2, .assign 3 (.const .none), .ret 3])
    {s : Frame × World} (hs : s.1.Starts f) (retVal : Value) : tier.Sound env s retVal := by
  subst hf
  have hstages : stagesPlain .fresh returnsSumFunction = true := by decide +kernel
  refine ⟨fun n t s' hr => ?_, fun t b he => literal_ends printsSum_sub sum_compiles hs he, ?_,
    returnsSum_products hcode⟩
  · obtain ⟨t₀, hr₀, -⟩ := observed_run.mp hr
    exact returnsSum_checks ((always_function env s n t₀ s' hr₀).trans hs.function)
  · rw [ht]
    exact relied_of_plain hstages env s.1 s.2 retVal

end TiersLemmas

open TiersLemmas

/-- If the machine that interprets every function ends with a value, so does the machine that
runs the compiled code of some, with the same value and world. -/
theorem tiered_run {prog : Program} (T : Tiers prog) (retVal : Value) {options : HeapOptions}
    {input : List String} {fr : Frame} {w : World}
    (hm : Machine.start options input (Beaverc.compile prog) = .ok ⟨[fr], w⟩)
    (hsound : ∀ s, Beaverc.linkage.Entered Frame.observed (fr, w) s → ∀ tier,
      T s.1.function = some tier →
      tier.Sound (Beaverc.linkage.Answered Frame.observed) s retVal)
    {v : Value} {w' : World}
    (hrun : ∃ n, Machine.run (List.replicate n false) ⟨[fr], w⟩ = .ok (.finished v w')) :
    ∃ t b, Ends (tiered.stacked (T.linkage retVal) : Process _ Stop Event Empty Empty _)
      (fun _ _ => False) (fun _ => True) (T.start retVal (fr, w), []) t b ∧
      Beaverc.linkage.answer b = (v, w') := by
  obtain ⟨n, hn⟩ := hrun
  obtain ⟨k, t, o, hfinishes, ho⟩ := finishes_of_run (o := .ok (v, w')) (fun _ _ => False) hn
  cases o with
  | error e => cases ho
  | ok b =>
    have hsame := tiers_replace T retVal (start_starts hm) hsound
    obtain ⟨u, hu⟩ := hsame.stacked ⟨k, finishes_ok.mp hfinishes⟩
    exact ⟨u, b, hu, Except.ok.inj ho⟩

/-- The call of `f` runs the compiled code, and `3` is printed. -/
theorem tiered_run_printsSum : ∃ T : Tiers printsSum, (T returnsSumFunction).isSome = true ∧
    ∃ fr w, Machine.start (.x64 false false) [] (Beaverc.compile printsSum) = .ok ⟨[fr], w⟩ ∧
    ∃ t b, Ends (tiered.stacked (T.linkage .none) : Process _ Stop Event Empty Empty _)
      (fun _ _ => False) (fun _ => True) (T.start .none (fr, w), []) t b ∧
      (Beaverc.linkage.answer b).1 = .makeInteger 0 ∧
      (Beaverc.linkage.answer b).2.output = ["3"] := by
  obtain ⟨oc, hoc, hcode⟩ := returnsSum_stands returnsSum_code.2
  let tier : Tier printsSum returnsSumFunction := ⟨.fresh, _, oc, .fresh, printsSum_sub,
    returnsSum_constants, by decide, hoc⟩
  let T : Tiers printsSum := fun f =>
    haveI := Classical.propDecidable (f = returnsSumFunction)
    if h : f = returnsSumFunction then some (h ▸ tier) else none
  have hT : ∀ f (tier : Tier printsSum f), T f = some tier →
      f = returnsSumFunction ∧ tier.shared = .fresh ∧ tier.code.compiler.instructions =
        [.assign 2 (.const (.integer 3)), .ret 2, .assign 3 (.const .none), .ret 3] := by
    intro f tier' h
    simp only [T] at h
    split at h
    · next hf =>
      subst hf
      cases h
      exact ⟨rfl, rfl, hcode⟩
    · cases h
  refine ⟨T, ?_, _, _, rfl, ?_⟩
  · simp only [T, dif_pos]
    rfl
  · have hstarts := @start_starts printsSum (.x64 false false) [] _ _ rfl
    obtain ⟨t, b, he, hb⟩ := @tiered_run printsSum T .none (.x64 false false) [] _ _ rfl
      (fun s hs tier ht => by
        obtain ⟨hf, hshared, hcode⟩ := hT _ tier ht
        exact sum_sound hf hshared hcode (entered_starts hstarts hs) .none)
      (.makeInteger 0) _ ⟨22, rfl⟩
    refine ⟨t, b, he, ?_, ?_⟩
    · rw [hb]
    · rw [hb]
      rfl

end Beaverc.Ir

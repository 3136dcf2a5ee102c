import Beaverc.Relocation
import Beaverc.RemovedTemps
import Beaverc.ShortJumps
import Beaverc.TypeSoundness

/-!
# Runs of optimised code

What `OptimizingCompiler` makes of a function does what the code does that it starts
from, pass by pass (`run_kept`), and so after any number of passes before the last, which
gives the operands registers: it makes the same calls and collections, has the same
effects, ends with the same result and raises the same exception. Each temp is a place of
its own. The passes rely on more than they check; `Relies` says what.
-/

namespace Beaverc.Ir
open Process Results DefinedTempsLemmas ConstantHintsLemmas OptimizerErrorsLemmas LoopsLemmas
  LiveRangesLemmas ChangesLemmas DeadVariablesLemmas TranslationLemmas ConstantFoldingLemmas
  RetypingLemmas
  TypeHintsLemmas TypeSoundnessLemmas TypedTempsLemmas RelocationLemmas FoldedRunsLemmas
  ObsoleteTempsLemmas RemovedTempsLemmas ShortJumpsLemmas

/-- The code in the place of a frame that is about to start. -/
def OptimizingCompiler.start (oc : OptimizingCompiler) (fr : Frame) (retVal : Value) : Activation :=
  Activation.of fr oc.compiler (fun _ => none) retVal

/-- What a pass takes for granted of the code it is run on and of the runs of it from `s`. -/
def OptimizingCompiler.Relies (oc : OptimizingCompiler)
    (env : Request × World → Value × World → Prop) (s : Activation × World) : Pass → Prop
  | .constantFolding => oc.FoldsFit
  | .typeSpecialization => Always Activation.move env (CopyFits oc.compiler.operands) s
  | .removeObsolete => Always Activation.move env
      (fun s => CopyFits oc.compiler.operands s ∧ GlobalsFound oc.obsolete s) s
  | .deadVariableAssignment => CarriedKept oc.compiler
  | _ => True

/-- What the passes take for granted, each of the code it is run on. -/
def Relied (shared : Operands) (f : Function) (env : Request × World → Value × World → Prop)
    (fr : Frame) (w : World) (retVal : Value) : Prop :=
  ∀ m p oc, allPasses[m]? = some p → Stands shared f m oc →
    oc.Relies env (oc.start fr retVal, w) p

/-- Where a compilation stands: what the passes need of the ones before. -/
structure OptimizingCompiler.Ready (oc : OptimizingCompiler) (stored : Nat → Prop) : Prop where
  threaded : oc.Threaded
  hinted : oc.Hinted
  told : oc.Told Reaching stored
  accounted : oc.Accounted

namespace OptimizedRunsLemmas

variable {oc oc' : OptimizingCompiler} {stored : Nat → Prop}
  {env : Request × World → Value × World → Prop} {fr : Frame} {w : World} {retVal : Value}

/-! ### Each pass -/

theorem effects_of_outward (e : Event) (h : outward e = true) : effects e = true := by
  cases e with
  | act a => cases a <;> first | rfl | cases h
  | _ => rfl

theorem visible_of_outward (e : Event) (h : outward e = true) : visible e = true := by
  cases e with
  | storeLocal => cases h
  | _ => rfl

theorem start_same (h : oc'.compiler.instructions = oc.compiler.instructions) :
    oc'.start fr retVal = oc.start fr retVal := by
  unfold OptimizingCompiler.start Activation.of
  rw [h]

theorem kept_same (h : oc'.compiler.instructions = oc.compiler.instructions) :
    Kept Activation.move Activation.move outward withoutLocals env raised
      (oc.start fr retVal, w) (oc'.start fr retVal, w) := by
  rw [start_same h]
  exact .refl _

theorem kept_loadParams (hr : oc.run .loadParams = .ok oc') :
    Kept Activation.move Activation.move outward withoutLocals env raised
      (oc.start fr retVal, w) (oc'.start fr retVal, w) := by
  cases hr
  generalize hparams : (List.range oc.compiler.bytecode.parameterCount).filter
    (· ∈ oc.compiler.vars) = params
  have hsilent := silent_forceLoads params [] oc.compiler.instructions (oc.start fr retVal) w
  have hfront : ∀ l, .outputLabel l ∉ params.map Instruction.forceLoad := by
    intro l hl
    obtain ⟨n, -, hn⟩ := List.mem_map.mp hl
    cases hn
  rw [List.nil_append, List.length_nil, Nat.zero_add] at hsilent
  have hdisplaced : Displaced oc.compiler.instructions
      (params.map .forceLoad ++ oc.compiler.instructions)
      (fun p => (params.map Instruction.forceLoad).length + p) (oc.start fr retVal, w)
      ((oc.start fr retVal).relocate (params.map .forceLoad ++ oc.compiler.instructions)
        params.length, w) := by
    refine ⟨rfl, rfl, ?_⟩
    rw [List.length_map]
    rfl
  have hstart : ({ oc with compiler := oc.compiler.loadParams } : OptimizingCompiler).start fr
      retVal = (oc.start fr retVal).relocate
        (params.map .forceLoad ++ oc.compiler.instructions) 0 := by
    rw [← hparams]
    rfl
  rw [hstart]
  exact .of_silent hsilent (relocated_kept (relocated_front hfront oc.compiler.instructions)
    hdisplaced outward withoutLocals env raised)

theorem kept_removeNoop (hr : oc.run .removeNoop = .ok oc') :
    Kept Activation.move Activation.move outward withoutLocals env raised
      (oc.start fr retVal, w) (oc'.start fr retVal, w) := by
  cases hr
  have hdisplaced : Displaced oc.compiler.instructions
      (oc.compiler.instructions.filter (· ≠ .noop))
      (fun p => ((oc.compiler.instructions.take p).filter (· ≠ .noop)).length)
      (oc.start fr retVal, w)
      (({ oc with compiler := oc.compiler.removeNoop } : OptimizingCompiler).start fr retVal, w) :=
    ⟨rfl, rfl, rfl⟩
  exact relocated_kept (relocated_noops oc.compiler.instructions) hdisplaced outward
    withoutLocals env raised

theorem actsAs_shortJump (c : Compiler) (p : Nat) (i : Instruction) :
    shortJump c p i = i ∨ ActsAs (fun _ => True) i (shortJump c p i) := by
  unfold shortJump
  split
  · split
    · refine .inr ⟨fun l => ⟨nofun, nofun⟩, fun {f w m} _ hm => ?_, fun {f w e} _ he => ?_⟩
      · cases hm
        exact ⟨[], [], _, rfl, rfl, rfl⟩
      · cases he
    · exact .inl rfl
  · exact .inl rfl

theorem kept_shortJump (hr : oc.run .shortJump = .ok oc') :
    Kept Activation.move Activation.move outward withoutLocals env raised
      (oc.start fr retVal, w) (oc'.start fr retVal, w) := by
  have hpoint := shortJump_pointwise hr
  have hlock := @retyped_lockstep oc.compiler.instructions oc'.compiler.instructions
    (fun _ => True) (fun _ => True) ⟨hpoint.length, fun {p i} hi => by
      obtain ⟨i', hi', rfl⟩ := hpoint.related hi
      exact ⟨_, hi', actsAs_shortJump oc.compiler p i⟩⟩ fun _ _ _ _ _ => trivial
  exact .of_finer effects_of_outward (fun _ => rfl) (fun _ _ _ _ => trivial)
    (hlock.mimics ⟨rfl, rfl, rfl, trivial⟩)

theorem kept_constantFolding (h : oc.Ready stored) (hfit : oc.FoldsFit)
    (hd : (dests oc'.compiler.instructions).Nodup) (hr : oc.run .constantFolding = .ok oc') :
    Kept Activation.move Activation.move outward withoutLocals env raised
      (oc.start fr retVal, w) (oc'.start fr retVal, w) := by
  have hlock := folded_lockstep h.hinted h.threaded.writes hd h.threaded.inScope h.told hfit hr
  exact .of_finer effects_of_outward (fun _ => rfl) (fun _ _ _ _ => trivial)
    (hlock.mimics ⟨rfl, rfl, rfl, nofun⟩)

theorem kept_typeSpecialization (h : oc.Ready stored)
    (hcopy : Always Activation.move (fun r a => env (withoutLocals r) a)
      (CopyFits oc.compiler.operands) (oc.start fr retVal, w))
    (hr : oc.run .typeSpecialization = .ok oc') :
    Kept Activation.move Activation.move outward withoutLocals env raised
      (oc.start fr retVal, w) (oc'.start fr retVal, w) :=
  .of_finer effects_of_outward (fun _ => rfl) hcopy
    (retypes_mimics (p := .typeSpecialization) h.hinted h.threaded.writes ⟨oc', hr, rfl⟩ _ fr w
      retVal)

theorem kept_removeObsolete (h : oc.Ready stored)
    (hok : Always Activation.move (fun r a => env (withoutLocals r) a)
      (fun s => CopyFits oc.compiler.operands s ∧ GlobalsFound oc.obsolete s)
      (oc.start fr retVal, w))
    (hr : oc.run .removeObsolete = .ok oc') :
    Kept Activation.move Activation.move outward withoutLocals env raised
      (oc.start fr retVal, w) (oc'.start fr retVal, w) := by
  have hlock := removed_lockstep h.threaded.writes h.hinted.hinted
    (removeObsolete_pointwise h.accounted h.threaded hr)
  exact .of_finer (fun _ => id) (fun _ => rfl) hok
    (hlock.mimics ⟨rfl, rfl, rfl, fun _ _ => rfl, nofun, nofun⟩)

theorem keptAlive_operands {c : Compiler} {o : Operands} {v e : Nat}
    (h : KeptAlive { c with operands := o } v e) : KeptAlive c v e := by
  cases h with
  | load hl => exact .load hl
  | jump hj hkind hlr hre hr => exact .jump hj hkind hlr hre hr

/-- Liveness leaves no store behind the end of its variable that something loads. -/
theorem dead_stores {oc₀ : OptimizingCompiler} (hlive : oc₀.run .varLiveness = .ok oc)
    (hback : CarriedKept oc.compiler) {s n src : Nat}
    (hs : oc.compiler.instructions[s]? = some (.store (.var n) src))
    (hle : (oc.compiler.operands.var n).liveEnd ≤ ((s : Int) : WithTop Int)) :
    ¬ LiveAt oc.compiler.instructions n (s + 1) := by
  intro hl
  obtain ⟨obsolete, hloop, -⟩ := optimize_ok hlive
  obtain ⟨hcode, -, hkept⟩ := varLiveness_liveEnd hloop
  obtain ⟨e, he, hk⟩ := keptUpTo_of_liveAt hback hs hl
  have hes := WithTop.coe_le_coe.mp ((hkept n e ?_).trans hle)
  · exact absurd (Int.ofNat_le.mp hes) (Nat.not_le_of_lt he)
  · obtain ⟨⟨code, o, marked⟩, hloop', h⟩ := bind_ok.mp hlive
    cases h
    obtain ⟨rfl, -, -⟩ := varLiveness_liveEnd hloop'
    exact keptAlive_operands hk

theorem kept_deadVariableAssignment {oc₀ : OptimizingCompiler}
    (hlive : oc₀.run .varLiveness = .ok oc) (hback : CarriedKept oc.compiler)
    (hr : oc.run .deadVariableAssignment = .ok oc') :
    Kept Activation.move Activation.move outward withoutLocals env raised
      (oc.start fr retVal, w) (oc'.start fr retVal, w) := by
  obtain ⟨obsolete, hl, -⟩ := optimize_ok hr
  have hlock := deadVariable_lockstep (deadVariable_pointwise hl).1
    fun s n src hs hle => dead_stores hlive hback hs hle
  have hbeside : Beside oc.compiler.instructions oc'.compiler.instructions
      (oc.start fr retVal, w) (oc'.start fr retVal, w) := ⟨rfl, rfl, rfl, rfl, rfl, fun _ _ => rfl⟩
  have hmimics : Mimics (Activation.move.observe visible withoutLocals)
      (Activation.move.observe visible withoutLocals) (fun r a => env (id r) a) (fun _ => True)
      raised (oc.start fr retVal, w) (oc'.start fr retVal, w) := hlock.mimics hbeside
  refine .of_finer visible_of_outward ?_ (fun _ _ _ _ => trivial) hmimics
  exact fun _ => rfl

/-- The step lemma of the passes. -/
theorem run_kept (h : oc.Ready stored) (hd : (dests oc'.compiler.instructions).Nodup) {p : Pass}
    (hp : p ≠ .registerAllocation)
    (hlive : p = .deadVariableAssignment → ∃ oc₀ : OptimizingCompiler,
      oc₀.run .varLiveness = .ok oc)
    (hrelies : oc.Relies (fun r a => env (withoutLocals r) a) (oc.start fr retVal, w) p)
    (hr : oc.run p = .ok oc') :
    Kept Activation.move Activation.move outward withoutLocals env raised
      (oc.start fr retVal, w) (oc'.start fr retVal, w) := by
  cases p with
  | propagateTypes => exact kept_same (run_same (.inl rfl) hr).1
  | varLiveness => exact kept_same (run_same (.inr (.inl rfl)) hr).1
  | tempLiveness => exact kept_same (run_same (.inr (.inr (.inl rfl))) hr).1
  | registerAllocation => exact absurd rfl hp
  | deadTemp => exact kept_same (deadTemp_marks hr).1
  | loadParams => exact kept_loadParams hr
  | removeNoop => exact kept_removeNoop hr
  | shortJump => exact kept_shortJump hr
  | constantFolding => exact kept_constantFolding h hrelies hd hr
  | typeSpecialization => exact kept_typeSpecialization h hrelies hr
  | removeObsolete => exact kept_removeObsolete h hrelies hr
  | deadVariableAssignment =>
    obtain ⟨oc₀, hr₀⟩ := hlive rfl
    exact kept_deadVariableAssignment hr₀ hrelies hr

/-! ### The stages -/

section Stages

variable {shared : Operands} {f : Function} {n : Nat}

/-- The pass in front of a pass. -/
theorem stands_after {p q : Pass} (hpq : ∀ k < allPasses.length, allPasses[k]? = some p →
    0 < k ∧ allPasses[k - 1]? = some q) (hp : allPasses[n]? = some p) (h : Stands shared f n oc) :
    ∃ oc₀ : OptimizingCompiler, oc₀.run q = .ok oc := by
  obtain ⟨hpos, hq⟩ := hpq n (List.getElem?_eq_some_iff.mp hp).1 hp
  cases n with
  | zero => exact absurd hpos (Nat.lt_irrefl 0)
  | succ n =>
    obtain ⟨oc₀, -, hr⟩ := stands_run hq h
    exact ⟨oc₀, hr⟩

theorem measured_of_stands (hp : allPasses[n]? = some .deadTemp) (h : Stands shared f n oc) :
    oc.Measured := by
  obtain ⟨oc₀, hr⟩ := stands_after (q := .tempLiveness) (by decide) hp h
  exact measured_tempLiveness hr

/-- The run lemma of what the passes need. -/
theorem ready_of_stands {prog : Program} (hf : SubFunction (Beaverc.compile prog) f)
    (hint : IntConstants f) (hs : Shared shared) {c : Compiler}
    (hc : Compiler.compile shared f = some c) (hn : n < allPasses.length)
    (h : Stands shared f n oc) : oc.Ready (Stored c) := by
  have hw := compile_wellEmitted prog hf
  have hready : ∀ {n oc}, n < allPasses.length → Stands shared f n oc → oc.Accounted →
      oc.Ready (Stored c) := fun hn h haccounted =>
    ⟨(stands_keeps hw (Nat.le_refl _) h h).1,
      stands_hinted hw hc (hinted_compile hf (shared_noConstants hs) hc) h,
      told_of_stands foldClosed_reaching (reaching_constants hint) (shared_noConstants hs) hw hc hn
        h, haccounted⟩
  refine hready hn h ?_
  induction n generalizing oc with
  | zero =>
    cases stands_unique h (stands_zero hc)
    exact accounted_compile hw (functions_taken prog hf) hc
  | succ n ih =>
    have hn' := Nat.lt_of_succ_lt hn
    have hp := List.getElem?_eq_getElem hn'
    obtain ⟨oc₀, h₀, hr⟩ := stands_run hp h
    have hready₀ := hready hn' h₀ (ih hn' h₀)
    exact run_accounted foldClosed_reaching hready₀.accounted hready₀.threaded hready₀.hinted
      hready₀.told (fun he => measured_of_stands (he ▸ hp) h₀) hr

theorem stands_of_plain (h : OptimizingCompiler.compile shared f false = some (.ok oc)) :
    Stands shared f 0 oc := by
  unfold OptimizingCompiler.compile at h
  obtain ⟨c, hc, h⟩ := Option.map_eq_some_iff.mp h
  exact ⟨c, hc, h⟩

/-- Register allocation is the last pass. -/
theorem registers_last : ∀ k < allPasses.length - 1, ∀ p, allPasses[k]? = some p →
    p ≠ .registerAllocation := by
  decide

/-- The run lemma of the passes. -/
theorem stands_kept {prog : Program} (hf : SubFunction (Beaverc.compile prog) f)
    (hint : IntConstants f) (hs : Shared shared) (h : Stands shared f 0 oc)
    (hn : n < allPasses.length) (h' : Stands shared f n oc')
    (hrelied : Relied shared f (fun r a => env (withoutLocals r) a) fr w retVal) :
    Kept Activation.move Activation.move outward withoutLocals env raised
      (oc.start fr retVal, w) (oc'.start fr retVal, w) := by
  induction n generalizing oc' with
  | zero =>
    cases stands_unique h h'
    exact .refl _
  | succ n ih =>
    have hn' := Nat.lt_of_succ_lt hn
    have hp := List.getElem?_eq_getElem hn'
    obtain ⟨oc₁, h₁, hr⟩ := stands_run hp h'
    obtain ⟨c, hc, -⟩ := id h
    have hready := ready_of_stands hf hint hs hc hn' h₁
    have hthreaded := (stands_keeps (compile_wellEmitted prog hf) (Nat.le_refl _) h' h').1
    refine (ih hn' h₁).trans (run_kept hready hthreaded.writes ?_ (fun he => ?_)
      (hrelied n _ oc₁ hp h₁) hr)
    · exact registers_last n (Nat.lt_pred_of_succ_lt hn) _ hp
    · exact stands_after (by decide) (he ▸ hp) h₁

end Stages

end OptimizedRunsLemmas

open OptimizedRunsLemmas

/-- A function of a compiled program does in front of each pass what it does without the
optimiser, as long as its temps have no registers: whatever comes back from its calls and
collections, it makes the same of them, has the same effects, ends with the same result
and raises the same exception. -/
theorem optimized_runs (prog : Program) {f : Function} (hf : SubFunction (Beaverc.compile prog) f)
    (hint : IntConstants f) {shared : Operands} (hs : Shared shared)
    {oc oc' : OptimizingCompiler}
    (h : OptimizingCompiler.compile shared f false = some (.ok oc)) {n : Nat}
    (hn : n < allPasses.length) (h' : Stands shared f n oc')
    (env : Request × World → Value × World → Prop) (fr : Frame) (w : World) (retVal : Value)
    (hrelied : Relied shared f (fun r a => env (withoutLocals r) a) fr w retVal) :
    Kept Activation.move Activation.move outward withoutLocals env raised
      (oc.start fr retVal, w) (oc'.start fr retVal, w) :=
  stands_kept hf hint hs (stands_of_plain h) hn h' hrelied

/-! ## A function that is folded -/

/-- `f = fun() { return 1 + 2; };` -/
def returnsSum : Program :=
  .cons (.assignment (.name "f") (.function []
    (.cons (.ret (.binaryOp .plus (.intConst 1) (.intConst 2))) .nil))) .nil

/-- The function in it. -/
def returnsSumFunction : Function :=
  (Beaverc.compile returnsSum).functions.headD {}

/-- No copy, no jump and no store. -/
def Instruction.isPlain : Instruction → Bool
  | .assign _ (.const _) | .binOp .. | .ret _ | .noop => true
  | _ => false

/-- Additions of integers only, in range. -/
def Instruction.addsInts (i : Instruction) (o : Operands) : Bool :=
  match i with
  | .binOp .add _ src1 src2 =>
    match (o.temp src1).srcVal, (o.temp src2).srcVal with
    | .value (.integer a), .value (.integer b) => decide (FitsInt (a + b))
    | _, _ => false
  | .binOp .. => false
  | _ => true

/-- What is folded is such, and no sum of strings. -/
def foldsInts : List Instruction → Operands → Bool
  | [], _ => true
  | i :: rest, o =>
    i.addsInts o && match constantFolding i o with
      | .ok v =>
        (match v.instruction with
          | .assign _ (.const (.stringConstant _)) => false
          | _ => true) && foldsInts rest v.operands
      | .error _ => true

/-- At each stage. -/
def stagesPlain (shared : Operands) (f : Function) : Bool :=
  match Compiler.compile shared f with
  | some c => (List.range allPasses.length).all fun m =>
    match (allPasses.take m).foldlM OptimizingCompiler.run ⟨c, []⟩ with
    | .ok oc => oc.compiler.instructions.all Instruction.isPlain &&
      foldsInts oc.compiler.instructions oc.compiler.operands
    | .error _ => true
  | none => true

namespace OptimizedRunsLemmas

variable {oc : OptimizingCompiler} {fr : Frame} {w : World} {retVal : Value}

theorem foldsInts_meets {n : Nat} {code : List Instruction} {o o' : Operands} {i : Instruction}
    (hm : Meets (fun _ i o => constantFolding i o) n code o i o') (h : foldsInts code o = true) :
    i.addsInts o' = true ∧ ∀ v, constantFolding i o' = .ok v →
      ∀ dest s, v.instruction ≠ .assign dest (.const (.stringConstant s)) := by
  induction hm with
  | here =>
    unfold foldsInts at h
    obtain ⟨hadds, hrest⟩ := Bool.and_eq_true_iff.mp h
    refine ⟨hadds, fun v hv dest s he => ?_⟩
    rw [hv] at hrest
    dsimp only at hrest
    rw [he] at hrest
    cases hrest
  | later hv _ ih =>
    unfold foldsInts at h
    rw [hv] at h
    exact ih (Bool.and_eq_true_iff.mp (Bool.and_eq_true_iff.mp h).2).2

theorem fits_addsInts {i : Instruction} {o : Operands} (h : i.addsInts o = true) : i.Fits o := by
  rintro op dest src1 src2 a b rfl ha hb
  cases op with
  | add =>
    unfold Instruction.addsInts at h
    dsimp only at h
    rw [ha, hb] at h
    exact (of_decide_eq_true h : FitsInt (a + b))
  | _ => cases h

theorem foldsFit_of_foldsInts (h : foldsInts oc.compiler.instructions oc.compiler.operands = true) :
    oc.FoldsFit := by
  intro i o v hm hv _
  obtain ⟨hadds, hstring⟩ := foldsInts_meets hm h
  exact ⟨fits_addsInts hadds, hstring v hv⟩

theorem always_code {env : Request × World → Value × World → Prop} (s : Activation × World) :
    Always Activation.move env (fun s' => s'.1.code = s.1.code) s := by
  intro n t s' hr
  let inv (s' : Activation × World) : Prop := s'.1.code = s.1.code
  suffices hinv : inv s' from hinv
  refine hr.invariant (fun s₁ es s₂ h _ hm => ?_) (fun s₁ r next a h _ hm _ => ?_) rfl
  · obtain ⟨i, -, hexec⟩ := move_inv hm
    exact (exec_code hexec).trans h
  · obtain ⟨i, -, hexec⟩ := move_inv hm
    exact (exec_ask hexec a).2.1.trans h

theorem relies_of_plain (hplain : oc.compiler.instructions.all Instruction.isPlain = true)
    (hints : foldsInts oc.compiler.instructions oc.compiler.operands = true)
    (env : Request × World → Value × World → Prop) (p : Pass) :
    oc.Relies env (oc.start fr retVal, w) p := by
  have hall : ∀ {k : Nat} {i : Instruction}, oc.compiler.instructions[k]? = some i →
      i.isPlain = true :=
    fun hi => List.all_eq_true.mp hplain _ (List.mem_of_getElem? hi)
  have copies : ∀ s : Activation × World, s.1.code = oc.compiler.instructions →
      CopyFits oc.compiler.operands s := by
    intro s hs dest src v hi hv
    have hassign := hall (hs ▸ hi)
    cases src with
    | const c => cases hv
    | _ => cases hassign
  have loads : ∀ s : Activation × World, s.1.code = oc.compiler.instructions →
      GlobalsFound oc.obsolete s := by
    intro s hs t n name hi
    cases hall (hs ▸ hi)
  cases p with
  | constantFolding => exact foldsFit_of_foldsInts hints
  | typeSpecialization => exact (always_code _).mono copies
  | removeObsolete => exact (always_code _).mono fun s hs => ⟨copies s hs, loads s hs⟩
  | deadVariableAssignment =>
    intro s v src rest t _ hpath
    obtain ⟨r, dest, hr⟩ := toLoad_load hpath
    cases hall hr
  | _ => exact trivial

theorem relied_of_plain {shared : Operands} {f : Function} (h : stagesPlain shared f = true)
    (env : Request × World → Value × World → Prop) (fr : Frame) (w : World) (retVal : Value) :
    Relied shared f env fr w retVal := by
  intro m p oc hp hstands
  obtain ⟨c, hc, hr⟩ := hstands
  unfold stagesPlain at h
  rw [hc] at h
  have hm := List.all_eq_true.mp h m (List.mem_range.mpr (List.getElem?_eq_some_iff.mp hp).1)
  rw [hr] at hm
  obtain ⟨hplain, hints⟩ := Bool.and_eq_true_iff.mp hm
  exact relies_of_plain hplain hints env p

theorem returnsSum_sub : SubFunction (Beaverc.compile returnsSum) returnsSumFunction := by
  have hfs : (Beaverc.compile returnsSum).functions = [returnsSumFunction] := rfl
  exact .step (.refl _) (hfs ▸ List.mem_singleton_self _)

theorem returnsSum_constants : IntConstants returnsSumFunction := by
  have hconstants : returnsSumFunction.constants = [.integer 1, .integer 2, .none] := rfl
  intro i hi
  rw [hconstants] at hi
  simp only [List.mem_cons, Constant.integer.injEq, reduceCtorEq, List.not_mem_nil,
    or_false] at hi
  rcases hi with rfl | rfl
  · decide
  · decide

/-- The code of the function in front of a pass. -/
def returnsSumCode (n : Nat) : Option (List Instruction) := do
  let c ← Compiler.compile .fresh returnsSumFunction
  let oc ← ((allPasses.take n).foldlM OptimizingCompiler.run ⟨c, []⟩).toOption
  return oc.compiler.instructions

theorem returnsSum_code :
    returnsSumCode 0 = some [.assign 0 (.const (.integer 1)), .assign 1 (.const (.integer 2)),
      .binOp .add 2 0 1, .ret 2, .assign 3 (.const .none), .ret 3] ∧
    returnsSumCode (allPasses.length - 1) = some [.assign 2 (.const (.integer 3)), .ret 2,
      .assign 3 (.const .none), .ret 3] := by
  decide +kernel

theorem returnsSum_stands {n : Nat} {code : List Instruction}
    (h : returnsSumCode n = some code) : ∃ oc, Stands .fresh returnsSumFunction n oc ∧
      oc.compiler.instructions = code := by
  unfold returnsSumCode at h
  obtain ⟨c, hc, h⟩ := Option.bind_eq_some_iff.mp h
  obtain ⟨oc, hoc, h⟩ := Option.bind_eq_some_iff.mp h
  exact ⟨oc, ⟨c, hc, toOption_eq_some hoc⟩, Option.some.inj h⟩

theorem plain_of_stands {shared : Operands} {f : Function} (h : Stands shared f 0 oc) :
    OptimizingCompiler.compile shared f false = some (.ok oc) := by
  obtain ⟨c, hc, hr⟩ := h
  cases hr
  unfold OptimizingCompiler.compile
  rw [hc]
  rfl

end OptimizedRunsLemmas

/-- The optimiser makes `assign 2 3, ret 2` of it. -/
theorem optimized_runs_returnsSum : ∃ oc oc',
    OptimizingCompiler.compile .fresh returnsSumFunction false = some (.ok oc) ∧
    Stands .fresh returnsSumFunction (allPasses.length - 1) oc' ∧
    oc.compiler.instructions.length = 6 ∧ oc'.compiler.instructions.length = 4 ∧
    ∀ w : World, Kept Activation.move Activation.move outward withoutLocals (fun _ _ => False)
      raised (oc.start ⟨0, returnsSumFunction, [], [], [], 0⟩ .none, w)
      (oc'.start ⟨0, returnsSumFunction, [], [], [], 0⟩ .none, w) := by
  obtain ⟨oc, hplain, hcode⟩ := returnsSum_stands returnsSum_code.1
  obtain ⟨oc', hoc', hcode'⟩ := returnsSum_stands returnsSum_code.2
  have hstages : stagesPlain .fresh returnsSumFunction = true := by decide +kernel
  have hoc := plain_of_stands hplain
  refine ⟨oc, oc', hoc, hoc', ?_, ?_, fun w => ?_⟩
  · rw [hcode]
    rfl
  · rw [hcode']
    rfl
  · exact optimized_runs returnsSum returnsSum_sub returnsSum_constants .fresh hoc (by decide) hoc'
      _ _ w .none (relied_of_plain hstages _ _ w .none)

end Beaverc.Ir

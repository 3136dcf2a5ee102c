import Beaverc.ControlFlow
import Beaverc.Visits

/-!
# The top-level code

The top-level function has no parameters, locals or captured variables: each of
its names is a global. `Summary` is what can be said about a piece of top-level
syntax without compiling it, given the names known so far; the compiler is
shown to agree with it.
-/

namespace Beaverc
open Tables Relation DisciplineLemmas VisitsLemmas ControlFlowLemmas

/-- A piece of top-level syntax: the names known after it, whether each name it
reads is known, whether it has a constant, whether it has a return, and whether
control can get past it. -/
structure Summary where
  globals : List String
  known : Bool
  constant : Bool
  returns : Bool
  passes : Bool
deriving DecidableEq, Repr

namespace Summary

def empty (globals : List String) : Summary :=
  ⟨globals, true, false, false, true⟩

def append (a b : Summary) : Summary :=
  ⟨b.globals, a.known && b.known, a.constant || b.constant, a.returns || b.returns,
    a.passes && b.passes⟩

/-- Two pieces one of which is executed. -/
def either (a b : Summary) : Summary :=
  { a.append b with passes := a.passes || b.passes }

/-- A piece that may be skipped. -/
def optional (a : Summary) : Summary :=
  { a with passes := true }

end Summary

def Visit.summary (globals : List String) : Visit → Summary
  | .load x => { Summary.empty globals with known := x ∈ globals, passes := x ∈ globals }
  | .store x => .empty (insert globals x)
  | .const _ => { Summary.empty globals with constant := true }
  | .ret => { Summary.empty globals with returns := true, passes := false }
  | _ => .empty globals

def summaryAll (globals : List String) : List Visit → Summary
  | [] => .empty globals
  | v :: vs => (v.summary globals).append (summaryAll (v.summary globals).globals vs)

mutual
def Statement.summary (globals : List String) : Statement → Summary
  | .ifStatement cond thenBlock elseBlock =>
    let c := summaryAll globals cond.visits
    let a := thenBlock.summary c.globals
    c.append (a.either (elseBlock.summary a.globals))
  | .whileLoop cond body =>
    let c := summaryAll globals cond.visits
    c.append (body.summary c.globals).optional
  | .assignment lhs expr => summaryAll globals (Statement.assignment lhs expr).visits
  | .callStatement target arguments =>
    summaryAll globals (Statement.callStatement target arguments).visits
  | .global _ => .empty globals
  | .ret expr => summaryAll globals (Statement.ret expr).visits

def Block.summary (globals : List String) : Block → Summary
  | .nil => .empty globals
  | .cons head tail =>
    let a := head.summary globals
    a.append (tail.summary a.globals)
end

/-! ## What the compiler does -/

/-- The tables of the top-level function. -/
structure Node.IsMain (n : Node) : Prop where
  localVars : n.function.localVars = []
  references : n.function.numReferences = 0

def Instruction.isLoadConst : Instruction → Bool
  | .loadConst _ => true
  | _ => false

/-- Going from `s` to `s'` the compiler emitted `code`, as the summary says. -/
structure Summarizes (a : Summary) (s s' : State) (code : List Instruction) : Prop where
  isMain : s'.node.IsMain
  globals : s'.node.globals = a.globals
  code_eq : s'.node.function.instructions = s.node.function.instructions ++ code
  returned : s'.node.returned = (s.node.returned || a.returns)
  constants : s'.node.function.constants = [] ↔
    s.node.function.constants = [] ∧ a.constant = false
  loads : code.any Instruction.isLoadConst = (a.constant || !a.known)

namespace TopLevelLemmas

theorem summarizes_nil {s s' : State} (h : s.node.IsMain)
    (hi : s'.node.function = s.node.function) (hg : s'.node.globals = s.node.globals)
    (hr : s'.node.returned = s.node.returned) :
    Summarizes (.empty s.node.globals) s s' [] := by
  refine ⟨⟨hi ▸ h.localVars, hi ▸ h.references⟩, hg, by rw [hi, List.append_nil], ?_, ?_, rfl⟩
  · rw [hr]
    exact (Bool.or_false _).symm
  · rw [hi]
    exact (and_iff_left rfl).symm

theorem summarizes_append {a b : Summary} {s₁ s₂ s₃ : State} {c₁ c₂ : List Instruction}
    (h₁ : Summarizes a s₁ s₂ c₁) (h₂ : Summarizes b s₂ s₃ c₂) :
    Summarizes (a.append b) s₁ s₃ (c₁ ++ c₂) where
  isMain := h₂.isMain
  globals := h₂.globals
  code_eq := by rw [h₂.code_eq, h₁.code_eq, List.append_assoc]
  returned := by rw [h₂.returned, h₁.returned, Bool.or_assoc]; rfl
  constants := by
    rw [h₂.constants, h₁.constants]
    simp only [Summary.append, Bool.or_eq_false_iff, and_assoc]
  loads := by
    simp only [List.any_append, h₁.loads, h₂.loads, Summary.append, Bool.not_and]
    cases a.constant <;> cases b.constant <;> cases a.known <;> rfl

/-- An instruction that the summary need not know of. -/
theorem summarizes_output {s : State} (h : s.node.IsMain) {i : Instruction}
    (hi : i.isLoadConst = false) : Summarizes (.empty s.node.globals) s (s.output i) [i] := by
  refine ⟨⟨h.localVars, h.references⟩, rfl, rfl, (Bool.or_false _).symm, ?_, ?_⟩
  · exact (and_iff_left rfl).symm
  · simp [hi, Summary.empty]

/-- What a visit emits at top level. -/
def VisitSummarized (a : Summary) (s s' : State) : Prop :=
  ∃ code, Summarizes a s s' code ∧ Plain code ∧ straight code = a.passes

theorem visit_of_output {s : State} (h : s.node.IsMain) {i : Instruction}
    (hl : i.isLoadConst = false) (hp : i.isPlain = true) (hc : i.continues = true) :
    VisitSummarized (.empty s.node.globals) s (s.output i) :=
  ⟨[i], summarizes_output h hl, fun j hj => by rw [List.mem_singleton.mp hj]; exact hp, by
    simp [straight, hc, Summary.empty]⟩

theorem visitSummarized_append {a b : Summary} {s₁ s₂ s₃ : State} (h₁ : VisitSummarized a s₁ s₂)
    (h₂ : VisitSummarized b s₂ s₃) : VisitSummarized (a.append b) s₁ s₃ := by
  obtain ⟨c₁, hs₁, hp₁, he₁⟩ := h₁
  obtain ⟨c₂, hs₂, hp₂, he₂⟩ := h₂
  refine ⟨c₁ ++ c₂, summarizes_append hs₁ hs₂, plain_append.mpr ⟨hp₁, hp₂⟩, ?_⟩
  rw [show straight (c₁ ++ c₂) = (straight c₁ && straight c₂) from List.all_append, he₁, he₂]
  rfl

theorem empty_append (a : Summary) (g : List String) : (Summary.empty g).append a = a := by
  simp [Summary.append, Summary.empty]

theorem append_empty (a : Summary) : a.append (.empty a.globals) = a := by
  simp [Summary.append, Summary.empty]

/-- A step that emits nothing and keeps what the summary is about. -/
theorem visit_nil {s s' : State} (h : s.node.IsMain)
    (hi : s'.node.function = s.node.function) (hg : s'.node.globals = s.node.globals)
    (hr : s'.node.returned = s.node.returned) :
    VisitSummarized (.empty s.node.globals) s s' :=
  ⟨[], summarizes_nil h hi hg hr, fun _ h => absurd h List.not_mem_nil, rfl⟩

theorem visit_name {s : State} (h : s.node.IsMain) (x : String) :
    VisitSummarized (.empty s.node.globals) s (s.insertName x) :=
  ⟨[], ⟨⟨h.localVars, h.references⟩, rfl, (List.append_nil _).symm, (Bool.or_false _).symm,
    (and_iff_left rfl).symm, rfl⟩, fun _ h => absurd h List.not_mem_nil, rfl⟩

theorem visit_pushReferences (refs : List Nat) {s : State} (h : s.node.IsMain) :
    VisitSummarized (.empty s.node.globals) s
      (refs.foldl (fun s i => s.output (.pushReference i)) s) := by
  induction refs generalizing s with
  | nil => exact visit_nil h rfl rfl rfl
  | cons i refs ih =>
    have h₁ := visit_of_output h (i := .pushReference i) rfl rfl rfl
    exact visitSummarized_append h₁ (ih (s := s.output (.pushReference i))
      ⟨h.localVars, h.references⟩)

theorem visit_load {s : State} (h : s.node.IsMain) (x : String) :
    VisitSummarized (Visit.summary s.node.globals (.load x)) s (visitName true false x s) := by
  rcases visitName_cases true false x s with
    ⟨hg, he⟩ | ⟨-, i, hi, -⟩ | ⟨-, i, hi, -⟩ | ⟨-, hs, -⟩ | ⟨hg, -, he⟩
  · have hsum : Visit.summary s.node.globals (.load x) = .empty s.node.globals := by
      simp [Visit.summary, Summary.empty, hg]
    rw [he, hsum]
    exact visit_of_output h rfl rfl rfl
  · exact absurd hi (by rw [h.references]; exact Nat.not_lt_zero i)
  · exact absurd hi (by rw [h.localVars]; exact Nat.not_lt_zero i)
  · cases hs
  · have hsum : Visit.summary s.node.globals (.load x) = ⟨s.node.globals, false, false, false,
        false⟩ := by
      simp [Visit.summary, Summary.empty, hg]
    rw [he, hsum]
    refine ⟨[.loadConst 0, .throwUninitialized (s.nameIndex x)], ⟨⟨h.localVars, h.references⟩, rfl,
      ?_, (Bool.or_false _).symm, (and_iff_left rfl).symm, rfl⟩, ?_, rfl⟩
    · show s.node.function.instructions ++ [_] ++ [_] = _
      rw [List.append_assoc]
      rfl
    · intro i hi
      rcases List.mem_cons.mp hi with rfl | hi
      · rfl
      · rw [List.mem_singleton.mp hi]
        rfl

theorem visit_store {s : State} (h : s.node.IsMain) (x : String) :
    VisitSummarized (Visit.summary s.node.globals (.store x)) s (visitName true true x s) := by
  rcases visitName_cases true true x s with
    ⟨hg, he⟩ | ⟨-, i, hi, -⟩ | ⟨-, i, hi, -⟩ | ⟨-, -, he⟩ | ⟨-, hs, -⟩
  · have hsum : Visit.summary s.node.globals (.store x) = .empty s.node.globals := by
      simp [Visit.summary, Tables.insert, hg]
    rw [he, hsum]
    exact visit_of_output h rfl rfl rfl
  · exact absurd hi (by rw [h.references]; exact Nat.not_lt_zero i)
  · exact absurd hi (by rw [h.localVars]; exact Nat.not_lt_zero i)
  · rw [he]
    refine ⟨[.storeGlobal (s.nameIndex x)], ⟨⟨h.localVars, h.references⟩, rfl, rfl,
      (Bool.or_false _).symm, (and_iff_left rfl).symm, rfl⟩, fun i hi => ?_, rfl⟩
    rw [List.mem_singleton.mp hi]
    rfl
  · cases hs

theorem visit_literal {s : State} (h : s.node.IsMain) (l : Literal) (inner : State) :
    VisitSummarized (.empty s.node.globals) s (leaveFunction l.body inner s) := by
  set f : Function := { inner.node.function with argMapping := argMappingOf inner.node.function }
  set s₁ := { s with labelNum := inner.labelNum }.modifyFunction fun g =>
    { g with functions := g.functions ++ [f] } with hs₁
  have hmain : s₁.node.IsMain := ⟨h.localVars, h.references⟩
  have h₁ : VisitSummarized (.empty s.node.globals) s s₁ :=
    ⟨[], ⟨hmain, rfl, (List.append_nil _).symm, (Bool.or_false _).symm,
      (and_iff_left rfl).symm, rfl⟩, fun _ h => absurd h List.not_mem_nil, rfl⟩
  have h₂ := visit_pushReferences (captures s₁.node l.body).reverse hmain
  set s₂ := (captures s₁.node l.body).reverse.foldl (fun s i => s.output (.pushReference i)) s₁
  obtain ⟨code, hs₂, -⟩ := id h₂
  have h₃ := visit_of_output hs₂.isMain
    (i := .loadFunc (s₂.node.function.functions.length - 1 : Nat)) rfl rfl rfl
  obtain ⟨code', hs₃, -⟩ := id h₃
  have h₄ := visit_of_output hs₃.isMain (i := .allocClosure (captures s₁.node l.body).length)
    rfl rfl rfl
  rw [hs₃.globals] at h₄
  rw [hs₂.globals] at h₃ h₄
  exact visitSummarized_append h₁ (visitSummarized_append h₂ (visitSummarized_append h₃ h₄))

theorem visit_const {s : State} (h : s.node.IsMain) (c : Constant) :
    VisitSummarized (Visit.summary s.node.globals (.const c)) s (s.loadConst c) := by
  refine ⟨[.loadConst (insertIndex s.node.function.constants c)], ⟨⟨h.localVars, h.references⟩, rfl,
    rfl, (Bool.or_false _).symm, ?_, rfl⟩, fun i hi => ?_, rfl⟩
  · refine iff_of_false (fun hc => ?_) nofun
    have hmem : c ∈ insert s.node.function.constants c := mem_insert.mpr (.inr rfl)
    rw [show insert s.node.function.constants c = [] from hc] at hmem
    exact absurd hmem List.not_mem_nil
  · rw [List.mem_singleton.mp hi]
    rfl

theorem standsAlone_plain {i : Instruction} (h : i.standsAlone = true) :
    i.isLoadConst = false ∧ i.isPlain = true ∧ i.continues = true := by
  cases i <;> first | exact ⟨rfl, rfl, rfl⟩ | cases h

theorem visit_summarized (v : Visit) {s : State} (h : s.node.IsMain) :
    VisitSummarized (v.summary s.node.globals) s (v.transpile [] s) := by
  cases v with
  | load x => exact visit_load h x
  | store x => exact visit_store h x
  | storing x => exact visit_nil h rfl rfl rfl
  | literal l => exact visit_literal h l _
  | const c => exact visit_const h c
  | field x => exact visit_name h x
  | fieldLoad x | fieldStore x =>
    have hmain : (s.insertName x).node.IsMain := ⟨h.localVars, h.references⟩
    exact visitSummarized_append (visit_name h x) (visit_of_output hmain rfl rfl rfl)
  | output i hi =>
    obtain ⟨hl, hp, hc⟩ := standsAlone_plain hi
    exact visit_of_output h hl hp hc
  | ret =>
    refine ⟨[.ret], ⟨⟨h.localVars, h.references⟩, rfl, rfl, (Bool.or_true _).symm,
      (and_iff_left rfl).symm, rfl⟩, fun i hi => ?_, rfl⟩
    rw [List.mem_singleton.mp hi]
    rfl

theorem all_summarized (vs : List Visit) {s : State} (h : s.node.IsMain) :
    VisitSummarized (summaryAll s.node.globals vs) s (transpileAll [] vs s) := by
  induction vs generalizing s with
  | nil => exact visit_nil h rfl rfl rfl
  | cons v vs ih =>
    have h₁ := visit_summarized v h
    obtain ⟨code, hs₁, -⟩ := id h₁
    have h₂ := ih hs₁.isMain
    rw [hs₁.globals] at h₂
    exact visitSummarized_append h₁ h₂

/-- An instruction after a summarized piece. -/
theorem summarizes_snoc {a : Summary} {s s' : State} {code : List Instruction}
    (h : Summarizes a s s' code) {i : Instruction} (hi : i.isLoadConst = false) :
    Summarizes a s (s'.output i) (code ++ [i]) := by
  have h' := summarizes_append h (summarizes_output h.isMain hi)
  rwa [h.globals, append_empty] at h'

theorem summarizes_label {a : Summary} {s s' : State} {code : List Instruction}
    (h : Summarizes a s s' code) (l : Nat) :
    Summarizes a s (s'.outputLabel l) (code ++ [.label l]) := by
  obtain ⟨hm, hg, hc, hr, hk, hl⟩ := summarizes_snoc h (i := .label l) rfl
  exact ⟨⟨hm.localVars, hm.references⟩, hg, hc, hr, hk, hl⟩

/-- `Summarizes` says nothing about the flag `passes`. -/
theorem summarizes_passes {a : Summary} {s s' : State} {code : List Instruction}
    (h : Summarizes a s s' code) (passes : Bool) :
    Summarizes { a with passes := passes } s s' code :=
  ⟨h.isMain, h.globals, h.code_eq, h.returned, h.constants, h.loads⟩

theorem summarizes_labelNum {a : Summary} {s s' : State} {n : Nat} {code : List Instruction}
    (h : Summarizes a { s with labelNum := n } s' code) : Summarizes a s s' code :=
  ⟨h.isMain, h.globals, h.code_eq, h.returned, h.constants, h.loads⟩

/-- An expression emits plain code that pushes one value. -/
theorem expression_summarized (e : Expression) {s : State} (h : s.node.IsMain) :
    ∃ code, Summarizes (summaryAll s.node.globals e.visits) s (e.transpile [] s) code ∧
      Effect 0 1 code ∧ straight code = (summaryAll s.node.globals e.visits).passes ∧
      s.labelNum ≤ (e.transpile [] s).labelNum := by
  obtain ⟨code, hs, -, hp⟩ := all_summarized e.visits h
  rw [← e.transpile_visits [] s] at hs
  obtain ⟨code', hg, he⟩ := e.transpile_emits [] s
  have hcode : code = code' := List.append_cancel_left (hs.code_eq.symm.trans hg.code_eq)
  exact ⟨code, hs, hcode ▸ he, hp, hg.labelNum⟩

/-- A statement without a body emits plain code. -/
theorem simple_flow (st : Statement) (hst : st.isSimple = true) {s : State} (h : s.node.IsMain) :
    ∃ code, Summarizes (summaryAll s.node.globals st.visits) s (st.transpile [] s) code ∧
      Flow (summaryAll s.node.globals st.visits).passes s.labelNum
        (st.transpile [] s).labelNum code := by
  obtain ⟨code, hs, hplain, hp⟩ := all_summarized st.visits h
  rw [← Statement.transpile_visits [] hst s] at hs
  obtain ⟨code', hg, hseg⟩ := st.transpile_emits [] s
  have hcode : code = code' := List.append_cancel_left (hs.code_eq.symm.trans hg.code_eq)
  subst hcode
  refine ⟨code, hs, ?_⟩
  rw [← hp]
  exact .plain hg.labelNum hplain hseg.depth_eq

theorem flow_nil {s s' : State} (hs : Summarizes (.empty s.node.globals) s s' [])
    (hn : s.labelNum ≤ s'.labelNum) : ∃ code, Summarizes (.empty s.node.globals) s s' code ∧
      Flow (Summary.empty s.node.globals).passes s.labelNum s'.labelNum code :=
  ⟨[], hs, .plain hn (fun _ h => absurd h List.not_mem_nil) rfl⟩

end TopLevelLemmas

open TopLevelLemmas

mutual
/-- What a statement of the top-level code is compiled to. -/
theorem Statement.transpile_flow : (st : Statement) → (s : State) → s.node.IsMain →
    ∃ code, Summarizes (st.summary s.node.globals) s (st.transpile [] s) code ∧
      Flow (st.summary s.node.globals).passes s.labelNum (st.transpile [] s).labelNum code
  | .ifStatement cond thenBlock elseBlock, s, h => by
    obtain ⟨c, hc, hec, hpc, hnc⟩ := expression_summarized cond (s := { s with
      labelNum := s.labelNum + 3 }) h
    set s₁ := cond.transpile [] { s with labelNum := s.labelNum + 3 } with hs₁
    -- the states in between: after the condition, and after each of the two blocks
    have hc' := summarizes_label (summarizes_snoc (summarizes_snoc (summarizes_labelNum hc)
      (i := .ifTrue s.labelNum) rfl) (i := .goto (s.labelNum + 1)) rfl) s.labelNum
    set s₂ := ((s₁.output (.ifTrue s.labelNum)).output (.goto (s.labelNum + 1))).outputLabel
      s.labelNum with hs₂
    obtain ⟨a, ha, hfa⟩ := thenBlock.transpile_flow s₂ hc'.isMain
    have ha' := summarizes_label (summarizes_snoc (summarizes_append hc' ha)
      (i := .goto (s.labelNum + 2)) rfl) (s.labelNum + 1)
    set s₃ := ((thenBlock.transpile [] s₂).output (.goto (s.labelNum + 2))).outputLabel
      (s.labelNum + 1) with hs₃
    obtain ⟨b, hb, hfb⟩ := elseBlock.transpile_flow s₃ ha'.isMain
    rw [show s₃.node.globals = (thenBlock.summary s₂.node.globals).globals from ha'.globals]
      at hb hfb
    rw [hc'.globals] at ha' hb hfa hfb
    set c₀ := summaryAll s.node.globals cond.visits with hc₀
    set a₀ := thenBlock.summary c₀.globals with ha₀
    set b₀ := elseBlock.summary a₀.globals with hb₀
    have hb' := summarizes_label (summarizes_append ha' hb) (s.labelNum + 2)
    refine ⟨c ++ [.ifTrue s.labelNum, .goto (s.labelNum + 1), .label s.labelNum] ++ a ++
      [.goto (s.labelNum + 2), .label (s.labelNum + 1)] ++ b ++ [.label (s.labelNum + 2)], ?_, ?_⟩
    · have hsum : Statement.summary s.node.globals (.ifStatement cond thenBlock elseBlock) =
          { (c₀.append a₀).append b₀ with passes := c₀.passes && (a₀.passes || b₀.passes) } := by
        show c₀.append (a₀.either b₀) = _
        simp [Summary.append, Summary.either, Bool.and_assoc, Bool.or_assoc]
      have hall := summarizes_passes hb' (c₀.passes && (a₀.passes || b₀.passes))
      rw [hsum]
      show Summarizes _ s ((elseBlock.transpile [] s₃).outputLabel (s.labelNum + 2)) _
      simpa using hall
    · rw [show (Statement.summary s.node.globals (.ifStatement cond thenBlock elseBlock)).passes =
        (straight c && (a₀.passes || b₀.passes)) by rw [hpc]; rfl]
      exact .branch hnc hec hfa hfb
  | .whileLoop cond body, s, h => by
    set s₁ := (({ s with labelNum := s.labelNum + 3 } : State).outputLabel s.labelNum).output
      .garbageCollect with hs₁
    have h₀ : Summarizes (.empty s.node.globals) s { s with labelNum := s.labelNum + 3 } [] :=
      summarizes_nil h rfl rfl rfl
    have h₁ := summarizes_snoc (summarizes_label h₀ s.labelNum) (i := .garbageCollect) rfl
    set c₀ := summaryAll s.node.globals cond.visits with hc₀
    obtain ⟨c, hc, hec, hpc, hnc⟩ : ∃ code, Summarizes c₀ s₁ (cond.transpile [] s₁) code ∧
        Effect 0 1 code ∧ straight code = c₀.passes ∧
        s₁.labelNum ≤ (cond.transpile [] s₁).labelNum := expression_summarized cond h₁.isMain
    set s₂ := cond.transpile [] s₁ with hs₂
    have hc' := summarizes_label (summarizes_snoc (summarizes_snoc (summarizes_append h₁ hc)
      (i := .ifTrue (s.labelNum + 1)) rfl) (i := .goto (s.labelNum + 2)) rfl) (s.labelNum + 1)
    rw [empty_append] at hc'
    set s₃ := ((s₂.output (.ifTrue (s.labelNum + 1))).output
      (.goto (s.labelNum + 2))).outputLabel (s.labelNum + 1) with hs₃
    obtain ⟨b, hb, hfb⟩ := body.transpile_flow s₃ hc'.isMain
    rw [hc'.globals] at hb hfb
    set b₀ := body.summary c₀.globals with hb₀
    have hb' := summarizes_label (summarizes_snoc (summarizes_append hc' hb)
      (i := .goto s.labelNum) rfl) (s.labelNum + 2)
    refine ⟨[.label s.labelNum, .garbageCollect] ++ c ++
      [.ifTrue (s.labelNum + 1), .goto (s.labelNum + 2), .label (s.labelNum + 1)] ++ b ++
      [.goto s.labelNum, .label (s.labelNum + 2)], ?_, ?_⟩
    · have hsum : Statement.summary s.node.globals (.whileLoop cond body) =
          { c₀.append b₀ with passes := c₀.passes } := by
        show c₀.append b₀.optional = _
        simp [Summary.append, Summary.optional]
      have hall := summarizes_passes hb' c₀.passes
      rw [hsum]
      show Summarizes _ s (((body.transpile [] s₃).output (.goto s.labelNum)).outputLabel
        (s.labelNum + 2)) _
      simpa using hall
    · rw [show (Statement.summary s.node.globals (.whileLoop cond body)).passes = straight c by
        rw [hpc]; exact Bool.and_true _]
      exact .loop hnc hec hfb
  | .assignment lhs expr, _, h => simple_flow (.assignment lhs expr) rfl h
  | .callStatement target arguments, _, h => simple_flow (.callStatement target arguments) rfl h
  | .global x, s, h => flow_nil (summarizes_nil h rfl rfl rfl) le_rfl
  | .ret expr, _, h => simple_flow (.ret expr) rfl h

theorem Block.transpile_flow : (b : Block) → (s : State) → s.node.IsMain →
    ∃ code, Summarizes (b.summary s.node.globals) s (b.transpile [] s) code ∧
      Flow (b.summary s.node.globals).passes s.labelNum (b.transpile [] s).labelNum code
  | .nil, s, h => flow_nil (summarizes_nil h rfl rfl rfl) le_rfl
  | .cons head tail, s, h => by
    obtain ⟨a, ha, hfa⟩ := head.transpile_flow s h
    obtain ⟨b, hb, hfb⟩ := tail.transpile_flow (head.transpile [] s) ha.isMain
    rw [ha.globals] at hb hfb
    exact ⟨a ++ b, summarizes_append ha hb, .append hfa hfb⟩
end

end Beaverc

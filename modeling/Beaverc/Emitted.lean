import Beaverc.Visits

/-!
# The functions of a compiled program

Besides the main function the compiler emits one function for each literal of
the program, at any depth, and no others.
-/

namespace Beaverc
open Tables DisciplineLemmas VisitsLemmas

/-- The function emitted for a literal inside `parent`. -/
def Literal.emitted (up : List Node) (parent : Node) (labelNum : Nat) (l : Literal) : Function :=
  let f := (l.compiled up parent labelNum).node.function
  { f with argMapping := argMappingOf f }

def Visit.literal? : Visit → Option Literal
  | .literal l => some l
  | _ => none

mutual
/-- The literals of a statement that are not inside another one. -/
def Statement.literals : Statement → List Literal
  | .ifStatement cond thenBlock elseBlock =>
    cond.visits.filterMap Visit.literal? ++ thenBlock.literals ++ elseBlock.literals
  | .whileLoop cond body => cond.visits.filterMap Visit.literal? ++ body.literals
  | .assignment lhs expr => (Statement.assignment lhs expr).visits.filterMap Visit.literal?
  | .callStatement target arguments =>
    (Statement.callStatement target arguments).visits.filterMap Visit.literal?
  | .global _ => []
  | .ret expr => expr.visits.filterMap Visit.literal?

def Block.literals : Block → List Literal
  | .nil => []
  | .cons head tail => head.literals ++ tail.literals
end

/-- A literal of the block, at any depth. -/
inductive Block.Contains : Block → Literal → Prop
  | here {b : Block} {l : Literal} : l ∈ b.literals → b.Contains l
  | inside {b : Block} {l m : Literal} : l ∈ b.literals → l.body.Contains m → b.Contains m

/-- `f` is emitted for `l` with the functions `up` around it. -/
def Literal.EmittedAs (up : List Node) (l : Literal) (f : Function) : Prop :=
  ∃ parent labelNum, f = l.emitted up parent labelNum

/-- Going from `s` to `s'` the compiler added one function for each of the
literals, and no others. -/
def Adds (up : List Node) (ls : List Literal) (s s' : State) : Prop :=
  ∃ new, s'.node.function.functions = s.node.function.functions ++ new ∧
    (∀ f ∈ new, ∃ l ∈ ls, l.EmittedAs up f) ∧ ∀ l ∈ ls, ∃ f ∈ new, l.EmittedAs up f

namespace Adds

variable {up : List Node}

theorem of_eq {s s' : State} (h : s'.node.function.functions = s.node.function.functions) :
    Adds up [] s s' :=
  ⟨[], by rw [h, List.append_nil], fun _ h => absurd h List.not_mem_nil,
    fun _ h => absurd h List.not_mem_nil⟩

theorem trans {ls ms : List Literal} {s₁ s₂ s₃ : State} (h₁ : Adds up ls s₁ s₂)
    (h₂ : Adds up ms s₂ s₃) : Adds up (ls ++ ms) s₁ s₃ := by
  obtain ⟨new₁, he₁, hf₁, hl₁⟩ := h₁
  obtain ⟨new₂, he₂, hf₂, hl₂⟩ := h₂
  refine ⟨new₁ ++ new₂, by rw [he₂, he₁, List.append_assoc], fun f hf => ?_, fun l hl => ?_⟩
  · rcases List.mem_append.mp hf with hf | hf
    · obtain ⟨l, hl, h⟩ := hf₁ f hf
      exact ⟨l, List.mem_append_left _ hl, h⟩
    · obtain ⟨l, hl, h⟩ := hf₂ f hf
      exact ⟨l, List.mem_append_right _ hl, h⟩
  · rcases List.mem_append.mp hl with hl | hl
    · obtain ⟨f, hf, h⟩ := hl₁ l hl
      exact ⟨f, List.mem_append_left _ hf, h⟩
    · obtain ⟨f, hf, h⟩ := hl₂ l hl
      exact ⟨f, List.mem_append_right _ hf, h⟩

theorem before {ls : List Literal} {s₁ s₂ : State} (h₁ : Adds up ls s₁ s₂) (s₃ : State)
    (h : s₃.node.function.functions = s₂.node.function.functions) : Adds up ls s₁ s₃ := by
  have h₂ := h₁.trans (of_eq h)
  rwa [List.append_nil] at h₂

theorem after {ls : List Literal} {s₁ s₃ : State} (s₂ : State)
    (h : s₂.node.function.functions = s₁.node.function.functions) (h₂ : Adds up ls s₂ s₃) :
    Adds up ls s₁ s₃ :=
  (of_eq h).trans h₂

end Adds

namespace EmittedLemmas

theorem foldl_output_functions (refs : List Nat) (s : State) :
    (refs.foldl (fun s i => s.output (.pushReference i)) s).node.function.functions =
      s.node.function.functions := by
  induction refs generalizing s with
  | nil => rfl
  | cons i refs ih => exact ih _

theorem visitName_functions (isGlobal storing : Bool) (x : String) (s : State) :
    (visitName isGlobal storing x s).node.function.functions = s.node.function.functions := by
  rcases visitName_cases isGlobal storing x s with
    ⟨-, h⟩ | ⟨-, _, -, h⟩ | ⟨-, _, -, h⟩ | ⟨-, -, h⟩ | ⟨-, -, h⟩
  all_goals
    rw [h]
    rfl

theorem leaveFunction_functions (body : Block) (inner s : State) :
    (leaveFunction body inner s).node.function.functions = s.node.function.functions ++
      [{ inner.node.function with argMapping := argMappingOf inner.node.function }] :=
  foldl_output_functions _ _

theorem visit_adds (up : List Node) (v : Visit) (s : State) :
    Adds up v.literal?.toList s (v.transpile up s) := by
  cases v with
  | load x | store x => exact .of_eq (visitName_functions _ _ x s)
  | literal l =>
    have hl : l.EmittedAs up (l.emitted up s.node s.labelNum) := ⟨s.node, s.labelNum, rfl⟩
    refine ⟨[l.emitted up s.node s.labelNum], leaveFunction_functions _ _ s, fun f hf => ?_,
      fun m hm => ?_⟩
    · rw [List.mem_singleton.mp hf]
      exact ⟨l, List.mem_singleton_self l, hl⟩
    · rw [List.mem_singleton.mp hm]
      exact ⟨_, List.mem_singleton_self _, hl⟩
  | _ => exact .of_eq rfl

theorem transpileAll_adds (up : List Node) (vs : List Visit) (s : State) :
    Adds up (vs.filterMap Visit.literal?) s (transpileAll up vs s) := by
  induction vs generalizing s with
  | nil => exact .of_eq rfl
  | cons v vs ih =>
    have h := (visit_adds up v s).trans (ih (v.transpile up s))
    cases hv : v.literal? with
    | none => rw [List.filterMap_cons_none hv]; rwa [hv] at h
    | some l => rw [List.filterMap_cons_some hv]; rwa [hv] at h

theorem expression_adds (up : List Node) (e : Expression) (s : State) :
    Adds up (e.visits.filterMap Visit.literal?) s (e.transpile up s) := by
  rw [e.transpile_visits up]
  exact transpileAll_adds up e.visits s

end EmittedLemmas

open EmittedLemmas

mutual
theorem Statement.transpile_adds (up : List Node) :
    (st : Statement) → (s : State) → Adds up st.literals s (st.transpile up s)
  | .ifStatement cond thenBlock elseBlock, s => by
    set s₁ := cond.transpile up { s with labelNum := s.labelNum + 3 } with hs₁
    set s₂ := ((s₁.output (.ifTrue s.labelNum)).output (.goto (s.labelNum + 1))).outputLabel
      s.labelNum with hs₂
    set s₃ := ((thenBlock.transpile up s₂).output (.goto (s.labelNum + 2))).outputLabel
      (s.labelNum + 1) with hs₃
    have h₁ : Adds up (cond.visits.filterMap Visit.literal?) s s₁ :=
      .after _ rfl (expression_adds up cond { s with labelNum := s.labelNum + 3 })
    have h₂ := (h₁.before s₂ rfl).trans (thenBlock.transpile_adds up s₂)
    have h₃ := (h₂.before s₃ rfl).trans (elseBlock.transpile_adds up s₃)
    exact h₃.before _ rfl
  | .whileLoop cond body, s => by
    set s₁ := (({ s with labelNum := s.labelNum + 3 } : State).outputLabel s.labelNum).output
      .garbageCollect with hs₁
    set s₂ := cond.transpile up s₁ with hs₂
    set s₃ := ((s₂.output (.ifTrue (s.labelNum + 1))).output
      (.goto (s.labelNum + 2))).outputLabel (s.labelNum + 1) with hs₃
    have h₁ : Adds up (cond.visits.filterMap Visit.literal?) s s₂ :=
      .after s₁ rfl (expression_adds up cond s₁)
    have h₂ := (h₁.before s₃ rfl).trans (body.transpile_adds up s₃)
    exact h₂.before _ rfl
  | .assignment lhs expr, s => by
    rw [Statement.transpile_visits up rfl]
    exact transpileAll_adds up _ s
  | .callStatement target arguments, s => by
    rw [Statement.transpile_visits up rfl]
    exact transpileAll_adds up _ s
  | .global x, s => .of_eq rfl
  | .ret expr, s => (expression_adds up expr s).before _ rfl

theorem Block.transpile_adds (up : List Node) :
    (b : Block) → (s : State) → Adds up b.literals s (b.transpile up s)
  | .nil, _ => .of_eq rfl
  | .cons head tail, s => (head.transpile_adds up s).trans (tail.transpile_adds up _)
end

namespace EmittedLemmas

theorem visitProgram_adds (prog : Program) : Adds [] prog.literals ⟨{}, 0⟩ (visitProgram prog) := by
  have h : Adds [] prog.literals ⟨{}, 0⟩ (prog.transpile [] initialState) :=
    .after _ rfl (prog.transpile_adds [] initialState)
  simp only [visitProgram]
  split
  · exact h
  · exact h.before _ rfl

theorem compiled_adds (up : List Node) (parent : Node) (n : Nat) (l : Literal) :
    Adds (parent :: up) l.body.literals ⟨enterFunction parent up l.arguments l.body, n⟩
      (l.compiled up parent n) :=
  (l.body.transpile_adds (parent :: up) _).before _ rfl

/-- The functions nested directly in an emitted one. -/
theorem emitted_functions (up : List Node) (parent : Node) (n : Nat) (l : Literal) :
    (∀ f ∈ (l.emitted up parent n).functions, ∃ m ∈ l.body.literals, m.EmittedAs (parent :: up) f) ∧
      ∀ m ∈ l.body.literals, ∃ f ∈ (l.emitted up parent n).functions,
        m.EmittedAs (parent :: up) f := by
  obtain ⟨new, hnew, hf, hl⟩ := compiled_adds up parent n l
  have hfs : (l.emitted up parent n).functions = new := by
    rw [show (l.emitted up parent n).functions = _ from hnew,
      (enterFunction_fresh parent up l.arguments l.body).functions, List.nil_append]
  rw [hfs]
  exact ⟨hf, hl⟩

theorem compile_functions (prog : Program) :
    (∀ f ∈ (compile prog).functions, ∃ l ∈ prog.literals, l.EmittedAs [] f) ∧
      ∀ l ∈ prog.literals, ∃ f ∈ (compile prog).functions, l.EmittedAs [] f := by
  obtain ⟨new, hnew, hf, hl⟩ := visitProgram_adds prog
  have hfs : (compile prog).functions = new := hnew
  rw [hfs]
  exact ⟨hf, hl⟩

theorem contains_trans {b : Block} {l m : Literal} (h : b.Contains l) (hm : m ∈ l.body.literals) :
    b.Contains m := by
  induction h with
  | here hl => exact .inside hl (.here hm)
  | inside hl _ ih => exact .inside hl (ih hm)

theorem emitted_contains {b : Block} {l : Literal} {f : Function} {up : List Node}
    (h : b.Contains l) (hb : ∀ m ∈ b.literals, ∃ g, SubFunction f g ∧ m.EmittedAs up g) :
    ∃ up' g, SubFunction f g ∧ l.EmittedAs up' g := by
  induction h generalizing up with
  | here hl =>
    obtain ⟨g, hg, he⟩ := hb _ hl
    exact ⟨up, g, hg, he⟩
  | inside hl _ ih =>
    obtain ⟨g, hg, parent, n, rfl⟩ := hb _ hl
    refine @ih (parent :: up) fun m hm => ?_
    obtain ⟨k, hk, he⟩ := (emitted_functions up parent n _).2 m hm
    exact ⟨k, .step hg hk, he⟩

end EmittedLemmas

/-- A function of a compiled program is the main function or emitted for a
literal of the program. -/
theorem subFunction_emitted {prog : Program} {f : Function} (h : SubFunction (compile prog) f) :
    f = compile prog ∨ ∃ up l, prog.Contains l ∧ l.EmittedAs up f := by
  induction h with
  | refl => exact .inl rfl
  | step _ hm ih =>
    right
    rcases ih with rfl | ⟨up, l, hl, parent, n, rfl⟩
    · obtain ⟨l, hl, he⟩ := (compile_functions prog).1 _ hm
      exact ⟨[], l, .here hl, he⟩
    · obtain ⟨m, hm', he⟩ := (emitted_functions up parent n l).1 _ hm
      exact ⟨_, m, contains_trans hl hm', he⟩

/-- Each literal of a program has its function. -/
theorem contains_emitted {prog : Program} {l : Literal} (h : prog.Contains l) :
    ∃ up f, SubFunction (compile prog) f ∧ l.EmittedAs up f := by
  refine @emitted_contains prog l _ [] h fun m hm => ?_
  obtain ⟨f, hf, he⟩ := (compile_functions prog).2 m hm
  exact ⟨f, .step (.refl _) hf, he⟩

end Beaverc

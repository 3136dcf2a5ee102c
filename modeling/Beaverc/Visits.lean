import Beaverc.Discipline

/-!
# The visits of a piece of syntax

Transpiling an expression is a sequence of elementary visits: names that are
read, literals, constants, field names and single instructions. `visits` lists
them in the order in which the visitor makes them, and `transpile` is shown to
be their fold; so is every statement without a body. What is true of the
compiler's state after any syntax is then shown for the elementary visits and
for the two statements with bodies.
-/

namespace Beaverc
open Tables DisciplineLemmas

/-- The instructions that stand for themselves: they have no index into a table
and no label, and control goes on after them. -/
def Instruction.standsAlone : Instruction → Bool
  | .allocRecord | .indexLoad | .indexStore | .call _ | .add | .sub | .mul | .div | .neg | .gt
  | .geq | .eq | .and | .or | .not | .dup | .swap | .pop | .garbageCollect => true
  | _ => false

theorem BinOpSym.operation_standsAlone (op : BinOpSym) : op.operation.1.standsAlone = true := by
  cases op <;> rfl

theorem UnOpSym.operation_standsAlone (op : UnOpSym) : op.operation.standsAlone = true := by
  cases op <;> rfl

/-- An elementary step of the visitor. -/
inductive Visit where
  | load (x : String)
  | store (x : String)
  | storing (x : String)
  | literal (l : Literal)
  | const (c : Constant)
  | field (x : String)
  | fieldLoad (x : String)
  | fieldStore (x : String)
  | output (i : Instruction) (h : i.standsAlone = true)
  | ret

/-- The state of the compiler after the body of a literal inside `parent` and
the default return. -/
def Literal.compiled (up : List Node) (parent : Node) (labelNum : Nat) (l : Literal) : State :=
  let entered := enterFunction parent up l.arguments l.body
  ((l.body.transpile (parent :: up) ⟨entered, labelNum⟩).loadConst .none).outputReturn

def Visit.transpile (up : List Node) (s : State) : Visit → State
  | .load x => visitName up.isEmpty false x s
  | .store x => visitName up.isEmpty true x s
  | .storing x => s.modifyNode fun n => { n with storing := x }
  | .literal l => leaveFunction l.body (l.compiled up s.node s.labelNum) s
  | .const c => s.loadConst c
  | .field x => s.insertName x
  | .fieldLoad x => (s.insertName x).output (.fieldLoad (s.nameIndex x))
  | .fieldStore x => (s.insertName x).output (.fieldStore (s.nameIndex x))
  | .output i _ => s.output i
  | .ret => s.outputReturn

def transpileAll (up : List Node) (vs : List Visit) (s : State) : State :=
  vs.foldl (Visit.transpile up) s

mutual
def LHS.visits : LHS → List Visit
  | .name x => [.load x]
  | .index base idx => base.visits ++ idx.visits ++ [.output .indexLoad rfl]
  | .field base x => .field x :: base.visits ++ [.fieldLoad x]

def Expression.visits : Expression → List Visit
  | .lhs l => l.visits
  | .call target arguments =>
    arguments.visits ++ target.visits ++ [.output (.call arguments.size) rfl]
  | .function arguments body => [.literal ⟨arguments, body⟩]
  | .record fields => .output .allocRecord rfl :: fields.visits
  | .boolConst b => [.const (.boolean b)]
  | .strConst v => [.const (.string v)]
  | .intConst i => [.const (.integer i)]
  | .nullConst => [.const .none]
  | .binaryOp op left right =>
    (if op.operation.2 then right.visits ++ left.visits else left.visits ++ right.visits) ++
      [.output op.operation.1 op.operation_standsAlone]
  | .unaryOp op expr => expr.visits ++ [.output op.operation op.operation_standsAlone]

def Arguments.visits : Arguments → List Visit
  | .nil => []
  | .cons head tail => head.visits ++ tail.visits

def Fields.visits : Fields → List Visit
  | .nil => []
  | .cons key value tail =>
    .output .dup rfl :: value.visits ++ [.fieldStore key] ++ tail.visits
end

/-- The visits of a left-hand side that is stored to. -/
def LHS.storeVisits : LHS → List Visit
  | .name x => [.store x]
  | .index base idx =>
    base.visits ++ [.output .swap rfl] ++ idx.visits ++
      [.output .swap rfl, .output .indexStore rfl]
  | .field base x => .field x :: base.visits ++ [.output .swap rfl, .fieldStore x]

/-- The visits in front of those of the assigned expression. -/
def LHS.storingVisits : LHS → List Visit
  | .name x => [.storing x]
  | _ => []

/-- The visits of a statement without a body. -/
def Statement.visits : Statement → List Visit
  | .assignment lhs expr => lhs.storingVisits ++ expr.visits ++ lhs.storeVisits
  | .callStatement target arguments =>
    arguments.visits ++ target.visits ++
      [.output (.call arguments.size) rfl, .output .pop rfl, .output .garbageCollect rfl]
  | .global _ => []
  | .ifStatement cond _ _ => cond.visits
  | .whileLoop cond _ => cond.visits
  | .ret expr => expr.visits ++ [.ret]

namespace VisitsLemmas

@[simp] theorem transpileAll_nil (up : List Node) (s : State) : transpileAll up [] s = s :=
  rfl

@[simp] theorem transpileAll_cons (up : List Node) (v : Visit) (vs : List Visit) (s : State) :
    transpileAll up (v :: vs) s = transpileAll up vs (v.transpile up s) :=
  rfl

@[simp] theorem transpileAll_append (up : List Node) (vs ws : List Visit) (s : State) :
    transpileAll up (vs ++ ws) s = transpileAll up ws (transpileAll up vs s) :=
  List.foldl_append

/-- The index that a table hands out stays the first one of the value. -/
theorem insertIndex_kept {v w : List String} {x : String} (h : insert v x <+: w) :
    insertIndex w x = insertIndex v x := by
  obtain ⟨rest, rfl⟩ := h
  have hx : x ∈ insert v x := mem_insert.mpr (.inr rfl)
  obtain ⟨i, hi⟩ := Option.isSome_iff_exists.mp (index_isSome.mpr hx)
  have hfirst : insertIndex (insert v x ++ rest) x = i := by
    unfold insertIndex
    rw [index_append hx, hi]
    rfl
  rw [hfirst]
  unfold Tables.insert at hi
  unfold insertIndex
  split at hi
  · rw [hi]
    rfl
  · next hv =>
    have hlast : index (v ++ [x]) x = some v.length :=
      List.idxOf?_eq_some_iff.mpr ⟨by simp, by simp, fun j hj he => hv (by
        rw [List.getElem_append_left hj] at he
        exact he ▸ List.getElem_mem hj)⟩
    rw [hlast] at hi
    rw [index_eq_none.mpr hv]
    exact (Option.some.inj hi).symm

/-- A name that was inserted before needs no second entry. -/
theorem insertName_kept {s s' : State} {x : String}
    (h : (s.insertName x).node.function.names <+: s'.node.function.names) :
    s'.insertName x = s' ∧ s'.nameIndex x = s.nameIndex x := by
  refine ⟨?_, insertIndex_kept h⟩
  have hx : x ∈ s'.node.function.names := h.subset (mem_insert.mpr (.inr rfl))
  have hnames : insert s'.node.function.names x = s'.node.function.names := if_pos hx
  obtain ⟨⟨f, freeReferenceVars, globals, storing, returned⟩, labelNum⟩ := s'
  cases f
  simp only [State.insertName, State.modifyFunction, State.modifyNode] at hnames ⊢
  rw [hnames]

end VisitsLemmas

open VisitsLemmas

mutual
theorem LHS.transpile_visits (up : List Node) :
    (l : LHS) → (s : State) → l.transpile up false s = transpileAll up l.visits s
  | .name _, _ => rfl
  | .index base idx, s => by
    simp only [LHS.visits, transpileAll_append, transpileAll_cons, transpileAll_nil,
      Visit.transpile,
      ← LHS.transpile_visits up base, ← Expression.transpile_visits up idx]
    rfl
  | .field base field, s => by
    obtain ⟨code, hg, -⟩ := base.transpile_load up (s.insertName field)
    simp only [LHS.visits, transpileAll_append, transpileAll_cons, transpileAll_nil,
      Visit.transpile,
      ← LHS.transpile_visits up base, List.cons_append]
    obtain ⟨hs, hi⟩ := insertName_kept hg.names
    rw [hs, hi]
    rfl

theorem Expression.transpile_visits (up : List Node) :
    (e : Expression) → (s : State) → e.transpile up s = transpileAll up e.visits s
  | .lhs l, s => l.transpile_visits up s
  | .call target arguments, s => by
    simp only [Expression.visits, transpileAll_append, transpileAll_cons, transpileAll_nil,
      Visit.transpile, ← LHS.transpile_visits up target, ← Arguments.transpile_visits up arguments]
    rfl
  | .function _ _, _ => rfl
  | .record fields, s => fields.transpile_visits up _
  | .boolConst _, _ => rfl
  | .strConst _, _ => rfl
  | .intConst _, _ => rfl
  | .nullConst, _ => rfl
  | .binaryOp op left right, s => by
    simp only [Expression.visits, Expression.transpile]
    split
    all_goals
      simp only [transpileAll_append, transpileAll_cons, transpileAll_nil, Visit.transpile,
        ← Expression.transpile_visits up left, ← Expression.transpile_visits up right]
  | .unaryOp op expr, s => by
    simp only [Expression.visits, transpileAll_append, transpileAll_cons, transpileAll_nil,
      Visit.transpile, ← Expression.transpile_visits up expr]
    rfl

theorem Arguments.transpile_visits (up : List Node) :
    (as : Arguments) → (s : State) → as.transpile up s = transpileAll up as.visits s
  | .nil, _ => rfl
  | .cons head tail, s => by
    simp only [Arguments.visits, transpileAll_append, ← Expression.transpile_visits up head,
      ← Arguments.transpile_visits up tail]
    rfl

theorem Fields.transpile_visits (up : List Node) :
    (fs : Fields) → (s : State) → fs.transpile up s = transpileAll up fs.visits s
  | .nil, _ => rfl
  | .cons key value tail, s => by
    simp only [Fields.visits, transpileAll_append, transpileAll_cons, transpileAll_nil,
      Visit.transpile, ← Expression.transpile_visits up value, ← Fields.transpile_visits up tail,
      List.cons_append]
    rfl
end

/-- The visits of a store. -/
theorem LHS.transpile_storeVisits (up : List Node) (l : LHS) (s : State) :
    l.transpile up true s = transpileAll up l.storeVisits s := by
  cases l with
  | name => rfl
  | index base idx =>
    simp only [LHS.storeVisits, transpileAll_append, transpileAll_cons, transpileAll_nil,
      Visit.transpile, ← LHS.transpile_visits up base, ← Expression.transpile_visits up idx]
    rfl
  | field base field =>
    obtain ⟨code, hg, -⟩ := base.transpile_load up (s.insertName field)
    simp only [LHS.storeVisits, transpileAll_append, transpileAll_cons, transpileAll_nil,
      Visit.transpile, ← LHS.transpile_visits up base, List.cons_append]
    obtain ⟨hs, hi⟩ := @insertName_kept s ((base.transpile up false (s.insertName field)).output
      .swap) field hg.names
    rw [hs, hi]
    rfl

/-- A statement that has no body of its own. -/
def Statement.isSimple : Statement → Bool
  | .ifStatement _ _ _ | .whileLoop _ _ => false
  | _ => true

/-- Transpiling a statement without a body is the fold of its visits. -/
theorem Statement.transpile_visits (up : List Node) {st : Statement} (h : st.isSimple = true)
    (s : State) : st.transpile up s = transpileAll up st.visits s := by
  cases st with
  | assignment lhs expr =>
    simp only [Statement.visits, transpileAll_append, ← LHS.transpile_storeVisits up lhs,
      ← Expression.transpile_visits up expr]
    cases lhs with
    | _ => rfl
  | callStatement target arguments =>
    simp only [Statement.visits, transpileAll_append, transpileAll_cons, transpileAll_nil,
      Visit.transpile, ← LHS.transpile_visits up target, ← Arguments.transpile_visits up arguments]
    rfl
  | global => rfl
  | ret expr =>
    simp only [Statement.visits, transpileAll_append, transpileAll_cons, transpileAll_nil,
      Visit.transpile, ← Expression.transpile_visits up expr]
    rfl
  | ifStatement | whileLoop => cases h

/-! ## Names -/

namespace VisitsLemmas

/-- The five ways in which a name is visited. -/
theorem visitName_cases (isGlobal storing : Bool) (x : String) (s : State) :
    (x ∈ s.node.globals ∧ visitName isGlobal storing x s =
      s.output (if storing then .storeGlobal ((index s.node.function.names x).getD 0)
        else .loadGlobal ((index s.node.function.names x).getD 0))) ∨
    (x ∉ s.node.globals ∧ ∃ i, i < s.node.function.numReferences ∧
      visitName isGlobal storing x s =
        s.output (if storing then .storeReference i else .loadReference i)) ∨
    (x ∉ s.node.globals ∧ ∃ i, i < s.node.function.localVars.length ∧
      visitName isGlobal storing x s =
        s.output (if storing then .storeLocal i else .loadLocal i)) ∨
    (x ∉ s.node.globals ∧ (storing && isGlobal) = true ∧ visitName isGlobal storing x s =
      ((s.insertName x).modifyNode fun n => { n with globals := insert n.globals x }).output
        (.storeGlobal (s.nameIndex x))) ∨
    (x ∉ s.node.globals ∧ (storing && isGlobal) = false ∧ visitName isGlobal storing x s =
      ((s.insertName x).output (if storing then .pop else .loadConst 0)).output
        (.throwUninitialized (s.nameIndex x))) := by
  simp only [visitName]
  by_cases hg : x ∈ s.node.globals
  · exact .inl ⟨hg, by rw [if_pos hg]⟩
  refine .inr ?_
  simp only [if_neg hg]
  cases hfree : index s.node.function.freeVars x with
  | some i =>
    have hi := index_lt hfree
    exact .inl ⟨hg, _, by simp only [Function.numReferences]; omega, rfl⟩
  | none =>
    cases href : index s.node.function.localReferenceVars x with
    | some i =>
      have hi := index_lt href
      exact .inl ⟨hg, i, by simp only [Function.numReferences]; omega, rfl⟩
    | none =>
      cases hlocal : index s.node.function.localVars x with
      | some i => exact .inr (.inl ⟨hg, i, index_lt hlocal, rfl⟩)
      | none =>
        cases hs : storing && isGlobal with
        | true => exact .inr (.inr (.inl ⟨hg, rfl, rfl⟩))
        | false => exact .inr (.inr (.inr ⟨hg, rfl, rfl⟩))

end VisitsLemmas

/-! ## Invariants of the compiler's state -/

/-- A property of the state that the visits and the code around bodies keep. -/
structure KeptByVisits (up : List Node) (P : State → Prop) : Prop where
  visit : ∀ (v : Visit) s, P s → P (v.transpile up s)
  goto : ∀ l s, P s → P (s.output (.goto l))
  ifTrue : ∀ l s, P s → P (s.output (.ifTrue l))
  label : ∀ l s, P s → P (s.outputLabel l)
  labelNum : ∀ n s, P s → P { s with labelNum := n }

namespace KeptByVisits

variable {up : List Node} {P : State → Prop}

theorem all (h : KeptByVisits up P) (vs : List Visit) {s : State} (hs : P s) :
    P (transpileAll up vs s) := by
  induction vs generalizing s with
  | nil => exact hs
  | cons v vs ih => exact ih (h.visit v s hs)

theorem expression (h : KeptByVisits up P) (e : Expression) {s : State} (hs : P s) :
    P (e.transpile up s) := by
  rw [e.transpile_visits up]
  exact h.all e.visits hs

theorem simple (h : KeptByVisits up P) (st : Statement) (hst : st.isSimple = true) {s : State}
    (hs : P s) : P (st.transpile up s) := by
  rw [Statement.transpile_visits up hst]
  exact h.all st.visits hs

end KeptByVisits

mutual
theorem Statement.transpile_keeps {up : List Node} {P : State → Prop} (h : KeptByVisits up P) :
    (st : Statement) → (s : State) → P s → P (st.transpile up s)
  | .ifStatement cond thenBlock elseBlock, s, hs => by
    have h₁ := h.ifTrue s.labelNum _ (h.expression cond (h.labelNum (s.labelNum + 3) s hs))
    have h₂ := h.label s.labelNum _ (h.goto (s.labelNum + 1) _ h₁)
    have h₃ := h.goto (s.labelNum + 2) _ (thenBlock.transpile_keeps h _ h₂)
    have h₄ := elseBlock.transpile_keeps h _ (h.label (s.labelNum + 1) _ h₃)
    exact h.label (s.labelNum + 2) _ h₄
  | .whileLoop cond body, s, hs => by
    have h₁ := h.label s.labelNum _ (h.labelNum (s.labelNum + 3) s hs)
    have h₂ := h.expression cond (h.visit (.output .garbageCollect rfl) _ h₁)
    have h₃ := h.goto (s.labelNum + 2) _ (h.ifTrue (s.labelNum + 1) _ h₂)
    have h₄ := body.transpile_keeps h _ (h.label (s.labelNum + 1) _ h₃)
    exact h.label (s.labelNum + 2) _ (h.goto s.labelNum _ h₄)
  | .assignment lhs expr, _, hs => h.simple (.assignment lhs expr) rfl hs
  | .callStatement target arguments, _, hs => h.simple (.callStatement target arguments) rfl hs
  | .global x, _, hs => h.simple (.global x) rfl hs
  | .ret expr, _, hs => h.simple (.ret expr) rfl hs

theorem Block.transpile_keeps {up : List Node} {P : State → Prop} (h : KeptByVisits up P) :
    (b : Block) → (s : State) → P s → P (b.transpile up s)
  | .nil, _, hs => hs
  | .cons head tail, _, hs => tail.transpile_keeps h _ (head.transpile_keeps h _ hs)
end

end Beaverc

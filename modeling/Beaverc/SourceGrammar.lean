import Beaverc.Ast
import Beaverc.StringEscapes

/-!
# The grammar of the source language

The productions of `parser.yy`, with the trees that their actions build. Every
action is the constructor of a tree, except that a block and the arguments of a
call are extended at the end, and that `record.insert` puts a field whose key is
there already into its old place.

`Measure` is a sum over a tree, of what its tokens would add. The tokens of a
text that is parsed add at least as much (`measure_le`), and just as much if no
field of a record was lost (`measure_eq`).
-/

namespace Beaverc

/-- `Block::Append`. -/
def Block.append : Block → Statement → Block
  | .nil, s => .cons s .nil
  | .cons head tail, s => .cons head (tail.append s)

/-- `push_back` on the arguments of a call. -/
def Arguments.append : Arguments → Expression → Arguments
  | .nil, e => .cons e .nil
  | .cons head tail, e => .cons head (tail.append e)

/-- `insert` of the `OrderedMap` of a record. -/
def Fields.insert : Fields → String → Expression → Fields
  | .nil, key, value => .cons key value .nil
  | .cons k v tail, key, value =>
    if k = key then .cons k value tail else .cons k v (tail.insert key value)

namespace Source

/-! ## Productions -/

/-- The nonterminals. The kinds of statements, of constants and of argument lists are
in the productions of what they are alternatives of. -/
inductive Nonterminal where
  | program | block | statementList | statement | elseBlock
  | expression | boolean | conjunction | boolUnit | predicate | arithmetic | product
  | unit | positiveUnit | lhs | call | argList | fullArgList | nameList | recordContents
deriving DecidableEq, Repr

/-- The values of the nonterminals. -/
inductive Tree where
  | block (b : Block)
  | statement (s : Statement)
  | expression (e : Expression)
  | lhs (l : LHS)
  | call (target : LHS) (arguments : Arguments)
  | arguments (a : Arguments)
  | names (xs : List String)
  | fields (fs : Fields)

/-- `Program` and `StatementList` have the same productions. -/
def Nonterminal.isStatements (n : Nonterminal) : Bool :=
  n = .program || n = .statementList

/-- The next level of expressions, without an operator in between. -/
def Nonterminal.next : Nonterminal → Option Nonterminal
  | .expression => some .boolean
  | .boolean => some .conjunction
  | .conjunction => some .boolUnit
  | .boolUnit => some .predicate
  | .predicate => some .arithmetic
  | .arithmetic => some .product
  | .product => some .unit
  | .unit => some .positiveUnit
  | _ => none

end Source

namespace BinOpSym
open Source

/-- The nonterminal of the left operand, and of the whole. -/
def left : BinOpSym → Nonterminal
  | .or => .boolean
  | .and => .conjunction
  | .lt | .lte | .gt | .gte | .eq => .predicate
  | .plus | .minus => .arithmetic
  | .mul | .div => .product

/-- The nonterminal of the right operand. -/
def right : BinOpSym → Nonterminal
  | .or => .conjunction
  | .and => .boolUnit
  | .lt | .lte | .gt | .gte | .eq => .arithmetic
  | .plus | .minus => .product
  | .mul | .div => .unit

def token : BinOpSym → Token
  | .or => .or
  | .and => .and
  | .lt => .lt
  | .lte => .lte
  | .gt => .gt
  | .gte => .gte
  | .eq => .eq
  | .plus => .plus
  | .minus => .minus
  | .mul => .mul
  | .div => .div

end BinOpSym

namespace Source

/-- The tokens are derived from the nonterminal, and the actions give the tree. -/
inductive Derives : Nonterminal → List Token → Tree → Prop
  | noStatement {n : Nonterminal} : n.isStatements = true → Derives n [] (.block .nil)
  | statements {n : Nonterminal} {ts us : List Token} {b : Block} {s : Statement} :
      n.isStatements = true → Derives n ts (.block b) → Derives .statement us (.statement s) →
      Derives n (ts ++ us) (.block (b.append s))
  | block {ts : List Token} {b : Block} : Derives .statementList ts (.block b) →
      Derives .block (.char '\x7b' :: (ts ++ [.char '\x7d'])) (.block b)
  | assignment {ts us : List Token} {l : LHS} {e : Expression} : Derives .lhs ts (.lhs l) →
      Derives .expression us (.expression e) →
      Derives .statement (ts ++ .char '=' :: (us ++ [.char ';'])) (.statement (.assignment l e))
  | callStatement {ts : List Token} {l : LHS} {a : Arguments} : Derives .call ts (.call l a) →
      Derives .statement (ts ++ [.char ';']) (.statement (.callStatement l a))
  | global (x : List Char) :
      Derives .statement [.keyword .global, .name x, .char ';']
        (.statement (.global (String.ofList x)))
  | ifStatement {ts us vs : List Token} {e : Expression} {b c : Block} :
      Derives .expression ts (.expression e) → Derives .block us (.block b) →
      Derives .elseBlock vs (.block c) →
      Derives .statement (.keyword .if :: .char '(' :: (ts ++ .char ')' :: (us ++ vs)))
        (.statement (.ifStatement e b c))
  | elseBlock {ts : List Token} {b : Block} : Derives .block ts (.block b) →
      Derives .elseBlock (.keyword .else :: ts) (.block b)
  | noElse : Derives .elseBlock [] (.block .nil)
  | whileLoop {ts us : List Token} {e : Expression} {b : Block} :
      Derives .expression ts (.expression e) → Derives .block us (.block b) →
      Derives .statement (.keyword .while :: .char '(' :: (ts ++ .char ')' :: us))
        (.statement (.whileLoop e b))
  | ret {ts : List Token} {e : Expression} : Derives .expression ts (.expression e) →
      Derives .statement (.keyword .return :: (ts ++ [.char ';'])) (.statement (.ret e))
  | function {ts us : List Token} {xs : List String} {b : Block} :
      Derives .nameList ts (.names xs) → Derives .block us (.block b) →
      Derives .expression (.keyword .fun :: .char '(' :: (ts ++ .char ')' :: us))
        (.expression (.function xs b))
  | record {ts : List Token} {fs : Fields} : Derives .recordContents ts (.fields fs) →
      Derives .expression (.char '\x7b' :: (ts ++ [.char '\x7d'])) (.expression (.record fs))
  | next {n m : Nonterminal} {ts : List Token} {e : Expression} : n.next = some m →
      Derives m ts (.expression e) → Derives n ts (.expression e)
  | binaryOp (op : BinOpSym) {ts us : List Token} {l r : Expression} :
      Derives op.left ts (.expression l) → Derives op.right us (.expression r) →
      Derives op.left (ts ++ op.token :: us) (.expression (.binaryOp op l r))
  | not {ts : List Token} {e : Expression} : Derives .predicate ts (.expression e) →
      Derives .boolUnit (.not :: ts) (.expression (.unaryOp .not e))
  | neg {ts : List Token} {e : Expression} : Derives .positiveUnit ts (.expression e) →
      Derives .unit (.minus :: ts) (.expression (.unaryOp .neg e))
  | ofLHS {ts : List Token} {l : LHS} : Derives .lhs ts (.lhs l) →
      Derives .positiveUnit ts (.expression (.lhs l))
  | int (i : Int) : Derives .positiveUnit [.int i] (.expression (.intConst i))
  | str (s : List Char) :
      Derives .positiveUnit [.str s]
        (.expression (.strConst (String.ofList (stringConstant s))))
  | bool (b : Bool) : Derives .positiveUnit [.bool b] (.expression (.boolConst b))
  | none : Derives .positiveUnit [.none] (.expression .nullConst)
  | ofCall {ts : List Token} {l : LHS} {a : Arguments} : Derives .call ts (.call l a) →
      Derives .positiveUnit ts (.expression (.call l a))
  | parens {ts : List Token} {e : Expression} : Derives .boolean ts (.expression e) →
      Derives .positiveUnit (.char '(' :: (ts ++ [.char ')'])) (.expression e)
  | name (x : List Char) : Derives .lhs [.name x] (.lhs (.name (String.ofList x)))
  | field {ts : List Token} {l : LHS} (x : List Char) : Derives .lhs ts (.lhs l) →
      Derives .lhs (ts ++ [.char '.', .name x]) (.lhs (.field l (String.ofList x)))
  | index {ts us : List Token} {l : LHS} {e : Expression} : Derives .lhs ts (.lhs l) →
      Derives .expression us (.expression e) →
      Derives .lhs (ts ++ .char '[' :: (us ++ [.char ']'])) (.lhs (.index l e))
  | call {ts us : List Token} {l : LHS} {a : Arguments} : Derives .lhs ts (.lhs l) →
      Derives .argList us (.arguments a) →
      Derives .call (ts ++ .char '(' :: (us ++ [.char ')'])) (.call l a)
  | noArgument : Derives .argList [] (.arguments .nil)
  | someArguments {ts : List Token} {a : Arguments} : Derives .fullArgList ts (.arguments a) →
      Derives .argList ts (.arguments a)
  | argument {ts : List Token} {e : Expression} : Derives .expression ts (.expression e) →
      Derives .fullArgList ts (.arguments (.cons e .nil))
  | arguments {ts us : List Token} {a : Arguments} {e : Expression} :
      Derives .fullArgList ts (.arguments a) → Derives .expression us (.expression e) →
      Derives .fullArgList (ts ++ .char ',' :: us) (.arguments (a.append e))
  | noName : Derives .nameList [] (.names [])
  | names {ts : List Token} {xs : List String} (x : List Char) :
      Derives .nameList ts (.names xs) →
      Derives .nameList (ts ++ [.name x]) (.names (xs ++ [String.ofList x]))
  | noField : Derives .recordContents [] (.fields .nil)
  | fields {ts us : List Token} {fs : Fields} (x : List Char) {e : Expression} :
      Derives .recordContents ts (.fields fs) → Derives .expression us (.expression e) →
      Derives .recordContents (ts ++ .name x :: .char ':' :: (us ++ [.char ';']))
        (.fields (fs.insert (String.ofList x) e))

/-- The text is parsed to the program. -/
def Parses (text : List Char) (prog : Program) : Prop :=
  Derives .program (lex text) (.block prog)

/-! ## Measures -/

/-- What the pieces of a tree add to a sum. -/
structure Measure where
  name : String → Nat := fun _ => 0
  str : String → Nat := fun _ => 0
  int : Int → Nat := fun _ => 0
  semicolon : Nat := 0
  minus : Nat := 0
  /-- for a record with fields -/
  record : Nat := 0

def Measure.names (m : Measure) : List String → Nat
  | [] => 0
  | x :: xs => m.name x + m.names xs

/-- The sum of two measures. -/
def Measure.add (m m' : Measure) : Measure where
  name x := m.name x + m'.name x
  str s := m.str s + m'.str s
  int i := m.int i + m'.int i
  semicolon := m.semicolon + m'.semicolon
  minus := m.minus + m'.minus
  record := m.record + m'.record

end Source

open Source

mutual
def LHS.measure (m : Measure) : LHS → Nat
  | .name x => m.name x
  | .index base index => base.measure m + index.measure m
  | .field base x => base.measure m + m.name x

def Expression.measure (m : Measure) : Expression → Nat
  | .lhs l => l.measure m
  | .call target arguments => target.measure m + arguments.measure m
  | .function arguments body => m.names arguments + body.measure m
  | .record .nil => 0
  | .record (.cons key value tail) =>
    m.record + (m.name key + value.measure m + m.semicolon + tail.measure m)
  | .boolConst _ => 0
  | .strConst value => m.str value
  | .intConst value => m.int value
  | .nullConst => 0
  | .binaryOp op left right =>
    left.measure m + (if op = .minus then m.minus else 0) + right.measure m
  | .unaryOp op expr => (if op = .neg then m.minus else 0) + expr.measure m

def Arguments.measure (m : Measure) : Arguments → Nat
  | .nil => 0
  | .cons head tail => head.measure m + tail.measure m

def Fields.measure (m : Measure) : Fields → Nat
  | .nil => 0
  | .cons key value tail => m.name key + value.measure m + m.semicolon + tail.measure m

def Statement.measure (m : Measure) : Statement → Nat
  | .assignment lhs expr => lhs.measure m + expr.measure m + m.semicolon
  | .callStatement target arguments => target.measure m + arguments.measure m + m.semicolon
  | .global x => m.name x + m.semicolon
  | .ifStatement cond thenBlock elseBlock =>
    cond.measure m + thenBlock.measure m + elseBlock.measure m
  | .whileLoop cond body => cond.measure m + body.measure m
  | .ret expr => expr.measure m + m.semicolon

def Block.measure (m : Measure) : Block → Nat
  | .nil => 0
  | .cons head tail => head.measure m + tail.measure m
end

namespace Source

def Tree.measure (m : Measure) : Tree → Nat
  | .block b => b.measure m
  | .statement s => s.measure m
  | .expression e => e.measure m
  | .lhs l => l.measure m
  | .call l a => l.measure m + a.measure m
  | .arguments a => a.measure m
  | .names xs => m.names xs
  | .fields fs => fs.measure m

/-- What a token adds to the measure of a tree. -/
def Token.measure (m : Measure) : Token → Nat
  | .name x => m.name (String.ofList x)
  | .str s => m.str (String.ofList (stringConstant s))
  | .int i => m.int i
  | .char c => if c = ';' then m.semicolon else 0
  | .minus => m.minus
  | _ => 0

def Measure.tokens (m : Measure) : List Token → Nat
  | [] => 0
  | t :: ts => t.measure m + m.tokens ts

namespace SourceGrammarLemmas

variable {m : Measure}

@[simp] theorem tokens_append (ts us : List Token) :
    m.tokens (ts ++ us) = m.tokens ts + m.tokens us := by
  induction ts with
  | nil => exact (Nat.zero_add _).symm
  | cons t ts ih => rw [List.cons_append, Measure.tokens, Measure.tokens, ih, Nat.add_assoc]

theorem names_append (xs : List String) (x : String) :
    m.names (xs ++ [x]) = m.names xs + m.name x := by
  induction xs with
  | nil => exact Nat.add_comm _ _
  | cons y xs ih => rw [List.cons_append, Measure.names, Measure.names, ih, Nat.add_assoc]

theorem measure_append_statement (b : Block) (s : Statement) :
    (b.append s).measure m = b.measure m + s.measure m := by
  cases b with
  | nil => exact Nat.add_comm _ _
  | cons head tail =>
    rw [Block.append, Block.measure, Block.measure, measure_append_statement tail s, Nat.add_assoc]

theorem measure_append_argument (a : Arguments) (e : Expression) :
    (a.append e).measure m = a.measure m + e.measure m := by
  cases a with
  | nil => exact Nat.add_comm _ _
  | cons head tail =>
    rw [Arguments.append, Arguments.measure, Arguments.measure, measure_append_argument tail e,
      Nat.add_assoc]

/-- A field whose key is there takes the place of the old one. -/
theorem measure_insert (fs : Fields) (key : String) (value : Expression) :
    (fs.insert key value).measure m ≤
      fs.measure m + (m.name key + value.measure m + m.semicolon) := by
  cases fs with
  | nil => exact Nat.le_of_eq (Nat.add_comm _ _)
  | cons k v tail =>
    rw [Fields.insert]
    split
    · next hk =>
      rw [Fields.measure, Fields.measure, hk]
      omega
    · have htail := measure_insert tail key value
      rw [Fields.measure, Fields.measure]
      omega

theorem measure_record (h : m.record = 0) (fs : Fields) :
    (Expression.record fs).measure m = fs.measure m := by
  cases fs with
  | nil => simp only [Expression.measure, Fields.measure]
  | cons key value tail => rw [Expression.measure, h, Nat.zero_add, Fields.measure]

theorem token_measure (op : BinOpSym) :
    op.token.measure m = if op = .minus then m.minus else 0 := by
  cases op <;> rfl

theorem names_add (m m' : Measure) (xs : List String) :
    (m.add m').names xs = m.names xs + m'.names xs := by
  induction xs with
  | nil => rfl
  | cons x xs ih =>
    rw [Measure.names, ih, Measure.names, Measure.names]
    exact Nat.add_add_add_comm ..

mutual
theorem lhs_add (m m' : Measure) (l : LHS) :
    l.measure (m.add m') = l.measure m + l.measure m' := by
  match l with
  | .name x => rfl
  | .index base index =>
    rw [LHS.measure, lhs_add m m' base, expression_add m m' index]
    exact Nat.add_add_add_comm ..
  | .field base x =>
    rw [LHS.measure, lhs_add m m' base]
    exact Nat.add_add_add_comm ..

theorem expression_add (m m' : Measure) (e : Expression) :
    e.measure (m.add m') = e.measure m + e.measure m' := by
  match e with
  | .lhs l => exact lhs_add m m' l
  | .call target arguments =>
    rw [Expression.measure, lhs_add m m' target, arguments_add m m' arguments]
    exact Nat.add_add_add_comm ..
  | .function arguments body =>
    rw [Expression.measure, names_add, block_add m m' body]
    exact Nat.add_add_add_comm ..
  | .record .nil | .boolConst _ | .strConst _ | .intConst _ | .nullConst => rfl
  | .record (.cons key value tail) =>
    rw [Expression.measure, expression_add m m' value, fields_add m m' tail, Expression.measure,
      Expression.measure]
    show m.record + m'.record + (m.name key + m'.name key + _ + (m.semicolon + m'.semicolon) + _) =
      _
    omega
  | .binaryOp op left right =>
    rw [Expression.measure, expression_add m m' left, expression_add m m' right,
      Expression.measure, Expression.measure]
    show _ + (if op = .minus then m.minus + m'.minus else 0) + _ = _
    split <;> omega
  | .unaryOp op expr =>
    rw [Expression.measure, expression_add m m' expr, Expression.measure, Expression.measure]
    show (if op = .neg then m.minus + m'.minus else 0) + _ = _
    split <;> omega

theorem arguments_add (m m' : Measure) (a : Arguments) :
    a.measure (m.add m') = a.measure m + a.measure m' := by
  match a with
  | .nil => rfl
  | .cons head tail =>
    rw [Arguments.measure, expression_add m m' head, arguments_add m m' tail]
    exact Nat.add_add_add_comm ..

theorem fields_add (m m' : Measure) (fs : Fields) :
    fs.measure (m.add m') = fs.measure m + fs.measure m' := by
  match fs with
  | .nil => rfl
  | .cons key value tail =>
    rw [Fields.measure, expression_add m m' value, fields_add m m' tail, Fields.measure,
      Fields.measure]
    show m.name key + m'.name key + _ + (m.semicolon + m'.semicolon) + _ = _
    omega

theorem statement_add (m m' : Measure) (s : Statement) :
    s.measure (m.add m') = s.measure m + s.measure m' := by
  match s with
  | .assignment lhs expr =>
    rw [Statement.measure, lhs_add m m' lhs, expression_add m m' expr, Nat.add_add_add_comm]
    exact Nat.add_add_add_comm ..
  | .callStatement target arguments =>
    rw [Statement.measure, lhs_add m m' target, arguments_add m m' arguments,
      Nat.add_add_add_comm]
    exact Nat.add_add_add_comm ..
  | .global x => exact Nat.add_add_add_comm ..
  | .ifStatement cond thenBlock elseBlock =>
    rw [Statement.measure, expression_add m m' cond, block_add m m' thenBlock,
      block_add m m' elseBlock, Statement.measure, Statement.measure]
    omega
  | .whileLoop cond body =>
    rw [Statement.measure, expression_add m m' cond, block_add m m' body]
    exact Nat.add_add_add_comm ..
  | .ret expr =>
    rw [Statement.measure, expression_add m m' expr]
    exact Nat.add_add_add_comm ..

theorem block_add (m m' : Measure) (b : Block) :
    b.measure (m.add m') = b.measure m + b.measure m' := by
  match b with
  | .nil => rfl
  | .cons head tail =>
    rw [Block.measure, statement_add m m' head, block_add m m' tail]
    exact Nat.add_add_add_comm ..
end

/-- The tokens have the measure `k`, or more if there is a colon among them: the
fields of a record come with colons, and one that is replaced is lost. -/
structure Counted (m : Measure) (ts : List Token) (k : Nat) : Prop where
  le : k ≤ m.tokens ts
  eq : .char ':' ∉ ts → k = m.tokens ts

namespace Counted

variable {ts us : List Token} {j k : Nat}

theorem nil : Counted m [] 0 :=
  ⟨Nat.le_refl 0, fun _ => rfl⟩

theorem cons (t : Token) (h : Counted m ts k) : Counted m (t :: ts) (t.measure m + k) :=
  ⟨Nat.add_le_add_left h.le _, fun hc => by
    rw [Measure.tokens, h.eq fun hm => hc (List.mem_cons_of_mem t hm)]⟩

theorem append (h : Counted m ts j) (h' : Counted m us k) : Counted m (ts ++ us) (j + k) := by
  refine ⟨?_, fun hc => ?_⟩
  · rw [tokens_append]
    exact Nat.add_le_add h.le h'.le
  · rw [tokens_append, h.eq fun hm => hc (List.mem_append_left us hm),
      h'.eq fun hm => hc (List.mem_append_right ts hm)]

theorem of_eq (h : Counted m ts j) (he : k = j) : Counted m ts k :=
  he ▸ h

theorem silent {t : Token} (h : Counted m ts k) (ht : t.measure m = 0) : Counted m (t :: ts) k :=
  (h.cons t).of_eq (by rw [ht, Nat.zero_add])

theorem snoc (h : Counted m ts k) (t : Token) : Counted m (ts ++ [t]) (k + t.measure m) :=
  h.append (nil.cons t)

theorem closed {t : Token} (h : Counted m ts k) (ht : t.measure m = 0) :
    Counted m (ts ++ [t]) k :=
  (h.snoc t).of_eq (by rw [ht, Nat.add_zero])

end Counted

open Counted

/-- The induction over a derivation, one case for each production. -/
theorem counted_derives (hm : m.record = 0) {n : Nonterminal} {ts : List Token} {v : Tree}
    (h : Derives n ts v) : Counted m ts (v.measure m) := by
  induction h with
  | noStatement _ | noElse | noArgument | noName | noField => exact nil
  | int | str | bool | none | name => exact nil.cons _
  | statements _ _ _ ihb ihs => exact (ihb.append ihs).of_eq (measure_append_statement ..)
  | block _ ih | parens _ ih => exact (ih.closed rfl).silent rfl
  | record _ ih => exact ((ih.closed rfl).silent rfl).of_eq (measure_record hm _)
  | assignment _ _ ihl ihe =>
    exact (ihl.append ((ihe.snoc (.char ';')).silent rfl)).of_eq (Nat.add_assoc ..)
  | callStatement _ ih => exact ih.snoc (.char ';')
  | global x => exact ((nil.cons (.char ';')).cons (.name x)).silent rfl
  | ifStatement _ _ _ ihe ihb ihc =>
    have hrest := ihe.append ((ihb.append ihc).silent (t := .char ')') rfl)
    exact ((hrest.silent rfl).silent rfl).of_eq (Nat.add_assoc ..)
  | elseBlock _ ih => exact ih.silent rfl
  | whileLoop _ _ ih ihb | function _ _ ih ihb =>
    exact ((ih.append (ihb.silent rfl)).silent rfl).silent rfl
  | ret _ ih => exact (ih.snoc (.char ';')).silent rfl
  | next _ _ ih | ofLHS _ ih | ofCall _ ih | someArguments _ ih => exact ih
  | binaryOp op _ _ ihl ihr =>
    refine (ihl.append (ihr.cons op.token)).of_eq ?_
    rw [token_measure, ← Nat.add_assoc]
    rfl
  | not _ ih => exact (ih.silent rfl).of_eq (Nat.zero_add _)
  | neg _ ih => exact ih.cons .minus
  | field x _ ih => exact ih.append ((nil.cons (.name x)).silent rfl)
  | index _ _ ih ihe | call _ _ ih ihe => exact ih.append ((ihe.closed rfl).silent rfl)
  | argument _ ih => exact ih
  | arguments _ _ ih ihe =>
    exact (ih.append (ihe.silent rfl)).of_eq (measure_append_argument ..)
  | names x _ ih => exact (ih.snoc (.name x)).of_eq (names_append ..)
  | fields x _ _ ih ihe =>
    have hfield := ((ihe.snoc (.char ';')).silent (t := .char ':') rfl).cons (.name x)
    refine ⟨(measure_insert ..).trans ?_, fun hc => ?_⟩
    · rw [Nat.add_assoc]
      exact (ih.append hfield).le
    -- the tokens of a field have a colon among them
    · exact absurd (List.mem_append_right _ (List.mem_cons_of_mem _ List.mem_cons_self)) hc

end SourceGrammarLemmas

end Source

end Beaverc

import Beaverc.SourceGrammar
import Beaverc.Layout

/-!
# The pretty printer

`PrettyPrinter` prints both operands of an operator in parentheses, so operator
trees come back. Three kinds of constants do not: it writes no semicolon behind
the last field of a record, which the grammar asks for; it writes a string as it
is, without the escapes the lexer took away; and a negative integer, which a
literal of 2147483648 or more becomes, is written with a minus sign.
`prettyPrinted_iff` says that a program comes back if and only if none of the three
is in it.
-/

namespace Beaverc

/-! ## The printer -/

namespace PrettyPrinter

/-- The calls of the methods that write. -/
inductive Command where
  | print (msg : List Char)
  | println (msg : List Char)
  | nextline
  | indent
  | dedent

/-- The fields that the output depends on. -/
structure Printer where
  indentLevel : Nat := 0
  lineStarted : Bool := false

namespace Printer

/-- The spaces in front of a line that has not begun. -/
def indentation (s : Printer) : List Char :=
  if s.lineStarted then [] else List.replicate (2 * s.indentLevel) ' '

/-- What a call writes. -/
def written (s : Printer) : Command → List Char
  | .print msg => s.indentation ++ msg
  | .println msg => s.indentation ++ msg ++ ['\n']
  | .nextline => if s.lineStarted then ['\n'] else []
  | .indent | .dedent => []

def after (s : Printer) : Command → Printer
  | .print _ => { s with lineStarted := true }
  | .println _ | .nextline => { s with lineStarted := false }
  | .indent => { s with indentLevel := s.indentLevel + 1 }
  | .dedent => { s with indentLevel := s.indentLevel - 1 }

def run (s : Printer) : List Command → List Char
  | [] => []
  | c :: cs => s.written c ++ (s.after c).run cs

def afterAll (s : Printer) : List Command → Printer
  | [] => s
  | c :: cs => (s.after c).afterAll cs

end Printer

/-- A call of `print` with a fixed message. -/
abbrev say (msg : String) : Command :=
  .print msg.toList

/-- `visit(Block&)` for all blocks but the first. -/
def braces (statements : List Command) : List Command :=
  .println ['\x7b'] :: .indent :: (statements ++ [.dedent, .print ['\x7d']])

/-- What comes between parentheses. -/
def parens (cs : List Command) : List Command :=
  say "(" :: (cs ++ [say ")"])

/-- The `else` of a statement, if there is something in its block. -/
def elsePart (elseBlock : Block) (statements : List Command) : List Command :=
  match elseBlock with
  | .nil => []
  | .cons _ _ => say " else " :: braces statements

/-- The parameters of a function. -/
def visitNames (first : Bool) : List String → List Command
  | [] => []
  | x :: xs => (if first then [] else [say " "]) ++ say x :: visitNames false xs

end PrettyPrinter

open PrettyPrinter

/-- `opstring`. -/
def BinOpSym.opstring : BinOpSym → List Char
  | .or => ['|']
  | .and => ['&']
  | .lt => ['<']
  | .lte => ['<', '=']
  | .gt => ['>']
  | .gte => ['>', '=']
  | .eq => ['=', '=']
  | .plus => ['+']
  | .minus => ['-']
  | .mul => ['*']
  | .div => ['/']

def UnOpSym.opstring : UnOpSym → List Char
  | .not => ['!']
  | .neg => ['-']

mutual
def LHS.pretty : LHS → List Command
  | .name x => [say x]
  | .index base index => base.pretty ++ say "[" :: (index.pretty ++ [say "]"])
  | .field base x => base.pretty ++ [say ".", say x]

def Expression.pretty : Expression → List Command
  | .lhs l => l.pretty
  | .call target arguments => target.pretty ++ parens (arguments.pretty true)
  | .function arguments body =>
    say "fun(" :: (visitNames true arguments ++ say ") " :: braces body.pretty)
  | .record fields => .print ['\x7b'] :: (fields.pretty true ++ [.println ['\x7d']])
  | .boolConst value => [say (if value then "true" else "false")]
  | .strConst value => [.print ('"' :: (value.toList ++ ['"']))]
  | .intConst value => [.print (Text.printInt value)]
  | .nullConst => [say "None"]
  | .binaryOp op left right =>
    parens left.pretty ++ .print (' ' :: (op.opstring ++ [' '])) :: parens right.pretty
  | .unaryOp op expr => .print op.opstring :: parens expr.pretty

/-- The arguments of a call, with commas in front of all but the first. -/
def Arguments.pretty (first : Bool) : Arguments → List Command
  | .nil => []
  | .cons head tail => (if first then [] else [say ", "]) ++ (head.pretty ++ tail.pretty false)

/-- The fields of a record, with semicolons in front of all but the first. -/
def Fields.pretty (first : Bool) : Fields → List Command
  | .nil => []
  | .cons key value tail =>
    (if first then [] else [say "; "]) ++ say key :: say " : " ::
      (value.pretty ++ tail.pretty false)

def Statement.pretty : Statement → List Command
  | .assignment lhs expr => lhs.pretty ++ say " = " :: (expr.pretty ++ [.println [';']])
  | .callStatement target arguments =>
    target.pretty ++ parens (arguments.pretty true) ++ [.println [';']]
  | .global x => [say "global ", say x, .println [';']]
  | .ifStatement cond thenBlock elseBlock =>
    say "if (" :: (cond.pretty ++ say ") " :: (braces thenBlock.pretty ++
      elsePart elseBlock elseBlock.pretty ++ [.nextline]))
  | .whileLoop cond body =>
    say "while (" :: (cond.pretty ++ say ") " :: (braces body.pretty ++ [.nextline]))
  | .ret expr => say "return " :: (expr.pretty ++ [.println [';']])

/-- The statements of a block. -/
def Block.pretty : Block → List Command
  | .nil => []
  | .cons head tail => head.pretty ++ tail.pretty
end

/-- The text of a program: its block comes first and has no braces. -/
def PrettyPrinter.text (prog : Program) : List Char :=
  ({} : Printer).run prog.pretty

/-! ## The tokens that are meant -/

namespace PrettyPrinter
open Source

/-- The tokens of an integer. -/
def intTokens (i : Int) : List Token :=
  if i < 0 then [.minus, .int (Text.atoi false (Nat.toDigits 10 i.natAbs))] else [.int i]

def bracesTokens (ts : List Token) : List Token :=
  .char '\x7b' :: (ts ++ [.char '\x7d'])

def parensTokens (ts : List Token) : List Token :=
  .char '(' :: (ts ++ [.char ')'])

def elseTokens (elseBlock : Block) (ts : List Token) : List Token :=
  match elseBlock with
  | .nil => []
  | .cons _ _ => .keyword .else :: bracesTokens ts

def nameToken (x : String) : Token :=
  .name x.toList

end PrettyPrinter

open PrettyPrinter Source

def UnOpSym.token : UnOpSym → Token
  | .not => .not
  | .neg => .minus

mutual
def LHS.tokens : LHS → List Token
  | .name x => [nameToken x]
  | .index base index => base.tokens ++ .char '[' :: (index.tokens ++ [.char ']'])
  | .field base x => base.tokens ++ [.char '.', nameToken x]

def Expression.tokens : Expression → List Token
  | .lhs l => l.tokens
  | .call target arguments => target.tokens ++ parensTokens (arguments.tokens true)
  | .function arguments body =>
    .keyword .fun :: .char '(' :: (arguments.map nameToken ++ .char ')' ::
      bracesTokens body.tokens)
  | .record fields => bracesTokens (fields.tokens true)
  | .boolConst value => [.bool value]
  | .strConst value => [.str value.toList]
  | .intConst value => intTokens value
  | .nullConst => [.none]
  | .binaryOp op left right =>
    parensTokens left.tokens ++ op.token :: parensTokens right.tokens
  | .unaryOp op expr => op.token :: parensTokens expr.tokens

def Arguments.tokens (first : Bool) : Arguments → List Token
  | .nil => []
  | .cons head tail => (if first then [] else [.char ',']) ++ (head.tokens ++ tail.tokens false)

def Fields.tokens (first : Bool) : Fields → List Token
  | .nil => []
  | .cons key value tail =>
    (if first then [] else [.char ';']) ++ nameToken key :: .char ':' ::
      (value.tokens ++ tail.tokens false)

def Statement.tokens : Statement → List Token
  | .assignment lhs expr => lhs.tokens ++ .char '=' :: (expr.tokens ++ [.char ';'])
  | .callStatement target arguments =>
    target.tokens ++ parensTokens (arguments.tokens true) ++ [.char ';']
  | .global x => [.keyword .global, nameToken x, .char ';']
  | .ifStatement cond thenBlock elseBlock =>
    .keyword .if :: .char '(' :: (cond.tokens ++ .char ')' ::
      (bracesTokens thenBlock.tokens ++ elseTokens elseBlock elseBlock.tokens))
  | .whileLoop cond body =>
    .keyword .while :: .char '(' :: (cond.tokens ++ .char ')' :: bracesTokens body.tokens)
  | .ret expr => .keyword .return :: (expr.tokens ++ [.char ';'])

def Block.tokens : Block → List Token
  | .nil => []
  | .cons head tail => head.tokens ++ tail.tokens
end

namespace PrettyPrinter

/-! ## What does not come back -/

/-- Quotes come directly behind a backslash, and backslashes before a quote. -/
def quotesEscaped : List Char → Bool
  | [] => true
  | [c] => c ≠ '"' && c ≠ '\\'
  | c :: d :: rest =>
    if c = '\\' then d = '"' && quotesEscaped rest else c ≠ '"' && quotesEscaped (d :: rest)

/-- The records with fields, the negative integers and the strings in which quotes and
backslashes do not come together. -/
def defects : Measure :=
  { str := fun value => if quotesEscaped value.toList then 0 else 1
    int := fun value => if value < 0 then 1 else 0
    record := 1 }

/-- What is printed is parsed to the same tree. -/
def RoundTrips (prog : Program) : Prop :=
  Parses (text prog) prog

/-! ## Derivations of the tokens -/

namespace PrettyPrinterLemmas

/-- `boolean` for the levels of expressions below it. -/
def top : Nonterminal → Nonterminal
  | .conjunction | .boolUnit | .predicate | .arithmetic | .product | .unit | .positiveUnit =>
    .boolean
  | n => n

/-- The tokens of a tree where it is derived from `n`. -/
def treeTokens (n : Nonterminal) : Tree → List Token
  | .block b =>
    match n with
    | .block => bracesTokens b.tokens
    | .elseBlock => elseTokens b b.tokens
    | _ => b.tokens
  | .statement s => s.tokens
  | .expression e => e.tokens
  | .lhs l => l.tokens
  | .call target arguments => target.tokens ++ parensTokens (arguments.tokens true)
  | .arguments a => a.tokens true
  | .names xs => xs.map nameToken
  | .fields fs => fs.tokens true

theorem derives_boolean {n : Nonterminal} {ts : List Token} {e : Expression} (hn : top n = .boolean)
    (h : Derives n ts (.expression e)) : Derives .boolean ts (.expression e) := by
  have hproduct (h : Derives .product ts (.expression e)) :
      Derives .boolean ts (.expression e) :=
    .next rfl (.next rfl (.next rfl (.next rfl (.next rfl h))))
  cases n with
  | boolean => exact h
  | conjunction => exact .next rfl h
  | boolUnit => exact .next rfl (.next rfl h)
  | predicate => exact .next rfl (.next rfl (.next rfl h))
  | arithmetic => exact .next rfl (.next rfl (.next rfl (.next rfl h)))
  | product => exact hproduct h
  | unit => exact hproduct (.next rfl h)
  | positiveUnit => exact hproduct (.next rfl (.next rfl h))
  | _ => cases hn

theorem derives_of_positiveUnit {n : Nonterminal} {ts : List Token} {e : Expression}
    (hn : top n = .boolean) (h : Derives .positiveUnit ts (.expression e)) :
    Derives n ts (.expression e) := by
  have harithmetic : Derives .arithmetic ts (.expression e) :=
    .next rfl (.next rfl (.next rfl h))
  cases n with
  | boolean => exact .next rfl (.next rfl (.next rfl (.next rfl harithmetic)))
  | conjunction => exact .next rfl (.next rfl (.next rfl harithmetic))
  | boolUnit => exact .next rfl (.next rfl harithmetic)
  | predicate => exact .next rfl harithmetic
  | arithmetic => exact harithmetic
  | product => exact .next rfl (.next rfl h)
  | unit => exact .next rfl h
  | positiveUnit => exact h
  | _ => cases hn

theorem tokens_append_statement (b : Block) (s : Statement) :
    (b.append s).tokens = b.tokens ++ s.tokens := by
  cases b with
  | nil => exact List.append_nil _
  | cons head tail =>
    rw [Block.append, Block.tokens, Block.tokens, tokens_append_statement tail s,
      List.append_assoc]

theorem tokens_append_argument {a : Arguments} (ha : a ≠ .nil) (first : Bool) (e : Expression) :
    (a.append e).tokens first = a.tokens first ++ .char ',' :: e.tokens := by
  match a with
  | .nil => exact absurd rfl ha
  | .cons head .nil => simp [Arguments.append, Arguments.tokens]
  | .cons head (.cons second tail) =>
    have ih := tokens_append_argument (a := .cons second tail) Arguments.noConfusion false e
    rw [Arguments.append, Arguments.tokens, Arguments.tokens, ih, List.append_assoc,
      List.append_assoc]

/-- A list of arguments that is not empty. -/
theorem some_of_fullArgList {n : Nonterminal} {ts : List Token} {v : Tree} (h : Derives n ts v) :
    n = .fullArgList → ∀ a, v = .arguments a → a ≠ .nil := by
  induction h with
  | @argument ts e h =>
    rintro - a ha rfl
    cases ha
  | @arguments ts us a e h =>
    rintro - b hb rfl
    cases a with
    | nil => cases hb
    | cons head tail => cases hb
  | noArgument | someArguments =>
    intro hn
    cases hn
  | _ =>
    intro _ a ha
    cases ha

theorem quotesEscaped_quote (rest : List Char) :
    quotesEscaped ('\\' :: '"' :: rest) = quotesEscaped rest := by
  rw [quotesEscaped, if_pos rfl]
  exact Bool.true_and _

theorem quotesEscaped_plain {c : Char} (hq : c ≠ '"') (hb : c ≠ '\\') (rest : List Char) :
    quotesEscaped (c :: rest) = quotesEscaped rest := by
  cases rest with
  | nil => simp [quotesEscaped, hq, hb]
  | cons d rest => simp [quotesEscaped, hq, hb]

/-- How a string with escaped quotes begins. -/
theorem escaped_cases {motive : List Char → Prop} (nil : motive [])
    (quote : ∀ rest, motive rest → motive ('\\' :: '"' :: rest))
    (plain : ∀ c rest, c ≠ '"' → c ≠ '\\' → motive rest → motive (c :: rest)) {s : List Char}
    (h : quotesEscaped s = true) : motive s := by
  fun_induction quotesEscaped s with
  | case1 => exact nil
  | case2 c =>
    rw [Bool.and_eq_true, decide_eq_true_eq, decide_eq_true_eq] at h
    exact plain c [] h.1 h.2 nil
  | case3 d rest ih =>
    rw [Bool.and_eq_true, decide_eq_true_eq] at h
    obtain ⟨rfl, h⟩ := h
    exact quote rest (ih h)
  | case4 c d rest hc ih =>
    rw [Bool.and_eq_true, decide_eq_true_eq] at h
    exact plain c (d :: rest) h.1 hc (ih h.2)

/-- The decoder keeps a string whose quotes are escaped. -/
theorem stringConstant_of_escaped {s : List Char} (h : quotesEscaped s = true) :
    stringConstant s = s := by
  rw [StringEscapesLemmas.stringConstant_eq]
  refine escaped_cases (motive := fun s => decode s = s) rfl (fun rest ih => ?_)
    (fun c rest _ hb ih => ?_) h
  · rw [decode, if_pos rfl, if_neg (by decide), if_neg (by decide), if_neg (by decide), ih]
  · rw [StringEscapesLemmas.decode_plain hb, ih]

theorem isBody_of_escaped {s : List Char} (h : quotesEscaped s = true) : IsBody s :=
  escaped_cases .nil (fun _ ih => .escape rfl ih) (fun _ _ hq hb ih => .plain hq hb ih) h

theorem treeTokens_statements {n : Nonterminal} (hn : n.isStatements = true) (b : Block) :
    top n = n ∧ treeTokens n (.block b) = b.tokens := by
  cases n with
  | program | statementList => exact ⟨rfl, rfl⟩
  | _ => cases hn

theorem nameToken_ofList (x : List Char) : nameToken (String.ofList x) = .name x := by
  rw [nameToken, String.toList_ofList]

/-- The measure of a tree whose fields are those of a record. -/
def treeCost (m : Measure) : Tree → Nat
  | .fields fs => (Expression.record fs).measure m
  | v => v.measure m

theorem insert_ne_nil (fs : Fields) (key : String) (value : Expression) :
    fs.insert key value ≠ .nil := by
  cases fs with
  | nil => exact Fields.noConfusion
  | cons k v tail =>
    rw [Fields.insert]
    split
    · exact Fields.noConfusion
    · exact Fields.noConfusion

/-- Without defects the tokens meant are derived as the tree was, with parentheses. -/
theorem derives_tokens {n : Nonterminal} {ts : List Token} {v : Tree} (h : Derives n ts v)
    (hd : treeCost defects v = 0) : Derives (top n) (treeTokens n v) v := by
  induction h with
  | @noStatement n hn =>
    rw [(treeTokens_statements hn .nil).1, (treeTokens_statements hn .nil).2]
    exact .noStatement hn
  | @statements n ts us b s hn _ _ ihb ihs =>
    have hboth : b.measure defects + s.measure defects = 0 :=
      (SourceGrammarLemmas.measure_append_statement b s).symm.trans hd
    obtain ⟨hb, hs⟩ := Nat.add_eq_zero_iff.mp hboth
    have hfirst := ihb hb
    rw [(treeTokens_statements hn b).1, (treeTokens_statements hn b).2] at hfirst
    rw [(treeTokens_statements hn (b.append s)).1, (treeTokens_statements hn (b.append s)).2,
      tokens_append_statement]
    exact .statements hn hfirst (ihs hs)
  | block _ ih => exact .block (ih hd)
  | assignment _ _ ihl ihe =>
    obtain ⟨hle, -⟩ := Nat.add_eq_zero_iff.mp hd
    obtain ⟨hl, he⟩ := Nat.add_eq_zero_iff.mp hle
    exact .assignment (ihl hl) (ihe he)
  | callStatement _ ih => exact .callStatement (ih hd)
  | global x =>
    show Derives _ [.keyword .global, nameToken (String.ofList x), .char ';'] _
    rw [nameToken_ofList]
    exact .global x
  | @ifStatement ts us vs e b c _ _ _ ihe ihb ihc =>
    obtain ⟨heb, hc⟩ := Nat.add_eq_zero_iff.mp hd
    obtain ⟨he, hb⟩ := Nat.add_eq_zero_iff.mp heb
    exact .ifStatement (ihe he) (ihb hb) (ihc hc)
  | @elseBlock ts b _ ih =>
    have hblock := ih hd
    cases b with
    | nil => exact .noElse
    | cons head tail => exact .elseBlock hblock
  | noElse => exact .noElse
  | whileLoop _ _ ihe ihb =>
    obtain ⟨he, hb⟩ := Nat.add_eq_zero_iff.mp hd
    exact .whileLoop (ihe he) (ihb hb)
  | ret _ ih => exact .ret (ih hd)
  | function _ _ ihx ihb =>
    obtain ⟨hx, hb⟩ := Nat.add_eq_zero_iff.mp hd
    exact .function (ihx hx) (ihb hb)
  | record _ ih => exact .record (ih hd)
  | @next n m ts e hn _ ih =>
    cases n with
    | expression =>
      cases hn
      exact .next rfl (ih hd)
    | boolean | conjunction | boolUnit | predicate | arithmetic | product | unit =>
      cases hn
      exact ih hd
    | _ => cases hn
  | binaryOp op _ _ ihl ihr =>
    obtain ⟨hl, hr⟩ := Nat.add_eq_zero_iff.mp hd
    have hleft : top op.left = .boolean := by cases op <;> rfl
    have hright : top op.right = .boolean := by cases op <;> rfl
    have hl' := ihl (Nat.add_eq_zero_iff.mp hl).1
    have hr' := ihr hr
    rw [hleft] at hl' ⊢
    rw [hright] at hr'
    exact derives_boolean hleft (.binaryOp op (derives_of_positiveUnit hleft (.parens hl'))
      (derives_of_positiveUnit hright (.parens hr')))
  | not _ ih =>
    have he := ih (Nat.add_eq_zero_iff.mp hd).2
    exact derives_boolean (n := .boolUnit) rfl
      (.not (derives_of_positiveUnit (n := .predicate) rfl (.parens he)))
  | neg _ ih =>
    have he := ih (Nat.add_eq_zero_iff.mp hd).2
    exact derives_boolean (n := .unit) rfl (.neg (.parens he))
  | ofLHS _ ih => exact derives_boolean (n := .positiveUnit) rfl (.ofLHS (ih hd))
  | int i =>
    -- a negative constant would be printed with its sign, another tree
    have hi : ¬ i < 0 := fun hneg => by
      have hone : (if i < 0 then 1 else 0) = 0 := hd
      rw [if_pos hneg] at hone
      cases hone
    show Derives .boolean (intTokens i) _
    rw [intTokens, if_neg hi]
    exact derives_boolean (n := .positiveUnit) rfl (.int i)
  | str s =>
    have hescaped : quotesEscaped (stringConstant s) = true := by
      by_contra hne
      have hone : (if quotesEscaped (String.ofList (stringConstant s)).toList then 0 else 1) = 0 :=
        hd
      rw [String.toList_ofList, if_neg hne] at hone
      cases hone
    have hstr := Derives.str (stringConstant s)
    rw [stringConstant_of_escaped hescaped] at hstr
    show Derives .boolean [.str (String.ofList (stringConstant s)).toList] _
    rw [String.toList_ofList]
    exact derives_boolean (n := .positiveUnit) rfl hstr
  | bool b => exact derives_boolean (n := .positiveUnit) rfl (.bool b)
  | none => exact derives_boolean (n := .positiveUnit) rfl .none
  | ofCall _ ih => exact derives_boolean (n := .positiveUnit) rfl (.ofCall (ih hd))
  -- the tree does not keep the parentheses of the text
  | parens _ ih => exact ih hd
  | name x =>
    show Derives _ [nameToken (String.ofList x)] _
    rw [nameToken_ofList]
    exact .name x
  | @field ts l x _ ih =>
    show Derives _ (l.tokens ++ [.char '.', nameToken (String.ofList x)]) _
    rw [nameToken_ofList]
    exact .field x (ih hd)
  | index _ _ ihl ihe =>
    obtain ⟨hl, he⟩ := Nat.add_eq_zero_iff.mp hd
    exact .index (ihl hl) (ihe he)
  | call _ _ ihl iha =>
    obtain ⟨hl, ha⟩ := Nat.add_eq_zero_iff.mp hd
    exact .call (ihl hl) (iha ha)
  | noArgument => exact .noArgument
  | someArguments _ ih => exact .someArguments (ih hd)
  | @argument ts e _ ih =>
    show Derives _ ([] ++ (e.tokens ++ [])) _
    rw [List.nil_append, List.append_nil]
    exact .argument (ih hd)
  | @arguments ts us a e ha _ iha ihe =>
    have hboth : a.measure defects + e.measure defects = 0 :=
      (SourceGrammarLemmas.measure_append_argument a e).symm.trans hd
    obtain ⟨hda, hde⟩ := Nat.add_eq_zero_iff.mp hboth
    show Derives _ ((a.append e).tokens true) _
    rw [tokens_append_argument (some_of_fullArgList ha rfl a rfl)]
    exact .arguments (iha hda) (ihe hde)
  | noName => exact .noName
  | @names ts xs x _ ih =>
    show Derives _ ((xs ++ [String.ofList x]).map nameToken) _
    rw [List.map_append, List.map_singleton, nameToken_ofList]
    refine .names x (ih ?_)
    exact (Nat.add_eq_zero_iff.mp
      ((SourceGrammarLemmas.names_append xs (String.ofList x)).symm.trans hd)).1
  | noField => exact .noField
  | @fields ts us fs x e _ _ ih ihe =>
    have hne := insert_ne_nil fs (String.ofList x) e
    cases hfs : fs.insert (String.ofList x) e with
    | nil => exact absurd hfs hne
    | cons key value tail =>
      rw [hfs] at hd
      exact absurd (Nat.add_eq_zero_iff.mp hd).1 Nat.one_ne_zero

end PrettyPrinterLemmas

end PrettyPrinter

end Beaverc

import Beaverc.Bytecode

/-!
# The text format of bytecode

`BC::PrettyPrinter` and the lexer and grammar of `bcparser`. The text is a list
of characters. The lexer takes the longest match, and of two rules that match
the same text the first; what no rule matches is echoed and skipped. The build
is the default one, without assertions: the printer prints nothing for an
operation it does not know, and `safe_unsigned_cast` returns what it is given.
-/

namespace Beaverc.Text

/-! ## The printer -/

/-- `print_indent`. -/
def tabs (n : Nat) : List Char :=
  List.replicate n '\t'

/-- `os << i` for an `int32_t`. -/
def printInt (i : Int) : List Char :=
  if i < 0 then '-' :: Nat.toDigits 10 i.natAbs else Nat.toDigits 10 i.natAbs

def commaSeparated : List (List Char) → List Char
  | [] => []
  | [item] => item
  | item :: rest => item ++ ", ".toList ++ commaSeparated rest

def printConstant : Constant → List Char
  | .none => "None".toList
  | .boolean true => "true".toList
  | .boolean false => "false".toList
  | .integer i => printInt i
  | .string s => '"' :: (s.toList ++ ['"'])

def printNames (indent : Nat) (name : String) (names : List String) : List Char :=
  [tabs indent, name.toList, " = [".toList, commaSeparated (names.map String.toList),
    "],\n".toList].flatten

def withOperand (mnemonic : String) (operand : Int) : List Char :=
  mnemonic.toList ++ '\t' :: printInt operand

def printInstruction : Instruction → List Char
  | .loadConst i => withOperand "load_const" i
  | .loadFunc i => withOperand "load_func" i
  | .loadLocal i => withOperand "load_local" i
  | .storeLocal i => withOperand "store_local" i
  | .loadGlobal i => withOperand "load_global" i
  | .storeGlobal i => withOperand "store_global" i
  | .pushReference i => withOperand "push_ref" i
  | .loadReference i => withOperand "load_ref" i
  | .storeReference i => withOperand "store_ref" i
  | .allocRecord => "alloc_record".toList
  | .fieldLoad i => withOperand "field_load" i
  | .fieldStore i => withOperand "field_store" i
  | .indexLoad => "index_load".toList
  | .indexStore => "index_store".toList
  | .allocClosure n => withOperand "alloc_closure" n
  | .call n => withOperand "call" n
  | .ret => "return".toList
  | .add => "add".toList
  | .sub => "sub".toList
  | .mul => "mul".toList
  | .div => "div".toList
  | .neg => "neg".toList
  | .gt => "gt".toList
  | .geq => "geq".toList
  | .eq => "eq".toList
  | .and => "and".toList
  | .or => "or".toList
  | .not => "not".toList
  | .goto l => withOperand "goto" l
  | .ifTrue l => withOperand "if" l
  | .dup => "dup".toList
  | .swap => "swap".toList
  | .pop => "pop".toList
  | .garbageCollect => "gc".toList
  | .label l => printInt l ++ [':']
  | .throwUninitialized _ => []

def printInstructions (indent : Nat) : List Instruction → List Char
  | [] => []
  | i :: rest => tabs indent ++ (printInstruction i ++ '\n' :: printInstructions indent rest)

mutual
def print (indent : Nat) : Function → List Char
  | ⟨functions, constants, parameterCount, localVars, localReferenceVars, freeVars, names,
      instructions, _, _⟩ =>
    let inner := tabs (indent + 1)
    [tabs indent, "function\n".toList, tabs indent, "\x7b\n".toList,
      inner, "functions =".toList,
      if functions.isEmpty then " [],\n".toList
      else ["\n".toList, inner, "[\n".toList, printFunctions (indent + 2) functions, "\n".toList,
        inner, "],\n".toList].flatten,
      inner, "constants = [".toList, commaSeparated (constants.map printConstant), "],\n".toList,
      inner, "parameter_count = ".toList, printInt parameterCount, ",\n".toList,
      printNames (indent + 1) "local_vars" localVars,
      printNames (indent + 1) "local_ref_vars" localReferenceVars,
      printNames (indent + 1) "free_vars" freeVars,
      printNames (indent + 1) "names" names,
      inner, "instructions = \n".toList, inner, "[\n".toList,
      printInstructions (indent + 2) instructions, inner, "]\n".toList,
      tabs indent, "\x7d".toList].flatten

def printFunctions (indent : Nat) : List Function → List Char
  | [] => []
  | [f] => print indent f
  | f :: g :: rest => print indent f ++ (",\n".toList ++ printFunctions indent (g :: rest))
end

/-! ## The lexer -/

/-- The keywords of the lexer. -/
inductive Keyword where
  | none | true | false | function | functions | constants | parameterCount | localVars
  | localRefVars | names | freeVars | instructions
  | loadConst | loadFunc | loadLocal | storeLocal | loadGlobal | storeGlobal | pushRef | loadRef
  | storeRef | allocRecord | fieldLoad | fieldStore | indexLoad | indexStore | allocClosure | call
  | ret | add | sub | mul | div | neg | gt | geq | eq | and | or | not | goto | ifTrue | dup | swap
  | pop
deriving DecidableEq

def keywords : List (String × Keyword) :=
  [("None", .none), ("true", .true), ("false", .false), ("function", .function),
   ("functions", .functions), ("constants", .constants), ("parameter_count", .parameterCount),
   ("local_vars", .localVars), ("local_ref_vars", .localRefVars), ("names", .names),
   ("free_vars", .freeVars), ("instructions", .instructions), ("load_const", .loadConst),
   ("load_func", .loadFunc), ("load_local", .loadLocal), ("store_local", .storeLocal),
   ("load_global", .loadGlobal), ("store_global", .storeGlobal), ("push_ref", .pushRef),
   ("load_ref", .loadRef), ("store_ref", .storeRef), ("alloc_record", .allocRecord),
   ("field_load", .fieldLoad), ("field_store", .fieldStore), ("index_load", .indexLoad),
   ("index_store", .indexStore), ("alloc_closure", .allocClosure), ("call", .call),
   ("return", .ret), ("add", .add), ("sub", .sub), ("mul", .mul), ("div", .div), ("neg", .neg),
   ("gt", .gt), ("geq", .geq), ("eq", .eq), ("and", .and), ("or", .or), ("not", .not),
   ("goto", .goto), ("if", .ifTrue), ("dup", .dup), ("swap", .swap), ("pop", .pop)]

inductive Token where
  | keyword (k : Keyword)
  | int (i : Int)
  | string (s : String)
  | ident (x : String)
  | operator (c : Char)
deriving DecidableEq

def isSpace (c : Char) : Bool :=
  c = ' ' || c = '\t' || c = '\n'

def isNameStart (c : Char) : Bool :=
  c.isAlpha || c = '_'

def isNameChar (c : Char) : Bool :=
  c.isAlphanum || c = '_'

def isOperator (c : Char) : Bool :=
  "%/<>;!?*-+,.:[](){}=|&^$".toList.contains c

/-- The token of a name: a keyword, whose rules come first, or an identifier. -/
def classify (name : List Char) : Token :=
  match keywords.lookup (String.ofList name) with
  | some k => .keyword k
  | Option.none => .ident (String.ofList name)

/-- `atoi`, whose result is an `int`. -/
def atoi (negative : Bool) (digits : List Char) : Int :=
  let n := Nat.ofDigitChars 10 digits 0
  (if negative then -(n : Int) else n).bmod 4294967296

def isStringChar (c : Char) : Bool :=
  c ≠ '"' && c ≠ '\n'

/-- The rule for a text that starts with `c`: its token, if any, and the rest. -/
def scan (c : Char) (rest : List Char) : Option Token × List Char :=
  if isSpace c then (Option.none, rest.dropWhile isSpace)
  else if c = '/' && rest.head? = some '/' then (Option.none, rest.dropWhile (· ≠ '\n'))
  else if c.isDigit then
    (some (.int (atoi Bool.false (c :: rest.takeWhile Char.isDigit))), rest.dropWhile Char.isDigit)
  else if c = '-' && rest.head?.any Char.isDigit then
    (some (.int (atoi Bool.true (rest.takeWhile Char.isDigit))), rest.dropWhile Char.isDigit)
  else if c = '"' && (rest.dropWhile isStringChar).head? = some '"' then
    (some (.string (String.ofList (rest.takeWhile isStringChar))),
      (rest.dropWhile isStringChar).tail)
  else if isNameStart c then
    (some (classify (c :: rest.takeWhile isNameChar)), rest.dropWhile isNameChar)
  else if isOperator c then (some (.operator c), rest)
  else (Option.none, rest)

theorem scan_length (c : Char) (rest : List Char) : (scan c rest).2.length ≤ rest.length := by
  have drop (p : Char → Bool) : (rest.dropWhile p).length ≤ rest.length :=
    (List.dropWhile_sublist p).length_le
  unfold scan
  split
  · exact drop _
  split
  · exact drop _
  split
  · exact drop _
  split
  · exact drop _
  split
  · exact Nat.le_trans (List.tail_sublist _).length_le (drop _)
  split
  · exact drop _
  split
  · exact Nat.le_refl _
  · exact Nat.le_refl _

/-- The tokens of a text. -/
def lex : List Char → List Token
  | [] => []
  | c :: rest =>
    have := scan_length c rest
    (scan c rest).1.toList ++ lex (scan c rest).2
termination_by text => text.length

/-! ## The grammar -/

/-- The terminals `ts`, in this order. -/
def expect : List Token → List Token → Option (List Token)
  | [], input => some input
  | t :: ts, u :: input => if t = u then expect ts input else Option.none
  | _ :: _, [] => Option.none

def identListPlus : List Token → Option (List String × List Token)
  | .ident x :: .operator ',' :: rest =>
    (identListPlus rest).map fun r => (x :: r.1, r.2)
  | .ident x :: rest => some ([x], rest)
  | _ => Option.none

def identListStar : List Token → Option (List String × List Token)
  | .operator ']' :: rest => some ([], .operator ']' :: rest)
  | input => identListPlus input

def constant? : Token → Option Constant
  | .keyword .none => some .none
  | .keyword .true => some (.boolean Bool.true)
  | .keyword .false => some (.boolean Bool.false)
  | .string s => some (.string s)
  | .int i => some (.integer i)
  | _ => Option.none

def constantListPlus : List Token → Option (List Constant × List Token)
  | t :: .operator ',' :: rest =>
    (constant? t).bind fun c => (constantListPlus rest).map fun r => (c :: r.1, r.2)
  | t :: rest => (constant? t).map fun c => ([c], rest)
  | [] => Option.none

def constantListStar : List Token → Option (List Constant × List Token)
  | .operator ']' :: rest => some ([], .operator ']' :: rest)
  | input => constantListPlus input

/-- An operand that the model holds as a natural number. -/
def unsigned (make : Nat → Instruction) (i : Int) : Option Instruction :=
  if 0 ≤ i then some (make i.toNat) else Option.none

/-- The instruction of a mnemonic: as it is, or made from an operand. -/
inductive Mnemonic where
  | plain (i : Instruction)
  | operand (make : Int → Option Instruction)

def Keyword.mnemonic : Keyword → Option Mnemonic
  | .loadConst => some (.operand (unsigned .loadConst))
  | .loadFunc => some (.operand fun i => some (.loadFunc i))
  | .loadLocal => some (.operand (unsigned .loadLocal))
  | .storeLocal => some (.operand (unsigned .storeLocal))
  | .loadGlobal => some (.operand (unsigned .loadGlobal))
  | .storeGlobal => some (.operand (unsigned .storeGlobal))
  | .pushRef => some (.operand (unsigned .pushReference))
  | .loadRef => some (.operand (unsigned .loadReference))
  | .storeRef => some (.operand (unsigned .storeReference))
  | .allocRecord => some (.plain .allocRecord)
  | .fieldLoad => some (.operand (unsigned .fieldLoad))
  | .fieldStore => some (.operand (unsigned .fieldStore))
  | .indexLoad => some (.plain .indexLoad)
  | .indexStore => some (.plain .indexStore)
  | .allocClosure => some (.operand (unsigned .allocClosure))
  | .call => some (.operand (unsigned .call))
  | .ret => some (.plain .ret)
  | .add => some (.plain .add)
  | .sub => some (.plain .sub)
  | .mul => some (.plain .mul)
  | .div => some (.plain .div)
  | .neg => some (.plain .neg)
  | .gt => some (.plain .gt)
  | .geq => some (.plain .geq)
  | .eq => some (.plain .eq)
  | .and => some (.plain .and)
  | .or => some (.plain .or)
  | .not => some (.plain .not)
  | .goto => some (.operand (unsigned .goto))
  | .ifTrue => some (.operand (unsigned .ifTrue))
  | .dup => some (.plain .dup)
  | .swap => some (.plain .swap)
  | .pop => some (.plain .pop)
  | _ => Option.none

def instructionList : List Token → Option (List Instruction × List Token)
  | .keyword k :: rest =>
    match k.mnemonic with
    | some (.plain i) => (instructionList rest).map fun r => (i :: r.1, r.2)
    | some (.operand make) =>
      match rest with
      | .int n :: rest =>
        (make n).bind fun i => (instructionList rest).map fun r => (i :: r.1, r.2)
      | _ => Option.none
    | Option.none => Option.none
  | input => some ([], input)

/-- `T_int` as a parameter count, a natural number in the model. -/
def parameterCount? : List Token → Option (Nat × List Token)
  | .int n :: rest => if 0 ≤ n then some (n.toNat, rest) else Option.none
  | _ => Option.none

/-- `T_x '=' '['`. -/
def openList (k : Keyword) : List Token :=
  [.keyword k, .operator '=', .operator '[']

def closeList : List Token :=
  [.operator ']', .operator ',']

mutual
/-- `Function`. The first argument bounds the nesting; `parse` passes the number
of tokens. -/
def parseFunction : Nat → List Token → Option (Function × List Token)
  | 0, _ => Option.none
  | fuel + 1, input => do
    let input ← expect ([.keyword .function, .operator '\x7b'] ++ openList .functions) input
    let (functions, input) ← functionListStar fuel input
    let input ← expect (closeList ++ openList .constants) input
    let (constants, input) ← constantListStar input
    let input ← expect (closeList ++ [.keyword .parameterCount, .operator '=']) input
    let (parameterCount, input) ← parameterCount? input
    let input ← expect (.operator ',' :: openList .localVars) input
    let (localVars, input) ← identListStar input
    let input ← expect (closeList ++ openList .localRefVars) input
    let (localReferenceVars, input) ← identListStar input
    let input ← expect (closeList ++ openList .freeVars) input
    let (freeVars, input) ← identListStar input
    let input ← expect (closeList ++ openList .names) input
    let (names, input) ← identListStar input
    let input ← expect (closeList ++ openList .instructions) input
    let (instructions, input) ← instructionList input
    let input ← expect [.operator ']', .operator '\x7d'] input
    some (⟨functions, constants, parameterCount, localVars, localReferenceVars, freeVars, names,
      instructions, [], []⟩, input)

def functionListStar : Nat → List Token → Option (List Function × List Token)
  | 0, _ => Option.none
  | fuel + 1, input =>
    match input with
    | .operator ']' :: rest => some ([], .operator ']' :: rest)
    | input => functionListPlus fuel input

def functionListPlus : Nat → List Token → Option (List Function × List Token)
  | 0, _ => Option.none
  | fuel + 1, input => do
    let (f, input) ← parseFunction fuel input
    match input with
    | .operator ',' :: rest =>
      let (fs, input) ← functionListPlus fuel rest
      some (f :: fs, input)
    | input => some ([f], input)
end

/-- `bcparse`: the function of a text that is all read. -/
def parse (text : List Char) : Option Function :=
  match parseFunction (lex text).length (lex text) with
  | some (f, []) => some f
  | _ => Option.none

/-- The text of the printed function is read back as the function. -/
def RoundTrips (f : Function) : Prop :=
  parse (print 0 f) = some f

end Beaverc.Text

import Beaverc.TextFormat
import Beaverc.Operands

/-!
# The round trip through the text format

The grammar has no field for `arg_mapping` and `labels` and no rule for
`GarbageCollect`, `Label` and `ThrowUninitialized`, and the lexer takes names
that are mnemonics and strings with quotes apart. `roundTrips_iff` says that
nothing else is lost.
-/

namespace Beaverc.Text

/-! ## What the text can say -/

/-- A name that the lexer gives back as an identifier. -/
def isIdentifier (x : String) : Bool :=
  match x.toList with
  | [] => Bool.false
  | c :: rest => isNameStart c && rest.all isNameChar && (keywords.lookup x).isNone

/-- The values of an `int32_t`. -/
def isInt32 (i : Int) : Bool :=
  -2147483648 ≤ i && i < 2147483648

def isPlainConstant : Constant → Bool
  | .none | .boolean _ => Bool.true
  | .integer i => isInt32 i
  | .string s => s.toList.all isStringChar

/-- The operand of an instruction that has one. -/
def operand? : Instruction → Option Int
  | .loadConst i | .loadLocal i | .storeLocal i | .loadGlobal i | .storeGlobal i
  | .pushReference i | .loadReference i | .storeReference i | .fieldLoad i | .fieldStore i
  | .allocClosure i | .call i | .goto i | .ifTrue i => some (i : Nat)
  | .loadFunc i => some i
  | _ => Option.none

def isPlainInstruction : Instruction → Bool
  | .garbageCollect | .label _ | .throwUninitialized _ => Bool.false
  | i => (operand? i).all isInt32

/-- One function of the tree, without the functions in it: it has no argument
mapping and no labels; its constants, names, instructions and parameter count are
such as the lexer and the grammar give back. -/
structure Plain (f : Function) : Prop where
  argMapping : f.argMapping = []
  labels : f.labels = []
  constants : ∀ c ∈ f.constants, isPlainConstant c = true
  parameterCount : isInt32 f.parameterCount = true
  names : ∀ x ∈ f.localVars ++ f.localReferenceVars ++ f.freeVars ++ f.names,
    isIdentifier x = true
  instructions : ∀ i ∈ f.instructions, isPlainInstruction i = true

/-! ## Lexing -/

namespace LexLemmas

theorem lex_nil : lex [] = [] := by
  rw [lex]

theorem lex_cons (c : Char) (rest : List Char) :
    lex (c :: rest) = (scan c rest).1.toList ++ lex (scan c rest).2 := by
  rw [lex]

theorem lex_dropSpaces (text : List Char) : lex (text.dropWhile isSpace) = lex text := by
  cases text with
  | nil => rfl
  | cons c rest =>
    by_cases hc : isSpace c = true
    · rw [List.dropWhile_cons_of_pos hc, lex_cons c rest, scan, if_pos hc]
      rfl
    · rw [List.dropWhile_cons_of_neg hc]

theorem lex_space {c : Char} (hc : isSpace c = true) (rest : List Char) :
    lex (c :: rest) = lex rest := by
  rw [lex_cons, scan, if_pos hc]
  exact lex_dropSpaces rest

theorem lex_tabs (n : Nat) (rest : List Char) : lex (tabs n ++ rest) = lex rest := by
  induction n with
  | zero => rfl
  | succ n ih =>
    rw [tabs, List.replicate_succ, List.cons_append, lex_space (by decide)]
    exact ih

/-- The operators that start no other rule. -/
theorem lex_operator {c : Char} (h : (isOperator c && !isSpace c && c ≠ '/' && !c.isDigit &&
    c ≠ '-' && c ≠ '"' && !isNameStart c) = true) (rest : List Char) :
    lex (c :: rest) = .operator c :: lex rest := by
  simp only [Bool.and_eq_true, Bool.not_eq_true', decide_eq_true_eq, ne_eq] at h
  obtain ⟨⟨⟨⟨⟨⟨ho, hs⟩, hc⟩, hd⟩, hm⟩, hq⟩, hn⟩ := h
  rw [lex_cons]
  simp [scan, ho, hs, hc, hd, hm, hq, hn]

theorem takeWhile_append_stop {p : Char → Bool} {w : List Char} {c : Char} {rest : List Char}
    (hw : w.all p = true) (hc : p c = false) : (w ++ c :: rest).takeWhile p = w := by
  induction w with
  | nil => simp [hc]
  | cons d w ih =>
    rw [List.all_cons, Bool.and_eq_true] at hw
    rw [List.cons_append, List.takeWhile_cons_of_pos hw.1, ih hw.2]

theorem dropWhile_append_stop {p : Char → Bool} {w : List Char} {c : Char} {rest : List Char}
    (hw : w.all p = true) (hc : p c = false) : (w ++ c :: rest).dropWhile p = c :: rest := by
  induction w with
  | nil => simp [hc]
  | cons d w ih =>
    rw [List.all_cons, Bool.and_eq_true] at hw
    rw [List.cons_append, List.dropWhile_cons_of_pos hw.1, ih hw.2]

theorem not_digit_of_nameStart {c : Char} (hc : isNameStart c = true) : c.isDigit = false := by
  by_contra hd
  simp only [Bool.not_eq_false] at hd
  simp only [Char.isDigit, Bool.and_eq_true, decide_eq_true_eq] at hd
  -- both ranges of letters begin after the last digit
  have after : ∀ low : UInt32, low ≤ c.val → '9'.val < low → False := fun low h hlow =>
    absurd (UInt32.le_trans h hd.2) (UInt32.not_le.mpr hlow)
  simp only [isNameStart, Bool.or_eq_true, decide_eq_true_eq] at hc
  rcases hc with hc | rfl
  · have hletter : (c.isUpper || c.isLower) = true := hc
    rcases Bool.or_eq_true_iff.mp hletter with h | h
    · exact after 'A'.val (of_decide_eq_true h).1 (by decide)
    · have hlow : (decide (c.val ≥ 'a'.val) && decide (c.val ≤ 'z'.val)) = true := h
      exact after 'a'.val (of_decide_eq_true (Bool.and_eq_true_iff.mp hlow).1) (by decide)
  · exact absurd hd.2 (by decide)

theorem nameStart_facts {c : Char} (hc : isNameStart c = true) :
    isSpace c = false ∧ c ≠ '/' ∧ c ≠ '-' ∧ c ≠ '"' := by
  have hne : ∀ d, isNameStart d = false → c ≠ d := fun d hd he => by
    rw [he, hd] at hc
    exact Bool.noConfusion hc
  refine ⟨?_, hne _ (by decide), hne _ (by decide), hne _ (by decide)⟩
  simp only [isSpace, Bool.or_eq_false_iff, decide_eq_false_iff_not]
  exact ⟨⟨hne _ (by decide), hne _ (by decide)⟩, hne _ (by decide)⟩

theorem digit_facts {c : Char} (hc : c.isDigit = true) : isSpace c = false ∧ c ≠ '/' := by
  have hne : ∀ d : Char, d.isDigit = false → c ≠ d := fun d hd he => by
    rw [he, hd] at hc
    exact Bool.noConfusion hc
  refine ⟨?_, hne _ (by decide)⟩
  simp only [isSpace, Bool.or_eq_false_iff, decide_eq_false_iff_not]
  exact ⟨⟨hne _ (by decide), hne _ (by decide)⟩, hne _ (by decide)⟩

/-- A name up to the first character that cannot be in it. -/
theorem lex_name {d c : Char} {w rest : List Char} (hd : isNameStart d = true)
    (hw : w.all isNameChar = true) (hc : isNameChar c = false) :
    lex (d :: (w ++ c :: rest)) = classify (d :: w) :: lex (c :: rest) := by
  obtain ⟨hs, hslash, hm, hq⟩ := nameStart_facts hd
  have hdig := not_digit_of_nameStart hd
  rw [lex_cons]
  simp [scan, hs, hslash, hdig, hm, hq, hd, takeWhile_append_stop hw hc,
    dropWhile_append_stop hw hc]

theorem lex_digits {d c : Char} {w rest : List Char} (hd : d.isDigit = true)
    (hw : w.all Char.isDigit = true) (hc : c.isDigit = false) :
    lex (d :: (w ++ c :: rest)) = .int (atoi Bool.false (d :: w)) :: lex (c :: rest) := by
  obtain ⟨hs, hslash⟩ := digit_facts hd
  rw [lex_cons]
  simp [scan, hs, hslash, hd, takeWhile_append_stop hw hc, dropWhile_append_stop hw hc]

theorem lex_negative {d c : Char} {w rest : List Char} (hd : d.isDigit = true)
    (hw : w.all Char.isDigit = true) (hc : c.isDigit = false) :
    lex ('-' :: d :: (w ++ c :: rest)) = .int (atoi Bool.true (d :: w)) :: lex (c :: rest) := by
  have hm : isSpace '-' = false ∧ Char.isDigit '-' = false := by decide
  rw [lex_cons]
  simp [scan, hm.1, hm.2, hd, takeWhile_append_stop hw hc, dropWhile_append_stop hw hc]

theorem lex_string {w rest : List Char} (hw : w.all isStringChar = true) :
    lex ('"' :: (w ++ '"' :: rest)) = .string (String.ofList w) :: lex rest := by
  have hq : isStringChar '"' = false := by decide
  rw [lex_cons]
  simp [scan, takeWhile_append_stop hw hq, dropWhile_append_stop hw hq, isSpace]

theorem printInt_digits (n : Nat) : ∃ d w, Nat.toDigits 10 n = d :: w ∧ d.isDigit = true ∧
    w.all Char.isDigit = true := by
  have hall : ∀ c ∈ Nat.toDigits 10 n, c.isDigit = true := fun c hc =>
    Nat.isDigit_of_mem_toDigits (by decide) (by decide) hc
  cases hd : Nat.toDigits 10 n with
  | nil => exact absurd hd Nat.toDigits_ne_nil
  | cons d w =>
    rw [hd] at hall
    exact ⟨d, w, rfl, hall d List.mem_cons_self,
      List.all_eq_true.mpr fun c hc => hall c (List.mem_cons_of_mem _ hc)⟩

/-- A number of 32 bits is read back. -/
theorem lex_int {i : Int} (hi : isInt32 i = true) {c : Char} (hc : c.isDigit = false)
    (rest : List Char) : lex (printInt i ++ c :: rest) = .int i :: lex (c :: rest) := by
  simp only [isInt32, Bool.and_eq_true, decide_eq_true_eq] at hi
  obtain ⟨d, w, hdw, hd, hw⟩ := printInt_digits i.natAbs
  have hvalue : (Nat.ofDigitChars 10 (d :: w) 0 : Nat) = i.natAbs := by
    rw [← hdw]
    exact Nat.ofDigitChars_ten_toDigits
  unfold printInt
  split
  · next hneg =>
    have hv : atoi Bool.true (d :: w) = i := by
      simp only [atoi, hvalue, if_true]
      rw [Int.bmod_eq_of_le] <;> omega
    rw [hdw, List.cons_append, List.cons_append, lex_negative hd hw hc, hv]
  · next hneg =>
    have hv : atoi Bool.false (d :: w) = i := by
      simp only [atoi, hvalue, Bool.false_eq_true, if_false]
      rw [Int.bmod_eq_of_le] <;> omega
    rw [hdw, List.cons_append, lex_digits hd hw hc, hv]

theorem lex_identifier {x : String} (hx : isIdentifier x = true) {c : Char}
    (hc : isNameChar c = false) (rest : List Char) :
    lex (x.toList ++ c :: rest) = .ident x :: lex (c :: rest) := by
  unfold isIdentifier at hx
  cases hl : x.toList with
  | nil => rw [hl] at hx; exact Bool.noConfusion hx
  | cons d w =>
    rw [hl] at hx
    simp only [Bool.and_eq_true, Option.isNone_iff_eq_none] at hx
    have hback : String.ofList (d :: w) = x := by rw [← hl, String.ofList_toList]
    rw [List.cons_append, lex_name hx.1.1 hx.1.2 hc, classify, hback, hx.2]

/-- The lexer has a rule for `x`, and `x` is a name. -/
def isKeyword (x : String) (k : Keyword) : Bool :=
  keywords.lookup x = some k &&
    match x.toList with
    | [] => Bool.false
    | d :: w => isNameStart d && w.all isNameChar

theorem lex_keyword {x : String} {k : Keyword} (hk : isKeyword x k = true) {c : Char}
    (hc : isNameChar c = false) (rest : List Char) :
    lex (x.toList ++ c :: rest) = .keyword k :: lex (c :: rest) := by
  simp only [isKeyword, Bool.and_eq_true, decide_eq_true_eq] at hk
  obtain ⟨hk, hx⟩ := hk
  cases hl : x.toList with
  | nil => rw [hl] at hx; exact Bool.noConfusion hx
  | cons d w =>
    rw [hl] at hx
    simp only [Bool.and_eq_true] at hx
    have hback : String.ofList (d :: w) = x := by rw [← hl, String.ofList_toList]
    rw [List.cons_append, lex_name hx.1 hx.2 hc, classify, hback, hk]

end LexLemmas

open LexLemmas

/-! ## The tokens of a function -/

def keyword? : Instruction → Option Keyword
  | .loadConst _ => some .loadConst
  | .loadFunc _ => some .loadFunc
  | .loadLocal _ => some .loadLocal
  | .storeLocal _ => some .storeLocal
  | .loadGlobal _ => some .loadGlobal
  | .storeGlobal _ => some .storeGlobal
  | .pushReference _ => some .pushRef
  | .loadReference _ => some .loadRef
  | .storeReference _ => some .storeRef
  | .allocRecord => some .allocRecord
  | .fieldLoad _ => some .fieldLoad
  | .fieldStore _ => some .fieldStore
  | .indexLoad => some .indexLoad
  | .indexStore => some .indexStore
  | .allocClosure _ => some .allocClosure
  | .call _ => some .call
  | .ret => some .ret
  | .add => some .add
  | .sub => some .sub
  | .mul => some .mul
  | .div => some .div
  | .neg => some .neg
  | .gt => some .gt
  | .geq => some .geq
  | .eq => some .eq
  | .and => some .and
  | .or => some .or
  | .not => some .not
  | .goto _ => some .goto
  | .ifTrue _ => some .ifTrue
  | .dup => some .dup
  | .swap => some .swap
  | .pop => some .pop
  | .garbageCollect | .label _ | .throwUninitialized _ => Option.none

def instructionTokens (i : Instruction) : List Token :=
  (keyword? i).toList.map .keyword ++ (operand? i).toList.map .int

def constantToken : Constant → Token
  | .none => .keyword .none
  | .boolean true => .keyword .true
  | .boolean false => .keyword .false
  | .integer i => .int i
  | .string s => .string s

def separated : List Token → List Token
  | [] => []
  | [t] => [t]
  | t :: u :: rest => t :: .operator ',' :: separated (u :: rest)

def nameTokens (names : List String) : List Token :=
  separated (names.map .ident)

mutual
def tokens : Function → List Token
  | ⟨functions, constants, parameterCount, localVars, localReferenceVars, freeVars, names,
      instructions, _, _⟩ =>
    ([.keyword .function, .operator '\x7b'] ++ openList .functions) ++ (functionTokens functions ++
    ((closeList ++ openList .constants) ++ (separated (constants.map constantToken) ++
    ((closeList ++ [.keyword .parameterCount, .operator '=']) ++ (.int parameterCount ::
    ((.operator ',' :: openList .localVars) ++ (nameTokens localVars ++
    ((closeList ++ openList .localRefVars) ++ (nameTokens localReferenceVars ++
    ((closeList ++ openList .freeVars) ++ (nameTokens freeVars ++
    ((closeList ++ openList .names) ++ (nameTokens names ++
    ((closeList ++ openList .instructions) ++ (instructions.flatMap instructionTokens ++
    [.operator ']', .operator '\x7d'])))))))))))))))

def functionTokens : List Function → List Token
  | [] => []
  | [f] => tokens f
  | f :: g :: rest => tokens f ++ (.operator ',' :: functionTokens (g :: rest))
end

namespace LexLemmas

/-! ## Lexing what is printed -/

theorem lex_word {x : String} {k : Keyword} {c : Char} (hk : isKeyword x k = true)
    (hc : isNameChar c = false) (hs : isSpace c = true) (rest : List Char) :
    lex (x.toList ++ c :: rest) = .keyword k :: lex rest := by
  rw [lex_keyword hk hc, lex_space hs]

theorem lex_withOperand {x : String} {k : Keyword} {n : Int} (hk : isKeyword x k = true)
    (hn : isInt32 n = true) (rest : List Char) :
    lex (withOperand x n ++ '\n' :: rest) = .keyword k :: .int n :: lex rest := by
  rw [withOperand, List.append_assoc, List.cons_append, lex_word hk (by decide) (by decide),
    lex_int hn (by decide), lex_space (by decide)]

/-- The rule for a keyword is the one of its text. -/
def text (k : Keyword) : String :=
  ((keywords.find? fun p => p.2 = k).map (·.1)).getD ""

theorem isKeyword_text (k : Keyword) : isKeyword (text k) k = true := by
  cases k <;> decide

/-- The mnemonic that is printed is a keyword of the lexer. -/
theorem printInstruction_eq {i : Instruction} (hi : isPlainInstruction i = true) :
    ∃ k, keyword? i = some k ∧ printInstruction i =
      (match operand? i with
      | some n => withOperand (text k) n
      | Option.none => (text k).toList) := by
  cases i with
  | garbageCollect | label _ | throwUninitialized _ => exact Bool.noConfusion hi
  | _ => exact ⟨_, rfl, rfl⟩

theorem lex_instruction {i : Instruction} (hi : isPlainInstruction i = true) (rest : List Char) :
    lex (printInstruction i ++ '\n' :: rest) = instructionTokens i ++ lex rest := by
  obtain ⟨k, hk, hprint⟩ := printInstruction_eq hi
  have hsmall : (operand? i).all isInt32 = true := by
    cases i with
    | garbageCollect | label _ | throwUninitialized _ => exact Bool.noConfusion hi
    | _ => exact hi
  rw [hprint, instructionTokens, hk]
  cases hn : operand? i with
  | none => exact lex_word (isKeyword_text k) (by decide) (by decide) rest
  | some n =>
    rw [hn] at hsmall
    exact lex_withOperand (isKeyword_text k) hsmall rest

theorem lex_instructions {is : List Instruction} (indent : Nat)
    (h : ∀ i ∈ is, isPlainInstruction i = true) (rest : List Char) :
    lex (printInstructions indent is ++ rest) = is.flatMap instructionTokens ++ lex rest := by
  induction is with
  | nil => rfl
  | cons i is ih =>
    rw [printInstructions, List.append_assoc, lex_tabs, List.append_assoc, List.cons_append,
      lex_instruction (h i List.mem_cons_self), ih fun j hj => h j (List.mem_cons_of_mem _ hj),
      List.flatMap_cons, List.append_assoc]

/-- A list of items, each of which is read back before a comma and a bracket. -/
theorem lex_separated {α : Type} {shown : α → List Char} {token : α → Token} {items : List α}
    (h : ∀ x ∈ items, ∀ c rest, c = ',' ∨ c = ']' →
      lex (shown x ++ c :: rest) = token x :: lex (c :: rest)) (rest : List Char) :
    lex (commaSeparated (items.map shown) ++ ("],\n".toList ++ rest)) =
      separated (items.map token) ++ (closeList ++ lex rest) := by
  have hclose : "],\n".toList ++ rest = ']' :: ',' :: '\n' :: rest := rfl
  have hend : lex (']' :: ',' :: '\n' :: rest) = closeList ++ lex rest := by
    rw [lex_operator (by decide), lex_operator (by decide), lex_space (by decide)]
    rfl
  rw [hclose]
  induction items with
  | nil => exact hend
  | cons x items ih =>
    have hx := h x List.mem_cons_self
    have ih := ih fun y hy => h y (List.mem_cons_of_mem _ hy)
    cases items with
    | nil =>
      simp only [List.map_cons, List.map_nil, commaSeparated, separated]
      rw [hx _ _ (.inr rfl), hend]
      rfl
    | cons y items =>
      have hcomma : ", ".toList = [',', ' '] := by decide
      simp only [List.map_cons, commaSeparated, separated, hcomma, List.append_assoc,
        List.cons_append, List.nil_append] at ih ⊢
      rw [hx _ _ (.inl rfl), lex_operator (by decide), lex_space (by decide), ih]

theorem lex_constant {k : Constant} (hk : isPlainConstant k = true) {c : Char}
    (hc : c = ',' ∨ c = ']') (rest : List Char) :
    lex (printConstant k ++ c :: rest) = constantToken k :: lex (c :: rest) := by
  have hname : isNameChar c = false := by rcases hc with rfl | rfl <;> decide
  have hdigit : c.isDigit = false := by rcases hc with rfl | rfl <;> decide
  cases k with
  | none => exact lex_keyword (isKeyword_text .none) hname rest
  | boolean b =>
    cases b with
    | true => exact lex_keyword (isKeyword_text .true) hname rest
    | false => exact lex_keyword (isKeyword_text .false) hname rest
  | integer i => exact lex_int hk hdigit rest
  | string s =>
    have hs : lex ('"' :: (s.toList ++ '"' :: (c :: rest))) = _ := lex_string hk
    rw [String.ofList_toList] at hs
    show lex ('"' :: (s.toList ++ ['"']) ++ c :: rest) = _
    rw [List.cons_append, List.append_assoc]
    exact hs

/-- A title: a keyword and an equals sign. -/
theorem lex_title {x : String} (k : Keyword) (hk : isKeyword x k = true) (rest : List Char) :
    lex (x.toList ++ ' ' :: '=' :: rest) = .keyword k :: .operator '=' :: lex rest := by
  rw [lex_word hk (by decide) (by decide), lex_operator (by decide)]

theorem lex_names {x : String} {k : Keyword} (indent : Nat) {names : List String}
    (hk : isKeyword x k = true)
    (h : ∀ y ∈ names, isIdentifier y = true) (rest : List Char) :
    lex (printNames indent x names ++ rest) =
      openList k ++ (nameTokens names ++ (closeList ++ lex rest)) := by
  have hopen : ∀ rest, " = [".toList ++ rest = ' ' :: '=' :: ' ' :: '[' :: rest := fun _ => rfl
  have hitems : lex (commaSeparated (names.map String.toList) ++ ("],\n".toList ++ rest)) =
      separated (names.map Token.ident) ++ (closeList ++ lex rest) :=
    lex_separated (fun y hy c rest hc => lex_identifier (h y hy)
      (by rcases hc with rfl | rfl <;> decide) rest) rest
  simp only [printNames, List.flatten_cons, List.flatten_nil, List.append_nil, List.append_assoc]
  rw [lex_tabs, hopen, lex_title k hk, lex_space (by decide), lex_operator (by decide), hitems]
  rfl

/-! The fixed pieces of the text. -/

theorem lex_function (rest : List Char) :
    lex ("function\n".toList ++ rest) = .keyword .function :: lex rest :=
  lex_word (isKeyword_text .function) (by decide) (by decide) rest

theorem lex_openBrace (rest : List Char) :
    lex ("\x7b\n".toList ++ rest) = .operator '\x7b' :: lex rest := by
  rw [show "\x7b\n".toList ++ rest = '\x7b' :: '\n' :: rest from rfl, lex_operator (by decide),
    lex_space (by decide)]

theorem lex_closeBrace (rest : List Char) :
    lex ("\x7d".toList ++ rest) = .operator '\x7d' :: lex rest :=
  lex_operator (by decide) rest

theorem lex_openBracket (rest : List Char) :
    lex ("[\n".toList ++ rest) = .operator '[' :: lex rest := by
  rw [show "[\n".toList ++ rest = '[' :: '\n' :: rest from rfl, lex_operator (by decide),
    lex_space (by decide)]

theorem lex_closeBracket (rest : List Char) :
    lex ("]\n".toList ++ rest) = .operator ']' :: lex rest := by
  rw [show "]\n".toList ++ rest = ']' :: '\n' :: rest from rfl, lex_operator (by decide),
    lex_space (by decide)]

theorem lex_closeList (rest : List Char) :
    lex ("],\n".toList ++ rest) = closeList ++ lex rest := by
  rw [show "],\n".toList ++ rest = ']' :: ',' :: '\n' :: rest from rfl, lex_operator (by decide),
    lex_operator (by decide), lex_space (by decide)]
  rfl

theorem lex_functionsEq (rest : List Char) :
    lex ("functions =".toList ++ rest) = .keyword .functions :: .operator '=' :: lex rest := by
  have hsplit : "functions =" = "functions" ++ " =" := by decide
  have hequals : " =".toList ++ rest = ' ' :: '=' :: rest := rfl
  rw [hsplit, String.toList_append, List.append_assoc, hequals, lex_title .functions (by decide)]

theorem lex_constantsEq (rest : List Char) :
    lex ("constants = [".toList ++ rest) = openList .constants ++ lex rest := by
  have hsplit : "constants = [" = "constants" ++ " = [" := by decide
  have hequals : " = [".toList ++ rest = ' ' :: '=' :: ' ' :: '[' :: rest := rfl
  rw [hsplit, String.toList_append, List.append_assoc, hequals, lex_title .constants (by decide),
    lex_space (by decide), lex_operator (by decide)]
  rfl

theorem lex_instructionsEq (rest : List Char) :
    lex ("instructions = \n".toList ++ rest) =
      .keyword .instructions :: .operator '=' :: lex rest := by
  have hsplit : "instructions = \n" = "instructions" ++ " = \n" := by decide
  have hequals : " = \n".toList ++ rest = ' ' :: '=' :: ' ' :: '\n' :: rest := rfl
  rw [hsplit, String.toList_append, List.append_assoc, hequals,
    lex_title .instructions (by decide), lex_space (by decide), lex_space (by decide)]

theorem lex_parameterCount {n : Nat} (hn : isInt32 n = true) (rest : List Char) :
    lex ("parameter_count = ".toList ++ (printInt n ++ (",\n".toList ++ rest))) =
      .keyword .parameterCount :: .operator '=' :: .int n :: .operator ',' :: lex rest := by
  have hsplit : "parameter_count = " = "parameter_count" ++ " = " := by decide
  have hequals (rest : List Char) : " = ".toList ++ rest = ' ' :: '=' :: ' ' :: rest := rfl
  have hcomma : ",\n".toList ++ rest = ',' :: '\n' :: rest := rfl
  rw [hsplit, String.toList_append, List.append_assoc, hequals, hcomma,
    lex_title .parameterCount (by decide), lex_space (by decide), lex_int hn (by decide),
    lex_operator (by decide), lex_space (by decide)]

end LexLemmas

open LexLemmas

theorem mem_four {x : String} {a b c d : List String}
    (h : x ∈ a ∨ x ∈ b ∨ x ∈ c ∨ x ∈ d) : x ∈ a ++ b ++ c ++ d := by
  simp only [List.mem_append]
  tauto

/-- The functions of the trees in a list are all plain. -/
def AllPlain (fs : List Function) : Prop :=
  ∀ f ∈ fs, ∀ g, SubFunction f g → Plain g

theorem allPlain_nested {f : Function} (h : ∀ g, SubFunction f g → Plain g) :
    AllPlain f.functions := fun g hg k hk => by
  have hstep : SubFunction f g := .step (.refl f) hg
  refine h k ?_
  clear h
  induction hk with
  | refl => exact hstep
  | step _ hm ih => exact .step ih hm

mutual
/-- The text of a plain function is lexed to its tokens. -/
theorem lex_print (indent : Nat) :
    (f : Function) → (∀ g, SubFunction f g → Plain g) → (rest : List Char) →
      lex (print indent f ++ rest) = tokens f ++ lex rest
  | ⟨functions, constants, parameterCount, localVars, localReferenceVars, freeVars, names,
      instructions, argMapping, labels⟩, h, rest => by
    have hp := h _ (.refl _)
    have hf : AllPlain functions := allPlain_nested h
    have hconstants : ∀ c ∈ constants, isPlainConstant c = true := hp.constants
    have hcount : isInt32 parameterCount = true := hp.parameterCount
    have hinstructions : ∀ i ∈ instructions, isPlainInstruction i = true := hp.instructions
    have hnames : ∀ x, x ∈ localVars ∨ x ∈ localReferenceVars ∨ x ∈ freeVars ∨ x ∈ names →
        isIdentifier x = true := fun x hx => hp.names x (mem_four hx)
    have hfunctions : ∀ rest, lex ((if functions.isEmpty then " [],\n".toList
        else ["\n".toList, tabs (indent + 1), "[\n".toList,
          printFunctions (indent + 2) functions, "\n".toList, tabs (indent + 1),
          "],\n".toList].flatten) ++ rest) =
        .operator '[' :: (functionTokens functions ++ (closeList ++ lex rest)) := fun rest => by
      cases hfs : functions with
      | nil =>
        rw [if_pos List.isEmpty_nil, show " [],\n".toList ++ rest =
          ' ' :: '[' :: ("],\n".toList ++ rest) from rfl,
          lex_space (by decide), lex_operator (by decide), lex_closeList]
        rfl
      | cons g gs =>
        have hnewline : ∀ rest, lex ("\n".toList ++ rest) = lex rest := fun rest =>
          lex_space (by decide) rest
        have hinner := lex_printFunctions (indent + 2) functions hf (by rw [hfs]; nofun)
        rw [hfs] at hinner
        rw [if_neg (by simp)]
        simp only [List.flatten_cons, List.flatten_nil, List.append_nil, List.append_assoc]
        rw [hnewline, lex_tabs, lex_openBracket, hinner, hnewline, lex_tabs, lex_closeList]
    simp only [print, List.flatten_cons, List.flatten_nil, List.append_nil, List.append_assoc]
    simp only [List.flatten_cons, List.flatten_nil, List.append_nil] at hfunctions
    rw [lex_tabs, lex_function, lex_tabs, lex_openBrace, lex_tabs, lex_functionsEq, hfunctions,
      lex_tabs, lex_constantsEq,
      lex_separated fun c hc _ rest hs => lex_constant (hconstants c hc) hs rest,
      lex_tabs, lex_parameterCount hcount,
      lex_names _ (show isKeyword "local_vars" .localVars = true by decide) fun x hx =>
        hnames x (.inl hx),
      lex_names _ (show isKeyword "local_ref_vars" .localRefVars = true by decide) fun x hx =>
        hnames x (.inr (.inl hx)),
      lex_names _ (show isKeyword "free_vars" .freeVars = true by decide) fun x hx =>
        hnames x (.inr (.inr (.inl hx))),
      lex_names _ (show isKeyword "names" .names = true by decide) fun x hx =>
        hnames x (.inr (.inr (.inr hx))),
      lex_tabs, lex_instructionsEq, lex_tabs, lex_openBracket,
      lex_instructions _ hinstructions, lex_tabs, lex_closeBracket, lex_tabs, lex_closeBrace]
    simp only [tokens, openList, closeList, List.append_assoc, List.cons_append, List.nil_append]

theorem lex_printFunctions (indent : Nat) :
    (fs : List Function) → AllPlain fs → fs ≠ [] → (rest : List Char) →
      lex (printFunctions indent fs ++ rest) = functionTokens fs ++ lex rest
  | [], _, hne, _ => absurd rfl hne
  | [f], h, _, rest => lex_print indent f (h f List.mem_cons_self) rest
  | f :: g :: fs, h, _, rest => by
    have hcomma : ",\n".toList = [',', '\n'] := by decide
    have hf := lex_print indent f (h f List.mem_cons_self)
    have hfs := lex_printFunctions indent (g :: fs) (fun k hk => h k (List.mem_cons_of_mem _ hk))
      (List.cons_ne_nil _ _) rest
    rw [printFunctions, functionTokens, List.append_assoc, hf, List.append_assoc, hcomma,
      List.cons_append, List.cons_append, List.nil_append, lex_operator (by decide),
      lex_space (by decide), hfs, List.append_assoc, List.cons_append]
end

/-! ## Parsing the tokens of a function -/

namespace ParseLemmas

theorem identListPlus_tokens {names : List String} (hne : names ≠ []) (rest : List Token) :
    identListPlus (nameTokens names ++ .operator ']' :: rest) =
      some (names, .operator ']' :: rest) := by
  induction names with
  | nil => exact absurd rfl hne
  | cons x names ih =>
    cases names with
    | nil => rfl
    | cons y names =>
      have ih := ih (List.cons_ne_nil _ _)
      simp only [nameTokens, List.map_cons, separated, List.cons_append, identListPlus] at ih ⊢
      rw [ih]
      rfl

theorem identListStar_tokens (names : List String) (rest : List Token) :
    identListStar (nameTokens names ++ .operator ']' :: rest) =
      some (names, .operator ']' :: rest) := by
  cases names with
  | nil => rfl
  | cons x names =>
    have h := identListPlus_tokens (List.cons_ne_nil x names) rest
    cases names with
    | nil => exact h
    | cons y names => exact h

theorem constant?_constantToken (c : Constant) : constant? (constantToken c) = some c := by
  cases c with
  | boolean b => cases b <;> rfl
  | _ => rfl

theorem constantListPlus_tokens {cs : List Constant} (hne : cs ≠ []) (rest : List Token) :
    constantListPlus (separated (cs.map constantToken) ++ .operator ']' :: rest) =
      some (cs, .operator ']' :: rest) := by
  induction cs with
  | nil => exact absurd rfl hne
  | cons c cs ih =>
    cases cs with
    | nil => simp [separated, constantListPlus, constant?_constantToken]
    | cons d cs =>
      have ih := ih (List.cons_ne_nil _ _)
      simp only [List.map_cons, separated, List.cons_append, constantListPlus,
        constant?_constantToken] at ih ⊢
      rw [ih]
      rfl

theorem constantListStar_tokens (cs : List Constant) (rest : List Token) :
    constantListStar (separated (cs.map constantToken) ++ .operator ']' :: rest) =
      some (cs, .operator ']' :: rest) := by
  cases cs with
  | nil => rfl
  | cons c cs =>
    have h := constantListPlus_tokens (List.cons_ne_nil c cs) rest
    have hc : ∀ t ts, constantToken c :: ts ≠ Token.operator ']' :: t := fun t ts he => by
      cases c with
      | boolean b => cases b <;> cases he
      | _ => cases he
    cases cs with
    | nil =>
      rw [constantListStar]
      · exact h
      · exact fun t he => hc _ _ he
    | cons d cs =>
      rw [constantListStar]
      · exact h
      · exact fun t he => hc _ _ he

/-- A plain instruction is the one its mnemonic and operand make. -/
theorem instructionList_cons {i : Instruction} (hi : isPlainInstruction i = true)
    (rest : List Token) : instructionList (instructionTokens i ++ rest) =
      (instructionList rest).map fun r => (i :: r.1, r.2) := by
  cases i with
  | garbageCollect | label _ | throwUninitialized _ => exact Bool.noConfusion hi
  | loadFunc n => rfl
  | loadConst n | loadLocal n | storeLocal n | loadGlobal n | storeGlobal n
  | pushReference n | loadReference n | storeReference n | fieldLoad n | fieldStore n
  | allocClosure n | call n | goto n | ifTrue n =>
    simp [instructionTokens, keyword?, operand?, instructionList, Keyword.mnemonic, unsigned]
  | _ => rfl

theorem instructionList_tokens {is : List Instruction}
    (h : ∀ i ∈ is, isPlainInstruction i = true) (rest : List Token) :
    instructionList (is.flatMap instructionTokens ++ .operator ']' :: rest) =
      some (is, .operator ']' :: rest) := by
  induction is with
  | nil => rfl
  | cons i is ih =>
    rw [List.flatMap_cons, List.append_assoc, instructionList_cons (h i List.mem_cons_self),
      ih fun j hj => h j (List.mem_cons_of_mem _ hj)]
    rfl

theorem tokens_cons (f : Function) : ∃ ts, tokens f = .keyword .function :: ts := by
  cases f
  exact ⟨_, rfl⟩

theorem functionTokens_cons (f : Function) (fs : List Function) :
    ∃ ts, functionTokens (f :: fs) = .keyword .function :: ts := by
  obtain ⟨ts, hts⟩ := tokens_cons f
  cases fs with
  | nil => exact ⟨ts, hts⟩
  | cons g fs => exact ⟨_, by rw [functionTokens, hts]; rfl⟩

end ParseLemmas

open ParseLemmas

mutual
/-- With enough fuel the tokens of a plain function are parsed to it. -/
theorem parseFunction_tokens :
    (f : Function) → (∀ g, SubFunction f g → Plain g) → (fuel : Nat) →
      (tokens f).length ≤ fuel → (rest : List Token) →
      parseFunction fuel (tokens f ++ rest) = some (f, rest)
  | ⟨functions, constants, parameterCount, localVars, localReferenceVars, freeVars, names,
      instructions, argMapping, labels⟩, h, fuel, hfuel, rest => by
    have hp := h _ (.refl _)
    have hf : AllPlain functions := allPlain_nested h
    obtain rfl : argMapping = [] := hp.argMapping
    obtain rfl : labels = [] := hp.labels
    have hinstructions : ∀ i ∈ instructions, isPlainInstruction i = true := hp.instructions
    have hlen : (functionTokens functions).length + 3 ≤ fuel := by
      simp [tokens, openList, closeList] at hfuel
      omega
    obtain ⟨fuel, rfl⟩ : ∃ n, fuel = n + 1 := ⟨fuel - 1, by omega⟩
    have hfunctions := functionListStar_tokens functions hf fuel (by omega)
    have hcount (ts : List Token) :
        parameterCount? (.int parameterCount :: ts) = some (parameterCount, ts) := by
      rw [parameterCount?, if_pos (Int.natCast_nonneg _), Int.toNat_natCast]
    simp only [parseFunction, tokens, openList, closeList, List.append_assoc, List.cons_append,
      List.nil_append, expect, if_true, hfunctions, constantListStar_tokens, identListStar_tokens,
      instructionList_tokens hinstructions, hcount, bind, Option.bind]

theorem functionListStar_tokens :
    (fs : List Function) → AllPlain fs → (fuel : Nat) → (functionTokens fs).length + 2 ≤ fuel →
      (rest : List Token) → functionListStar fuel (functionTokens fs ++ .operator ']' :: rest) =
        some (fs, .operator ']' :: rest)
  | [], _, fuel, hfuel, rest => by
    obtain ⟨fuel, rfl⟩ : ∃ n, fuel = n + 1 := ⟨fuel - 1, by omega⟩
    rfl
  | f :: fs, h, fuel, hfuel, rest => by
    obtain ⟨fuel, rfl⟩ : ∃ n, fuel = n + 1 := ⟨fuel - 1, by omega⟩
    have hplus := functionListPlus_tokens (f :: fs) h (List.cons_ne_nil _ _) fuel (by omega) rest
    -- the first token is that of a function, not the bracket
    obtain ⟨ts, hts⟩ := functionTokens_cons f fs
    rw [hts] at hplus ⊢
    exact hplus

theorem functionListPlus_tokens :
    (fs : List Function) → AllPlain fs → fs ≠ [] → (fuel : Nat) →
      (functionTokens fs).length + 1 ≤ fuel → (rest : List Token) →
      functionListPlus fuel (functionTokens fs ++ .operator ']' :: rest) =
        some (fs, .operator ']' :: rest)
  | [], _, hne, _, _, _ => absurd rfl hne
  | [f], h, _, fuel, hfuel, rest => by
    obtain ⟨fuel, rfl⟩ : ∃ n, fuel = n + 1 := ⟨fuel - 1, by omega⟩
    have hf := parseFunction_tokens f (h f List.mem_cons_self) fuel (by
      simp only [functionTokens] at hfuel
      omega) (.operator ']' :: rest)
    simp only [functionListPlus, functionTokens, hf, bind, Option.bind]
    rfl
  | f :: g :: fs, h, _, fuel, hfuel, rest => by
    obtain ⟨fuel, rfl⟩ : ∃ n, fuel = n + 1 := ⟨fuel - 1, by omega⟩
    simp only [functionTokens, List.length_append, List.length_cons] at hfuel
    have hf := parseFunction_tokens f (h f List.mem_cons_self) fuel (by omega)
      (.operator ',' :: (functionTokens (g :: fs) ++ .operator ']' :: rest))
    have hfs := functionListPlus_tokens (g :: fs) (fun k hk => h k (List.mem_cons_of_mem _ hk))
      (List.cons_ne_nil _ _) fuel (by omega) rest
    simp only [functionListPlus, functionTokens, List.append_assoc, List.cons_append, hf, hfs, bind,
      Option.bind]
end

/-! ## What is parsed is plain -/

/-- What holds of every token of a text. -/
def Token.Good : Token → Prop
  | .int i => isInt32 i = true
  | .string s => s.toList.all isStringChar = true
  | .ident x => isIdentifier x = true
  | _ => True

def AllGood (ts : List Token) : Prop :=
  ∀ t ∈ ts, t.Good

namespace ParseLemmas

theorem isInt32_atoi (negative : Bool) (digits : List Char) :
    isInt32 (atoi negative digits) = true := by
  have hlow (x : Int) : -((4294967296 : Nat) / 2 : Int) ≤ x.bmod 4294967296 :=
    Int.le_bmod (by decide)
  have hhigh (x : Int) : x.bmod 4294967296 < (((4294967296 : Nat) : Int) + 1) / 2 :=
    Int.bmod_lt (by decide)
  rw [isInt32, atoi, Bool.and_eq_true]
  exact ⟨decide_eq_true (hlow _), decide_eq_true (hhigh _)⟩

theorem good_classify {c : Char} {w : List Char} (hc : isNameStart c = true)
    (hw : w.all isNameChar = true) : (classify (c :: w)).Good := by
  unfold classify
  cases hk : keywords.lookup (String.ofList (c :: w)) with
  | some k => exact trivial
  | none =>
    simp only [Token.Good, isIdentifier, String.toList_ofList, hc, hw, hk, Option.isNone_none,
      Bool.and_self]

theorem good_scan {c : Char} {rest : List Char} {t : Token} (h : (scan c rest).1 = some t) :
    t.Good := by
  unfold scan at h
  split at h
  · cases h
  split at h
  · cases h
  split at h
  · cases h
    exact isInt32_atoi _ _
  split at h
  · cases h
    exact isInt32_atoi _ _
  split at h
  · cases h
    rw [Token.Good, String.toList_ofList]
    exact List.all_takeWhile
  split at h
  · next hc =>
    cases h
    exact good_classify hc List.all_takeWhile
  split at h
  · cases h
    exact trivial
  · cases h

theorem good_lex (n : Nat) (text : List Char) (hn : text.length ≤ n) : AllGood (lex text) := by
  induction n generalizing text with
  | zero =>
    rw [List.length_eq_zero_iff.mp (Nat.le_zero.mp hn), lex_nil]
    exact fun _ h => absurd h List.not_mem_nil
  | succ n ih =>
    cases text with
    | nil =>
      rw [lex_nil]
      exact fun _ h => absurd h List.not_mem_nil
    | cons c rest =>
      rw [lex_cons]
      intro t ht
      rcases List.mem_append.mp ht with ht | ht
      · exact good_scan (Option.mem_toList.mp ht)
      · exact ih _ (Nat.le_trans (scan_length c rest) (Nat.le_of_succ_le_succ hn)) t ht

variable {input rest : List Token}

theorem expect_good {ts : List Token} (h : expect ts input = some rest) (hg : AllGood input) :
    AllGood rest := by
  induction ts generalizing input with
  | nil =>
    cases h
    exact hg
  | cons t ts ih =>
    cases input with
    | nil => cases h
    | cons u input =>
      simp only [expect] at h
      split at h
      · exact ih h fun v hv => hg v (List.mem_cons_of_mem _ hv)
      · cases h

theorem good_tail {t : Token} {ts : List Token} (h : AllGood (t :: ts)) : AllGood ts :=
  fun u hu => h u (List.mem_cons_of_mem _ hu)

theorem identListPlus_good {names : List String} (h : identListPlus input = some (names, rest))
    (hg : AllGood input) : (∀ x ∈ names, isIdentifier x = true) ∧ AllGood rest := by
  induction input using identListPlus.induct generalizing names with
  | case1 x ts ih =>
    simp only [identListPlus, Option.map_eq_some_iff] at h
    obtain ⟨⟨xs, ts'⟩, hr, he⟩ := h
    cases he
    obtain ⟨hxs, hts⟩ := ih hr (good_tail (good_tail hg))
    refine ⟨fun y hy => ?_, hts⟩
    rcases List.mem_cons.mp hy with rfl | hy
    · exact hg _ List.mem_cons_self
    · exact hxs y hy
  | case2 x ts hne =>
    rw [identListPlus] at h
    · cases h
      refine ⟨fun y hy => ?_, good_tail hg⟩
      rw [List.mem_singleton.mp hy]
      exact hg _ List.mem_cons_self
    · exact hne
  | case3 ts h₁ h₂ =>
    rw [identListPlus] at h
    · cases h
    · exact h₁
    · exact h₂

theorem identListStar_good {names : List String} (h : identListStar input = some (names, rest))
    (hg : AllGood input) : (∀ x ∈ names, isIdentifier x = true) ∧ AllGood rest := by
  unfold identListStar at h
  split at h
  · cases h
    exact ⟨fun _ h => absurd h List.not_mem_nil, hg⟩
  · exact identListPlus_good h hg

theorem constant?_good {t : Token} {c : Constant} (h : constant? t = some c) (hg : t.Good) :
    isPlainConstant c = true := by
  unfold constant? at h
  split at h
  · cases h; rfl
  · cases h; rfl
  · cases h; rfl
  · cases h; exact hg
  · cases h; exact hg
  · cases h

theorem constantListPlus_good {cs : List Constant}
    (h : constantListPlus input = some (cs, rest)) (hg : AllGood input) :
    (∀ c ∈ cs, isPlainConstant c = true) ∧ AllGood rest := by
  induction input using constantListPlus.induct generalizing cs with
  | case1 t ts ih =>
    simp only [constantListPlus, Option.bind_eq_some_iff, Option.map_eq_some_iff] at h
    obtain ⟨c, hc, ⟨cs', ts'⟩, hr, he⟩ := h
    cases he
    obtain ⟨hcs, hts⟩ := ih hr (good_tail (good_tail hg))
    refine ⟨fun d hd => ?_, hts⟩
    rcases List.mem_cons.mp hd with rfl | hd
    · exact constant?_good hc (hg _ List.mem_cons_self)
    · exact hcs d hd
  | case2 t ts hne =>
    rw [constantListPlus] at h
    · simp only [Option.map_eq_some_iff] at h
      obtain ⟨c, hc, he⟩ := h
      cases he
      refine ⟨fun d hd => ?_, good_tail hg⟩
      rw [List.mem_singleton.mp hd]
      exact constant?_good hc (hg _ List.mem_cons_self)
    · exact hne
  | case3 => cases h

theorem constantListStar_good {cs : List Constant}
    (h : constantListStar input = some (cs, rest)) (hg : AllGood input) :
    (∀ c ∈ cs, isPlainConstant c = true) ∧ AllGood rest := by
  unfold constantListStar at h
  split at h
  · cases h
    exact ⟨fun _ h => absurd h List.not_mem_nil, hg⟩
  · exact constantListPlus_good h hg

theorem mnemonic_plain {k : Keyword} {i : Instruction} (h : k.mnemonic = some (.plain i)) :
    isPlainInstruction i = true := by
  cases k <;> first | (cases h; rfl) | cases h

theorem isPlainInstruction_of_operand {i : Instruction} {n : Int} (h : operand? i = some n) :
    isPlainInstruction i = isInt32 n := by
  unfold isPlainInstruction
  split
  · exact absurd h (by simp [operand?])
  · exact absurd h (by simp [operand?])
  · exact absurd h (by simp [operand?])
  · rw [h, Option.all_some]

theorem mnemonic_operand {k : Keyword} {make : Int → Option Instruction}
    (h : k.mnemonic = some (.operand make)) {n : Int} {i : Instruction} (hi : make n = some i)
    (hn : isInt32 n = true) : isPlainInstruction i = true := by
  have hunsigned : ∀ (m : Nat → Instruction), unsigned m n = some i →
      (∀ j : Nat, isInt32 (j : Int) = true → isPlainInstruction (m j) = true) →
      isPlainInstruction i = true := fun m hm hj => by
    unfold unsigned at hm
    split at hm
    · next hpos =>
      cases hm
      exact hj _ (by rwa [Int.toNat_of_nonneg hpos])
    · cases hm
  cases k
  case loadFunc =>
    cases h
    cases hi
    exact (isPlainInstruction_of_operand rfl).trans hn
  all_goals first
    | cases h
      exact hunsigned _ hi fun j hj => (isPlainInstruction_of_operand rfl).trans hj
    | cases h

theorem instructionList_good {is : List Instruction}
    (h : instructionList input = some (is, rest)) (hg : AllGood input) :
    (∀ i ∈ is, isPlainInstruction i = true) ∧ AllGood rest := by
  have cons : ∀ {i : Instruction} {is : List Instruction}, isPlainInstruction i = true →
      (∀ j ∈ is, isPlainInstruction j = true) → ∀ j ∈ i :: is, isPlainInstruction j = true :=
    fun hi his j hj => (List.mem_cons.mp hj).elim (fun he => he ▸ hi) (his j)
  induction input using instructionList.induct generalizing is with
  | case1 k ts i hk ih =>
    simp only [instructionList, hk, Option.map_eq_some_iff] at h
    obtain ⟨⟨is', ts'⟩, hr, he⟩ := h
    cases he
    obtain ⟨his, hts⟩ := ih hr (good_tail hg)
    exact ⟨cons (mnemonic_plain hk) his, hts⟩
  | case2 k make hk n ts ih =>
    simp only [instructionList, hk, Option.bind_eq_some_iff, Option.map_eq_some_iff] at h
    obtain ⟨i, hi, ⟨is', ts'⟩, hr, he⟩ := h
    cases he
    obtain ⟨his, hts⟩ := ih hr (good_tail (good_tail hg))
    have hn : (Token.int n).Good := hg (.int n) (List.mem_cons_of_mem _ List.mem_cons_self)
    exact ⟨cons (mnemonic_operand hk hi hn) his, hts⟩
  | case3 k ts make hk hne =>
    simp only [instructionList, hk] at h
    cases h
  | case4 k ts hk =>
    simp only [instructionList, hk] at h
    cases h
  | case5 ts hne =>
    rw [instructionList] at h
    · cases h
      exact ⟨fun _ h => absurd h List.not_mem_nil, hg⟩
    · exact hne

/-- A function whose own fields and whose nested functions are plain. -/
theorem plain_tree {f : Function} (hp : Plain f) (hf : AllPlain f.functions) :
    ∀ g, SubFunction f g → Plain g := by
  intro g hg
  have split : ∀ g, SubFunction f g → g = f ∨ ∃ k ∈ f.functions, SubFunction k g := fun g hg => by
    induction hg with
    | refl => exact .inl rfl
    | step _ hm ih =>
      rcases ih with rfl | ⟨k, hk, hkg⟩
      · exact .inr ⟨_, hm, .refl _⟩
      · exact .inr ⟨k, hk, .step hkg hm⟩
  rcases split g hg with rfl | ⟨k, hk, hkg⟩
  · exact hp
  · exact hf k hk g hkg

theorem bind_some {α β : Type} {x : Option α} {f : α → Option β} {b : β} (h : x >>= f = some b) :
    ∃ a, x = some a ∧ f a = some b :=
  Option.bind_eq_some_iff.mp h

theorem parameterCount_good {n : Nat} (h : parameterCount? input = some (n, rest))
    (hg : AllGood input) : isInt32 n = true ∧ AllGood rest := by
  unfold parameterCount? at h
  split at h
  · next m ts =>
    split at h
    · next hpos =>
      cases h
      have hm : (Token.int m).Good := hg (.int m) List.mem_cons_self
      exact ⟨by rw [Int.toNat_of_nonneg hpos]; exact hm, good_tail hg⟩
    · cases h
  · cases h

theorem parse_good (fuel : Nat) : ∀ {input rest : List Token}, AllGood input →
    (∀ {f}, parseFunction fuel input = some (f, rest) →
      (∀ g, SubFunction f g → Plain g) ∧ AllGood rest) ∧
    (∀ {fs}, functionListStar fuel input = some (fs, rest) → AllPlain fs ∧ AllGood rest) ∧
    (∀ {fs}, functionListPlus fuel input = some (fs, rest) → AllPlain fs ∧ AllGood rest) := by
  induction fuel with
  | zero => exact fun _ => ⟨nofun, nofun, nofun⟩
  | succ fuel ih =>
    intro input rest hg
    refine ⟨fun {f} h => ?_, fun {fs} h => ?_, fun {fs} h => ?_⟩
    · rw [parseFunction] at h
      obtain ⟨i₁, h₁, h⟩ := bind_some h
      obtain ⟨⟨fs, i₂⟩, h₂, h⟩ := bind_some h
      obtain ⟨i₃, h₃, h⟩ := bind_some h
      obtain ⟨⟨cs, i₄⟩, h₄, h⟩ := bind_some h
      obtain ⟨i₅, h₅, h⟩ := bind_some h
      obtain ⟨⟨n, i₆⟩, h₆, h⟩ := bind_some h
      obtain ⟨i₇, h₇, h⟩ := bind_some h
      obtain ⟨⟨xs, i₈⟩, h₈, h⟩ := bind_some h
      obtain ⟨i₉, h₉, h⟩ := bind_some h
      obtain ⟨⟨ys, j₁⟩, k₁, h⟩ := bind_some h
      obtain ⟨j₂, k₂, h⟩ := bind_some h
      obtain ⟨⟨zs, j₃⟩, k₃, h⟩ := bind_some h
      obtain ⟨j₄, k₄, h⟩ := bind_some h
      obtain ⟨⟨ws, j₅⟩, k₅, h⟩ := bind_some h
      obtain ⟨j₆, k₆, h⟩ := bind_some h
      obtain ⟨⟨is, j₇⟩, k₇, h⟩ := bind_some h
      obtain ⟨j₈, k₈, he⟩ := bind_some h
      cases he
      have g₁ := expect_good h₁ hg
      obtain ⟨hfs, g₂⟩ := (ih g₁).2.1 h₂
      have g₃ := expect_good h₃ g₂
      obtain ⟨hcs, g₄⟩ := constantListStar_good h₄ g₃
      have g₅ := expect_good h₅ g₄
      obtain ⟨hn, g₆⟩ := parameterCount_good h₆ g₅
      have g₇ := expect_good h₇ g₆
      obtain ⟨hxs, g₈⟩ := identListStar_good h₈ g₇
      have g₉ := expect_good h₉ g₈
      obtain ⟨hys, g₁⟩ := identListStar_good k₁ g₉
      have g₂ := expect_good k₂ g₁
      obtain ⟨hzs, g₃⟩ := identListStar_good k₃ g₂
      have g₄ := expect_good k₄ g₃
      obtain ⟨hws, g₅⟩ := identListStar_good k₅ g₄
      have g₆ := expect_good k₆ g₅
      obtain ⟨his, g₇⟩ := instructionList_good k₇ g₆
      refine ⟨plain_tree ⟨rfl, rfl, hcs, hn, fun x hx => ?_, his⟩ hfs, expect_good k₈ g₇⟩
      rcases List.mem_append.mp hx with hx | hx
      · rcases List.mem_append.mp hx with hx | hx
        · rcases List.mem_append.mp hx with hx | hx
          · exact hxs x hx
          · exact hys x hx
        · exact hzs x hx
      · exact hws x hx
    · simp only [functionListStar] at h
      split at h
      · cases h
        exact ⟨fun _ h => absurd h List.not_mem_nil, hg⟩
      · exact (ih hg).2.2 h
    · rw [functionListPlus] at h
      obtain ⟨⟨f, ts⟩, hf, h⟩ := bind_some h
      obtain ⟨hplain, hts⟩ := (ih hg).1 hf
      dsimp only at h
      split at h
      · next ts' =>
        obtain ⟨⟨gs, us⟩, hgs, he⟩ := bind_some h
        cases he
        obtain ⟨hgs', hus⟩ := (ih (good_tail hts)).2.2 hgs
        refine ⟨fun k hk => ?_, hus⟩
        rcases List.mem_cons.mp hk with rfl | hk
        · exact hplain
        · exact hgs' k hk
      · cases h
        refine ⟨fun k hk => ?_, hts⟩
        rw [List.mem_singleton.mp hk]
        exact hplain

end ParseLemmas

open ParseLemmas

/-! ## Exactly the plain functions come back -/

theorem roundTrips_of_plain {f : Function} (h : ∀ g, SubFunction f g → Plain g) : RoundTrips f := by
  have hlex : lex (print 0 f) = tokens f := by
    have := lex_print 0 f h []
    rwa [List.append_nil, lex_nil, List.append_nil] at this
  have hparse := parseFunction_tokens f h (tokens f).length (Nat.le_refl _) []
  rw [List.append_nil] at hparse
  rw [RoundTrips, parse, hlex, hparse]

theorem plain_of_roundTrips {f : Function} (h : RoundTrips f) : ∀ g, SubFunction f g → Plain g := by
  unfold RoundTrips parse at h
  split at h
  · next g hg =>
    cases h
    exact ((parse_good _ (good_lex _ _ (Nat.le_refl _))).1 hg).1
  · cases h

/-- The text of a compiled program is read back as the program if and only if
every function in it is plain. -/
theorem compile_roundTrips_iff (prog : Program) :
    RoundTrips (compile prog) ↔ ∀ f, SubFunction (compile prog) f → Plain f :=
  ⟨plain_of_roundTrips, roundTrips_of_plain⟩

example : RoundTrips (compile (.cons (.assignment (.name "x") (.intConst 1)) .nil)) :=
  roundTrips_of_plain (plain_tree ⟨rfl, rfl, by decide, by decide, by decide, by decide⟩
    fun _ h => absurd h List.not_mem_nil)

/-- `print("a");` compiles to a `GarbageCollect`, whose mnemonic the grammar does not
have; `f = fun(x) { return x; };` to a function with an `arg_mapping`, which is not
printed; the constant of `x = "\"";` ends the string early. -/
theorem compile_not_roundTrips :
    ¬ RoundTrips
      (compile (.cons (.callStatement (.name "print") (.cons (.strConst "a") .nil)) .nil)) ∧
      ¬ RoundTrips (compile (.cons (.assignment (.name "f")
        (.function ["x"] (.cons (.ret (.lhs (.name "x"))) .nil))) .nil)) ∧
      ¬ RoundTrips (compile (.cons (.assignment (.name "x") (.strConst "\"")) .nil)) := by
  refine ⟨fun h => ?_, fun h => ?_, fun h => ?_⟩
  · have hp := plain_of_roundTrips h _ (.refl _)
    exact absurd (hp.instructions .garbageCollect (by decide)) (by decide)
  · have hp := plain_of_roundTrips h _ (.step (.refl _) List.mem_cons_self)
    exact absurd hp.argMapping (by decide)
  · have hp := plain_of_roundTrips h _ (.refl _)
    exact absurd (hp.constants (.string "\"") (by decide)) (by decide)

end Beaverc.Text

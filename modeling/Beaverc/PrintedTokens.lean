import Beaverc.PrettyPrinter

/-!
# Reading printed text

What the pretty printer writes is put together from messages. A token at the end of
a message may go on in the next one, so a text is closed or it is read only up to a
boundary; every message that comes behind an expression begins with one.
`reads_tree` follows a derivation of the tree: where no string or record is misread,
the lexer reads the tokens that were meant.
-/

namespace Beaverc
open Source

namespace PrettyPrinter

namespace PrettyPrinterLemmas

/-! ### Reading what is printed -/

/-- What may stand behind a token that does not end itself. -/
def Boundary (rest : List Char) : Prop :=
  ∀ c ∈ rest.head?, Text.isNameChar c = false ∧ c ≠ '=' ∧ c ≠ '/'

/-- The lexer reads the text as these tokens; if it is not closed, up to a boundary. -/
def Lexes (closed : Bool) (t : List Char) (ts : List Token) : Prop :=
  ∀ rest, (closed = false → Boundary rest) → lex (t ++ rest) = ts ++ lex rest

namespace Lexes

variable {b : Bool} {t u : List Char} {ts us : List Token}

theorem nil : Lexes true [] [] :=
  fun _ _ => rfl

theorem weaken (h : Lexes true t ts) : Lexes b t ts :=
  fun rest _ => h rest Bool.noConfusion

theorem append_closed (h : Lexes true t ts) (h' : Lexes b u us) :
    Lexes b (t ++ u) (ts ++ us) := by
  intro rest hr
  rw [List.append_assoc, h _ Bool.noConfusion, h' rest hr, List.append_assoc]

theorem append (h : Lexes false t ts) (h' : Lexes b u us) (hu : ∀ rest, Boundary (u ++ rest)) :
    Lexes b (t ++ u) (ts ++ us) := by
  intro rest hr
  rw [List.append_assoc, h _ fun _ => hu rest, h' rest hr, List.append_assoc]

theorem blank {c : Char} (hc : Text.isSpace c = true) (h : Lexes b t ts) : Lexes b (c :: t) ts := by
  intro rest hr
  rw [List.cons_append, lex_space hc, h rest hr]

theorem extendedBy_boundary (l : Lexeme) {c : Char}
    (hc : Text.isNameChar c = false ∧ c ≠ '=' ∧ c ≠ '/') : l.extendedBy c = false := by
  obtain ⟨hn, he, hs⟩ := hc
  cases l with
  | word w h => exact hn
  | int digits hne h =>
    by_contra hd
    rw [Bool.not_eq_false] at hd
    have hdigit : c.isDigit = true := hd
    have hname : Text.isNameChar c = true := by
      rw [Text.isNameChar, Char.isAlphanum, hdigit, Bool.or_true, Bool.true_or]
    rw [hn] at hname
    cases hname
  | str body h hnul => rfl
  | symbol p h =>
    show joins p.1 c = false
    rw [joins, decide_eq_false he, decide_eq_false hs]
    rfl

theorem lexeme (l : Lexeme) : Lexes false l.text [l.token] :=
  fun _ hr => LayoutLemmas.lex_lexeme l fun c hc => extendedBy_boundary l (hr rfl c hc)

theorem symbol {p : List Char × Token} (hp : p ∈ symbols) (hj : ∀ c, joins p.1 c = false) :
    Lexes true p.1 [p.2] :=
  fun _ _ => LayoutLemmas.lex_lexeme (.symbol p hp) fun c _ => hj c

end Lexes

/-- Whatever line the printer is on, what the calls write is read as these tokens. -/
def Reads (closed : Bool) (cs : List Command) (ts : List Token) : Prop :=
  ∀ s : Printer, Lexes closed (s.run cs) ts

/-- What the calls write begins with a boundary. -/
def Begins (cs : List Command) : Prop :=
  ∀ (s : Printer) (rest : List Char), Boundary (s.run cs ++ rest)

theorem run_append (s : Printer) (cs ds : List Command) :
    s.run (cs ++ ds) = s.run cs ++ (s.afterAll cs).run ds := by
  induction cs generalizing s with
  | nil => rfl
  | cons c cs ih =>
    rw [List.cons_append, Printer.run, Printer.run, ih, List.append_assoc]
    rfl

theorem lexes_indentation {b : Bool} {t : List Char} {ts : List Token} (s : Printer)
    (h : Lexes b t ts) : Lexes b (s.indentation ++ t) ts := by
  unfold Printer.indentation
  split
  · exact h
  · induction 2 * s.indentLevel with
    | zero => exact h
    | succ n ih => exact ih.blank rfl

theorem boundary_space {c : Char} (hc : c = ' ' ∨ c = '\n') (rest : List Char) :
    Boundary (c :: rest) := by
  rintro d ⟨⟩
  rcases hc with rfl | rfl
  · exact ⟨rfl, by decide, by decide⟩
  · exact ⟨rfl, by decide, by decide⟩

theorem boundary_indentation (s : Printer) {t : List Char} (h : Boundary t) :
    Boundary (s.indentation ++ t) := by
  unfold Printer.indentation
  split
  · exact h
  · cases 2 * s.indentLevel with
    | zero => exact h
    | succ n => exact boundary_space (.inl rfl) _

namespace Reads

variable {b : Bool} {cs ds : List Command} {ts us : List Token} {msg : List Char}

theorem nil : Reads true [] [] :=
  fun _ => .nil

theorem weaken (h : Reads true cs ts) : Reads b cs ts :=
  fun s => (h s).weaken

theorem append_closed (h : Reads true cs ts) (h' : Reads b ds us) :
    Reads b (cs ++ ds) (ts ++ us) := by
  intro s
  rw [run_append]
  exact (h s).append_closed (h' _)

theorem append (h : Reads false cs ts) (h' : Reads b ds us) (hd : Begins ds) :
    Reads b (cs ++ ds) (ts ++ us) := by
  intro s
  rw [run_append]
  exact (h s).append (h' _) (hd _)

theorem print (h : Lexes b msg ts) : Reads b [.print msg] ts := by
  intro s
  show Lexes b (s.indentation ++ msg ++ []) ts
  rw [List.append_nil]
  exact lexes_indentation s h

theorem println (h : Lexes false msg ts) : Reads true [.println msg] ts := by
  intro s
  show Lexes true (s.indentation ++ msg ++ ['\n'] ++ []) ts
  have hend : Lexes true (msg ++ ['\n']) (ts ++ []) :=
    h.append (Lexes.nil.blank rfl) fun rest => boundary_space (.inr rfl) rest
  rw [List.append_nil ts] at hend
  rw [List.append_nil, List.append_assoc]
  exact lexes_indentation s hend

theorem say_cons (h : Lexes true msg ts) (h' : Reads b ds us) :
    Reads b (.print msg :: ds) (ts ++ us) :=
  (print h).append_closed h'

/-- Calls that write nothing but the end of a line. -/
theorem silent_cons {c : Command} (hc : c = .indent ∨ c = .dedent ∨ c = .nextline)
    (h : Reads b ds us) : Reads b (c :: ds) us := by
  intro s
  rcases hc with rfl | rfl | rfl
  · exact h _
  · exact h _
  · show Lexes b ((if s.lineStarted then ['\n'] else []) ++ _) us
    split
    · exact (h _).blank rfl
    · exact h _

end Reads

theorem begins_print (c : Char) (msg : List Char) {ds : List Command}
    (hc : Text.isNameChar c = false ∧ c ≠ '=' ∧ c ≠ '/') : Begins (.print (c :: msg) :: ds) := by
  intro s rest
  show Boundary (s.indentation ++ c :: msg ++ _ ++ rest)
  rw [List.append_assoc, List.append_assoc]
  refine boundary_indentation s ?_
  rintro d ⟨⟩
  exact hc

theorem begins_println {c : Char} {msg : List Char} {ds : List Command}
    (hc : Text.isNameChar c = false ∧ c ≠ '=' ∧ c ≠ '/') : Begins (.println (c :: msg) :: ds) := by
  intro s rest
  show Boundary (s.indentation ++ c :: msg ++ ['\n'] ++ _ ++ rest)
  rw [List.append_assoc, List.append_assoc, List.append_assoc]
  refine boundary_indentation s ?_
  rintro d ⟨⟩
  exact hc

/-! ### The messages -/

/-- A character that ends itself and what stands before it. -/
structure IsPunctuation (c : Char) : Prop where
  symbol : ([c], Token.char c) ∈ symbols
  alone : c ≠ '<' ∧ c ≠ '>' ∧ c ≠ '=' ∧ c ≠ '/'
  boundary : Text.isNameChar c = false

theorem lexes_punctuation {c : Char} (h : IsPunctuation c) : Lexes true [c] [.char c] := by
  obtain ⟨hlt, hgt, heq, hslash⟩ := h.alone
  refine Lexes.symbol h.symbol fun d => ?_
  simp [joins, hlt, hgt, heq, hslash]

theorem boundary_punctuation {c : Char} (h : IsPunctuation c) :
    Text.isNameChar c = false ∧ c ≠ '=' ∧ c ≠ '/' :=
  ⟨h.boundary, h.alone.2.2⟩

theorem isPunctuation_of_mem {c : Char}
    (h : c ∈ ['(', ')', '[', ']', '.', ',', ';', '\x7b', '\x7d']) : IsPunctuation c := by
  simp only [List.mem_cons, List.not_mem_nil, or_false] at h
  rcases h with rfl | rfl | rfl | rfl | rfl | rfl | rfl | rfl | rfl <;>
    exact ⟨by decide, by decide, rfl⟩

/-- A word and what stands behind it. -/
theorem lexes_word {b : Bool} {w t : List Char} {ts : List Token} (hw : IsWord w)
    (ht : ∀ rest, Boundary (t ++ rest)) (h : Lexes b t ts) :
    Lexes b (w ++ t) (wordToken w :: ts) :=
  (Lexes.lexeme (.word w hw)).append h ht

/-- An operator between spaces. -/
theorem lexes_operator {p : List Char × Token} (hp : p ∈ symbols) :
    Lexes true (' ' :: (p.1 ++ [' '])) [p.2] :=
  ((Lexes.lexeme (.symbol p hp)).append (Lexes.nil.blank rfl)
    fun _ => boundary_space (.inl rfl) _).blank rfl

theorem lexes_open : Lexes true "(".toList [.char '('] :=
  lexes_punctuation (isPunctuation_of_mem (by decide))

theorem lexes_close : Lexes true ") ".toList [.char ')'] :=
  (lexes_punctuation (isPunctuation_of_mem (by decide))).append_closed (Lexes.nil.blank rfl)

theorem lexes_if : Lexes true "if (".toList [.keyword .if, .char '('] :=
  lexes_word (w := ['i', 'f']) ⟨by decide, by rintro c ⟨⟩; rfl, rfl⟩
    (fun _ => boundary_space (.inl rfl) _) (lexes_open.blank rfl)

theorem lexes_while : Lexes true "while (".toList [.keyword .while, .char '('] :=
  lexes_word (w := ['w', 'h', 'i', 'l', 'e']) ⟨by decide, by rintro c ⟨⟩; rfl, rfl⟩
    (fun _ => boundary_space (.inl rfl) _) (lexes_open.blank rfl)

theorem lexes_fun : Lexes true "fun(".toList [.keyword .fun, .char '('] := by
  refine lexes_word (w := ['f', 'u', 'n']) ⟨by decide, by rintro c ⟨⟩; rfl, rfl⟩ (fun rest => ?_)
    lexes_open
  rintro c ⟨⟩
  exact ⟨rfl, by decide, by decide⟩

theorem lexes_else : Lexes true " else ".toList [.keyword .else] :=
  (lexes_word (w := ['e', 'l', 's', 'e']) ⟨by decide, by rintro c ⟨⟩; rfl, rfl⟩
    (fun _ => boundary_space (.inl rfl) _) (Lexes.nil.blank rfl)).blank rfl

theorem lexes_return : Lexes true "return ".toList [.keyword .return] :=
  lexes_word (w := ['r', 'e', 't', 'u', 'r', 'n']) ⟨by decide, by rintro c ⟨⟩; rfl, rfl⟩
    (fun _ => boundary_space (.inl rfl) _) (Lexes.nil.blank rfl)

theorem lexes_global : Lexes true "global ".toList [.keyword .global] :=
  lexes_word (w := ['g', 'l', 'o', 'b', 'a', 'l']) ⟨by decide, by rintro c ⟨⟩; rfl, rfl⟩
    (fun _ => boundary_space (.inl rfl) _) (Lexes.nil.blank rfl)

/-! ### The calls of a tree -/

section Calls

variable {b : Bool} {cs ds : List Command} {ts us : List Token}

theorem begins_say {c : Char} (hc : IsPunctuation c) : Begins (.print [c] :: cs) :=
  begins_print c [] (boundary_punctuation hc)

theorem reads_say {c : Char} (hc : IsPunctuation c) (h : Reads b cs ts) :
    Reads b (.print [c] :: cs) (.char c :: ts) :=
  Reads.say_cons (lexes_punctuation hc) h

theorem reads_println {c : Char} (hc : IsPunctuation c) : Reads true [.println [c]] [.char c] :=
  Reads.println (lexes_punctuation hc).weaken

theorem reads_line {c : Char} (hc : IsPunctuation c) (h : Reads b cs ts) :
    Reads b (.println [c] :: cs) (.char c :: ts) :=
  (reads_println hc).append_closed h

/-- A token that does not end itself, and a sign behind it. -/
theorem reads_then {c : Char} (hc : IsPunctuation c) (h : Reads false cs ts) (h' : Reads b ds us) :
    Reads b (cs ++ .print [c] :: ds) (ts ++ .char c :: us) :=
  h.append (reads_say hc h') (begins_say hc)

theorem reads_end {c : Char} (hc : IsPunctuation c) (h : Reads false cs ts) :
    Reads true (cs ++ [.println [c]]) (ts ++ [.char c]) :=
  h.append (reads_println hc) (begins_println (boundary_punctuation hc))

theorem reads_parens (h : Reads false cs ts) : Reads true (parens cs) (parensTokens ts) :=
  reads_say (isPunctuation_of_mem (by decide))
    (reads_then (isPunctuation_of_mem (by decide)) h .nil)

theorem reads_braces (h : Reads true cs ts) : Reads true (braces cs) (bracesTokens ts) := by
  have hend : Reads true [.dedent, .print ['\x7d']] [.char '\x7d'] :=
    .silent_cons (.inr (.inl rfl)) (reads_say (isPunctuation_of_mem (by decide)) .nil)
  exact reads_line (isPunctuation_of_mem (by decide))
    (.silent_cons (.inl rfl) (h.append_closed hend))

/-- `) ` behind a condition or the parameters, and a block. -/
theorem reads_body (h : Reads false cs ts) (h' : Reads true ds us) :
    Reads true (cs ++ say ") " :: ds) (ts ++ .char ')' :: us) :=
  h.append (.say_cons lexes_close h') (begins_print ')' [' '] ⟨rfl, by decide, by decide⟩)

theorem pretty_append_statement (b : Block) (s : Statement) :
    (b.append s).pretty = b.pretty ++ s.pretty := by
  cases b with
  | nil => exact List.append_nil _
  | cons head tail =>
    rw [Block.append, Block.pretty, Block.pretty, pretty_append_statement tail s,
      List.append_assoc]

theorem pretty_append_argument {a : Arguments} (ha : a ≠ .nil) (first : Bool) (e : Expression) :
    (a.append e).pretty first = a.pretty first ++ say ", " :: e.pretty := by
  match a with
  | .nil => exact absurd rfl ha
  | .cons head .nil => simp [Arguments.append, Arguments.pretty]
  | .cons head (.cons second tail) =>
    have ih := pretty_append_argument (a := .cons second tail) Arguments.noConfusion false e
    rw [Arguments.append, Arguments.pretty, Arguments.pretty, ih, List.append_assoc,
      List.append_assoc]

theorem visitNames_append (xs : List String) (first : Bool) (x : String) :
    visitNames first (xs ++ [x]) =
      visitNames first xs ++ ((if first && xs.isEmpty then [] else [say " "]) ++ [say x]) := by
  induction xs generalizing first with
  | nil => simp [visitNames]
  | cons y ys ih => simp [visitNames, ih]

end Calls

/-! ### What the parser was given -/

/-- What is known of a token of a text. -/
def Lexed : Token → Prop
  | .name x => IsWord x ∧ wordToken x = .name x
  | .int i => -0x80000000 ≤ i ∧ i < 0x80000000
  | .str s => Char.ofNat 0 ∉ s
  | _ => True

/-- The printer's calls for a tree that is derived from `n`. -/
def treePretty (n : Nonterminal) : Tree → List Command
  | .block b =>
    match n with
    | .block => braces b.pretty
    | .elseBlock => elsePart b b.pretty
    | _ => b.pretty
  | .statement s => s.pretty
  | .expression e => e.pretty
  | .lhs l => l.pretty
  | .call target arguments => target.pretty ++ parens (arguments.pretty true)
  | .arguments a => a.pretty true
  | .names xs => visitNames true xs
  | .fields fs => fs.pretty true

/-- A statement or a block ends itself. -/
def closes : Tree → Bool
  | .block _ | .statement _ => true
  | _ => false

theorem treePretty_statements {n : Nonterminal} (hn : n.isStatements = true) (b : Block) :
    treePretty n (.block b) = b.pretty := by
  cases n with
  | program | statementList => rfl
  | _ => cases hn

/-- The defects that change how the text is read. -/
def misread : Measure :=
  { defects with int := fun _ => 0 }

theorem reads_nextline {cs : List Command} {ts : List Token} (h : Reads true cs ts) :
    Reads true (cs ++ [.nextline]) ts := by
  have hend := h.append_closed (.silent_cons (.inr (.inr rfl)) .nil)
  rwa [List.append_nil] at hend

theorem reads_name {x : List Char} (hx : Lexed (.name x)) :
    Reads false [say (String.ofList x)] [nameToken (String.ofList x)] := by
  rw [nameToken_ofList, say, String.toList_ofList, ← hx.2]
  exact .print (.lexeme (.word x hx.1))

theorem reads_int {i : Int} (hi : Lexed (.int i)) :
    Reads false [.print (Text.printInt i)] (intTokens i) := by
  obtain ⟨d, w, hdw, hd, hw⟩ := Text.LexLemmas.printInt_digits i.natAbs
  have hdigits : (Nat.toDigits 10 i.natAbs).all Char.isDigit = true := by
    rw [hdw, List.all_cons, hd, hw]
    rfl
  have hlexeme : Lexes false (Nat.toDigits 10 i.natAbs)
      [.int (Text.atoi false (Nat.toDigits 10 i.natAbs))] :=
    .lexeme (.int _ (hdw ▸ List.cons_ne_nil d w) hdigits)
  rw [Text.printInt, intTokens]
  split
  · exact .print (Lexes.append_closed (t := ['-'])
      (.symbol (p := (['-'], .minus)) (by decide) fun c => by simp [joins]) hlexeme)
  · next hneg =>
    have hvalue : Text.atoi false (Nat.toDigits 10 i.natAbs) = i := by
      obtain ⟨hlow, hhigh⟩ := hi
      rw [Text.atoi, Nat.ofDigitChars_ten_toDigits]
      simp only [Bool.false_eq_true, if_false]
      rw [Int.bmod_eq_of_le] <;> omega
    rw [hvalue] at hlexeme
    exact .print hlexeme

theorem reads_str {s : List Char} (he : quotesEscaped s = true) (hs : Char.ofNat 0 ∉ s) :
    Reads false [.print ('"' :: (s ++ ['"']))] [.str s] :=
  .print (.lexeme (.str s (isBody_of_escaped he) hs))

theorem reads_word {w : List Char} {t : Token} (hw : IsWord w) (ht : wordToken w = t) :
    Reads false [.print w] [t] :=
  ht ▸ .print (.lexeme (.word w hw))

theorem lexes_opstring (op : BinOpSym) :
    Lexes true (' ' :: (op.opstring ++ [' '])) [op.token] := by
  have hp : (op.opstring, op.token) ∈ symbols := by cases op <;> decide
  exact lexes_operator hp

theorem noNul_stringConstant {s : List Char} (h : Char.ofNat 0 ∉ s) :
    Char.ofNat 0 ∉ stringConstant s := by
  rw [StringEscapesLemmas.stringConstant_eq]
  fun_induction decode s with
  | case1 | case2 => exact h
  | case3 rest ih | case4 rest _ ih | case5 rest _ _ ih =>
    simp only [List.mem_cons, not_or] at h
    rw [List.mem_cons, not_or]
    exact ⟨by decide, ih h.2.2⟩
  | case6 d rest _ _ _ ih =>
    simp only [List.mem_cons, not_or] at h ⊢
    exact ⟨h.1, h.2.1, ih h.2.2⟩
  | case7 c d rest _ ih =>
    rw [List.mem_cons, not_or] at h ⊢
    exact ⟨h.1, ih h.2⟩

/-! ### One node of a tree -/

theorem reads_strConst {s : List Char} (ht : Lexed (.str s))
    (hd : (Expression.strConst (String.ofList (stringConstant s))).measure misread = 0) :
    Reads false (Expression.strConst (String.ofList (stringConstant s))).pretty
      (Expression.strConst (String.ofList (stringConstant s))).tokens := by
  -- a quote that is printed as it is would be misread
  have hescaped : quotesEscaped (stringConstant s) = true := by
    by_contra hne
    have hone : (if quotesEscaped (String.ofList (stringConstant s)).toList then 0 else 1) = 0 := hd
    rw [String.toList_ofList, if_neg hne] at hone
    cases hone
  show Reads false [.print ('"' :: ((String.ofList (stringConstant s)).toList ++ ['"']))]
    [.str (String.ofList (stringConstant s)).toList]
  rw [String.toList_ofList]
  exact reads_str hescaped (noNul_stringConstant ht)

theorem reads_boolConst (b : Bool) :
    Reads false (Expression.boolConst b).pretty (Expression.boolConst b).tokens := by
  cases b with
  | false =>
    exact reads_word (w := ['f', 'a', 'l', 's', 'e']) ⟨by decide, by rintro c ⟨⟩; rfl, rfl⟩ rfl
  | true => exact reads_word (w := ['t', 'r', 'u', 'e']) ⟨by decide, by rintro c ⟨⟩; rfl, rfl⟩ rfl

/-- A record that is not empty is misread. -/
theorem reads_record {fs : Fields} (hd : (Expression.record fs).measure misread = 0) :
    Reads false (Expression.record fs).pretty (Expression.record fs).tokens := by
  cases fs with
  | nil =>
    have hopen := isPunctuation_of_mem (c := '\x7b') (by decide)
    exact (reads_say hopen (reads_println (isPunctuation_of_mem (by decide)))).weaken
  | cons key value tail => exact absurd (Nat.add_eq_zero_iff.mp hd).1 Nat.one_ne_zero

theorem reads_binaryOp (op : BinOpSym) {left right : Expression}
    (hl : Reads false left.pretty left.tokens) (hr : Reads false right.pretty right.tokens) :
    Reads false (Expression.binaryOp op left right).pretty
      (Expression.binaryOp op left right).tokens :=
  ((reads_parens hl).append_closed (.say_cons (lexes_opstring op) (reads_parens hr))).weaken

theorem reads_unaryOp (op : UnOpSym) {e : Expression} (he : Reads false e.pretty e.tokens) :
    Reads false (Expression.unaryOp op e).pretty (Expression.unaryOp op e).tokens := by
  cases op with
  | not =>
    exact (Reads.say_cons (.symbol (p := (['!'], .not)) (by decide) fun c => by simp [joins])
      (reads_parens he)).weaken
  | neg =>
    exact (Reads.say_cons (.symbol (p := (['-'], .minus)) (by decide) fun c => by simp [joins])
      (reads_parens he)).weaken

theorem reads_append_argument {a : Arguments} {e : Expression} (hsome : a ≠ .nil)
    (ha : Reads false (a.pretty true) (a.tokens true)) (he : Reads false e.pretty e.tokens) :
    Reads false ((a.append e).pretty true) ((a.append e).tokens true) := by
  rw [tokens_append_argument hsome, pretty_append_argument hsome]
  have hcomma : Lexes true ", ".toList [.char ','] :=
    (lexes_punctuation (isPunctuation_of_mem (by decide))).append_closed (Lexes.nil.blank rfl)
  exact ha.append (.say_cons hcomma he) (begins_print ',' [' '] ⟨rfl, by decide, by decide⟩)

theorem reads_append_name {xs : List String} {x : String}
    (hxs : Reads false (visitNames true xs) (xs.map nameToken))
    (hx : Reads false [say x] [nameToken x]) :
    Reads false (visitNames true (xs ++ [x])) ((xs ++ [x]).map nameToken) := by
  rw [visitNames_append, List.map_append, List.map_singleton]
  cases xs with
  | nil => exact hx
  | cons y ys =>
    exact hxs.append (.say_cons (Lexes.nil.blank (c := ' ') rfl) hx)
      (begins_print ' ' [] ⟨rfl, by decide, by decide⟩)

/-- The text of a tree without such defects is read as the tokens that were meant. -/
theorem reads_tree {n : Nonterminal} {ts : List Token} {v : Tree} (h : Derives n ts v)
    (ht : ∀ t ∈ ts, Lexed t) (hd : treeCost misread v = 0) :
    Reads (closes v) (treePretty n v) (treeTokens n v) := by
  have hsign {c : Char} (hc : c ∈ ['(', ')', '[', ']', '.', ',', ';', '\x7b', '\x7d']) :=
    isPunctuation_of_mem hc
  induction h with
  | @noStatement n hn =>
    rw [(treeTokens_statements hn .nil).2, treePretty_statements hn]
    exact .nil
  | @statements n ts us b s hn _ _ ihb ihs =>
    -- no statement of the list is misread
    have hboth : b.measure misread + s.measure misread = 0 :=
      (SourceGrammarLemmas.measure_append_statement b s).symm.trans hd
    obtain ⟨hb, hs⟩ := Nat.add_eq_zero_iff.mp hboth
    have hfirst := ihb (fun t hm => ht t (List.mem_append_left _ hm)) hb
    rw [(treeTokens_statements hn b).2, treePretty_statements hn] at hfirst
    rw [(treeTokens_statements hn (b.append s)).2, treePretty_statements hn,
      tokens_append_statement, pretty_append_statement]
    exact hfirst.append_closed (ihs (fun t hm => ht t (List.mem_append_right _ hm)) hs)
  | block _ ih => exact reads_braces (ih (fun t hm => ht t (by simp [hm])) hd)
  | assignment _ _ ihl ihe =>
    obtain ⟨hle, -⟩ := Nat.add_eq_zero_iff.mp hd
    obtain ⟨hl, he⟩ := Nat.add_eq_zero_iff.mp hle
    have hexpr := reads_end (hsign (c := ';') (by decide))
      (ihe (fun t hm => ht t (by simp [hm])) he)
    exact (ihl (fun t hm => ht t (by simp [hm])) hl).append
      (.say_cons (lexes_operator (p := (['='], .char '=')) (by decide)) hexpr)
      (begins_print ' ' ['=', ' '] ⟨rfl, by decide, by decide⟩)
  | callStatement _ ih =>
    exact reads_end (hsign (by decide)) (ih (fun t hm => ht t (by simp [hm])) hd)
  | global x =>
    exact .say_cons lexes_global
      (reads_end (hsign (by decide)) (reads_name (ht (.name x) (by simp))))
  | ifStatement _ _ _ ihe ihb ihc =>
    obtain ⟨heb, hc⟩ := Nat.add_eq_zero_iff.mp hd
    obtain ⟨he, hb⟩ := Nat.add_eq_zero_iff.mp heb
    have hblocks := (ihb (fun t hm => ht t (by simp [hm])) hb).append_closed
      (ihc (fun t hm => ht t (by simp [hm])) hc)
    exact .say_cons lexes_if
      (reads_body (ihe (fun t hm => ht t (by simp [hm])) he) (reads_nextline hblocks))
  | @elseBlock ts b _ ih =>
    have hblock := ih (fun t hm => ht t (by simp [hm])) hd
    cases b with
    | nil => exact .nil
    | cons head tail => exact .say_cons lexes_else hblock
  | noElse => exact .nil
  | whileLoop _ _ ihe ihb =>
    obtain ⟨he, hb⟩ := Nat.add_eq_zero_iff.mp hd
    have hblock := ihb (fun t hm => ht t (by simp [hm])) hb
    exact .say_cons lexes_while
      (reads_body (ihe (fun t hm => ht t (by simp [hm])) he) (reads_nextline hblock))
  | ret _ ih =>
    exact .say_cons lexes_return
      (reads_end (hsign (by decide)) (ih (fun t hm => ht t (by simp [hm])) hd))
  | function _ _ ihx ihb =>
    obtain ⟨hx, hb⟩ := Nat.add_eq_zero_iff.mp hd
    have hbody := reads_body (ihx (fun t hm => ht t (by simp [hm])) hx)
      (ihb (fun t hm => ht t (by simp [hm])) hb)
    exact (Reads.say_cons lexes_fun hbody).weaken
  | record => exact reads_record hd
  | next _ _ ih => exact ih ht hd
  | binaryOp op _ _ ihl ihr =>
    obtain ⟨hl, hr⟩ := Nat.add_eq_zero_iff.mp hd
    exact reads_binaryOp op
      (ihl (fun t hm => ht t (by simp [hm])) (Nat.add_eq_zero_iff.mp hl).1)
      (ihr (fun t hm => ht t (by simp [hm])) hr)
  | not _ ih =>
    exact reads_unaryOp .not
      (ih (fun t hm => ht t (by simp [hm])) (Nat.add_eq_zero_iff.mp hd).2)
  | neg _ ih =>
    exact reads_unaryOp .neg
      (ih (fun t hm => ht t (by simp [hm])) (Nat.add_eq_zero_iff.mp hd).2)
  | ofLHS _ ih | ofCall _ ih | someArguments _ ih => exact ih ht hd
  | int i => exact reads_int (ht (.int i) (by simp))
  | str s => exact reads_strConst (ht (.str s) (by simp)) hd
  | bool b => exact reads_boolConst b
  | none =>
    exact reads_word (w := ['N', 'o', 'n', 'e']) ⟨by decide, by rintro c ⟨⟩; rfl, rfl⟩ rfl
  | parens _ ih => exact ih (fun t hm => ht t (by simp [hm])) hd
  | name x => exact reads_name (ht (.name x) (by simp))
  | field x _ ih =>
    exact reads_then (hsign (by decide)) (ih (fun t hm => ht t (by simp [hm])) hd)
      (reads_name (ht (.name x) (by simp)))
  | index _ _ ihl ihe =>
    obtain ⟨hl, he⟩ := Nat.add_eq_zero_iff.mp hd
    have hexpr := reads_then (b := true) (hsign (c := ']') (by decide))
      (ihe (fun t hm => ht t (by simp [hm])) he) .nil
    exact (reads_then (hsign (by decide)) (ihl (fun t hm => ht t (by simp [hm])) hl) hexpr).weaken
  | call _ _ ihl iha =>
    obtain ⟨hl, ha⟩ := Nat.add_eq_zero_iff.mp hd
    exact ((ihl (fun t hm => ht t (by simp [hm])) hl).append
      (reads_parens (iha (fun t hm => ht t (by simp [hm])) ha))
      (begins_say (hsign (by decide)))).weaken
  | noArgument | noName | noField => exact Reads.nil.weaken
  | @argument ts e _ ih =>
    show Reads false ([] ++ (e.pretty ++ [])) ([] ++ (e.tokens ++ []))
    rw [List.nil_append, List.append_nil, List.nil_append, List.append_nil]
    exact ih ht hd
  | @arguments ts us a e ha _ iha ihe =>
    have hboth : a.measure misread + e.measure misread = 0 :=
      (SourceGrammarLemmas.measure_append_argument a e).symm.trans hd
    obtain ⟨hda, hde⟩ := Nat.add_eq_zero_iff.mp hboth
    have hsome := some_of_fullArgList ha rfl a rfl
    exact reads_append_argument hsome (iha (fun t hm => ht t (by simp [hm])) hda)
      (ihe (fun t hm => ht t (by simp [hm])) hde)
  | @names ts xs x _ ih =>
    have hxs := ih (fun t hm => ht t (by simp [hm])) (Nat.add_eq_zero_iff.mp
      ((SourceGrammarLemmas.names_append xs (String.ofList x)).symm.trans hd)).1
    exact reads_append_name hxs (reads_name (ht (.name x) (by simp)))
  | @fields ts us fs x e _ _ _ _ =>
    -- fields are never read alone: their record is misread
    have hne := insert_ne_nil fs (String.ofList x) e
    cases hfs : fs.insert (String.ofList x) e with
    | nil => exact absurd hfs hne
    | cons key value tail =>
      rw [hfs] at hd
      exact absurd (Nat.add_eq_zero_iff.mp hd).1 Nat.one_ne_zero

end PrettyPrinterLemmas

end PrettyPrinter

end Beaverc

import Beaverc.PrintedTokens

/-!
# Round trips of the pretty printer

A text has to have the characters that its tree needs: semicolons behind fields and
statements, and the backslashes of the strings, one more for each string that is not
escaped. What is printed has them but for the defects, so a program with a record or
a string that is misread does not come back, however its text may be read. Where the
text is read as it was meant, the minus signs of negative integers are too many.
-/

namespace Beaverc
open Source

namespace PrettyPrinter

namespace PrettyPrinterLemmas

/-! ### What the text provides -/

/-- The characters that are counted. -/
def counted (c : Char) : Bool :=
  c = ';' || c = '\\' || c = Char.ofNat 0

/-- The characters that a text must have at least to be parsed to a tree; a string that
is not escaped took one more. -/
def needed : Measure :=
  { name := fun x => x.toList.countP counted
    str := fun value =>
      value.toList.countP counted + if quotesEscaped value.toList then 0 else 1
    semicolon := 1 }

theorem countP_mono {s t : List Char} (c : Char) (h : s.countP counted ≤ t.countP counted) :
    (c :: s).countP counted ≤ (c :: t).countP counted := by
  rw [List.countP_cons, List.countP_cons]
  exact Nat.add_le_add_right h _

theorem countP_skip {c : Char} (hc : counted c = false) (s : List Char) :
    (c :: s).countP counted = s.countP counted :=
  List.countP_cons_of_neg (by rw [hc]; exact Bool.false_ne_true)

theorem countP_backslash (s : List Char) :
    ('\\' :: s).countP counted = s.countP counted + 1 :=
  List.countP_cons_of_pos rfl

theorem countP_decode (s : List Char) : (decode s).countP counted ≤ s.countP counted := by
  fun_induction decode s with
  | case1 | case2 => exact Nat.le_refl _
  | case3 rest ih => exact countP_mono _ (ih.trans (by rw [countP_backslash]; exact Nat.le_succ _))
  | case4 rest _ ih | case5 rest _ _ ih =>
    rw [countP_skip rfl, countP_backslash, countP_skip rfl]
    exact Nat.le_succ_of_le ih
  | case6 d rest _ _ _ ih => exact countP_mono _ (countP_mono _ ih)
  | case7 c d rest _ ih => exact countP_mono _ ih

/-- What the decoder shortens has lost a backslash; the rest keeps its quotes escaped. -/
theorem decode_body {body : List Char} (h : IsBody body) :
    decode body = body ∧ quotesEscaped body = true ∨
      (decode body).countP counted + 1 ≤ body.countP counted := by
  induction h with
  | nil => exact .inl ⟨rfl, rfl⟩
  | @escape c rest hc hb ih =>
    have hrest := countP_decode rest
    simp only [isEscape, Bool.or_eq_true, decide_eq_true_eq] at hc
    rcases hc with ((rfl | rfl) | rfl) | rfl
    · refine .inr ?_
      rw [decode, if_pos rfl, if_neg (by decide), if_neg (by decide), if_pos rfl,
        countP_skip rfl, countP_backslash, countP_skip rfl]
      exact Nat.succ_le_succ hrest
    · refine .inr ?_
      rw [decode, if_pos rfl, if_neg (by decide), if_pos rfl, countP_skip rfl, countP_backslash,
        countP_skip rfl]
      exact Nat.succ_le_succ hrest
    · refine .inr ?_
      rw [decode, if_pos rfl, if_pos rfl, countP_backslash, countP_backslash, countP_backslash]
      exact Nat.succ_le_succ (Nat.succ_le_succ hrest)
    · have hdecode : decode ('\\' :: '"' :: rest) = '\\' :: '"' :: decode rest := by
        rw [decode, if_pos rfl, if_neg (by decide), if_neg (by decide), if_neg (by decide)]
      rw [hdecode, quotesEscaped_quote, countP_backslash, countP_backslash, countP_skip rfl,
        countP_skip rfl]
      refine ih.imp (fun hsame => ⟨by rw [hsame.1], hsame.2⟩) fun hlt => Nat.succ_le_succ hlt
  | @plain c rest hq hb _ ih =>
    rw [StringEscapesLemmas.decode_plain hb, quotesEscaped_plain hq hb, List.countP_cons,
      List.countP_cons]
    refine ih.imp (fun hsame => ⟨by rw [hsame.1], hsame.2⟩) fun hlt => ?_
    rw [Nat.add_right_comm]
    exact Nat.add_le_add_right hlt _

theorem measure_str (s : List Char) :
    (Token.str s).measure needed =
      (decode s).countP counted + if quotesEscaped (decode s) then 0 else 1 := by
  show (String.ofList (stringConstant s)).toList.countP counted + _ = _
  rw [String.toList_ofList, StringEscapesLemmas.stringConstant_eq]

/-- A string token needs no more than there is in the body it was read from, even if
that has a NUL in it, where the token ends. -/
theorem needed_str {body s : List Char} (h : IsBody body)
    (hs : Rule.strConst.action ('"' :: (body ++ ['"'])) = some (.str s)) :
    (Token.str s).measure needed ≤ body.countP counted := by
  obtain rfl := Token.str.inj (Option.some.inj hs)
  rw [measure_str]
  by_cases hnul : Char.ofNat 0 ∈ body
  · obtain ⟨front, back, rfl, hfront⟩ := List.eq_append_cons_of_mem hnul
    have hc : Rule.cString ('"' :: ((front ++ Char.ofNat 0 :: back) ++ ['"'])) = '"' :: front := by
      rw [List.append_assoc, ← List.cons_append]
      refine SourceLexerLemmas.takeWhile_stop (List.all_eq_true.mpr fun c hc => ?_) ?_
      · rcases List.mem_cons.mp hc with rfl | hc
        · rfl
        · exact decide_eq_true fun he => hfront (he ▸ hc)
      · rintro c ⟨⟩
        rfl
    rw [hc, List.countP_append, List.countP_cons_of_pos rfl, ← Nat.add_assoc]
    have htaken : ((('"' :: front).drop 1).take (('"' :: front).length - 2)).countP counted ≤
        front.countP counted :=
      (List.take_sublist _ _).countP_le
    have hdecode := (countP_decode _).trans htaken
    split
    · exact Nat.le_succ_of_le (Nat.le_add_right_of_le hdecode)
    · exact Nat.succ_le_succ (Nat.le_add_right_of_le hdecode)
  · have hno : Char.ofNat 0 ∉ '"' :: (body ++ ['"']) := by
      simp [hnul]
    have hsize : ('"' :: (body ++ ['"'])).length - 2 = body.length := by simp
    rw [SourceLexerLemmas.cString_of_noNul hno, hsize, List.drop_succ_cons, List.drop_zero,
      List.take_left]
    rcases decode_body h with ⟨he, hq⟩ | hlt
    · rw [he, if_pos hq]
      exact Nat.le_refl _
    · split
      · exact Nat.le_of_succ_le hlt
      · exact hlt

/-- Tokens without a value, of which none is a character. -/
def isPlain : Token → Bool
  | .name _ | .str _ | .int _ | .char _ => false
  | _ => true

/-- The literals of the rules have such tokens. -/
def isPlainRule : Rule → Bool
  | .literal _ token => isPlain token
  | _ => true

theorem isPlain_of_mem {s : List Char} {token : Token} (h : .literal s token ∈ rules) :
    isPlain token = true := by
  have hall : ∀ r ∈ rules, isPlainRule r = true := by decide
  exact hall _ h

/-- The match of the string rule, if it is not empty. -/
theorem strConst_cases (text : List Char) :
    text.take (Rule.strConst.longest text) = [] ∨
      ∃ body, IsBody body ∧
        text.take (Rule.strConst.longest text) = '"' :: (body ++ ['"']) := by
  obtain _ | ⟨c, rest⟩ := text
  · exact .inl rfl
  rw [Rule.longest]
  split
  · next hc =>
    cases hclose : closing rest with
    | none => exact .inl rfl
    | some n =>
      obtain ⟨body, after, hb, rfl, rfl⟩ := SourceLexerLemmas.body_of_closing hclose
      refine .inr ⟨body, hb, ?_⟩
      show (c :: (body ++ '"' :: after)).take (body.length + 1 + 1) = _
      rw [hc, List.take_succ_cons, List.take_append, List.take_of_length_le (Nat.le_succ _)]
      simp
  · exact .inl rfl

/-- A token needs no more characters than it was read from. -/
theorem needed_action {r : Rule} (hr : r ∈ rules) {text : List Char} {t : Token}
    (h : r.action (text.take (r.longest text)) = some t) :
    t.measure needed ≤ (text.take (r.longest text)).countP counted := by
  have hchar {s : List Char} (hs : s.head?.map Token.char = some t) :
      t.measure needed ≤ s.countP counted := by
    obtain _ | ⟨c, s⟩ := s
    · cases hs
    · cases hs
      show (if c = ';' then 1 else 0) ≤ _
      split
      · next hc =>
        rw [hc, List.countP_cons_of_pos rfl]
        exact Nat.succ_le_succ (Nat.zero_le _)
      · exact Nat.zero_le _
  cases r with
  | literal s token =>
    cases h
    have hplain := isPlain_of_mem hr
    cases t with
    | name | str | int | char => cases hplain
    | _ => exact Nat.zero_le _
  | strConst =>
    rcases strConst_cases text with hnil | ⟨body, hb, heq⟩
    · rw [hnil] at h ⊢
      cases h
      exact Nat.le_refl _
    · rw [heq] at h ⊢
      obtain ⟨s, rfl⟩ : ∃ s, t = .str s := ⟨_, (Option.some.inj h).symm⟩
      have hsub : body.Sublist ('"' :: (body ++ ['"'])) :=
        (List.sublist_append_left body ['"']).trans (List.sublist_cons_self _ _)
      exact (needed_str hb h).trans hsub.countP_le
  | intConst | boolConst | noneConst =>
    cases h
    exact Nat.zero_le _
  | name =>
    cases h
    show (String.ofList _).toList.countP counted ≤ _
    rw [String.toList_ofList]
    exact (List.takeWhile_sublist _).countP_le
  | punctuation | any => exact hchar h
  | whitespace | comment => cases h

theorem lex_induction {motive : List Char → Prop} (nil : motive [])
    (step : ∀ text, text ≠ [] → motive (scan text).2 → motive text) (text : List Char) :
    motive text :=
  LongestMatch.scan_induction nil step text

theorem lex_step {text : List Char} (hne : text ≠ []) :
    lex text = (scan text).1.toList ++ lex (scan text).2 :=
  lex_scan hne rfl

/-- A text has the characters that its tokens need. -/
theorem needed_lex (text : List Char) : needed.tokens (lex text) ≤ text.countP counted := by
  induction text using lex_induction with
  | nil => exact Nat.le_refl _
  | step text hne ih =>
    rw [lex_step hne,
      SourceGrammarLemmas.tokens_append]
    cases ht : (scan text).1 with
    | none =>
      have hrest : (scan text).2.countP counted ≤ text.countP counted :=
        (LongestMatch.scan_suffix text).sublist.countP_le
      rw [Option.toList_none]
      exact (Nat.zero_add _).le.trans (ih.trans hrest)
    | some t =>
      obtain ⟨r, hr, -, haction, hdrop⟩ := LongestMatch.scan_some ht
      have hrest : (scan text).2 = text.drop (r.longest text) := hdrop
      have hboth := Nat.add_le_add (needed_action hr haction) ih
      rw [hrest, ← List.countP_append, List.take_append_drop, ← hrest] at hboth
      exact hboth

theorem isInt32_atoi (digits : List Char) : Lexed (.int (Text.atoi false digits)) := by
  have hlow := Int.le_bmod (x := (Nat.ofDigitChars 10 digits 0 : Nat)) (m := 4294967296)
    (Nat.succ_pos _)
  have hhigh := Int.bmod_lt (x := (Nat.ofDigitChars 10 digits 0 : Nat)) (m := 4294967296)
    (Nat.succ_pos _)
  exact ⟨hlow, hhigh⟩

theorem nameChar_of_nameStart {c : Char} (h : Text.isNameStart c = true) :
    Text.isNameChar c = true := by
  rw [Text.isNameStart, Bool.or_eq_true] at h
  rw [Text.isNameChar, Char.isAlphanum]
  rcases h with h | h
  · rw [h]
    rfl
  · rw [h, Bool.or_true]

/-- The token of a word is a name for the word itself only. -/
theorem name_of_wordToken {w x : List Char} (h : wordToken w = .name x) : w = x := by
  unfold wordToken at h
  cases hl : reserved.lookup w with
  | none =>
    rw [hl] at h
    exact Token.name.inj h
  | some token =>
    rw [hl] at h
    have hall : ∀ p ∈ reserved, isPlain p.2 = true := by decide
    obtain ⟨front, back, hsplit, -⟩ := List.lookup_eq_some_iff.mp hl
    have hplain := hall (w, token) (hsplit ▸ List.mem_append_right front List.mem_cons_self)
    rw [show token = .name x from h] at hplain
    cases hplain

/-- A name was not a reserved word. -/
theorem isWord_of_scan {text x : List Char} (hpos : 0 < Rule.name.longest text)
    (hs : (scan text).1 = some (.name x)) : Lexed (.name x) := by
  obtain _ | ⟨c, rest⟩ := text
  · exact absurd hpos (Nat.lt_irrefl 0)
  have hc : Text.isNameStart c = true := by
    by_contra hc
    rw [Rule.longest, if_neg hc] at hpos
    exact absurd hpos (Nat.lt_irrefl 0)
  have hw : IsWord (c :: rest.takeWhile Text.isNameChar) := by
    refine ⟨List.cons_ne_nil _ _, ?_, ?_⟩
    · rintro d ⟨⟩
      exact hc
    · rw [List.all_cons, List.all_takeWhile, Bool.and_true]
      exact nameChar_of_nameStart hc
  have hstop : ∀ d ∈ (rest.dropWhile Text.isNameChar).head?, Text.isNameChar d = false := by
    intro d hd
    have hnot := List.head?_dropWhile_not Text.isNameChar rest
    rw [Option.mem_def.mp hd] at hnot
    exact hnot
  have hscan := scan_word hw hstop
  rw [List.cons_append, List.takeWhile_append_dropWhile] at hscan
  rw [hscan] at hs
  have htoken := Option.some.inj hs
  have hx : c :: rest.takeWhile Text.isNameChar = x := name_of_wordToken htoken
  rw [← hx]
  exact ⟨hw, hx ▸ htoken⟩

theorem lexed_of_mem {text : List Char} {t : Token} (h : t ∈ lex text) : Lexed t := by
  induction text using lex_induction with
  | nil => cases h
  | step text hne ih =>
    rw [lex_step hne, List.mem_append] at h
    rcases h with h | h
    · obtain ⟨r, hr, hpos, haction, -⟩ := LongestMatch.scan_some (Option.mem_toList.mp h)
      cases r with
      | literal s token =>
        cases haction
        have hplain := isPlain_of_mem hr
        cases t with
        | name | str | int | char => cases hplain
        | _ => trivial
      | intConst =>
        cases haction
        exact isInt32_atoi _
      | strConst =>
        cases haction
        intro hm
        have hne : decide (Char.ofNat 0 ≠ Char.ofNat 0) = true :=
          List.mem_takeWhile_imp (p := fun c => decide (c ≠ Char.ofNat 0))
            (List.mem_of_mem_drop (List.mem_of_mem_take hm))
        exact absurd rfl (of_decide_eq_true hne)
      | name =>
        obtain ⟨x, rfl⟩ : ∃ x, t = .name x := ⟨_, (Option.some.inj haction).symm⟩
        exact isWord_of_scan hpos (Option.mem_toList.mp h)
      | boolConst | noneConst =>
        cases haction
        trivial
      | punctuation | any =>
        obtain ⟨c, -, rfl⟩ := Option.map_eq_some_iff.mp haction
        trivial
      | whitespace | comment => cases haction
    · exact ih h

/-! ### What is printed -/

/-- The counted characters of the messages. -/
def countAll : List Command → Nat
  | [] => 0
  | .print msg :: cs | .println msg :: cs => msg.countP counted + countAll cs
  | .nextline :: cs | .indent :: cs | .dedent :: cs => countAll cs

theorem countAll_append (cs ds : List Command) :
    countAll (cs ++ ds) = countAll cs + countAll ds := by
  induction cs with
  | nil => exact (Nat.zero_add _).symm
  | cons c cs ih =>
    cases c with
    | print msg | println msg => rw [List.cons_append, countAll, countAll, ih, Nat.add_assoc]
    | _ => exact ih

theorem countP_run (s : Printer) (cs : List Command) :
    (s.run cs).countP counted = countAll cs := by
  have hindent (s : Printer) : s.indentation.countP counted = 0 := by
    unfold Printer.indentation
    split
    · rfl
    · rw [List.countP_replicate]
      rfl
  induction cs generalizing s with
  | nil => rfl
  | cons c cs ih =>
    rw [Printer.run, List.countP_append, ih]
    cases c with
    | print msg =>
      show (s.indentation ++ msg).countP counted + _ = _
      rw [List.countP_append, hindent, Nat.zero_add]
      rfl
    | println msg =>
      show (s.indentation ++ msg ++ ['\n']).countP counted + _ = _
      rw [List.countP_append, List.countP_append, hindent, Nat.zero_add]
      rfl
    | nextline =>
      show (if s.lineStarted then ['\n'] else []).countP counted + _ = _
      split
      · exact Nat.zero_add _
      · exact Nat.zero_add _
    | indent | dedent => exact Nat.zero_add _

theorem countP_printInt (i : Int) : (Text.printInt i).countP counted = 0 := by
  have hdigits : (Nat.toDigits 10 i.natAbs).countP counted = 0 := by
    refine List.countP_eq_zero.mpr fun c hc hcount => ?_
    have hd : c.isDigit = true := Nat.isDigit_of_mem_toDigits (by decide) (by decide) hc
    simp only [counted, Bool.or_eq_true, decide_eq_true_eq] at hcount
    rcases hcount with (rfl | rfl) | rfl
    · cases hd
    · cases hd
    · cases hd
  rw [Text.printInt]
  split
  · rw [countP_skip rfl, hdigits]
  · exact hdigits

theorem countAll_say {msg : List Char} (h : msg.countP counted = 0) (cs : List Command) :
    countAll (.print msg :: cs) = countAll cs := by
  rw [countAll, h, Nat.zero_add]

theorem countAll_parens (cs : List Command) : countAll (parens cs) = countAll cs := by
  show 0 + countAll (cs ++ [say ")"]) = _
  rw [countAll_append]
  exact Nat.zero_add _

theorem countAll_braces (cs : List Command) : countAll (braces cs) = countAll cs := by
  show 0 + countAll (cs ++ [.dedent, .print ['\x7d']]) = _
  rw [countAll_append]
  exact Nat.zero_add _

theorem countAll_elsePart (b : Block) :
    countAll (elsePart b b.pretty) = countAll b.pretty := by
  cases b with
  | nil => rfl
  | cons head tail =>
    show 0 + countAll (braces _) = _
    rw [countAll_braces, Nat.zero_add]

theorem countAll_names (first : Bool) (xs : List String) :
    countAll (visitNames first xs) = needed.names xs := by
  induction xs generalizing first with
  | nil => rfl
  | cons x xs ih =>
    rw [visitNames, countAll_append, countAll, ih false, Measure.names]
    cases first with
    | false => exact Nat.zero_add _
    | true => exact Nat.zero_add _

theorem misread_names (xs : List String) : misread.names xs = 0 := by
  induction xs with
  | nil => rfl
  | cons x xs ih => exact (Nat.zero_add _).trans ih

/-! The counted characters in the text of a tree are as many as it needs, but for the
defects. -/

mutual
theorem count_lhs (l : LHS) : countAll l.pretty + l.measure misread = l.measure needed := by
  match l with
  | .name x => rfl
  | .index base index =>
    have hbase := count_lhs base
    have hindex := count_expression index
    have hcount : countAll (LHS.index base index).pretty =
        countAll base.pretty + countAll index.pretty := by
      rw [LHS.pretty, countAll_append, countAll, countAll_append]
      exact congrArg _ (Nat.zero_add _)
    rw [hcount, LHS.measure, LHS.measure]
    omega
  | .field base x =>
    have hbase := count_lhs base
    have hcount : countAll (LHS.field base x).pretty =
        countAll base.pretty + x.toList.countP counted := by
      rw [LHS.pretty, countAll_append]
      exact congrArg _ (Nat.zero_add _)
    rw [hcount, LHS.measure, LHS.measure, ← hbase]
    exact Nat.add_right_comm _ _ _

theorem count_expression (e : Expression) :
    countAll e.pretty + e.measure misread = e.measure needed := by
  match e with
  | .lhs l => exact count_lhs l
  | .call target arguments =>
    have htarget := count_lhs target
    have harguments := count_arguments true arguments
    rw [Expression.pretty, countAll_append, countAll_parens, Expression.measure,
      Expression.measure]
    omega
  | .function arguments body =>
    have hbody := count_block body
    rw [Expression.pretty, countAll_say rfl, countAll_append, countAll_say rfl, countAll_braces,
      countAll_names, Expression.measure, Expression.measure, misread_names]
    omega
  | .record .nil => rfl
  | .record (.cons key value tail) =>
    have hvalue := count_expression value
    have htail := count_fields tail
    have hcount : countAll (Expression.record (.cons key value tail)).pretty =
        key.toList.countP counted + (countAll value.pretty + countAll (tail.pretty false)) := by
      show countAll (.print ['\x7b'] :: ((say key :: say " : " ::
        (value.pretty ++ tail.pretty false)) ++ [.println ['\x7d']])) = _
      rw [countAll_say rfl, countAll_append, countAll, countAll_say rfl, countAll_append]
      rfl
    have hname : needed.name key = key.toList.countP counted := rfl
    rw [hcount, Expression.measure, Expression.measure]
    -- the missing semicolon is the one that `misread` counts
    show _ + (1 + (0 + _ + 0 + _)) = 0 + (_ + _ + 1 + _)
    omega
  | .boolConst value => cases value <;> rfl
  | .strConst value =>
    show ('"' :: (value.toList ++ ['"'])).countP counted + 0 + _ = _
    rw [countP_skip rfl, List.countP_append]
    rfl
  | .intConst value => exact congrArg (· + 0) (congrArg (· + 0) (countP_printInt value))
  | .nullConst => rfl
  | .binaryOp op left right =>
    have hleft := count_expression left
    have hright := count_expression right
    have hop : (' ' :: (op.opstring ++ [' '])).countP counted = 0 := by cases op <;> rfl
    rw [Expression.pretty, countAll_append, countAll_parens, countAll_say hop, countAll_parens,
      Expression.measure, Expression.measure]
    show _ + (_ + (if op = .minus then 0 else 0) + _) = _ + (if op = .minus then 0 else 0) + _
    rw [ite_self]
    omega
  | .unaryOp op expr =>
    have hexpr := count_expression expr
    have hop : op.opstring.countP counted = 0 := by cases op <;> rfl
    rw [Expression.pretty, countAll_say hop, countAll_parens, Expression.measure,
      Expression.measure]
    show _ + ((if op = .neg then 0 else 0) + _) = (if op = .neg then 0 else 0) + _
    rw [ite_self]
    omega

theorem count_arguments (first : Bool) (a : Arguments) :
    countAll (a.pretty first) + a.measure misread = a.measure needed := by
  match a with
  | .nil => rfl
  | .cons head tail =>
    have hhead := count_expression head
    have htail := count_arguments false tail
    have hcomma : countAll (if first then [] else [say ", "]) = 0 := by cases first <;> rfl
    rw [Arguments.pretty, countAll_append, countAll_append, hcomma, Arguments.measure,
      Arguments.measure]
    omega

theorem count_fields (fs : Fields) :
    countAll (fs.pretty false) + fs.measure misread = fs.measure needed := by
  match fs with
  | .nil => rfl
  | .cons key value tail =>
    have hvalue := count_expression value
    have htail := count_fields tail
    have hcount : countAll ((Fields.cons key value tail).pretty false) =
        1 + (key.toList.countP counted +
          (countAll value.pretty + countAll (tail.pretty false))) := by
      rw [Fields.pretty, countAll_append, countAll, countAll_say rfl, countAll_append]
      rfl
    have hname : needed.name key = key.toList.countP counted := rfl
    rw [hcount, Fields.measure, Fields.measure]
    show _ + (0 + _ + 0 + _) = _ + _ + 1 + _
    omega

theorem count_statement (s : Statement) :
    countAll s.pretty + s.measure misread = s.measure needed := by
  match s with
  | .assignment lhs expr =>
    have hlhs := count_lhs lhs
    have hexpr := count_expression expr
    have hend : countAll [.println [';']] = 1 := rfl
    rw [Statement.pretty, countAll_append, countAll_say rfl, countAll_append, hend,
      Statement.measure, Statement.measure]
    show _ + (_ + 0) = _ + 1
    omega
  | .callStatement target arguments =>
    have htarget := count_lhs target
    have harguments := count_arguments true arguments
    have hend : countAll [.println [';']] = 1 := rfl
    rw [Statement.pretty, countAll_append, countAll_append, countAll_parens, hend,
      Statement.measure, Statement.measure]
    show _ + (_ + 0) = _ + 1
    omega
  | .global x => exact Nat.zero_add _
  | .ifStatement cond thenBlock elseBlock =>
    have hcond := count_expression cond
    have hthen := count_block thenBlock
    have helse := count_block elseBlock
    have hend : countAll [.nextline] = 0 := rfl
    rw [Statement.pretty, countAll_say rfl, countAll_append, countAll_say rfl, countAll_append,
      countAll_append, countAll_braces, countAll_elsePart, hend, Statement.measure,
      Statement.measure]
    omega
  | .whileLoop cond body =>
    have hcond := count_expression cond
    have hbody := count_block body
    have hend : countAll [.nextline] = 0 := rfl
    rw [Statement.pretty, countAll_say rfl, countAll_append, countAll_say rfl, countAll_append,
      countAll_braces, hend, Statement.measure, Statement.measure]
    omega
  | .ret expr =>
    have hexpr := count_expression expr
    have hend : countAll [.println [';']] = 1 := rfl
    rw [Statement.pretty, countAll_say rfl, countAll_append, hend, Statement.measure,
      Statement.measure]
    show _ + (_ + 0) = _ + 1
    omega

theorem count_block (b : Block) :
    countAll b.pretty + b.measure misread = b.measure needed := by
  match b with
  | .nil => rfl
  | .cons head tail =>
    have hhead := count_statement head
    have htail := count_block tail
    rw [Block.pretty, countAll_append, Block.measure, Block.measure]
    omega
end

/-! ### Minus signs -/

/-- The minus signs that the parser sees. -/
def minuses : Measure :=
  { minus := 1 }

/-- The negative integers. -/
def negatives : Measure :=
  { int := fun i => if i < 0 then 1 else 0 }

/-- The minus signs that are printed. -/
def signs : Measure :=
  { minus := 1
    int := fun i => if i < 0 then 1 else 0 }

/-- There are `k` minus signs among the tokens, and no field of a record. -/
structure Signs (ts : List Token) (k : Nat) : Prop where
  count : minuses.tokens ts = k
  colon : .char ':' ∉ ts

namespace Signs

variable {ts us : List Token} {j k : Nat}

theorem nil : Signs [] 0 :=
  ⟨rfl, List.not_mem_nil⟩

theorem cons {t : Token} (ht : t ≠ .char ':') (h : Signs ts k) :
    Signs (t :: ts) (t.measure minuses + k) :=
  ⟨congrArg _ h.count, fun hm => (List.mem_cons.mp hm).elim (fun he => ht he.symm) h.colon⟩

theorem append (h : Signs ts j) (h' : Signs us k) : Signs (ts ++ us) (j + k) :=
  ⟨by rw [SourceGrammarLemmas.tokens_append, h.count, h'.count],
    fun hm => (List.mem_append.mp hm).elim h.colon h'.colon⟩

theorem of_eq (h : Signs ts j) (he : k = j) : Signs ts k :=
  he ▸ h

/-- A token that is no minus sign. -/
theorem silent {t : Token} (ht : t ≠ .char ':') (hm : t.measure minuses = 0) (h : Signs ts k) :
    Signs (t :: ts) k :=
  (h.cons ht).of_eq (by rw [hm, Nat.zero_add])

theorem sign {c : Char} (hc : c ≠ ':') (h : Signs ts k) : Signs (.char c :: ts) k := by
  refine h.silent (fun he => hc (Token.char.inj he)) ?_
  show (if c = ';' then 0 else 0) = 0
  exact ite_self 0

theorem close {c : Char} (hc : c ≠ ':') (h : Signs ts k) : Signs (ts ++ [.char c]) k :=
  h.append (nil.sign hc)

theorem parens (h : Signs ts k) : Signs (parensTokens ts) k :=
  (h.close (by decide)).sign (by decide)

theorem braces (h : Signs ts k) : Signs (bracesTokens ts) k :=
  (h.close (by decide)).sign (by decide)

theorem name {x : String} (h : Signs ts k) : Signs (nameToken x :: ts) k :=
  h.silent (t := nameToken x) Token.noConfusion rfl

end Signs

theorem signs_names (xs : List String) : Signs (xs.map nameToken) (signs.names xs) := by
  induction xs with
  | nil => exact .nil
  | cons x xs ih => exact ih.name.of_eq (Nat.zero_add _)

mutual
theorem signs_lhs (l : LHS) (h : l.measure misread = 0) : Signs l.tokens (l.measure signs) := by
  match l with
  | .name x => exact Signs.nil.name
  | .index base index =>
    obtain ⟨hb, hi⟩ := Nat.add_eq_zero_iff.mp h
    exact (signs_lhs base hb).append
      (((signs_expression index hi).close (by decide)).sign (by decide))
  | .field base x =>
    obtain ⟨hb, -⟩ := Nat.add_eq_zero_iff.mp h
    exact (signs_lhs base hb).append (Signs.nil.name.sign (by decide))

theorem signs_expression (e : Expression) (h : e.measure misread = 0) :
    Signs e.tokens (e.measure signs) := by
  match e with
  | .lhs l => exact signs_lhs l h
  | .call target arguments =>
    obtain ⟨ht, ha⟩ := Nat.add_eq_zero_iff.mp h
    exact (signs_lhs target ht).append (signs_arguments true arguments ha).parens
  | .function arguments body =>
    obtain ⟨-, hb⟩ := Nat.add_eq_zero_iff.mp h
    have hbody := (signs_block body hb).braces.sign (c := ')') (by decide)
    exact (((signs_names arguments).append hbody).sign (by decide)).silent Token.noConfusion rfl
  | .record .nil => exact Signs.nil.braces
  | .record (.cons key value tail) => exact absurd (Nat.add_eq_zero_iff.mp h).1 Nat.one_ne_zero
  | .boolConst _ | .strConst _ | .nullConst => exact Signs.nil.silent Token.noConfusion rfl
  | .intConst value =>
    show Signs (intTokens value) (if value < 0 then 1 else 0)
    rw [intTokens]
    split
    · exact (Signs.nil.silent Token.noConfusion rfl).cons (t := .minus) Token.noConfusion
    · exact Signs.nil.silent Token.noConfusion rfl
  | .binaryOp op left right =>
    obtain ⟨hl, hr⟩ := Nat.add_eq_zero_iff.mp h
    have hop : op.token ≠ .char ':' := by cases op <;> exact Token.noConfusion
    have hright := (signs_expression right hr).parens.cons hop
    refine ((signs_expression left (Nat.add_eq_zero_iff.mp hl).1).parens.append hright).of_eq ?_
    rw [SourceGrammarLemmas.token_measure, ← Nat.add_assoc]
    rfl
  | .unaryOp op expr =>
    obtain ⟨-, he⟩ := Nat.add_eq_zero_iff.mp h
    have hop : op.token ≠ .char ':' := by cases op <;> exact Token.noConfusion
    refine ((signs_expression expr he).parens.cons hop).of_eq ?_
    cases op <;> rfl

theorem signs_arguments (first : Bool) (a : Arguments) (h : a.measure misread = 0) :
    Signs (a.tokens first) (a.measure signs) := by
  match a with
  | .nil => exact .nil
  | .cons head tail =>
    obtain ⟨hh, ht⟩ := Nat.add_eq_zero_iff.mp h
    have hboth := (signs_expression head hh).append (signs_arguments false tail ht)
    cases first with
    | false => exact hboth.sign (by decide)
    | true => exact hboth

theorem signs_statement (s : Statement) (h : s.measure misread = 0) :
    Signs s.tokens (s.measure signs) := by
  match s with
  | .assignment lhs expr =>
    obtain ⟨hle, -⟩ := Nat.add_eq_zero_iff.mp h
    obtain ⟨hl, he⟩ := Nat.add_eq_zero_iff.mp hle
    exact (signs_lhs lhs hl).append
      (((signs_expression expr he).close (by decide)).sign (by decide))
  | .callStatement target arguments =>
    obtain ⟨hta, -⟩ := Nat.add_eq_zero_iff.mp h
    obtain ⟨ht, ha⟩ := Nat.add_eq_zero_iff.mp hta
    exact ((signs_lhs target ht).append (signs_arguments true arguments ha).parens).close
      (by decide)
  | .global x => exact (Signs.nil.sign (by decide)).name.silent Token.noConfusion rfl
  | .ifStatement cond thenBlock elseBlock =>
    obtain ⟨hct, he⟩ := Nat.add_eq_zero_iff.mp h
    obtain ⟨hc, ht⟩ := Nat.add_eq_zero_iff.mp hct
    have helse : Signs (elseTokens elseBlock elseBlock.tokens) (elseBlock.measure signs) := by
      have hblock := signs_block elseBlock he
      cases elseBlock with
      | nil => exact .nil
      | cons head tail => exact hblock.braces.silent Token.noConfusion rfl
    have hblocks := ((signs_block thenBlock ht).braces.append helse).sign (c := ')') (by decide)
    refine Signs.of_eq (((signs_expression cond hc).append hblocks).sign (c := '(')
      (by decide) |>.silent Token.noConfusion rfl) (Nat.add_assoc ..)
  | .whileLoop cond body =>
    obtain ⟨hc, hb⟩ := Nat.add_eq_zero_iff.mp h
    have hbody := (signs_block body hb).braces.sign (c := ')') (by decide)
    exact (((signs_expression cond hc).append hbody).sign (by decide)).silent
      Token.noConfusion rfl
  | .ret expr =>
    obtain ⟨he, -⟩ := Nat.add_eq_zero_iff.mp h
    exact ((signs_expression expr he).close (by decide)).silent Token.noConfusion rfl

theorem signs_block (b : Block) (h : b.measure misread = 0) :
    Signs b.tokens (b.measure signs) := by
  match b with
  | .nil => exact .nil
  | .cons head tail =>
    obtain ⟨hh, ht⟩ := Nat.add_eq_zero_iff.mp h
    exact (signs_statement head hh).append (signs_block tail ht)
end

theorem defects_eq : defects = negatives.add misread := by
  unfold defects negatives misread Measure.add defects
  simp only [Nat.zero_add, Nat.add_zero]

theorem signs_eq : signs = negatives.add minuses := by
  unfold signs negatives minuses Measure.add
  simp only [Nat.zero_add, Nat.add_zero]

/-- A program that comes back has no strings or records that are misread: its text has
too few semicolons and backslashes for them. -/
theorem misread_eq_zero {prog : Program} (h : RoundTrips prog) : prog.measure misread = 0 := by
  have hneeded : prog.measure needed ≤ needed.tokens (lex (text prog)) :=
    (SourceGrammarLemmas.counted_derives rfl h).le
  have htext := needed_lex (text prog)
  have hcount : (text prog).countP counted = countAll prog.pretty := countP_run {} prog.pretty
  have hprog := count_block prog
  omega

/-- Then the text is read as the tokens that were meant. -/
theorem lex_text {prog : Program} (h : ∃ source, Parses source prog)
    (hm : prog.measure misread = 0) : lex (text prog) = prog.tokens := by
  obtain ⟨source, hsource⟩ := h
  have hreads := reads_tree hsource (fun t ht => lexed_of_mem ht) hm {} [] Bool.noConfusion
  rw [List.append_nil] at hreads
  exact hreads.trans (List.append_nil _)

/-- There are no negative integers either: they are printed with minus signs, of which
the parser sees more than there are in the tree. -/
theorem negatives_eq_zero {prog : Program} (h : RoundTrips prog)
    (hlex : lex (text prog) = prog.tokens) (hm : prog.measure misread = 0) :
    prog.measure negatives = 0 := by
  have hsigns := signs_block prog hm
  have hderives : Derives .program prog.tokens (.block prog) := hlex ▸ h
  have hseen : prog.measure minuses = minuses.tokens prog.tokens :=
    (SourceGrammarLemmas.counted_derives rfl hderives).eq hsigns.colon
  rw [hsigns.count, signs_eq, SourceGrammarLemmas.block_add] at hseen
  omega

end PrettyPrinterLemmas

open PrettyPrinterLemmas

/-- A program that the parser produced comes back from its printed text if and only if
it has no record with fields, no string in which quotes and backslashes do not come
together, and no negative integer. -/
theorem prettyPrinted_iff {prog : Program} (h : ∃ source, Parses source prog) :
    RoundTrips prog ↔ prog.measure defects = 0 := by
  rw [defects_eq, SourceGrammarLemmas.block_add, Nat.add_eq_zero_iff]
  constructor
  · intro hr
    have hm := misread_eq_zero hr
    exact ⟨negatives_eq_zero hr (lex_text h hm) hm, hm⟩
  · rintro ⟨hn, hm⟩
    have hd : prog.measure defects = 0 := by
      rw [defects_eq, SourceGrammarLemmas.block_add, hn, hm]
    obtain ⟨source, hsource⟩ := h
    have hderives := derives_tokens hsource hd
    rw [RoundTrips, Parses, lex_text ⟨source, hsource⟩ hm]
    exact hderives

/-- `x = 1 + "a";` -/
def sum : Program :=
  .cons (.assignment (.name "x") (.binaryOp .plus (.intConst 1) (.strConst "a"))) .nil

theorem sum_parses : Parses "x=1+\"a\";".toList sum := by
  have hlex : lex "x=1+\"a\";".toList =
      [.name ['x'], .char '=', .int 1, .plus, .str ['a'], .char ';'] := by decide
  have hone : Derives .arithmetic [.int 1] (.expression (.intConst 1)) :=
    .next rfl (.next rfl (.next rfl (.int 1)))
  have ha : Derives .product [.str ['a']] (.expression (.strConst "a")) :=
    .next rfl (.next rfl (.str ['a']))
  have hsum : Derives .boolean [.int 1, .plus, .str ['a']]
      (.expression (.binaryOp .plus (.intConst 1) (.strConst "a"))) :=
    derives_boolean (n := .arithmetic) rfl (.binaryOp .plus hone ha)
  rw [Parses, hlex]
  exact .statements rfl (.noStatement rfl) (.assignment (.name ['x']) (.next rfl hsum))

theorem prettyPrinted_iff_sum : RoundTrips sum ↔ sum.measure defects = 0 :=
  prettyPrinted_iff ⟨_, sum_parses⟩

/-- `x = {a : 1;};` -/
def field : Program :=
  .cons (.assignment (.name "x") (.record (.cons "a" (.intConst 1) .nil))) .nil

theorem field_parses : Parses "x=\x7ba:1;\x7d;".toList field := by
  have hlex : lex "x=\x7ba:1;\x7d;".toList =
      [.name ['x'], .char '=', .char '\x7b', .name ['a'], .char ':', .int 1, .char ';',
        .char '\x7d', .char ';'] := by decide
  have hone : Derives .expression [.int 1] (.expression (.intConst 1)) :=
    .next rfl (derives_boolean (n := .positiveUnit) rfl (.int 1))
  rw [Parses, hlex]
  exact .statements rfl (.noStatement rfl)
    (.assignment (.name ['x']) (.record (.fields ['a'] .noField hone)))

/-- The last field of a record is printed without the semicolon that it ends in. -/
theorem fields_lost : ¬ ∀ prog : Program, (∃ source, Parses source prog) → RoundTrips prog :=
  fun h => Nat.one_ne_zero (misread_eq_zero (h field ⟨_, field_parses⟩))

end PrettyPrinter

end Beaverc

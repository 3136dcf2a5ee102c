import Beaverc.SourceLexer

/-!
# Layout

A source text as tokens with white space and comments between them. White space
and comments are skipped wherever they stand, with two exceptions: the pattern of
a comment asks for the end of its line, so a comment that the file ends in is read
as tokens; and a comment written directly after a division operator begins one
character earlier. `layout_iff` says that there are no others.
-/

namespace Beaverc.Source
open Text (isSpace isNameStart isNameChar)

/-! ## Texts with layout -/

/-- The text of a token. -/
inductive Lexeme where
  | word (w : List Char) (h : IsWord w)
  | int (digits : List Char) (hne : digits ≠ []) (h : digits.all Char.isDigit = true)
  | str (body : List Char) (h : IsBody body) (hnul : Char.ofNat 0 ∉ body)
  | symbol (p : List Char × Token) (h : p ∈ symbols)

namespace Lexeme

def text : Lexeme → List Char
  | .word w _ => w
  | .int digits _ _ => digits
  | .str body _ _ => '"' :: (body ++ ['"'])
  | .symbol p _ => p.1

def token : Lexeme → Token
  | .word w _ => wordToken w
  | .int digits _ _ => .int (Text.atoi false digits)
  | .str body _ _ => .str body
  | .symbol p _ => p.2

/-- A character that would be read as part of the token before it. -/
def extendedBy : Lexeme → Char → Bool
  | .word _ _, c => isNameChar c
  | .int _ _ _, c => c.isDigit
  | .str _ _ _, _ => false
  | .symbol p _, c => joins p.1 c

/-- The division operator. -/
def isSlash : Lexeme → Bool
  | .symbol p _ => p.1 = ['/']
  | _ => false

end Lexeme

/-- The text of a comment up to the end of its line. -/
abbrev CommentText := { body : List Char // '\n' ∉ body }

/-- A piece of layout. -/
inductive Filler where
  | blank (c : Char) (h : isSpace c = true)
  | comment (body : CommentText)

namespace Filler

def text : Filler → List Char
  | .blank c _ => [c]
  | .comment body => '/' :: '/' :: (body.1 ++ ['\n'])

def isBlank : Filler → Bool
  | .blank _ _ => true
  | .comment _ => false

end Filler

def gapText : List Filler → List Char
  | [] => []
  | f :: gap => f.text ++ gapText gap

/-- Tokens with the layout after each. -/
abbrev Items := List (Lexeme × List Filler)

namespace Items

def text : Items → List Char
  | [] => []
  | (l, gap) :: rest => l.text ++ (gapText gap ++ text rest)

/-- There is white space between two tokens that would be read as one. -/
def Spaced : Items → Prop
  | (l, gap) :: (l', gap') :: rest =>
    (gap = [] → ∀ c ∈ l'.text.head?, l.extendedBy c = false) ∧ Spaced ((l', gap') :: rest)
  | _ => True

end Items

/-- A division operator directly before a comment. -/
def swallowed (item : Lexeme × List Filler) : Bool :=
  match item.2 with
  | .comment _ :: _ => item.1.isSlash
  | _ => false

def endingText : Option CommentText → List Char
  | none => []
  | some body => '/' :: '/' :: body.1

/-- A source file: layout, tokens with layout, and the comment that it ends in. -/
structure Document where
  leading : List Filler
  items : Items
  ending : Option CommentText

namespace Document

def text (d : Document) : List Char :=
  gapText d.leading ++ (d.items.text ++ endingText d.ending)

/-- There are no comments. -/
structure Plain (d : Document) : Prop where
  leading : ∀ f ∈ d.leading, f.isBlank = true
  gaps : ∀ item ∈ d.items, ∀ f ∈ item.2, f.isBlank = true
  ending : d.ending = none

/-- `d'` is `d` with further layout. -/
structure Extends (d' d : Document) : Prop where
  leading : d.leading.Sublist d'.leading
  items : List.Forall₂ (fun item item' => item.1 = item'.1 ∧ item.2.Sublist item'.2)
    d.items d'.items

/-- No comment stands directly after a division operator. -/
def SlashesApart (d : Document) : Prop :=
  ∀ item ∈ d.items, swallowed item = false

end Document

namespace LayoutLemmas
open SourceLexerLemmas

theorem text_ne_nil (l : Lexeme) : l.text ≠ [] := by
  cases l with
  | word w h => exact h.nonempty
  | int digits hne h => exact hne
  | str body h hnul => exact List.cons_ne_nil _ _
  | symbol p h =>
    have hall : ∀ p ∈ symbols, p.1 ≠ [] := by decide
    exact hall p h

/-- A token is read up to a character that does not extend it. -/
theorem lex_lexeme (l : Lexeme) {text : List Char}
    (h : ∀ c ∈ text.head?, l.extendedBy c = false) :
    lex (l.text ++ text) = l.token :: lex text := by
  have hne : l.text ++ text ≠ [] := fun he => text_ne_nil l (List.append_eq_nil_iff.mp he).1
  have hscan : scan (l.text ++ text) = (some l.token, text) := by
    cases l with
    | word w hw => exact scan_word hw h
    | int digits hne' hd => exact scan_int hd hne' h
    | str body hb hnul =>
      have htext : (Lexeme.str body hb hnul).text ++ text = '"' :: (body ++ '"' :: text) := by
        rw [Lexeme.text, List.cons_append, List.append_assoc]
        rfl
      rw [htext]
      exact scan_str hb hnul text
    | symbol p hp => exact scan_symbol hp h
  exact lex_scan hne hscan

theorem lex_comment (body : CommentText) (text : List Char) :
    lex ('/' :: '/' :: (body.1 ++ '\n' :: text)) = lex text :=
  lex_scan (List.cons_ne_nil _ _) (scan_comment body.2 text)

theorem lex_filler (f : Filler) (text : List Char) : lex (f.text ++ text) = lex text := by
  cases f with
  | blank c h => exact lex_space h text
  | comment body =>
    have htext : (Filler.comment body).text ++ text = '/' :: '/' :: (body.1 ++ '\n' :: text) := by
      rw [Filler.text, List.cons_append, List.cons_append, List.append_assoc]
      rfl
    rw [htext, lex_comment]

theorem lex_gap (gap : List Filler) (text : List Char) : lex (gapText gap ++ text) = lex text := by
  induction gap with
  | nil => rfl
  | cons f gap ih => rw [gapText, List.append_assoc, lex_filler, ih]

/-- The comment that the file ends in is read as at least one token. -/
theorem lex_open (body : CommentText) : lex ('/' :: '/' :: body.1) ≠ [] := by
  rw [lex_scan (List.cons_ne_nil _ _) (scan_slash (commentLength_open body.2))]
  exact List.cons_ne_nil _ _

theorem not_extendedBy_space (l : Lexeme) {c : Char} (hc : isSpace c = true) :
    l.extendedBy c = false := by
  simp only [isSpace, Bool.or_eq_true, decide_eq_true_eq] at hc
  cases l <;> rcases hc with (rfl | rfl) | rfl <;> rfl

theorem not_extendedBy_slash {l : Lexeme} (hl : l.isSlash = false) : l.extendedBy '/' = false := by
  cases l with
  | symbol p h =>
    rw [Lexeme.extendedBy, joins]
    rw [Lexeme.isSlash] at hl
    rw [hl]
    rfl
  | _ => rfl

theorem text_of_isSlash {l : Lexeme} (hl : l.isSlash = true) : l.text = ['/'] := by
  cases l with
  | symbol p h => exact of_decide_eq_true hl
  | _ => cases hl

theorem token_of_isSlash {l : Lexeme} (hl : l.isSlash = true) : l.token = .div := by
  cases l with
  | symbol p h =>
    have hall : ∀ p ∈ symbols, p.1 = ['/'] → p.2 = .div := by decide
    exact hall p h (text_of_isSlash hl)
  | _ => cases hl

/-- The last token, before a comment that the file ends in. -/
theorem lex_before_open (l : Lexeme) (body : CommentText) :
    lex (l.text ++ '/' :: '/' :: body.1) = l.token :: lex ('/' :: '/' :: body.1) := by
  cases hl : l.isSlash with
  | false =>
    refine lex_lexeme l ?_
    rintro c ⟨⟩
    exact not_extendedBy_slash hl
  | true =>
    have hbody : '\n' ∉ '/' :: body.1 := List.mem_cons.not.mpr (not_or.mpr ⟨by decide, body.2⟩)
    rw [text_of_isSlash hl, token_of_isSlash hl]
    exact lex_scan (List.cons_ne_nil _ _) (scan_slash (commentLength_open hbody))

/-- The tokens that the lexer delivers for the tokens of a text. -/
theorem lex_items {items : Items} (h : items.Spaced) (ending : Option CommentText) :
    lex (items.text ++ endingText ending) =
      (items.filter fun item => !swallowed item).map (fun item => item.1.token) ++
        lex (endingText ending) := by
  induction items with
  | nil => rfl
  | cons item rest ih =>
    obtain ⟨l, gap⟩ := item
    have hrest : Items.Spaced rest := by
      cases rest with
      | nil => trivial
      | cons item' rest => exact h.2
    have hitem : swallowed (l, gap) = false →
        (((l, gap) :: rest).filter fun item => !swallowed item).map (fun item => item.1.token) =
          l.token :: (rest.filter fun item => !swallowed item).map fun item => item.1.token := by
      intro hs
      rw [List.filter_cons, hs]
      rfl
    rw [Items.text, List.append_assoc, List.append_assoc]
    obtain _ | ⟨f, gap⟩ := gap
    · rw [hitem rfl, List.cons_append, ← ih hrest]
      obtain _ | ⟨⟨l', gap'⟩, rest⟩ := rest
      · cases ending with
        | none => exact lex_lexeme l nofun
        | some body => exact lex_before_open l body
      · refine lex_lexeme l fun c hc => h.1 rfl c ?_
        obtain ⟨d, cs, hd⟩ := List.exists_cons_of_ne_nil (text_ne_nil l')
        rw [gapText, List.nil_append, Items.text, hd] at hc
        rw [hd]
        exact hc
    · cases f with
      | blank c hc =>
        rw [hitem rfl, List.cons_append, ← ih hrest,
          lex_lexeme l (by rintro d ⟨⟩; exact not_extendedBy_space l hc), lex_gap]
      | comment body =>
        cases hl : l.isSlash with
        | false =>
          rw [hitem hl, List.cons_append, ← ih hrest,
            lex_lexeme l (by rintro d ⟨⟩; exact not_extendedBy_slash hl), lex_gap]
        | true =>
          -- the comment begins with the operator
          have hbody : '\n' ∉ '/' :: body.1 :=
            List.mem_cons.not.mpr (not_or.mpr ⟨by decide, body.2⟩)
          have htext (text : List Char) : l.text ++ (gapText (.comment body :: gap) ++ text) =
              '/' :: '/' :: ('/' :: body.1 ++ '\n' :: (gapText gap ++ text)) := by
            rw [text_of_isSlash hl, gapText, Filler.text]
            simp only [List.cons_append, List.nil_append, List.append_assoc]
          have hskip : swallowed (l, .comment body :: gap) = true := hl
          rw [htext, lex_comment ⟨_, hbody⟩, lex_gap, ih hrest, List.filter_cons, hskip]
          rfl

theorem lex_text {d : Document} (h : d.items.Spaced) :
    lex d.text = (d.items.filter fun item => !swallowed item).map (fun item => item.1.token) ++
      lex (endingText d.ending) := by
  rw [Document.text, lex_gap, lex_items h]

/-- Further layout keeps tokens apart. -/
theorem spaced_of_extends {items items' : Items} (hspaced : items.Spaced)
    (h : List.Forall₂ (fun item item' => item.1 = item'.1 ∧ item.2.Sublist item'.2) items items') :
    items'.Spaced := by
  induction h with
  | nil => trivial
  | @cons item item' rest rest' hitem hrest ih =>
    obtain ⟨l, gap⟩ := item
    obtain ⟨l₁, gap'⟩ := item'
    obtain ⟨rfl, hgap⟩ := hitem
    cases hrest with
    | nil => trivial
    | @cons item₂ item₂' rest₂ rest₂' hitem₂ hrest₂ =>
      obtain ⟨l₂, gap₂⟩ := item₂
      obtain ⟨l₂', gap₂'⟩ := item₂'
      obtain ⟨rfl, -⟩ := id hitem₂
      refine ⟨fun hnil => ?_, ih hspaced.2⟩
      rw [hnil] at hgap
      exact hspaced.1 (List.sublist_nil.mp hgap)

theorem tokens_of_extends {items items' : Items}
    (h : List.Forall₂ (fun item item' => item.1 = item'.1 ∧ item.2.Sublist item'.2) items items') :
    items'.map (fun item => item.1.token) = items.map fun item => item.1.token := by
  induction h with
  | nil => rfl
  | cons hitem _ ih => rw [List.map_cons, List.map_cons, ih, hitem.1]

/-- Without comments nothing is swallowed. -/
theorem not_swallowed_of_plain {d : Document} (h : d.Plain) : d.SlashesApart := by
  rintro ⟨l, gap⟩ hm
  obtain _ | ⟨f, gap⟩ := gap
  · rfl
  cases f with
  | blank c hc => rfl
  | comment body => cases h.gaps _ hm _ List.mem_cons_self

theorem filter_of_apart {d : Document} (h : d.SlashesApart) :
    d.items.filter (fun item => !swallowed item) = d.items :=
  List.filter_eq_self.mpr fun item hm => by rw [h item hm]; rfl

end LayoutLemmas

open LayoutLemmas

/-- Layout may be added anywhere, as far as no comment stands directly after a division
operator: the tokens stay the same exactly if the file does not end in a comment
without an end of line. And if it does not, exactly if no comment stands there. -/
theorem layout_iff (d d' : Document) (hplain : d.Plain) (hspaced : d.items.Spaced)
    (h : d'.Extends d) :
    (d'.SlashesApart → (lex d'.text = lex d.text ↔ d'.ending = none)) ∧
      (d'.ending = none → (lex d'.text = lex d.text ↔ d'.SlashesApart)) := by
  have htokens := tokens_of_extends h.items
  have hd : lex d.text = d.items.map fun item => item.1.token := by
    rw [lex_text hspaced, filter_of_apart (not_swallowed_of_plain hplain), hplain.ending]
    exact List.append_nil _
  have hd' := lex_text (spaced_of_extends hspaced h.items)
  constructor
  · intro hapart
    rw [hd, hd', filter_of_apart hapart, htokens]
    cases d'.ending with
    | none => exact ⟨fun _ => rfl, fun _ => List.append_nil _⟩
    | some body =>
      refine ⟨fun he => ?_, nofun⟩
      exact absurd (List.append_right_eq_self.mp he) (lex_open body)
  · intro hending
    have hnil : lex (endingText d'.ending) = [] := by rw [hending]; rfl
    rw [hd, hd', hnil, List.append_nil, ← htokens]
    constructor
    · intro he item hm
      have hlen := congrArg List.length he
      rw [List.length_map, List.length_map, List.length_filter_eq_length_iff] at hlen
      exact (Bool.not_eq_true' _).mp (hlen item hm)
    · intro hapart
      rw [filter_of_apart hapart]

/-! ## A file that ends in a comment -/

theorem isWord_x : IsWord ['x'] :=
  ⟨List.cons_ne_nil _ _, by rintro c ⟨⟩; rfl, rfl⟩

/-- The file `x`. -/
def bare : Document :=
  ⟨[], [(.word ['x'] isWord_x, [])], none⟩

theorem bare_plain : bare.Plain := by
  refine ⟨nofun, fun item hm f hf => ?_, rfl⟩
  obtain rfl := List.mem_singleton.mp hm
  exact absurd hf List.not_mem_nil

/-- The file `x`, with a comment behind it and a line in front. -/
def commented : Document :=
  ⟨[.blank '\n' rfl], [(.word ['x'] isWord_x, [.comment ⟨['c'], by decide⟩])], none⟩

theorem layout_iff_commented :
    (commented.SlashesApart → (lex commented.text = lex bare.text ↔ commented.ending = none)) ∧
      (commented.ending = none → (lex commented.text = lex bare.text ↔ commented.SlashesApart)) :=
  layout_iff bare commented bare_plain trivial
    ⟨List.nil_sublist _, .cons ⟨rfl, List.nil_sublist _⟩ .nil⟩

/-- In `x//c` at the end of a file the comment is read as two operators and a name. -/
theorem ending_comment_read :
    ¬ ∀ d d' : Document, d.Plain → d.items.Spaced → d'.Extends d → lex d'.text = lex d.text := by
  intro h
  have he := h bare { bare with ending := some ⟨['c'], by decide⟩ } bare_plain trivial
    ⟨List.nil_sublist _, .cons ⟨rfl, List.nil_sublist _⟩ .nil⟩
  revert he
  decide

end Beaverc.Source

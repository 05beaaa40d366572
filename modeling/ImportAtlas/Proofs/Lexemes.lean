import Mathlib.Data.List.Chain
import ImportAtlas.Source.Cursor
import ImportAtlas.Proofs.Productions

/-!
# Lexemes of spelled source

How the lexical movements pass over the gaps and the tokens of a spelling: over a gap as a whole,
over a token as a whole, and never into the next one.

## Summary

* `Cursor.inFront` and `Cursor.atToken` are the places in front of a piece and in front of its
  token.
* `behind` is the text that has been read after some pieces.

## Main results

* `Cursor.skipTrivia_inFront`: white space and comments end where the next token begins.
* `Cursor.identifier_atToken`, `Cursor.atQuote_atToken`: what a look at the next token shows.
* `Cursor.skipString_quoted`, `chunkLength?_template`: literals end at their last quote.
-/

namespace ImportAtlas.Source

/-! ### Characters -/

theorem isIdentifierChar_of_isSpace {c : Char} (h : isSpace c = true) :
    isIdentifierChar c = false := by
  simp [isIdentifierChar, h]

theorem isIdentifierChar_of_isQuote {c : Char} (h : isQuote c = true) :
    isIdentifierChar c = false := by
  simp [isIdentifierChar, h]

theorem isSpace_of_isIdentifierChar {c : Char} (h : isIdentifierChar c = true) :
    isSpace c = false := by
  simp_all [isIdentifierChar]

theorem isPunctuator_of_isIdentifierChar {c : Char} (h : isIdentifierChar c = true) :
    isPunctuator c = false := by
  simp_all [isIdentifierChar]

theorem isQuote_of_isIdentifierChar {c : Char} (h : isIdentifierChar c = true) :
    isQuote c = false := by
  simp_all [isIdentifierChar]

theorem isSpace_of_isQuote {c : Char} (h : isQuote c = true) : isSpace c = false := by
  simp only [isQuote, Bool.or_eq_true, beq_iff_eq] at h
  rcases h with rfl | rfl <;> decide

/-! ### White space and comments -/

/-- Neither white space nor a comment comes next. -/
def Solid (rest : List Char) : Prop := ∀ c ∈ rest.head?, isSpace c = false ∧ c ≠ '/'

theorem triviaLengthIn_solid {rest : List Char} (h : Solid rest) (offset : Nat) :
    triviaLengthIn offset .space rest = .ok 0 := by
  cases rest with
  | nil => simp [triviaLengthIn]
  | cons c rest =>
      have hc := h c rfl
      rw [triviaLengthIn, if_neg (by simp [hc.1])]
      · exact fun _ hc' _ => hc.2 hc'
      · exact fun _ hc' _ => hc.2 hc'

theorem map_map_add (x : Except SyntaxFault Nat) (m n : Nat) :
    (x.map (· + m)).map (· + n) = x.map (· + (m + n)) := by
  cases x <;> simp [Except.map, Nat.add_assoc]

theorem triviaLengthIn_space {c : Char} (hc : isSpace c = true) (rest : List Char) (offset : Nat) :
    triviaLengthIn offset .space (c :: rest) =
      (triviaLengthIn (offset + 1) .space rest).map (· + 1) := by
  have hne : c ≠ '/' := by rintro rfl; exact absurd hc (by decide)
  rw [triviaLengthIn, if_pos hc]
  · exact fun _ hc' _ => hne hc'
  · exact fun _ hc' _ => hne hc'

theorem triviaLengthIn_line {content : List Char} {stop : Char}
    (hc : ∀ c ∈ content, isLineBreak c = false) (hs : isLineBreak stop = true) (rest : List Char)
    (offset : Nat) :
    triviaLengthIn offset .lineComment (content ++ stop :: rest) =
      (triviaLengthIn (offset + (content.length + 1)) .space rest).map
        (· + (content.length + 1)) := by
  induction content generalizing offset with
  | nil => rw [List.nil_append, triviaLengthIn, if_pos hs]; rfl
  | cons c content ih =>
      rw [List.forall_mem_cons] at hc
      rw [List.cons_append, triviaLengthIn, if_neg (by simp [hc.1]), ih hc.2, map_map_add]
      simp only [List.length_cons, Nat.add_assoc, Nat.add_comm 1]

theorem triviaLengthIn_block {content : List Char} (hc : ¬ ['*', '/'] <:+: content) (start : Nat)
    (rest : List Char) (offset : Nat) :
    triviaLengthIn offset (.blockComment start) (content ++ '*' :: '/' :: rest) =
      (triviaLengthIn (offset + (content.length + 2)) .space rest).map
        (· + (content.length + 2)) := by
  induction content generalizing offset with
  | nil => rw [List.nil_append, triviaLengthIn]; rfl
  | cons c content ih =>
      have htail : ¬ ['*', '/'] <:+: content := fun hi => hc (hi.trans (List.infix_cons_iff.2
        (.inr (List.infix_refl _))))
      rw [List.cons_append, triviaLengthIn, ih htail, map_map_add]
      · rw [List.length_cons, Nat.add_right_comm content.length 1 2, Nat.add_right_comm offset 1]
        rfl
      · -- the end of the comment may not begin here
        rintro tail rfl heq
        cases content with
        | nil => simp at heq
        | cons d content =>
            obtain ⟨rfl, -⟩ := List.cons.inj heq
            exact hc ⟨[], content, rfl⟩

theorem triviaLengthIn_filler (f : Filler) (rest : List Char) (offset : Nat) :
    triviaLengthIn offset .space (f.text ++ rest) =
      (triviaLengthIn (offset + f.text.length) .space rest).map (· + f.text.length) := by
  cases f with
  | space c hc => exact triviaLengthIn_space hc rest offset
  | line content stop hc hs =>
      simp only [Filler.text, List.cons_append, List.append_assoc, List.nil_append]
      rw [triviaLengthIn, triviaLengthIn_line hc hs, map_map_add]
      simp [Nat.add_assoc, Nat.add_comm 2]
  | block content hc =>
      simp only [Filler.text, List.cons_append, List.append_assoc, List.nil_append]
      rw [triviaLengthIn, triviaLengthIn_block hc, map_map_add]
      simp [Nat.add_assoc, Nat.add_comm 2]

/-- White space and complete comments are counted, and the text behind them is read on. -/
theorem triviaLengthIn_fillers (gap : Gap) (rest : List Char) (offset : Nat) :
    triviaLengthIn offset .space (gap.text ++ rest) =
      (triviaLengthIn (offset + gap.text.length) .space rest).map (· + gap.text.length) := by
  induction gap generalizing offset with
  | nil => cases h : triviaLengthIn offset .space rest <;> simp [Gap.text, h, Except.map]
  | cons f gap ih =>
      have hcons : Gap.text (f :: gap) = f.text ++ Gap.text gap := rfl
      rw [hcons, List.append_assoc, triviaLengthIn_filler, ih, map_map_add, List.length_append,
        Nat.add_assoc, Nat.add_comm (Gap.text gap).length]

theorem triviaLengthIn_gap (gap : Gap) {rest : List Char} (h : Solid rest) (offset : Nat) :
    triviaLengthIn offset .space (gap.text ++ rest) = .ok gap.text.length := by
  simp [triviaLengthIn_fillers, triviaLengthIn_solid h, Except.map]

theorem triviaLength_gap (gap : Gap) {rest : List Char} (h : Solid rest) :
    triviaLength (gap.text ++ rest) = .ok gap.text.length := triviaLengthIn_gap gap h 0

/-! ### Literals -/

theorem stringLength?_plain {quote : Char} (hq : isQuote quote = true) {content : List Char}
    (h : ∀ c ∈ content, c ≠ quote ∧ c ≠ '\\' ∧ isLineBreak c = false) (rest : List Char) :
    stringLength? quote (content ++ quote :: rest) = some content.length := by
  induction content with
  | nil =>
      have hne : quote ≠ '\\' := by rintro rfl; exact absurd hq (by decide)
      rw [List.nil_append, stringLength?, if_pos rfl]
      · rfl
      · exact fun _ hc _ => hne hc
      · exact fun _ _ hc _ => hne hc
  | cons c content ih =>
      rw [List.forall_mem_cons] at h
      obtain ⟨⟨h1, h2, h3⟩, h⟩ := h
      rw [List.cons_append, stringLength?, if_neg h1, if_neg (by simp [h2, h3]), ih h]
      · rfl
      · exact fun _ hc _ => h2 hc
      · exact fun _ _ hc _ => h2 hc

theorem chunkLength?_template {content : List Char} (h : IsTemplateContent content)
    (rest : List Char) :
    chunkLength? (content ++ '\x60' :: rest) = some (.closed, content.length + 1) := by
  induction h with
  | nil => rfl
  | @char c content hb hs hd _ ih =>
      rw [List.cons_append, chunkLength?, if_neg hs, ih]
      · rfl
      · exact hb
      · exact fun _ _ hc _ => hs hc
      · rintro tail rfl heq
        cases content with
        | nil => simp at heq
        | cons d content => exact hd rfl (by rw [(List.cons.inj heq).1]; rfl)
  | @escape c content _ ih =>
      rw [List.cons_append, List.cons_append, chunkLength?, ih]
      rfl

/-! ### What follows a token -/

/-- The word at the end of which `rest` begins is complete. -/
def EndsWord (rest : List Char) : Prop := ∀ c ∈ rest.head?, isIdentifierChar c = false

theorem Filler.head?_text (f : Filler) :
    ∃ c, f.text.head? = some c ∧ isIdentifierChar c = false := by
  cases f with
  | space c hc => exact ⟨c, rfl, isIdentifierChar_of_isSpace hc⟩
  | line content stop hc hs => exact ⟨'/', rfl, by decide⟩
  | block content hc => exact ⟨'/', rfl, by decide⟩

theorem Gap.endsWord_append {gap : Gap} {rest : List Char} (h : gap = [] → EndsWord rest) :
    EndsWord (gap.text ++ rest) := by
  cases gap with
  | nil => exact h rfl
  | cons f gap =>
      obtain ⟨c, hc, hi⟩ := f.head?_text
      intro d hd
      rw [Gap.text, List.flatMap_cons, List.append_assoc, List.head?_append, hc] at hd
      exact Option.some.inj hd ▸ hi

theorem takeWhile_append_of_endsWord {chars rest : List Char}
    (hw : ∀ c ∈ chars, isIdentifierChar c = true) (h : EndsWord rest) :
    identifierAhead (chars ++ rest) = chars := by
  rw [identifierAhead, List.takeWhile_append_of_pos hw]
  cases rest with
  | nil => simp
  | cons c rest => simp [h c rfl]

/-- The word that a token is, empty for any other token. -/
def Token.letters : Token → List Char
  | .word w => w.chars
  | _ => []

/-- Whether a token is a string. -/
def Token.isQuoted : Token → Bool
  | .literal (.string _) => true
  | .source _ => true
  | .argument _ => true
  | _ => false

/-- The first character of a token. -/
theorem Token.exists_text_eq_cons (t : Token) : ∃ c cs, t.text = c :: cs ∧ isSpace c = false ∧
    c ≠ '/' ∧ (isIdentifierChar c = t.isWord) ∧ isQuote c = t.isQuoted := by
  have hq (q : Quoted) : isSpace q.quote = false ∧ q.quote ≠ '/' ∧
      isIdentifierChar q.quote = false ∧ isQuote q.quote = true :=
    ⟨isSpace_of_isQuote q.isQuote_eq, fun h => absurd (h ▸ q.isQuote_eq) (by decide),
      isIdentifierChar_of_isQuote q.isQuote_eq, q.isQuote_eq⟩
  cases t with
  | word w =>
      obtain ⟨c, cs, hcs⟩ := List.exists_cons_of_ne_nil w.chars_ne_nil
      have hc := w.isIdentifierChar_eq c (by simp [hcs])
      exact ⟨c, cs, hcs, isSpace_of_isIdentifierChar hc,
        fun h => absurd (h ▸ hc) (by decide), hc, isQuote_of_isIdentifierChar hc⟩
  | mark m => exact ⟨m.char, [], rfl, by cases m <;> decide⟩
  | literal l =>
      cases l with
      | string q => exact ⟨q.quote, _, rfl, hq q⟩
      | template t => exact ⟨'\x60', _, rfl, by decide, by decide, rfl, rfl⟩
  | source q => exact ⟨q.quote, _, rfl, hq q⟩
  | argument q => exact ⟨q.quote, _, rfl, hq q⟩

theorem Token.solid (t : Token) (rest : List Char) : Solid (t.text ++ rest) := by
  obtain ⟨c, cs, hcs, hs, hne, -⟩ := t.exists_text_eq_cons
  intro d hd
  rw [hcs] at hd
  exact Option.some.inj hd ▸ ⟨hs, hne⟩

theorem Token.identifierAhead_text (t : Token) {rest : List Char}
    (h : t.isWord = true → EndsWord rest) : identifierAhead (t.text ++ rest) = t.letters := by
  obtain ⟨c, cs, hcs, -, -, hi, -⟩ := t.exists_text_eq_cons
  cases t with
  | word w => exact takeWhile_append_of_endsWord w.isIdentifierChar_eq (h rfl)
  | _ => simp_all [identifierAhead, Token.letters, Token.isWord]

/-! ### Spellings -/

theorem Separated.tail {p : Piece} {pieces : List Piece} (h : Separated (p :: pieces)) :
    Separated pieces := List.IsChain.tail h

theorem Separated.right {pieces more : List Piece} (h : Separated (pieces ++ more)) :
    Separated more := List.IsChain.right_of_append h

/-- The gap in front of the first piece does not matter. -/
theorem Separated.head_gap {p : Piece} {pieces : List Piece} (h : Separated (p :: pieces))
    (gap : Gap) : Separated (⟨gap, p.token⟩ :: pieces) := by
  cases pieces with
  | nil => exact List.isChain_singleton _
  | cons q pieces => exact List.isChain_cons_cons.2 (List.isChain_cons_cons.1 h)

theorem Separated.endsWord {p : Piece} {pieces : List Piece} (h : Separated (p :: pieces))
    (hp : p.token.isWord = true) (last : Gap) : EndsWord (spelled pieces last) := by
  cases pieces with
  | nil =>
      have : EndsWord (last.text ++ []) := Gap.endsWord_append fun _ => by simp [EndsWord]
      simpa [spelled] using this
  | cons q pieces =>
      obtain ⟨hpq, -⟩ := List.isChain_cons_cons.1 h
      rw [spelled, List.flatMap_cons, Piece.text, List.append_assoc, List.append_assoc]
      refine Gap.endsWord_append fun hg => ?_
      obtain ⟨c, cs, hcs, -, -, hi, -⟩ := q.token.exists_text_eq_cons
      intro d hd
      rw [hcs] at hd
      obtain rfl : c = d := Option.some.inj hd
      rw [hi, Bool.eq_false_iff]
      exact fun hq => hpq hp hq hg

/-! ### Places in a spelling -/

/-- The text that has been read after some pieces. -/
def behind (past : Past) (pieces : List Piece) : Past :=
  pieces.foldl (fun past p => p.text.reverse ++ past) past

@[simp] theorem behind_nil (past : Past) : behind past [] = past := rfl

@[simp] theorem behind_behind (past : Past) (pieces more : List Piece) :
    behind (behind past pieces) more = behind past (pieces ++ more) := by
  simp [behind]

/-- A gap may be read on its own. -/
theorem behind_gap (past : Past) (p : Piece) (pieces : List Piece) :
    behind (p.gap.text.reverse ++ past) (⟨[], p.token⟩ :: pieces) = behind past (p :: pieces) := by
  simp [behind, Piece.text, Gap.text]

theorem length_behind (past : Past) (pieces : List Piece) :
    (behind past pieces).length = past.length + (pieces.flatMap Piece.text).length := by
  induction pieces generalizing past with
  | nil => rfl
  | cons p pieces ih =>
      have h := ih (p.text.reverse ++ past)
      simp only [List.length_append, List.length_reverse] at h
      rw [List.flatMap_cons, List.length_append]
      exact h.trans (by omega)

namespace Cursor

theorem advance_append (past : Past) (cs rest : List Char) :
    (⟨past, cs ++ rest⟩ : Cursor).advance cs.length = ⟨cs.reverse ++ past, rest⟩ := by
  simp [advance]

/-- The place in front of some pieces. -/
def inFront (past : Past) (pieces : List Piece) (last : Gap) : Cursor :=
  ⟨past, spelled pieces last⟩

/-- The place in front of the first token of some pieces, or at the end if there is none. -/
def atToken (past : Past) (pieces : List Piece) (last : Gap) : Cursor :=
  match pieces with
  | [] => ⟨last.text.reverse ++ past, []⟩
  | p :: pieces => ⟨p.gap.text.reverse ++ past, p.token.text ++ spelled pieces last⟩

variable {past : Past} {p : Piece} {pieces : List Piece} {last : Gap}

/-- White space and comments end where the next token begins. -/
@[simp] theorem skipTrivia_inFront :
    (inFront past pieces last).skipTrivia = .ok (atToken past pieces last) := by
  cases pieces with
  | nil =>
      have h : triviaLength (last.text ++ []) = .ok last.text.length :=
        triviaLength_gap last (by simp [Solid])
      have h' := advance_append past last.text []
      simp only [List.append_nil] at h h'
      simp [skipTrivia, inFront, spelled, atToken, h, h']
  | cons p pieces =>
      have h := triviaLength_gap p.gap (p.token.solid (spelled pieces last))
      have hspelled : spelled (p :: pieces) last =
          p.gap.text ++ (p.token.text ++ spelled pieces last) := by
        simp [spelled, Piece.text]
      rw [skipTrivia, inFront, hspelled, h]
      simp [advance_append, atToken]

/-- In front of a token there is no gap any more. -/
theorem atToken_cons :
    atToken past (p :: pieces) last =
      inFront (p.gap.text.reverse ++ past) (⟨[], p.token⟩ :: pieces) last := by
  simp [atToken, inFront, spelled, Piece.text, Gap.text]

theorem advance_atToken (past : Past) (p : Piece) (pieces : List Piece) (last : Gap) :
    (atToken past (p :: pieces) last).advance p.token.text.length =
      inFront (behind past [p]) pieces last := by
  rw [atToken, advance_append]
  simp [inFront, behind, Piece.text]

theorem identifier_atToken (h : Separated pieces) :
    (atToken past pieces last).identifier =
      (pieces.head?.map fun p => p.token.letters).getD [] := by
  cases pieces with
  | nil => rfl
  | cons p pieces => exact p.token.identifierAhead_text fun hp => h.endsWord hp last

theorem peek?_atToken (past : Past) (p : Piece) (pieces : List Piece) (last : Gap) :
    (atToken past (p :: pieces) last).peek? = p.token.text.head? := by
  obtain ⟨c, cs, hcs, -⟩ := p.token.exists_text_eq_cons
  simp [atToken, peek?, hcs]

theorem atQuote_atToken (past : Past) (p : Piece) (pieces : List Piece) (last : Gap) :
    (atToken past (p :: pieces) last).atQuote = p.token.isQuoted := by
  obtain ⟨c, cs, hcs, -, -, -, hq⟩ := p.token.exists_text_eq_cons
  rw [atQuote, peek?_atToken, hcs]
  exact hq

theorem skipString_quoted (past : Past) (q : Quoted) (rest : List Char) :
    (⟨past, q.text ++ rest⟩ : Cursor).skipString = .ok ⟨q.text.reverse ++ past, rest⟩ := by
  have h := stringLength?_plain q.isQuote_eq q.plain rest
  have h' := advance_append past q.text rest
  simp only [Quoted.text, List.cons_append, List.append_assoc, List.nil_append, List.length_cons,
    List.length_append, List.length_nil] at h h' ⊢
  simp only [skipString, h]
  exact congrArg Except.ok h'

end Cursor

end ImportAtlas.Source

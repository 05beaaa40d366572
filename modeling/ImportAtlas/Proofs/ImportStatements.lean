import ImportAtlas.Source.Import
import ImportAtlas.Proofs.Lexemes

/-!
# Import statements

The word `import` in front of a specifier, of a clause or of a parenthesis, and what the analysis
records there.

## Summary

* `Bounded` says that a keyword may begin behind a text.
* `Apart` says that the word `from` in a clause is not the one in front of the specifier.

## Main results

* `atKeyword_atToken`, `eq_of_atKeyword`: a word is a keyword as a whole or not at all.
* `importStatement_source`, `importStatement_clause`, `importStatement_call`: the record of each
  form of import, and the place behind it.
-/

namespace ImportAtlas.Source

variable {past : Past} {pieces more : List Piece} {last : Gap}

/-! ### Looking at tokens -/

/-- A token that begins with a character of punctuation is a mark. -/
theorem Token.exists_eq_mark {t : Token} {c : Char} (h : t.text.head? = some c)
    (hc : isPunctuator c = true) : ∃ m, t = .mark m ∧ m.char = c := by
  have hq (q : Quoted) : q.quote ≠ c := fun hq =>
    absurd (hq ▸ q.isQuote_eq) (by
      intro hq
      simp only [isQuote, Bool.or_eq_true, beq_iff_eq] at hq
      rcases hq with rfl | rfl <;> exact absurd hc (by decide))
  cases t with
  | word w =>
      have hi := w.isIdentifierChar_eq c (List.mem_of_mem_head? h)
      rw [isPunctuator_of_isIdentifierChar hi] at hc
      exact absurd hc Bool.false_ne_true
  | mark m => exact ⟨m, rfl, Option.some.inj h⟩
  | literal l =>
      cases l with
      | string q => exact absurd (Option.some.inj h) (hq q)
      | template t =>
          obtain rfl : '\x60' = c := Option.some.inj h
          exact absurd hc (by decide)
  | source q => exact absurd (Option.some.inj h) (hq q)
  | argument q => exact absurd (Option.some.inj h) (hq q)

theorem Mark.char_injective : Function.Injective Mark.char := by
  intro m n h
  cases m <;> cases n <;> first | rfl | exact absurd h (by decide)

@[simp] theorem peek?_atToken_eq_mark {p : Piece} (m : Mark) :
    (Cursor.atToken past (p :: pieces) last).peek? = some m.char ↔ p.token = .mark m := by
  rw [Cursor.peek?_atToken]
  constructor
  · intro h
    obtain ⟨n, hn, hc⟩ := Token.exists_eq_mark h (by cases m <;> decide)
    rw [hn, Mark.char_injective hc]
  · rintro h
    rw [h]
    rfl

theorem peek?_atToken_ne_dot {p : Piece} :
    (Cursor.atToken past (p :: pieces) last).peek? ≠ some '.' := by
  rw [Cursor.peek?_atToken]
  intro h
  obtain ⟨m, -, hc⟩ := Token.exists_eq_mark h (by decide)
  cases m <;> exact absurd hc (by decide)

theorem rest_inFront_ne_nil (past : Past) (p : Piece) (pieces : List Piece) (last : Gap) :
    (Cursor.inFront past (p :: pieces) last).rest ≠ [] := by
  obtain ⟨c, cs, hcs, -⟩ := p.token.exists_text_eq_cons
  simp [Cursor.inFront, spelled, Piece.text, hcs]

theorem rest_atToken_ne_nil (past : Past) (p : Piece) (pieces : List Piece) (last : Gap) :
    (Cursor.atToken past (p :: pieces) last).rest ≠ [] := by
  obtain ⟨c, cs, hcs, -⟩ := p.token.exists_text_eq_cons
  simp [Cursor.atToken, hcs]

/-! ### Keywords -/

/-- The text that has been read ends where a keyword may begin. -/
def Bounded (past : Past) : Prop :=
  ∀ b ∈ past.head?, (isSpace b = true ∨ isPunctuator b = true) ∧ b ≠ '.'

theorem Filler.exists_text_eq_concat (f : Filler) : ∃ cs c, f.text = cs ++ [c] ∧
    (isSpace c = true ∨ isPunctuator c = true) ∧ c ≠ '.' := by
  cases f with
  | space c hc => exact ⟨[], c, rfl, .inl hc, by rintro rfl; exact absurd hc (by decide)⟩
  | line content stop hc hs =>
      refine ⟨'/' :: '/' :: content, stop, rfl, .inl (isSpace_of_isLineBreak hs), ?_⟩
      rintro rfl
      exact absurd hs (by decide)
  | block content hc =>
      exact ⟨'/' :: '*' :: content ++ ['*'], '/', by simp [Filler.text], by decide⟩

theorem Bounded.gap (h : Bounded past) (gap : Gap) : Bounded (gap.text.reverse ++ past) := by
  rcases List.eq_nil_or_concat gap with rfl | ⟨gap, f, rfl⟩
  · exact h
  · obtain ⟨cs, c, hf, hc⟩ := f.exists_text_eq_concat
    intro b hb
    simp only [Gap.text, List.concat_eq_append, List.flatMap_append, List.flatMap_cons,
      List.flatMap_nil, List.append_nil, hf, List.reverse_append, List.reverse_cons,
      List.reverse_nil, List.nil_append, List.cons_append, List.head?_cons] at hb
    exact Option.some.inj hb ▸ hc

/-- A complete word is a keyword only as a whole. -/
theorem eq_of_atKeyword {chars keyword rest : List Char}
    (hw : ∀ c ∈ chars, isIdentifierChar c = true) (hk : ∀ c ∈ keyword, isIdentifierChar c = true)
    (hr : EndsWord rest) (h : (⟨past, chars ++ rest⟩ : Cursor).atKeyword keyword = true) :
    chars = keyword := by
  simp only [Cursor.atKeyword, Bool.and_eq_true] at h
  obtain ⟨⟨hpre, -⟩, hend⟩ := h
  obtain ⟨tail, htail⟩ := List.isPrefixOf_iff_prefix.1 hpre
  have htail' : EndsWord tail := by
    intro c hc
    rw [← htail, Cursor.advance_append, Cursor.identifier, identifierAhead] at hend
    cases tail with
    | nil => simp at hc
    | cons d tail =>
        obtain rfl : d = c := Option.some.inj hc
        simpa [List.takeWhile_cons] using hend
  rw [← takeWhile_append_of_endsWord hw hr, ← htail, takeWhile_append_of_endsWord hk htail']

/-- A complete word is that keyword where a keyword may begin. -/
theorem atKeyword_word (h : Bounded past) (w : Word) {rest : List Char} (hend : EndsWord rest) :
    (⟨past, w.chars ++ rest⟩ : Cursor).atKeyword w.chars = true := by
  have hadvance : ((⟨past, w.chars ++ rest⟩ : Cursor).advance w.chars.length).identifier = [] := by
    rw [Cursor.advance_append]
    exact @takeWhile_append_of_endsWord [] rest (by simp) hend
  simp only [Cursor.atKeyword, hadvance, List.isEmpty_nil, Bool.and_true, Bool.and_eq_true]
  refine ⟨List.isPrefixOf_iff_prefix.2 (List.prefix_append _ _), ?_⟩
  cases hh : past.head? with
  | none => rfl
  | some b =>
      obtain ⟨h1, h2⟩ := h b hh
      simp [h1, h2]

theorem atKeyword_atToken (h : Bounded past) {g : Gap} {w : Word}
    (hs : Separated (⟨g, .word w⟩ :: pieces)) :
    (Cursor.atToken past (⟨g, .word w⟩ :: pieces) last).atKeyword w.chars = true :=
  atKeyword_word (h.gap g) w (hs.endsWord rfl last)

/-! ### Imports -/

@[simp] theorem length_past_inFront : (Cursor.inFront past pieces last).offset = past.length := rfl

theorem skipString_atToken {p : Piece} {q : Quoted} (hp : p.token.text = q.text) :
    (Cursor.atToken past (p :: pieces) last).skipString =
      .ok (Cursor.inFront (behind past [p]) pieces last) := by
  rw [Cursor.atToken, hp, Cursor.skipString_quoted]
  simp [Cursor.inFront, Piece.text, hp, behind]

theorem sourceString_atToken {g : Gap} {q : Quoted} :
    sourceString (Cursor.atToken past (⟨g, .source q⟩ :: pieces) last) =
      .ok (⟨past.length + g.text.length + 1, past.length + g.text.length + 1 + q.content.length,
        .static⟩, Cursor.inFront (behind past [⟨g, .source q⟩]) pieces last) := by
  have hrest := rest_atToken_ne_nil past ⟨g, .source q⟩ pieces last
  have hquote : (Cursor.atToken past (⟨g, .source q⟩ :: pieces) last).atQuote = true :=
    Cursor.atQuote_atToken ..
  rw [sourceString, if_neg hrest, if_pos hquote, staticImport, skipString_atToken (q := q) rfl]
  simp [Except.map, Cursor.atToken, Cursor.offset, Piece.text, Token.text, Quoted.text,
    Cursor.inFront, behind]
  omega

/-- Whether a token may stand between `import` and `from`. -/
def Token.ofClause : Token → Prop
  | .word _ => True
  | .mark _ => True
  | .literal (.string _) => True
  | _ => False

/-- No string stands directly behind the word `from`. -/
def Apart (t u : Token) : Prop := t.letters = "from".toList → u.isQuoted = false

theorem Apart.of_word (t : Token) (w : Word) : Apart t (.word w) := fun _ => rfl

theorem Apart.of_mark (t : Token) (m : Mark) : Apart t (.mark m) := fun _ => rfl

theorem Apart.mark (m : Mark) (t : Token) : Apart (.mark m) t :=
  fun h => absurd (show [] = "from".toList from h) (by decide)

theorem Apart.as (t : Token) : Apart (.word asWord) t :=
  fun h => absurd (show asWord.chars = "from".toList from h) (by decide)

/-- One token of what stands between `import` and `from`. -/
theorem importClause_step {p : Piece} (hs : Separated (p :: pieces)) :
    importClause (Cursor.inFront past (p :: pieces) last) =
      if p.token.isQuoted = true then
        match (Cursor.atToken past (p :: pieces) last).skipString with
        | .error f => .error f
        | .ok e => importClause e
      else if p.token.letters = [] then
        importClause ((Cursor.atToken past (p :: pieces) last).advance 1)
      else
        let e := (Cursor.atToken past (p :: pieces) last).advance p.token.letters.length
        if p.token.letters = "from".toList then
          match e.skipTrivia with
          | .error f => .error f
          | .ok specifier => if specifier.atQuote = true then .ok specifier else importClause e
        else importClause e := by
  have hrest := rest_inFront_ne_nil past p pieces last
  have hrest' := rest_atToken_ne_nil past p pieces last
  have hid : (Cursor.atToken past (p :: pieces) last).identifier = p.token.letters :=
    Cursor.identifier_atToken hs
  rw [importClause, if_neg hrest]
  split
  · rename_i h
    simp at h
  · rename_i d h
    obtain rfl : Cursor.atToken past (p :: pieces) last = d := by simpa using h
    rw [dif_neg hrest', Cursor.atQuote_atToken, hid]
    congr 1
    split <;> simp_all

/-- A token of a clause is passed over as a whole, unless it is the `from` in front of a string. -/
theorem importClause_cons {p : Piece} (hp : p.token.ofClause) (hs : Separated (p :: pieces))
    (hne : pieces ≠ [])
    (hapart : ∀ q ∈ pieces.head?, Apart p.token q.token) :
    importClause (Cursor.inFront past (p :: pieces) last) =
      importClause (Cursor.inFront (behind past [p]) pieces last) := by
  have hadv := Cursor.advance_atToken past p pieces last
  obtain ⟨g, t⟩ := p
  cases t with
  | word w =>
      have hne' : ¬ w.chars = [] := w.chars_ne_nil
      have hadv' : (Cursor.atToken past (⟨g, .word w⟩ :: pieces) last).advance w.chars.length =
        Cursor.inFront (behind past [⟨g, .word w⟩]) pieces last := hadv
      rw [importClause_step hs]
      simp only [Token.isQuoted, Token.letters, Bool.false_eq_true, if_false, if_neg hne', hadv',
        Cursor.skipTrivia_inFront]
      split
      · rename_i hfrom
        obtain ⟨q, more, rfl⟩ := List.exists_cons_of_ne_nil hne
        rw [Cursor.atQuote_atToken, hapart q rfl hfrom, if_neg Bool.false_ne_true]
      · rfl
  | mark m =>
      have hadv' : (Cursor.atToken past (⟨g, .mark m⟩ :: pieces) last).advance 1 =
        Cursor.inFront (behind past [⟨g, .mark m⟩]) pieces last := hadv
      rw [importClause_step hs]
      simp only [Token.isQuoted, Token.letters, Bool.false_eq_true, if_false, if_true, hadv']
  | literal l =>
      cases l with
      | string q =>
          have hskip : (Cursor.atToken past (⟨g, .literal (.string q)⟩ :: pieces) last).skipString =
              .ok (Cursor.inFront (behind past [⟨g, .literal (.string q)⟩])
                pieces last) := skipString_atToken (q := q) rfl
          rw [importClause_step hs]
          simp only [Token.isQuoted, if_true, hskip]
      | template t => exact hp.elim
  | source q => exact hp.elim
  | argument q => exact hp.elim

/-- The clause of an import ends at the `from` in front of the specifier. -/
theorem importClause_inFront {clause : List Piece} (hc : ∀ p ∈ clause, p.token.ofClause)
    (past : Past) (last : Gap) {gf gs : Gap} {q : Quoted}
    (hapart : (clause.map Piece.token ++ [Token.word fromWord]).IsChain Apart)
    (hs : Separated (clause ++ ⟨gf, .word fromWord⟩ :: ⟨gs, .source q⟩ :: more)) :
    importClause (Cursor.inFront past
        (clause ++ ⟨gf, .word fromWord⟩ :: ⟨gs, .source q⟩ :: more) last) =
      .ok (Cursor.atToken (behind past (clause ++ [⟨gf, .word fromWord⟩]))
        (⟨gs, .source q⟩ :: more) last) := by
  induction clause generalizing past with
  | nil =>
      have hadv : (Cursor.atToken past (⟨gf, .word fromWord⟩ :: ⟨gs, .source q⟩ :: more)
          last).advance fromWord.chars.length =
          Cursor.inFront (behind past [⟨gf, .word fromWord⟩])
            (⟨gs, .source q⟩ :: more) last := Cursor.advance_atToken ..
      rw [List.nil_append] at hs ⊢
      rw [importClause_step hs]
      simp only [Token.isQuoted, Token.letters, Bool.false_eq_true, if_false,
        if_neg fromWord.chars_ne_nil, hadv, Cursor.skipTrivia_inFront]
      rw [if_pos (show fromWord.chars = "from".toList from rfl), Cursor.atQuote_atToken,
        if_pos (show Token.isQuoted (.source q) = true from rfl)]
      simp
  | cons p clause ih =>
      rw [List.forall_mem_cons] at hc
      rw [List.cons_append] at hs ⊢
      rw [importClause_cons hc.1 hs (by simp), ih hc.2 _ hapart.tail hs.tail]
      · simp
      · intro r hr
        cases clause with
        | nil =>
            obtain rfl := Option.some.inj hr
            exact (List.isChain_cons_cons.1 hapart).1
        | cons r' clause =>
            obtain rfl : r' = r := Option.some.inj hr
            exact (List.isChain_cons_cons.1 hapart).1

theorem advance_word {g : Gap} {w : Word} :
    (Cursor.atToken past (⟨g, .word w⟩ :: pieces) last).advance w.chars.length =
      Cursor.inFront (behind past [⟨g, .word w⟩]) pieces last :=
  Cursor.advance_atToken past ⟨g, .word w⟩ pieces last

theorem advance_mark {g : Gap} {m : Mark} :
    (Cursor.atToken past (⟨g, .mark m⟩ :: pieces) last).advance 1 =
      Cursor.inFront (behind past [⟨g, .mark m⟩]) pieces last :=
  Cursor.advance_atToken past ⟨g, .mark m⟩ pieces last

/-- A declaration names the module whose specifier is found. -/
theorem importStatement_declaration {g : Gap} {p : Piece} (hb : Bounded past)
    (hs : Separated (⟨g, .word importWord⟩ :: p :: more)) (hp : p.token ≠ .mark .openParen)
    {specifier e : Cursor} {record : ImportRecord}
    (hspecifier : (if p.token.isQuoted = true
      then .ok (Cursor.atToken (behind past [⟨g, .word importWord⟩]) (p :: more) last)
      else importClause (Cursor.atToken (behind past [⟨g, .word importWord⟩]) (p :: more) last)) =
        .ok specifier)
    (he : sourceString specifier = .ok (record, e)) :
    importStatement false (Cursor.atToken past (⟨g, .word importWord⟩ :: p :: more) last) =
      ⟨[record], [], none, .ok e⟩ := by
  have hword : (Cursor.atToken past (⟨g, .word importWord⟩ :: p :: more) last).atKeyword
    "import".toList = true := atKeyword_atToken hb hs
  have hparen : (Cursor.atToken (behind past [⟨g, .word importWord⟩]) (p :: more) last).peek? ≠
    some '(' := mt (peek?_atToken_eq_mark .openParen).1 hp
  have hadv : (Cursor.atToken past (⟨g, .word importWord⟩ :: p :: more) last).advance 6 = _ :=
    advance_word
  rw [← Cursor.atQuote_atToken (behind past [⟨g, .word importWord⟩]) p more last] at hspecifier
  simp only [importStatement, hword, hadv, Cursor.skipTrivia_inFront, if_neg hparen,
    if_neg peek?_atToken_ne_dot, Bool.not_true, Bool.false_eq_true, if_false, hspecifier, he]

/-- An import without bindings. -/
theorem importStatement_source {g gs : Gap} {q : Quoted} (hb : Bounded past)
    (hs : Separated (⟨g, .word importWord⟩ :: ⟨gs, .source q⟩ :: more)) :
    importStatement false
        (Cursor.atToken past (⟨g, .word importWord⟩ :: ⟨gs, .source q⟩ :: more) last) =
      ⟨(Piece.mk gs (.source q)).records (behind past [⟨g, .word importWord⟩]).length, [], none,
        .ok (Cursor.inFront (behind past [⟨g, .word importWord⟩, ⟨gs, .source q⟩]) more last)⟩ :=
  importStatement_declaration hb hs (by simp) (if_pos rfl) sourceString_atToken

/-- An import with bindings. -/
theorem importStatement_clause (last : Gap) {g gf gs : Gap} {q : Quoted} {p : Piece}
    {clause : List Piece}
    (hb : Bounded past)
    (hs : Separated (⟨g, .word importWord⟩ :: p :: clause ++
      ⟨gf, .word fromWord⟩ :: ⟨gs, .source q⟩ :: more))
    (hp : p.token ≠ .mark .openParen) (hq : p.token.isQuoted = false)
    (hc : ∀ p' ∈ p :: clause, p'.token.ofClause)
    (hapart : ((p :: clause).map Piece.token ++ [Token.word fromWord]).IsChain Apart) :
    importStatement false
        (Cursor.atToken past (⟨g, .word importWord⟩ :: p :: clause ++
          ⟨gf, .word fromWord⟩ :: ⟨gs, .source q⟩ :: more) last) =
      ⟨(Piece.mk gs (.source q)).records
          (behind past (⟨g, .word importWord⟩ :: p :: clause ++ [⟨gf, .word fromWord⟩])).length,
        [], none, .ok (Cursor.inFront (behind past (⟨g, .word importWord⟩ :: p :: clause ++
          [⟨gf, .word fromWord⟩, ⟨gs, .source q⟩])) more last)⟩ := by
  have hc' : ∀ p' ∈ (⟨[], p.token⟩ : Piece) :: clause, p'.token.ofClause :=
    List.forall_mem_cons.2 (List.forall_mem_cons.1 hc)
  have hclause := importClause_inFront hc'
    (p.gap.text.reverse ++ behind past [⟨g, .word importWord⟩]) last hapart (hs.tail.head_gap [])
  rw [List.cons_append, ← Cursor.atToken_cons] at hclause
  refine (importStatement_declaration hb hs hp ((if_neg (by simp [hq])).trans hclause)
    sourceString_atToken).trans ?_
  rw [List.cons_append, behind_gap, behind_behind]
  simp only [List.cons_append, List.nil_append, behind_behind, List.append_assoc]
  rfl

/-- A string is all that stands between the parentheses of a call. -/
theorem plainArgument?_inFront {ga gc : Gap} {q : Quoted} :
    plainArgument? (Cursor.inFront past (⟨ga, .argument q⟩ :: ⟨gc, .mark .closeParen⟩ :: more)
      last) = some (Cursor.atToken past (⟨ga, .argument q⟩ :: ⟨gc, .mark .closeParen⟩ :: more) last,
        Cursor.inFront (behind past [⟨ga, .argument q⟩])
          (⟨gc, .mark .closeParen⟩ :: more) last) := by
  have hquote : (Cursor.atToken past (⟨ga, .argument q⟩ :: ⟨gc, .mark .closeParen⟩ :: more)
    last).atQuote = true := Cursor.atQuote_atToken ..
  have hskip : (Cursor.atToken past (⟨ga, .argument q⟩ :: ⟨gc, .mark .closeParen⟩ :: more)
    last).skipString = _ := skipString_atToken (q := q) rfl
  have hclose : (Cursor.atToken (behind past [⟨ga, .argument q⟩]) (⟨gc, .mark .closeParen⟩ :: more)
    last).peek? = some ')' := (peek?_atToken_eq_mark .closeParen).2 rfl
  simp only [plainArgument?, Cursor.skipTrivia_inFront, hquote, if_true, hskip, Except.toOption,
    hclose]

/-- A call. -/
theorem importStatement_call {g gp ga gc : Gap} {q : Quoted} (hb : Bounded past)
    (hs : Separated (⟨g, .word importWord⟩ :: ⟨gp, .mark .openParen⟩ :: ⟨ga, .argument q⟩ ::
      ⟨gc, .mark .closeParen⟩ :: more)) :
    importStatement false
        (Cursor.atToken past (⟨g, .word importWord⟩ :: ⟨gp, .mark .openParen⟩ ::
          ⟨ga, .argument q⟩ :: ⟨gc, .mark .closeParen⟩ :: more) last) =
      ⟨(Piece.mk ga (.argument q)).records
          (behind past [⟨g, .word importWord⟩, ⟨gp, .mark .openParen⟩]).length, [],
        some (behind past [⟨g, .word importWord⟩]),
        .ok (Cursor.inFront (behind past [⟨g, .word importWord⟩, ⟨gp, .mark .openParen⟩])
          (⟨ga, .argument q⟩ :: ⟨gc, .mark .closeParen⟩ :: more) last)⟩ := by
  have hword : (Cursor.atToken past (⟨g, .word importWord⟩ :: ⟨gp, .mark .openParen⟩ ::
    ⟨ga, .argument q⟩ :: ⟨gc, .mark .closeParen⟩ :: more) last).atKeyword "import".toList = true :=
    atKeyword_atToken hb hs
  have hadv : (Cursor.atToken past (⟨g, .word importWord⟩ :: ⟨gp, .mark .openParen⟩ ::
    ⟨ga, .argument q⟩ :: ⟨gc, .mark .closeParen⟩ :: more) last).advance 6 = _ := advance_word
  have hparen : (Cursor.atToken (behind past [⟨g, .word importWord⟩]) (⟨gp, .mark .openParen⟩ ::
    ⟨ga, .argument q⟩ :: ⟨gc, .mark .closeParen⟩ :: more) last).peek? = some '(' :=
    (peek?_atToken_eq_mark .openParen).2 rfl
  simp only [importStatement, hword, hadv, Cursor.skipTrivia_inFront, if_pos hparen, Bool.not_true,
    Bool.false_eq_true, if_false, advance_mark, dynamicImport, plainArgument?_inFront]
  simp [Piece.records, Cursor.atToken, Cursor.inFront, Cursor.offset, behind, Piece.text,
    Token.text, Quoted.text]
  omega

end ImportAtlas.Source

import ImportAtlas.Source.Export
import ImportAtlas.Proofs.ImportStatements

/-!
# Export statements

The word `export` in front of each form of export, and the names that the analysis finds there.

## Main results

* `exportStatement_default`, `exportStatement_item`, `exportStatement_async`: what stands behind
  the word.
* `exportedItem_list`, `exportedNames_atToken`: the names of a list, whatever they are.
* `exportStar_source`, `exportStar_name`: all that another module exports.
* `exportedItem_function`, `exportedItem_generator`, `exportedItem_class`,
  `exportedItem_variables`: the names of declarations.
-/

namespace ImportAtlas.Source

variable {past : Past} {pieces more : List Piece} {last : Gap}

/-! ### The word `export` -/

theorem identifier_word {g : Gap} {w : Word} (hs : Separated (⟨g, .word w⟩ :: pieces)) :
    (Cursor.atToken past (⟨g, .word w⟩ :: pieces) last).identifier = w.chars :=
  Cursor.identifier_atToken hs

theorem identifier_mark {g : Gap} {m : Mark} :
    (Cursor.atToken past (⟨g, .mark m⟩ :: pieces) last).identifier = [] :=
  (Token.mark m).identifierAhead_text (by simp [Token.isWord])

/-- The export without name. -/
theorem exportStatement_default {g gd : Gap} (hb : Bounded past)
    (hs : Separated (⟨g, .word exportWord⟩ :: ⟨gd, .word defaultWord⟩ :: more)) :
    exportStatement false
        (Cursor.atToken past (⟨g, .word exportWord⟩ :: ⟨gd, .word defaultWord⟩ :: more) last) =
      ⟨[], ["default"], none,
        .ok (Cursor.inFront (behind past [⟨g, .word exportWord⟩, ⟨gd, .word defaultWord⟩]) more
          last)⟩ := by
  have hword : (Cursor.atToken past (⟨g, .word exportWord⟩ :: ⟨gd, .word defaultWord⟩ :: more)
    last).atKeyword "export".toList = true := atKeyword_atToken hb hs
  have hadv : (Cursor.atToken past (⟨g, .word exportWord⟩ :: ⟨gd, .word defaultWord⟩ :: more)
    last).advance 6 = _ := advance_word
  have hid : (Cursor.atToken (behind past [⟨g, .word exportWord⟩]) (⟨gd, .word defaultWord⟩ :: more)
    last).identifier = "default".toList := identifier_word hs.tail
  have hadv' : (Cursor.atToken (behind past [⟨g, .word exportWord⟩])
    (⟨gd, .word defaultWord⟩ :: more) last).advance 7 = _ := advance_word
  simp only [exportStatement, hword, hadv, Cursor.skipTrivia_inFront, hid, if_true, hadv',
    Bool.not_true, Bool.or_self, Bool.false_eq_true, if_false, behind_behind]
  rfl

/-- What is exported stands behind `export`. -/
theorem exportStatement_item (last : Gap) {g : Gap} {p : Piece} (hb : Bounded past)
    (hs : Separated (⟨g, .word exportWord⟩ :: p :: more))
    (hdefault : p.token.letters ≠ "default".toList) (hasync : p.token.letters ≠ "async".toList) :
    exportStatement false (Cursor.atToken past (⟨g, .word exportWord⟩ :: p :: more) last) =
      exportedItem (Cursor.atToken past (⟨g, .word exportWord⟩ :: p :: more) last)
        (Cursor.atToken (behind past [⟨g, .word exportWord⟩]) (p :: more) last)
        (Cursor.atToken (behind past [⟨g, .word exportWord⟩]) (p :: more) last) := by
  have hword : (Cursor.atToken past (⟨g, .word exportWord⟩ :: p :: more) last).atKeyword
    "export".toList = true := atKeyword_atToken hb hs
  have hadv : (Cursor.atToken past (⟨g, .word exportWord⟩ :: p :: more) last).advance 6 = _ :=
    advance_word
  have hid : (Cursor.atToken (behind past [⟨g, .word exportWord⟩]) (p :: more) last).identifier =
    p.token.letters := Cursor.identifier_atToken hs.tail
  simp only [exportStatement, hword, hadv, Cursor.skipTrivia_inFront, hid, if_neg hdefault,
    if_neg hasync, Bool.not_true, Bool.or_self, Bool.false_eq_true, if_false]

/-- The word `async` may stand in front of what is exported. -/
theorem exportStatement_async {g ga : Gap} (hb : Bounded past)
    (hs : Separated (⟨g, .word exportWord⟩ :: ⟨ga, .word asyncWord⟩ :: more)) :
    exportStatement false
        (Cursor.atToken past (⟨g, .word exportWord⟩ :: ⟨ga, .word asyncWord⟩ :: more) last) =
      exportedItem
        (Cursor.atToken past (⟨g, .word exportWord⟩ :: ⟨ga, .word asyncWord⟩ :: more) last)
        (Cursor.atToken (behind past [⟨g, .word exportWord⟩]) (⟨ga, .word asyncWord⟩ :: more) last)
        (Cursor.atToken (behind past [⟨g, .word exportWord⟩, ⟨ga, .word asyncWord⟩]) more
          last) := by
  have hword : (Cursor.atToken past (⟨g, .word exportWord⟩ :: ⟨ga, .word asyncWord⟩ :: more)
    last).atKeyword "export".toList = true := atKeyword_atToken hb hs
  have hadv : (Cursor.atToken past (⟨g, .word exportWord⟩ :: ⟨ga, .word asyncWord⟩ :: more)
    last).advance 6 = _ := advance_word
  have hid : (Cursor.atToken (behind past [⟨g, .word exportWord⟩]) (⟨ga, .word asyncWord⟩ :: more)
    last).identifier = "async".toList := identifier_word hs.tail
  have hadv' : (Cursor.atToken (behind past [⟨g, .word exportWord⟩])
    (⟨ga, .word asyncWord⟩ :: more) last).advance 5 = _ := advance_word
  have hne : "async".toList ≠ "default".toList := by decide
  simp only [exportStatement, hword, hadv, Cursor.skipTrivia_inFront, hid, hadv', if_neg hne,
    if_true, Bool.not_true, Bool.or_self, Bool.false_eq_true, if_false, behind_behind]
  rfl

theorem exportDeclared_word {g : Gap} {w : Word} (hs : Separated (⟨g, .word w⟩ :: more)) :
    exportDeclared (Cursor.atToken past (⟨g, .word w⟩ :: more) last) =
      ⟨[], [w.name], none, .ok (Cursor.inFront (behind past [⟨g, .word w⟩]) more last)⟩ := by
  simp only [exportDeclared, identifier_word hs, if_neg w.chars_ne_nil, advance_word]
  rfl

/-- A function. -/
theorem exportedItem_function {start first : Cursor} {gf gn : Gap} {w : Word}
    (hs : Separated (⟨gf, .word functionWord⟩ :: ⟨gn, .word w⟩ :: more)) :
    exportedItem start first
        (Cursor.atToken past (⟨gf, .word functionWord⟩ :: ⟨gn, .word w⟩ :: more) last) =
      ⟨[], [w.name], none, .ok (Cursor.inFront
        (behind past [⟨gf, .word functionWord⟩, ⟨gn, .word w⟩]) more last)⟩ := by
  have hid : (Cursor.atToken past (⟨gf, .word functionWord⟩ :: ⟨gn, .word w⟩ :: more)
    last).identifier = "function".toList := identifier_word hs
  have hadv : (Cursor.atToken past (⟨gf, .word functionWord⟩ :: ⟨gn, .word w⟩ :: more)
    last).advance 8 = _ := advance_word
  have hstar : (Cursor.atToken (behind past [⟨gf, .word functionWord⟩]) (⟨gn, .word w⟩ :: more)
    last).peek? ≠ some '*' := mt (peek?_atToken_eq_mark .star).1 (by simp)
  simp only [exportedItem, hid, if_true, hadv, Cursor.skipTrivia_inFront, if_neg hstar,
    exportDeclared_word hs.tail, behind_behind]
  rfl

/-- A generator. -/
theorem exportedItem_generator {start first : Cursor} {gf gs gn : Gap} {w : Word}
    (hs : Separated (⟨gf, .word functionWord⟩ :: ⟨gs, .mark .star⟩ :: ⟨gn, .word w⟩ :: more)) :
    exportedItem start first (Cursor.atToken past
        (⟨gf, .word functionWord⟩ :: ⟨gs, .mark .star⟩ :: ⟨gn, .word w⟩ :: more) last) =
      ⟨[], [w.name], none, .ok (Cursor.inFront
        (behind past [⟨gf, .word functionWord⟩, ⟨gs, .mark .star⟩, ⟨gn, .word w⟩]) more last)⟩ := by
  have hid : (Cursor.atToken past
    (⟨gf, .word functionWord⟩ :: ⟨gs, .mark .star⟩ :: ⟨gn, .word w⟩ :: more) last).identifier =
      "function".toList := identifier_word hs
  have hadv : (Cursor.atToken past
    (⟨gf, .word functionWord⟩ :: ⟨gs, .mark .star⟩ :: ⟨gn, .word w⟩ :: more) last).advance 8 = _ :=
      advance_word
  have hstar : (Cursor.atToken (behind past [⟨gf, .word functionWord⟩])
    (⟨gs, .mark .star⟩ :: ⟨gn, .word w⟩ :: more) last).peek? = some '*' :=
      (peek?_atToken_eq_mark .star).2 rfl
  simp only [exportedItem, hid, if_true, hadv, Cursor.skipTrivia_inFront, if_pos hstar,
    advance_mark, exportDeclared_word hs.tail.tail, behind_behind]
  rfl

/-- A class. -/
theorem exportedItem_class {start first : Cursor} {gc gn : Gap} {w : Word}
    (hs : Separated (⟨gc, .word classWord⟩ :: ⟨gn, .word w⟩ :: more)) :
    exportedItem start first
        (Cursor.atToken past (⟨gc, .word classWord⟩ :: ⟨gn, .word w⟩ :: more) last) =
      ⟨[], [w.name], none, .ok (Cursor.inFront
        (behind past [⟨gc, .word classWord⟩, ⟨gn, .word w⟩]) more last)⟩ := by
  have hid : (Cursor.atToken past (⟨gc, .word classWord⟩ :: ⟨gn, .word w⟩ :: more)
    last).identifier = "class".toList := identifier_word hs
  have hadv : (Cursor.atToken past (⟨gc, .word classWord⟩ :: ⟨gn, .word w⟩ :: more)
    last).advance 5 = _ := advance_word
  have hne : "class".toList ≠ "function".toList := by decide
  simp only [exportedItem, hid, if_neg hne, if_true, hadv, Cursor.skipTrivia_inFront,
    exportDeclared_word hs.tail, behind_behind]
  rfl

/-! ### Lists -/

theorem exportName_atToken {p : Piece} {n : ExternalName} (hp : p.token = n.token)
    (hs : Separated (p :: pieces)) :
    exportName (Cursor.atToken past (p :: pieces) last) =
      .ok (n.name, Cursor.inFront (behind past [p]) pieces last) := by
  obtain ⟨g, t⟩ := p
  obtain rfl : t = n.token := hp
  cases n with
  | word w =>
      have hquote : (Cursor.atToken past (⟨g, .word w⟩ :: pieces) last).atQuote = false :=
        Cursor.atQuote_atToken ..
      simp only [ExternalName.token] at hs ⊢
      simp only [exportName, hquote, Bool.false_eq_true, if_false, identifier_word hs,
        if_neg w.chars_ne_nil, advance_word]
      rfl
  | string q =>
      have hquote : (Cursor.atToken past (⟨g, .literal (.string q)⟩ :: pieces) last).atQuote =
          true := Cursor.atQuote_atToken ..
      have hskip : (Cursor.atToken past (⟨g, .literal (.string q)⟩ :: pieces) last).skipString =
          _ := skipString_atToken (q := q) rfl
      simp only [ExternalName.token, exportName, hquote, if_true, hskip]
      simp [Except.map, Cursor.inFront, Cursor.atToken, Cursor.offset, behind, Piece.text,
        Token.text, Literal.text, Quoted.text, ExternalName.name, Quoted.value]
      rw [show q.content.length + (g.text.length + List.length past + 1) + 1 -
        (g.text.length + List.length past) - 2 = q.content.length by omega, List.take_left']
      rfl

theorem Token.letters_of_isWord_eq_false {t : Token} (h : t.isWord = false) : t.letters = [] := by
  cases t with
  | word w => exact absurd h (by simp [Token.isWord])
  | _ => rfl

/-- The first of some tokens stands in the first piece. -/
theorem exists_gap_of_map_eq_cons {t : Token} {tokens : List Token}
    (h : pieces.map Piece.token = t :: tokens) :
    ∃ g ps, pieces = ⟨g, t⟩ :: ps ∧ ps.map Piece.token = tokens := by
  obtain ⟨p, ps, rfl, rfl, hps⟩ := List.map_eq_cons_iff.1 h
  exact ⟨p.gap, ps, rfl, hps⟩

theorem renamedExport_atToken {n : ListedName} {q : Piece} (h : pieces.map Piece.token = n.tokens)
    (hq : q.token.isWord = false) (hs : Separated (pieces ++ q :: more)) :
    renamedExport (Cursor.atToken past (pieces ++ q :: more) last) =
      .ok (n.exported, Cursor.atToken (behind past pieces) (q :: more) last) := by
  have hletters := Token.letters_of_isWord_eq_false hq
  obtain ⟨name, _ | renamed⟩ := n
  · obtain ⟨g, ps, rfl, h1⟩ := exists_gap_of_map_eq_cons h
    obtain rfl := List.map_eq_nil_iff.1 h1
    rw [List.singleton_append] at hs ⊢
    have hid : (Cursor.atToken (behind past [⟨g, name.token⟩]) (q :: more) last).identifier =
      q.token.letters := Cursor.identifier_atToken hs.tail
    have has : (Cursor.atToken (behind past [⟨g, name.token⟩]) (q :: more) last).identifier ≠
        "as".toList := by
      rw [hid, hletters]
      decide
    simp only [renamedExport, exportName_atToken (n := name) rfl hs, Cursor.skipTrivia_inFront,
      if_neg has]
    rfl
  · obtain ⟨g, ps, rfl, h1⟩ := exists_gap_of_map_eq_cons h
    obtain ⟨ga, ps, rfl, h2⟩ := exists_gap_of_map_eq_cons h1
    obtain ⟨gr, ps, rfl, h3⟩ := exists_gap_of_map_eq_cons h2
    obtain rfl := List.map_eq_nil_iff.1 h3
    simp only [List.cons_append, List.nil_append] at hs ⊢
    have has : (Cursor.atToken (behind past [⟨g, name.token⟩]) (⟨ga, .word asWord⟩ ::
      ⟨gr, renamed.token⟩ :: q :: more) last).identifier = "as".toList := identifier_word hs.tail
    have hadv : (Cursor.atToken (behind past [⟨g, name.token⟩]) (⟨ga, .word asWord⟩ ::
      ⟨gr, renamed.token⟩ :: q :: more) last).advance 2 = _ := advance_word
    simp only [renamedExport, exportName_atToken (n := name) rfl hs, Cursor.skipTrivia_inFront,
      has, if_true, hadv, exportName_atToken (n := renamed) rfl hs.tail.tail, Except.map,
      behind_behind]
    rfl

/-- A name in a list does not begin like its closing brace. -/
theorem ListedName.exists_tokens_eq_cons (n : ListedName) :
    ∃ t ts, n.tokens = t :: ts ∧ ∀ m, t ≠ .mark m := by
  obtain ⟨_ | _, _ | _⟩ := n <;> exact ⟨_, _, rfl, by simp [ExternalName.token]⟩

/-- One name of a list. -/
theorem exportedNames_step {c d : Cursor} {name : String} (hc : c.peek? ≠ some '\x7d')
    (hname : renamedExport c = .ok (name, d)) :
    exportedNames c =
      if d.peek? = some ',' then
        match (d.advance 1).skipTrivia with
        | .error f => ([name], .error f)
        | .ok e => (name :: (exportedNames e).1, (exportedNames e).2)
      else if d.peek? = some '\x7d' then ([name], .ok d)
      else ([name], .error (d.fault .unexpectedInExports)) := by
  rw [exportedNames, if_neg hc]
  split
  · simp_all
  · rename_i name' d' h
    obtain ⟨rfl, rfl⟩ : name = name' ∧ d = d' := by simpa [hname] using h
    split
    · split <;> simp_all
    · rfl

/-- The names of a list up to its closing brace. -/
theorem exportedNames_atToken {trailingComma : Bool} {names : List ListedName} {g : Gap}
    (h : pieces.map Piece.token = NameList.nameTokens trailingComma names)
    (hs : Separated (pieces ++ ⟨g, .mark .closeBrace⟩ :: more)) :
    exportedNames (Cursor.atToken past (pieces ++ ⟨g, .mark .closeBrace⟩ :: more) last) =
      (names.map ListedName.exported,
        .ok (Cursor.atToken (behind past pieces) (⟨g, .mark .closeBrace⟩ :: more) last)) := by
  induction names generalizing past pieces with
  | nil =>
      obtain rfl := List.map_eq_nil_iff.1 h
      have hclose : (Cursor.atToken past (⟨g, .mark .closeBrace⟩ :: more) last).peek? =
        some '\x7d' := (peek?_atToken_eq_mark .closeBrace).2 rfl
      rw [List.nil_append, exportedNames, if_pos hclose]
      rfl
  | cons n names ih =>
      have hopen {ps qs : List Piece} (hps : ps.map Piece.token = n.tokens) :
          (Cursor.atToken past (ps ++ qs) last).peek? ≠ some '\x7d' := by
        obtain ⟨t, ts, ht, hm⟩ := n.exists_tokens_eq_cons
        obtain ⟨gt, ps, rfl, -⟩ := exists_gap_of_map_eq_cons (hps.trans ht)
        exact mt (peek?_atToken_eq_mark .closeBrace).1 (hm _)
      rcases NameList.nameTokens_cons trailingComma n names with hshape | ⟨rfl, hshape⟩
      · obtain ⟨ps, qs, rfl, hps, hqs⟩ := List.map_eq_append_iff.1 (h.trans hshape)
        obtain ⟨gc, rs, rfl, hrs⟩ := exists_gap_of_map_eq_cons hqs
        rw [List.append_assoc, List.cons_append] at hs ⊢
        have hcomma : (Cursor.atToken (behind past ps) (⟨gc, .mark .comma⟩ ::
          (rs ++ ⟨g, .mark .closeBrace⟩ :: more)) last).peek? = some ',' :=
          (peek?_atToken_eq_mark .comma).2 rfl
        rw [exportedNames_step (hopen hps) (renamedExport_atToken hps rfl hs), if_pos hcomma,
          advance_mark, Cursor.skipTrivia_inFront]
        simp only [ih hrs hs.right.tail, behind_behind, List.append_assoc, List.cons_append,
          List.nil_append, List.map_cons]
      · have hne : (Cursor.atToken (behind past pieces) (⟨g, .mark .closeBrace⟩ :: more)
          last).peek? ≠ some ',' := mt (peek?_atToken_eq_mark .comma).1 (by simp)
        have hclose : (Cursor.atToken (behind past pieces) (⟨g, .mark .closeBrace⟩ :: more)
          last).peek? = some '\x7d' := (peek?_atToken_eq_mark .closeBrace).2 rfl
        rw [exportedNames_step (hopen (h.trans hshape))
          (renamedExport_atToken (h.trans hshape) rfl hs), if_neg hne, if_pos hclose]
        rfl

theorem exportsFrom_source {names : List String} {next : Cursor} {gf gs : Gap} {q : Quoted}
    (hs : Separated (⟨gf, .word fromWord⟩ :: ⟨gs, .source q⟩ :: more)) :
    exportsFrom names next
        (Cursor.atToken past (⟨gf, .word fromWord⟩ :: ⟨gs, .source q⟩ :: more) last) =
      ⟨(Piece.mk gs (.source q)).records (behind past [⟨gf, .word fromWord⟩]).length, names, none,
        .ok (Cursor.inFront (behind past [⟨gf, .word fromWord⟩, ⟨gs, .source q⟩]) more last)⟩ := by
  have hid : (Cursor.atToken past (⟨gf, .word fromWord⟩ :: ⟨gs, .source q⟩ :: more)
    last).identifier = "from".toList := identifier_word hs
  have hadv : (Cursor.atToken past (⟨gf, .word fromWord⟩ :: ⟨gs, .source q⟩ :: more)
    last).advance 4 = _ := advance_word
  simp only [exportsFrom, hid, if_true, hadv, Cursor.skipTrivia_inFront, sourceString_atToken,
    behind_behind]
  rfl

theorem exportsFrom_mark {names : List String} {next : Cursor} {g : Gap} {m : Mark} :
    exportsFrom names next (Cursor.atToken past (⟨g, .mark m⟩ :: more) last) =
      ⟨[], names, none, .ok next⟩ := by
  rw [exportsFrom, identifier_mark, if_neg (by decide)]

/-- A mark is no word that begins a declaration. -/
theorem exportedItem_mark {start first : Cursor} {g : Gap} {m : Mark} :
    exportedItem start first (Cursor.atToken past (⟨g, .mark m⟩ :: more) last) =
      if first.peek? = some '\x7b' then
        exportList (Cursor.atToken past (⟨g, .mark m⟩ :: more) last)
      else if first.peek? = some '*' then
        exportStar (Cursor.atToken past (⟨g, .mark m⟩ :: more) last)
      else .plain (.ok (start.advance 6)) := by
  simp only [exportedItem, identifier_mark]
  rfl

/-- A list of names. -/
theorem exportedItem_list {start : Cursor} {l : NameList} {go gc : Gap}
    (h : pieces.map Piece.token = NameList.nameTokens l.trailingComma l.names)
    (hs : Separated (⟨go, .mark .openBrace⟩ :: (pieces ++ ⟨gc, .mark .closeBrace⟩ :: more))) :
    exportedItem start
        (Cursor.atToken past
          (⟨go, .mark .openBrace⟩ :: (pieces ++ ⟨gc, .mark .closeBrace⟩ :: more)) last)
        (Cursor.atToken past
          (⟨go, .mark .openBrace⟩ :: (pieces ++ ⟨gc, .mark .closeBrace⟩ :: more)) last) =
      exportsFrom (l.names.map ListedName.exported)
        (Cursor.inFront (behind past
          (⟨go, .mark .openBrace⟩ :: (pieces ++ [⟨gc, .mark .closeBrace⟩]))) more last)
        (Cursor.atToken (behind past
          (⟨go, .mark .openBrace⟩ :: (pieces ++ [⟨gc, .mark .closeBrace⟩]))) more last) := by
  have hopen : (Cursor.atToken past
    (⟨go, .mark .openBrace⟩ :: (pieces ++ ⟨gc, .mark .closeBrace⟩ :: more)) last).peek? =
      some '\x7b' := (peek?_atToken_eq_mark .openBrace).2 rfl
  rw [exportedItem_mark, if_pos hopen, exportList, advance_mark, Cursor.skipTrivia_inFront]
  simp only [exportedNames_atToken h hs.tail, advance_mark, Cursor.skipTrivia_inFront,
    behind_behind]
  rfl

theorem exportedItem_star {start : Cursor} {g : Gap} :
    exportedItem start (Cursor.atToken past (⟨g, .mark .star⟩ :: more) last)
        (Cursor.atToken past (⟨g, .mark .star⟩ :: more) last) =
      exportStar (Cursor.atToken past (⟨g, .mark .star⟩ :: more) last) := by
  have hopen : (Cursor.atToken past (⟨g, .mark .star⟩ :: more) last).peek? ≠ some '\x7b' :=
    mt (peek?_atToken_eq_mark .openBrace).1 (by simp)
  have hstar : (Cursor.atToken past (⟨g, .mark .star⟩ :: more) last).peek? = some '*' :=
    (peek?_atToken_eq_mark .star).2 rfl
  rw [exportedItem_mark, if_neg hopen, if_pos hstar]

/-- All that another module exports. -/
theorem exportStar_source {g gf gs : Gap} {q : Quoted}
    (hs : Separated (⟨g, .mark .star⟩ :: ⟨gf, .word fromWord⟩ :: ⟨gs, .source q⟩ :: more)) :
    exportStar (Cursor.atToken past
        (⟨g, .mark .star⟩ :: ⟨gf, .word fromWord⟩ :: ⟨gs, .source q⟩ :: more) last) =
      ⟨(Piece.mk gs (.source q)).records
          (behind past [⟨g, .mark .star⟩, ⟨gf, .word fromWord⟩]).length, [], none,
        .ok (Cursor.inFront (behind past
          [⟨g, .mark .star⟩, ⟨gf, .word fromWord⟩, ⟨gs, .source q⟩]) more last)⟩ := by
  have hid : (Cursor.atToken (behind past [⟨g, .mark .star⟩])
    (⟨gf, .word fromWord⟩ :: ⟨gs, .source q⟩ :: more) last).identifier ≠ "as".toList := by
      rw [identifier_word hs.tail]
      decide
  simp only [exportStar, advance_mark, Cursor.skipTrivia_inFront, if_neg hid,
    exportsFrom_source hs.tail, behind_behind]
  rfl

/-- All that another module exports, under one name. -/
theorem exportStar_name {g ga gn gf gs : Gap} {n : ExternalName} {q : Quoted}
    (hs : Separated (⟨g, .mark .star⟩ :: ⟨ga, .word asWord⟩ :: ⟨gn, n.token⟩ ::
      ⟨gf, .word fromWord⟩ :: ⟨gs, .source q⟩ :: more)) :
    exportStar (Cursor.atToken past (⟨g, .mark .star⟩ :: ⟨ga, .word asWord⟩ :: ⟨gn, n.token⟩ ::
        ⟨gf, .word fromWord⟩ :: ⟨gs, .source q⟩ :: more) last) =
      ⟨(Piece.mk gs (.source q)).records (behind past [⟨g, .mark .star⟩, ⟨ga, .word asWord⟩,
          ⟨gn, n.token⟩, ⟨gf, .word fromWord⟩]).length, [n.name], none,
        .ok (Cursor.inFront (behind past [⟨g, .mark .star⟩, ⟨ga, .word asWord⟩, ⟨gn, n.token⟩,
          ⟨gf, .word fromWord⟩, ⟨gs, .source q⟩]) more last)⟩ := by
  have hid : (Cursor.atToken (behind past [⟨g, .mark .star⟩]) (⟨ga, .word asWord⟩ ::
    ⟨gn, n.token⟩ :: ⟨gf, .word fromWord⟩ :: ⟨gs, .source q⟩ :: more) last).identifier =
      "as".toList := identifier_word hs.tail
  have hadv : (Cursor.atToken (behind past [⟨g, .mark .star⟩]) (⟨ga, .word asWord⟩ ::
    ⟨gn, n.token⟩ :: ⟨gf, .word fromWord⟩ :: ⟨gs, .source q⟩ :: more) last).advance 2 = _ :=
      advance_word
  simp only [exportStar, advance_mark, Cursor.skipTrivia_inFront, hid, if_true, hadv,
    exportName_atToken (n := n) rfl hs.tail.tail, exportsFrom_source hs.tail.tail.tail,
    behind_behind]
  rfl

/-! ### Variables -/

/-- One declared name without initial value. -/
theorem declaredNames_step {g gm : Gap} {w : Word} {m : Mark} (hm : m ≠ .equals)
    (hs : Separated (⟨g, .word w⟩ :: ⟨gm, .mark m⟩ :: more)) :
    declaredNames (Cursor.inFront past (⟨g, .word w⟩ :: ⟨gm, .mark m⟩ :: more) last) =
      if m = .comma then
        (w.name :: (declaredNames
            (Cursor.inFront (behind past [⟨g, .word w⟩, ⟨gm, .mark m⟩]) more last)).1,
          (declaredNames
            (Cursor.inFront (behind past [⟨g, .word w⟩, ⟨gm, .mark m⟩]) more last)).2)
      else ([w.name], none) := by
  have hid : (Cursor.atToken past (⟨g, .word w⟩ :: ⟨gm, .mark m⟩ :: more) last).identifier =
    w.chars := identifier_word hs
  have hequals : (Cursor.atToken (behind past [⟨g, .word w⟩]) (⟨gm, .mark m⟩ :: more)
    last).peek? ≠ some '=' := mt (peek?_atToken_eq_mark .equals).1 (by simpa using hm)
  have hcomma : (Cursor.atToken (behind past [⟨g, .word w⟩]) (⟨gm, .mark m⟩ :: more)
    last).peek? = some ',' ↔ m = .comma :=
    (peek?_atToken_eq_mark .comma).trans (by simp)
  rw [declaredNames]
  split
  · simp_all
  rename_i d hd
  obtain rfl := Except.ok.inj (Cursor.skipTrivia_inFront.symm.trans hd)
  rw [dif_neg (by rw [hid]; exact w.chars_ne_nil)]
  split
  · rename_i f hf
    rw [hid, advance_word, Cursor.skipTrivia_inFront] at hf
    cases hf
  rename_i e he
  rw [hid, advance_word, Cursor.skipTrivia_inFront] at he
  obtain rfl := Except.ok.inj he
  rw [hid]
  split
  · exact absurd ‹_› hequals
  simp only [hcomma, advance_mark, behind_behind]
  rfl

/-- The names of a declaration without initial values. -/
theorem declaredNames_inFront {names : List Identifier} {g gl : Gap} {name : Identifier}
    (h : pieces.map Piece.token = names.flatMap fun n => [.mark .comma, .word n.toWord])
    (hs : Separated (⟨g, .word name.toWord⟩ :: (pieces ++ ⟨gl, .mark .semicolon⟩ :: more))) :
    declaredNames (Cursor.inFront past
        (⟨g, .word name.toWord⟩ :: (pieces ++ ⟨gl, .mark .semicolon⟩ :: more)) last) =
      ((name :: names).map fun n => n.name, none) := by
  induction names generalizing past pieces name g with
  | nil =>
      obtain rfl := List.map_eq_nil_iff.1 h
      rw [List.nil_append] at hs ⊢
      rw [declaredNames_step (by decide) hs]
      rfl
  | cons n names ih =>
      obtain ⟨gm, ps, rfl, h1⟩ := exists_gap_of_map_eq_cons h
      obtain ⟨gn, qs, rfl, h2⟩ := exists_gap_of_map_eq_cons h1
      simp only [List.cons_append] at hs ⊢
      rw [declaredNames_step (by decide) hs, if_pos rfl, ih h2 hs.tail.tail]
      rfl

/-- Variables. -/
theorem exportedItem_variables {start first : Cursor} {kind : VariableKind} {gk : Gap}
    {names : List String} (hs : Separated (⟨gk, .word kind.word⟩ :: more))
    (h : declaredNames (Cursor.inFront (behind past [⟨gk, .word kind.word⟩]) more last) =
      (names, none)) :
    exportedItem start first (Cursor.atToken past (⟨gk, .word kind.word⟩ :: more) last) =
      ⟨[], names, none, .ok (Cursor.inFront (behind past [⟨gk, .word kind.word⟩]) more last)⟩ := by
  have hid : (Cursor.atToken past (⟨gk, .word kind.word⟩ :: more) last).identifier =
    kind.word.chars := identifier_word hs
  have hfunction : kind.word.chars ≠ "function".toList := by cases kind <;> decide
  have hclass : kind.word.chars ≠ "class".toList := by cases kind <;> decide
  have hkind : (decide (kind.word.chars = "var".toList) || decide (kind.word.chars = "let".toList)
    || decide (kind.word.chars = "const".toList)) = true := by cases kind <;> decide
  simp only [exportedItem, hid, if_neg hfunction, if_neg hclass, hkind, if_true, advance_word, h]

end ImportAtlas.Source

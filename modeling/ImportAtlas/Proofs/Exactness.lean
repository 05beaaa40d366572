import ImportAtlas.Proofs.Additions

/-!
# The analysis on its productions

A source that spells a list of statements is analyzed as those statements say: there is no fault,
the exported names are the names of the statements, and the recorded places hold their specifiers.
Neither the white space and the comments between the tokens nor names that look like keywords make
a difference.

## Summary

* `Production.Holds` says that a statement adds its records and its names, whatever stands in front
  of it and behind it.

## Main results

* `Production.holds`: every form of statement does.
* `analyze_layout`: the analysis of a whole source.
-/

namespace ImportAtlas.Source

variable {past : Past} {pieces more : List Piece} {last : Gap} {imports : List ImportRecord}
  {exports : List String}

/-- What the pieces of a statement add in front of everything else. -/
def Production.Holds (p : Production) : Prop :=
  ∀ {past : Past} {pieces more : List Piece} {last : Gap} {imports : List ImportRecord}
    {exports : List String}, pieces.map Piece.token = p.tokens → Bounded past →
    Separated (pieces ++ more) →
    Adds 0 0 (.inFront (behind past pieces) more last) imports exports →
    Adds 0 0 (.inFront past (pieces ++ more) last) (recordsFrom past.length pieces ++ imports)
      (p.names ++ exports)

namespace Production

/-! ### Statements of fixed tokens -/

theorem holds_importModule (source : Quoted) : (importModule source).Holds := by
  intro past pieces more last imports exports h hb hs hmore
  obtain ⟨g, ps, rfl, h1⟩ := exists_gap_of_map_eq_cons h
  obtain ⟨gs, ps, rfl, h2⟩ := exists_gap_of_map_eq_cons h1
  obtain ⟨gm, ps, rfl, h3⟩ := exists_gap_of_map_eq_cons h2
  obtain rfl := List.map_eq_nil_iff.1 h3
  have hrecords := recordsFrom_single past [⟨g, .word importWord⟩]
    ⟨gs, .source source⟩ [⟨gm, .mark .semicolon⟩]
    (by simp) (by simp)
  rw [List.singleton_append] at hrecords
  rw [hrecords]
  exact Adds.of_import (importStatement_source hb hs) rfl
    (Adds.of_inert (by simp [Token.Inert]) hs.tail.tail hmore)

theorem holds_importCall (source : Quoted) : (importCall source).Holds := by
  intro past pieces more last imports exports h hb hs hmore
  obtain ⟨g, ps, rfl, h1⟩ := exists_gap_of_map_eq_cons h
  obtain ⟨gp, ps, rfl, h2⟩ := exists_gap_of_map_eq_cons h1
  obtain ⟨ga, ps, rfl, h3⟩ := exists_gap_of_map_eq_cons h2
  obtain ⟨gc, ps, rfl, h4⟩ := exists_gap_of_map_eq_cons h3
  obtain ⟨gm, ps, rfl, h5⟩ := exists_gap_of_map_eq_cons h4
  obtain rfl := List.map_eq_nil_iff.1 h5
  have hrecords := recordsFrom_single past
    [⟨g, .word importWord⟩, ⟨gp, .mark .openParen⟩] ⟨ga, .argument source⟩
    [⟨gc, .mark .closeParen⟩, ⟨gm, .mark .semicolon⟩]
    (by simp) (by simp)
  rw [List.cons_append, List.singleton_append] at hrecords
  rw [hrecords]
  exact Adds.of_import (importStatement_call hb hs) rfl
    (Adds.of_inert (by simp [Token.Inert]) hs.tail.tail
      (Adds.of_bracket Adds.of_closeParen
        (Adds.of_inert (by simp [Token.Inert])
          hs.tail.tail.tail.tail hmore)))

theorem holds_exportDefault (value : Identifier) : (exportDefault value).Holds := by
  intro past pieces more last imports exports h hb hs hmore
  obtain ⟨g, ps, rfl, h1⟩ := exists_gap_of_map_eq_cons h
  obtain ⟨gd, ps, rfl, h2⟩ := exists_gap_of_map_eq_cons h1
  obtain ⟨gv, ps, rfl, h3⟩ := exists_gap_of_map_eq_cons h2
  obtain ⟨gm, ps, rfl, h4⟩ := exists_gap_of_map_eq_cons h3
  obtain rfl := List.map_eq_nil_iff.1 h4
  rw [recordsFrom_eq_nil (by simp)]
  exact Adds.of_export (exportStatement_default hb hs) rfl
    (Adds.of_inert ⟨value.ne_import, value.ne_export⟩ hs.tail.tail
      (Adds.of_inert (by simp [Token.Inert]) hs.tail.tail.tail hmore))

theorem holds_exportClass (name : Identifier) : (exportClass name).Holds := by
  intro past pieces more last imports exports h hb hs hmore
  obtain ⟨g, ps, rfl, h1⟩ := exists_gap_of_map_eq_cons h
  obtain ⟨gc, ps, rfl, h2⟩ := exists_gap_of_map_eq_cons h1
  obtain ⟨gn, ps, rfl, h3⟩ := exists_gap_of_map_eq_cons h2
  obtain ⟨go, ps, rfl, h4⟩ := exists_gap_of_map_eq_cons h3
  obtain ⟨gb, ps, rfl, h5⟩ := exists_gap_of_map_eq_cons h4
  obtain rfl := List.map_eq_nil_iff.1 h5
  rw [recordsFrom_eq_nil (by simp)]
  have hstatement := (exportStatement_item last hb hs
    (show classWord.chars ≠ "default".toList by decide)
    (show classWord.chars ≠ "async".toList by decide)).trans (exportedItem_class hs.tail)
  exact Adds.of_export hstatement rfl (Adds.of_braces (by simpa using hmore))

theorem holds_assignment (name : Identifier) (value : Literal) : (assignment name value).Holds := by
  intro past pieces more last imports exports h hb hs hmore
  obtain ⟨gn, ps, rfl, h1⟩ := exists_gap_of_map_eq_cons h
  obtain ⟨ge, ps, rfl, h2⟩ := exists_gap_of_map_eq_cons h1
  obtain ⟨gv, ps, rfl, h3⟩ := exists_gap_of_map_eq_cons h2
  obtain ⟨gm, ps, rfl, h4⟩ := exists_gap_of_map_eq_cons h3
  obtain rfl := List.map_eq_nil_iff.1 h4
  rw [recordsFrom_eq_nil (by simp)]
  exact Adds.of_inerts (by simpa [Token.Inert] using ⟨name.ne_import, name.ne_export⟩) hs hmore

theorem holds_exportAll (name? : Option ExternalName) (source : Quoted) :
    (exportAll name? source).Holds := by
  intro past pieces more last imports exports h hb hs hmore
  cases name? with
  | none =>
      obtain ⟨g, ps, rfl, h1⟩ := exists_gap_of_map_eq_cons h
      obtain ⟨gs, ps, rfl, h2⟩ := exists_gap_of_map_eq_cons h1
      obtain ⟨gf, ps, rfl, h3⟩ := exists_gap_of_map_eq_cons h2
      obtain ⟨gq, ps, rfl, h4⟩ := exists_gap_of_map_eq_cons h3
      obtain ⟨gm, ps, rfl, h5⟩ := exists_gap_of_map_eq_cons h4
      -- Every token has a gap in front of it, and nothing follows the semicolon.
      obtain rfl := List.map_eq_nil_iff.1 h5
      have hrecords := recordsFrom_single past
        [⟨g, .word exportWord⟩, ⟨gs, .mark .star⟩, ⟨gf, .word fromWord⟩]
        ⟨gq, .source source⟩ [⟨gm, .mark .semicolon⟩]
        (by simp) (by simp)
      simp only [List.cons_append, List.nil_append] at hrecords
      rw [hrecords]
      have hstatement := (exportStatement_item last hb hs
        (show [] ≠ "default".toList by decide) (show [] ≠ "async".toList by decide)).trans
        (exportedItem_star.trans (exportStar_source hs.tail))
      exact Adds.of_export hstatement rfl
        (Adds.of_inert (by simp [Token.Inert])
          hs.tail.tail.tail.tail (by simpa using hmore))
  | some name =>
      obtain ⟨g, ps, rfl, h1⟩ := exists_gap_of_map_eq_cons h
      obtain ⟨gs, ps, rfl, h2⟩ := exists_gap_of_map_eq_cons h1
      obtain ⟨ga, ps, rfl, h3⟩ := exists_gap_of_map_eq_cons h2
      obtain ⟨gn, ps, rfl, h4⟩ := exists_gap_of_map_eq_cons h3
      obtain ⟨gf, ps, rfl, h5⟩ := exists_gap_of_map_eq_cons h4
      obtain ⟨gq, ps, rfl, h6⟩ := exists_gap_of_map_eq_cons h5
      obtain ⟨gm, ps, rfl, h7⟩ := exists_gap_of_map_eq_cons h6
      obtain rfl := List.map_eq_nil_iff.1 h7
      have hrecords := recordsFrom_single past
        [⟨g, .word exportWord⟩, ⟨gs, .mark .star⟩, ⟨ga, .word asWord⟩, ⟨gn, name.token⟩,
          ⟨gf, .word fromWord⟩]
        ⟨gq, .source source⟩ [⟨gm, .mark .semicolon⟩]
        (by simp) (by simp)
      simp only [List.cons_append, List.nil_append] at hrecords
      rw [hrecords]
      have hstatement := (exportStatement_item last hb hs
        (show [] ≠ "default".toList by decide) (show [] ≠ "async".toList by decide)).trans
        (exportedItem_star.trans (exportStar_name hs.tail))
      exact Adds.of_export hstatement rfl
        (Adds.of_inert (by simp [Token.Inert])
          hs.tail.tail.tail.tail.tail.tail (by simpa using hmore))

/-! ### Functions and variables -/

/-- What follows the word `function`. -/
theorem holds_function {isGenerator : Bool} {name : Identifier}
    (h : pieces.map Piece.token = .word functionWord ::
      ((if isGenerator then [.mark .star] else []) ++ .word name.toWord ::
        [.mark .openParen, .mark .closeParen, .mark .openBrace, .mark .closeBrace]))
    (hs : Separated (pieces ++ more))
    (hmore : Adds 0 0 (.inFront (behind past pieces) more last) imports exports) :
    ∃ d, (∀ start first, exportedItem start first (.atToken past (pieces ++ more) last) =
      ⟨[], [name.name], none, .ok d⟩) ∧ Adds 0 0 d imports exports := by
  obtain ⟨gf, ps, rfl, h1⟩ := exists_gap_of_map_eq_cons h
  cases isGenerator with
  | false =>
      obtain ⟨gn, ps, rfl, h2⟩ := exists_gap_of_map_eq_cons h1
      obtain ⟨go, ps, rfl, h3⟩ := exists_gap_of_map_eq_cons h2
      obtain ⟨gc, ps, rfl, h4⟩ := exists_gap_of_map_eq_cons h3
      obtain ⟨go', ps, rfl, h5⟩ := exists_gap_of_map_eq_cons h4
      obtain ⟨gc', ps, rfl, h6⟩ := exists_gap_of_map_eq_cons h5
      obtain rfl := List.map_eq_nil_iff.1 h6
      exact ⟨_, fun _ _ => exportedItem_function hs, Adds.of_parens (Adds.of_braces hmore)⟩
  | true =>
      obtain ⟨gs, ps, rfl, h2⟩ := exists_gap_of_map_eq_cons h1
      obtain ⟨gn, ps, rfl, h3⟩ := exists_gap_of_map_eq_cons h2
      obtain ⟨go, ps, rfl, h4⟩ := exists_gap_of_map_eq_cons h3
      obtain ⟨gc, ps, rfl, h5⟩ := exists_gap_of_map_eq_cons h4
      obtain ⟨go', ps, rfl, h6⟩ := exists_gap_of_map_eq_cons h5
      obtain ⟨gc', ps, rfl, h7⟩ := exists_gap_of_map_eq_cons h6
      obtain rfl := List.map_eq_nil_iff.1 h7
      exact ⟨_, fun _ _ => exportedItem_generator hs, Adds.of_parens (Adds.of_braces hmore)⟩

theorem specifier?_exportFunction (isAsync isGenerator : Bool) (name : Identifier) :
    ∀ t ∈ (exportFunction isAsync isGenerator name).tokens, t.specifier? = none := by
  cases isAsync <;> cases isGenerator <;> simp [tokens]

theorem holds_exportFunction (isAsync isGenerator : Bool) (name : Identifier) :
    (exportFunction isAsync isGenerator name).Holds := by
  intro past pieces more last imports exports h hb hs hmore
  have hsilent := specifier?_exportFunction isAsync isGenerator name
  rw [← h, List.forall_mem_map] at hsilent
  rw [recordsFrom_eq_nil hsilent]
  obtain ⟨g, ps, rfl, h1⟩ := exists_gap_of_map_eq_cons (h.trans (List.cons_append ..))
  cases isAsync with
  | false =>
      obtain ⟨d, hitem, hd⟩ := holds_function h1 hs.tail hmore
      obtain ⟨gf, ps, rfl, -⟩ := exists_gap_of_map_eq_cons h1
      exact Adds.of_export ((exportStatement_item last hb hs
        (show functionWord.chars ≠ "default".toList by decide)
        (show functionWord.chars ≠ "async".toList by decide)).trans (hitem _ _)) rfl hd
  | true =>
      obtain ⟨ga, ps, rfl, h2⟩ := exists_gap_of_map_eq_cons h1
      obtain ⟨d, hitem, hd⟩ := holds_function h2 hs.tail.tail hmore
      exact Adds.of_export ((exportStatement_async hb hs).trans (hitem _ _)) rfl hd

/-- What holds of a comma and of all names holds of the names after the first one. -/
theorem forall_mem_more {P : Token → Prop} (hcomma : P (.mark .comma))
    (hword : ∀ n : Identifier, P (.word n.toWord)) (names : List Identifier) :
    ∀ t ∈ names.flatMap fun n => [Token.mark .comma, .word n.toWord], P t := by
  intro t ht
  obtain ⟨n, -, ht⟩ := List.mem_flatMap.1 ht
  simp only [List.mem_cons, List.not_mem_nil, or_false] at ht
  rcases ht with rfl | rfl
  · exact hcomma
  · exact hword n

theorem holds_exportVariables (kind : VariableKind) (first : Identifier) (names : List Identifier) :
    (exportVariables kind first names).Holds := by
  intro past pieces more last imports exports h hb hs hmore
  have hsilent : ∀ t ∈ (exportVariables kind first names).tokens, t.specifier? = none := by
    simp only [tokens, List.cons_append, List.forall_mem_cons, List.forall_mem_append]
    exact ⟨rfl, rfl, rfl, forall_mem_more (by simp) (by simp) names, by simp⟩
  rw [← h, List.forall_mem_map] at hsilent
  rw [recordsFrom_eq_nil hsilent]
  obtain ⟨g, ps, rfl, h1⟩ := exists_gap_of_map_eq_cons h
  obtain ⟨gk, ps, rfl, h2⟩ := exists_gap_of_map_eq_cons h1
  have hinert : ∀ t ∈ ps.map Piece.token, t.Inert := by
    rw [h2]
    simp only [List.append_eq, List.cons_append, List.forall_mem_cons, List.forall_mem_append]
    exact ⟨⟨first.ne_import, first.ne_export⟩, forall_mem_more (.inr (.inl rfl))
      (fun n => ⟨n.ne_import, n.ne_export⟩) names, by simp [Token.Inert]⟩
  rw [List.forall_mem_map] at hinert
  obtain ⟨gn, qs, rfl, h3⟩ := exists_gap_of_map_eq_cons h2
  obtain ⟨rs, us, rfl, h4, h5⟩ := List.map_eq_append_iff.1 h3
  obtain ⟨gm, us, rfl, h6⟩ := exists_gap_of_map_eq_cons h5
  obtain rfl := List.map_eq_nil_iff.1 h6
  have hdeclared : declaredNames (.inFront (behind past [⟨g, .word exportWord⟩,
      ⟨gk, .word kind.word⟩]) (⟨gn, .word first.toWord⟩ :: (rs ++ ⟨gm, .mark .semicolon⟩ :: more))
      last) = _ := declaredNames_inFront h4 (by simpa using hs.tail.tail)
  have hstatement := (exportStatement_item last hb hs
    (show kind.word.chars ≠ "default".toList by cases kind <;> decide)
    (show kind.word.chars ≠ "async".toList by cases kind <;> decide)).trans
    (exportedItem_variables hs.tail (by simpa using hdeclared))
  exact Adds.of_export hstatement rfl (Adds.of_inerts hinert hs.tail.tail (by simpa using hmore))

/-! ### Lists -/

/-- What follows the names of a list. -/
theorem holds_exportsFrom (past : Past) (names : List String) {next : Cursor}
    {source? : Option Quoted}
    (h : pieces.map Piece.token = source?.elim [] fromTokens ++ [.mark .semicolon])
    (hs : Separated (pieces ++ more))
    (hnext : next = .inFront past (pieces ++ more) last)
    (hmore : Adds 0 0 (.inFront (behind past pieces) more last) imports exports) :
    ∃ d, exportsFrom names next (.atToken past (pieces ++ more) last) =
      ⟨recordsFrom past.length pieces, names, none, .ok d⟩ ∧ Adds 0 0 d imports exports := by
  cases source? with
  | none =>
      obtain ⟨gm, ps, rfl, h1⟩ := exists_gap_of_map_eq_cons h
      obtain rfl := List.map_eq_nil_iff.1 h1
      rw [recordsFrom_eq_nil (by simp)]
      refine ⟨next, exportsFrom_mark, hnext ▸ ?_⟩
      exact Adds.of_inert (by simp [Token.Inert]) hs hmore
  | some source =>
      obtain ⟨gf, ps, rfl, h1⟩ := exists_gap_of_map_eq_cons h
      obtain ⟨gq, ps, rfl, h2⟩ := exists_gap_of_map_eq_cons h1
      obtain ⟨gm, ps, rfl, h3⟩ := exists_gap_of_map_eq_cons h2
      obtain rfl := List.map_eq_nil_iff.1 h3
      have hrecords := recordsFrom_single past [⟨gf, .word fromWord⟩]
        ⟨gq, .source source⟩ [⟨gm, .mark .semicolon⟩] (by simp) (by simp)
      rw [List.singleton_append] at hrecords
      rw [hrecords]
      exact ⟨_, exportsFrom_source hs,
        Adds.of_inert (by simp [Token.Inert])
          hs.tail.tail hmore⟩

/-- What holds of names, of `as` and of commas holds of the tokens of a list. -/
theorem forall_mem_nameTokens {P : Token → Prop} (hname : ∀ n : ExternalName, P n.token)
    (has : P (.word asWord)) (hcomma : P (.mark .comma)) (trailingComma : Bool)
    (names : List ListedName) : ∀ t ∈ NameList.nameTokens trailingComma names, P t := by
  have hlisted (n : ListedName) : ∀ t ∈ n.tokens, P t := by
    obtain ⟨name, _ | renamed⟩ := n <;> simp [ListedName.tokens, hname, has]
  induction names with
  | nil => simp [NameList.nameTokens]
  | cons n names ih =>
      rcases NameList.nameTokens_cons trailingComma n names with h | ⟨-, h⟩ <;> rw [h]
      · exact List.forall_mem_append.2 ⟨hlisted n, List.forall_mem_cons.2 ⟨hcomma, ih⟩⟩
      · exact hlisted n

theorem holds_exportNames (l : NameList) (source? : Option Quoted) :
    (exportNames l source?).Holds := by
  intro past pieces more last imports exports h hb hs hmore
  obtain ⟨g, ps, rfl, h1⟩ := exists_gap_of_map_eq_cons h
  obtain ⟨go, ps, rfl, h2⟩ := exists_gap_of_map_eq_cons h1
  simp only [List.append_eq, List.append_assoc, List.cons_append, List.nil_append] at h2
  obtain ⟨ns, rs, rfl, h3, h4⟩ := List.map_eq_append_iff.1 h2
  obtain ⟨gc, qs, rfl, h5⟩ := exists_gap_of_map_eq_cons h4
  have hsilent : ∀ t ∈ ns.map Piece.token, t.specifier? = none := by
    rw [h3]
    exact forall_mem_nameTokens (by simp) (by simp) (by simp) _ _
  rw [List.forall_mem_map] at hsilent
  have hs' : Separated (⟨g, .word exportWord⟩ :: ⟨go, .mark .openBrace⟩ ::
    (ns ++ ⟨gc, .mark .closeBrace⟩ :: (qs ++ more))) := by simpa using hs
  obtain ⟨d, hfrom, hd⟩ := holds_exportsFrom (behind past (⟨g, .word exportWord⟩ ::
    ⟨go, .mark .openBrace⟩ :: (ns ++ [⟨gc, .mark .closeBrace⟩])))
    (l.names.map ListedName.exported) h5 hs'.tail.tail.right.tail rfl
    (by simpa using hmore)
  have hstatement := (exportStatement_item last hb hs'
    (show [] ≠ "default".toList by decide) (show [] ≠ "async".toList by decide)).trans
    ((exportedItem_list h3 hs'.tail).trans (by simpa using hfrom))
  have hrecords := recordsFrom_append_of_silent past (⟨g, .word exportWord⟩ ::
    ⟨go, .mark .openBrace⟩ :: (ns ++ [⟨gc, .mark .closeBrace⟩])) qs
    (by simpa [or_imp, forall_and] using hsilent)
  have := Adds.of_export hstatement rfl hd
  rw [← hrecords] at this
  simpa [names] using this

/-! ### Clauses -/

/-- In a list the word `from` stands in front of a word or of punctuation. -/
theorem isChain_apart_nameTokens (trailingComma : Bool) (names : List ListedName) (m : Mark)
    {rest : List Token} (hrest : (Token.mark .closeBrace :: rest).IsChain Apart) :
    (.mark m :: (NameList.nameTokens trailingComma names ++ .mark .closeBrace :: rest)).IsChain
      Apart := by
  have hlisted (m : Mark) (n : ListedName) {m' : Mark} {rest : List Token}
      (h : (Token.mark m' :: rest).IsChain Apart) :
      (Token.mark m :: (n.tokens ++ .mark m' :: rest)).IsChain Apart := by
    obtain ⟨name, _ | renamed⟩ := n <;>
      simpa [ListedName.tokens, List.isChain_cons_cons, Apart.of_word, Apart.of_mark, Apart.mark,
        Apart.as] using h
  induction names generalizing m with
  | nil => exact List.isChain_cons_cons.2 ⟨Apart.mark m _, hrest⟩
  | cons n names ih =>
      rcases NameList.nameTokens_cons trailingComma n names with h | ⟨-, h⟩ <;> rw [h]
      · rw [List.append_assoc, List.cons_append]
        exact hlisted m n (ih .comma)
      · exact hlisted m n hrest

theorem isChain_apart_bindings (bindings : Bindings) (m : Mark) :
    (.mark m :: (bindings.tokens ++ [Token.word fromWord])).IsChain Apart := by
  cases bindings with
  | all name =>
      simp [Bindings.tokens, List.isChain_cons_cons, Apart.of_word, Apart.of_mark]
  | list l =>
      have hclose : (Token.mark .closeBrace :: [Token.word fromWord]).IsChain Apart := by
        simp [List.isChain_cons_cons, Apart.of_word]
      have := isChain_apart_nameTokens l.trailingComma l.names .openBrace hclose
      simpa [Bindings.tokens, NameList.tokens, List.isChain_cons_cons, Apart.of_mark] using this

/-- In a clause the word `from` stands in front of a word or of punctuation. -/
theorem isChain_apart_clause (clause : Clause) :
    (clause.tokens ++ [Token.word fromWord]).IsChain Apart := by
  cases clause with
  | default name => simp [Clause.tokens, List.isChain_cons_cons, Apart.of_word]
  | others bindings => exact (isChain_apart_bindings bindings .comma).tail
  | both name bindings =>
      exact List.isChain_cons_cons.2 ⟨Apart.of_mark _ _, isChain_apart_bindings bindings .comma⟩

/-- What holds of words, of names and of punctuation holds of the tokens of a clause. -/
theorem forall_mem_clause {P : Token → Prop} (hword : ∀ w, P (.word w))
    (hname : ∀ n : ExternalName, P n.token) (hmark : ∀ m, P (.mark m)) (clause : Clause) :
    ∀ t ∈ clause.tokens, P t := by
  have hbindings (bindings : Bindings) : ∀ t ∈ bindings.tokens, P t := by
    cases bindings with
    | all name => simp [Bindings.tokens, hword, hmark]
    | list l =>
        have := forall_mem_nameTokens hname (hword _) (hmark _) l.trailingComma l.names
        simpa [Bindings.tokens, NameList.tokens, hmark, or_imp, forall_and] using this
  cases clause with
  | default name => simp [Clause.tokens, hword]
  | others bindings => exact hbindings bindings
  | both name bindings =>
      simpa [Clause.tokens, hword, hmark] using hbindings bindings

theorem exists_clause_eq_cons (clause : Clause) :
    ∃ t ts, clause.tokens = t :: ts ∧ t ≠ .mark .openParen ∧ t.isQuoted = false := by
  rcases clause with name | (name | l) | ⟨name, bindings⟩ <;>
    exact ⟨_, _, rfl, by simp, rfl⟩

theorem holds_importBindings (clause : Clause) (source : Quoted) :
    (importBindings clause source).Holds := by
  intro past pieces more last imports exports h hb hs hmore
  obtain ⟨g, ps, rfl, h1⟩ := exists_gap_of_map_eq_cons h
  simp only [fromTokens, List.append_eq, List.append_assoc, List.cons_append,
    List.nil_append] at h1
  obtain ⟨cs, rs, rfl, h2, h3⟩ := List.map_eq_append_iff.1 h1
  obtain ⟨gf, rs, rfl, h4⟩ := exists_gap_of_map_eq_cons h3
  obtain ⟨gq, rs, rfl, h5⟩ := exists_gap_of_map_eq_cons h4
  obtain ⟨gm, rs, rfl, h6⟩ := exists_gap_of_map_eq_cons h5
  obtain rfl := List.map_eq_nil_iff.1 h6
  have hsilent : ∀ t ∈ cs.map Piece.token, t.specifier? = none := by
    rw [h2]
    exact forall_mem_clause (by simp) (by simp) (by simp) clause
  have hclause : ∀ t ∈ cs.map Piece.token, t.ofClause := by
    rw [h2]
    exact forall_mem_clause (fun _ => trivial) (fun n => by cases n <;> trivial)
      (fun _ => trivial) clause
  have hapart := isChain_apart_clause clause
  rw [← h2] at hapart
  rw [List.forall_mem_map] at hsilent hclause
  have hrecords := recordsFrom_single past
    (⟨g, .word importWord⟩ :: (cs ++ [⟨gf, .word fromWord⟩]))
    ⟨gq, .source source⟩ [⟨gm, .mark .semicolon⟩]
    (by simpa [or_imp, forall_and] using hsilent) (by simp)
  have hafter : Adds 0 0 (.inFront (behind past (⟨g, .word importWord⟩ :: (cs ++
      [⟨gf, .word fromWord⟩, ⟨gq, .source source⟩]))) (⟨gm, .mark .semicolon⟩ :: more) last)
      imports exports := by
    have hs' : Separated ((⟨g, .word importWord⟩ :: (cs ++ [⟨gf, .word fromWord⟩,
      ⟨gq, .source source⟩])) ++ ⟨gm, .mark .semicolon⟩ :: more) := by simpa using hs
    exact Adds.of_inert (by simp [Token.Inert]) hs'.right (by simpa using hmore)
  obtain ⟨t, ts, ht, hparen, hquoted⟩ := exists_clause_eq_cons clause
  obtain ⟨gt, cs, rfl, -⟩ := exists_gap_of_map_eq_cons (h2.trans ht)
  have hstatement := importStatement_clause last hb (by simpa using hs) hparen hquoted
    hclause hapart
  have := Adds.of_import hstatement rfl hafter
  simp only [List.cons_append, List.append_assoc, List.nil_append] at hrecords this ⊢
  rw [hrecords]
  exact this

/-! ### Every statement -/

/-- Every statement adds its specifier and its names, wherever it stands. -/
theorem holds (p : Production) : p.Holds := by
  cases p with
  | importModule source => exact holds_importModule source
  | importBindings clause source => exact holds_importBindings clause source
  | importCall source => exact holds_importCall source
  | exportAll name? source => exact holds_exportAll name? source
  | exportNames names source? => exact holds_exportNames names source?
  | exportDefault value => exact holds_exportDefault value
  | exportFunction isAsync isGenerator name => exact holds_exportFunction isAsync isGenerator name
  | exportClass name => exact holds_exportClass name
  | exportVariables kind first more => exact holds_exportVariables kind first more
  | assignment name value => exact holds_assignment name value

theorem exists_tokens_eq_concat (p : Production) :
    ∃ ts m, p.tokens = ts ++ [Token.mark m] ∧ (m = .semicolon ∨ m = .closeBrace) := by
  cases p with
  | importModule source => exact ⟨[.word importWord, .source source], _, rfl, .inl rfl⟩
  | importBindings clause source => exact ⟨_, _, rfl, .inl rfl⟩
  | importCall source =>
      exact ⟨[.word importWord, .mark .openParen, .argument source, .mark .closeParen], _, rfl,
        .inl rfl⟩
  | exportAll name? source => cases name? <;> exact ⟨_, _, rfl, .inl rfl⟩
  | exportNames names source? => exact ⟨_, _, rfl, .inl rfl⟩
  | exportDefault value =>
      exact ⟨[.word exportWord, .word defaultWord, .word value.toWord], _, rfl, .inl rfl⟩
  | exportFunction isAsync isGenerator name =>
      refine ⟨.word exportWord :: (if isAsync then [.word asyncWord] else []) ++
        .word functionWord :: (if isGenerator then [.mark .star] else []) ++ [.word name.toWord,
          .mark .openParen, .mark .closeParen, .mark .openBrace], .closeBrace, ?_, .inr rfl⟩
      simp [tokens]
  | exportClass name =>
      exact ⟨[.word exportWord, .word classWord, .word name.toWord, .mark .openBrace], _, rfl,
        .inr rfl⟩
  | exportVariables kind first more => exact ⟨_, _, rfl, .inl rfl⟩
  | assignment name value =>
      exact ⟨[.word name.toWord, .mark .equals, .literal value], _, rfl, .inl rfl⟩

/-- A keyword may begin behind a statement. -/
theorem bounded_behind (p : Production) (h : pieces.map Piece.token = p.tokens) (past : Past) :
    Bounded (behind past pieces) := by
  obtain ⟨ts, m, hp, hm⟩ := p.exists_tokens_eq_concat
  obtain ⟨ps, qs, rfl, -, hqs⟩ := List.map_eq_append_iff.1 (h.trans hp)
  obtain ⟨g, rs, rfl, hrs⟩ := exists_gap_of_map_eq_cons hqs
  obtain rfl := List.map_eq_nil_iff.1 hrs
  rw [← behind_behind, Adds.behind_singleton]
  intro b hb
  obtain rfl : m.char = b := Option.some.inj hb
  rcases hm with rfl | rfl <;> decide

end Production

/-! ### Whole programs -/

/-- A program adds the specifiers and the names of its statements. -/
theorem adds_program (program : List Production)
    (h : pieces.map Piece.token = program.flatMap Production.tokens) (hb : Bounded past)
    (hs : Separated pieces) :
    Adds 0 0 (.inFront past pieces last) (recordsFrom past.length pieces)
      (program.flatMap Production.names) := by
  induction program generalizing past pieces with
  | nil =>
      obtain rfl := List.map_eq_nil_iff.1 h
      exact Adds.of_atToken Adds.nil
  | cons p program ih =>
      obtain ⟨ps, qs, rfl, hps, hqs⟩ := List.map_eq_append_iff.1 h
      have hrest := ih hqs (p.bounded_behind hps past) hs.right
      rw [recordsFrom_append, List.flatMap_cons]
      exact p.holds hps hb hs hrest

/-- The characters of a string stand behind its first quote. -/
theorem span_quoted (past : Past) (g : Gap) (t : Token) {q : Quoted} (ht : t.text = q.text)
    (pieces : List Piece) (last : Gap) {kind : ImportKind} :
    ImportRecord.span ⟨past.length + g.text.length + 1,
        past.length + g.text.length + 1 + q.content.length, kind⟩
      (past.reverse ++ spelled (⟨g, t⟩ :: pieces) last) = q.content := by
  have hsplit : past.reverse ++ spelled (⟨g, t⟩ :: pieces) last =
      (past.reverse ++ g.text ++ [q.quote]) ++ (q.content ++ q.quote :: spelled pieces last) := by
    simp [spelled, Piece.text, ht, Quoted.text]
  rw [ImportRecord.span, hsplit, List.drop_left' (by simp; omega), List.take_left' (by simp)]

/-- The records of pieces span the specifiers. -/
theorem filterMap_specifier?_recordsFrom (past : Past) (pieces : List Piece) (last : Gap) :
    (recordsFrom past.length pieces).filterMap
        (·.specifier? (past.reverse ++ spelled pieces last)) =
      pieces.filterMap fun p => p.token.specifier? := by
  induction pieces generalizing past with
  | nil => rfl
  | cons p pieces ih =>
      have htail : (behind past [p]).reverse ++ spelled pieces last =
          past.reverse ++ spelled (p :: pieces) last := by
        simp [behind, spelled]
      have hhead : (p.records past.length).filterMap
          (·.specifier? (past.reverse ++ spelled (p :: pieces) last)) =
            p.token.specifier?.toList := by
        obtain ⟨g, t⟩ := p
        cases t with
        | source q =>
            simpa [Piece.records, ImportRecord.specifier?, ImportRecord.isItself,
              ImportRecord.resolvable, Quoted.value]
              using congrArg String.ofList (span_quoted past g (.source q) rfl pieces last)
        | argument q =>
            simpa [Piece.records, ImportRecord.specifier?, ImportRecord.isItself,
              ImportRecord.resolvable, Quoted.value]
              using congrArg String.ofList (span_quoted past g (.argument q) rfl pieces last)
        | _ => rfl
      rw [recordsFrom_cons, List.filterMap_append, hhead, ← htail, ih]
      cases h : p.token.specifier? <;> simp [h]

theorem filterMap_eq_nil_of_silent {tokens : List Token} (h : ∀ t ∈ tokens, t.specifier? = none) :
    tokens.filterMap Token.specifier? = [] := List.filterMap_eq_nil_iff.2 h

/-- The specifier of a statement is the one among its tokens. -/
theorem Production.filterMap_specifier?_tokens (p : Production) :
    p.tokens.filterMap Token.specifier? = p.specifier?.toList := by
  cases p with
  | importBindings clause source =>
      have := filterMap_eq_nil_of_silent
        (forall_mem_clause (P := fun t => t.specifier? = none) (by simp) (by simp) (by simp) clause)
      simp [tokens, fromTokens, List.filterMap_cons, this, specifier?]
  | exportAll name? source =>
      cases name? <;> simp [tokens, fromTokens, List.filterMap_cons, specifier?]
  | exportNames names source? =>
      have := filterMap_eq_nil_of_silent (forall_mem_nameTokens (P := fun t => t.specifier? = none)
        (by simp) (by simp) (by simp) names.trailingComma names.names)
      cases source? <;>
        simp [tokens, NameList.tokens, fromTokens, List.filterMap_cons, this, specifier?,
          -List.filterMap_eq_nil_iff]
  | exportFunction isAsync isGenerator name =>
      exact filterMap_eq_nil_of_silent (specifier?_exportFunction isAsync isGenerator name)
  | exportVariables kind first more =>
      have := filterMap_eq_nil_of_silent (forall_mem_more (P := fun t => t.specifier? = none)
        (by simp) (by simp) more)
      simp [tokens, List.filterMap_cons, specifier?, this, -List.filterMap_eq_nil_iff]
  | _ => simp [tokens, List.filterMap_cons, specifier?]

/-- **The analysis is exact on its productions.** However a program is laid out, the analysis meets
no fault, finds the names that its statements export, and records the places of the specifiers,
which are those of the statements. -/
theorem analyze_layout (program : List Production)
    (layout : Layout (program.flatMap Production.tokens)) :
    analyze layout.text = ⟨layout.records, program.flatMap Production.names, none⟩ ∧
      (analyze layout.text).specifiers layout.text = program.filterMap Production.specifier? := by
  have hbounded : Bounded [] := by simp [Bounded]
  have hadds : Adds 0 0 (.inFront [] layout.pieces layout.last) layout.records
      (program.flatMap Production.names) :=
    adds_program program layout.tokens_eq hbounded layout.separated
  have hanalysis : analyze layout.text =
      ⟨layout.records, program.flatMap Production.names, none⟩ :=
    hadds (Scan.start layout.text) rfl rfl rfl rfl
  refine ⟨hanalysis, ?_⟩
  rw [hanalysis]
  calc layout.records.filterMap (·.specifier? layout.text)
      = layout.pieces.filterMap fun p => p.token.specifier? :=
        filterMap_specifier?_recordsFrom [] layout.pieces layout.last
    _ = (program.flatMap Production.tokens).filterMap Token.specifier? := by
        have := congrArg (List.filterMap Token.specifier?) layout.tokens_eq
        rwa [List.filterMap_map] at this
    _ = program.filterMap Production.specifier? := by
        rw [List.filterMap_flatMap, List.filterMap_eq_flatMap_toList]
        simp only [Production.filterMap_specifier?_tokens]

end ImportAtlas.Source

import ImportAtlas.Source.Import

/-!
# Exports in module source

What follows the keyword `export`: a default, a declaration, a list of names or a star.

## Summary

* `declaredNames` collects the names of a `var`, `let` or `const` declaration, skipping the
  initializers between them with `initializerEnd?`.
* `exportedNames` collects the names of a list in braces.
* `exportStatement` is what the scan does at the keyword.
-/

namespace ImportAtlas.Source

/-! ### Declarations -/

/-- Whether an operand comes next in an expression, so that a slash opens a regular expression. -/
def expectsOperand (past : Past) : Bool :=
  match past.head? with
  | none => true
  | some c =>
    if isPunctuator c then !(c == ')' || c == ']' || c == '\x7d')
    else expressionKeywords.contains (wordBehind past)

/-- The place of the comma that ends the initializer of a declared name, if one is found. `last`
is the text up to the last character of the initializer that is not white space, and `depth`
counts open brackets. -/
def initializerEnd? (depth : Nat) (last : Past) (c : Cursor) : Option Cursor :=
  if _hc : c.rest = [] then none
  else
    let ch := c.peek?.getD ' '
    let d := c.advance 1
    if ch == '(' || ch == '[' || ch == '\x7b' then initializerEnd? (depth + 1) d.past d
    else if ch == ')' || ch == ']' || ch == '\x7d' then
      if depth = 0 then none else initializerEnd? (depth - 1) d.past d
    else if isQuote ch then
      match _h : c.skipString with
      | .ok e => initializerEnd? depth e.past e
      | .error _ => none
    else if ch == '\x60' then
      match _h : c.skipPlainTemplate? with
      | some e => initializerEnd? depth e.past e
      | none => none
    else if startsComment c.rest then
      match _h : c.skipTrivia with
      | .ok e => initializerEnd? depth last e
      | .error _ => none
    else if ch == '/' && expectsOperand last then
      match _h : c.skipRegex with
      | .ok e => initializerEnd? depth e.past e
      | .error _ => none
    else if depth = 0 && ch == ',' then some c
    else if depth = 0 && ch == ';' then none
    else if depth = 0 && isLineBreak ch then
      match c.skipTrivia with
      | .ok e => if e.peek?.any isPunctuator then initializerEnd? depth last d else none
      | .error _ => none
    else initializerEnd? depth (if isSpace ch then last else d.past) d
termination_by c.size
decreasing_by
  · exact Cursor.size_advance_lt Nat.one_pos _hc
  · exact Cursor.size_advance_lt Nat.one_pos _hc
  · exact Cursor.size_skipString_lt _h
  · obtain ⟨n, rfl⟩ := Cursor.skipPlainTemplate?_eq_advance _h
    exact Cursor.size_advance_lt (by omega) _hc
  · exact Cursor.size_skipTrivia_lt ‹_› _h
  · obtain ⟨n, rfl⟩ := Cursor.skipRegex_eq_advance _h
    exact Cursor.size_advance_lt (by omega) _hc
  · exact Cursor.size_advance_lt Nat.one_pos _hc
  · exact Cursor.size_advance_lt Nat.one_pos _hc

theorem initializerEnd?_size_le {depth : Nat} {last : Past} {c d : Cursor}
    (h : initializerEnd? depth last c = some d) : d.size ≤ c.size := by
  fun_induction initializerEnd? depth last c with
  | case1 => simp at h
  | case2 depth last c hc ch e _ ih => exact Nat.le_trans (ih h) (by simp [e])
  | case3 => simp at h
  | case4 depth last c hc ch e _ _ _ ih => exact Nat.le_trans (ih h) (by simp [e])
  | case5 depth last c hc ch _ _ _ f hf ih =>
    exact Nat.le_trans (ih h) (Nat.le_of_lt (Cursor.size_skipString_lt hf))
  | case6 => simp at h
  | case7 depth last c hc ch _ _ _ _ f hf ih =>
    obtain ⟨n, rfl⟩ := Cursor.skipPlainTemplate?_eq_advance hf
    exact Nat.le_trans (ih h) (by simp)
  | case8 => simp at h
  | case9 depth last c hc ch _ _ _ _ _ f hf ih =>
    exact Nat.le_trans (ih h) (Cursor.size_skipTrivia_le hf)
  | case10 => simp at h
  | case11 depth last c hc ch _ _ _ _ _ _ f hf ih =>
    obtain ⟨n, rfl⟩ := Cursor.skipRegex_eq_advance hf
    exact Nat.le_trans (ih h) (by simp)
  | case12 => simp at h
  | case13 => simp_all
  | case14 => simp at h
  | case15 depth last c hc ch e _ _ _ _ _ _ _ _ _ f _ _ ih =>
    exact Nat.le_trans (ih h) (by simp [e])
  | case16 => simp at h
  | case17 => simp at h
  | case18 depth last c hc ch e _ _ _ _ _ _ _ _ _ ih =>
    exact Nat.le_trans (ih h) (by simp [e])

/-- The names that a declaration gives, and the fault that ended the search for them early. A
pattern in place of a name ends the search. -/
def declaredNames (c : Cursor) : List String × Option SyntaxFault :=
  match _h : c.skipTrivia with
  | .error f => ([], some f)
  | .ok d =>
    if _hd : d.identifier = [] then ([], none)
    else
      let name := String.ofList d.identifier
      match _he : (d.advance d.identifier.length).skipTrivia with
      | .error f => ([name], some f)
      | .ok e =>
        let comma? :=
          if e.peek? = some '=' then initializerEnd? 0 (e.advance 1).past (e.advance 1)
          else some e
        match _hc : comma? with
        | none => ([name], none)
        | some comma =>
          if comma.peek? = some ',' then
            let (names, fault?) := declaredNames (comma.advance 1)
            (name :: names, fault?)
          else ([name], none)
termination_by c.size
decreasing_by
  have h1 := Cursor.size_skipTrivia_le _h
  have h2 := Cursor.size_advance_identifier_lt _hd
  have h3 := Cursor.size_skipTrivia_le _he
  have h4 : comma.size ≤ e.size := by
    simp only [comma?] at _hc
    split at _hc
    · exact Nat.le_trans (initializerEnd?_size_le _hc) (by simp)
    · simp at _hc; simp [_hc]
  simp only [Cursor.size_advance]
  omega

/-! ### Lists -/

/-- An exported name, which may be a string, and the place after it. -/
def exportName (c : Cursor) : Except SyntaxFault (String × Cursor) :=
  if c.atQuote then
    c.skipString.map fun d =>
      (String.ofList ((c.rest.drop 1).take (d.offset - c.offset - 2)), d)
  else if c.identifier = [] then .error (c.fault .expectedExportName)
  else .ok (String.ofList c.identifier, c.advance c.identifier.length)

theorem size_exportName_lt {c d : Cursor} {name : String} (h : exportName c = .ok (name, d)) :
    d.size < c.size := by
  unfold exportName at h
  split at h
  · obtain ⟨e, he, heq⟩ := exists_of_map_eq_ok h
    have : e = d := congrArg Prod.snd heq
    exact this ▸ Cursor.size_skipString_lt he
  · split at h
    · simp at h
    · have : c.advance c.identifier.length = d := congrArg Prod.snd (Except.ok.inj h)
      exact this ▸ Cursor.size_advance_identifier_lt ‹_›

/-- An exported name with the name that `as` gives it in its place, and the place after both and
the white space behind them. -/
def renamedExport (c : Cursor) : Except SyntaxFault (String × Cursor) :=
  match exportName c with
  | .error f => .error f
  | .ok (name, d) =>
    match d.skipTrivia with
    | .error f => .error f
    | .ok e =>
      if e.identifier = "as".toList then
        match (e.advance 2).skipTrivia with
        | .error f => .error f
        | .ok e =>
          match exportName e with
          | .error f => .error f
          | .ok (renamed, e) => e.skipTrivia.map fun e => (renamed, e)
      else .ok (name, e)

theorem size_renamedExport_lt {c d : Cursor} {name : String}
    (h : renamedExport c = .ok (name, d)) : d.size < c.size := by
  unfold renamedExport at h
  split at h
  · simp at h
  rename_i name' d' hn
  have h1 := size_exportName_lt hn
  split at h
  · simp at h
  rename_i e he
  have h2 := Cursor.size_skipTrivia_le he
  split at h
  · split at h
    · simp at h
    rename_i e' he'
    have h3 := Cursor.size_skipTrivia_le he'
    simp only [Cursor.size_advance] at h3
    split at h
    · simp at h
    rename_i hn'
    have h4 := size_exportName_lt hn'
    obtain ⟨f, hf, heq⟩ := exists_of_map_eq_ok h
    have : f = d := congrArg Prod.snd heq
    have h5 := Cursor.size_skipTrivia_le hf
    subst this
    omega
  · have : e = d := congrArg Prod.snd (Except.ok.inj h)
    subst this
    omega

/-- The names of a list as far as its closing brace, and the place of that brace. White space
before the first name has been read. -/
def exportedNames (c : Cursor) : List String × Except SyntaxFault Cursor :=
  if c.peek? = some '\x7d' then ([], .ok c)
  else
    match _h : renamedExport c with
    | .error f => ([], .error f)
    | .ok (name, d) =>
      if d.peek? = some ',' then
        match _hd : (d.advance 1).skipTrivia with
        | .error f => ([name], .error f)
        | .ok e =>
          let (names, close) := exportedNames e
          (name :: names, close)
      else if d.peek? = some '\x7d' then ([name], .ok d)
      else ([name], .error (d.fault .unexpectedInExports))
termination_by c.size
decreasing_by
  have h1 := size_renamedExport_lt _h
  have h2 := Cursor.size_skipTrivia_le _hd
  simp only [Cursor.size_advance] at h2
  omega

/-! ### Statements -/

/-- Names, followed by the specifier of the module that they come from if `from` announces one;
otherwise the scan goes on at `next`. -/
def exportsFrom (names : List String) (next c : Cursor) : Statement :=
  if c.identifier = "from".toList then
    match (c.advance 4).skipTrivia with
    | .error f => ⟨[], names, none, .error f⟩
    | .ok d =>
      match sourceString d with
      | .error f => ⟨[], names, none, .error f⟩
      | .ok (record, e) => ⟨[record], names, none, .ok e⟩
  else ⟨[], names, none, .ok next⟩

/-- A list in braces; its opening brace comes next. -/
def exportList (c : Cursor) : Statement :=
  match (c.advance 1).skipTrivia with
  | .error f => .plain (.error f)
  | .ok d =>
    match exportedNames d with
    | (names, .error f) => ⟨[], names, none, .error f⟩
    | (names, .ok close) =>
      match (close.advance 1).skipTrivia with
      | .error f => ⟨[], names, none, .error f⟩
      | .ok e => exportsFrom names (close.advance 1) e

/-- A star, which comes next, with an optional name for all that the other module exports. -/
def exportStar (c : Cursor) : Statement :=
  match (c.advance 1).skipTrivia with
  | .error f => .plain (.error f)
  | .ok d =>
    if d.identifier = "as".toList then
      match (d.advance 2).skipTrivia with
      | .error f => .plain (.error f)
      | .ok d =>
        match exportName d with
        | .error f => .plain (.error f)
        | .ok (name, d) =>
          match d.skipTrivia with
          | .error f => ⟨[], [name], none, .error f⟩
          | .ok d => exportsFrom [name] d d
    else exportsFrom [] d d

/-- A declared function or class, whose name comes next if it has one. -/
def exportDeclared (c : Cursor) : Statement :=
  if c.identifier = [] then .plain (.ok c)
  else ⟨[], [String.ofList c.identifier], none, .ok (c.advance c.identifier.length)⟩

/-- What is exported, the words `export` and `async` having been read. -/
def exportedItem (start first c : Cursor) : Statement :=
  let word := c.identifier
  if word = "function".toList then
    match (c.advance 8).skipTrivia with
    | .error f => .plain (.error f)
    | .ok d =>
      if d.peek? = some '*' then
        match (d.advance 1).skipTrivia with
        | .error f => .plain (.error f)
        | .ok e => exportDeclared e
      else exportDeclared d
  else if word = "class".toList then
    match (c.advance 5).skipTrivia with
    | .error f => .plain (.error f)
    | .ok d => exportDeclared d
  else if word = "var".toList || word = "let".toList || word = "const".toList then
    -- the initializers are left to the scan
    let d := c.advance word.length
    match declaredNames d with
    | (names, some f) => ⟨[], names, none, .error f⟩
    | (names, none) => ⟨[], names, none, .ok d⟩
  else if first.peek? = some '\x7b' then exportList c
  else if first.peek? = some '*' then exportStar c
  else .plain (.ok (start.advance 6))

/-- What the scan does at an `e`. Exports count outside brackets only. -/
def exportStatement (bracketed : Bool) (c : Cursor) : Statement :=
  if bracketed || !c.atKeyword "export".toList then .plain (.ok (c.advance 1))
  else
    match (c.advance 6).skipTrivia with
    | .error f => .plain (.error f)
    | .ok d =>
      if d.identifier = "default".toList then
        ⟨[], ["default"], none, .ok (d.advance 7)⟩
      else if d.identifier = "async".toList then
        match (d.advance 5).skipTrivia with
        | .error f => .plain (.error f)
        | .ok e => exportedItem c d e
      else exportedItem c d d

end ImportAtlas.Source

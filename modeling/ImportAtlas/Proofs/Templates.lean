import ImportAtlas.Proofs.Arguments
import ImportAtlas.Proofs.DeclaredExports

/-!
# Templates with substitutions

A template may hold substitutions, and these may hold brackets, objects and templates again. The
scan passes over a complete template whatever state it is in, and comes out of it with the same
brackets and templates open as before.

## Summary

* `Operand` is what may stand in a substitution, and `TemplateBody` what stands behind the first
  backtick of a template.
* `Scan.Restores` says that a text is passed over and leaves everything open that was open.

## Main results

* `Scan.Restores.parens`, `Scan.Restores.braces`: a text in brackets, from the text in them.
* `Scan.passesOperand`, `Scan.passesBody`: operands and bodies, by induction on their form.
* `Scan.template_restores`: a template in any state.

## Conventions

A closing brace ends a substitution exactly if as many braces are open as when the innermost
substitution began. So an operand is passed over where no more braces are counted in the innermost
substitution than are open; a template brings such a place about for its own operands.
-/

namespace ImportAtlas.Source

/-! ### The grammar -/

mutual

/-- What may stand in a substitution. White space and comments may stand around it. -/
inductive Operand where
  /-- A name that begins no statement of a module. -/
  | name (name : Identifier)
  /-- A string, perhaps with escapes. -/
  | string (quote : Char) (isQuote_eq : isQuote quote = true) (content : List Char)
      (isStringContent : IsStringContent quote content)
  /-- A template. -/
  | template (body : TemplateBody)
  /-- An operand in parentheses. -/
  | parens (before : Gap) (inner : Operand) (after : Gap)
  /-- An object with one property. Any word may name the property. -/
  | object (opening : Gap) (key : Word) (colon : Gap) (before : Gap) (value : Operand) (after : Gap)

/-- What stands behind the first backtick of a template. -/
inductive TemplateBody where
  /-- Text and the last backtick. -/
  | last (content : List Char) (isTemplateContent : IsTemplateContent content)
  /-- Text and a substitution, with more behind it. -/
  | substitution (content : List Char) (isTemplateContent : IsTemplateContent content)
      (before : Gap) (operand : Operand) (after : Gap) (more : TemplateBody)

end

mutual

/-- The characters of an operand. -/
def Operand.text : Operand → List Char
  | .name name => name.chars
  | .string quote _ content _ => quote :: content ++ [quote]
  | .template body => '\x60' :: body.text
  | .parens before inner after => '(' :: before.text ++ inner.text ++ after.text ++ [')']
  | .object opening key colon before value after =>
    '\x7b' :: (opening.text ++ key.chars ++ colon.text ++
      ':' :: (before.text ++ value.text ++ after.text)) ++ ['\x7d']

/-- The characters of a body, the last backtick included. -/
def TemplateBody.text : TemplateBody → List Char
  | .last content _ => content ++ ['\x60']
  | .substitution content _ before operand after more =>
    content ++ '$' :: '\x7b' :: (before.text ++ operand.text ++ after.text ++ '\x7d' :: more.text)

end

/-- Every operand begins with something else than white space and comments. -/
theorem Operand.begins (e : Operand) (rest : List Char) : Begins (e.text ++ rest) := by
  cases e with
  | name name => exact begins_word name.toWord
  | string quote hquote content _ =>
      rw [Operand.text]
      exact begins_cons (isSpace_of_isQuote hquote)
        (by rintro rfl; exact absurd hquote (by decide))
  | template body => exact begins_cons (by decide) (by decide)
  | parens before inner after => exact begins_cons (by decide) (by decide)
  | object opening key colon before value after => exact begins_cons (by decide) (by decide)

namespace Scan

variable {s t u v : Scan} {text more rest : List Char} {gap : Gap} {d : Cursor}

/-! ### What is left as it was -/

/-- A text stands between two states, nothing has been found in it, and what was open in front of it
is open behind it. -/
structure Keeps (s : Scan) (text : List Char) (u : Scan) : Prop where
  between : s.cursor.Between text u.cursor
  openers_eq : u.openers = s.openers
  braces_eq : u.braces = s.braces
  templates_eq : u.templates = s.templates
  imports_eq : u.imports = s.imports
  exports_eq : u.exports = s.exports

/-- A text that comes next is passed over, and what was open is open again. -/
structure Restores (s : Scan) (text : List Char) (u : Scan) : Prop extends Keeps s text u where
  leads : Leads s u

theorem Keeps.refl (s : Scan) : s.Keeps [] s := ⟨.refl _, rfl, rfl, rfl, rfl, rfl⟩

theorem Keeps.trans (h : s.Keeps text t) (h' : t.Keeps more u) : s.Keeps (text ++ more) u where
  between := h.between.trans h'.between
  openers_eq := h'.openers_eq.trans h.openers_eq
  braces_eq := h'.braces_eq.trans h.braces_eq
  templates_eq := h'.templates_eq.trans h.templates_eq
  imports_eq := h'.imports_eq.trans h.imports_eq
  exports_eq := h'.exports_eq.trans h.exports_eq

theorem Restores.trans (h : s.Restores text t) (h' : t.Restores more u) :
    s.Restores (text ++ more) u :=
  ⟨h.toKeeps.trans h'.toKeeps, Relation.ReflTransGen.trans h.leads h'.leads⟩

theorem Keeps.rest_eq (h : s.Keeps text u) (hrest : s.cursor.rest = text ++ rest) :
    u.cursor.rest = rest :=
  List.append_cancel_left (h.between.rest_eq.symm.trans hrest)

/-- A step that only moves on. -/
theorem restores_of_token (hstep : s.step = .ok (s.token d)) (h : s.cursor.Between text d) :
    s.Restores text (s.token d) :=
  ⟨⟨h, rfl, rfl, rfl, rfl, rfl⟩, .single hstep⟩

/-- White space and comments are passed over together. -/
theorem exists_restores_gap (gap : Gap) (hrest : s.cursor.rest = gap.text ++ rest)
    (hbegins : Begins rest) : ∃ u, s.Restores gap.text u := by
  have hbetween : s.cursor.Between gap.text (s.cursor.advance gap.text.length) :=
    .of_advance hrest
  have hskip : s.cursor.skipTrivia = .ok (s.cursor.advance gap.text.length) :=
    Cursor.skipTrivia_of_between hbetween
      (by rwa [List.append_cancel_left (hbetween.rest_eq.symm.trans hrest)])
  by_cases hne : s.cursor.advance gap.text.length = s.cursor
  · rw [hne] at hbetween
    exact ⟨s, ⟨hbetween, rfl, rfl, rfl, rfl, rfl⟩, .refl⟩
  · exact ⟨{ s with cursor := s.cursor.advance gap.text.length },
      ⟨hbetween, rfl, rfl, rfl, rfl, rfl⟩, .single (step_of_gap (.gap hskip hne))⟩

/-! ### Words -/

/-- The characters of a word behind its first one are passed one at a time. -/
theorem exists_restores_chars {chars : List Char} (hchars : ∀ c ∈ chars, isIdentifierChar c = true)
    (hrest : s.cursor.rest = chars ++ rest) {b : Char} {past : Past}
    (hpast : s.cursor.past = b :: past) (hb : isIdentifierChar b = true) :
    ∃ u, s.Restores chars u := by
  induction chars generalizing s b past with
  | nil => exact ⟨s, .refl s, .refl⟩
  | cons c chars ih =>
      rw [List.forall_mem_cons] at hchars
      have hkey (keyword : List Char) : s.cursor.atKeyword keyword = false := by
        rw [show s.cursor = ⟨b :: past, s.cursor.rest⟩ from hpast ▸ rfl]
        exact Adds.atKeyword_of_identifierChar hb
      have hone : s.cursor.Between [c] (s.cursor.advance 1) := .of_advance hrest
      have hstep := restores_of_token
        (Adds.step_identifierChar hchars.1 hrest (hkey _) (hkey _)) hone
      obtain ⟨u, hu⟩ := ih hchars.2 (hstep.rest_eq hrest) hone.past_eq hchars.1
      exact ⟨u, hstep.trans hu⟩

/-- A word whose first character is passed. -/
theorem exists_restores_word (w : Word) (hrest : s.cursor.rest = w.chars ++ rest)
    (hstep : s.step = .ok (s.token (s.cursor.advance 1))) : ∃ u, s.Restores w.chars u := by
  obtain ⟨c, chars, hchars⟩ := List.exists_cons_of_ne_nil w.chars_ne_nil
  have hw := w.isIdentifierChar_eq
  rw [hchars, List.forall_mem_cons] at hw
  rw [hchars] at hrest ⊢
  have hone : s.cursor.Between [c] (s.cursor.advance 1) := .of_advance hrest
  have hfirst := restores_of_token hstep hone
  obtain ⟨u, hu⟩ := exists_restores_chars hw.2 (hfirst.rest_eq hrest) hone.past_eq hw.1
  exact ⟨u, hfirst.trans hu⟩

/-- A word that is no keyword is passed wherever it stands. -/
theorem step_of_word (w : Word) (hrest : s.cursor.rest = w.chars ++ rest)
    (himport : s.cursor.atKeyword "import".toList = false)
    (hexport : s.cursor.atKeyword "export".toList = true → s.openers ≠ []) :
    s.step = .ok (s.token (s.cursor.advance 1)) := by
  obtain ⟨c, chars, hchars⟩ := List.exists_cons_of_ne_nil w.chars_ne_nil
  have hc := w.isIdentifierChar_eq c (hchars ▸ List.mem_cons_self ..)
  rw [hchars] at hrest
  by_cases hkey : s.cursor.atKeyword "export".toList = true
  · rw [step_of_export hkey]
    simp [exportStatement, hexport hkey, take, Statement.plain]
  · exact Adds.step_identifierChar hc hrest himport (Bool.eq_false_iff.2 hkey)

theorem atKeyword_eq_false {w : Word} (keyword : Word) (hrest : s.cursor.rest = w.chars ++ rest)
    (hend : EndsWord rest) (hne : w.chars ≠ keyword.chars) :
    s.cursor.atKeyword keyword.chars = false := by
  rw [Bool.eq_false_iff]
  intro hkey
  rw [show s.cursor = ⟨s.cursor.past, w.chars ++ rest⟩ from hrest ▸ rfl] at hkey
  exact hne (eq_of_atKeyword w.isIdentifierChar_eq keyword.isIdentifierChar_eq hend hkey)

theorem exists_restores_name (name : Identifier) (hrest : s.cursor.rest = name.chars ++ rest)
    (hend : EndsWord rest) : ∃ u, s.Restores name.chars u := by
  refine exists_restores_word name.toWord hrest (step_of_word name.toWord hrest ?_ fun hkey => ?_)
  · exact atKeyword_eq_false importWord hrest hend name.ne_import
  · have hno := atKeyword_eq_false exportWord hrest hend name.ne_export
    exact absurd (hno.symm.trans hkey) Bool.false_ne_true

/-- Inside brackets the keyword of an import is passed as a whole in front of a colon. -/
theorem exists_restores_import (colon : Gap)
    (hrest : s.cursor.rest = "import".toList ++ (colon.text ++ ':' :: rest))
    (hkey : s.cursor.atKeyword "import".toList = true) (hopen : s.openers ≠ []) :
    ∃ u, s.Restores "import".toList u := by
  have hword : s.cursor.Between "import".toList (s.cursor.advance 6) := .of_advance hrest
  have hbehind : (s.cursor.advance 6).rest = colon.text ++ ':' :: rest :=
    List.append_cancel_left (hword.rest_eq.symm.trans hrest)
  have hcolon : (s.cursor.advance 6).Between colon.text
      ((s.cursor.advance 6).advance colon.text.length) := .of_advance hbehind
  have hrest' : ((s.cursor.advance 6).advance colon.text.length).rest = ':' :: rest :=
    List.append_cancel_left (hcolon.rest_eq.symm.trans hbehind)
  have hskip := Cursor.skipTrivia_of_between hcolon
    (hrest' ▸ begins_cons (by decide) (by decide))
  have hpeek : ((s.cursor.advance 6).advance colon.text.length).peek? = some ':' := by
    rw [Cursor.peek?, hrest', List.head?_cons]
  refine ⟨_, restores_of_token ?_ hword⟩
  rw [step_of_import hkey, importStatement, hkey]
  simp [hskip, hpeek, hopen, take, Statement.plain]

/-- Inside brackets the name of a property may be any word. -/
theorem exists_restores_key (key : Word) (colon : Gap)
    (hrest : s.cursor.rest = key.chars ++ (colon.text ++ ':' :: rest)) (hopen : s.openers ≠ []) :
    ∃ u, s.Restores key.chars u := by
  by_cases hkey : s.cursor.atKeyword "import".toList = true
  · have hend : EndsWord (colon.text ++ ':' :: rest) :=
      Gap.endsWord_append fun _ c hc => Option.some.inj hc ▸ (by decide)
    have himport : key.chars = "import".toList := by
      rw [show s.cursor = ⟨s.cursor.past, key.chars ++ (colon.text ++ ':' :: rest)⟩
        from hrest ▸ rfl] at hkey
      exact eq_of_atKeyword key.isIdentifierChar_eq importWord.isIdentifierChar_eq hend hkey
    rw [himport] at hrest ⊢
    exact exists_restores_import colon hrest hkey hopen
  · exact exists_restores_word key hrest
      (step_of_word key hrest (Bool.eq_false_iff.2 hkey) fun _ => hopen)

theorem exists_restores_string {quote : Char} (hquote : isQuote quote = true) {content : List Char}
    (hcontent : IsStringContent quote content)
    (hrest : s.cursor.rest = (quote :: content ++ [quote]) ++ rest) :
    ∃ u, s.Restores (quote :: content ++ [quote]) u := by
  have hbetween : s.cursor.Between (quote :: content ++ [quote]) _ := .of_advance hrest
  have hplain := @Cursor.plainText_of_between _ _ ⟨quote, content, .inl ⟨hquote, hcontent⟩⟩ hbetween
  exact ⟨_, restores_of_token (step_of_plainText hplain) hbetween⟩

/-! ### Brackets -/

/-- A text in parentheses. -/
theorem Restores.parens (hpeek : s.cursor.peek? = some '(') (h : s.openBracket.Restores text t)
    (hclose : t.cursor.peek? = some ')') : ∃ u, s.Restores ('(' :: text ++ [')']) u := by
  obtain ⟨rest, hrest⟩ : ∃ rest, s.cursor.rest = '(' :: rest := List.head?_eq_some_iff.1 hpeek
  obtain ⟨rest', hrest'⟩ : ∃ rest, t.cursor.rest = ')' :: rest := List.head?_eq_some_iff.1 hclose
  have hstep : s.step = .ok s.openBracket := by
    rw [step_of_rest hrest, stepAt, hrest]
    rfl
  have hopen : s.cursor.Between ['('] s.openBracket.cursor := .of_advance hrest
  have hlast : t.cursor.Between [')'] (t.cursor.advance 1) := .of_advance hrest'
  refine ⟨{ t with openers := s.openers, lastOpener := s.lastToken }.token (t.cursor.advance 1),
    ⟨?_, rfl, h.braces_eq, h.templates_eq, h.imports_eq, h.exports_eq⟩, ?_⟩
  · exact (hopen.trans h.between).trans hlast
  · exact Relation.ReflTransGen.tail (Relation.ReflTransGen.head hstep h.leads)
      (step_of_closeParen hclose h.openers_eq)

/-- A closing brace closes a bracket, where the innermost substitution counts fewer braces than are
open. -/
theorem step_of_closeBrace {opener : Past} {openers : List Past}
    (hpeek : s.cursor.peek? = some '\x7d') (h : s.openers = opener :: openers)
    (hinner : ∀ b ∈ s.templates.head?, b < s.braces) (hbraces : s.braces ≠ 0) :
    s.step = .ok ({ s with openers, lastOpener := opener, braces := s.braces - 1 }.token
      (s.cursor.advance 1)) := by
  obtain ⟨rest, hrest⟩ : ∃ rest, s.cursor.rest = '\x7d' :: rest := List.head?_eq_some_iff.1 hpeek
  have hne : s.templates.head? ≠ some s.braces := fun heq =>
    absurd (hinner _ heq) (Nat.lt_irrefl _)
  have hno : s.templates.head?.any (s.braces - 1 < ·) = false := by
    cases hhead : s.templates.head? with
    | none => rfl
    | some b =>
        have := hinner b hhead
        simp only [Option.any_some, decide_eq_false_iff_not]
        omega
  rw [step_of_rest hrest, stepAt, hrest]
  simp [isSpace, startsComment, closeBrace, hne, hno, hbraces, closeBracket, h]

/-- A text in braces, where the innermost substitution counts no more braces than are open. -/
theorem Restores.braces (hpeek : s.cursor.peek? = some '\x7b')
    (h : ({ s with braces := s.braces + 1 }.openBracket).Restores text t)
    (hclose : t.cursor.peek? = some '\x7d') (hinner : ∀ b ∈ s.templates.head?, b ≤ s.braces) :
    ∃ u, s.Restores ('\x7b' :: text ++ ['\x7d']) u := by
  obtain ⟨rest, hrest⟩ : ∃ rest, s.cursor.rest = '\x7b' :: rest := List.head?_eq_some_iff.1 hpeek
  obtain ⟨rest', hrest'⟩ : ∃ rest, t.cursor.rest = '\x7d' :: rest := List.head?_eq_some_iff.1 hclose
  have hbraces : t.braces = s.braces + 1 := h.braces_eq
  have htemplates : t.templates = s.templates := h.templates_eq
  have hstep : s.step = .ok { s with braces := s.braces + 1 }.openBracket := by
    rw [step_of_rest hrest, stepAt, hrest]
    rfl
  have hopen : s.cursor.Between ['\x7b'] { s with braces := s.braces + 1 }.openBracket.cursor :=
    .of_advance hrest
  have hlast : t.cursor.Between ['\x7d'] (t.cursor.advance 1) := .of_advance hrest'
  have hend := step_of_closeBrace hclose h.openers_eq
    (fun b hb => by rw [hbraces]; exact Nat.lt_succ_of_le (hinner b (htemplates ▸ hb)))
    (by rw [hbraces]; exact Nat.succ_ne_zero _)
  refine ⟨{ t with openers := s.openers, lastOpener := s.lastToken, braces := t.braces - 1 }.token
    (t.cursor.advance 1), ⟨?_, rfl, ?_, htemplates, h.imports_eq, h.exports_eq⟩, ?_⟩
  · exact (hopen.trans h.between).trans hlast
  · exact (congrArg (· - 1) hbraces).trans (Nat.add_sub_cancel ..)
  · exact Relation.ReflTransGen.tail (Relation.ReflTransGen.head hstep h.leads) hend

/-! ### Templates -/

/-- A body of a template is read behind its first character, and what was open is open again. -/
def Resumes (s : Scan) (text : List Char) (u : Scan) : Prop :=
  ∃ t, s.templateChunk = .ok t ∧ Leads t u ∧ s.Keeps text u

/-- A template is passed over when its body is. -/
theorem Resumes.restores (hpeek : s.cursor.peek? = some '\x60') (h : s.Resumes text u) :
    s.Restores text u := by
  obtain ⟨t, hchunk, hlead, hkeeps⟩ := h
  obtain ⟨rest, hrest⟩ : ∃ rest, s.cursor.rest = '\x60' :: rest := List.head?_eq_some_iff.1 hpeek
  have hstep : s.step = .ok t := by
    rw [← hchunk, step_of_rest hrest, stepAt, hrest]
    rfl
  exact ⟨hkeeps, Relation.ReflTransGen.head hstep hlead⟩

/-- The brace behind the operand of a substitution goes on with the template. -/
theorem step_of_resume (hpeek : s.cursor.peek? = some '\x7d')
    (htemplates : s.templates.head? = some s.braces) :
    s.step = { s with braces := s.braces - 1, templates := s.templates.tail }.templateChunk := by
  obtain ⟨rest, hrest⟩ : ∃ rest, s.cursor.rest = '\x7d' :: rest := List.head?_eq_some_iff.1 hpeek
  rw [step_of_rest hrest, stepAt, hrest]
  simp [isSpace, startsComment, closeBrace, htemplates]

theorem peek?_of_rest {c : Char} (h : s.cursor.rest = c :: rest) : s.cursor.peek? = some c := by
  rw [Cursor.peek?, h, List.head?_cons]

/-- An operand is passed over where the innermost substitution counts no more braces than are
open. -/
def PassesOperand (e : Operand) : Prop :=
  ∀ ⦃s : Scan⦄ ⦃rest : List Char⦄, s.cursor.rest = e.text ++ rest → EndsWord rest →
    (∀ b ∈ s.templates.head?, b ≤ s.braces) → ∃ u, s.Restores e.text u

/-- A body of a template is read to its end, whatever is open in front of it. -/
def PassesBody (body : TemplateBody) : Prop :=
  ∀ ⦃s : Scan⦄ ⦃first : Char⦄ ⦃rest : List Char⦄, s.cursor.rest = first :: (body.text ++ rest) →
    ∃ u, s.Resumes (first :: body.text) u

/-- An operand with white space and comments around it, in front of a closing bracket. -/
theorem PassesOperand.surrounded {e : Operand} (h : PassesOperand e) {before after : Gap} {c : Char}
    (hc : c = ')' ∨ c = '\x7d')
    (hrest : s.cursor.rest = before.text ++ e.text ++ after.text ++ c :: rest)
    (hinner : ∀ b ∈ s.templates.head?, b ≤ s.braces) :
    ∃ u, s.Restores (before.text ++ e.text ++ after.text) u := by
  have hclose : isIdentifierChar c = false ∧ Begins (c :: rest) := by
    rcases hc with rfl | rfl <;> exact ⟨by decide, begins_cons (by decide) (by decide)⟩
  simp only [List.append_assoc] at hrest
  obtain ⟨t, ht⟩ := exists_restores_gap before hrest (e.begins _)
  have hrest := ht.rest_eq hrest
  obtain ⟨u, hu⟩ := h hrest (Gap.endsWord_append fun _ _ hd => Option.some.inj hd ▸ hclose.1)
    (by rwa [ht.templates_eq, ht.braces_eq])
  obtain ⟨v, hv⟩ := exists_restores_gap after (hu.rest_eq hrest) hclose.2
  exact ⟨v, (ht.trans hu).trans hv⟩

theorem PassesOperand.parens {e : Operand} (h : PassesOperand e) (before after : Gap) :
    PassesOperand (.parens before e after) := by
  intro s rest hrest _ hinner
  have hopen : s.openBracket.cursor.rest = before.text ++ e.text ++ after.text ++ ')' :: rest := by
    simp [openBracket, token, Cursor.advance, hrest, Operand.text]
  obtain ⟨t, ht⟩ := h.surrounded (.inl rfl) hopen hinner
  have hclose : t.cursor.peek? = some ')' := peek?_of_rest (ht.rest_eq hopen)
  exact ht.parens (peek?_of_rest hrest) hclose

theorem exists_restores_colon (hrest : s.cursor.rest = ':' :: rest) : ∃ u, s.Restores [':'] u := by
  have hbetween : s.cursor.Between [':'] (s.cursor.advance 1) := .of_advance hrest
  refine ⟨_, restores_of_token ?_ hbetween⟩
  rw [step_of_rest hrest, stepAt, hrest]
  rfl

theorem PassesOperand.object {e : Operand} (h : PassesOperand e) (opening : Gap) (key : Word)
    (colon before after : Gap) : PassesOperand (.object opening key colon before e after) := by
  intro s rest hrest _ hinner
  let s₁ : Scan := { s with braces := s.braces + 1 }.openBracket
  have hbody : s₁.cursor.rest = opening.text ++ (key.chars ++ (colon.text ++
      ':' :: (before.text ++ e.text ++ after.text ++ '\x7d' :: rest))) := by
    simp [s₁, openBracket, token, Cursor.advance, hrest, Operand.text]
  obtain ⟨s₂, h₂⟩ := exists_restores_gap opening hbody (begins_word key)
  have hrest₂ := h₂.rest_eq hbody
  have hopen : s₂.openers ≠ [] := by simp [h₂.openers_eq, s₁, openBracket, token]
  obtain ⟨s₃, h₃⟩ := exists_restores_key key colon hrest₂ hopen
  have hrest₃ := h₃.rest_eq hrest₂
  obtain ⟨s₄, h₄⟩ := exists_restores_gap colon hrest₃ (begins_cons (by decide) (by decide))
  have hrest₄ := h₄.rest_eq hrest₃
  obtain ⟨s₅, h₅⟩ := exists_restores_colon hrest₄
  have hrest₅ := h₅.rest_eq hrest₄
  have hfront := ((h₂.trans h₃).trans h₄).trans h₅
  obtain ⟨s₆, h₆⟩ := h.surrounded (.inr rfl) hrest₅ fun b hb => by
    rw [hfront.templates_eq] at hb
    rw [hfront.braces_eq]
    exact Nat.le_succ_of_le (hinner b hb)
  have hclose : s₆.cursor.peek? = some '\x7d' := peek?_of_rest (h₆.rest_eq hrest₅)
  obtain ⟨u, hu⟩ := (hfront.trans h₆).braces (peek?_of_rest hrest) hclose hinner
  refine ⟨u, ?_⟩
  simpa [Operand.text] using hu

theorem passesBody_last {content : List Char} (hcontent : IsTemplateContent content) :
    PassesBody (.last content hcontent) := by
  intro s first rest hrest
  have hlength := chunkLength?_template hcontent rest
  have hbetween : s.cursor.Between (first :: (content ++ ['\x60']))
      (s.cursor.advance (content.length + 2)) := by
    have hadvance : s.cursor.Between (first :: (content ++ ['\x60'])) _ := .of_advance hrest
    simpa using hadvance
  refine ⟨_, s.token (s.cursor.advance (content.length + 2)), ?_, .refl,
    ⟨hbetween, rfl, rfl, rfl, rfl, rfl⟩⟩
  simp only [TemplateBody.text, List.append_assoc, List.singleton_append] at hrest
  rw [templateChunk, hrest]
  simp [hlength]

theorem PassesBody.substitution {content : List Char} (hcontent : IsTemplateContent content)
    {e : Operand} (he : PassesOperand e) {more : TemplateBody} (hmore : PassesBody more)
    (before after : Gap) : PassesBody (.substitution content hcontent before e after more) := by
  intro s first rest hrest
  simp only [TemplateBody.text, List.cons_append, List.append_assoc] at hrest
  have hlength := chunkLength?_substitution hcontent
    (before.text ++ (e.text ++ (after.text ++ '\x7d' :: (more.text ++ rest))))
  -- the substitution begins, with one more brace open
  let t : Scan := { s with
    braces := s.braces + 1, templates := (s.braces + 1) :: s.templates }.token
      (s.cursor.advance (content.length + 3))
  have hchunk : s.templateChunk = .ok t := by
    rw [templateChunk, hrest]
    simp [hlength, t]
  have hfront : s.cursor.Between (first :: (content ++ ['$', '\x7b'])) t.cursor := by
    have hadvance : s.cursor.Between (first :: (content ++ ['$', '\x7b'])) _ :=
      .of_advance (by simpa using hrest)
    simpa [t, token] using hadvance
  have hrest_t : t.cursor.rest =
      before.text ++ e.text ++ after.text ++ '\x7d' :: (more.text ++ rest) := by
    have := hfront.rest_eq
    rw [hrest] at this
    simpa using this.symm
  obtain ⟨v, hv⟩ := he.surrounded (.inr rfl) hrest_t fun b hb =>
    Nat.le_of_eq (Option.some.inj hb).symm
  -- the brace behind the operand goes on with the template as it was in front
  have hrest_v := hv.rest_eq hrest_t
  have hresume := step_of_resume (peek?_of_rest hrest_v)
    (by rw [hv.templates_eq, hv.braces_eq]; rfl)
  let w : Scan := { v with braces := v.braces - 1, templates := v.templates.tail }
  obtain ⟨u, x, hx, hlead, hkeeps⟩ := hmore (s := w) hrest_v
  refine ⟨u, t, hchunk, ?_, ?_⟩
  · exact Relation.ReflTransGen.trans hv.leads (.head (hresume.trans hx) hlead)
  · refine ⟨?_, ?_, ?_, ?_, ?_, ?_⟩
    · have := (hfront.trans hv.between).trans hkeeps.between
      simpa [TemplateBody.text] using this
    · exact hkeeps.openers_eq.trans hv.openers_eq
    · refine hkeeps.braces_eq.trans ?_
      simp [w, hv.braces_eq, t, token]
    · refine hkeeps.templates_eq.trans ?_
      simp [w, hv.templates_eq, t, token]
    · exact hkeeps.imports_eq.trans hv.imports_eq
    · exact hkeeps.exports_eq.trans hv.exports_eq

mutual

/-- Every operand is passed over: induction on its form. -/
theorem passesOperand : ∀ e : Operand, PassesOperand e
  | .name name => fun _ _ hrest hend _ => exists_restores_name name hrest hend
  | .string _ hquote _ hcontent => fun _ _ hrest _ _ =>
      exists_restores_string hquote hcontent hrest
  | .template body => fun _ _ hrest _ _ =>
      have ⟨u, hu⟩ := passesBody body hrest
      ⟨u, hu.restores (peek?_of_rest hrest)⟩
  | .parens before inner after => (passesOperand inner).parens before after
  | .object opening key colon before value after =>
      (passesOperand value).object opening key colon before after

theorem passesBody : ∀ body : TemplateBody, PassesBody body
  | .last _ hcontent => passesBody_last hcontent
  | .substitution _ hcontent before operand after more =>
      .substitution hcontent (passesOperand operand) (passesBody more) before after

end

/-- **A complete template leaves the scan as it was.** In every state in front of its first backtick
the scan passes over the template and nothing else, finds nothing in it, meets no fault, and comes
to a state in which the same brackets, braces and substitutions are open. -/
theorem template_restores (body : TemplateBody) (s : Scan) (rest : List Char)
    (hrest : s.cursor.rest = '\x60' :: (body.text ++ rest)) :
    ∃ u, Leads s u ∧ s.cursor.Between ('\x60' :: body.text) u.cursor ∧ u.cursor.rest = rest ∧
      u.imports = s.imports ∧ u.exports = s.exports ∧ u.braces = s.braces ∧
      u.templates = s.templates ∧ u.openers = s.openers ∧ s.run = u.run := by
  obtain ⟨u, hu⟩ := passesBody body hrest
  have hrestores := hu.restores (peek?_of_rest hrest)
  exact ⟨u, hrestores.leads, hrestores.between, hrestores.rest_eq hrest, hrestores.imports_eq,
    hrestores.exports_eq, hrestores.braces_eq, hrestores.templates_eq, hrestores.openers_eq,
    hrestores.leads.run_eq⟩

/-- A template with an object in a substitution, and a template in that. -/
def nestedBody : TemplateBody :=
  .substitution "a".toList (.char (by decide) (by decide) (by decide) .nil) []
    (.object oneSpace importWord [] oneSpace
      (.parens [] (.template (.substitution [] .nil [] (.name ⟨fromWord, by decide, by decide⟩) []
        (.last [] .nil))) []) [])
    [] (.last [] .nil)

/-- Within two braces and a substitution. -/
theorem template_restores_nested :
    "\x60a$\x7b\x7b import: (\x60$\x7bfrom\x7d\x60)\x7d\x7d\x60;".toList =
      '\x60' :: (nestedBody.text ++ [';']) ∧
    ∃ u, Leads { start ('\x60' :: (nestedBody.text ++ [';'])) with
      braces := 2, templates := [2] } u ∧
      u.cursor.rest = [';'] ∧ u.braces = 2 ∧ u.templates = [2] := by
  obtain ⟨u, hlead, -, hrest, -, -, hbraces, htemplates, -⟩ := template_restores nestedBody
    { start ('\x60' :: (nestedBody.text ++ [';'])) with braces := 2, templates := [2] } [';'] rfl
  exact ⟨by decide, u, hlead, hrest, hbraces, htemplates⟩

end Scan

end ImportAtlas.Source

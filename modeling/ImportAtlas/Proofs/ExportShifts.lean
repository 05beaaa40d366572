import ImportAtlas.Proofs.Shifts
import ImportAtlas.Proofs.Declarations

/-!
# Exports behind other text

What stands in front of a source does not matter to what an export statement is read as, its look
aheads for names and for the ends of initializers included.

## Main results

* `initializerEnd?_later`, `declaredNames_later`: the look ahead at a declaration.
* `exportStatement_later`: export statements are read alike.
-/

namespace ImportAtlas.Source

variable {w : Past} {c d : Cursor}

/-! ### Declarations -/

/-- The search for the end of an initializer, one sign on. -/
theorem initializerEnd?_eq (depth : Nat) (last : Past) (c : Cursor) : initializerEnd? depth last c =
    if c.rest = [] then none
    else
      let ch := c.peek?.getD ' '
      let d := c.advance 1
      if ch == '(' || ch == '[' || ch == '\x7b' then initializerEnd? (depth + 1) d.past d
      else if ch == ')' || ch == ']' || ch == '\x7d' then
        if depth = 0 then none else initializerEnd? (depth - 1) d.past d
      else if isQuote ch then
        match c.skipString with
        | .ok e => initializerEnd? depth e.past e
        | .error _ => none
      else if ch == '\x60' then
        match c.skipPlainTemplate? with
        | some e => initializerEnd? depth e.past e
        | none => none
      else if startsComment c.rest then
        match c.skipTrivia with
        | .ok e => initializerEnd? depth last e
        | .error _ => none
      else if ch == '/' && expectsOperand last then
        match c.skipRegex with
        | .ok e => initializerEnd? depth e.past e
        | .error _ => none
      else if depth = 0 && ch == ',' then some c
      else if depth = 0 && ch == ';' then none
      else if depth = 0 && isLineBreak ch then
        match c.skipTrivia with
        | .ok e => if e.peek?.any isPunctuator then initializerEnd? depth last d else none
        | .error _ => none
      else initializerEnd? depth (if isSpace ch then last else d.past) d := by
  rw [initializerEnd?]
  by_cases hc : c.rest = []
  · rw [dif_pos hc, if_pos hc]
  rw [dif_neg hc, if_neg hc]
  refine ite_congr rfl (fun _ => rfl) fun _ => ite_congr rfl (fun _ => rfl) fun _ =>
    ite_congr rfl (fun _ => ?_) fun _ => ite_congr rfl (fun _ => ?_) fun _ =>
    ite_congr rfl (fun _ => ?_) fun _ => ite_congr rfl (fun _ => ?_) fun _ => rfl
  all_goals split <;> rename_i h <;> rw [h]

theorem past_advance_ne_nil {n : Nat} (hc : c.rest ≠ []) : (c.advance (n + 1)).past ≠ [] := by
  obtain ⟨ch, rest, hrest⟩ := List.exists_cons_of_ne_nil hc
  simp [Cursor.advance, hrest]

theorem initializerEnd?_later (hw : Bounded w) (depth : Nat) {last : Past} (hlast : last ≠ []) :
    initializerEnd? depth (last ++ w) (c.later w) =
      (initializerEnd? depth last c).map (.later w) := by
  induction hn : c.size using Nat.strong_induction_on generalizing depth last c with
  | _ n ih =>
      -- The search goes on from a place that is nearer to the end, whatever it has passed over.
      have hrec (depth : Nat) {last : Past} (hlast : last ≠ []) {d : Cursor} (h : d.size < c.size) :
          initializerEnd? depth (last ++ w) (d.later w) =
            (initializerEnd? depth last d).map (.later w) :=
        ih _ (hn ▸ h) depth hlast rfl
      rw [initializerEnd?_eq depth (last ++ w), initializerEnd?_eq depth last c]
      by_cases hc : c.rest = []
      · rw [if_pos hc, if_pos (show (c.later w).rest = [] from hc)]
        rfl
      rw [if_neg hc, if_neg (show ¬ (c.later w).rest = [] from hc)]
      have hone := Cursor.size_advance_lt Nat.one_pos hc
      have hpast := past_advance_ne_nil (n := 0) hc
      simp only [Cursor.later_advance, Cursor.later_past, Cursor.later_skipString,
        Cursor.later_skipPlainTemplate?, Cursor.later_skipTrivia, Cursor.later_skipRegex,
        expectsOperand_append hw hlast, Cursor.later_peek?, Cursor.later_rest]
      refine Scan.ite_eq_apply _ (hrec _ hpast hone) (Scan.ite_eq_apply _ ?closer
        (Scan.ite_eq_apply _ ?string (Scan.ite_eq_apply _ ?template ?other)))
      case closer => exact Scan.ite_eq_apply _ rfl (hrec _ hpast hone)
      case string =>
        cases hs : c.skipString with
        | error f => rfl
        | ok e =>
            obtain ⟨m, rfl, -⟩ := Cursor.skipString_eq_advance hs
            exact hrec _ (past_advance_ne_nil hc) (Cursor.size_skipString_lt hs)
      case template =>
        cases ht : c.skipPlainTemplate? with
        | none => rfl
        | some e =>
            obtain ⟨m, rfl⟩ := Cursor.skipPlainTemplate?_eq_advance ht
            exact hrec _ (past_advance_ne_nil hc) (Cursor.size_advance_lt (Nat.succ_pos _) hc)
      by_cases hcomment : startsComment c.rest = true
      · simp only [if_pos hcomment]
        cases ht : c.skipTrivia with
        | error f => rfl
        | ok e => exact hrec _ hlast (Cursor.size_skipTrivia_lt hcomment ht)
      simp only [if_neg hcomment]
      refine Scan.ite_eq_apply _ ?regex (Scan.ite_eq_apply _ rfl (Scan.ite_eq_apply _ rfl
        (Scan.ite_eq_apply _ ?lineEnd ?char)))
      case regex =>
        cases hr : c.skipRegex with
        | error f => rfl
        | ok e =>
            obtain ⟨m, rfl⟩ := Cursor.skipRegex_eq_advance hr
            exact hrec _ (past_advance_ne_nil hc) (Cursor.size_advance_lt (Nat.succ_pos _) hc)
      case lineEnd =>
        cases c.skipTrivia with
        | error f => rfl
        | ok e => exact Scan.ite_eq_apply _ (hrec _ hlast hone) rfl
      case char =>
        -- The last sign is the same, on the same text, whether it is white space or not.
        have hif : (if isSpace (c.peek?.getD ' ') = true then last ++ w
            else (c.advance 1).past ++ w) =
            (if isSpace (c.peek?.getD ' ') = true then last else (c.advance 1).past) ++ w :=
          Scan.ite_eq_apply (· ++ w) rfl rfl
        rw [hif]
        exact hrec _ (by split <;> assumption) hone

theorem commaFrom_later (hw : Bounded w) :
    commaFrom (c.later w) = (commaFrom c).map (.later w) := by
  unfold commaFrom
  by_cases hc : c.peek? = some '='
  · have hrest : c.rest ≠ [] := by
      rintro hrest
      simp [Cursor.peek?, hrest] at hc
    rw [if_pos hc, if_pos (show (c.later w).peek? = some '=' from hc), Cursor.later_advance,
      Cursor.later_past, initializerEnd?_later hw 0 (past_advance_ne_nil hrest)]
  · rw [if_neg hc, if_neg (show ¬ (c.later w).peek? = some '=' from hc)]
    rfl

theorem size_commaFrom_le (h : commaFrom c = some d) : d.size ≤ c.size := by
  unfold commaFrom at h
  split at h
  · exact Nat.le_trans (initializerEnd?_size_le h) (by simp)
  · exact Option.some.inj h ▸ Nat.le_refl _

/-- The look ahead for declared names, one name on. -/
theorem declaredNames_eq (c : Cursor) : declaredNames c =
    match c.skipTrivia with
    | .error f => ([], some f)
    | .ok d =>
      if d.identifier = [] then ([], none)
      else match (d.advance d.identifier.length).skipTrivia with
        | .error f => ([String.ofList d.identifier], some f)
        | .ok e => namesFrom (String.ofList d.identifier) (commaFrom e) := by
  cases hd : c.skipTrivia with
  | error f =>
      rw [declaredNames]
      split <;> simp_all
  | ok d =>
      by_cases hid : d.identifier = []
      · rw [declaredNames]
        split <;> simp_all
      · simp only [if_neg hid]
        cases he : (d.advance d.identifier.length).skipTrivia with
        | error f =>
            rw [declaredNames]
            split
            · simp_all
            rename_i d' hd'
            obtain rfl := Except.ok.inj (hd.symm.trans hd')
            rw [dif_neg hid]
            dsimp only
            split <;> simp_all
        | ok e => exact declaredNames_of_skipTrivia hd hid he

/-- Names and a fault, with some text in front of the source. -/
def laterNames (w : Past) (names : List String × Option SyntaxFault) :
    List String × Option SyntaxFault :=
  (names.1, names.2.map (.later w.length))

theorem declaredNames_later (hw : Bounded w) :
    declaredNames (c.later w) = laterNames w (declaredNames c) := by
  induction hn : c.size using Nat.strong_induction_on generalizing c with
  | _ n ih =>
      rw [declaredNames_eq (c.later w), declaredNames_eq c, Cursor.later_skipTrivia]
      cases hd : c.skipTrivia with
      | error f => rfl
      | ok d =>
          simp only [lateOutcome_ok, Cursor.later_identifier, Cursor.later_advance,
            Cursor.later_skipTrivia]
          by_cases hid : d.identifier = []
          · simp only [if_pos hid]
            rfl
          simp only [if_neg hid]
          cases he : (d.advance d.identifier.length).skipTrivia with
          | error f => rfl
          | ok e =>
              simp only [lateOutcome_ok, commaFrom_later hw]
              cases hcomma : commaFrom e with
              | none => rfl
              | some comma =>
                  have hlt := Cursor.size_advance_identifier_lt hid
                  have hle := Cursor.size_skipTrivia_le hd
                  have hle' := Cursor.size_skipTrivia_le he
                  have hle'' := size_commaFrom_le hcomma
                  have hrec : declaredNames ((comma.advance 1).later w) =
                      laterNames w (declaredNames (comma.advance 1)) :=
                    ih _ (by simp only [Cursor.size_advance]; omega) rfl
                  refine Scan.ite_eq_apply _ ?_ rfl
                  rw [Cursor.later_advance, hrec]
                  rfl

/-! ### Lists -/

/-- A name and the place behind it, with some text in front of the source. -/
def laterName (w : Past) (named : String × Cursor) : String × Cursor := (named.1, named.2.later w)

theorem exportName_later :
    exportName (c.later w) = lateOutcome w (laterName w) (exportName c) := by
  unfold exportName
  refine Scan.ite_eq_apply _ ?_ (Scan.ite_eq_apply _ ?_ ?_)
  · rw [Cursor.later_skipString]
    cases c.skipString with
    | error f => rfl
    | ok d => simp [Except.map, laterName, Nat.add_sub_add_right]
  · rw [Cursor.later_fault]
    rfl
  · simp [laterName]

theorem renamedExport_later :
    renamedExport (c.later w) = lateOutcome w (laterName w) (renamedExport c) := by
  unfold renamedExport
  rw [exportName_later]
  rcases exportName c with f | ⟨name, d⟩
  · rfl
  simp only [lateOutcome_ok, laterName, Cursor.later_skipTrivia]
  cases d.skipTrivia with
  | error f => rfl
  | ok e =>
      simp only [lateOutcome_ok, Cursor.later_advance, Cursor.later_skipTrivia]
      refine Scan.ite_eq_apply _ ?_ rfl
      cases (e.advance 2).skipTrivia with
      | error f => rfl
      | ok e =>
          simp only [lateOutcome_ok, exportName_later]
          rcases exportName e with f | ⟨renamed, g⟩
          · rfl
          simp only [lateOutcome_ok, laterName, Cursor.later_skipTrivia]
          cases g.skipTrivia <;> rfl

/-- The names of a list, one name on. -/
theorem exportedNames_eq (c : Cursor) : exportedNames c =
    if c.peek? = some '\x7d' then ([], .ok c)
    else match renamedExport c with
      | .error f => ([], .error f)
      | .ok (name, d) =>
        if d.peek? = some ',' then
          match (d.advance 1).skipTrivia with
          | .error f => ([name], .error f)
          | .ok e => (name :: (exportedNames e).1, (exportedNames e).2)
        else if d.peek? = some '\x7d' then ([name], .ok d)
        else ([name], .error (d.fault .unexpectedInExports)) := by
  rw [exportedNames]
  refine ite_congr rfl (fun _ => rfl) fun _ => ?_
  split
  · rename_i f hf
    rw [hf]
  · rename_i name d hd
    rw [hd]
    refine ite_congr rfl (fun _ => ?_) fun _ => rfl
    split <;> rename_i h <;> rw [h]

/-- The names of a list and the place behind them, with some text in front of the source. -/
def laterList (w : Past) (list : List String × Except SyntaxFault Cursor) :
    List String × Except SyntaxFault Cursor :=
  (list.1, lateOutcome w (.later w) list.2)

theorem exportedNames_later : exportedNames (c.later w) = laterList w (exportedNames c) := by
  induction hn : c.size using Nat.strong_induction_on generalizing c with
  | _ n ih =>
      rw [exportedNames_eq (c.later w), exportedNames_eq c]
      refine Scan.ite_eq_apply _ rfl ?_
      rw [renamedExport_later]
      cases hd : renamedExport c with
      | error f => rfl
      | ok named =>
          obtain ⟨name, d⟩ := named
          simp only [lateOutcome_ok, laterName, Cursor.later_advance, Cursor.later_skipTrivia]
          refine Scan.ite_eq_apply _ ?_ (Scan.ite_eq_apply _ rfl ?_)
          · cases he : (d.advance 1).skipTrivia with
            | error f => rfl
            | ok e =>
                have hlt := size_renamedExport_lt hd
                have hle := Cursor.size_skipTrivia_le he
                have hrec : exportedNames (e.later w) = laterList w (exportedNames e) := by
                  refine ih _ ?_ rfl
                  simp only [Cursor.size_advance] at hle
                  omega
                simp only [lateOutcome_ok, hrec]
                rfl
          · rw [Cursor.later_fault]
            rfl

/-! ### Statements -/

theorem exportsFrom_later (names : List String) (next c : Cursor) :
    exportsFrom names (next.later w) (c.later w) = (exportsFrom names next c).later w := by
  unfold exportsFrom
  refine Scan.ite_eq_apply _ ?_ rfl
  rw [Cursor.later_advance, Cursor.later_skipTrivia]
  cases (c.advance 4).skipTrivia with
  | error f => rfl
  | ok d =>
      simp only [lateOutcome_ok, sourceString_later]
      rcases sourceString d with f | ⟨record, e⟩ <;> rfl

theorem exportList_later : exportList (c.later w) = (exportList c).later w := by
  unfold exportList
  rw [Cursor.later_advance, Cursor.later_skipTrivia]
  cases (c.advance 1).skipTrivia with
  | error f => rfl
  | ok d =>
      simp only [lateOutcome_ok, exportedNames_later]
      rcases exportedNames d with ⟨names, f | close⟩
      · rfl
      simp only [laterList, lateOutcome_ok, Cursor.later_advance, Cursor.later_skipTrivia]
      cases (close.advance 1).skipTrivia with
      | error f => rfl
      | ok e => exact exportsFrom_later names (close.advance 1) e

theorem exportStar_later : exportStar (c.later w) = (exportStar c).later w := by
  unfold exportStar
  rw [Cursor.later_advance, Cursor.later_skipTrivia]
  cases (c.advance 1).skipTrivia with
  | error f => rfl
  | ok d =>
      simp only [lateOutcome_ok, Cursor.later_advance, Cursor.later_skipTrivia]
      refine Scan.ite_eq_apply _ ?_ (exportsFrom_later [] d d)
      cases (d.advance 2).skipTrivia with
      | error f => rfl
      | ok e =>
          simp only [lateOutcome_ok, exportName_later]
          rcases exportName e with f | ⟨name, g⟩
          · rfl
          simp only [lateOutcome_ok, laterName, Cursor.later_skipTrivia]
          cases g.skipTrivia with
          | error f => rfl
          | ok k => exact exportsFrom_later [name] k k

theorem exportDeclared_later : exportDeclared (c.later w) = (exportDeclared c).later w := by
  unfold exportDeclared
  refine Scan.ite_eq_apply _ rfl ?_
  rw [Cursor.later_advance]
  rfl

theorem exportedItem_later (hw : Bounded w) (start first : Cursor) :
    exportedItem (start.later w) (first.later w) (c.later w) =
      (exportedItem start first c).later w := by
  unfold exportedItem
  simp only [Cursor.later_advance, Cursor.later_skipTrivia, Cursor.later_identifier,
    Cursor.later_peek?, declaredNames_later hw, exportList_later, exportStar_later]
  refine Scan.ite_eq_apply _ ?_ (Scan.ite_eq_apply _ ?_ (Scan.ite_eq_apply _ ?_
    (Scan.ite_eq_apply _ rfl (Scan.ite_eq_apply _ rfl rfl))))
  · cases (c.advance 8).skipTrivia with
    | error f => rfl
    | ok d =>
        simp only [lateOutcome_ok, Cursor.later_advance, Cursor.later_skipTrivia]
        refine Scan.ite_eq_apply _ ?_ exportDeclared_later
        cases (d.advance 1).skipTrivia with
        | error f => rfl
        | ok e => exact exportDeclared_later
  · cases (c.advance 5).skipTrivia with
    | error f => rfl
    | ok d => exact exportDeclared_later
  · rcases declaredNames (c.advance c.identifier.length) with ⟨names, _ | f⟩ <;> rfl

theorem exportStatement_later (hw : Bounded w) (bracketed : Bool) :
    exportStatement bracketed (c.later w) = (exportStatement bracketed c).later w := by
  unfold exportStatement
  rw [Cursor.later_atKeyword hw]
  simp only [Cursor.later_advance, Cursor.later_skipTrivia]
  refine Scan.ite_eq_apply _ rfl ?_
  cases (c.advance 6).skipTrivia with
  | error f => rfl
  | ok d =>
      simp only [lateOutcome_ok, Cursor.later_advance, Cursor.later_skipTrivia,
        Cursor.later_identifier]
      refine Scan.ite_eq_apply _ rfl (Scan.ite_eq_apply _ ?_ (exportedItem_later hw c d))
      cases (d.advance 5).skipTrivia with
      | error f => rfl
      | ok e => exact exportedItem_later hw c d

end ImportAtlas.Source

import ImportAtlas.Source.Export

/-!
# Progress of statements

Reading a statement never moves back, and at a character it always moves on. This is what makes
the scan of a source end.

## Main results

* `size_importStatement_lt`, `size_exportStatement_lt`: the place after a statement is further on.
-/

namespace ImportAtlas.Source

theorem size_staticImport_le {c d : Cursor} {r : ImportRecord}
    (h : staticImport c = .ok (r, d)) : d.size ≤ c.size := by
  obtain ⟨e, he, heq⟩ := exists_of_map_eq_ok h
  have : e = d := congrArg Prod.snd heq
  exact this ▸ Nat.le_of_lt (Cursor.size_skipString_lt he)

theorem size_sourceString_le {c d : Cursor} {r : ImportRecord}
    (h : sourceString c = .ok (r, d)) : d.size ≤ c.size := by
  fun_induction sourceString c with
  | case1 => simp at h
  | case2 => exact size_staticImport_le h
  | case3 c _ _ _ e he ih => exact Nat.le_trans (ih h) (Cursor.size_skipTrivia_le he)
  | case4 => simp at h
  | case5 c _ _ _ ih => exact Nat.le_trans (ih h) (by simp)

theorem size_importClause_le {c d : Cursor} (h : importClause c = .ok d) : d.size ≤ c.size := by
  fun_induction importClause c with
  | case1 => simp at h
  | case2 => simp at h
  | case3 => simp at h
  | case4 => simp at h
  | case5 c _ e he _ _ f hf ih =>
    have := Cursor.size_skipTrivia_le he
    have := Cursor.size_skipString_lt hf
    have := ih h
    omega
  | case6 c _ e he _ _ _ ih =>
    have := Cursor.size_skipTrivia_le he
    have := ih h
    simp only [Cursor.size_advance] at this
    omega
  | case7 => simp at h
  | case8 c _ e he _ _ hw f _ specifier hs hq =>
    have := Cursor.size_skipTrivia_le he
    have h2 := Cursor.size_skipTrivia_le hs
    have : specifier = d := by simpa using h
    simp only [f, Cursor.size_advance] at h2
    subst this
    omega
  | case9 c _ e he _ _ hw f _ specifier hs hq ih =>
    have := Cursor.size_skipTrivia_le he
    have := ih h
    simp only [f, Cursor.size_advance] at this
    omega
  | case10 c _ e he _ _ hw f _ ih =>
    have := Cursor.size_skipTrivia_le he
    have := ih h
    simp only [f, Cursor.size_advance] at this
    omega

theorem rest_ne_nil_of_atKeyword {word : List Char} {c : Cursor} (hw : word ≠ [])
    (h : c.atKeyword word = true) : c.rest ≠ [] := by
  intro hr
  simp only [Cursor.atKeyword, hr, Bool.and_eq_true] at h
  cases word with
  | nil => exact hw rfl
  | cons a l => simp at h

theorem size_importStatement_lt {bracketed : Bool} {c d : Cursor} (hc : c.rest ≠ [])
    (h : (importStatement bracketed c).next = .ok d) : d.size < c.size := by
  have h6 : (c.advance 6).size < c.size := Cursor.size_advance_lt (by omega) hc
  unfold importStatement at h
  split at h
  · have : c.advance 1 = d := Except.ok.inj h
    exact this ▸ Cursor.size_advance_lt Nat.one_pos hc
  split at h
  · simp [Statement.plain] at h
  rename_i e he
  have h1 := Cursor.size_skipTrivia_le he
  split at h
  · have : e.advance 1 = d := Except.ok.inj h
    subst this
    simp only [Cursor.size_advance] at *
    omega
  split at h
  · split at h
    · simp [Statement.plain] at h
    rename_i f hf
    have h2 := Cursor.size_skipTrivia_le hf
    split at h
    · have : f.advance 4 = d := Except.ok.inj h
      subst this
      simp only [Cursor.size_advance] at *
      omega
    · have : e.advance 1 = d := Except.ok.inj h
      subst this
      simp only [Cursor.size_advance] at *
      omega
  split at h
  · have : c.advance 6 = d := Except.ok.inj h
    exact this ▸ h6
  split at h
  · simp [Statement.plain] at h
  rename_i specifier hs
  have h2 : specifier.size ≤ e.size := by
    split at hs
    · have : e = specifier := Except.ok.inj hs
      exact this ▸ Nat.le_refl _
    · exact size_importClause_le hs
  split at h
  · simp [Statement.plain] at h
  rename_i hf
  have h3 := size_sourceString_le hf
  have : _ = d := Except.ok.inj h
  subst this
  omega

theorem size_exportsFrom_le {names : List String} {next c d : Cursor} (hn : c.size ≤ next.size)
    (h : (exportsFrom names next c).next = .ok d) : d.size ≤ next.size := by
  unfold exportsFrom at h
  split at h
  · split at h
    · simp at h
    rename_i e he
    have h1 := Cursor.size_skipTrivia_le he
    simp only [Cursor.size_advance] at h1
    split at h
    · simp at h
    rename_i hf
    have h2 := size_sourceString_le hf
    have : _ = d := Except.ok.inj h
    subst this
    omega
  · have : next = d := Except.ok.inj h
    exact this ▸ Nat.le_refl _

theorem size_exportedNames_le {c d : Cursor} (h : (exportedNames c).2 = .ok d) :
    d.size ≤ c.size := by
  fun_induction exportedNames c with
  | case1 =>
    have : _ = d := Except.ok.inj h
    exact this ▸ Nat.le_refl _
  | case2 => simp at h
  | case3 => simp at h
  | case4 c _ name e hr _ f hf names close hn ih =>
    have h1 := size_renamedExport_lt hr
    have h2 := Cursor.size_skipTrivia_le hf
    simp only [Cursor.size_advance] at h2
    have := ih (by rw [hn]; exact h)
    omega
  | case5 c _ name e hr _ _ =>
    have : e = d := Except.ok.inj h
    exact this ▸ Nat.le_of_lt (size_renamedExport_lt hr)
  | case6 => simp at h

theorem size_exportList_le {c d : Cursor} (h : (exportList c).next = .ok d) :
    d.size ≤ c.size := by
  unfold exportList at h
  split at h
  · simp [Statement.plain] at h
  rename_i e he
  have h1 := Cursor.size_skipTrivia_le he
  simp only [Cursor.size_advance] at h1
  split at h
  · simp at h
  rename_i close hn
  have h2 : close.size ≤ e.size := size_exportedNames_le (by rw [hn])
  split at h
  · simp at h
  rename_i f hf
  have h3 := Cursor.size_skipTrivia_le hf
  have h4 := size_exportsFrom_le h3 h
  simp only [Cursor.size_advance] at h4
  omega

theorem size_exportStar_le {c d : Cursor} (h : (exportStar c).next = .ok d) :
    d.size ≤ c.size := by
  unfold exportStar at h
  split at h
  · simp [Statement.plain] at h
  rename_i e he
  have h1 := Cursor.size_skipTrivia_le he
  simp only [Cursor.size_advance] at h1
  split at h
  · split at h
    · simp [Statement.plain] at h
    rename_i f hf
    have h2 := Cursor.size_skipTrivia_le hf
    simp only [Cursor.size_advance] at h2
    split at h
    · simp [Statement.plain] at h
    rename_i g hg
    have h3 := size_exportName_lt hg
    split at h
    · simp at h
    rename_i k hk
    have h4 := Cursor.size_skipTrivia_le hk
    have h5 := size_exportsFrom_le (Nat.le_refl _) h
    omega
  · have h5 := size_exportsFrom_le (Nat.le_refl _) h
    omega

theorem size_exportDeclared_le {c d : Cursor} (h : (exportDeclared c).next = .ok d) :
    d.size ≤ c.size := by
  unfold exportDeclared at h
  split at h
  · have : c = d := Except.ok.inj h
    exact this ▸ Nat.le_refl _
  · have : _ = d := Except.ok.inj h
    exact this ▸ by simp

theorem size_exportedItem_lt {start first c d : Cursor} (hs : start.rest ≠ [])
    (hc : c.size < start.size) (h : (exportedItem start first c).next = .ok d) :
    d.size < start.size := by
  unfold exportedItem at h
  simp only at h
  split at h
  · split at h
    · simp [Statement.plain] at h
    rename_i e he
    have h1 := Cursor.size_skipTrivia_le he
    simp only [Cursor.size_advance] at h1
    split at h
    · split at h
      · simp [Statement.plain] at h
      rename_i f hf
      have h2 := Cursor.size_skipTrivia_le hf
      simp only [Cursor.size_advance] at h2
      have h3 := size_exportDeclared_le h
      omega
    · have h3 := size_exportDeclared_le h
      omega
  split at h
  · split at h
    · simp [Statement.plain] at h
    rename_i e he
    have h1 := Cursor.size_skipTrivia_le he
    simp only [Cursor.size_advance] at h1
    have h3 := size_exportDeclared_le h
    omega
  split at h
  · split at h
    · simp at h
    · have : _ = d := Except.ok.inj h
      subst this
      simp only [Cursor.size_advance]
      omega
  split at h
  · have := size_exportList_le h
    omega
  split at h
  · have := size_exportStar_le h
    omega
  · have : start.advance 6 = d := Except.ok.inj h
    exact this ▸ Cursor.size_advance_lt (by omega) hs

theorem size_exportStatement_lt {bracketed : Bool} {c d : Cursor} (hc : c.rest ≠ [])
    (h : (exportStatement bracketed c).next = .ok d) : d.size < c.size := by
  have h6 : (c.advance 6).size < c.size := Cursor.size_advance_lt (by omega) hc
  unfold exportStatement at h
  split at h
  · have : c.advance 1 = d := Except.ok.inj h
    exact this ▸ Cursor.size_advance_lt Nat.one_pos hc
  split at h
  · simp [Statement.plain] at h
  rename_i e he
  have h1 := Cursor.size_skipTrivia_le he
  split at h
  · have : e.advance 7 = d := Except.ok.inj h
    subst this
    simp only [Cursor.size_advance] at *
    omega
  split at h
  · split at h
    · simp [Statement.plain] at h
    rename_i f hf
    have h2 := Cursor.size_skipTrivia_le hf
    simp only [Cursor.size_advance] at h2
    exact size_exportedItem_lt hc (by omega) h
  · exact size_exportedItem_lt hc (by omega) h

end ImportAtlas.Source

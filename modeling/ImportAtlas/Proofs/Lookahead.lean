import Mathlib.Logic.Relation
import Mathlib.Logic.Function.Basic
import ImportAtlas.Proofs.Additions

/-!
# The look ahead in the analysis of a module

The scan looks ahead for names at the keyword of an exported declaration, and scans the names and
values themselves afterwards. The look ahead changes the exports and nothing else, unless it meets a
fault.

## Summary

* `Scan.declaration?` is the place behind the keyword of the exported declaration that comes next.
* `Scan.stepWith` reads one token, taking the names of declarations from a given function;
  `Scan.Reaches` and `Scan.Ends` are its runs, and `Scan.Finishes` is what they add.

## Main results

* `Scan.stepWith_declaredNames`, `Scan.Ends.run_eq`: with the look ahead this is the scan.
* `Scan.stepWith_prepend`: what has been exported before does not matter to a step.
* `Scan.Ends.exists_finishes`: a run without fault is a run of every look ahead that meets no fault
  either; `Scan.Finishes.of_declaration` is what a declaration adds.
-/

namespace ImportAtlas.Source

/-! ### Places of declarations -/

/-- The place behind a word that declares variables, if that comes next. -/
def behindKind? (c : Cursor) : Option Cursor :=
  let word := c.identifier
  if word = "var".toList || word = "let".toList || word = "const".toList then
    some (c.advance word.length)
  else none

/-- The place behind the keyword of the exported declaration that comes next. -/
def declarationPlace? (c : Cursor) : Option Cursor :=
  if c.atKeyword "export".toList then
    match (c.advance 6).skipTrivia with
    | .error _ => none
    | .ok d =>
      if d.identifier = "default".toList then none
      else if d.identifier = "async".toList then
        match (d.advance 5).skipTrivia with
        | .error _ => none
        | .ok e => behindKind? e
      else behindKind? d
  else none

/-- The statement that a declaration is, by its names. -/
def declarationStatement (names : List String × Option SyntaxFault) (next : Cursor) : Statement :=
  ⟨[], names.1, none, match names.2 with
    | none => .ok next
    | some fault => .error fault⟩

theorem exportedItem_of_behindKind? {start first c d : Cursor} (h : behindKind? c = some d) :
    exportedItem start first c = declarationStatement (declaredNames d) d := by
  simp only [behindKind?, Option.ite_none_right_eq_some, Option.some.injEq] at h
  obtain ⟨hkind, rfl⟩ := h
  have hfunction : c.identifier ≠ "function".toList := by
    intro hc
    rw [hc] at hkind
    exact absurd hkind (by decide)
  have hclass : c.identifier ≠ "class".toList := by
    intro hc
    rw [hc] at hkind
    exact absurd hkind (by decide)
  simp only [exportedItem, if_neg hfunction, if_neg hclass, hkind, if_true, declarationStatement]
  rcases declaredNames (c.advance c.identifier.length) with ⟨names, _ | fault⟩ <;> rfl

theorem exportStatement_of_declarationPlace? {c d : Cursor} (h : declarationPlace? c = some d) :
    exportStatement false c = declarationStatement (declaredNames d) d := by
  unfold declarationPlace? at h
  unfold exportStatement
  split at h
  · rename_i hkey
    rw [if_neg (by rw [hkey]; decide)]
    cases he : (c.advance 6).skipTrivia with
    | error fault => simp [he] at h
    | ok e =>
        simp only [he] at h ⊢
        split at h
        · cases h
        rename_i hdefault
        rw [if_neg hdefault]
        split at h
        · rename_i hasync
          rw [if_pos hasync]
          cases hf : (e.advance 5).skipTrivia with
          | error fault => simp [hf] at h
          | ok f =>
              simp only [hf] at h ⊢
              exact exportedItem_of_behindKind? h
        · rename_i hasync
          rw [if_neg hasync]
          exact exportedItem_of_behindKind? h
  · cases h

namespace Scan

/-- The place behind the keyword of the exported declaration that comes next, outside of
brackets. -/
def declaration? (s : Scan) : Option Cursor :=
  if s.openers = [] then declarationPlace? s.cursor else none

/-- Reads the next token, taking the names of declarations from a function. -/
def stepWith (names : Cursor → List String × Option SyntaxFault) (s : Scan) :
    Except Analysis Scan :=
  match s.declaration? with
  | some d => s.take (declarationStatement (names d) d)
  | none => s.step

/-- With the names of the look ahead this is the step of the scan. -/
theorem stepWith_declaredNames (s : Scan) : s.stepWith declaredNames = s.step := by
  unfold stepWith
  split
  · rename_i d hd
    simp only [declaration?, Option.ite_none_right_eq_some] at hd
    obtain ⟨htop, hplace⟩ := hd
    have hkey : s.cursor.atKeyword "export".toList = true := by
      by_contra hkey
      rw [declarationPlace?, if_neg hkey] at hplace
      cases hplace
    obtain ⟨rest, hrest⟩ : ∃ rest, s.cursor.rest = 'e' :: rest := by
      simp only [Cursor.atKeyword, Bool.and_eq_true] at hkey
      obtain ⟨more, hmore⟩ := List.isPrefixOf_iff_prefix.1 hkey.1.1
      exact ⟨_, hmore.symm⟩
    have hstep : s.step = s.take (exportStatement false s.cursor) := by
      rw [step_of_rest hrest, stepAt, hrest, htop]
      rfl
    rw [hstep, exportStatement_of_declarationPlace? hplace]
  · rfl

/-! ### What has been exported before -/

/-- The scan when some names have been exported before. -/
def prepend (found : List String) (s : Scan) : Scan := { s with exports := found ++ s.exports }

end Scan

/-- The analysis when some names have been exported before. -/
def Analysis.prepend (found : List String) (a : Analysis) : Analysis :=
  { a with exports := found ++ a.exports }

namespace Scan

/-- The outcome of a step when some names have been exported before. -/
def prependTo (found : List String) : Except Analysis Scan → Except Analysis Scan
  | .ok t => .ok (t.prepend found)
  | .error a => .error (a.prepend found)

variable (found : List String) (s : Scan)

/-- Like `apply_ite`, for a condition that is decided in two ways and branches that are known to be
images. -/
theorem ite_eq_apply {α β : Type} (f : α → β) {p : Prop} {i j : Decidable p} {x y : β} {x' y' : α}
    (hx : x = f x') (hy : y = f y') : @ite _ p i x y = f (@ite _ p j x' y') := by
  by_cases h : p
  · rw [if_pos h, if_pos h, hx]
  · rw [if_neg h, if_neg h, hy]

theorem prepend_finish : (s.prepend found).finish = s.finish.prepend found :=
  ite_eq_apply (Analysis.prepend found) rfl rfl

theorem prepend_moveTo (next : Except SyntaxFault Cursor) :
    (s.prepend found).moveTo next = prependTo found (s.moveTo next) := by
  cases next <;> rfl

theorem prepend_take (statement : Statement) :
    (s.prepend found).take statement = prependTo found (s.take statement) := by
  simp only [take, prepend, List.append_assoc]
  split <;> rfl

theorem prepend_closeBracket (c : Char) :
    (s.prepend found).closeBracket c = prependTo found (s.closeBracket c) := by
  simp only [closeBracket, prepend]
  split <;> rfl

theorem prepend_templateChunk :
    (s.prepend found).templateChunk = prependTo found s.templateChunk := by
  simp only [templateChunk, prepend]
  split <;> rfl

theorem prepend_closeBrace : (s.prepend found).closeBrace = prependTo found s.closeBrace :=
  ite_eq_apply (prependTo found)
    (prepend_templateChunk found { s with braces := s.braces - 1, templates := s.templates.tail })
    (ite_eq_apply (prependTo found) rfl
      (prepend_closeBracket found { s with braces := s.braces - 1 } '\x7d'))

theorem prepend_stepAt (c : Char) :
    (s.prepend found).stepAt c = prependTo found (s.stepAt c) := by
  unfold stepAt
  refine ite_eq_apply (prependTo found) ?_ ?_
  · simp only [prepend]
    split <;> rfl
  refine ite_eq_apply (prependTo found)
    (ite_eq_apply (prependTo found) (prepend_moveTo found s _) (prepend_moveTo found s _)) ?_
  refine ite_eq_apply (prependTo found) rfl (ite_eq_apply (prependTo found) rfl ?_)
  refine ite_eq_apply (prependTo found) (prepend_closeBrace found s) ?_
  refine ite_eq_apply (prependTo found) (prepend_closeBracket found s _) ?_
  refine ite_eq_apply (prependTo found) (prepend_moveTo found s _) ?_
  refine ite_eq_apply (prependTo found) (prepend_templateChunk found s) ?_
  refine ite_eq_apply (prependTo found) (prepend_take found s _) ?_
  exact ite_eq_apply (prependTo found) (prepend_take found s _) (prepend_moveTo found s _)

/-- What has been exported before does not matter to a step of the scan. -/
theorem prepend_step : (s.prepend found).step = prependTo found s.step := by
  rcases hrest : s.cursor.rest with _ | ⟨c, rest⟩
  · have hstep : s.step = .error s.finish := by rw [step, hrest]
    have hstep' : (s.prepend found).step = .error (s.prepend found).finish := by
      rw [step, show (s.prepend found).cursor = s.cursor from rfl, hrest]
    rw [hstep, hstep', prepend_finish]
    rfl
  · rw [step_of_rest hrest, step_of_rest (s := s.prepend found) hrest, prepend_stepAt]

variable (names : Cursor → List String × Option SyntaxFault)

theorem stepWith_prepend :
    (s.prepend found).stepWith names = prependTo found (s.stepWith names) := by
  have hplace : (s.prepend found).declaration? = s.declaration? := rfl
  unfold stepWith
  rw [hplace]
  split
  · exact prepend_take found s _
  · exact prepend_step found s

/-! ### Runs -/

/-- A state that is reached. -/
def Reaches : Scan → Scan → Prop := Relation.ReflTransGen fun s t => s.stepWith names = .ok t

/-- How a run ends. -/
inductive Ends : Scan → Analysis → Prop where
  | stop {s : Scan} {a : Analysis} (h : s.stepWith names = .error a) : Ends s a
  | step {s t : Scan} {a : Analysis} (h : s.stepWith names = .ok t) (tail : Ends t a) : Ends s a

variable {found s names}

/-- With the names of the look ahead this is the scan. -/
theorem Ends.run_eq {a : Analysis} (h : Ends declaredNames s a) : s.run = a := by
  induction h with
  | @stop s a h =>
      rw [stepWith_declaredNames] at h
      rw [run]
      split
      · rename_i t ht
        cases h.symm.trans ht
      · rename_i a' ha
        exact (Except.error.inj (h.symm.trans ha)).symm
  | step h _ ih =>
      rw [stepWith_declaredNames] at h
      rw [run_of_step h, ih]

theorem Ends.prepend {a : Analysis} (h : Ends names s a) (found : List String) :
    Ends names (s.prepend found) (a.prepend found) := by
  induction h with
  | stop h => exact .stop (by rw [stepWith_prepend, h]; rfl)
  | step h _ ih => exact .step (by rw [stepWith_prepend, h]; rfl) ih

theorem Ends.of_prepend {a : Analysis} (h : Ends names (s.prepend found) a) :
    ∃ b, Ends names s b ∧ a = b.prepend found := by
  generalize hs : s.prepend found = s' at h
  induction h generalizing s with
  | stop h =>
      rw [← hs, stepWith_prepend] at h
      cases hstep : s.stepWith names with
      | ok t => rw [hstep] at h; cases h
      | error b =>
          rw [hstep] at h
          exact ⟨b, .stop hstep, (Except.error.inj h).symm⟩
  | step h _ ih =>
      rw [← hs, stepWith_prepend] at h
      cases hstep : s.stepWith names with
      | ok t =>
          rw [hstep] at h
          obtain ⟨b, hb, heq⟩ := ih (Except.ok.inj h)
          exact ⟨b, .step hstep hb, heq⟩
      | error b => rw [hstep] at h; cases h

/-! ### Progress -/

theorem size_behindKind?_le {c d : Cursor} (h : behindKind? c = some d) : d.size ≤ c.size := by
  simp only [behindKind?, Option.ite_none_right_eq_some, Option.some.injEq] at h
  simp [← h.2]

theorem size_declaration?_lt {d : Cursor} (h : s.declaration? = some d) :
    d.size < s.cursor.size := by
  simp only [declaration?, declarationPlace?, Option.ite_none_right_eq_some] at h
  obtain ⟨-, hkey, h⟩ := h
  have hrest := rest_ne_nil_of_atKeyword (by decide) hkey
  have hsix := Cursor.size_advance_lt (n := 6) (by decide) hrest
  split at h
  · cases h
  rename_i e he
  have h1 := Cursor.size_skipTrivia_le he
  split at h
  · cases h
  split at h
  · split at h
    · cases h
    rename_i f hf
    have h2 := Cursor.size_skipTrivia_le hf
    have h3 := size_behindKind?_le h
    simp only [Cursor.size_advance] at *
    omega
  · have h3 := size_behindKind?_le h
    omega

theorem size_stepWith_lt {t : Scan} (h : s.stepWith names = .ok t) :
    t.cursor.size < s.cursor.size := by
  unfold stepWith at h
  split at h
  · rename_i d hd
    refine size_take_lt (fun e he => ?_) h
    have : e = d := by
      simp only [declarationStatement] at he
      split at he
      · exact (Except.ok.inj he).symm
      · cases he
    exact this ▸ size_declaration?_lt hd
  · exact size_step_lt h

theorem Reaches.size_le {t : Scan} (h : Reaches names s t) : t.cursor.size ≤ s.cursor.size := by
  induction h with
  | refl => exact Nat.le_refl _
  | tail _ hstep ih => exact Nat.le_trans (Nat.le_of_lt (size_stepWith_lt hstep)) ih

/-! ### What a run adds -/

/-- Whatever has been exported before, the rest of the scan adds names to it and ends without
fault. -/
def Finishes (names : Cursor → List String × Option SyntaxFault) (s : Scan)
    (imports : List ImportRecord) (added : List String) : Prop :=
  ∀ found, Ends names { s with exports := found } ⟨imports, found ++ added, none⟩

variable {t : Scan} {imports : List ImportRecord} {added exports : List String}

theorem prepend_exports (found : List String) (s : Scan) :
    ({ s with exports := [] } : Scan).prepend found = { s with exports := found } := by
  simp [prepend]

theorem Ends.finishes (h : Ends names s ⟨imports, exports, none⟩) :
    ∃ added, exports = s.exports ++ added ∧ Finishes names s imports added := by
  rw [show s = ({ s with exports := [] } : Scan).prepend s.exports from (prepend_exports _ s).symm]
    at h
  obtain ⟨b, hb, heq⟩ := h.of_prepend
  obtain ⟨rfl, rfl, hfault⟩ := Analysis.mk.inj heq
  refine ⟨b.exports, rfl, fun found => ?_⟩
  have hfound := hb.prepend found
  rw [prepend_exports] at hfound
  simpa only [Analysis.prepend, ← hfault] using hfound

theorem Finishes.ends (h : Finishes names s imports added) :
    Ends names s ⟨imports, s.exports ++ added, none⟩ := h s.exports

/-- What a step adds does not depend on what has been exported before. -/
theorem exists_exports_of_stepWith (h : s.stepWith names = .ok t) :
    ∃ new, ∀ found, ({ s with exports := found } : Scan).stepWith names =
      .ok { t with exports := found ++ new } := by
  have hs := prepend_exports s.exports s
  have hstep := stepWith_prepend s.exports { s with exports := [] } names
  rw [hs] at hstep
  cases h' : ({ s with exports := [] } : Scan).stepWith names with
  | error a =>
      rw [h'] at hstep
      cases h.symm.trans hstep
  | ok u =>
      rw [h'] at hstep
      obtain rfl := Except.ok.inj (h.symm.trans hstep)
      refine ⟨u.exports, fun found => ?_⟩
      rw [← prepend_exports, stepWith_prepend, h']
      rfl

theorem Finishes.of_step {new : List String}
    (h : ∀ found, ({ s with exports := found } : Scan).stepWith names =
      .ok { t with exports := found ++ new }) (ht : Finishes names t imports added) :
    Finishes names s imports (new ++ added) := by
  intro found
  refine .step (h found) ?_
  simpa using ht (found ++ new)

variable {bare names' : Cursor → List String × Option SyntaxFault} {d : Cursor}

/-- A declaration adds its names to what the scan adds behind its keyword. -/
theorem Finishes.of_declaration (h : s.stepWith bare = .ok t) (hd : s.declaration? = some d)
    (hfaultless : (names d).2 = none) (ht : Finishes names t imports added) :
    Finishes names s imports ((names d).1 ++ added) := by
  refine ht.of_step fun found => ?_
  have hfound : ({ s with exports := found } : Scan).declaration? = some d := hd
  simp only [stepWith, hd, take, declarationStatement] at h
  simp only [stepWith, hfound, take, declarationStatement, hfaultless]
  cases hfault : (bare d).2 with
  | some fault =>
      simp only [hfault] at h
      cases h
  | none =>
      simp only [hfault] at h
      rw [← Except.ok.inj h]
      rfl

/-- A step of one run is one of another: where a declaration begins, the other one takes its
names. -/
theorem exists_added_of_stepWith (h : s.stepWith bare = .ok t)
    (hfaultless : ∀ d, s.declaration? = some d → (names d).2 = none) :
    ∃ new, ∀ names', (∀ d, s.declaration? = some d → names' d = names d) →
      ∀ {imports added}, Finishes names' t imports added →
        Finishes names' s imports (new ++ added) := by
  cases hd : s.declaration? with
  | none =>
      obtain ⟨new, hnew⟩ := exists_exports_of_stepWith h
      refine ⟨new, fun names' _ _ _ ht => ht.of_step fun found => ?_⟩
      have hfound : ({ s with exports := found } : Scan).declaration? = none := hd
      rw [← hnew found]
      simp only [stepWith, hfound]
  | some d =>
      refine ⟨(names d).1, fun names' hnames _ _ ht => ?_⟩
      have hfault : (names' d).2 = none := by rw [hnames d rfl, hfaultless d hd]
      exact hnames d rfl ▸ ht.of_declaration h hd hfault

/-- A run without fault is one of another, if that takes names without fault. -/
theorem Ends.exists_finishes {a : Analysis} (h : Ends bare s a) (ha : a.fault? = none)
    (hfaultless : ∀ t d, Reaches bare s t → t.declaration? = some d → (names d).2 = none) :
    ∃ added, ∀ names', (∀ t d, Reaches bare s t → t.declaration? = some d → names' d = names d) →
      Finishes names' s a.imports added := by
  induction h with
  | @stop s a h =>
      have hd : s.declaration? = none := by
        by_contra hd
        obtain ⟨d, hd⟩ := Option.ne_none_iff_exists'.1 hd
        simp only [stepWith, hd, take] at h
        split at h
        · cases h
        · obtain rfl := Except.error.inj h
          cases ha
      obtain ⟨imports, exports, fault?⟩ := a
      obtain rfl : fault? = none := ha
      obtain ⟨added, hexports, -⟩ := (Ends.stop h).finishes
      refine ⟨added, fun names' _ => ?_⟩
      have hstop : s.stepWith names' = .error ⟨imports, exports, none⟩ := by
        simpa only [stepWith, hd] using h
      obtain ⟨added', hexports', hadded'⟩ := (Ends.stop hstop).finishes
      rwa [List.append_cancel_left (hexports.symm.trans hexports')]
  | @step s t a h _ ih =>
      obtain ⟨added, hadded⟩ := ih ha fun u d hu => hfaultless u d (.head h hu)
      obtain ⟨new, hnew⟩ := exists_added_of_stepWith h fun d => hfaultless s d .refl
      exact ⟨new ++ added, fun names' hnames => hnew names' (fun d => hnames s d .refl)
        (hadded names' fun u d hu => hnames u d (.head h hu))⟩

/-- The rest of a run. -/
theorem Ends.of_reaches {a : Analysis} (h : Ends bare s a) (ht : Reaches bare s t) :
    Ends bare t a := by
  induction ht with
  | refl => exact h
  | tail _ hstep ih =>
      cases ih with
      | stop hstop => cases hstep.symm.trans hstop
      | step hstep' htail => rwa [Except.ok.inj (hstep.symm.trans hstep')]

/-! ### Bounded runs -/

/-- The state after some steps, or how the run has ended before. -/
def outcome (names : Cursor → List String × Option SyntaxFault) : Nat → Scan → Except Analysis Scan
  | 0, s => .ok s
  | n + 1, s => (s.stepWith names).bind (outcome names n)

/-- The states of a run as far as some steps go. -/
def trail (names : Cursor → List String × Option SyntaxFault) : Nat → Scan → List Scan
  | 0, s => [s]
  | n + 1, s => s :: (match s.stepWith names with
    | .ok t => trail names n t
    | .error _ => [])

theorem Ends.of_outcome {a : Analysis} {n : Nat} (h : outcome names n s = .error a) :
    Ends names s a := by
  induction n generalizing s with
  | zero => cases h
  | succ n ih =>
      rw [outcome] at h
      cases hstep : s.stepWith names with
      | error b =>
          rw [hstep] at h
          exact .stop (hstep.trans h)
      | ok t =>
          rw [hstep] at h
          exact .step hstep (ih h)

/-- A run ends in one way. -/
theorem Ends.unique {a b : Analysis} (ha : Ends names s a) (hb : Ends names s b) : a = b := by
  induction ha with
  | stop h =>
      cases hb with
      | stop h' => exact Except.error.inj (h.symm.trans h')
      | step h' _ => cases h.symm.trans h'
  | step h _ ih =>
      cases hb with
      | stop h' => cases h.symm.trans h'
      | step h' htail => exact ih (Except.ok.inj (h.symm.trans h') ▸ htail)

/-- As many steps as there are characters are enough. -/
theorem Reaches.mem_trail {n : Nat} (h : Reaches names s t) (hn : s.cursor.size ≤ n) :
    t ∈ trail names n s := by
  induction h using Relation.ReflTransGen.head_induction_on generalizing n with
  | refl => cases n <;> simp [trail]
  | @head u v huv _ ih =>
      have hlt := size_stepWith_lt huv
      obtain ⟨n, rfl⟩ := Nat.exists_eq_succ_of_ne_zero (show n ≠ 0 by omega)
      rw [trail, huv]
      exact List.mem_cons_of_mem _ (ih (by omega))

end Scan

end ImportAtlas.Source

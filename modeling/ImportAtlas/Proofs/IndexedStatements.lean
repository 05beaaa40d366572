import ImportAtlas.Proofs.Arguments
import ImportAtlas.Proofs.ExportShifts
import ImportAtlas.Proofs.IndexedLexemes

/-!
# Statements by their indices

What an import statement or an export statement adds, and where the scan goes on behind it, is the
same by indices and by places. A statement that is read by places says all this at once; by indices
the additions are made one after another, and those made before a fault stay.

## Summary

* `perform` is taken through the steps of a computation, and through the rounds of a loop.
* `State.add` is a state with what a statement adds, and `Performs` the computations that do what
  a statement says.

## Main results

* `importClause_eq`, `firstString_eq` and `dynamicImport_eq`: the parts of an import.
* `searches_initializerRound` and `initializerEnd?_eq`: the end of the value of a declared name,
  round by round.
* `perform_declaredNames` and `perform_exportedNames`: the names of a declaration and of a list.
* `performs_importStatement` and `performs_exportStatement`: the two statements.
-/

namespace ImportAtlas.Source.Indexed

variable {t : List Char} {i j : Int} {c d e : Cursor} {st st' : State}

/-! ### Computations with a state -/

section
variable {α β σ ρ : Type} {m : Lexer α} {f : α → Lexer β}

@[simp] theorem perform_get : perform get st = (.ok st, st) := rfl

@[simp] theorem perform_set (st' : State) : perform (set st') st = (.ok ⟨⟩, st') := rfl

@[simp] theorem perform_modify (g : State → State) : perform (modify g) st = (.ok ⟨⟩, g st) := rfl

@[simp] theorem perform_lift (x : Checked α) : perform (liftM x) st = (x, st) := rfl

theorem perform_bind (m : Lexer α) (f : α → Lexer β) (st : State) :
    perform (m >>= f) st = match perform m st with
      | (.ok a, st') => perform (f a) st'
      | (.error e, st') => (.error e, st') := by
  change ((m >>= f).run.run st).run = match (m.run.run st).run with
    | (.ok a, st') => perform (f a) st'
    | (.error e, st') => (.error e, st')
  rw [ExceptT.run_bind, StateT.run_bind]
  rcases hm : (m.run.run st : Checked α × State) with ⟨_ | _, _⟩ <;> rfl

theorem perform_bind_ok {a : α} (h : perform m st = (.ok a, st')) :
    perform (m >>= f) st = perform (f a) st' := by
  rw [perform_bind, h]

theorem perform_bind_error {e : Abort} (h : perform m st = (.error e, st')) :
    perform (m >>= f) st = (.error e, st') := by
  rw [perform_bind, h]

variable {rank : σ → Nat} {round : σ → Lexer (Round σ ρ)} {s s' : σ}

theorem perform_loop_done {r : ρ} (h : perform (round s) st = (.ok (.done r), st')) :
    perform (loop rank round s) st = (.ok r, st') := by
  rw [loop, perform_bind_ok h]
  rfl

theorem perform_loop_error {e : Abort} (h : perform (round s) st = (.error e, st')) :
    perform (loop rank round s) st = (.error e, st') := by
  rw [loop, perform_bind_error h]

theorem perform_loop_again (h : perform (round s) st = (.ok (.again s'), st'))
    (hrank : rank s' < rank s) :
    perform (loop rank round s) st = perform (loop rank round s') st' := by
  rw [loop, perform_bind_ok h]
  simp only [dif_pos hrank]

end

/-! ### Places and indices -/

@[simp] theorem nextIndex_ok (d : Cursor) : nextIndex (.ok d) = .ok (d.offset : Int) := rfl

@[simp] theorem nextIndex_error (f : SyntaxFault) : nextIndex (.error f) = .error (.fault f) := rfl

@[simp] theorem lastIndex_ok (d : Cursor) : lastIndex (.ok d) = .ok ((d.offset : Int) - 1) := rfl

namespace At

theorem charAt?_eq (h : At t i c) : charAt? t i = c.peek? := h.ahead.charAt?_head

theorem atQuote_eq (h : At t i c) : (charAt? t i).any isQuote = c.atQuote := by
  rw [h.charAt?_eq, Cursor.atQuote]

theorem identifierAt_eq (h : At t i c) : identifierAt t i = .ok c.identifier :=
  Indexed.identifierAt_eq h.ahead

theorem startsComment_iff (h : At t i c) {ch : Char} {cs : List Char} (hrest : c.rest = ch :: cs) :
    ch = '/' ∧ (charAt? t (i + 1) = some '/' ∨ charAt? t (i + 1) = some '*') ↔
      startsComment c.rest = true := by
  have ha := h.ahead
  rw [hrest] at ha ⊢
  rw [ha.charAt?_succ, startsComment_cons]

theorem left_eq (h : At t i c) : left t i = c.size := by
  have := h.ahead.add_length_eq
  rw [left, Cursor.size]
  omega

theorem lt_length_iff (h : At t i c) : i < t.length ↔ c.rest ≠ [] := by
  have := h.ahead.add_length_eq
  rw [← List.length_pos_iff]
  omega

theorem index_lt (h : At t i c) (hd : At t j d) (hlt : d.size < c.size) : i < j := by
  have := h.ahead.add_length_eq
  have := hd.ahead.add_length_eq
  rw [Cursor.size, Cursor.size] at hlt
  omega

theorem skipTrivia (h : At t i c) (hd : c.skipTrivia = .ok d) : At t d.offset d := by
  obtain ⟨n, -, rfl⟩ := Cursor.skipTrivia_eq_advance hd
  exact h.of_between (c.between_advance n)

theorem onward (h : At t i c) (hd : c.Onward d) : At t d.offset d :=
  ⟨hd.text_eq.trans h.text_eq, rfl⟩

theorem skipString (h : At t i c) (hd : c.skipString = .ok d) : At t d.offset d := by
  obtain ⟨n, rfl, -⟩ := Cursor.skipString_eq_advance hd
  exact h.of_between (c.between_advance _)

theorem char {ch : Char} (h : At t i c) (hpeek : c.peek? = some ch) (hj : j = i + 1) :
    At t j (c.advance 1) := by
  obtain ⟨rest, hrest⟩ : ∃ rest, c.rest = ch :: rest := List.head?_eq_some_iff.1 hpeek
  exact h.advance (by simp [Cursor.size, hrest]) hj

theorem keyword {word : List Char} (h : At t i c) (hkey : c.atKeyword word = true)
    (hj : j = i + word.length) : At t j (c.advance word.length) :=
  h.between (Cursor.between_of_atKeyword hkey) hj

theorem word {word : List Char} (h : At t i c) (hword : c.identifier = word)
    (hj : j = i + word.length) : At t j (c.advance word.length) :=
  h.advance (hword ▸ (List.takeWhile_prefix _).length_le) hj

theorem identifier (h : At t i c) (hj : j = i + c.identifier.length) :
    At t j (c.advance c.identifier.length) := h.word rfl hj

end At

/-! ### Imports -/

/-- A round through the bindings, which first passes over white space and comments. -/
theorem clauseRound_eq (h : At t i c) (hrest : c.rest ≠ []) (hd : c.skipTrivia = .ok d) :
    clauseRound t i =
      if d.atQuote then do return .again ((← lastIndex d.skipString) + 1)
      else if d.identifier = [] then return .again ((d.offset : Int) + 1)
      else if d.identifier = "from".toList then do
        let behind ← nextIndex (d.advance d.identifier.length).skipTrivia
        if (charAt? t behind).any isQuote then return .done behind
        else return .again ((d.offset : Int) + d.identifier.length)
      else return .again ((d.offset : Int) + d.identifier.length) := by
  have had := h.skipTrivia hd
  rw [clauseRound, if_pos (h.lt_length_iff.2 hrest), skipTrivia_eq h, hd, nextIndex_ok, ok_bind,
    had.atQuote_eq, had.identifierAt_eq, ok_bind, skipTrivia_eq (had.identifier rfl)]
  by_cases hquote : d.atQuote = true
  · rw [if_pos hquote, if_pos hquote, string_eq had hquote]
  · rw [if_neg hquote, if_neg hquote]

theorem importClause_eq (h : At t i c) :
    importClause t i = nextIndex (Source.importClause c) := by
  have goOn {i j : Int} {c e : Cursor} (h : At t i c) (he : At t j e) (hlt : e.size < c.size)
      (hround : clauseRound t i = .ok (.again j)) : importClause t i = importClause t j :=
    loop_of_again hround (by rwa [h.left_eq, he.left_eq])
  fun_induction Source.importClause c generalizing i with
  | case1 c hrest =>
      rw [nextIndex_error, ← h.fail_eq]
      exact loop_of_error (if_neg (mt h.lt_length_iff.1 (not_not.2 hrest)))
  | case2 c hrest f hf =>
      refine loop_of_error ((if_pos (h.lt_length_iff.2 hrest)).trans ?_)
      rw [skipTrivia_eq h, hf]
      rfl
  | case3 c hrest d hd hdrest =>
      -- behind the end of the source the next round finds nothing
      have hlength := (h.skipTrivia hd).ahead.add_length_eq
      rw [hdrest, List.length_nil] at hlength
      have hquote : d.atQuote = false := by rw [Cursor.atQuote, Cursor.peek?, hdrest]; rfl
      have hround := clauseRound_eq h hrest hd
      rw [hquote, if_neg Bool.false_ne_true,
        if_pos (Cursor.identifier_eq_nil_of_rest hdrest)] at hround
      have hlt := h.lt_length_iff.2 hrest
      rw [importClause, loop_of_again hround (left_lt hlt (by omega))]
      refine loop_of_error ((if_neg (by omega)).trans (congrArg Except.error ?_))
      rw [← Int.natCast_succ, Int.toNat_natCast]
  | case4 c hrest d hd hdrest hquote f hf =>
      have hround := clauseRound_eq h hrest hd
      rw [if_pos hquote, hf] at hround
      exact loop_of_error hround
  | case5 c hrest d hd hdrest hquote e he ih =>
      have hround := clauseRound_eq h hrest hd
      rw [if_pos hquote, he, lastIndex_ok, ok_bind, Int.sub_add_cancel] at hround
      have hae := (h.skipTrivia hd).skipString he
      have hdc := Cursor.size_skipTrivia_le hd
      have hed := Cursor.size_skipString_lt he
      rw [goOn h hae (by omega) hround, ih hae]
  | case6 c hrest d hd hdrest hquote hword ih =>
      have hround := clauseRound_eq h hrest hd
      rw [if_neg hquote, if_pos hword] at hround
      have hae := (h.skipTrivia hd).advance (n := 1) (List.length_pos_iff.2 hdrest) rfl
      have hdc := Cursor.size_skipTrivia_le hd
      have hed := Cursor.size_advance_lt Nat.one_pos hdrest
      rw [goOn h hae (by omega) hround, ih hae]
  | case7 c hrest d hd hdrest hquote hword e hfrom f =>
      rename_i hf
      have hround := clauseRound_eq h hrest hd
      rw [if_neg hquote, if_neg hword, if_pos hfrom, hf] at hround
      exact loop_of_error hround
  | case8 c hrest d hd hdrest hquote hword e hfrom specifier hs =>
      rename_i hstring
      have hround := clauseRound_eq h hrest hd
      have has := ((h.skipTrivia hd).identifier rfl).skipTrivia hs
      rw [if_neg hquote, if_neg hword, if_pos hfrom, hs, nextIndex_ok, ok_bind, has.atQuote_eq,
        if_pos hstring] at hround
      exact loop_of_done hround
  | case9 c hrest d hd hdrest hquote hword e hfrom specifier hs hstring =>
      rename_i ih
      have hround := clauseRound_eq h hrest hd
      have hae := (h.skipTrivia hd).identifier rfl
      rw [if_neg hquote, if_neg hword, if_pos hfrom, hs, nextIndex_ok, ok_bind,
        (hae.skipTrivia hs).atQuote_eq, if_neg hstring] at hround
      have hdc := Cursor.size_skipTrivia_le hd
      have hed := Cursor.size_advance_identifier_lt hword
      rw [goOn h hae (by omega) hround, ih hae]
  | case10 c hrest d hd hdrest hquote hword e hfrom =>
      rename_i ih
      have hround := clauseRound_eq h hrest hd
      have hae := (h.skipTrivia hd).identifier rfl
      rw [if_neg hquote, if_neg hword, if_neg hfrom] at hround
      have hdc := Cursor.size_skipTrivia_le hd
      have hed := Cursor.size_advance_identifier_lt hword
      rw [goOn h hae (by omega) hround, ih hae]

/-- The outcome of reading a record, with the index of the last character in front of the place. -/
def recordIndex (outcome : Except SyntaxFault (ImportRecord × Cursor)) :
    Checked (ImportRecord × Int) :=
  (outcome.mapError .fault).map fun (r, d) => (r, (d.offset : Int) - 1)

theorem specifierRound_eq (h : At t i c) {ch : Char} {cs : List Char} (hrest : c.rest = ch :: cs) :
    specifierRound t i =
      if c.atQuote then do
        let stop ← lastIndex c.skipString
        return .done (⟨c.offset + 1, stop.toNat, .static⟩, stop)
      else if startsComment c.rest then do return .again (← nextIndex c.skipTrivia)
      else return .again (i + 1) := by
  have ha := h.ahead
  rw [hrest] at ha
  have hquote : c.atQuote = isQuote ch := by rw [Cursor.atQuote, Cursor.peek?, hrest]; rfl
  have hstart : (i + 1).toNat = c.offset + 1 := by rw [h.index_eq]; omega
  rw [specifierRound, if_pos ha.lt_length, ha.access_eq, ok_bind, hstart, skipTrivia_eq h, hquote]
  by_cases hch : isQuote ch = true
  · rw [if_pos hch, if_pos hch, string_eq h (hquote.trans hch)]
  · rw [if_neg hch, if_neg hch]
    exact if_congr (h.startsComment_iff hrest) rfl rfl

theorem firstString_eq (h : At t i c) : firstString t i = recordIndex (Source.sourceString c) := by
  have goOn {i j : Int} {c e : Cursor} (h : At t i c) (he : At t j e) (hlt : e.size < c.size)
      (hround : specifierRound t i = .ok (.again j)) : firstString t i = firstString t j :=
    loop_of_again hround (by rwa [h.left_eq, he.left_eq])
  fun_induction Source.sourceString c generalizing i with
  | case1 c hrest =>
      refine loop_of_error ((if_neg (mt h.lt_length_iff.1 (not_not.2 hrest))).trans ?_)
      exact h.fail_eq _
  | case2 c hrest hquote =>
      obtain ⟨ch, cs, hcons⟩ := List.exists_cons_of_ne_nil hrest
      have hround := specifierRound_eq h hcons
      rw [if_pos hquote] at hround
      unfold staticImport
      cases hd : c.skipString with
      | error f =>
          rw [hd] at hround
          exact loop_of_error hround
      | ok d =>
          rw [hd] at hround
          have hstop : ((d.offset : Int) - 1).toNat = d.offset - 1 := by omega
          rw [lastIndex_ok, ok_bind, hstop] at hround
          exact loop_of_done hround
  | case3 c hrest hquote hcomment d hd ih =>
      obtain ⟨ch, cs, hcons⟩ := List.exists_cons_of_ne_nil hrest
      have hround := specifierRound_eq h hcons
      rw [if_neg hquote, if_pos hcomment, hd] at hround
      have had := h.skipTrivia hd
      rw [goOn h had (Cursor.size_skipTrivia_lt hcomment hd) hround, ih had]
  | case4 c hrest hquote hcomment f hf =>
      obtain ⟨ch, cs, hcons⟩ := List.exists_cons_of_ne_nil hrest
      have hround := specifierRound_eq h hcons
      rw [if_neg hquote, if_pos hcomment, hf] at hround
      exact loop_of_error hround
  | case5 c hrest hquote hcomment ih =>
      obtain ⟨ch, cs, hcons⟩ := List.exists_cons_of_ne_nil hrest
      have hround := specifierRound_eq h hcons
      rw [if_neg hquote, if_neg hcomment] at hround
      have hone : At t (i + 1) (c.advance 1) := h.advance (List.length_pos_iff.2 hrest) rfl
      rw [goOn h hone (Cursor.size_advance_lt Nat.one_pos hrest) hround, ih hone]

/-- The last index in front of a place that may have been found. -/
def lastIndex? (outcome : Except SyntaxFault (Option Cursor)) : Checked (Option Int) :=
  (outcome.mapError .fault).map (Option.map fun d => (d.offset : Int) - 1)

theorem plainTemplate?_eq (h : At t i c) (hpeek : c.peek? = some '\x60') :
    plainTemplate? t i = lastIndex? c.readTemplate := by
  obtain ⟨body, hrest⟩ : ∃ body, c.rest = '\x60' :: body := List.head?_eq_some_iff.1 hpeek
  have ha := h.ahead
  rw [hrest] at ha
  rw [plainTemplate?, chunk_eq ha, Cursor.readTemplate, hrest, List.drop_one, List.tail_cons]
  cases hlength : chunkLength? body with
  | none => exact congrArg (· >>= _) (h.fail_eq _)
  | some chunk =>
      obtain ⟨_ | _, n⟩ := chunk
      · obtain ⟨content, rest, -, rfl, hn⟩ := exists_of_chunkLength? hlength
        have hle : n + 1 ≤ c.size := by
          rw [Cursor.size, hrest, hn]
          simp
        refine (congrArg (Except.ok ∘ some) (?_ : i + n = ((c.advance (n + 1)).offset : Int) - 1))
        rw [offset_advance hle, h.index_eq]
        push_cast
        omega
      · rfl

theorem literal?_eq (h : At t i c) : literal? t i = lastIndex? c.readLiteral := by
  rw [literal?, h.atQuote_eq, h.charAt?_eq, Cursor.readLiteral]
  by_cases hquote : c.atQuote = true
  · rw [if_pos hquote, if_pos hquote, string_eq h hquote]
    cases c.skipString <;> rfl
  rw [if_neg hquote, if_neg hquote]
  by_cases htick : c.peek? = some '\x60'
  · rw [if_pos htick, if_pos htick, plainTemplate?_eq h htick]
  · rw [if_neg htick, if_neg htick]
    rfl

theorem plainArgument?_eq (h : At t (i + 1) c) : plainArgument? t i =
    ((readArgument c).mapError .fault).map
      (Option.map fun (first, behind) => ((first.offset : Int), (behind.offset : Int) - 1)) := by
  rw [plainArgument?, skipTrivia_eq h, readArgument]
  cases hd : c.skipTrivia with
  | error f => rfl
  | ok first =>
      have had := h.skipTrivia hd
      rw [nextIndex_ok, ok_bind, literal?_eq had]
      dsimp only
      cases he : first.readLiteral with
      | error f => rfl
      | ok behind? =>
          cases behind? with
          | none => rfl
          | some behind =>
              obtain ⟨l, hbetween⟩ := (Cursor.readLiteral_eq_some.1 he).exists_between
              have hae := had.of_between hbetween
              have hindex : ((behind.offset : Int) - 1) + 1 = behind.offset := Int.sub_add_cancel ..
              change (do
                if charAt? t (← skipTrivia t (((behind.offset : Int) - 1) + 1)) = some ')' then
                  return some ((first.offset : Int), (behind.offset : Int) - 1)
                else return none : Checked _) = _
              rw [hindex, skipTrivia_eq hae]
              dsimp only
              cases hclose : behind.skipTrivia with
              | error f => rfl
              | ok close =>
                  rw [nextIndex_ok, ok_bind, (hae.skipTrivia hclose).charAt?_eq]
                  by_cases hparen : close.peek? = some ')' <;>
                    simp [hparen, Except.map, Except.mapError]

theorem dynamicImport_eq {start : Int} (hs : At t start d) (h : At t (i + 1) c) :
    dynamicImport t start i = .ok (Source.dynamicImport d c) := by
  have hargument : (i + 1).toNat = c.offset := by rw [h.index_eq, Int.toNat_natCast]
  have hstart : start.toNat = d.offset := by rw [hs.index_eq, Int.toNat_natCast]
  have hstop : (start + 6).toNat = d.offset + 6 := by rw [hs.index_eq]; omega
  rw [dynamicImport, plainArgument?_eq h, Source.dynamicImport, plainArgument?_eq_readArgument,
    hargument, hstart, hstop]
  cases readArgument c with
  | error f => rfl
  | ok found? =>
      cases found? with
      | none => rfl
      | some found =>
          obtain ⟨first, behind⟩ := found
          have hbehind : ((behind.offset : Int) - 1).toNat = behind.offset - 1 := by omega
          have hfirst : ((first.offset : Int) + 1).toNat = first.offset + 1 := by omega
          exact congrArg Except.ok (by rw [hbehind, hfirst]; rfl)

/-! ### Statements -/

/-- The state with what a statement adds. -/
def State.add (st : State) (s : Statement) : State :=
  { st with
    openers := (s.opener?.map fun past => (past.length : Int) - 1).toList ++ st.openers
    imports := st.imports ++ s.imports
    exports := st.exports ++ s.exports }

/-- A computation does what a statement says. -/
def Performs (m : Lexer Unit) (st : State) (s : Statement) : Prop :=
  perform m st = match s.next with
    | .ok d => (.ok (), { st.add s with index := (d.offset : Int) - 1 })
    | .error f => (.error (.fault f), st.add s)

variable {m : Lexer Unit} {s : Statement}

theorem add_plain (st : State) (next : Except SyntaxFault Cursor) :
    st.add (.plain next) = st := by
  simp [State.add, Statement.plain]

theorem Performs.congr {s' : Statement} (h : Performs m st s) (heq : s = s') :
    Performs m st s' := heq ▸ h

theorem performs_moveTo (h : j = d.offset - 1) : Performs (moveTo j) st (.plain (.ok d)) := by
  rw [Performs, add_plain, h]
  rfl

theorem performs_pure (h : st.index = d.offset - 1) : Performs (pure ()) st (.plain (.ok d)) := by
  rw [Performs, add_plain]
  exact congrArg (fun i => ((.ok (), { st with index := i }) : Checked Unit × State)) h

theorem performs_fault {α : Type} {f : SyntaxFault} {x : Checked α} {k : α → Lexer Unit}
    (h : x = .error (.fault f)) : Performs (liftM x >>= k) st (.plain (.error f)) := by
  rw [Performs, h, add_plain]
  rfl

theorem performs_bind {α : Type} {a : α} {x : Checked α} {k : α → Lexer Unit} (h : x = .ok a)
    (hk : Performs (k a) st s) : Performs (liftM x >>= k) st s := by
  rw [h]
  exact hk

theorem performs_get {k : State → Lexer Unit} (h : Performs (k st) st s) :
    Performs (get >>= k) st s := h

theorem performs_record {r : ImportRecord} (h : j = d.offset - 1) :
    Performs (addImport r >>= fun _ => moveTo j) st ⟨[r], [], none, .ok d⟩ := by
  simp [Performs, State.add, perform_bind, addImport, moveTo, h]

theorem performs_sourceString (h : At t i c) (st : State) :
    Performs (sourceString t i) st (match Source.sourceString c with
      | .error f => .plain (.error f)
      | .ok (record, d) => ⟨[record], [], none, .ok d⟩) := by
  have hfirst := firstString_eq h
  cases hd : Source.sourceString c with
  | error f =>
      rw [hd] at hfirst
      exact performs_fault hfirst
  | ok found =>
      rw [hd] at hfirst
      exact performs_bind hfirst (performs_record rfl)

theorem performs_skipTrivia {k : Int → Lexer Unit} {s : Cursor → Statement} (h : At t i c)
    (hk : ∀ d, At t d.offset d → Performs (k d.offset) st (s d)) :
    Performs (liftM (skipTrivia t i) >>= k) st (match c.skipTrivia with
      | .error f => .plain (.error f)
      | .ok d => s d) := by
  have hskip := skipTrivia_eq h
  cases hd : c.skipTrivia with
  | error f =>
      rw [hd] at hskip
      exact performs_fault hskip
  | ok d =>
      rw [hd] at hskip
      exact performs_bind hskip (hk d (h.skipTrivia hd))

theorem performs_identifierAt {k : List Char → Lexer Unit} (h : At t i c)
    (hk : Performs (k c.identifier) st s) : Performs (liftM (identifierAt t i) >>= k) st s :=
  performs_bind h.identifierAt_eq hk

theorem performs_ite {p : Prop} [Decidable p] {m' : Lexer Unit} {s' : Statement}
    (h : p → Performs m st s) (h' : ¬ p → Performs m' st s') :
    Performs (if p then m else m') st (if p then s else s') := by
  split
  · exact h ‹_›
  · exact h' ‹_›

/-- The parenthesis behind an `import` opens the argument of a dynamic import. -/
theorem performs_importCall (h : At t st.index c) (hbehind : At t (st.index + 6) (c.advance 6))
    (hd : At t d.offset d) (hparen : d.peek? = some '(') :
    Performs (do
      modify fun st' => { st' with openers := (st.index + 5) :: st'.openers }
      addImport (← dynamicImport t st.index d.offset)
      moveTo d.offset) st
      ⟨[Source.dynamicImport c (d.advance 1)], [], some (c.advance 6).past, .ok (d.advance 1)⟩ := by
  have hargument := hd.char hparen rfl
  have hopener : st.index + 5 = ((c.advance 6).past.length : Int) - 1 := by
    have := hbehind.index_eq
    rw [Cursor.offset] at this
    omega
  have hstop : (d.offset : Int) = ((d.advance 1).offset : Int) - 1 := by
    have := hargument.index_eq
    omega
  simp only [Performs, perform_bind, perform_modify, perform_lift, addImport, moveTo,
    dynamicImport_eq h hargument, State.add, hopener, Option.map_some, Option.toList_some,
    List.singleton_append, List.append_nil, ← hstop]

/-- Behind the dot of an `import` stands `meta`, or another name that is passed over later. -/
theorem performs_importMeta (h : At t i c) (hd : At t d.offset d) (hdot : d.peek? = some '.')
    (st : State) :
    Performs (do
      let behind ← liftM (skipTrivia t (d.offset + 1))
      if (← liftM (identifierAt t behind)) = "meta".toList then
        addImport ⟨i.toNat, (behind + 4).toNat, .itself⟩
        moveTo (behind + 3)
      else moveTo d.offset) st (match (d.advance 1).skipTrivia with
        | .error f => .plain (.error f)
        | .ok e =>
          if e.identifier = "meta".toList then
            ⟨[⟨c.offset, e.offset + 4, .itself⟩], [], none, .ok (e.advance 4)⟩
          else .plain (.ok (d.advance 1))) := by
  have hdotted := hd.char hdot rfl
  have hnext : (d.offset : Int) = ((d.advance 1).offset : Int) - 1 := by
    have := hdotted.index_eq
    omega
  refine performs_skipTrivia hdotted fun e hae => performs_identifierAt hae ?_
  refine performs_ite (fun hmeta => ?_) fun _ => performs_moveTo hnext
  have hstart : i.toNat = c.offset := by rw [h.index_eq, Int.toNat_natCast]
  have hword : At t (e.offset + 4) (e.advance 4) := hae.word hmeta rfl
  rw [hstart]
  exact performs_record (by have := hword.index_eq; omega)

/-- The specifier of an import declaration follows at once, or behind a clause. -/
theorem performs_importDeclaration (hd : At t d.offset d) (st : State) :
    Performs (if (d.peek?).any isQuote then sourceString t d.offset
      else liftM (importClause t d.offset) >>= sourceString t) st
      (match if d.atQuote then .ok d else Source.importClause d with
      | .error f => .plain (.error f)
      | .ok specifier =>
        match Source.sourceString specifier with
        | .error f => .plain (.error f)
        | .ok (record, e) => ⟨[record], [], none, .ok e⟩) := by
  change Performs (if d.atQuote then _ else _) _ _
  by_cases hquote : d.atQuote = true
  · rw [if_pos hquote, if_pos hquote]
    exact performs_sourceString hd st
  rw [if_neg hquote, if_neg hquote]
  have hclause := importClause_eq hd
  have hyields := clauseYields_importClause d
  cases hs : Source.importClause d with
  | error f =>
      rw [hs] at hclause
      exact performs_fault hclause
  | ok specifier =>
      rw [hs] at hclause hyields
      exact performs_bind hclause (performs_sourceString (hd.onward hyields) st)

theorem performs_importStatement (h : At t st.index c) (hrest : c.rest ≠ []) :
    Performs (importStatement t) st (Source.importStatement (st.openers ≠ []) c) := by
  refine performs_get (performs_bind (isKeywordAt_eq h rfl (List.all_eq_true.1 rfl)) ?_)
  rw [Source.importStatement]
  by_cases hkey : c.atKeyword "import".toList = true
  · have hbehind : At t (st.index + 6) (c.advance 6) := h.keyword hkey rfl
    rw [hkey, if_pos rfl, Bool.not_true, if_neg Bool.false_ne_true]
    refine performs_skipTrivia hbehind fun d had => ?_
    rw [had.charAt?_eq]
    refine performs_ite (fun hparen => performs_importCall h hbehind had hparen) fun _ =>
      performs_ite (fun hdot => performs_importMeta h had hdot st) fun _ => performs_get ?_
    by_cases hopen : st.openers = []
    · simp only [hopen, ne_eq, not_true_eq_false, decide_false, Bool.false_eq_true, if_false]
      exact performs_importDeclaration had st
    · simp only [hopen, ne_eq, not_false_eq_true, decide_true, if_true]
      exact performs_moveTo (by have := hbehind.index_eq; omega)
  · rw [Bool.eq_false_iff.2 hkey, if_neg Bool.false_ne_true, Bool.not_false, if_pos rfl]
    have hone : At t (st.index + 1) (c.advance 1) := h.advance (List.length_pos_iff.2 hrest) rfl
    exact performs_pure (by have := hone.index_eq; omega)

/-! ### Names -/

/-- The state with some exported names more. -/
def State.export (st : State) (names : List String) : State :=
  { st with exports := st.exports ++ names }

/-- A statement that exports some names first. -/
def exporting (names : List String) (s : Statement) : Statement :=
  { s with exports := names ++ s.exports }

theorem performs_exporting {α : Type} {names : List String} {x : Lexer α} {a : α}
    {k : α → Lexer Unit} (h : perform x st = (.ok a, st.export names))
    (hk : Performs (k a) (st.export names) s) : Performs (x >>= k) st (exporting names s) := by
  rw [Performs, perform_bind_ok h, hk]
  have hadd : (st.export names).add s = st.add (exporting names s) := by
    simp [State.add, State.export, exporting]
  rw [hadd]
  rfl

theorem performs_addExport {name : String} (hm : Performs m (st.export [name]) s) :
    Performs (addExport name >>= fun _ => m) st (exporting [name] s) :=
  performs_exporting (x := addExport name) rfl hm

theorem performs_exportDeclared (h : At t i c) (st : State) :
    Performs (exportDeclared t i) st (Source.exportDeclared c) := by
  refine performs_identifierAt h (performs_ite (fun _ => ?_) fun _ => ?_)
  · exact performs_moveTo (by rw [h.index_eq])
  · have hbehind := h.identifier rfl
    exact performs_addExport (performs_moveTo (by have := hbehind.index_eq; omega))

theorem expectsOperand_eq {past : Past} (h : EndsAt t i past) (hne : past ≠ []) :
    expectsOperand t i = .ok (Source.expectsOperand past) := by
  obtain ⟨ch, more, rfl⟩ := List.exists_cons_of_ne_nil hne
  rw [expectsOperand, h.access_eq, ok_bind, h.wordEndingAt_eq, Source.expectsOperand,
    List.head?_cons]
  simp only [ok_bind, pure_eq_ok]
  split <;> rfl

theorem past_ne_nil (h : At t (i + 1) c) (hi : 0 ≤ i) : c.past ≠ [] := by
  intro hnil
  have := h.index_eq
  rw [Cursor.offset, hnil, List.length_nil] at this
  omega

/-- What a round of the search for the end of an initializer does: it comes to what is found, it
ends at a fault, and nothing is found, or it goes on further on, where the same is found. -/
inductive Searches (t : List Char) (size : Nat) :
    Option Cursor → Checked (Round InitializerState (Option Int)) → Prop
  | done (end? : Option Cursor) :
      Searches t size end? (.ok (.done (end?.map fun d => (d.offset : Int))))
  | fault (f : SyntaxFault) : Searches t size none (.error (.fault f))
  | again {depth : Nat} {j last : Int} {past : Past} {d : Cursor} (hd : At t j d)
      (hlast : EndsAt t last past) (hne : past ≠ []) (hlt : d.size < size) :
      Searches t size (Source.initializerEnd? depth past d) (.ok (.again ⟨j, depth, last⟩))

section
variable {size depth : Nat} {last : Int} {past : Past} {ch : Char} {end? end?' : Option Cursor}
  {m m' : Checked (Round InitializerState (Option Int))}

theorem searches_ite {p q : Prop} [Decidable p] [Decidable q] (hpq : p ↔ q)
    (h : p → Searches t size end? m) (h' : ¬ p → Searches t size end?' m') :
    Searches t size (if q then end? else end?') (if p then m else m') := by
  by_cases hp : p
  · rw [if_pos hp, if_pos (hpq.1 hp)]
    exact h hp
  · rw [if_neg hp, if_neg (mt hpq.2 hp)]
    exact h' hp

/-- An element is read, and the search goes on with the place where it ends. -/
theorem searches_bind {x : Checked Int} {outcome : Except SyntaxFault Cursor}
    {next : Cursor → Int} {k : Int → Checked (Round InitializerState (Option Int))}
    {found : Cursor → Option Cursor} : x = (outcome.mapError .fault).map next →
    (∀ e, outcome = .ok e → Searches t size (found e) (k (next e))) →
    Searches t size (match outcome with
      | .ok e => found e
      | .error _ => none) (x >>= k) := by
  rintro rfl h
  cases outcome with
  | ok e => exact h e rfl
  | error f => exact .fault f

/-- The search goes on behind an element that is no white space. -/
theorem searches_passed (hspace : isSpace ch = false) (hj : 0 ≤ j) (he : At t (j + 1) e)
    (hlt : e.size < size) : Searches t size (Source.initializerEnd? depth e.past e)
      (.ok (.again ⟨j + 1, depth, if isSpace ch then last else j⟩)) := by
  rw [hspace, if_neg Bool.false_ne_true]
  exact .again he (he.endsAt (by omega)) (past_ne_nil he hj) hlt

/-- The search goes on behind an element that ends at a place. -/
theorem searches_behind (h : At t i c) (hspace : isSpace ch = false) (he : At t e.offset e)
    (hlt : e.size < c.size) : Searches t c.size (Source.initializerEnd? depth e.past e)
      (.ok (.again ⟨(e.offset : Int) - 1 + 1, depth,
        if isSpace ch then last else (e.offset : Int) - 1⟩)) := by
  have hindex := h.index_lt he hlt
  have hnonneg := h.ahead.nonneg
  exact searches_passed hspace (by omega) (by rwa [Int.sub_add_cancel]) hlt

/-- The search goes on behind a character. -/
theorem searches_char (h : At t i c) (hrest : c.rest ≠ []) (hlast : EndsAt t last past)
    (hne : past ≠ []) : Searches t c.size
      (Source.initializerEnd? depth (if isSpace ch then past else (c.advance 1).past) (c.advance 1))
      (.ok (.again ⟨i + 1, depth, if isSpace ch then last else i⟩)) := by
  have hone : At t (i + 1) (c.advance 1) := h.advance (List.length_pos_iff.2 hrest) rfl
  have hlt := Cursor.size_advance_lt Nat.one_pos hrest
  by_cases hspace : isSpace ch = true
  · rw [if_pos hspace, if_pos hspace]
    exact .again hone hlast hne hlt
  · rw [if_neg hspace]
    exact searches_passed (Bool.eq_false_iff.2 hspace) h.ahead.nonneg hone hlt

theorem isSpace_of_isBracket (h : (ch == '(' || ch == '[' || ch == '\x7b') = true ∨
    (ch == ')' || ch == ']' || ch == '\x7d') = true) : isSpace ch = false := by
  simp only [Bool.or_eq_true, beq_iff_eq] at h
  rcases h with ((rfl | rfl) | rfl) | ((rfl | rfl) | rfl) <;> decide

theorem searches_template (h : At t i c) (hpeek : c.peek? = some '\x60') :
    Searches t c.size (match c.skipPlainTemplate? with
        | some e => Source.initializerEnd? depth e.past e
        | none => none)
      (plainTemplate? t i >>= fun
        | some stop => .ok (.again ⟨stop + 1, depth, if isSpace '\x60' then last else stop⟩)
        | none => .ok (.done none)) := by
  have hrest : c.rest ≠ [] := by
    rintro hnil
    rw [Cursor.peek?, hnil] at hpeek
    cases hpeek
  rw [plainTemplate?_eq h hpeek]
  cases he : c.skipPlainTemplate? with
  | none =>
      cases hread : c.readTemplate with
      | error f => exact .fault f
      | ok e? =>
          obtain rfl : e? = none := by
            cases e? with
            | none => rfl
            | some e => cases he.symm.trans (Cursor.readTemplate_eq_some.1 hread)
          exact .done none
  | some e =>
      rw [Cursor.readTemplate_eq_some.2 he]
      obtain ⟨n, rfl⟩ := Cursor.skipPlainTemplate?_eq_advance he
      have hlt : (c.advance (n + 2)).size < c.size :=
        Cursor.size_advance_lt (Nat.succ_pos _) hrest
      exact searches_behind h (by decide) (h.of_between (c.between_advance _)) hlt

/-- A line that ends outside of brackets ends the search, unless a sign follows that goes on with
the value. -/
theorem searches_lineEnd (h : At t i c) (hrest : c.rest ≠ []) (hbreak : isLineBreak ch = true)
    (hlast : EndsAt t last past) (hne : past ≠ []) :
    Searches t c.size (match c.skipTrivia with
        | .ok e => if e.peek?.any isPunctuator then
            Source.initializerEnd? depth past (c.advance 1) else none
        | .error _ => none)
      (skipTrivia t i >>= fun behind => if (charAt? t behind).any isPunctuator then
        .ok (.again ⟨i + 1, depth, if isSpace ch then last else i⟩) else .ok (.done none)) := by
  refine searches_bind (skipTrivia_eq h) fun e he => ?_
  refine searches_ite ((h.skipTrivia he).charAt?_eq ▸ Iff.rfl) (fun _ => ?_) fun _ => .done none
  rw [if_pos (isSpace_of_isLineBreak hbreak)]
  exact .again (h.advance (List.length_pos_iff.2 hrest) rfl) hlast hne
    (Cursor.size_advance_lt Nat.one_pos hrest)

/-- A round of the search does what the search by places does. -/
theorem searches_initializerRound (h : At t i c) (hlast : EndsAt t last past) (hne : past ≠ []) :
    Searches t c.size (Source.initializerEnd? depth past c)
      (initializerRound t ⟨i, depth, last⟩) := by
  rw [Source.initializerEnd?_eq]
  by_cases hrest : c.rest = []
  · rw [if_pos hrest, initializerRound, if_neg (mt h.lt_length_iff.1 (not_not.2 hrest))]
    exact .done none
  obtain ⟨ch, cs, hcons⟩ := List.exists_cons_of_ne_nil hrest
  have ha := h.ahead
  rw [hcons] at ha
  have hpeek : c.peek? = some ch := by rw [Cursor.peek?, hcons, List.head?_cons]
  have hone : At t (i + 1) (c.advance 1) := h.char hpeek rfl
  have hlt := Cursor.size_advance_lt Nat.one_pos hrest
  -- The round asks about operands before it knows that it needs to.
  have hoperand : (if ch = '/' then expectsOperand t last else pure false : Checked Bool) =
      .ok (ch == '/' && Source.expectsOperand past) := by
    by_cases hslash : ch = '/' <;> simp [hslash, expectsOperand_eq hlast hne]
  rw [if_neg hrest, initializerRound, if_pos ha.lt_length, ha.access_eq, ok_bind, hpeek,
    Option.getD_some]
  dsimp only
  rw [hoperand, ok_bind]
  refine searches_ite Iff.rfl (fun hopen => ?_) fun _ => ?_
  · exact searches_passed (isSpace_of_isBracket (.inl hopen)) ha.nonneg hone hlt
  refine searches_ite Iff.rfl (fun hclose => ?_) fun _ => ?_
  · refine searches_ite Iff.rfl (fun _ => .done none) fun _ => ?_
    exact searches_passed (isSpace_of_isBracket (.inr hclose)) ha.nonneg hone hlt
  refine searches_ite Iff.rfl (fun hquote => ?_) fun _ => ?_
  · have hatQuote : c.atQuote = true := by rwa [Cursor.atQuote, hpeek, Option.any_some]
    exact searches_bind (string_eq h hatQuote) fun e he => searches_behind h
      (isSpace_of_isQuote hquote) (h.skipString he) (Cursor.size_skipString_lt he)
  refine searches_ite beq_iff_eq.symm (fun htick => ?_) fun _ => ?_
  · subst htick
    exact searches_template h hpeek
  refine searches_ite (h.startsComment_iff hcons) (fun hcomment => ?_) fun _ => ?_
  · exact searches_bind (skipTrivia_eq h) fun e he => .again (h.skipTrivia he) hlast hne
      (Cursor.size_skipTrivia_lt ((h.startsComment_iff hcons).1 hcomment) he)
  refine searches_ite Iff.rfl (fun hregex => ?_) fun _ => ?_
  · obtain rfl : ch = '/' := beq_iff_eq.1 (Bool.and_eq_true_iff.1 hregex).1
    refine searches_bind (regex_eq h hpeek) fun e he => ?_
    obtain ⟨n, rfl⟩ := Cursor.skipRegex_eq_advance he
    exact searches_behind h (by decide) (h.of_between (c.between_advance _))
      (Cursor.size_advance_lt (Nat.succ_pos _) hrest)
  -- Commas, semicolons and ends of lines count outside of brackets only.
  by_cases hdepth : depth = 0
  · rw [if_pos hdepth, hdepth]
    simp only [decide_true, Bool.true_and]
    refine searches_ite (by simp) (fun _ => h.index_eq ▸ .done (some c)) fun _ => ?_
    refine searches_ite (by simp) (fun _ => .done none) fun _ => ?_
    refine searches_ite Iff.rfl (fun hbreak => ?_) fun _ => ?_
    · exact searches_lineEnd h hrest hbreak hlast hne
    · exact searches_char h hrest hlast hne
  · rw [if_neg hdepth]
    simp only [hdepth, decide_false, Bool.false_and, Bool.false_eq_true, if_false]
    exact searches_char h hrest hlast hne

end

/-- The search finds the end of an initializer, if it can be told. A fault ends it without one. -/
theorem initializerEnd?_eq {depth : Nat} {last : Int} {past : Past} (h : At t i c)
    (hlast : EndsAt t last past) (hne : past ≠ []) :
    initializerEnd? t ⟨i, depth, last⟩ =
      .ok ((Source.initializerEnd? depth past c).map fun d => (d.offset : Int)) := by
  induction hsize : c.size using Nat.strong_induction_on generalizing c i depth last past with
  | _ size ih =>
  have hround : Searches t c.size (Source.initializerEnd? depth past c) _ :=
    searches_initializerRound h hlast hne
  generalize hresult : initializerRound t ⟨i, depth, last⟩ = result at hround
  generalize Source.initializerEnd? depth past c = found at hround ⊢
  rw [initializerEnd?]
  cases hround with
  | done found => rw [loop_of_done hresult]; rfl
  | fault f => rw [loop_of_error hresult]; rfl
  | again hd hlast' hne' hlt =>
      rw [loop_of_again hresult (by dsimp only; rwa [h.left_eq, hd.left_eq])]
      exact ih _ (hsize ▸ hlt) hd hlast' hne' rfl

theorem declaratorEnd?_eq (h : At t i c) :
    declaratorEnd? t i = .ok ((commaFrom c).map fun d => (d.offset : Int)) := by
  rw [declaratorEnd?, h.charAt?_eq, commaFrom]
  by_cases hequals : c.peek? = some '='
  · have hone := h.char hequals rfl
    rw [if_pos hequals, if_pos hequals]
    exact initializerEnd?_eq hone (hone.endsAt (by omega)) (past_ne_nil hone h.ahead.nonneg)
  · rw [if_neg hequals, if_neg hequals, h.index_eq]
    rfl

theorem text_commaFrom (h : commaFrom c = some d) : d.text = c.text := by
  unfold commaFrom at h
  split at h
  · rw [text_of_initializerEnd? h, Cursor.text_advance]
  · exact Option.some.inj h ▸ rfl

@[simp] theorem export_nil (st : State) : st.export [] = st := by simp [State.export]

theorem export_append (st : State) (names more : List String) :
    (st.export names).export more = st.export (names ++ more) := by
  simp [State.export]

/-- The outcome of a search for names, which may end at a fault. -/
def namesOutcome : Option SyntaxFault → Checked Unit
  | none => .ok ()
  | some f => .error (.fault f)

/-- How a round through the names of a declaration ends. -/
def declaredOutcome : Option Cursor → Round Int Unit
  | none => .done ()
  | some comma => if comma.peek? = some ',' then .again (comma.offset + 1) else .done ()

theorem perform_declaredRound (h : At t i c) (st : State) :
    perform (declaredRound t i) st = match c.skipTrivia with
      | .error f => (.error (.fault f), st)
      | .ok d =>
        if d.identifier = [] then (.ok (.done ()), st)
        else match (d.advance d.identifier.length).skipTrivia with
          | .error f => (.error (.fault f), st.export [String.ofList d.identifier])
          | .ok e =>
            (.ok (declaredOutcome (commaFrom e)), st.export [String.ofList d.identifier]) := by
  rw [declaredRound, perform_bind, perform_lift, skipTrivia_eq h]
  cases hd : c.skipTrivia with
  | error f => rfl
  | ok d =>
      have had := h.skipTrivia hd
      have hbehind := had.identifier rfl
      rw [nextIndex_ok]
      dsimp only
      rw [perform_bind, perform_lift, had.identifierAt_eq]
      dsimp only
      by_cases hname : d.identifier = []
      · rw [if_pos hname, if_pos hname]
        rfl
      rw [if_neg hname, if_neg hname, perform_bind_ok (m := addExport _) rfl, perform_bind,
        perform_lift, skipTrivia_eq hbehind]
      cases he : (d.advance d.identifier.length).skipTrivia with
      | error f => rfl
      | ok e =>
          have hae := hbehind.skipTrivia he
          rw [nextIndex_ok]
          dsimp only
          rw [perform_bind, perform_lift, declaratorEnd?_eq hae]
          cases hcomma : commaFrom e with
          | none => rfl
          | some comma =>
              have hat : At t comma.offset comma :=
                ⟨(text_commaFrom hcomma).trans hae.text_eq, rfl⟩
              dsimp only [Option.map_some, declaredOutcome]
              rw [hat.charAt?_eq]
              split <;> rfl

theorem perform_declaredNames (h : At t i c) (st : State) :
    perform (declaredNames t i) st =
      (namesOutcome (Source.declaredNames c).2, st.export (Source.declaredNames c).1) := by
  induction hsize : c.size using Nat.strong_induction_on generalizing c i st with
  | _ size ih =>
  have hround := perform_declaredRound h st
  rw [Source.declaredNames_eq, declaredNames]
  cases hd : c.skipTrivia with
  | error f =>
      rw [hd] at hround
      rw [perform_loop_error hround, export_nil]
      rfl
  | ok d =>
  rw [hd] at hround
  dsimp only at hround ⊢
  by_cases hname : d.identifier = []
  · rw [if_pos hname] at hround
    rw [if_pos hname, perform_loop_done hround, export_nil]
    rfl
  rw [if_neg hname] at hround ⊢
  cases he : (d.advance d.identifier.length).skipTrivia with
  | error f =>
      rw [he] at hround
      rw [perform_loop_error hround]
      rfl
  | ok e =>
  rw [he] at hround
  dsimp only at hround ⊢
  cases hcomma : commaFrom e with
  | none =>
      rw [hcomma] at hround
      rw [perform_loop_done hround]
      rfl
  | some comma =>
  rw [hcomma, declaredOutcome] at hround
  rw [namesFrom]
  by_cases hpeek : comma.peek? = some ','
  · rw [if_pos hpeek] at hround ⊢
    have hat : At t comma.offset comma := ⟨(text_commaFrom hcomma).trans
      (((h.skipTrivia hd).identifier rfl).skipTrivia he).text_eq, rfl⟩
    have hnext := hat.char hpeek rfl
    -- The next name comes behind this one and its initializer.
    have hlt : (comma.advance 1).size < c.size := by
      have := Cursor.size_skipTrivia_le hd
      have := Cursor.size_advance_identifier_lt hname
      have := Cursor.size_skipTrivia_le he
      have := size_commaFrom_le hcomma
      rw [Cursor.size_advance]
      omega
    rw [perform_loop_again hround (by rwa [h.left_eq, hnext.left_eq]), ← declaredNames,
      ih _ (hsize ▸ hlt) hnext _ rfl, export_append, List.singleton_append]
  · rw [if_neg hpeek] at hround ⊢
    rw [perform_loop_done hround]
    rfl

/-! ### Lists -/

/-- The outcome of reading a name, with the index that comes next. -/
def nameIndex (outcome : Except SyntaxFault (String × Cursor)) : Checked (String × Int) :=
  (outcome.mapError .fault).map fun (name, d) => (name, (d.offset : Int))

@[simp] theorem nameIndex_ok (name : String) (d : Cursor) :
    nameIndex (.ok (name, d)) = .ok (name, (d.offset : Int)) := rfl

theorem exportName_eq (h : At t i c) : exportName t i = nameIndex (Source.exportName c) := by
  rw [exportName, h.atQuote_eq, h.identifierAt_eq, Source.exportName]
  by_cases hquote : c.atQuote = true
  · rw [if_pos hquote, if_pos hquote, string_eq h hquote]
    cases hd : c.skipString with
    | error f => rfl
    | ok d =>
        obtain ⟨quote, content, -, hbetween⟩ := Cursor.exists_of_skipString hd
        have hoffset := hbetween.offset_eq
        simp only [List.length_append, List.length_cons, List.length_nil] at hoffset
        have hbehind : Ahead t (i + 1) (c.rest.drop 1) := by
          have ha := h.ahead
          rw [hbetween.rest_eq] at ha ⊢
          exact ha.tail rfl
        have hslice : slice t (i + 1) (d.offset - 1) =
            (c.rest.drop 1).take (d.offset - c.offset - 2) :=
          hbehind.slice_eq (by rw [h.index_eq]; omega)
        rw [lastIndex_ok, ok_bind, hslice, Int.sub_add_cancel]
        rfl
  · rw [if_neg hquote, if_neg hquote, ok_bind]
    by_cases hname : c.identifier = []
    · rw [if_pos hname, if_pos hname, h.fail_eq]
      rfl
    · rw [if_neg hname, if_neg hname, nameIndex_ok, ← (h.identifier rfl).index_eq]
      rfl

theorem At.exportName {name : String} (h : At t i c) (hd : Source.exportName c = .ok (name, d)) :
    At t d.offset d := h.onward (onward_exportName hd)

theorem renamedExport_eq (h : At t i c) :
    renamedExport t i = nameIndex (Source.renamedExport c) := by
  rw [renamedExport, exportName_eq h, Source.renamedExport]
  cases hd : Source.exportName c with
  | error f => rfl
  | ok found =>
  obtain ⟨name, d⟩ := found
  have had := h.exportName hd
  rw [nameIndex_ok, ok_bind]
  dsimp only
  rw [skipTrivia_eq had]
  cases he : d.skipTrivia with
  | error f => rfl
  | ok e =>
  have hae := had.skipTrivia he
  rw [nextIndex_ok, ok_bind, hae.identifierAt_eq, ok_bind]
  dsimp only
  by_cases has : e.identifier = "as".toList
  · rw [if_pos has, if_pos has]
    have hbehind : At t (e.offset + 2) (e.advance 2) := hae.word has rfl
    rw [skipTrivia_eq hbehind]
    cases hg : (e.advance 2).skipTrivia with
    | error f => rfl
    | ok g =>
    have hag := hbehind.skipTrivia hg
    rw [nextIndex_ok, ok_bind, exportName_eq hag]
    dsimp only
    cases hk : Source.exportName g with
    | error f => rfl
    | ok found =>
    obtain ⟨renamed, k⟩ := found
    rw [nameIndex_ok, ok_bind]
    dsimp only
    rw [skipTrivia_eq (hag.exportName hk)]
    cases k.skipTrivia <;> rfl
  · rw [if_neg has, if_neg has]
    rfl

theorem At.renamedExport {name : String} (h : At t i c)
    (hd : Source.renamedExport c = .ok (name, d)) : At t d.offset d :=
  h.onward (onward_renamedExport hd)

/-- How a round through the names of a list ends behind a name. -/
def listOutcome (d : Cursor) : Checked (Round Int Int) :=
  if d.peek? = some ',' then (nextIndex (d.advance 1).skipTrivia).map .again
  else if d.peek? = some '\x7d' then .ok (.again d.offset)
  else .error (.fault (d.fault .unexpectedInExports))

theorem perform_exportedRound (h : At t i c) (hclose : c.peek? ≠ some '\x7d') (st : State) :
    perform (exportedRound t i) st = match Source.renamedExport c with
      | .error f => (.error (.fault f), st)
      | .ok (name, d) => (listOutcome d, st.export [name]) := by
  rw [exportedRound, h.charAt?_eq, if_neg hclose, perform_bind, perform_lift, renamedExport_eq h]
  cases hd : Source.renamedExport c with
  | error f => rfl
  | ok found =>
  obtain ⟨name, d⟩ := found
  have had := h.renamedExport hd
  rw [nameIndex_ok]
  dsimp only
  rw [perform_bind_ok (m := addExport name) rfl, had.charAt?_eq, listOutcome]
  by_cases hcomma : d.peek? = some ','
  · rw [if_pos hcomma, if_pos hcomma, perform_bind, perform_lift,
      skipTrivia_eq (had.char hcomma rfl)]
    cases (d.advance 1).skipTrivia <;> rfl
  rw [if_neg hcomma, if_neg hcomma]
  by_cases hend : d.peek? = some '\x7d'
  · rw [if_pos hend, if_pos hend]
    rfl
  · rw [if_neg hend, if_neg hend, perform_lift, had.fail_eq]
    rfl

theorem perform_exportedNames (h : At t i c) (st : State) : perform (exportedNames t i) st =
    (nextIndex (Source.exportedNames c).2, st.export (Source.exportedNames c).1) := by
  induction hsize : c.size using Nat.strong_induction_on generalizing c i st with
  | _ size ih =>
  rw [Source.exportedNames_eq, exportedNames]
  by_cases hclose : c.peek? = some '\x7d'
  · have hround : perform (exportedRound t i) st = (.ok (.done i), st) := by
      rw [exportedRound, h.charAt?_eq, if_pos hclose]
      rfl
    rw [if_pos hclose, perform_loop_done hround, export_nil, h.index_eq]
    rfl
  have hround := perform_exportedRound h hclose st
  rw [if_neg hclose]
  cases hd : Source.renamedExport c with
  | error f =>
      rw [hd] at hround
      rw [perform_loop_error hround, export_nil]
      rfl
  | ok found =>
  obtain ⟨name, d⟩ := found
  have had := h.renamedExport hd
  have hdc := size_renamedExport_lt hd
  rw [hd] at hround
  dsimp only [listOutcome] at hround ⊢
  have goOn {j : Int} {e : Cursor} (he : At t j e) (hlt : e.size < c.size)
      (hround : perform (exportedRound t i) st = (.ok (.again j), st.export [name])) :
      perform (loop (left t) (exportedRound t) i) st =
        (nextIndex (Source.exportedNames e).2, st.export (name :: (Source.exportedNames e).1)) := by
    rw [perform_loop_again hround (by rwa [h.left_eq, he.left_eq]), ← exportedNames,
      ih _ (hsize ▸ hlt) he _ rfl, export_append, List.singleton_append]
  by_cases hcomma : d.peek? = some ','
  · rw [if_pos hcomma] at hround ⊢
    cases he : (d.advance 1).skipTrivia with
    | error f =>
        rw [he] at hround
        rw [perform_loop_error hround]
        rfl
    | ok e =>
        rw [he] at hround
        have hed := Cursor.size_skipTrivia_le he
        rw [Cursor.size_advance] at hed
        exact goOn ((had.char hcomma rfl).skipTrivia he) (by omega) hround
  rw [if_neg hcomma] at hround ⊢
  by_cases hend : d.peek? = some '\x7d'
  · -- The next round stops at the brace.
    rw [if_pos hend] at hround ⊢
    rw [goOn had hdc hround, Source.exportedNames_eq, if_pos hend]
  · rw [if_neg hend] at hround ⊢
    rw [perform_loop_error hround]
    rfl

/-! ### Exports -/

theorem performs_exportsFrom {next : Int} (hnext : next = e.offset - 1) (h : At t i c)
    (st : State) : Performs (exportsFrom t next i) st (Source.exportsFrom [] e c) := by
  refine performs_identifierAt h (performs_ite (fun hfrom => ?_) fun _ => performs_moveTo hnext)
  have hbehind : At t (i + 4) (c.advance 4) := h.word hfrom rfl
  exact performs_skipTrivia hbehind fun d had => performs_sourceString had st

theorem exporting_exportsFrom (names : List String) (next c : Cursor) :
    exporting names (Source.exportsFrom [] next c) = Source.exportsFrom names next c := by
  unfold Source.exportsFrom
  by_cases hfrom : c.identifier = "from".toList
  · rw [if_pos hfrom, if_pos hfrom]
    cases (c.advance 4).skipTrivia with
    | error f => simp [exporting]
    | ok d => cases hd : Source.sourceString d <;> simp [exporting, hd]
  · rw [if_neg hfrom, if_neg hfrom]
    simp [exporting]

/-- What follows some names may be read without them. -/
theorem exporting_after (names : List String) (next : Cursor → Cursor)
    (outcome : Except SyntaxFault Cursor) :
    exporting names (match outcome with
      | .error f => .plain (.error f)
      | .ok e => Source.exportsFrom [] (next e) e) =
    match outcome with
      | .error f => ⟨[], names, none, .error f⟩
      | .ok e => Source.exportsFrom names (next e) e := by
  cases outcome with
  | error f => simp [exporting, Statement.plain]
  | ok e => exact exporting_exportsFrom names (next e) e

theorem performs_exportList (h : At t i c) (hpeek : c.peek? = some '\x7b') (st : State) :
    Performs (exportList t i) st (Source.exportList c) := by
  refine performs_skipTrivia (h.char hpeek rfl) fun d had => ?_
  have hnames := perform_exportedNames had st
  have hyields := yields_exportedNames d
  rcases hd : Source.exportedNames d with ⟨names, f | close⟩
  · rw [hd] at hnames
    rw [Performs, perform_bind_error hnames]
    simp [State.add, State.export]
  · rw [hd] at hnames hyields
    have hclose := had.onward hyields
    have hbehind := hclose.char (peek?_of_exportedNames (congrArg Prod.snd hd)) rfl
    refine .congr ?_ (exporting_after names (fun _ => close.advance 1) (close.advance 1).skipTrivia)
    have hnext : (close.offset : Int) = ((close.advance 1).offset : Int) - 1 := by
      have := hbehind.index_eq
      omega
    exact performs_exporting hnames
      (performs_skipTrivia hbehind fun e hae => performs_exportsFrom hnext hae _)

theorem performs_exportStar (h : At t i c) (hpeek : c.peek? = some '*') (st : State) :
    Performs (exportStar t i) st (Source.exportStar c) := by
  refine performs_skipTrivia (h.char hpeek rfl) fun d had => performs_identifierAt had ?_
  refine performs_ite (fun has => ?_) fun _ => ?_
  · have hbehind : At t (d.offset + 2) (d.advance 2) := had.word has rfl
    refine performs_skipTrivia hbehind fun e hae => ?_
    have hname := exportName_eq hae
    cases he : Source.exportName e with
    | error f =>
        rw [he] at hname
        exact performs_fault hname
    | ok found =>
        obtain ⟨name, g⟩ := found
        rw [he, nameIndex_ok] at hname
        refine performs_bind hname (.congr (performs_addExport ?_)
          (exporting_after [name] (fun k => k) g.skipTrivia))
        exact performs_skipTrivia (hae.exportName he) fun k hak => performs_exportsFrom rfl hak _
  · exact performs_exportsFrom rfl had st

/-- Names that are declared are exported, and the scan goes on in front of their values. -/
theorem performs_declaredNames (h : At t i c) (hj : j = i - 1) (st : State) :
    Performs (declaredNames t i >>= fun _ => moveTo j) st (match Source.declaredNames c with
      | (names, some f) => ⟨[], names, none, .error f⟩
      | (names, none) => ⟨[], names, none, .ok c⟩) := by
  have hnames := perform_declaredNames h st
  rcases hd : Source.declaredNames c with ⟨names, fault?⟩
  rw [hd] at hnames
  cases fault? with
  | some f =>
      rw [Performs, perform_bind_error hnames]
      simp [State.add, State.export]
  | none =>
      refine .congr (performs_exporting hnames (performs_moveTo (d := c) ?_)) ?_
      · rw [hj, h.index_eq]
      · simp [exporting, Statement.plain]

theorem performs_exportedItem {start : Int} {first s : Cursor} (hs : At t (start + 6) (s.advance 6))
    (h : At t i c) (hfirst : first = c ∨ first.peek? = some 'a') (st : State) :
    Performs (exportedItem t start first.peek? i) st (Source.exportedItem s first c) := by
  have hpeek {ch : Char} (hch : first.peek? = some ch) (hne : ch ≠ 'a') : c.peek? = some ch := by
    rcases hfirst with rfl | hfirst
    · exact hch
    · exact absurd (Option.some.inj (hch.symm.trans hfirst)) hne
  refine performs_identifierAt h ?_
  rw [Source.exportedItem]
  dsimp only
  refine performs_ite (fun hword => ?_) fun _ => performs_ite (fun hword => ?_) fun _ => ?_
  · have hbehind : At t (i + c.identifier.length) (c.advance 8) := by
      rw [hword]
      exact h.word hword rfl
    refine performs_skipTrivia hbehind fun d had => ?_
    rw [had.charAt?_eq]
    refine performs_ite (fun hstar => ?_) fun _ => performs_exportDeclared had st
    exact performs_skipTrivia (had.char hstar rfl) fun e hae => performs_exportDeclared hae st
  · have hbehind : At t (i + c.identifier.length) (c.advance 5) := by
      rw [hword]
      exact h.word hword rfl
    exact performs_skipTrivia hbehind fun d had => performs_exportDeclared had st
  simp only [Bool.or_eq_true, decide_eq_true_eq, or_assoc]
  refine performs_ite (fun _ => performs_declaredNames (h.identifier rfl) rfl st) fun _ => ?_
  refine performs_ite (fun hopen => performs_exportList h (hpeek hopen (by decide)) st) fun _ => ?_
  refine performs_ite (fun hstar => performs_exportStar h (hpeek hstar (by decide)) st) fun _ => ?_
  exact performs_moveTo (by have := hs.index_eq; omega)

theorem performs_exportStatement (h : At t st.index c) (hrest : c.rest ≠ []) :
    Performs (exportStatement t) st (Source.exportStatement (st.openers ≠ []) c) := by
  have hone : At t (st.index + 1) (c.advance 1) := h.advance (List.length_pos_iff.2 hrest) rfl
  have hstay : st.index = ((c.advance 1).offset : Int) - 1 := by
    have := hone.index_eq
    omega
  refine performs_get (performs_get ?_)
  rw [Source.exportStatement]
  by_cases hopen : st.openers = []
  · simp only [hopen, ne_eq, not_true_eq_false, decide_false, Bool.false_or, if_false]
    refine performs_bind (isKeywordAt_eq h rfl (List.all_eq_true.1 rfl)) ?_
    by_cases hkey : c.atKeyword "export".toList = true
    · have hbehind : At t (st.index + 6) (c.advance 6) := h.keyword hkey rfl
      rw [hkey, if_pos rfl, Bool.not_true, if_neg Bool.false_ne_true]
      refine performs_skipTrivia hbehind fun d had => performs_identifierAt had ?_
      rw [had.charAt?_eq]
      refine performs_ite (fun hdefault => ?_) fun _ => performs_ite (fun hasync => ?_) fun _ => ?_
      · have hword : At t (d.offset + d.identifier.length) (d.advance 7) := by
          rw [hdefault]
          exact had.word hdefault rfl
        exact performs_addExport (performs_moveTo (by have := hword.index_eq; omega))
      · have hword : At t (d.offset + d.identifier.length) (d.advance 5) := by
          rw [hasync]
          exact had.word hasync rfl
        have hfirst : d.peek? = some 'a' := Cursor.peek?_of_identifier hasync
        exact performs_skipTrivia hword fun e hae =>
          performs_exportedItem hbehind hae (.inr hfirst) st
      · exact performs_exportedItem hbehind had (.inl rfl) st
    · rw [Bool.eq_false_iff.2 hkey, if_neg Bool.false_ne_true, Bool.not_false, if_pos rfl]
      exact performs_pure hstay
  · simp only [hopen, ne_eq, not_false_eq_true, decide_true, Bool.true_or, if_true]
    exact performs_pure hstay

end ImportAtlas.Source.Indexed

import ImportAtlas.Proofs.Indices
import ImportAtlas.Proofs.Delimiters

/-!
# Lexical elements by their indices

The reading of each lexical element by its indices is the reading by places, when the index is that
of the place. The loop that reads an element follows the recursion over the text ahead: a round for
each clause, and an index that has moved on by the characters that the clause takes.

At the end of a source the two differ in form. A backslash that is the last character has no other
behind it, so that the text ahead matches no clause that takes two; the round behind it stands at an
index further on than the end, and finds the fault there.

## Summary

* `Ahead t i cs` says that `cs` is the text from the index `i` on, `At t i c` that `i` is the index
  of the place `c`, and `EndsAt t i past` that `past` is the text up to the index `i`.
* `nextIndex` and `lastIndex` turn the outcome of a movement into that of a reading by indices.
* `TriviaTurn` and `RegexTurn` list what one round through white space and comments, or through a
  regular expression, does.

## Main results

* `skipTrivia_eq`, `string_eq`, `chunk_eq` and `regex_eq`: white space and comments, strings, pieces
  of templates and regular expressions.
* `EndsAt.wordEndingAt_eq`, `identifierAt_eq` and `isKeywordAt_eq`: the words in front of an index
  and behind one.
-/

namespace ImportAtlas.Source.Indexed

variable {t cs rest : List Char} {ch : Char} {i j : Int} {past : Past} {c d : Cursor}

/-! ### Computations -/

section
variable {α β : Type}

@[simp] theorem pure_eq_ok (a : α) : (pure a : Checked α) = .ok a := rfl

@[simp] theorem ok_bind (a : α) (f : α → Checked β) : (Except.ok a >>= f) = f a := rfl

@[simp] theorem error_bind (e : Abort) (f : α → Checked β) :
    ((Except.error e : Checked α) >>= f) = .error e := rfl

end

section
variable {σ ρ : Type} {rank : σ → Nat} {round : σ → Checked (Round σ ρ)} {s s' : σ}

theorem loop_of_done {r : ρ} (h : round s = .ok (.done r)) : loop rank round s = .ok r := by
  rw [loop, h]
  rfl

theorem loop_of_error {e : Abort} (h : round s = .error e) : loop rank round s = .error e := by
  rw [loop, h]
  rfl

theorem loop_of_again (h : round s = .ok (.again s')) (hrank : rank s' < rank s) :
    loop rank round s = loop rank round s' := by
  rw [loop, h]
  exact dif_pos hrank

end

/-- An index that is further on leaves fewer characters. -/
theorem left_lt (h : i < t.length) (hij : i < j) : left t j < left t i := by
  unfold left
  omega

/-! ### Indices in a source -/

/-- The characters from an index on. -/
def Ahead (t : List Char) (i : Int) (cs : List Char) : Prop :=
  ∃ front, t = front ++ cs ∧ i = front.length

namespace Ahead

theorem charAt?_eq (h : Ahead t i cs) (n : Nat) : charAt? t (i + n) = cs[n]? := by
  obtain ⟨front, rfl, rfl⟩ := h
  rw [charAt?, if_pos (by omega), show ((front.length : Int) + n).toNat = front.length + n by omega,
    List.getElem?_append_right (by omega), Nat.add_sub_cancel_left]

theorem charAt?_head (h : Ahead t i cs) : charAt? t i = cs.head? := by
  rw [List.head?_eq_getElem?, ← h.charAt?_eq 0, Int.natCast_zero, Int.add_zero]

theorem charAt?_succ (h : Ahead t i (ch :: cs)) : charAt? t (i + 1) = cs.head? :=
  (h.charAt?_eq 1).trans (by rw [List.getElem?_cons_succ, List.head?_eq_getElem?])

theorem access_eq (h : Ahead t i (ch :: cs)) : access t i = .ok ch := by
  rw [access, h.charAt?_head, List.head?_cons]

theorem add_length_eq (h : Ahead t i cs) : i + cs.length = t.length := by
  obtain ⟨front, rfl, rfl⟩ := h
  simp

theorem nonneg (h : Ahead t i cs) : 0 ≤ i := by
  obtain ⟨front, -, rfl⟩ := h
  omega

theorem lt_length (h : Ahead t i (ch :: cs)) : i < t.length := by
  have := h.add_length_eq
  rw [List.length_cons] at this
  omega

theorem not_length_le (h : Ahead t i (ch :: cs)) : ¬ (t.length : Int) ≤ i := by
  have := h.lt_length
  omega

theorem prev_lt_length (h : Ahead t (i + 1) (ch :: cs)) : i < t.length := by
  have := h.lt_length
  omega

theorem length_le (h : Ahead t i []) : (t.length : Int) ≤ i := by
  have := h.add_length_eq
  rw [List.length_nil] at this
  omega

theorem drop (cs : List Char) (h : Ahead t i (cs ++ rest)) (hj : j = i + cs.length) :
    Ahead t j rest := by
  obtain ⟨front, rfl, rfl⟩ := h
  exact ⟨front ++ cs, by rw [List.append_assoc], by rw [hj, List.length_append]; omega⟩

theorem tail (h : Ahead t i (ch :: cs)) (hj : j = i + 1) : Ahead t j cs :=
  drop [ch] h hj

theorem slice_eq {n : Nat} (h : Ahead t i cs) (hj : j = i + n) : slice t i j = cs.take n := by
  obtain ⟨front, rfl, rfl⟩ := h
  subst hj
  have hi : bound (front ++ cs) front.length = front.length := by
    rw [bound, if_neg (by omega)]
    omega
  have hj : bound (front ++ cs) (front.length + n) = front.length + n := by
    rw [bound, if_neg (by omega)]
    omega
  rw [slice, hi, hj, List.take_length_add_append, List.drop_left]

end Ahead

section
variable {ρ : Type} {round : Int → Checked (Round Int ρ)}

/-- A round that looks at the next character goes on behind it. -/
theorem Ahead.loop_eq (h : Ahead t (i + 1) (ch :: cs)) (hround : round i = .ok (.again j))
    (hij : i < j) : loop (left t) round i = loop (left t) round j :=
  loop_of_again hround (left_lt h.prev_lt_length hij)

/-- A round that passes over two characters where only one is left makes the next round fail. -/
theorem Ahead.loop_eq_error {e : Abort} (h : Ahead t (i + 1) [ch])
    (hround : round i = .ok (.again (i + 2)))
    (hend : ∀ j, (t.length : Int) ≤ j + 1 → round j = .error e) :
    loop (left t) round i = .error e := by
  have hlength := (h.tail rfl).length_le
  rw [h.loop_eq hround (by omega)]
  exact loop_of_error (hend _ (by omega))

end

/-- A place in a source, and the index of the character that comes next there. -/
structure At (t : List Char) (i : Int) (c : Cursor) : Prop where
  text_eq : c.text = t
  index_eq : i = c.offset

namespace At

theorem ahead (h : At t i c) : Ahead t i c.rest := ⟨c.past.reverse, h.text_eq.symm, by
  rw [h.index_eq, Cursor.offset, List.length_reverse]⟩

theorem between {taken : List Char} (h : At t i c) (hd : c.Between taken d)
    (hj : j = i + taken.length) : At t j d :=
  ⟨hd.text_eq.trans h.text_eq, by rw [hj, h.index_eq, hd.offset_eq, Int.natCast_add]⟩

theorem advance {n : Nat} (h : At t i c) (hn : n ≤ c.size) (hj : j = i + n) :
    At t j (c.advance n) :=
  h.between (c.between_advance n) (by rwa [List.length_take_of_le hn])

theorem of_between {taken : List Char} (h : At t i c) (hd : c.Between taken d) : At t d.offset d :=
  ⟨hd.text_eq.trans h.text_eq, rfl⟩

end At

theorem offset_advance {n : Nat} (hn : n ≤ c.size) : (c.advance n).offset = c.offset + n := by
  rw [(c.between_advance n).offset_eq, List.length_take_of_le hn]

theorem At.fail_eq {α : Type} (h : At t i c) (cause : SyntaxCause) :
    (fail i cause : Checked α) = .error (.fault (c.fault cause)) := by
  rw [fail, h.index_eq, Int.toNat_natCast]
  rfl

/-! ### White space and comments -/

theorem startsComment_cons : startsComment (ch :: cs) = true ↔
    ch = '/' ∧ (cs.head? = some '/' ∨ cs.head? = some '*') := by
  cases cs with
  | nil => simp [startsComment]
  | cons next cs =>
      unfold startsComment
      split
      · simp_all
      · simp_all
      · rename_i hline hblock
        simp only [List.head?_cons, Option.some.injEq, Bool.false_eq_true, false_iff, not_and,
          not_or]
        rintro rfl
        exact ⟨fun hnext => hline cs (hnext ▸ rfl), fun hnext => hblock cs (hnext ▸ rfl)⟩

/-- The number of characters of a line as far as its break, which counts. -/
def lineLength : List Char → Nat
  | [] => 0
  | c :: cs => if isLineBreak c then 1 else lineLength cs + 1

theorem lineComment_eq (h : Ahead t (i + 1) cs) : lineComment t i = .ok (i + lineLength cs) := by
  induction cs generalizing i with
  | nil =>
      have hend : ((t.length : Int) ≤ i + 1) := h.length_le
      have hround : lineRound t i = .ok (.done (t.length - 1)) := if_pos hend
      rw [lineComment, loop_of_done hround, lineLength]
      exact congrArg Except.ok (by have := h.add_length_eq; simp at this; omega)
  | cons ch cs ih =>
      by_cases hbreak : isLineBreak ch = true
      · have hround : lineRound t i = .ok (.done (i + 1)) := by
          simp [lineRound, h.not_length_le, h.access_eq, hbreak]
        rw [lineComment, loop_of_done hround, lineLength, if_pos hbreak]
        rfl
      · have hround : lineRound t i = .ok (.again (i + 1)) := by
          simp [lineRound, h.not_length_le, h.access_eq, hbreak]
        rw [lineComment, h.loop_eq hround (by omega)]
        refine (ih (h.tail rfl)).trans (congrArg Except.ok ?_)
        rw [lineLength, if_neg hbreak]
        omega

theorem triviaLengthIn_lineComment (offset : Nat) (cs : List Char) :
    triviaLengthIn offset .lineComment cs =
      (triviaLengthIn (offset + lineLength cs) .space (cs.drop (lineLength cs))).map
        (· + lineLength cs) := by
  induction cs generalizing offset with
  | nil => rfl
  | cons ch cs ih =>
      rw [triviaLengthIn, lineLength]
      by_cases hbreak : isLineBreak ch = true
      · rw [if_pos hbreak, if_pos hbreak, List.drop_one, List.tail_cons]
      · rw [if_neg hbreak, if_neg hbreak, ih, map_map_add, List.drop_succ_cons, Nat.add_assoc,
          Nat.add_comm 1]

theorem triviaLengthIn_blockComment (start offset : Nat) (cs : List Char) :
    triviaLengthIn offset (.blockComment start) cs =
      match lengthBefore? "*/".toList cs with
      | some n => (triviaLengthIn (offset + (n + 2)) .space (cs.drop (n + 2))).map (· + (n + 2))
      | none => .error ⟨start, .unterminatedComment⟩ := by
  induction cs generalizing offset with
  | nil => rfl
  | cons ch cs ih =>
      by_cases hclose : "*/".toList.isPrefixOf (ch :: cs) = true
      · obtain ⟨more, hmore⟩ := List.isPrefixOf_iff_prefix.1 hclose
        rw [lengthBefore?, if_pos hclose, ← hmore]
        rfl
      · rw [lengthBefore?, if_neg hclose, triviaLengthIn, ih]
        · cases lengthBefore? "*/".toList cs with
          | none => rfl
          | some n =>
              simp only [Option.map_some]
              rw [map_map_add, List.drop_succ_cons, Nat.add_right_comm n, Nat.add_assoc offset,
                Nat.add_comm 1]
        · rintro more rfl rfl
          exact hclose rfl

theorem lineLength_le (cs : List Char) : lineLength cs ≤ cs.length := by
  induction cs with
  | nil => exact Nat.le_refl _
  | cons ch cs ih =>
      rw [lineLength, List.length_cons]
      split <;> omega

theorem add_two_le_of_lengthBefore? {n : Nat} (h : lengthBefore? "*/".toList cs = some n) :
    n + 2 ≤ cs.length := by
  induction cs generalizing n with
  | nil => cases h
  | cons ch cs ih =>
      rw [lengthBefore?] at h
      split at h
      · rename_i hclose
        obtain rfl := Option.some.inj h
        simpa using (List.isPrefixOf_iff_prefix.1 hclose).length_le
      · obtain ⟨m, hm, rfl⟩ := Option.map_eq_some_iff.1 h
        have := ih hm
        rw [List.length_cons]
        omega

/-- White space and comments may be passed over in two parts. -/
theorem skipTrivia_advance {n : Nat} (hn : n ≤ c.size)
    (h : triviaLength c.rest = (triviaLengthIn n .space (c.rest.drop n)).map (· + n)) :
    c.skipTrivia = (c.advance n).skipTrivia := by
  have hoffset := offset_advance hn
  have hlater := triviaLengthIn_later n .space 0 (c.rest.drop n)
  rw [Nat.zero_add, TriviaMode.later] at hlater
  rw [Cursor.skipTrivia, h, Cursor.skipTrivia, triviaLength, hlater, Cursor.advance]
  cases triviaLengthIn 0 .space (c.rest.drop n) with
  | ok m =>
      simp only [Except.mapError, Except.map]
      rw [Nat.add_comm, Cursor.advance_add]
      rfl
  | error f =>
      rw [Cursor.advance] at hoffset
      simp only [Except.mapError, Except.map, SyntaxFault.later, Cursor.faultFrom, hoffset]
      rw [Nat.add_comm f.position, Nat.add_assoc]

theorem skipTrivia_of_line (hc : c.rest = '/' :: '/' :: cs) :
    c.skipTrivia = (c.advance (lineLength cs + 2)).skipTrivia := by
  refine skipTrivia_advance ?_ ?_
  · have := lineLength_le cs
    rw [Cursor.size, hc, List.length_cons, List.length_cons]
    omega
  · rw [triviaLength, hc, triviaLengthIn, triviaLengthIn_lineComment, map_map_add, Nat.zero_add,
      Nat.add_comm 2]
    rfl

theorem skipTrivia_of_block {n : Nat} (hc : c.rest = '/' :: '*' :: cs)
    (h : lengthBefore? "*/".toList cs = some n) :
    c.skipTrivia = (c.advance (n + 4)).skipTrivia := by
  refine skipTrivia_advance ?_ ?_
  · have := add_two_le_of_lengthBefore? h
    rw [Cursor.size, hc, List.length_cons, List.length_cons]
    omega
  · rw [triviaLength, hc, triviaLengthIn, triviaLengthIn_blockComment, h, Nat.zero_add]
    simp only []
    rw [map_map_add, Nat.add_comm 2]
    rfl

theorem skipTrivia_of_unclosed (hc : c.rest = '/' :: '*' :: cs)
    (h : lengthBefore? "*/".toList cs = none) :
    c.skipTrivia = .error (c.fault .unterminatedComment) := by
  rw [Cursor.skipTrivia, triviaLength, hc, triviaLengthIn, triviaLengthIn_blockComment, h]
  rfl

theorem blockComment_eq (h : Ahead t (i + 1) cs) :
    blockComment t i = match lengthBefore? "*/".toList cs with
      | some n => .ok (i + (n + 2))
      | none => fail (i - 1) .unterminatedComment := by
  obtain ⟨front, rfl, hfront⟩ := h
  have hbound : bound (front ++ cs) (i + 1) = front.length := by
    rw [hfront, bound, if_neg (by omega)]
    omega
  rw [blockComment, find?, hbound, List.drop_left]
  cases lengthBefore? "*/".toList cs with
  | none => rfl
  | some n => exact congrArg Except.ok (by push_cast; omega)

/-- The index of the character that comes next at the place where a movement ends. -/
def nextIndex (outcome : Except SyntaxFault Cursor) : Checked Int :=
  (outcome.mapError .fault).map fun d => (d.offset : Int)

/-- What one round through white space and comments does. -/
inductive TriviaTurn (t : List Char) (i : Int) (c : Cursor) : Prop where
  /-- It stands still in front of what begins there. -/
  | stay (round : triviaRound t i = .ok (.done i)) (begins : Begins c.rest)
  /-- It passes over a part that may be passed over first. -/
  | pass {n : Nat} (pos : 0 < n) (le : n ≤ c.size)
      (round : triviaRound t i = .ok (.again (i + (n : Nat))))
      (skip : c.skipTrivia = (c.advance n).skipTrivia)
  /-- It ends at the fault of what is skipped. -/
  | stop {f : SyntaxFault} (round : triviaRound t i = .error (.fault f))
      (skip : c.skipTrivia = .error f)

theorem Ahead.triviaRound_eq {ch : Char} (h : Ahead t i (ch :: cs)) :
    triviaRound t i =
      if isSpace ch then .ok (.again (i + 1))
      else if ch = '/' then
        if cs.head? = some '/' then do return .again ((← lineComment t (i + 1)) + 1)
        else if cs.head? = some '*' then do return .again ((← blockComment t (i + 1)) + 1)
        else .ok (.done i)
      else .ok (.done i) := by
  simp [triviaRound, h.lt_length, h.access_eq, h.charAt?_succ]

/-- A round in front of a line comment passes over it. -/
theorem triviaTurn_of_line (h : At t i c) (hrest : c.rest = '/' :: '/' :: cs) :
    TriviaTurn t i c := by
  have ha := h.ahead
  rw [hrest] at ha
  have hle := lineLength_le cs
  have hsize : c.size = cs.length + 2 := by rw [Cursor.size, hrest]; rfl
  refine .pass (n := lineLength cs + 2) (by omega) (by omega) ?_ (skipTrivia_of_line hrest)
  rw [ha.triviaRound_eq, if_neg (by decide), if_pos rfl, List.head?_cons, if_pos rfl,
    lineComment_eq ((ha.tail rfl).tail rfl)]
  exact congrArg (Except.ok ∘ Round.again) (by push_cast; omega)

/-- A round in front of a block comment passes over it where it is closed. -/
theorem triviaTurn_of_block (h : At t i c) (hrest : c.rest = '/' :: '*' :: cs) :
    TriviaTurn t i c := by
  have ha := h.ahead
  rw [hrest] at ha
  have hround := ha.triviaRound_eq
  rw [if_neg (by decide), if_pos rfl, List.head?_cons, if_neg (by decide), if_pos rfl,
    blockComment_eq ((ha.tail rfl).tail rfl)] at hround
  cases hclose : lengthBefore? "*/".toList cs with
  | none =>
      rw [hclose] at hround
      refine .stop (hround.trans ?_) (skipTrivia_of_unclosed hrest hclose)
      rw [show i + 1 - 1 = i by omega, h.fail_eq]
      rfl
  | some n =>
      rw [hclose] at hround
      have hle := add_two_le_of_lengthBefore? hclose
      have hsize : c.size = cs.length + 2 := by rw [Cursor.size, hrest]; rfl
      refine .pass (n := n + 4) (by omega) (by omega) (hround.trans ?_)
        (skipTrivia_of_block hrest hclose)
      exact congrArg (Except.ok ∘ Round.again) (by push_cast; omega)

theorem triviaTurn_of_at (h : At t i c) : TriviaTurn t i c := by
  have ha := h.ahead
  cases hrest : c.rest with
  | nil =>
      rw [hrest] at ha
      exact .stay (if_neg (by have := ha.length_le; omega)) (by simp [hrest, Begins, startsComment])
  | cons ch rest =>
      rw [hrest] at ha
      have hround := ha.triviaRound_eq
      by_cases hspace : isSpace ch = true
      · rw [if_pos hspace] at hround
        exact .pass (n := 1) Nat.one_pos (by rw [Cursor.size, hrest]; simp) hround
          (Cursor.skipTrivia_of_isSpace hrest hspace)
      by_cases hline : ch = '/' ∧ rest.head? = some '/'
      · obtain ⟨rfl, hhead⟩ := hline
        obtain ⟨cs, rfl⟩ := List.head?_eq_some_iff.1 hhead
        exact triviaTurn_of_line h hrest
      by_cases hblock : ch = '/' ∧ rest.head? = some '*'
      · obtain ⟨rfl, hhead⟩ := hblock
        obtain ⟨cs, rfl⟩ := List.head?_eq_some_iff.1 hhead
        exact triviaTurn_of_block h hrest
      -- Neither white space nor a comment is ahead.
      refine .stay ?_ ?_
      · rw [hround, if_neg hspace]
        by_cases hslash : ch = '/'
        · rw [if_pos hslash, if_neg fun hhead => hline ⟨hslash, hhead⟩,
            if_neg fun hhead => hblock ⟨hslash, hhead⟩]
        · rw [if_neg hslash]
      · rw [hrest]
        refine ⟨by simp [hspace], Bool.eq_false_iff.2 fun hstarts => ?_⟩
        obtain ⟨hslash, hhead⟩ := startsComment_cons.1 hstarts
        exact hhead.elim (fun hhead => hline ⟨hslash, hhead⟩) fun hhead => hblock ⟨hslash, hhead⟩

theorem skipTrivia_eq (h : At t i c) : skipTrivia t i = nextIndex c.skipTrivia := by
  induction hn : c.size using Nat.strong_induction_on generalizing c i with
  | _ size ih =>
      cases triviaTurn_of_at h with
      | stay hround hbegins =>
          rw [skipTrivia, loop_of_done hround, Cursor.skipTrivia_of_begins hbegins, h.index_eq]
          rfl
      | pass hpos hle hround hskip =>
          have hlt : i < t.length := by
            have := h.ahead.add_length_eq
            rw [Cursor.size] at hle
            omega
          rw [skipTrivia, loop_of_again hround (left_lt hlt (by omega)), hskip]
          exact ih _ (by rw [Cursor.size_advance]; omega) (h.advance hle rfl) rfl
      | stop hround hskip =>
          rw [skipTrivia, loop_of_error hround, hskip]
          rfl

theorem eq_nil_of_ne_cons {α : Type} {l : List α} (h : ∀ a m, l ≠ a :: m) : l = [] := by
  cases l with
  | nil => rfl
  | cons a m => exact absurd rfl (h a m)

/-! ### Strings -/

/-- The index some characters further on, or a fault where there is no such number. -/
def endAt (start i : Int) (cause : SyntaxCause) : Option Nat → Checked Int
  | some n => .ok (i + n)
  | none => fail start cause

theorem endAt_map {start : Int} {cause : SyntaxCause} {n? : Option Nat} {n : Nat}
    (hj : j = i + n) : endAt start j cause n? = endAt start i cause (n?.map (· + n)) := by
  subst hj
  cases n? with
  | none => rfl
  | some m => exact congrArg Except.ok (by push_cast; omega)

theorem stringLoop_eq {quote : Char} {start : Int} (hquote : quote ≠ '\\')
    (h : Ahead t (i + 1) cs) :
    loop (left t) (stringRound t start quote) i =
      endAt start (i + 1) .unterminatedString (stringLength? quote cs) := by
  fun_induction stringLength? quote cs generalizing i with
  | case1 => exact loop_of_error (if_pos h.length_le)
  | case2 rest ih =>
      have hslice : slice t (i + 2) (i + 4) = ['\r', '\n'] :=
        (h.tail (by omega)).slice_eq (n := 2) (by omega)
      have hround : stringRound t start quote i = .ok (.again (i + 3)) := by
        simp [stringRound, h.not_length_le, h.access_eq, hquote.symm, hslice]
      rw [h.loop_eq hround (by omega)]
      exact (ih (h.drop ['\\', '\r', '\n'] (by simp; omega))).trans
        (endAt_map (by push_cast; omega))
  | case3 next rest hsingle ih =>
      have hslice : slice t (i + 2) (i + 4) ≠ ['\r', '\n'] := by
        rw [(h.tail (by omega)).slice_eq (n := 2) (by omega)]
        intro heq
        cases rest with
        | nil => simp at heq
        | cons last rest =>
            obtain ⟨rfl, rfl⟩ : next = '\r' ∧ last = '\n' := by simpa using heq
            exact hsingle rest rfl rfl
      have hround : stringRound t start quote i = .ok (.again (i + 2)) := by
        simp [stringRound, h.not_length_le, h.access_eq, hquote.symm, hslice]
      rw [h.loop_eq hround (by omega)]
      exact (ih (h.drop ['\\', next] (by simp; omega))).trans
        (endAt_map (by push_cast; omega))
  | case4 =>
      have hround : stringRound t start quote i = .ok (.done (i + 1)) := by
        simp [stringRound, h.not_length_le, h.access_eq]
      rw [loop_of_done hround]
      exact congrArg Except.ok (by simp)
  | case5 last rest _ hescape hne hstop =>
      by_cases hlast : last = '\\'
      · -- the backslash is the last character, so nothing is left for the round behind it
        obtain rfl : rest = [] := eq_nil_of_ne_cons fun next rest => hescape next rest hlast
        have hround : stringRound t start quote i = .ok (.again (i + 2)) := by
          have hslice : slice t (i + 2) (i + 4) = [] :=
            (h.tail (by omega)).slice_eq (n := 2) (by omega)
          simp [stringRound, h.not_length_le, h.access_eq, hlast, hquote.symm, hslice]
        exact h.loop_eq_error hround fun _ hj => if_pos hj
      · refine loop_of_error ?_
        simp only [Bool.or_eq_true, beq_iff_eq, hlast, or_false] at hstop
        simp [stringRound, h.not_length_le, h.access_eq, hne, hlast, hstop]
        rfl
  | case6 next rest _ hescape hne hgo ih =>
      simp only [Bool.or_eq_true, beq_iff_eq, not_or] at hgo
      have hround : stringRound t start quote i = .ok (.again (i + 1)) := by
        simp [stringRound, h.not_length_le, h.access_eq, hne, hgo]
      rw [h.loop_eq hround (by omega)]
      exact (ih (h.tail rfl)).trans (endAt_map rfl)

/-- The index of the last character in front of the place where a movement ends. -/
def lastIndex (outcome : Except SyntaxFault Cursor) : Checked Int :=
  (outcome.mapError .fault).map fun d => (d.offset : Int) - 1

theorem lastIndex_advance {n : Nat} (h : At t i c) (hn : n ≤ c.size) :
    lastIndex (.ok (c.advance n)) = .ok (i + n - 1) := by
  change Except.ok (((c.advance n).offset : Int) - 1) = _
  rw [offset_advance hn, h.index_eq, Int.natCast_add]

theorem string_eq (h : At t i c) (hquote : c.atQuote = true) :
    string t i = lastIndex c.skipString := by
  obtain ⟨quote, hpeek, hisQuote⟩ := (Option.any_eq_true ..).1 hquote
  obtain ⟨body, hrest⟩ : ∃ body, c.rest = quote :: body := List.head?_eq_some_iff.1 hpeek
  have ha := h.ahead
  rw [hrest] at ha
  have hne : quote ≠ '\\' := by
    rintro rfl
    exact absurd hisQuote (by decide)
  rw [string, ha.access_eq, ok_bind, stringLoop_eq hne (ha.tail rfl), Cursor.skipString, hrest]
  dsimp only
  cases hlength : stringLength? quote body with
  | none => exact h.fail_eq _
  | some n =>
      obtain ⟨content, rest, -, rfl, hn⟩ := exists_of_stringLength? hlength
      have hle : n + 2 ≤ c.size := by
        rw [Cursor.size, hrest, ← hn]
        simp
      exact (congrArg Except.ok (by push_cast; omega)).trans (lastIndex_advance h hle).symm

/-! ### Templates -/

/-- How a piece of a template ends, with the index of its last character. -/
def chunkAt (start i : Int) : Option (ChunkEnd × Nat) → Checked (ChunkEnd × Int)
  | some (e, n) => .ok (e, i + n)
  | none => fail start .unterminatedTemplate

theorem chunkAt_map {start : Int} {chunk? : Option (ChunkEnd × Nat)} {n : Nat} (hj : j = i + n) :
    chunkAt start j chunk? = chunkAt start i (chunk?.map fun (e, m) => (e, m + n)) := by
  subst hj
  cases chunk? with
  | none => rfl
  | some chunk => exact congrArg Except.ok (Prod.ext rfl (by push_cast; omega))

theorem chunkLoop_eq {start : Int} (h : Ahead t (i + 1) cs) :
    loop (left t) (chunkRound t start) i = chunkAt start i (chunkLength? cs) := by
  fun_induction chunkLength? cs generalizing i with
  | case1 => exact loop_of_error (if_pos h.length_le)
  | case2 =>
      have hround : chunkRound t start i = .ok (.done (.closed, i + 1)) := by
        simp [chunkRound, h.not_length_le, h.access_eq]
      exact loop_of_done hround
  | case3 next rest ih =>
      have hround : chunkRound t start i = .ok (.again (i + 2)) := by
        simp [chunkRound, h.not_length_le, h.access_eq]
      rw [h.loop_eq hround (by omega)]
      exact (ih (h.drop ['\\', next] (by simp; omega))).trans (chunkAt_map rfl)
  | case4 rest =>
      have hnext : charAt? t (i + 2) = some '\x7b' :=
        (h.tail (by omega)).charAt?_head
      have hround : chunkRound t start i = .ok (.done (.substitution, i + 2)) := by
        simp [chunkRound, h.not_length_le, h.access_eq, hnext]
      exact loop_of_done hround
  | case5 rest htick hescape hdollar =>
      obtain rfl : rest = [] := eq_nil_of_ne_cons fun next rest => hescape next rest rfl
      have hround : chunkRound t start i = .ok (.again (i + 2)) := by
        simp [chunkRound, h.not_length_le, h.access_eq]
      exact h.loop_eq_error hround fun _ hj => if_pos hj
  | case6 next rest htick hescape hdollar hne ih =>
      have hdollar' : ¬ (next = '$' ∧ charAt? t (i + 2) = some '\x7b') := by
        rintro ⟨rfl, hnext⟩
        rw [(h.tail (by omega)).charAt?_head] at hnext
        obtain ⟨more, rfl⟩ := List.head?_eq_some_iff.1 hnext
        exact hdollar more rfl rfl
      have hround : chunkRound t start i = .ok (.again (i + 1)) := by
        simp only [chunkRound, if_neg h.not_length_le, h.access_eq, ok_bind, if_neg htick,
          if_neg hne, if_neg hdollar']
        rfl
      rw [h.loop_eq hround (by omega)]
      exact (ih (h.tail rfl)).trans (chunkAt_map rfl)

theorem chunk_eq (h : Ahead t i (ch :: cs)) : chunk t i = chunkAt i i (chunkLength? cs) :=
  chunkLoop_eq (h.tail rfl)

/-! ### Regular expressions -/

/-- The number of characters of a class as far as its end, which counts. -/
def classLength? : List Char → Option Nat
  | '\\' :: _ :: cs => (classLength? cs).map (· + 2)
  | c :: cs =>
    if c = ']' then some 1
    else if isLineBreak c || c == '\\' then none
    else (classLength? cs).map (· + 1)
  | [] => none

theorem classLoop_eq {start : Int} (h : Ahead t (i + 1) cs) :
    loop (left t) (classRound t start) i = endAt start i .unterminatedClass (classLength? cs) := by
  fun_induction classLength? cs generalizing i with
  | case1 next rest ih =>
      have hround : classRound t start i = .ok (.again (i + 2)) := by
        simp [classRound, h.not_length_le, h.access_eq]
      rw [h.loop_eq hround (by omega)]
      exact (ih (h.drop ['\\', next] (by simp; omega))).trans (endAt_map rfl)
  | case2 =>
      have hround : classRound t start i = .ok (.done (i + 1)) := by
        simp [classRound, h.not_length_le, h.access_eq]
      exact loop_of_done hround
  | case3 last rest hescape hclose hstop =>
      by_cases hlast : last = '\\'
      · obtain rfl : rest = [] := eq_nil_of_ne_cons fun next rest => hescape next rest hlast
        have hround : classRound t start i = .ok (.again (i + 2)) := by
          simp [classRound, h.not_length_le, h.access_eq, hlast]
        exact h.loop_eq_error hround fun _ hj => if_pos hj
      · simp only [Bool.or_eq_true, beq_iff_eq, hlast, or_false] at hstop
        exact loop_of_error (by
          simp [classRound, h.not_length_le, h.access_eq, hclose, hlast, hstop]; rfl)
  | case4 next rest hescape hclose hgo ih =>
      simp only [Bool.or_eq_true, beq_iff_eq, not_or] at hgo
      have hround : classRound t start i = .ok (.again (i + 1)) := by
        simp [classRound, h.not_length_le, h.access_eq, hclose, hgo]
      rw [h.loop_eq hround (by omega)]
      exact (ih (h.tail rfl)).trans (endAt_map rfl)
  | case5 => exact loop_of_error (if_pos h.length_le)

theorem regexLengthIn_class (bracket offset : Nat) (cs : List Char) :
    regexLengthIn (some bracket) offset cs =
      match classLength? cs with
      | some n => (regexLengthIn none (offset + n) (cs.drop n)).map (· + n)
      | none => .error ⟨bracket, .unterminatedClass⟩ := by
  fun_induction classLength? cs generalizing offset with
  | case1 next rest ih =>
      rw [regexLengthIn, ih]
      cases classLength? rest with
      | none => rfl
      | some n =>
          simp only [Option.map_some]
          rw [map_map_add, Nat.add_assoc, Nat.add_comm 2]
          rfl
  | case2 rest hescape =>
      rw [regexLengthIn, if_pos rfl]
      · rfl
      · exact hescape
  | case3 last rest hescape hclose hstop =>
      rw [regexLengthIn, if_neg hclose, if_pos hstop]
      exact hescape
  | case4 next rest hescape hclose hgo ih =>
      rw [regexLengthIn, if_neg hclose, if_neg hgo, ih]
      · cases classLength? rest with
        | none => rfl
        | some n =>
            simp only [Option.map_some]
            rw [map_map_add, Nat.add_assoc, Nat.add_comm 1]
            rfl
      · exact hescape
  | case5 => rfl

/-- The index some characters further on. The place of a fault was counted from an index. -/
def regexEnd (start i : Int) : Except SyntaxFault Nat → Checked Int
  | .ok n => .ok (i + n)
  | .error f => .error (.fault ⟨start.toNat + f.position, f.cause⟩)

theorem regexEnd_map {start : Int} {x : Except SyntaxFault Nat} {n : Nat} (hj : j = i + n) :
    regexEnd start j x = regexEnd start i (x.map (· + n)) := by
  subst hj
  cases x with
  | error f => rfl
  | ok m => exact congrArg Except.ok (by push_cast; omega)

theorem le_length_of_classLength? {n : Nat} (h : classLength? cs = some n) : n ≤ cs.length := by
  fun_induction classLength? cs generalizing n with
  | case1 next rest ih =>
      obtain ⟨m, hm, rfl⟩ := Option.map_eq_some_iff.1 h
      have := ih hm
      simp only [List.length_cons]
      omega
  | case2 =>
      obtain rfl := Option.some.inj h
      simp
  | case3 => cases h
  | case4 next rest _ _ _ ih =>
      obtain ⟨m, hm, rfl⟩ := Option.map_eq_some_iff.1 h
      have := ih hm
      simp only [List.length_cons]
      omega
  | case5 => cases h

theorem regexRound_class {start offset : Nat} (h : Ahead t (i + 1) ('[' :: rest))
    (hoffset : i + 1 = start + offset) : regexRound t start i = match classLength? rest with
      | some n => .ok (.again (i + (n + 1)))
      | none => .error (.fault ⟨start + offset, .unterminatedClass⟩) := by
  have hclass : regexClass t (i + 1) = _ := classLoop_eq (h.tail rfl)
  rw [regexRound, if_neg h.not_length_le, h.access_eq, ok_bind, if_neg (by decide), if_pos rfl,
    hclass]
  cases classLength? rest with
  | none => rw [endAt, fail, hoffset, ← Int.natCast_add, Int.toNat_natCast]; rfl
  | some n => exact congrArg (Except.ok ∘ Round.again) (by omega)

/-- What one round through a regular expression does, beside the length of the expression. -/
inductive RegexTurn (t : List Char) (start : Nat) (i : Int) (offset : Nat) (cs : List Char) :
    Prop where
  /-- It comes to the slash that ends the expression. -/
  | close (round : regexRound t start i = .ok (.done (i + 1)))
      (length : regexLengthIn none offset cs = .ok 1)
  /-- It comes to the fault of the expression. -/
  | stop {f : SyntaxFault}
      (round : regexRound t start i = .error (.fault ⟨start + f.position, f.cause⟩))
      (length : regexLengthIn none offset cs = .error f)
  /-- It passes over some characters. -/
  | pass {taken rest : List Char} (cut : cs = taken ++ rest) (pos : 0 < taken.length)
      (round : regexRound t start i = .ok (.again (i + taken.length)))
      (length : regexLengthIn none offset cs =
        (regexLengthIn none (offset + taken.length) rest).map (· + taken.length))
  /-- It passes over a backslash that is the last character, and over the end of the text. -/
  | overrun (last : cs = ['\\']) (round : regexRound t start i = .ok (.again (i + 2)))

/-- A round in front of a class passes over the class. -/
theorem regexTurn_of_class {start offset : Nat} (h : Ahead t (i + 1) ('[' :: cs))
    (hoffset : i + 1 = start + offset) : RegexTurn t start i offset ('[' :: cs) := by
  have hround := regexRound_class h hoffset
  have hlength : regexLengthIn none offset ('[' :: cs) =
      (regexLengthIn (some offset) (offset + 1) cs).map (· + 1) := by
    rw [regexLengthIn, if_neg (by decide), if_pos rfl]
    simp
  rw [regexLengthIn_class] at hlength
  cases hend : classLength? cs with
  | none =>
      rw [hend] at hround hlength
      exact .stop hround hlength
  | some n =>
      rw [hend] at hround hlength
      have hn : ('[' :: cs.take n).length = n + 1 := by
        rw [List.length_cons, List.length_take_of_le (le_length_of_classLength? hend)]
      refine @RegexTurn.pass _ _ _ _ _ ('[' :: cs.take n) (cs.drop n)
        (congrArg ('[' :: ·) (cs.take_append_drop n).symm) (by simp) (by rw [hround, hn]; rfl) ?_
      rw [hlength, hn]
      dsimp only
      rw [map_map_add, Nat.add_assoc, Nat.add_comm 1]

theorem regexTurn_of_ahead {start offset : Nat} (h : Ahead t (i + 1) (ch :: rest))
    (hoffset : i + 1 = start + offset) : RegexTurn t start i offset (ch :: rest) := by
  have hround : regexRound t start i = _ := if_neg h.not_length_le
  rw [h.access_eq, ok_bind] at hround
  by_cases hslash : ch = '/'
  · subst hslash
    refine .close hround ?_
    rw [regexLengthIn, if_pos rfl]
    simp
  rw [if_neg hslash] at hround
  by_cases hopen : ch = '['
  · subst hopen
    exact regexTurn_of_class h hoffset
  rw [if_neg hopen] at hround
  by_cases hescape : ch = '\\'
  · subst hescape
    rw [if_pos rfl] at hround
    cases rest with
    | nil => exact .overrun rfl hround
    | cons next rest =>
        exact @RegexTurn.pass _ _ _ _ _ ['\\', next] rest rfl (by simp) hround
          (by rw [regexLengthIn]; rfl)
  rw [if_neg hescape] at hround
  have hother : regexLengthIn none offset (ch :: rest) =
      if isLineBreak ch then .error ⟨0, .unterminatedRegex⟩
      else (regexLengthIn none (offset + 1) rest).map (· + 1) := by
    rw [regexLengthIn]
    · simp [hslash, hopen, hescape]
    · simp [hescape]
  by_cases hbreak : isLineBreak ch = true
  · rw [if_pos hbreak] at hround hother
    refine .stop (hround.trans ?_) hother
    rw [fail, Int.toNat_natCast]
    rfl
  · rw [if_neg hbreak] at hround hother
    exact @RegexTurn.pass _ _ _ _ _ [ch] rest rfl (by simp) hround hother

theorem regexLoop_eq {start offset : Nat} (h : Ahead t (i + 1) cs)
    (hoffset : i + 1 = start + offset) :
    loop (left t) (regexRound t start) i = regexEnd start i (regexLengthIn none offset cs) := by
  induction hsize : cs.length using Nat.strong_induction_on generalizing cs i offset with
  | _ size ih =>
  cases cs with
  | nil => exact loop_of_error (if_pos h.length_le)
  | cons ch rest =>
  cases regexTurn_of_ahead h hoffset with
  | close hround hlength =>
      rw [loop_of_done hround, hlength]
      rfl
  | stop hround hlength =>
      rw [loop_of_error hround, hlength]
      rfl
  | pass heq hpos hround hlength =>
      rename_i taken cs
      have hsum := congrArg List.length heq
      rw [List.length_append] at hsum
      have hbehind : Ahead t (i + taken.length + 1) cs := (heq ▸ h).drop taken (by omega)
      have hoffset' : i + taken.length + 1 = start + ((offset + taken.length : Nat) : Int) := by
        push_cast
        omega
      rw [h.loop_eq hround (by omega), hlength, ih cs.length (by omega) hbehind hoffset' rfl]
      exact regexEnd_map rfl
  | overrun hlast hround =>
      obtain ⟨rfl, rfl⟩ := List.cons.inj hlast
      exact h.loop_eq_error hround fun _ hj => if_pos hj

theorem regex_eq (h : At t i c) (hpeek : c.peek? = some '/') :
    regex t i = lastIndex c.skipRegex := by
  obtain ⟨body, hrest⟩ : ∃ body, c.rest = '/' :: body := List.head?_eq_some_iff.1 hpeek
  have ha := h.ahead
  rw [hrest] at ha
  have hloop : regex t i = regexEnd i i (regexLengthIn none 1 body) := by
    rw [h.index_eq] at ha ⊢
    exact regexLoop_eq (ha.tail rfl) rfl
  rw [hloop, Cursor.skipRegex, hrest, List.drop_one, List.tail_cons, regexLength]
  cases hlength : regexLengthIn none 1 body with
  | error f =>
      rw [h.index_eq]
      rfl
  | ok n =>
      obtain ⟨front, rest, rfl, rfl⟩ := exists_of_regexLengthIn hlength
      have hle : front.length + 1 + 1 ≤ c.size := by
        rw [Cursor.size, hrest]
        simp
      exact (congrArg Except.ok (by push_cast; omega)).trans (lastIndex_advance h hle).symm

/-! ### Words -/

/-- An index of a last character, and the text that has been read with it. -/
def EndsAt (t : List Char) (i : Int) (past : Past) : Prop :=
  ∃ cs, t = past.reverse ++ cs ∧ i + 1 = past.length

theorem At.endsAt (h : At t i c) (hj : j = i - 1) : EndsAt t j c.past :=
  ⟨c.rest, h.text_eq.symm, by rw [hj, h.index_eq, Cursor.offset]; omega⟩

namespace EndsAt

variable {taken : List Char}

/-- The characters behind some of the text. -/
theorem ahead (h : EndsAt t i (taken ++ past)) :
    ∃ cs, Ahead t past.length (taken.reverse ++ cs) := by
  obtain ⟨cs, rfl, -⟩ := h
  exact ⟨cs, past.reverse, by simp, by simp⟩

theorem of_append (h : EndsAt t i (taken ++ past)) (hj : j = i - taken.length) :
    EndsAt t j past := by
  obtain ⟨cs, rfl, hi⟩ := h
  refine ⟨taken.reverse ++ cs, by simp, ?_⟩
  rw [List.length_append] at hi
  omega

theorem neg (h : EndsAt t i []) : i < 0 := by
  obtain ⟨-, -, hi⟩ := h
  rw [List.length_nil] at hi
  omega

theorem charAt?_eq (h : EndsAt t i past) : charAt? t i = past.head? := by
  cases past with
  | nil => exact if_neg (Int.not_le.2 h.neg)
  | cons ch past =>
      obtain ⟨cs, hcs⟩ := (show EndsAt t i ([ch] ++ past) from h).ahead
      obtain ⟨-, -, hi⟩ := h
      rw [List.length_cons] at hi
      rw [show i = past.length by omega, hcs.charAt?_head]
      rfl

theorem access_eq (h : EndsAt t i (ch :: past)) : access t i = .ok ch := by
  rw [access, h.charAt?_eq, List.head?_cons]

theorem nonneg (h : EndsAt t i (ch :: past)) : 0 ≤ i := by
  obtain ⟨-, -, hi⟩ := h
  rw [List.length_cons] at hi
  omega

theorem lt_length (h : EndsAt t i past) : i < t.length := by
  obtain ⟨cs, rfl, hi⟩ := h
  rw [List.length_append, List.length_reverse]
  omega

theorem wordLoop_eq (h : EndsAt t i (taken ++ past))
    (htaken : ∀ ch ∈ taken, isKeywordChar ch = true)
    (hpast : ∀ ch ∈ past.head?, isKeywordChar ch = false) :
    loop (fun start => (start + 1).toNat) (wordRound t) i = .ok (i - taken.length) := by
  induction taken generalizing i with
  | nil =>
      have hround : wordRound t i = .ok (.done i) := by
        cases past with
        | nil => exact if_neg (Int.not_le.2 h.neg)
        | cons ch past =>
            have hch := hpast ch rfl
            simp [wordRound, h.nonneg, h.access_eq, hch]
      rw [loop_of_done hround]
      simp
  | cons ch taken ih =>
      rw [List.forall_mem_cons] at htaken
      have hnonneg : 0 ≤ i := EndsAt.nonneg h
      have hround : wordRound t i = .ok (.again (i - 1)) := by
        simp [wordRound, hnonneg, EndsAt.access_eq h, htaken.1]
      rw [loop_of_again hround (by omega),
        ih ((show EndsAt t i ([ch] ++ (taken ++ past)) from h).of_append (by simp)) htaken.2]
      exact congrArg Except.ok (by rw [List.length_cons]; push_cast; omega)

theorem wordEndingAt_eq (h : EndsAt t i past) : wordEndingAt t i = .ok (wordBehind past) := by
  by_cases hnil : past = []
  · subst hnil
    exact if_pos (.inl h.neg)
  have hin : ¬ (i < 0 ∨ (t.length : Int) ≤ i) := by
    have := h.lt_length
    obtain ⟨ch, more, rfl⟩ := List.exists_cons_of_ne_nil hnil
    have := h.nonneg
    omega
  have hsplit := past.takeWhile_append_dropWhile (p := isKeywordChar)
  have hword : ∀ ch ∈ past.takeWhile isKeywordChar, isKeywordChar ch = true :=
    fun ch => List.mem_takeWhile_imp
  have hstop : ∀ ch ∈ (past.dropWhile isKeywordChar).head?, isKeywordChar ch = false := by
    intro ch hch
    have hnot := List.head?_dropWhile_not isKeywordChar past
    rwa [Option.mem_def.1 hch] at hnot
  rw [wordEndingAt, if_neg hin, wordBehind]
  generalize past.takeWhile isKeywordChar = word at *
  generalize past.dropWhile isKeywordChar = behind at *
  subst hsplit
  have hbehind : EndsAt t (i - word.length) behind := h.of_append rfl
  have hslice : slice t (i - word.length + 1) (i + 1) = word.reverse := by
    obtain ⟨cs, hcs⟩ := h.ahead
    obtain ⟨-, -, hi⟩ := h
    rw [List.length_append] at hi
    rw [show i - word.length + 1 = behind.length by omega,
      hcs.slice_eq (n := word.length) (by omega), List.take_left' (by simp)]
  rw [wordLoop_eq h hword hstop, ok_bind, hslice]
  cases behind with
  | nil => exact if_neg (Int.not_le.2 hbehind.neg)
  | cons ch behind =>
      rw [if_pos hbehind.nonneg, hbehind.access_eq, ok_bind, List.head?_cons]
      simp only [pure_eq_ok]
      split <;> rfl

end EndsAt

theorem identifierLoop_eq (h : Ahead t i cs) :
    loop (left t) (identifierRound t) i = .ok (i + (identifierAhead cs).length) := by
  induction cs generalizing i with
  | nil =>
      have hend := h.add_length_eq
      rw [List.length_nil] at hend
      have hround : identifierRound t i = .ok (.done i) := if_neg (by omega)
      rw [loop_of_done hround]
      exact congrArg Except.ok (by simp [identifierAhead])
  | cons ch cs ih =>
      have hround : identifierRound t i =
          .ok (if isIdentifierChar ch then .again (i + 1) else .done i) := by
        simp only [identifierRound, if_pos h.lt_length, h.access_eq, ok_bind]
        split <;> rfl
      rw [identifierAhead, List.takeWhile_cons]
      split at hround
      · rename_i hch
        rw [loop_of_again hround (left_lt h.lt_length (by omega)), ih (h.tail rfl), if_pos hch]
        exact congrArg Except.ok (by rw [identifierAhead, List.length_cons]; push_cast; omega)
      · rename_i hch
        rw [loop_of_done hround, if_neg hch]
        exact congrArg Except.ok (by simp)

theorem identifierAt_eq (h : Ahead t i cs) : identifierAt t i = .ok (identifierAhead cs) := by
  have hfront : identifierAhead cs <+: cs := List.takeWhile_prefix _
  rw [identifierAt, identifierLoop_eq h, ok_bind, h.slice_eq rfl, ← List.prefix_iff_eq_take.1 hfront]
  rfl

/-- A word of a known length is read back as a keyword if it is that keyword and begins a token. -/
theorem wordBehind_eq_keyword_iff {word keyword : List Char}
    (hlength : word.length = keyword.length) (hne : keyword ≠ [])
    (hkeyword : ∀ ch ∈ keyword, isKeywordChar ch = true) :
    wordBehind (word.reverse ++ past) = keyword ↔
      word = keyword ∧ ∀ ch ∈ past.head?, (isSpace ch || isPunctuator ch) = true := by
  constructor
  · intro h
    obtain ⟨htake, hbound⟩ : (word.reverse ++ past).takeWhile isKeywordChar = keyword.reverse ∧
        ∀ ch ∈ ((word.reverse ++ past).dropWhile isKeywordChar).head?,
          (isSpace ch || isPunctuator ch) = true := by
      rw [← List.reverse_eq_iff]
      unfold wordBehind at h
      split at h
      · rename_i ch hch
        split at h
        · rename_i hbound
          rw [hch]
          exact ⟨h, fun _ h' => Option.some.inj h' ▸ hbound⟩
        · exact absurd h.symm hne
      · rename_i hnone
        rw [hnone]
        exact ⟨h, fun _ h' => by cases h'⟩
    have hsplit := (word.reverse ++ past).takeWhile_append_dropWhile (p := isKeywordChar)
    rw [htake] at hsplit
    obtain ⟨hword, hpast⟩ := List.append_inj hsplit (by simp [hlength])
    exact ⟨List.reverse_injective hword.symm, hpast ▸ hbound⟩
  · rintro ⟨rfl, hpast⟩
    have hstop : ∀ ch ∈ past.head?, isIdentifierChar ch = false := fun ch hch => by
      simp [isIdentifierChar, hpast ch hch]
    have hbound : (past.head?.all fun ch => isSpace ch || isPunctuator ch) = true :=
      (Option.all_eq_true ..).2 hpast
    rw [wordBehind_reverse_append hstop fun ch hch =>
      isIdentifierChar_of_isKeywordChar (hkeyword ch hch), hbound, List.all_eq_true.2 hkeyword]
    rfl

theorem isKeywordAt_eq {keyword : List Char} (h : At t i c) (hlength : keyword.length = 6)
    (hkeyword : ∀ ch ∈ keyword, isKeywordChar ch = true) :
    isKeywordAt t keyword i = .ok (c.atKeyword keyword) := by
  have hne : keyword ≠ [] := by
    rintro rfl
    cases hlength
  -- Fewer characters than the keyword has: the index of its end lies behind the text.
  by_cases hsize : c.size < 6
  · have hsum := h.ahead.add_length_eq
    rw [Cursor.size] at hsize
    have hword : wordEndingAt t (i + 5) = .ok [] := if_pos (.inr (by omega))
    have hfront : keyword.isPrefixOf c.rest = false := by
      rw [Bool.eq_false_iff, Ne, List.isPrefixOf_iff_prefix]
      intro hfront
      have := hfront.length_le
      omega
    rw [isKeywordAt, hword, ok_bind, if_neg hne.symm, Cursor.atKeyword, hfront]
    rfl
  rw [Nat.not_lt] at hsize
  have hbehind : At t (i + 6) (c.advance 6) := h.advance hsize rfl
  have hword : wordEndingAt t (i + 5) = .ok (wordBehind ((c.rest.take 6).reverse ++ c.past)) :=
    (hbehind.endsAt (by omega)).wordEndingAt_eq
  have hiff : wordBehind ((c.rest.take 6).reverse ++ c.past) = keyword ↔ _ :=
    wordBehind_eq_keyword_iff ((List.length_take_of_le hsize).trans hlength.symm) hne hkeyword
  have hlast : charAt? t (i - 1) = c.past.head? := (h.endsAt rfl).charAt?_eq
  have hfront : keyword.isPrefixOf c.rest = true ↔ c.rest.take 6 = keyword := by
    rw [List.isPrefixOf_iff_prefix, List.prefix_iff_eq_take, hlength, eq_comm]
  rw [isKeywordAt, hword, ok_bind, hlast, identifierAt_eq hbehind.ahead, ok_bind, Cursor.atKeyword,
    hlength]
  -- What stands in front may forbid the keyword where its letters match.
  by_cases hkey : wordBehind ((c.rest.take 6).reverse ++ c.past) = keyword
  · rw [if_pos hkey]
    obtain ⟨htake, hbound⟩ := hiff.1 hkey
    rw [hfront.2 htake]
    cases hhead : c.past.head? with
    | none => simp [Cursor.identifier]
    | some b =>
      have hb := hbound b hhead
      by_cases hdot : b = '.' <;> simp [hdot, hb, Cursor.identifier]
  · rw [if_neg hkey]
    rw [hiff, not_and_or] at hkey
    rcases hkey with hkey | hkey
    · rw [Bool.eq_false_iff.2 (mt hfront.1 hkey)]
      rfl
    · push Not at hkey
      obtain ⟨b, hb, hbound⟩ := hkey
      rw [Option.mem_def.1 hb]
      simp [Bool.eq_false_iff.2 hbound]

end ImportAtlas.Source.Indexed

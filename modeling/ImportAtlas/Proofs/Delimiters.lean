import ImportAtlas.Proofs.Initializers

/-!
# What the lexical movements pass over

White space and comments, strings and templates end where they are delimited: whatever the lexical
movements pass over is a gap, a string or a template, and nothing of what follows belongs to it.

## Main results

* `Cursor.exists_of_skipTrivia`: white space and complete comments, with something behind them.
* `Cursor.exists_of_skipString`, `Cursor.exists_of_skipPlainTemplate?`: literals with their ends.
* `Cursor.position_of_skipTrivia`, `Cursor.position_of_skipString`,
  `Cursor.position_of_skipRegex`: faults lie in the text.
-/

namespace ImportAtlas.Source

variable {cs : List Char} {offset n : Nat} {f : SyntaxFault}

theorem exists_of_map_eq_error {ε α β : Type} {g : α → β} {x : Except ε α} {e : ε}
    (h : x.map g = .error e) : x = .error e := by
  cases x with
  | error e' => simpa [Except.map] using h
  | ok a => cases h

/-! ### White space and comments -/

/-- What the reading of white space and comments passes over from the middle of something on, when
something else follows. -/
def TriviaMode.Covers : TriviaMode → List Char → Prop
  | .space, taken => ∃ gap : Gap, taken = gap.text
  | .lineComment, taken => ∃ (content : List Char) (stop : Char) (gap : Gap),
      (∀ c ∈ content, isLineBreak c = false) ∧ isLineBreak stop = true ∧
        taken = content ++ stop :: gap.text
  | .blockComment _, taken => ∃ (content : List Char) (gap : Gap),
      ¬ ['*', '/'] <:+: content ∧ taken = content ++ '*' :: '/' :: gap.text

/-- White space and comments are passed over as a whole, and what follows begins with neither. -/
theorem covers_of_triviaLengthIn {mode : TriviaMode} (h : triviaLengthIn offset mode cs = .ok n)
    (hrest : cs.drop n ≠ []) : mode.Covers (cs.take n) ∧ Begins (cs.drop n) := by
  fun_induction triviaLengthIn offset mode cs generalizing n with
  | case1 offset rest ih =>
      obtain ⟨m, hm, rfl⟩ := exists_of_map_eq_ok h
      obtain ⟨⟨content, stop, gap, hline, hstop, heq⟩, hbegins⟩ := ih hm hrest
      exact ⟨⟨.line content stop hline hstop :: gap, by simp [Gap.text, Filler.text, heq]⟩, hbegins⟩
  | case2 offset rest ih =>
      obtain ⟨m, hm, rfl⟩ := exists_of_map_eq_ok h
      obtain ⟨⟨content, gap, hopen, heq⟩, hbegins⟩ := ih hm hrest
      exact ⟨⟨.block content hopen :: gap, by simp [Gap.text, Filler.text, heq]⟩, hbegins⟩
  | case3 offset c rest hline hblock hc ih =>
      obtain ⟨m, hm, rfl⟩ := exists_of_map_eq_ok h
      obtain ⟨⟨gap, heq⟩, hbegins⟩ := ih hm hrest
      exact ⟨⟨.space c hc :: gap, by simp [Gap.text, Filler.text, heq]⟩, hbegins⟩
  | case4 offset c rest hline hblock hc =>
      obtain rfl := Except.ok.inj h
      refine ⟨⟨[], rfl⟩, fun d hd => ?_, ?_⟩
      · obtain rfl := Option.some.inj hd
        simpa using hc
      · unfold startsComment
        split <;> simp_all
  | case5 offset c rest ih =>
      obtain ⟨m, hm, rfl⟩ := exists_of_map_eq_ok h
      obtain ⟨hcovers, hbegins⟩ := ih hm hrest
      refine ⟨?_, hbegins⟩
      by_cases hc : isLineBreak c = true
      · rw [if_pos hc] at hcovers
        obtain ⟨gap, heq⟩ := hcovers
        exact ⟨[], c, gap, by simp, hc, by simp [heq]⟩
      · rw [if_neg hc] at hcovers
        obtain ⟨content, stop, gap, hline, hstop, heq⟩ := hcovers
        exact ⟨c :: content, stop, gap, List.forall_mem_cons.2 ⟨by simpa using hc, hline⟩, hstop,
          by simp [heq]⟩
  | case6 offset start rest ih =>
      obtain ⟨m, hm, rfl⟩ := exists_of_map_eq_ok h
      obtain ⟨⟨gap, heq⟩, hbegins⟩ := ih hm hrest
      exact ⟨⟨[], gap, by simp, by simp [heq]⟩, hbegins⟩
  | case7 offset start c rest hclose ih =>
      obtain ⟨m, hm, rfl⟩ := exists_of_map_eq_ok h
      obtain ⟨⟨content, gap, hopen, heq⟩, hbegins⟩ := ih hm hrest
      refine ⟨⟨c :: content, gap, ?_, by simp [heq]⟩, hbegins⟩
      intro hinfix
      rcases List.infix_cons_iff.1 hinfix with ⟨tail, htail⟩ | hinfix
      · -- the comment would end with its first character
        obtain ⟨rfl, rfl⟩ := List.cons.inj htail
        have hhead : rest.head? = some '/' := by
          have := congrArg List.head? heq
          cases rest <;> cases m <;> simp_all
        cases rest with
        | nil => cases hhead
        | cons d rest => exact hclose rest rfl (by rw [Option.some.inj hhead])
      · exact hopen hinfix
  | case8 => cases h
  | case9 => simp at hrest

/-- Nothing but a comment that is left open is a fault of white space and comments. -/
theorem cause_of_triviaLengthIn {mode : TriviaMode} (h : triviaLengthIn offset mode cs = .error f) :
    f.cause = .unterminatedComment := by
  fun_induction triviaLengthIn offset mode cs with
  | case1 _ _ ih | case2 _ _ ih | case3 _ _ _ _ _ _ ih | case5 _ _ _ ih | case6 _ _ _ ih
  | case7 _ _ _ _ _ ih => exact ih (exists_of_map_eq_error h)
  | case8 => exact Except.error.inj h ▸ rfl
  | case4 | case9 => cases h

/-- The place of a fault is counted from where the text begins. -/
theorem position_of_triviaLengthIn {mode : TriviaMode}
    (h : triviaLengthIn offset mode cs = .error f)
    (hmode : ∀ start, mode = .blockComment start → start ≤ offset) :
    f.position ≤ offset + cs.length := by
  fun_induction triviaLengthIn offset mode cs with
  | case1 offset rest ih =>
      have := ih (exists_of_map_eq_error h) (by simp)
      simp only [List.length_cons]
      omega
  | case2 offset rest ih =>
      have := ih (exists_of_map_eq_error h) (by simp)
      simp only [List.length_cons]
      omega
  | case3 offset c rest hline hblock hc ih =>
      have := ih (exists_of_map_eq_error h) (by simp)
      simp only [List.length_cons]
      omega
  | case4 => cases h
  | case5 offset c rest ih =>
      have := ih (exists_of_map_eq_error h) (by split <;> simp)
      simp only [List.length_cons]
      omega
  | case6 offset start rest ih =>
      have := ih (exists_of_map_eq_error h) (by simp)
      simp only [List.length_cons]
      omega
  | case7 offset start c rest hclose ih =>
      have := hmode start rfl
      have := ih (exists_of_map_eq_error h) (by simp; omega)
      simp only [List.length_cons]
      omega
  | case8 offset start =>
      obtain rfl := Except.error.inj h
      exact Nat.le_trans (hmode start rfl) (Nat.le_add_right ..)
  | case9 => cases h

/-- A fault further on in the text. -/
def SyntaxFault.later (k : Nat) (f : SyntaxFault) : SyntaxFault := ⟨f.position + k, f.cause⟩

/-- What is read in the middle of, further on in the text. -/
def TriviaMode.later (k : Nat) : TriviaMode → TriviaMode
  | .space => .space
  | .lineComment => .lineComment
  | .blockComment start => .blockComment (start + k)

theorem map_mapError {ε α β : Type} (g : α → β) (k : ε → ε) (x : Except ε α) :
    (x.mapError k).map g = (x.map g).mapError k := by cases x <;> rfl

theorem triviaLengthIn_later (k : Nat) (mode : TriviaMode) (offset : Nat) (cs : List Char) :
    triviaLengthIn (offset + k) (mode.later k) cs =
      (triviaLengthIn offset mode cs).mapError (.later k) := by
  fun_induction triviaLengthIn offset mode cs with
  | case1 offset rest ih =>
      rw [TriviaMode.later, triviaLengthIn, ← map_mapError, ← ih, Nat.add_right_comm]
      rfl
  | case2 offset rest ih =>
      rw [TriviaMode.later, triviaLengthIn, ← map_mapError, ← ih, Nat.add_right_comm]
      rfl
  | case3 offset c rest hline hblock hc ih =>
      rw [TriviaMode.later, triviaLengthIn, if_pos hc, ← map_mapError, ← ih, Nat.add_right_comm]
      · rfl
      all_goals assumption
  | case4 offset c rest hline hblock hc =>
      rw [TriviaMode.later, triviaLengthIn, if_neg hc]
      · rfl
      all_goals assumption
  | case5 offset c rest ih =>
      rw [TriviaMode.later, triviaLengthIn, ← map_mapError, ← ih, Nat.add_right_comm]
      split <;> rfl
  | case6 offset start rest ih =>
      rw [TriviaMode.later, triviaLengthIn, ← map_mapError, ← ih, Nat.add_right_comm]
      rfl
  | case7 offset start c rest hclose ih =>
      rw [TriviaMode.later, triviaLengthIn, ← map_mapError, ← ih, Nat.add_right_comm]
      · rfl
      all_goals assumption
  | case8 => rfl
  | case9 offset mode hmode =>
      cases mode with
      | blockComment start => exact absurd rfl (hmode start)
      | _ => simp [TriviaMode.later, triviaLengthIn, Except.mapError]

/-! ### Literals -/

theorem exists_of_stringLength? {quote : Char} (h : stringLength? quote cs = some n) :
    ∃ content rest, IsStringContent quote content ∧ cs = content ++ quote :: rest ∧
      content.length = n := by
  fun_induction stringLength? quote cs generalizing n with
  | case1 => cases h
  | case2 tail ih =>
      obtain ⟨m, hm, rfl⟩ := Option.map_eq_some_iff.1 h
      obtain ⟨content, rest, hcontent, rfl, rfl⟩ := ih hm
      exact ⟨_, rest, .escapedLineEnd hcontent, by simp, by simp⟩
  | case3 c tail hsingle ih =>
      obtain ⟨m, hm, rfl⟩ := Option.map_eq_some_iff.1 h
      obtain ⟨content, rest, hcontent, rfl, rfl⟩ := ih hm
      refine ⟨'\\' :: c :: content, rest, .escape ?_ hcontent, by simp, by simp⟩
      rintro rfl hhead
      obtain ⟨more, rfl⟩ := List.head?_eq_some_iff.1 hhead
      exact hsingle (more ++ quote :: rest) rfl rfl
  | case4 tail hline hescape =>
      obtain rfl := Option.some.inj h
      exact ⟨[], tail, .nil, rfl, rfl⟩
  | case5 => cases h
  | case6 c tail hline hescape hquote hplain ih =>
      obtain ⟨m, hm, rfl⟩ := Option.map_eq_some_iff.1 h
      obtain ⟨content, rest, hcontent, rfl, rfl⟩ := ih hm
      simp only [Bool.or_eq_true, beq_iff_eq, not_or, Bool.not_eq_true] at hplain
      exact ⟨c :: content, rest, .char hquote hplain.2 hplain.1 hcontent, rfl, rfl⟩

/-- What ends a piece of a template. -/
def ChunkEnd.mark : ChunkEnd → List Char
  | .closed => ['\x60']
  | .substitution => ['$', '\x7b']

theorem exists_of_chunkLength? {e : ChunkEnd} (h : chunkLength? cs = some (e, n)) :
    ∃ content rest, IsTemplateContent content ∧ cs = content ++ (e.mark ++ rest) ∧
      n = content.length + e.mark.length := by
  fun_induction chunkLength? cs generalizing n with
  | case1 => cases h
  | case2 tail =>
      obtain ⟨rfl, rfl⟩ := Prod.mk.inj (Option.some.inj h)
      exact ⟨[], tail, .nil, rfl, rfl⟩
  | case3 c tail ih =>
      obtain ⟨⟨e', m⟩, hm, heq⟩ := Option.map_eq_some_iff.1 h
      obtain ⟨rfl, rfl⟩ := Prod.mk.inj heq
      obtain ⟨content, rest, hcontent, rfl, rfl⟩ := ih hm
      exact ⟨'\\' :: c :: content, rest, .escape hcontent, by simp, by simp; omega⟩
  | case4 tail =>
      obtain ⟨rfl, rfl⟩ := Prod.mk.inj (Option.some.inj h)
      exact ⟨[], tail, .nil, rfl, rfl⟩
  | case5 => cases h
  | case6 c tail htick hescape hdollar hplain ih =>
      obtain ⟨⟨e', m⟩, hm, heq⟩ := Option.map_eq_some_iff.1 h
      obtain ⟨rfl, rfl⟩ := Prod.mk.inj heq
      obtain ⟨content, rest, hcontent, rfl, rfl⟩ := ih hm
      refine ⟨c :: content, rest, .char htick hplain ?_ hcontent, rfl, by simp; omega⟩
      rintro rfl hhead
      obtain ⟨more, rfl⟩ := List.head?_eq_some_iff.1 hhead
      exact hdollar (more ++ (e'.mark ++ rest)) rfl rfl

theorem position_of_regexLengthIn {bracket? : Option Nat}
    (h : regexLengthIn bracket? offset cs = .error f) (hbracket : ∀ b ∈ bracket?, b ≤ offset) :
    f.position ≤ offset + cs.length := by
  fun_induction regexLengthIn bracket? offset cs with
  | case1 bracket? offset =>
      obtain rfl := Except.error.inj h
      cases bracket? with
      | none => exact Nat.zero_le _
      | some b => exact hbracket b rfl
  | case2 bracket? offset c rest ih =>
      have := ih (exists_of_map_eq_error h) fun b hb => Nat.le_add_right_of_le (hbracket b hb)
      simp only [List.length_cons]
      omega
  | case3 offset bracket rest hescape ih =>
      have := ih (exists_of_map_eq_error h) (by simp)
      simp only [List.length_cons]
      omega
  | case4 offset c rest hescape bracket hc hline =>
      obtain rfl := Except.error.inj h
      exact Nat.le_trans (hbracket bracket rfl) (Nat.le_add_right ..)
  | case5 offset c rest hescape bracket hc hline ih =>
      have := ih (exists_of_map_eq_error h) fun b hb => Nat.le_add_right_of_le (hbracket b hb)
      simp only [List.length_cons]
      omega
  | case6 => cases h
  | case7 offset rest hescape hne ih =>
      have := ih (exists_of_map_eq_error h) fun b hb => by
        obtain rfl := Option.some.inj hb
        exact Nat.le_add_right ..
      simp only [List.length_cons]
      omega
  | case8 =>
      obtain rfl := Except.error.inj h
      exact Nat.zero_le _
  | case9 offset c rest hescape hslash hopen hline ih =>
      have := ih (exists_of_map_eq_error h) (by simp)
      simp only [List.length_cons]
      omega

/-- A regular expression ends with a slash. -/
theorem exists_of_regexLengthIn {bracket? : Option Nat}
    (h : regexLengthIn bracket? offset cs = .ok n) :
    ∃ body rest, cs = body ++ '/' :: rest ∧ n = body.length + 1 := by
  fun_induction regexLengthIn bracket? offset cs generalizing n with
  | case1 => cases h
  | case2 bracket? offset c rest ih =>
      obtain ⟨m, hm, rfl⟩ := exists_of_map_eq_ok h
      obtain ⟨body, more, rfl, rfl⟩ := ih hm
      exact ⟨'\\' :: c :: body, more, rfl, rfl⟩
  | case4 => cases h
  | case6 offset rest =>
      obtain rfl := Except.ok.inj h
      exact ⟨[], rest, rfl, rfl⟩
  | case8 => cases h
  | case3 _ _ _ _ ih | case5 _ _ _ _ _ _ _ ih | case7 _ _ _ _ ih | case9 _ _ _ _ _ _ _ ih =>
      obtain ⟨m, hm, rfl⟩ := exists_of_map_eq_ok h
      obtain ⟨body, more, rfl, rfl⟩ := ih hm
      exact ⟨_ :: body, more, rfl, rfl⟩

/-! ### The text between two places -/

namespace Cursor

/-- One place lies behind another, with some text between them. -/
structure Between (c : Cursor) (taken : List Char) (d : Cursor) : Prop where
  /-- The text comes next at the first place. -/
  rest_eq : c.rest = taken ++ d.rest
  /-- The text has been read at the second one. -/
  past_eq : d.past = taken.reverse ++ c.past

variable {c d e : Cursor} {taken more : List Char}

theorem Between.refl (c : Cursor) : c.Between [] c := ⟨rfl, rfl⟩

theorem Between.trans (h : c.Between taken d) (h' : d.Between more e) :
    c.Between (taken ++ more) e :=
  ⟨by rw [h.rest_eq, h'.rest_eq, List.append_assoc],
    by rw [h'.past_eq, h.past_eq, List.reverse_append, List.append_assoc]⟩

theorem between_advance (c : Cursor) (n : Nat) : c.Between (c.rest.take n) (c.advance n) :=
  ⟨(List.take_append_drop n c.rest).symm, rfl⟩

theorem Between.eq_advance (h : c.Between taken d) : d = c.advance taken.length := by
  obtain ⟨past, rest⟩ := d
  obtain ⟨hrest, rfl⟩ := h
  simp [advance, hrest]

theorem Between.unique (h : c.Between taken d) (h' : c.Between more d) : taken = more :=
  List.append_cancel_right (h.rest_eq.symm.trans h'.rest_eq)

theorem Between.text_eq (h : c.Between taken d) : d.text = c.text := by
  rw [h.eq_advance, text_advance]

theorem Between.offset_eq (h : c.Between taken d) : d.offset = c.offset + taken.length := by
  simp [offset, h.past_eq, Nat.add_comm]

theorem Between.of_advance (h : c.rest = taken ++ more) :
    c.Between taken (c.advance taken.length) := by
  simpa [h] using c.between_advance taken.length

theorem offset_le (c : Cursor) : c.offset ≤ c.text.length := by simp [offset, text]

/-! ### Lexical elements -/

/-- White space and complete comments are passed over, if something else follows. -/
theorem exists_of_skipTrivia (h : c.skipTrivia = .ok d) (hd : d.rest ≠ []) :
    ∃ gap : Gap, c.Between gap.text d ∧ Begins d.rest := by
  obtain ⟨n, hn, rfl⟩ := skipTrivia_eq_advance h
  obtain ⟨⟨gap, hgap⟩, hbegins⟩ := covers_of_triviaLengthIn hn hd
  exact ⟨gap, hgap ▸ c.between_advance n, hbegins⟩

theorem cause_of_skipTrivia (h : c.skipTrivia = .error f) : f.cause = .unterminatedComment := by
  unfold skipTrivia at h
  split at h
  · cases h
  rename_i g hg
  obtain rfl := Except.error.inj h
  have hcause : g.cause = .unterminatedComment := cause_of_triviaLengthIn hg
  exact hcause

theorem position_of_skipTrivia (h : c.skipTrivia = .error f) : f.position ≤ c.text.length := by
  unfold skipTrivia at h
  split at h
  · cases h
  rename_i g hg
  obtain rfl := Except.error.inj h
  have hposition := position_of_triviaLengthIn hg (by simp)
  have := c.offset_add_size
  simp only [faultFrom, size] at *
  omega

/-- White space may be passed over one character at a time. -/
theorem skipTrivia_of_isSpace {ch : Char} (hrest : c.rest = ch :: more) (hch : isSpace ch = true) :
    c.skipTrivia = (c.advance 1).skipTrivia := by
  have hne : ch ≠ '/' := by rintro rfl; exact absurd hch (by decide)
  have hlater := triviaLengthIn_later 1 .space 0 more
  have hlength : triviaLength c.rest = (triviaLengthIn 1 .space more).map (· + 1) := by
    rw [triviaLength, hrest, triviaLengthIn, if_pos hch]
    · exact fun _ h _ => hne h
    · exact fun _ h _ => hne h
  have hmore : (c.advance 1).rest = more := by simp [advance, hrest]
  rw [Nat.zero_add, TriviaMode.later] at hlater
  rw [skipTrivia, hlength, skipTrivia, hmore, triviaLength, hlater]
  cases triviaLengthIn 0 .space more with
  | ok n => simp [Except.mapError, Except.map, Nat.add_comm n 1, advance_add]
  | error g =>
      simp [Except.mapError, Except.map, SyntaxFault.later, faultFrom, offset, advance, hrest]
      omega

theorem skipTrivia_of_begins (h : Begins c.rest) : c.skipTrivia = .ok c := by
  simp [skipTrivia, triviaLength, triviaLengthIn_begins h]

theorem exists_of_skipString (h : c.skipString = .ok d) : ∃ quote content,
    IsStringContent quote content ∧ c.Between (quote :: content ++ [quote]) d := by
  unfold skipString at h
  split at h
  · rename_i quote body hrest
    split at h
    · rename_i n hn
      obtain ⟨content, rest, hcontent, rfl, rfl⟩ := exists_of_stringLength? hn
      obtain rfl := Except.ok.inj h
      have htext : c.rest = (quote :: content ++ [quote]) ++ rest := by simp [hrest]
      exact ⟨quote, content, hcontent, by simpa using Between.of_advance htext⟩
    · cases h
  · cases h

theorem eq_fault_of_skipString (h : c.skipString = .error f) : f = c.fault .unterminatedString := by
  unfold skipString at h
  split at h
  · split at h
    · cases h
    · exact (Except.error.inj h).symm
  · exact (Except.error.inj h).symm

theorem position_of_skipString (h : c.skipString = .error f) : f.position ≤ c.text.length :=
  eq_fault_of_skipString h ▸ c.offset_le

theorem exists_of_skipPlainTemplate? (h : c.skipPlainTemplate? = some d)
    (hc : c.peek? = some '\x60') : ∃ t : Template, c.Between t.text d := by
  obtain ⟨n, hn, rfl⟩ := Option.map_eq_some_iff.1 h
  obtain ⟨body, hbody⟩ : ∃ body, c.rest = '\x60' :: body := List.head?_eq_some_iff.1 hc
  rw [plainTemplateLength?, hbody, List.drop_one, List.tail_cons] at hn
  split at hn
  · rename_i m hm
    obtain ⟨content, rest, hcontent, rfl, rfl⟩ := exists_of_chunkLength? hm
    obtain rfl := Option.some.inj hn
    have htext : c.rest = Template.text ⟨content, hcontent⟩ ++ rest := by
      simp [hbody, Template.text, ChunkEnd.mark]
    exact ⟨⟨content, hcontent⟩, by
      simpa [Template.text, ChunkEnd.mark] using Between.of_advance htext⟩
  · cases hn

theorem exists_of_skipRegex (h : c.skipRegex = .ok d) (hc : c.peek? = some '/') :
    ∃ body, c.Between ('/' :: body ++ ['/']) d := by
  obtain ⟨body, hbody⟩ : ∃ body, c.rest = '/' :: body := List.head?_eq_some_iff.1 hc
  unfold skipRegex at h
  rw [hbody, List.drop_one, List.tail_cons] at h
  split at h
  · rename_i n hn
    obtain ⟨body, rest, rfl, rfl⟩ := exists_of_regexLengthIn hn
    obtain rfl := Except.ok.inj h
    have htext : c.rest = ('/' :: body ++ ['/']) ++ rest := by simp [hbody]
    exact ⟨body, by simpa using Between.of_advance htext⟩
  · cases h

theorem position_of_skipRegex (h : c.skipRegex = .error f) (hc : c.rest ≠ []) :
    f.position ≤ c.text.length := by
  unfold skipRegex at h
  split at h
  · cases h
  rename_i g hg
  obtain rfl := Except.error.inj h
  have hposition := position_of_regexLengthIn hg (by simp)
  have := List.length_pos_iff.2 hc
  have := c.offset_add_size
  simp only [faultFrom, size, List.length_drop] at *
  omega

end Cursor

end ImportAtlas.Source

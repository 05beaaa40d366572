import ImportAtlas.Json.Parser
import ImportAtlas.Json.Printer
import ImportAtlas.Proofs.Dict
import Mathlib.Data.List.TakeWhile

/-!
# Reading written JSON

A string is written character by character, and every piece of writing is read as the character
that it was written for. A value whose writing shows where it ends is read back whatever follows
it; the reader's budget is spent more slowly than the text that it reads.

## Main results

* `Json.stringBody?_quoted`: a string is read back.
* `Json.readsBack`: a value is read back, and what follows it is left.
* `Json.parse?_pretty`: a document is read back.
-/

namespace ImportAtlas

/-- A value whose writing shows where it ends: it holds no number and no moment, and its objects
have no key twice. -/
inductive Value.Delimited : Value → Prop where
  | null : Delimited .null
  | bool (b : Bool) : Delimited (.bool b)
  | string (s : String) : Delimited (.string s)
  | array {items : List Value} (hitems : ∀ v ∈ items, Delimited v) : Delimited (.array items)
  | object {fields : List (String × Value)} (hkeys : (fields.map Prod.fst).Nodup)
      (hfields : ∀ f ∈ fields, Delimited f.2) : Delimited (.object fields)

namespace Json

/-! ### Strings -/

theorem hexDigit?_hexDigitChar : ∀ n < 16, hexDigit? (hexDigitChar n) = some n := by
  decide

/-- The piece of a string that a character is written as. -/
def pieceOf (c : Char) : Piece :=
  if c.toNat < 0x20 && !(['\n', '\r', '\t', '\x08', '\x0c'].contains c) then .unit c.toNat
  else .char c

theorem pieces?_escaped (c : Char) (cs : List Char) :
    pieces? (escaped c ++ cs) = (pieces? cs).map fun (ps, rest) => (pieceOf c :: ps, rest) := by
  by_cases hq : c = '"'
  · subst hq; rfl
  by_cases hb : c = '\\'
  · subst hb; rfl
  by_cases hn : c = '\n'
  · subst hn; rfl
  by_cases hr : c = '\r'
  · subst hr; rfl
  by_cases ht : c = '\t'
  · subst ht; rfl
  by_cases h8 : c = '\x08'
  · subst h8; rfl
  by_cases hc : c = '\x0c'
  · subst hc; rfl
  by_cases hlow : c.toNat < 0x20
  · have hunit : hexUnit? '0' '0' (hexDigitChar (c.toNat / 16)) (hexDigitChar (c.toNat % 16)) =
        some c.toNat := by
      rw [hexUnit?, hexDigit?_hexDigitChar _ (by omega), hexDigit?_hexDigitChar _ (by omega)]
      show some (((0 * 16 + 0) * 16 + c.toNat / 16) * 16 + c.toNat % 16) = some c.toNat
      congr 1
      omega
    have hpiece : pieceOf c = .unit c.toNat := by simp [pieceOf, *]
    simp only [escaped, hq, hb, hn, hr, ht, h8, hc, hlow, if_false, if_true, List.cons_append,
      List.nil_append, pieces?, hunit, hpiece]
  · have hpiece : pieceOf c = .char c := by simp [pieceOf, *]
    simp only [escaped, hq, hb, hn, hr, ht, h8, hc, hlow, if_false, List.cons_append,
      List.nil_append, hpiece]
    rw [pieces?.eq_def]
    split <;> simp_all

theorem pieces?_flatMap_escaped (cs rest : List Char) :
    pieces? (cs.flatMap escaped ++ '"' :: rest) = some (cs.map pieceOf, rest) := by
  induction cs with
  | nil => rfl
  | cons c cs ih =>
      rw [List.flatMap_cons, List.append_assoc, pieces?_escaped, ih]
      rfl

theorem unitChar_toNat {c : Char} (h : c.toNat < 0x20) : unitChar c.toNat = c := by
  have hs : (isHighSurrogate c.toNat || isLowSurrogate c.toNat) = false := by
    simp only [isHighSurrogate, isLowSurrogate, Bool.or_eq_false_iff, Bool.and_eq_false_iff,
      decide_eq_false_iff_not]
    omega
  rw [unitChar, hs]
  exact Char.ofNat_toNat c

theorem joinPieces_unit_cons {n : Nat} (h : isHighSurrogate n = false) (ps : List Piece) :
    joinPieces (.unit n :: ps) = unitChar n :: joinPieces ps := by
  cases ps with
  | nil => rfl
  | cons p ps =>
      cases p with
      | char c => rfl
      | unit m => rw [joinPieces, h]; rfl

/-- The pieces of a string are joined to its characters: a character that is written as a code unit
is no half of a pair. -/
theorem joinPieces_map_pieceOf (cs : List Char) : joinPieces (cs.map pieceOf) = cs := by
  induction cs with
  | nil => rfl
  | cons c cs ih =>
      rw [List.map_cons, pieceOf]
      split
      · rename_i hc
        have hlow : c.toNat < 0x20 := by
          simp only [Bool.and_eq_true, decide_eq_true_eq] at hc
          exact hc.1
        have hhigh : isHighSurrogate c.toNat = false := by
          simp only [isHighSurrogate, Bool.and_eq_false_iff, decide_eq_false_iff_not]
          omega
        rw [joinPieces_unit_cons hhigh, unitChar_toNat hlow, ih]
      · rw [joinPieces, ih]

/-- **A string is read back**, and what follows it is left. -/
theorem stringBody?_quoted (s : String) (rest : List Char) :
    stringBody? (s.toList.flatMap escaped ++ '"' :: rest) = some (s.toList, rest) := by
  rw [stringBody?, pieces?_flatMap_escaped]
  show some (joinPieces (s.toList.map pieceOf), rest) = some (s.toList, rest)
  rw [joinPieces_map_pieceOf]

theorem quoted_append (s : String) (rest : List Char) :
    quoted s ++ rest = '"' :: (s.toList.flatMap escaped ++ '"' :: rest) := by
  simp [quoted]

/-! ### Space between tokens -/

theorem skipSpace_cons {c : Char} (h : isSpace c = false) (cs : List Char) :
    skipSpace (c :: cs) = c :: cs :=
  List.dropWhile_cons_of_neg (by simp [h])

theorem skipSpace_newline (level : Nat) (cs : List Char) :
    skipSpace (newline level ++ cs) = skipSpace cs := by
  have hspaces : ∀ n, skipSpace (List.replicate n ' ' ++ cs) = skipSpace cs := by
    intro n
    induction n with
    | zero => rfl
    | succ n ih =>
        rw [List.replicate_succ, List.cons_append, skipSpace,
          List.dropWhile_cons_of_pos (by decide)]
        exact ih
  rw [newline, List.cons_append, skipSpace, List.dropWhile_cons_of_pos (by decide)]
  exact hspaces _

/-- The writing of a value begins with a character that is neither space nor a closing bracket. -/
theorem exists_prettyAt_eq_cons {v : Value} (h : v.Delimited) (level : Nat) :
    ∃ c cs, prettyAt level v = c :: cs ∧ isSpace c = false ∧ c ≠ ']' := by
  cases h with
  | null => exact ⟨'n', _, rfl, by decide⟩
  | bool b =>
      cases b
      · exact ⟨'f', _, rfl, by decide⟩
      · exact ⟨'t', _, rfl, by decide⟩
  | string s => exact ⟨'"', _, rfl, by decide⟩
  | @array items _ => cases items <;> exact ⟨'[', _, rfl, by decide⟩
  | @object fields _ _ => cases fields <;> exact ⟨'\x7b', _, rfl, by decide⟩

/-- The blank before the value of a field is skipped. -/
theorem skipSpace_blank {v : Value} (h : v.Delimited) (level : Nat) (rest : List Char) :
    skipSpace (' ' :: (prettyAt level v ++ rest)) = prettyAt level v ++ rest := by
  obtain ⟨c, cs, hcons, hspace, -⟩ := exists_prettyAt_eq_cons h level
  rw [skipSpace, List.dropWhile_cons_of_pos (by decide), hcons]
  exact skipSpace_cons hspace _

/-! ### Items and fields -/

theorem prettyItems_cons_cons (level : Nat) (v w : Value) (items : List Value) :
    prettyItems level (v :: w :: items) =
      prettyAt level v ++ ',' :: (newline level ++ prettyItems level (w :: items)) := by
  rw [prettyItems, List.append_assoc, List.cons_append]
  exact List.cons_ne_nil w items

theorem prettyFields_cons_cons (level : Nat) (f g : String × Value)
    (fields : List (String × Value)) :
    prettyFields level (f :: g :: fields) = quoted f.1 ++ ':' :: ' ' ::
      (prettyAt level f.2 ++ ',' :: (newline level ++ prettyFields level (g :: fields))) := by
  rw [prettyFields]
  · simp only [List.append_assoc, List.cons_append]
  · exact List.cons_ne_nil g fields

theorem exists_prettyItems_eq_cons {v : Value} (h : v.Delimited) (level : Nat)
    (items : List Value) :
    ∃ c cs, prettyItems level (v :: items) = c :: cs ∧ isSpace c = false ∧ c ≠ ']' := by
  obtain ⟨c, cs, hcons, hc⟩ := exists_prettyAt_eq_cons h level
  cases items with
  | nil => exact ⟨c, cs, hcons, hc⟩
  | cons w items => exact ⟨c, _, by rw [prettyItems_cons_cons, hcons, List.cons_append], hc⟩

theorem exists_prettyFields_eq_cons (level : Nat) (f : String × Value)
    (fields : List (String × Value)) : ∃ cs, prettyFields level (f :: fields) = '"' :: cs := by
  cases fields <;> exact ⟨_, rfl⟩

/-! ### Values -/

/-- A value is read back within a budget of its length, and what follows it is left. -/
def ReadsBack (v : Value) : Prop :=
  ∀ level budget rest, (prettyAt level v).length ≤ budget →
    value? budget (prettyAt level v ++ rest) = some (v, rest)

/-- Every value has a first character to pay for. -/
theorem ReadsBack.of_succ {v : Value} (hne : ∀ level, prettyAt level v ≠ [])
    (h : ∀ level budget rest, (prettyAt level v).length ≤ budget + 1 →
      value? (budget + 1) (prettyAt level v ++ rest) = some (v, rest)) : ReadsBack v := by
  intro level budget rest hbudget
  cases budget with
  | zero => exact absurd (List.length_eq_zero_iff.1 (Nat.le_zero.1 hbudget)) (hne level)
  | succ budget => exact h level budget rest hbudget

theorem readsBack_string (s : String) : ReadsBack (.string s) := by
  refine .of_succ (fun level => List.cons_ne_nil _ _) fun level budget rest _ => ?_
  rw [show prettyAt level (.string s) = quoted s from rfl, quoted_append, value?,
    stringBody?_quoted]
  exact congrArg (fun t => some (Value.string t, rest)) String.ofList_toList

/-- Items are read back as far as the bracket that closes them, one budget step for each. -/
theorem items?_prettyItems {items : List Value} (hdelimited : ∀ v ∈ items, v.Delimited)
    (hreads : ∀ v ∈ items, ReadsBack v) (hne : items ≠ []) (level outer budget : Nat)
    (hbudget : (prettyItems level items).length < budget) (rest : List Char) :
    items? budget (prettyItems level items ++ (newline outer ++ ']' :: rest)) =
      some (items, rest) := by
  induction items generalizing budget with
  | nil => exact absurd rfl hne
  | cons v items ih =>
      rw [List.forall_mem_cons] at hdelimited hreads
      obtain ⟨budget, rfl⟩ : ∃ n, budget = n + 1 := ⟨budget - 1, by omega⟩
      cases items with
      | nil =>
          rw [show prettyItems level [v] = prettyAt level v from rfl] at hbudget ⊢
          rw [items?, hreads.1 _ _ _ (by omega)]
          simp only [skipSpace_newline, skipSpace_cons (show isSpace ']' = false by decide)]
      | cons w items =>
          obtain ⟨c, cs, hcons, hspace, -⟩ :=
            exists_prettyItems_eq_cons (hdelimited.2 w List.mem_cons_self) level items
          have hlength := congrArg List.length (prettyItems_cons_cons level v w items)
          simp only [List.length_append, List.length_cons] at hlength
          have hmore := ih hdelimited.2 hreads.2 (List.cons_ne_nil w items) budget (by omega)
          rw [prettyItems_cons_cons, List.append_assoc, items?, hreads.1 _ _ _ (by omega)]
          rw [hcons] at hmore ⊢
          simp only [List.cons_append, List.append_assoc,
            skipSpace_cons (show isSpace ',' = false by decide), skipSpace_newline,
            skipSpace_cons hspace]
          rw [List.cons_append] at hmore
          rw [hmore, Option.map_some]

section Field

variable {f : String × Value} {level budget : Nat} {tail r r' : List Char}
  (hdelimited : f.2.Delimited)
  (hread : value? budget (prettyAt level f.2 ++ tail) = some (f.2, tail))
include hdelimited hread

/-- The last field before a brace is read back. -/
theorem fields?_last (htail : skipSpace tail = '\x7d' :: r) :
    fields? (budget + 1) (quoted f.1 ++ ':' :: ' ' :: (prettyAt level f.2 ++ tail)) =
      some ([f], r) := by
  rw [quoted_append, fields?, stringBody?_quoted]
  simp only [skipSpace_cons (show isSpace ':' = false by decide), skipSpace_blank hdelimited, hread,
    htail, String.ofList_toList]

/-- A field before a comma is read back, and the fields that follow with it. -/
theorem fields?_more (htail : skipSpace tail = ',' :: r) {fields : List (String × Value)}
    (hmore : fields? budget (skipSpace r) = some (fields, r')) :
    fields? (budget + 1) (quoted f.1 ++ ':' :: ' ' :: (prettyAt level f.2 ++ tail)) =
      some (f :: fields, r') := by
  rw [quoted_append, fields?, stringBody?_quoted]
  simp only [skipSpace_cons (show isSpace ':' = false by decide), skipSpace_blank hdelimited, hread,
    htail, hmore, Option.map_some, String.ofList_toList]

end Field

/-- Fields are read back as far as the brace that closes them. -/
theorem fields?_prettyFields {fields : List (String × Value)}
    (hdelimited : ∀ f ∈ fields, f.2.Delimited) (hreads : ∀ f ∈ fields, ReadsBack f.2)
    (hne : fields ≠ []) (level outer budget : Nat)
    (hbudget : (prettyFields level fields).length < budget) (rest : List Char) :
    fields? budget (prettyFields level fields ++ (newline outer ++ '\x7d' :: rest)) =
      some (fields, rest) := by
  induction fields generalizing budget with
  | nil => exact absurd rfl hne
  | cons f fields ih =>
      rw [List.forall_mem_cons] at hdelimited hreads
      obtain ⟨budget, rfl⟩ : ∃ n, budget = n + 1 := ⟨budget - 1, by omega⟩
      cases fields with
      | nil =>
          have htext : prettyFields level [f] =
              quoted f.1 ++ ':' :: ' ' :: prettyAt level f.2 := rfl
          have hlength := congrArg List.length htext
          simp only [List.length_append, List.length_cons] at hlength
          rw [htext, List.append_assoc, List.cons_append, List.cons_append]
          refine fields?_last hdelimited.1 (hreads.1 _ _ _ (by omega)) ?_
          rw [skipSpace_newline, skipSpace_cons (by decide)]
      | cons g fields =>
          obtain ⟨cs, hcons⟩ := exists_prettyFields_eq_cons level g fields
          have hlength := congrArg List.length (prettyFields_cons_cons level f g fields)
          simp only [List.length_append, List.length_cons] at hlength
          have hmore := ih hdelimited.2 hreads.2 (List.cons_ne_nil g fields) budget (by omega)
          simp only [prettyFields_cons_cons, List.append_assoc, List.cons_append]
          refine fields?_more hdelimited.1 (hreads.1 _ _ _ (by omega))
            (skipSpace_cons (by decide) _) ?_
          rw [skipSpace_newline, hcons, List.cons_append, skipSpace_cons (by decide),
            ← List.cons_append, ← hcons, hmore]

theorem readsBack_array {items : List Value} (hdelimited : ∀ v ∈ items, v.Delimited)
    (hreads : ∀ v ∈ items, ReadsBack v) : ReadsBack (.array items) := by
  refine .of_succ (fun level => by cases items <;> exact List.cons_ne_nil _ _)
    fun level budget rest hbudget => ?_
  cases items with
  | nil => rfl
  | cons v items =>
      have htext : prettyAt level (.array (v :: items)) = '[' :: (newline (level + 1) ++
          (prettyItems (level + 1) (v :: items) ++ (newline level ++ [']']))) := by
        simp [prettyAt]
      have hlength := congrArg List.length htext
      simp only [List.length_append, List.length_cons, List.length_nil] at hlength
      obtain ⟨c, cs, hcons, hspace, hclose⟩ :=
        exists_prettyItems_eq_cons (hdelimited v List.mem_cons_self) (level + 1) items
      have hitems := items?_prettyItems hdelimited hreads (List.cons_ne_nil v items)
        (level + 1) level budget (by omega) rest
      rw [hcons] at hitems
      simp only [htext, hcons, List.cons_append, List.append_assoc, List.nil_append, value?,
        skipSpace_newline, skipSpace_cons hspace]
      rw [List.cons_append] at hitems
      split
      · rename_i hmatch
        exact absurd (List.cons.inj hmatch).1 hclose
      · rw [hitems, Option.map_some]

theorem readsBack_object {fields : List (String × Value)} (hkeys : (fields.map Prod.fst).Nodup)
    (hdelimited : ∀ f ∈ fields, f.2.Delimited) (hreads : ∀ f ∈ fields, ReadsBack f.2) :
    ReadsBack (.object fields) := by
  refine .of_succ (fun level => by cases fields <;> exact List.cons_ne_nil _ _)
    fun level budget rest hbudget => ?_
  cases fields with
  | nil => rfl
  | cons f fields =>
      have htext : prettyAt level (.object (f :: fields)) = '\x7b' :: (newline (level + 1) ++
          (prettyFields (level + 1) (f :: fields) ++ (newline level ++ ['\x7d']))) := by
        simp [prettyAt]
      have hlength := congrArg List.length htext
      simp only [List.length_append, List.length_cons, List.length_nil] at hlength
      obtain ⟨cs, hcons⟩ := exists_prettyFields_eq_cons (level + 1) f fields
      have hfields := fields?_prettyFields hdelimited hreads (List.cons_ne_nil f fields)
        (level + 1) level budget (by omega) rest
      rw [hcons, List.cons_append] at hfields
      simp only [htext, hcons, List.cons_append, List.append_assoc, List.nil_append, value?,
        skipSpace_newline, skipSpace_cons (show isSpace '"' = false by decide)]
      show (fields? budget _).map _ = _
      rw [hfields, Option.map_some, Dict.entries_ofList hkeys]

/-- **A value is read back.** The induction is on the value; a field or an item that was read leaves
what the brackets around it need. -/
theorem readsBack {v : Value} (h : v.Delimited) : ReadsBack v := by
  induction h with
  | null => exact .of_succ (fun _ => List.cons_ne_nil _ _) fun _ _ _ _ => rfl
  | bool b =>
      cases b
      · exact .of_succ (fun _ => List.cons_ne_nil _ _) fun _ _ _ _ => rfl
      · exact .of_succ (fun _ => List.cons_ne_nil _ _) fun _ _ _ _ => rfl
  | string s => exact readsBack_string s
  | array hitems ih => exact readsBack_array hitems ih
  | object hkeys hfields ih => exact readsBack_object hkeys hfields ih

/-- **A document is read back**, with any space behind it. -/
theorem parse?_pretty {v : Value} (h : v.Delimited) {space : String}
    (hspace : ∀ c ∈ space.toList, isSpace c = true) : parse? (pretty v ++ space) = some v := by
  obtain ⟨c, cs, hcons, hfirst, -⟩ := exists_prettyAt_eq_cons h 0
  have htext : (pretty v ++ space).toList = prettyAt 0 v ++ space.toList := by
    rw [String.toList_append, pretty, String.toList_ofList]
  have hskip : skipSpace (prettyAt 0 v ++ space.toList) = prettyAt 0 v ++ space.toList := by
    rw [hcons]
    exact skipSpace_cons hfirst _
  have hlength : (prettyAt 0 v).length ≤ (pretty v ++ space).length + 1 := by
    rw [← String.length_toList, htext, List.length_append]
    omega
  have hrest : skipSpace space.toList = [] := List.dropWhile_eq_nil_iff.2 hspace
  rw [parse?, htext, hskip, readsBack h 0 _ _ hlength]
  simp only [hrest, List.isEmpty_nil, if_true]

end Json

end ImportAtlas

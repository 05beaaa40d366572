import Mathlib.Data.List.DropRight
import Mathlib.Data.List.SplitBy
import ImportAtlas.Url.File

/-!
# Reading percent escapes

A slash is neither part of an escape nor of a character that several bytes spell. So the escapes of
a path are read segment by segment, and a segment without escapes stands for itself. A segment with
escapes may stand for several, or for one that names nothing.

## Main results

* `Url.decode_intercalate`: escapes are read segment by segment.
* `Url.decode_eq_self`: a text without escapes stands for itself.
-/

namespace ImportAtlas

/-! ### Bytes -/

namespace Utf8

/-- What a first byte announces begins above ASCII. -/
theorem least_of_lead? {b : UInt8} {l : Lead} (h : lead? b = some l) : 0x80 ≤ l.least := by
  unfold lead? at h
  grind

/-- A byte of ASCII ends what a first byte announced. -/
theorem following_append {b : UInt8} (hb : b ≤ 0x7F) (rest : List UInt8) {more : Nat}
    {least greatest : UInt8} {code : Nat} {bytes : List UInt8} (hleast : 0x80 ≤ least) :
    following more least greatest code (bytes ++ b :: rest) =
      ((following more least greatest code bytes).1,
        (following more least greatest code bytes).2 ++ b :: rest) := by
  induction more generalizing least greatest code bytes with
  | zero => rfl
  | succ more ih =>
      cases bytes with
      | nil =>
          have hlt : ¬ least ≤ b := fun hle =>
            absurd (UInt8.le_trans hleast (UInt8.le_trans hle hb)) (by decide)
          simp [following, hlt]
      | cons a bytes =>
          rw [List.cons_append, following, following]
          split
          · exact ih (UInt8.le_refl _)
          · rfl

/-- A byte of ASCII stands for its character, whatever stands before it. -/
theorem scalars_append {b : UInt8} (hb : b ≤ 0x7F) (bytes rest : List UInt8) :
    scalars (bytes ++ b :: rest) = scalars bytes ++ some (Char.ofNat b.toNat) :: scalars rest := by
  induction h : bytes.length using Nat.strong_induction_on generalizing bytes with
  | _ n ih =>
    subst h
    cases bytes with
    | nil =>
        simp only [List.nil_append, scalars]
        rw [if_pos hb]
    | cons a bytes =>
        rw [List.cons_append, scalars, scalars]
        split
        · rw [ih _ (Nat.lt_succ_self _) bytes rfl, List.cons_append]
        · cases hlead : lead? a with
          | none => simp only [ih _ (Nat.lt_succ_self _) bytes rfl, List.cons_append]
          | some l =>
              have hfollowing := length_following_le l.more l.least l.greatest l.bits bytes
              simp only [following_append hb rest (least_of_lead? hlead)]
              rw [ih _ (Nat.lt_succ_of_le hfollowing) _ rfl, List.cons_append]

theorem decodeLossy_append {b : UInt8} (hb : b ≤ 0x7F) (bytes rest : List UInt8) :
    decodeLossy (bytes ++ b :: rest) =
      decodeLossy bytes ++ Char.ofNat b.toNat :: decodeLossy rest := by
  rw [decodeLossy, scalars_append hb]
  simp [decodeLossy]

@[simp] theorem decodeLossy_nil : decodeLossy [] = [] := by
  rw [decodeLossy, scalars, List.map_nil]

end Utf8

namespace Url

/-! ### Escapes -/

theorem percentBytes_cons {c : Char} (h : c ≠ '%') (cs : List Char) :
    percentBytes (c :: cs) = UInt8.ofNat c.toNat :: percentBytes cs := by
  rw [percentBytes]
  exact fun _ _ _ heq => absurd heq h

/-- A slash is not part of an escape. -/
theorem percentBytes_append (cs rest : List Char) :
    percentBytes (cs ++ '/' :: rest) = percentBytes cs ++ 0x2F :: percentBytes rest := by
  have hslash : percentBytes ('/' :: rest) = 0x2F :: percentBytes rest :=
    percentBytes_cons (by decide) rest
  have hdigit : Json.hexDigit? '/' = none := by decide
  fun_induction percentBytes cs with
  | case1 => exact hslash
  | case2 a b cs x y hx hy ih =>
      simp only [List.cons_append, percentBytes, hx, hy, ih]
  | case3 a b cs hnone ih =>
      simp only [List.cons_append] at ih ⊢
      rw [percentBytes]
      split
      · rename_i x y hx hy
        exact absurd hy (hnone x y hx)
      · rw [ih]
  | case4 c cs hne ih =>
      by_cases hc : c = '%'
      · subst hc
        -- The slash cuts an escape short.
        rcases cs with _ | ⟨a, _ | ⟨b, cs⟩⟩
        · rw [List.cons_append, List.nil_append]
          cases rest with
          | nil => simp [percentBytes]
          | cons b rest => simp [percentBytes, hdigit, hslash]
        · rw [List.cons_append, List.cons_append, List.nil_append, percentBytes, hdigit]
          have hfirst : percentBytes (a :: '/' :: rest) =
              percentBytes [a] ++ 0x2F :: percentBytes rest := ih
          cases Json.hexDigit? a <;> simp [hfirst]
        · exact absurd rfl (hne a b cs rfl)
      · rw [List.cons_append, percentBytes_cons hc, ih, List.cons_append]

/-! ### Texts -/

/-- A text of ASCII with its escapes read. -/
def decodeAscii (cs : List Char) : List Char := Utf8.decodeLossy (percentBytes cs)

theorem decodeAscii_append (cs rest : List Char) :
    decodeAscii (cs ++ '/' :: rest) = decodeAscii cs ++ '/' :: decodeAscii rest := by
  rw [decodeAscii, percentBytes_append, Utf8.decodeLossy_append (by decide)]
  rfl

theorem decode_of_ascii {cs : List Char} (h : ∀ c ∈ cs, isAscii c = true) :
    decode cs = decodeAscii cs := by
  by_cases hnil : cs = []
  · subst hnil
    rw [decode, List.splitBy_nil, List.flatMap_nil, decodeAscii, percentBytes,
      Utf8.decodeLossy_nil]
  · have hchain : cs.IsChain fun a b => (isAscii a == isAscii b) = true := by
      refine List.Pairwise.isChain (List.pairwise_of_forall_mem_list fun a ha b hb => ?_)
      simp [h a ha, h b hb]
    rw [decode, List.splitBy_of_isChain hnil hchain, List.flatMap_singleton,
      if_pos (List.all_eq_true.2 h)]
    rfl

/-- A text is read in two parts where ASCII begins or ends. -/
theorem decode_append {cs rest : List Char}
    (h : ∀ a ∈ cs.getLast?, ∀ b ∈ rest.head?, isAscii a ≠ isAscii b) :
    decode (cs ++ rest) = decode cs ++ decode rest := by
  rw [decode, List.splitBy_append fun a ha b hb => by simp [h a ha b hb], List.flatMap_append]
  rfl

/-- A text ends in a run of ASCII. -/
theorem exists_ascii_suffix (cs : List Char) : ∃ before run, cs = before ++ run ∧
    (∀ c ∈ run, isAscii c = true) ∧ ∀ a ∈ before.getLast?, isAscii a = false := by
  refine ⟨cs.rdropWhile isAscii, cs.rtakeWhile isAscii, ?_, fun c => List.mem_rtakeWhile_imp,
    fun a ha => ?_⟩
  · exact (List.rdropWhile_append_rtakeWhile ..).symm
  · obtain ⟨hne, rfl⟩ := List.mem_getLast?_eq_getLast ha
    simpa using List.rdropWhile_last_not isAscii cs hne

/-- A text begins with a run of ASCII. -/
theorem exists_ascii_prefix (cs : List Char) : ∃ run after, cs = run ++ after ∧
    (∀ c ∈ run, isAscii c = true) ∧ ∀ b ∈ after.head?, isAscii b = false := by
  refine ⟨cs.takeWhile isAscii, cs.dropWhile isAscii, List.takeWhile_append_dropWhile.symm,
    fun c => List.mem_takeWhile_imp, fun b hb => ?_⟩
  have := List.head?_dropWhile_not isAscii cs
  rw [Option.mem_def.1 hb] at this
  exact this

/-- **Escapes are read before and after a slash.** Around it, the text is parted where a run of
ASCII begins and where it ends. -/
theorem decode_slash (cs rest : List Char) :
    decode (cs ++ '/' :: rest) = decode cs ++ '/' :: decode rest := by
  obtain ⟨before, run, rfl, hrun, hbefore⟩ := exists_ascii_suffix cs
  obtain ⟨run', after, rfl, hrun', hafter⟩ := exists_ascii_prefix rest
  have hmiddle : ∀ c ∈ run ++ '/' :: run', isAscii c = true := by
    intro c hc
    rcases List.mem_append.1 hc with hc | hc
    · exact hrun c hc
    · rcases List.mem_cons.1 hc with rfl | hc
      · rfl
      · exact hrun' c hc
  have hne : ∀ {a b : Char}, isAscii a = false → isAscii b = true → isAscii a ≠ isAscii b := by
    intro a b ha hb
    simp [ha, hb]
  have hleft : decode (before ++ run) = decode before ++ decode run :=
    decode_append fun a ha b hb => hne (hbefore a ha) (hrun b (List.mem_of_mem_head? hb))
  have hright : decode (run' ++ after) = decode run' ++ decode after :=
    decode_append fun a ha b hb => (hne (hafter b hb) (hrun' a (List.mem_of_mem_getLast? ha))).symm
  have hinner : decode ((run ++ '/' :: run') ++ after) =
      decode (run ++ '/' :: run') ++ decode after :=
    decode_append fun a ha b hb =>
      (hne (hafter b hb) (hmiddle a (List.mem_of_mem_getLast? ha))).symm
  have houter : decode (before ++ ((run ++ '/' :: run') ++ after)) =
      decode before ++ decode ((run ++ '/' :: run') ++ after) := by
    refine decode_append fun a ha b hb => hne (hbefore a ha) (hmiddle b ?_)
    cases run with
    | nil => exact List.mem_cons.2 (Or.inl (Option.some.inj hb).symm)
    | cons c run => exact List.mem_cons.2 (Or.inl (Option.some.inj hb).symm)
  calc decode (before ++ run ++ '/' :: (run' ++ after))
      = decode (before ++ ((run ++ '/' :: run') ++ after)) := by simp
    _ = decode before ++ (decode (run ++ '/' :: run') ++ decode after) := by rw [houter, hinner]
    _ = decode before ++ (decode run ++ '/' :: decode run' ++ decode after) := by
        rw [decode_of_ascii hmiddle, decode_of_ascii hrun, decode_of_ascii hrun',
          decodeAscii_append]
    _ = decode (before ++ run) ++ '/' :: decode (run' ++ after) := by simp [hleft, hright]

/-- **Escapes are read segment by segment.** -/
theorem decode_intercalate (segs : List (List Char)) :
    decode (['/'].intercalate segs) = ['/'].intercalate (segs.map decode) := by
  induction segs with
  | nil => rfl
  | cons seg segs ih =>
      cases segs with
      | nil => simp
      | cons next segs =>
          rw [List.map_cons, List.map_cons, List.intercalate_cons_cons, List.intercalate_cons_cons,
            ← List.map_cons, ← ih]
          simpa using decode_slash seg (['/'].intercalate (next :: segs))

/-- Texts that are written with slashes between them have the segments of all. -/
theorem splitOn_intercalate_flatMap {texts : List (List Char)} (h : texts ≠ []) :
    (['/'].intercalate texts).splitOn '/' = texts.flatMap (List.splitOn '/') := by
  induction texts with
  | nil => exact absurd rfl h
  | cons text texts ih =>
      cases texts with
      | nil => simp
      | cons next texts =>
          rw [List.intercalate_cons_cons, List.flatMap_cons, ← ih (List.cons_ne_nil _ _)]
          simpa using List.splitOn_append_cons_self text (['/'].intercalate (next :: texts))

/-- **The segments of a path whose escapes have been read** are those of its segments. -/
theorem splitOn_decode (cs : List Char) :
    (decode cs).splitOn '/' = (cs.splitOn '/').flatMap fun seg => (decode seg).splitOn '/' := by
  have hne : (cs.splitOn '/').map decode ≠ [] := by
    rw [Ne, List.map_eq_nil_iff]
    exact List.splitOn_ne_nil '/' cs
  calc (decode cs).splitOn '/'
      = (decode (['/'].intercalate (cs.splitOn '/'))).splitOn '/' := by
        rw [List.intercalate_splitOn]
    _ = ((cs.splitOn '/').map decode).flatMap (List.splitOn '/') := by
        rw [decode_intercalate, splitOn_intercalate_flatMap hne]
    _ = (cs.splitOn '/').flatMap fun seg => (decode seg).splitOn '/' := by rw [List.flatMap_map]

theorem decodeAscii_eq_self {cs : List Char} (h : '%' ∉ cs) (hascii : ∀ c ∈ cs, isAscii c = true) :
    decodeAscii cs = cs := by
  induction cs with
  | nil => rw [decodeAscii, percentBytes, Utf8.decodeLossy_nil]
  | cons c cs ih =>
      obtain ⟨hc, hcs⟩ := List.forall_mem_cons.1 hascii
      rw [List.mem_cons, not_or] at h
      have hlt : c.toNat < 0x80 := of_decide_eq_true hc
      have htoNat : (UInt8.ofNat c.toNat).toNat = c.toNat := by
        simp only [UInt8.toNat_ofNat']
        omega
      have hbyte : UInt8.ofNat c.toNat ≤ 0x7F := by
        rw [UInt8.le_iff_toNat_le, htoNat]
        exact Nat.le_of_lt_succ hlt
      have hchar := Utf8.decodeLossy_append hbyte [] (percentBytes cs)
      rw [List.nil_append, Utf8.decodeLossy_nil, List.nil_append, htoNat, Char.ofNat_toNat] at hchar
      rw [decodeAscii, percentBytes_cons (Ne.symm h.1), hchar]
      exact congrArg (c :: ·) (ih h.2 hcs)

/-- **A text without escapes stands for itself.** -/
theorem decode_eq_self {cs : List Char} (h : '%' ∉ cs) : decode cs = cs := by
  have hrun : ∀ run ∈ cs.splitBy fun a b => isAscii a == isAscii b,
      (if run.all isAscii then Utf8.decodeLossy (percentBytes run) else run) = run := by
    intro run hrun
    split
    · rename_i hall
      refine decodeAscii_eq_self (fun hmem => h ?_) (List.all_eq_true.1 hall)
      rw [← List.flatten_splitBy (fun a b => isAscii a == isAscii b) cs]
      exact List.mem_flatten.2 ⟨run, hrun, hmem⟩
    · rfl
  rw [decode, List.flatMap_congr hrun, List.flatMap_id', List.flatten_splitBy]

end Url

end ImportAtlas

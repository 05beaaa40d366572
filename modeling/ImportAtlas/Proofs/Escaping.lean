import Mathlib.Tactic.IntervalCases
import ImportAtlas.Proofs.Decoding

/-!
# Writing percent escapes

The bytes of a character spell it, and an escaped byte is read as that byte: so a path that is
escaped as a URL has to write it is read back unchanged. A text that is not escaped is read as
itself or as a shorter one, since an escape takes three characters for a byte.

## Main results

* `Utf8.scalars_utf8EncodeChar`: the bytes of a character spell it.
* `Url.decode_flatMap_encodeChar`: what is escaped is read back.
* `Url.decode_cases`: what a text reads is the text itself, or shorter.
-/

namespace ImportAtlas

/-! ### Bytes of characters -/

namespace Utf8

theorem toNat_ofNat_of_lt {n : Nat} (h : n < 256) : (UInt8.ofNat n).toNat = n := by
  simp only [UInt8.toNat_ofNat']
  omega

/-- A following byte in its range adds its six bits. -/
theorem following_succ {more n code : Nat} {least greatest : UInt8} (hn : n < 256)
    (hleast : least.toNat ≤ n) (hgreatest : n ≤ greatest.toNat) (rest : List UInt8) :
    following (more + 1) least greatest code (UInt8.ofNat n :: rest) =
      following more 0x80 0xBF (code * 64 + (n - 0x80)) rest := by
  have hbyte := toNat_ofNat_of_lt hn
  rw [following, if_pos, hbyte]
  rw [Bool.and_eq_true, decide_eq_true_eq, decide_eq_true_eq, UInt8.le_iff_toNat_le,
    UInt8.le_iff_toNat_le, hbyte]
  exact ⟨hleast, hgreatest⟩

theorem scalars_cons_of_lead {b : UInt8} {l : Lead} (h : lead? b = some l) (rest : List UInt8) :
    scalars (b :: rest) = (following l.more l.least l.greatest l.bits rest).1.map Char.ofNat ::
      scalars (following l.more l.least l.greatest l.bits rest).2 := by
  have hb : ¬ b ≤ 0x7F := by
    intro hle
    unfold lead? at h
    grind
  rw [scalars, if_neg hb, h]

theorem lead?_two {n : Nat} (h : 2 ≤ n) (h' : n < 32) :
    lead? (UInt8.ofNat (n + 192)) = some ⟨1, n, 0x80, 0xBF⟩ := by
  interval_cases n <;> rfl

theorem lead?_three {n : Nat} (h : n < 16) : lead? (UInt8.ofNat (n + 224)) =
    some ⟨2, n, if n = 0 then 0xA0 else 0x80, if n = 13 then 0x9F else 0xBF⟩ := by
  interval_cases n <;> rfl

theorem lead?_four {n : Nat} (h : n < 5) : lead? (UInt8.ofNat (n + 240)) =
    some ⟨3, n, if n = 0 then 0x90 else 0x80, if n = 4 then 0x8F else 0xBF⟩ := by
  interval_cases n <;> rfl

theorem toNat_ite_le {holds : Prop} [Decidable holds] {a b : UInt8} {n : Nat}
    (ha : holds → a.toNat ≤ n) (hb : ¬ holds → b.toNat ≤ n) :
    (if holds then a else b).toNat ≤ n := by
  split
  · exact ha ‹_›
  · exact hb ‹_›

theorem le_toNat_ite {holds : Prop} [Decidable holds] {a b : UInt8} {n : Nat}
    (ha : holds → n ≤ a.toNat) (hb : ¬ holds → n ≤ b.toNat) :
    n ≤ (if holds then a else b).toNat := by
  split
  · exact ha ‹_›
  · exact hb ‹_›

theorem scalars_one {v : Nat} (h : v ≤ 0x7F) (rest : List UInt8) :
    scalars (UInt8.ofNat v :: rest) = some (Char.ofNat v) :: scalars rest := by
  have hbyte := toNat_ofNat_of_lt (n := v) (by omega)
  have hle : UInt8.ofNat v ≤ 0x7F := by
    rw [UInt8.le_iff_toNat_le, hbyte]
    exact h
  rw [scalars, if_pos hle, hbyte]

theorem scalars_two {v : Nat} (hone : ¬ v ≤ 0x7F) (h : v ≤ 0x7FF) (rest : List UInt8) :
    scalars (UInt8.ofNat (v / 64 % 32 + 192) :: UInt8.ofNat (v % 64 + 128) :: rest) =
      some (Char.ofNat v) :: scalars rest := by
  have hlead := lead?_two (n := v / 64 % 32) (by omega) (by omega)
  rw [scalars_cons_of_lead hlead,
    following_succ (by omega) (show 0x80 ≤ _ by omega) (show _ ≤ 0xBF by omega), following]
  have hcode : v / 64 % 32 * 64 + (v % 64 + 128 - 128) = v := by omega
  rw [hcode, Option.map_some]

/-- The second byte of three leaves out short spellings and the halves of surrogate pairs. -/
theorem scalars_three {v : Nat} (htwo : ¬ v ≤ 0x7FF) (h : v ≤ 0xFFFF)
    (hvalid : v < 0xD800 ∨ 0xDFFF < v) (rest : List UInt8) :
    scalars (UInt8.ofNat (v / 4096 % 16 + 224) :: UInt8.ofNat (v / 64 % 64 + 128) ::
        UInt8.ofNat (v % 64 + 128) :: rest) =
      some (Char.ofNat v) :: scalars rest := by
  have hlead := lead?_three (n := v / 4096 % 16) (by omega)
  have hleast : (if v / 4096 % 16 = 0 then (0xA0 : UInt8) else 0x80).toNat ≤ v / 64 % 64 + 128 :=
    toNat_ite_le (fun _ => show 0xA0 ≤ _ by omega) fun _ => show 0x80 ≤ _ by omega
  have hgreatest : v / 64 % 64 + 128 ≤
      (if v / 4096 % 16 = 13 then (0x9F : UInt8) else 0xBF).toNat :=
    le_toNat_ite (fun _ => show _ ≤ 0x9F by omega) fun _ => show _ ≤ 0xBF by omega
  rw [scalars_cons_of_lead hlead, following_succ (by omega) hleast hgreatest,
    following_succ (by omega) (show 0x80 ≤ _ by omega) (show _ ≤ 0xBF by omega), following]
  have hcode : (v / 4096 % 16 * 64 + (v / 64 % 64 + 128 - 128)) * 64 + (v % 64 + 128 - 128) =
      v := by omega
  rw [hcode, Option.map_some]

/-- The second byte of four leaves out short spellings and what is behind the last character. -/
theorem scalars_four {v : Nat} (hthree : ¬ v ≤ 0xFFFF) (h : v < 0x110000) (rest : List UInt8) :
    scalars (UInt8.ofNat (v / 262144 % 8 + 240) :: UInt8.ofNat (v / 4096 % 64 + 128) ::
        UInt8.ofNat (v / 64 % 64 + 128) :: UInt8.ofNat (v % 64 + 128) :: rest) =
      some (Char.ofNat v) :: scalars rest := by
  have hlead := lead?_four (n := v / 262144 % 8) (by omega)
  have hleast : (if v / 262144 % 8 = 0 then (0x90 : UInt8) else 0x80).toNat ≤
      v / 4096 % 64 + 128 :=
    toNat_ite_le (fun _ => show 0x90 ≤ _ by omega) fun _ => show 0x80 ≤ _ by omega
  have hgreatest : v / 4096 % 64 + 128 ≤
      (if v / 262144 % 8 = 4 then (0x8F : UInt8) else 0xBF).toNat :=
    le_toNat_ite (fun _ => show _ ≤ 0x8F by omega) fun _ => show _ ≤ 0xBF by omega
  rw [scalars_cons_of_lead hlead, following_succ (by omega) hleast hgreatest,
    following_succ (by omega) (show 0x80 ≤ _ by omega) (show _ ≤ 0xBF by omega),
    following_succ (by omega) (show 0x80 ≤ _ by omega) (show _ ≤ 0xBF by omega), following]
  have hcode : ((v / 262144 % 8 * 64 + (v / 4096 % 64 + 128 - 128)) * 64 +
      (v / 64 % 64 + 128 - 128)) * 64 + (v % 64 + 128 - 128) = v := by omega
  rw [hcode, Option.map_some]

/-- **The bytes of a character spell it.** -/
theorem scalars_utf8EncodeChar (c : Char) (rest : List UInt8) :
    scalars (String.utf8EncodeChar c ++ rest) = some c :: scalars rest := by
  have hchar : Char.ofNat c.val.toNat = c := Char.ofNat_toNat c
  have hvalid : c.val.toNat < 0xD800 ∨ 0xDFFF < c.val.toNat ∧ c.val.toNat < 0x110000 := c.valid
  rw [String.utf8EncodeChar]
  split
  · rename_i hone
    exact (scalars_one hone rest).trans (by rw [hchar])
  split
  · rename_i hone htwo
    exact (scalars_two hone htwo rest).trans (by rw [hchar])
  split
  · rename_i hone htwo hthree
    exact (scalars_three htwo hthree (by omega) rest).trans (by rw [hchar])
  · rename_i hone htwo hthree
    exact (scalars_four hthree (by omega) rest).trans (by rw [hchar])

/-- Ill-formed pieces are as long as what they are shown as, at least. -/
theorem length_scalars_le (bytes : List UInt8) : (scalars bytes).length ≤ bytes.length := by
  induction h : bytes.length using Nat.strong_induction_on generalizing bytes with
  | _ n ih =>
    subst h
    cases bytes with
    | nil => simp [scalars]
    | cons b rest =>
        rw [scalars]
        split
        · exact Nat.succ_le_succ (ih _ (Nat.lt_succ_self _) rest rfl)
        · cases lead? b with
          | none => exact Nat.succ_le_succ (ih _ (Nat.lt_succ_self _) rest rfl)
          | some l =>
              have hrest := length_following_le l.more l.least l.greatest l.bits rest
              exact Nat.succ_le_succ ((ih _ (Nat.lt_succ_of_le hrest) _ rfl).trans hrest)

theorem length_decodeLossy_le (bytes : List UInt8) : (decodeLossy bytes).length ≤ bytes.length := by
  rw [decodeLossy, List.length_map]
  exact length_scalars_le bytes

end Utf8

namespace Url

open Utf8 (toNat_ofNat_of_lt)

/-! ### What is escaped is read back -/

theorem hexDigit?_hexDigitUpper {n : Nat} (h : n < 16) :
    Json.hexDigit? (hexDigitUpper n) = some n := by
  interval_cases n <;> decide

theorem percentBytes_encodeByte (b : UInt8) (rest : List Char) :
    percentBytes (encodeByte b ++ rest) = b :: percentBytes rest := by
  have hlt : b.toNat < 256 := b.toNat_lt
  have hbyte : b.toNat / 16 * 16 + b.toNat % 16 = b.toNat := Nat.div_add_mod' _ _
  simp only [encodeByte, List.cons_append, List.nil_append, percentBytes,
    hexDigit?_hexDigitUpper (show b.toNat / 16 < 16 by omega),
    hexDigit?_hexDigitUpper (show b.toNat % 16 < 16 by omega), hbyte, UInt8.ofNat_toNat]

theorem percentBytes_flatMap_encodeByte (bytes : List UInt8) (rest : List Char) :
    percentBytes (bytes.flatMap encodeByte ++ rest) = bytes ++ percentBytes rest := by
  induction bytes with
  | nil => rfl
  | cons b bytes ih =>
      rw [List.flatMap_cons, List.append_assoc, percentBytes_encodeByte, ih, List.cons_append]

theorem isAscii_of_isUnreserved {c : Char} (h : isUnreserved c = true) : isAscii c = true := by
  have hletter : ∀ n : Nat, c.val.toNat ≤ n → n < 0x80 → isAscii c = true := fun n hle hlt =>
    decide_eq_true (Nat.lt_of_le_of_lt hle hlt)
  have halphanum : c.isAlphanum = (decide ('A'.val ≤ c.val ∧ c.val ≤ 'Z'.val) ||
      (decide ('a'.val ≤ c.val) && decide (c.val ≤ 'z'.val)) ||
      (decide ('0'.val ≤ c.val) && decide (c.val ≤ '9'.val))) := rfl
  simp only [isUnreserved, halphanum, Bool.or_eq_true, Bool.and_eq_true, decide_eq_true_eq,
    beq_iff_eq, UInt32.le_iff_toNat_le] at h
  rcases h with ((((((h | h) | h) | rfl) | rfl) | rfl) | rfl) | rfl
  · exact hletter 90 h.2 (by decide)
  · exact hletter 122 h.2 (by decide)
  · exact hletter 57 h.2 (by decide)
  all_goals rfl

theorem utf8EncodeChar_of_isAscii {c : Char} (h : isAscii c = true) :
    String.utf8EncodeChar c = [UInt8.ofNat c.toNat] := by
  have hle : c.val.toNat ≤ 127 := Nat.le_of_lt_succ (of_decide_eq_true h)
  rw [String.utf8EncodeChar, if_pos hle]
  rfl

/-- **A character that is escaped as it has to be is read as its bytes.** -/
theorem percentBytes_encodeChar (c : Char) (rest : List Char) :
    percentBytes (encodeChar c ++ rest) = String.utf8EncodeChar c ++ percentBytes rest := by
  rw [encodeChar]
  split
  · rename_i hc
    have hne : c ≠ '%' := by
      rintro rfl
      exact absurd hc (by decide)
    rw [List.singleton_append, percentBytes_cons hne,
      utf8EncodeChar_of_isAscii (isAscii_of_isUnreserved hc), List.singleton_append]
  · exact percentBytes_flatMap_encodeByte _ rest

theorem percentBytes_flatMap_encodeChar (cs : List Char) :
    percentBytes (cs.flatMap encodeChar) = cs.flatMap String.utf8EncodeChar := by
  induction cs with
  | nil => rw [List.flatMap_nil, List.flatMap_nil, percentBytes]
  | cons c cs ih => rw [List.flatMap_cons, percentBytes_encodeChar, ih, List.flatMap_cons]

theorem decodeLossy_flatMap_utf8EncodeChar (cs : List Char) :
    Utf8.decodeLossy (cs.flatMap String.utf8EncodeChar) = cs := by
  induction cs with
  | nil => exact Utf8.decodeLossy_nil
  | cons c cs ih =>
      rw [Utf8.decodeLossy] at ih ⊢
      rw [List.flatMap_cons, Utf8.scalars_utf8EncodeChar, List.map_cons, ih]
      rfl

/-- The characters of an escaped text. -/
theorem of_mem_encodeChar {c d : Char} (h : d ∈ encodeChar c) :
    d = c ∧ isUnreserved c = true ∨ d = '%' ∨ ∃ n < 16, d = hexDigitUpper n := by
  rw [encodeChar] at h
  split at h
  · rename_i hc
    exact Or.inl ⟨List.mem_singleton.1 h, hc⟩
  · obtain ⟨b, -, hb⟩ := List.mem_flatMap.1 h
    have hlt : b.toNat < 256 := b.toNat_lt
    simp only [encodeByte, List.mem_cons, List.not_mem_nil, or_false] at hb
    rcases hb with rfl | rfl | rfl
    · exact Or.inr (Or.inl rfl)
    · exact Or.inr (Or.inr ⟨b.toNat / 16, by omega, rfl⟩)
    · exact Or.inr (Or.inr ⟨b.toNat % 16, by omega, rfl⟩)

/-- **An escaped text consists of unreserved characters and percent signs.** -/
theorem isUnreserved_of_mem_encodeChar {c d : Char} (h : d ∈ encodeChar c) :
    d = '%' ∨ isUnreserved d = true := by
  rcases of_mem_encodeChar h with ⟨rfl, hc⟩ | rfl | ⟨n, hn, rfl⟩
  · exact Or.inr hc
  · exact Or.inl rfl
  · right
    interval_cases n <;> decide

/-- **What is escaped is read back.** -/
theorem decode_flatMap_encodeChar (cs : List Char) : decode (cs.flatMap encodeChar) = cs := by
  have hascii : ∀ d ∈ cs.flatMap encodeChar, isAscii d = true := by
    intro d hd
    obtain ⟨c, -, hd⟩ := List.mem_flatMap.1 hd
    rcases isUnreserved_of_mem_encodeChar hd with rfl | hd
    · rfl
    · exact isAscii_of_isUnreserved hd
  rw [decode_of_ascii hascii, decodeAscii, percentBytes_flatMap_encodeChar,
    decodeLossy_flatMap_utf8EncodeChar]

/-! ### Escapes make a text shorter -/

/-- Characters as bytes. -/
def bytesOf (cs : List Char) : List UInt8 := cs.map fun c => UInt8.ofNat c.toNat

/-- Reading an escape gives fewer bytes than there are characters. -/
theorem percentBytes_cases (cs : List Char) :
    percentBytes cs = bytesOf cs ∨ (percentBytes cs).length < cs.length := by
  fun_induction percentBytes cs with
  | case1 => exact Or.inl rfl
  | case2 a b cs x y hx hy ih =>
      right
      rcases ih with ih | ih
      · simp [ih, bytesOf]
      · simp only [List.length_cons]
        omega
  | case3 a b cs hnone ih =>
      rcases ih with ih | ih
      · exact Or.inl (by rw [ih]; rfl)
      · exact Or.inr (Nat.succ_lt_succ ih)
  | case4 c cs hne ih =>
      rcases ih with ih | ih
      · exact Or.inl (by rw [ih]; rfl)
      · exact Or.inr (Nat.succ_lt_succ ih)

theorem decodeLossy_bytesOf {cs : List Char} (h : ∀ c ∈ cs, isAscii c = true) :
    Utf8.decodeLossy (bytesOf cs) = cs := by
  have hbytes : bytesOf cs = cs.flatMap String.utf8EncodeChar := by
    rw [bytesOf, List.map_eq_flatMap]
    exact List.flatMap_congr fun c hc => (utf8EncodeChar_of_isAscii (h c hc)).symm
  rw [hbytes, decodeLossy_flatMap_utf8EncodeChar]

/-- What a text of ASCII reads is the text itself, or shorter. -/
theorem decodeAscii_cases {cs : List Char} (h : ∀ c ∈ cs, isAscii c = true) :
    decodeAscii cs = cs ∨ (decodeAscii cs).length < cs.length := by
  rcases percentBytes_cases cs with heq | hlt
  · exact Or.inl (by rw [decodeAscii, heq, decodeLossy_bytesOf h])
  · exact Or.inr (Nat.lt_of_le_of_lt (Utf8.length_decodeLossy_le _) hlt)

/-- Pieces that are each kept or shortened are kept together, or shortened. -/
theorem flatMap_cases {f : List Char → List Char} {runs : List (List Char)}
    (h : ∀ run ∈ runs, f run = run ∨ (f run).length < run.length) :
    runs.flatMap f = runs.flatten ∨ (runs.flatMap f).length < runs.flatten.length := by
  induction runs with
  | nil => exact Or.inl rfl
  | cons run runs ih =>
      obtain ⟨hrun, hruns⟩ := List.forall_mem_cons.1 h
      rw [List.flatMap_cons, List.flatten_cons, List.length_append, List.length_append]
      rcases hrun with hrun | hrun <;> rcases ih hruns with ih | ih
      · exact Or.inl (by rw [hrun, ih])
      · exact Or.inr (by rw [hrun]; omega)
      · exact Or.inr (by rw [ih]; omega)
      · exact Or.inr (by omega)

/-- **What a text reads is the text itself, or shorter.** -/
theorem decode_cases (cs : List Char) : decode cs = cs ∨ (decode cs).length < cs.length := by
  have hcases := @flatMap_cases (fun run => if run.all isAscii then decodeAscii run else run)
    (cs.splitBy fun a b => isAscii a == isAscii b) fun run _ => by
      split
      · rename_i hall
        exact decodeAscii_cases (List.all_eq_true.1 hall)
      · exact Or.inl rfl
  rw [List.flatten_splitBy] at hcases
  exact hcases

theorem length_decode_le (cs : List Char) : (decode cs).length ≤ cs.length := by
  rcases decode_cases cs with heq | hlt
  · rw [heq]
  · exact hlt.le

end Url

end ImportAtlas

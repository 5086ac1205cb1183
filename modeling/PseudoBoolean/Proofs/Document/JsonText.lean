import PseudoBoolean.Json.Printer
import PseudoBoolean.Json.Reader
import PseudoBoolean.Proofs.LabelSpelling

/-!
# Scalars in a JSON text

What is written for a text or for a whole number is read back as the same value. An escaped character is
one unit again (`quotedUnits?_escapeChar`), whatever it is and whatever follows, and no unit that comes
from a character is half a surrogate pair. The digits of a number never start with a zero of their own
(`length_eq_one_of_toDigits_eq`), so they are a number by the rules of JSON; it is whole as long as it
fits 64 bits.
-/

namespace PseudoBoolean.Json

variable {c : Char} {cs rest : List Char}

/-! ## Quoted text -/

/-- The two digits that are written for a control character. -/
theorem hexFour?_hexDigit {n : ℕ} (h : n < 0x20) :
    hexFour? '0' '0' (hexDigit (n / 16)) (hexDigit (n % 16)) = some n := by
  have hall : ∀ n < 0x20, hexFour? '0' '0' (hexDigit (n / 16)) (hexDigit (n % 16)) = some n := by
    decide
  exact hall n h

/-- One unit in front of those that are read from the rest. -/
def consUnit (n : ℕ) (units : List ℕ × List Char) : List ℕ × List Char :=
  (n :: units.1, units.2)

/-- A control character that is written in hexadecimal is read back. -/
theorem quotedUnits?_hex {n : ℕ} (h : n < 0x20) (cs : List Char) :
    quotedUnits? ('\\' :: 'u' :: '0' :: '0' :: hexDigit (n / 16) :: hexDigit (n % 16) :: cs) =
      (quotedUnits? cs).map (consUnit n) := by
  rw [quotedUnits?, hexFour?_hexDigit h]
  cases quotedUnits? cs <;> rfl

/-- A short escape is read as the character it stands for. -/
theorem quotedUnits?_backslash {e : Char} (hu : e ≠ 'u') (he : unescape? e = some c)
    (cs : List Char) : quotedUnits? ('\\' :: e :: cs) = (quotedUnits? cs).map (consUnit c.toNat) := by
  rw [quotedUnits?, he]
  · cases quotedUnits? cs <;> rfl
  · exact fun _ _ _ _ _ heq => absurd heq hu

/-- A character that needs no escape stands for itself. -/
theorem quotedUnits?_plain (hquote : c ≠ '"') (hback : c ≠ '\\') (hc : ¬ c.toNat < 0x20)
    (cs : List Char) : quotedUnits? (c :: cs) = (quotedUnits? cs).map (consUnit c.toNat) := by
  rw [quotedUnits?, if_neg hc]
  · rfl
  · exact hquote
  · exact fun _ _ _ _ _ heq => absurd heq hback
  · exact fun _ _ heq => absurd heq hback

/-- Whatever is written for a character is read as one unit, its number. -/
theorem quotedUnits?_escapeChar (c : Char) (cs : List Char) :
    quotedUnits? (escapeChar c ++ cs) = (quotedUnits? cs).map (consUnit c.toNat) := by
  unfold escapeChar
  split
  case h_8 c hquote hback hn hr ht hb hf =>
    split
    · rename_i hlt
      exact quotedUnits?_hex hlt cs
    · rename_i hlt
      exact quotedUnits?_plain hquote hback hlt cs
  all_goals exact quotedUnits?_backslash (by decide) rfl cs

/-- An escaped string is read back up to its closing quote. -/
theorem quotedUnits?_flatMap_escapeChar (cs rest : List Char) :
    quotedUnits? (cs.flatMap escapeChar ++ '"' :: rest) = some (cs.map Char.toNat, rest) := by
  induction cs with
  | nil => rfl
  | cons c cs ih =>
    rw [List.flatMap_cons, List.append_assoc, quotedUnits?_escapeChar, ih]
    rfl

/-- The number of a character is not half a surrogate pair. -/
theorem characters?_map_toNat (cs : List Char) : characters? (cs.map Char.toNat) = some cs := by
  induction cs with
  | nil => rfl
  | cons c cs ih =>
    have hvalid : c.toNat < 0xD800 ∨ 0xDFFF < c.toNat ∧ c.toNat < 0x110000 := c.valid
    have hhigh : ¬ (0xD800 ≤ c.toNat ∧ c.toNat < 0xDC00) := by omega
    have hlow : ¬ (0xDC00 ≤ c.toNat ∧ c.toNat < 0xE000) := by omega
    rw [List.map_cons, characters?.eq_def]
    simp only [if_neg hhigh, if_neg hlow, ih, Option.map_some, Char.ofNat_toNat]

/-- A text is read back as it was written. -/
theorem parse?_compact_string (s : String) : parse? (compact (.string s)) = some (.string s) := by
  have hquoted : (compact (.string s)).toList = '"' :: (s.toList.flatMap escapeChar ++ ['"']) := by
    simp [compact, scalarText, quoted]
  have htokens : tokens? (compact (.string s)).toList = some [.text (some s)] := by
    rw [hquoted, tokens?, if_neg (by decide), if_neg (by decide), if_pos rfl]
    split
    · rename_i hnone
      rw [quotedUnits?_flatMap_escapeChar] at hnone
      cases hnone
    · rename_i hsome
      rw [quotedUnits?_flatMap_escapeChar] at hsome
      obtain ⟨rfl, rfl⟩ := Prod.mk.inj (Option.some_inj.mp hsome)
      rw [characters?_map_toNat, Option.map_some, String.ofList_toList, tokens?]
      rfl
  rw [parse?, htokens]
  rfl

/-! ## Whole numbers -/

/-- A number whose digits start with zero has no other digit. -/
theorem eq_singleton_of_toDigits_eq {n : ℕ} (h : Nat.toDigits 10 n = '0' :: rest) : rest = [] := by
  by_contra hne
  have hdigits : ∀ c ∈ rest, c.isDigit := fun c hc =>
    Label.isDigit_of_mem_toDigits (h ▸ List.mem_cons_of_mem _ hc)
  have hvalue : Decimal.digitsValue rest = n := by
    have hall : Decimal.digitsValue ('0' :: rest) = n := h ▸ Label.digitsValue_toDigits n
    exact hall
  -- without the zero, the digits of the same number would be left
  obtain ⟨k, hk⟩ := Label.exists_eq_replicate_append hne hdigits
  have hlength := congrArg List.length hk
  rw [hvalue, h, List.length_append, List.length_cons] at hlength
  omega

/-- The decimal digits of a number are read to their end. -/
theorem digits?_toDigits (n : ℕ) :
    NumberParts.digits? (Nat.toDigits 10 n) = some (Nat.toDigits 10 n, []) := by
  have hdigits : ∀ c ∈ Nat.toDigits 10 n, c.isDigit := fun _ => Label.isDigit_of_mem_toDigits
  rw [NumberParts.digits?, List.span_eq_takeWhile_dropWhile, List.takeWhile_eq_self_iff.mpr hdigits,
    List.dropWhile_eq_nil_iff.mpr hdigits]
  exact if_neg (by simp)

/-- Decimal digits have no leading zero unless the number is zero. -/
theorem not_leadingZero (n : ℕ) :
    ¬ ((Nat.toDigits 10 n).head? = some '0' ∧ Nat.toDigits 10 n ≠ ['0']) := by
  rintro ⟨hhead, hne⟩
  obtain ⟨rest, hrest⟩ := List.head?_eq_some_iff.mp hhead
  exact hne (by rw [hrest, eq_singleton_of_toDigits_eq hrest])

/-- The digits of a number are a whole number by the rules of JSON. -/
theorem ofChars?_toDigits (n : ℕ) :
    NumberParts.ofChars? (Nat.toDigits 10 n) = some ⟨false, Nat.toDigits 10 n, none, none⟩ := by
  rw [NumberParts.ofChars?]
  · simp only [digits?_toDigits, Option.bind_eq_bind, Option.bind_some, if_neg (not_leadingZero n)]
    rfl
  · exact fun rest heq => Label.toDigits_ne_cons (by decide) n rest heq

/-- A minus sign and digits are the parts of a negative whole number. -/
theorem ofChars?_neg_toDigits (n : ℕ) :
    NumberParts.ofChars? ('-' :: Nat.toDigits 10 n) = some ⟨true, Nat.toDigits 10 n, none, none⟩ := by
  rw [NumberParts.ofChars?]
  simp only [digits?_toDigits, Option.bind_eq_bind, Option.bind_some, if_neg (not_leadingZero n)]
  rfl

/-- A number that fits 64 bits, with or without a sign, is read as a whole number. -/
theorem number?_toString {n : ℤ} (hlow : Int64.minValue.toInt ≤ n) (hhigh : n < UInt64.size) :
    number? (toString n).toList = some (.integer n) := by
  have hmin : Int64.minValue.toInt = -(2 ^ 63) := by decide
  rw [Label.toList_toString, number?]
  split
  · rename_i hn
    obtain ⟨m, rfl⟩ := Int.eq_ofNat_of_zero_le hn
    have hm : m < UInt64.size := by omega
    rw [Int.toNat_natCast, ofChars?_toDigits]
    simp only [Option.map_some, NumberParts.value, Label.digitsValue_toDigits, hm]
    rfl
  · rename_i hn
    obtain ⟨m, rfl⟩ := Int.exists_eq_neg_ofNat (Int.le_of_not_le hn)
    have hpos : 0 < m := by omega
    have hle : m ≤ Int64.minValue.toInt.natAbs := by omega
    rw [Int.neg_neg, Int.toNat_natCast, ofChars?_neg_toDigits]
    simp only [Option.map_some, NumberParts.value, Label.digitsValue_toDigits, hpos, hle]
    rfl

/-- A printed integer is a digit or a minus sign, then digits. -/
theorem exists_toList_toString (n : ℤ) : ∃ c digits, (toString n).toList = c :: digits ∧
    (c.isDigit ∨ c = '-') ∧ ∀ d ∈ digits, d.isDigit := by
  rw [Label.toList_toString]
  split
  · obtain ⟨c, digits, heq⟩ :=
      List.exists_cons_of_ne_nil (Nat.toDigits_ne_nil (n := n.toNat) (b := 10))
    exact ⟨c, digits, heq, .inl (Label.isDigit_of_mem_toDigits (heq ▸ List.mem_cons_self)),
      fun d hd => Label.isDigit_of_mem_toDigits (heq ▸ List.mem_cons_of_mem _ hd)⟩
  · exact ⟨'-', _, rfl, .inr rfl, fun _ => Label.isDigit_of_mem_toDigits⟩

/-- A digit or a sign starts a number. -/
theorem tokens?_number (hc : c.isDigit ∨ c = '-') (hdigits : ∀ d ∈ cs, d.isDigit) {j : WrittenJson}
    (hj : number? (c :: cs) = some j) : tokens? (c :: cs) = some [.value j] := by
  have hne : ∀ d : Char, d.isDigit = false → d ≠ '-' → c ≠ d := by
    rintro d hd hminus rfl
    rcases hc with hc | hc
    · rw [hd] at hc
      cases hc
    · exact hminus hc
  have hblank : isBlank c = false := by
    simp [isBlank, hne ' ', hne '\n', hne '\t', hne '\r']
  have hmark : isMark c = false := by
    simp [isMark, hne '[', hne ']', hne '\x7b', hne '\x7d', hne ',', hne ':']
  have hstart : (c.isDigit || c == '-') = true := by simpa using hc
  have hpart : ∀ d ∈ cs, isNumberPart d := fun d hd => by simp [isNumberPart, hdigits d hd]
  rw [tokens?]
  simp only [hblank, hmark, hne '"' rfl (by decide), hstart, if_true, if_false, Bool.false_eq_true]
  rw [List.takeWhile_eq_self_iff.mpr hpart, List.dropWhile_eq_nil_iff.mpr hpart, hj, tokens?]
  rfl

/-- A number that fits 64 bits is read back as it was written. -/
theorem parse?_compact_integer {n : ℤ} (hlow : Int64.minValue.toInt ≤ n) (hhigh : n < UInt64.size) :
    parse? (compact (.integer n)) = some (.integer n) := by
  have hnumber := number?_toString hlow hhigh
  have hcompact : compact (.integer n) = toString n := by simp [compact, scalarText]
  obtain ⟨c, digits, heq, hc, hdigits⟩ := exists_toList_toString n
  rw [heq] at hnumber
  rw [parse?, hcompact, heq, tokens?_number hc hdigits hnumber]
  rfl

end PseudoBoolean.Json

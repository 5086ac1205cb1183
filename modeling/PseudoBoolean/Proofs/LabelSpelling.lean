import PseudoBoolean.Proofs.Label
import PseudoBoolean.Document.Basic

/-!
# Spellings of an ancilla

An ancilla is written in one way, and read in many: a plus sign and zeros may stand before the digits of
its number (`Spells`). So a text is given back unless it is another spelling than the one that is written,
and two texts of a document are the same label if both spell one ancilla (`ofText_spellings`).
-/

namespace PseudoBoolean.Label

/-! ## Digits with zeros before them -/

/-- A decimal digit is the character of its own value. -/
theorem digitChar_toNat_sub {c : Char} (hc : c.isDigit) : Nat.digitChar (c.toNat - 48) = c := by
  obtain ⟨hlow, hhigh⟩ := Char.isDigit_iff_toNat.mp hc
  have hlow : 48 ≤ c.toNat := hlow
  have hhigh : c.toNat ≤ 57 := hhigh
  apply Char.toNat_inj.mp
  rw [Nat.toNat_digitChar_of_lt_ten (by omega)]
  omega

/-- One more digit at the end multiplies the value by ten. -/
theorem digitsValue_append_singleton (digits : List Char) (c : Char) :
    Decimal.digitsValue (digits ++ [c]) = 10 * Decimal.digitsValue digits + (c.toNat - 48) := by
  rw [Decimal.digitsValue, List.foldl_append]
  rfl

/-- Leading zeros do not change the value of the digits. -/
theorem digitsValue_replicate_append (k n : ℕ) :
    Decimal.digitsValue (List.replicate k '0' ++ Nat.toDigits 10 n) = n := by
  have hzeros : Nat.ofDigitChars 10 (List.replicate k '0') 0 = 0 := by
    rw [Nat.ofDigitChars_replicate_zero, Nat.mul_zero]
  calc Decimal.digitsValue (List.replicate k '0' ++ Nat.toDigits 10 n)
      = Nat.ofDigitChars 10 (List.replicate k '0' ++ Nat.toDigits 10 n) 0 := rfl
    _ = Nat.ofDigitChars 10 (Nat.toDigits 10 n) 0 := by rw [Nat.ofDigitChars_append, hzeros]
    _ = n := Nat.ofDigitChars_ten_toDigits

/-- A row of digits is what is written for its value, after zeros. -/
theorem exists_eq_replicate_append {digits : List Char} (hne : digits ≠ [])
    (hdigits : ∀ c ∈ digits, c.isDigit) :
    ∃ k, digits = List.replicate k '0' ++ Nat.toDigits 10 (Decimal.digitsValue digits) := by
  induction digits using List.reverseRecOn with
  | nil => exact absurd rfl hne
  | append_singleton digits c ih =>
    obtain ⟨hdigits, hc⟩ := List.forall_mem_append.mp hdigits
    have hc : c.isDigit := hc c (List.mem_singleton.mpr rfl)
    have hlt : c.toNat - 48 < 10 := by
      have hhigh : c.toNat ≤ 57 := (Char.isDigit_iff_toNat.mp hc).2
      omega
    have hlast : Nat.toDigits 10 (c.toNat - 48) = [c] := by
      rw [Nat.toDigits_of_lt_base hlt, digitChar_toNat_sub hc]
    rw [digitsValue_append_singleton]
    rcases eq_or_ne digits [] with rfl | hne
    · exact ⟨0, by rw [show Decimal.digitsValue [] = 0 from rfl, Nat.mul_zero, Nat.zero_add, hlast]; rfl⟩
    · obtain ⟨k, hk⟩ := ih hne hdigits
      rcases Nat.eq_zero_or_pos (Decimal.digitsValue digits) with hzero | hpos
      · -- all digits so far are zeros, and the last one is all that is written
        refine ⟨k + 1, ?_⟩
        rw [hzero, Nat.mul_zero, Nat.zero_add, hlast, List.replicate_succ', hk, hzero,
          Nat.toDigits_zero]
      · refine ⟨k, ?_⟩
        rw [← Nat.toDigits_append_toDigits (by decide) hpos hlt, hlast, ← List.append_assoc, ← hk]

/-! ## What is read as an ancilla -/

/-- The characters are a plus sign that may be absent, zeros, and the digits of the number. -/
def SpellsNumber (cs : List Char) (n : UInt32) : Prop :=
  ∃ sign k, (sign = [] ∨ sign = ['+']) ∧ cs = sign ++ (List.replicate k '0' ++ Nat.toDigits 10 n.toNat)

/-- The text is the mark of ancillas, and a spelling of the number. -/
def Spells (s : String) (n : UInt32) : Prop :=
  ∃ rest, s.toList = ancillaMark ++ rest ∧ SpellsNumber rest n

/-- The digits that are left when a plus sign is taken off. -/
theorem exists_sign_append (cs : List Char) :
    ∃ sign digits, (sign = [] ∨ sign = ['+']) ∧ cs = sign ++ digits ∧
      readNumber? cs = if digits ≠ [] ∧ digits.all Char.isDigit ∧
        Decimal.digitsValue digits < UInt32.size then
        some (.ofNat (Decimal.digitsValue digits)) else none := by
  cases cs with
  | nil => exact ⟨[], [], .inl rfl, rfl, rfl⟩
  | cons c rest =>
    rcases eq_or_ne c '+' with rfl | hplus
    · exact ⟨['+'], rest, .inr rfl, rfl, rfl⟩
    · exact ⟨[], c :: rest, .inl rfl, rfl, by simp [readNumber?, hplus]⟩

/-- A spelling of an optional plus sign and digits below the word size is read as its value. -/
theorem readNumber?_sign_append {sign digits : List Char} (hsign : sign = [] ∨ sign = ['+'])
    (hne : digits ≠ []) (hdigits : digits.all Char.isDigit)
    (hlt : Decimal.digitsValue digits < UInt32.size) :
    readNumber? (sign ++ digits) = some (.ofNat (Decimal.digitsValue digits)) := by
  rcases hsign with rfl | rfl
  · obtain ⟨c, digits, rfl⟩ := List.exists_cons_of_ne_nil hne
    exact readNumber?_cons hdigits hlt
  · exact if_pos ⟨hne, hdigits, hlt⟩

/-- What is read as a number is an optional plus sign, any leading zeros and the digits. -/
theorem readNumber?_eq_some_iff {cs : List Char} {n : UInt32} :
    readNumber? cs = some n ↔ SpellsNumber cs n := by
  constructor
  · intro h
    obtain ⟨sign, digits, hsign, rfl, hread⟩ := exists_sign_append cs
    rw [hread, Option.ite_none_right_eq_some] at h
    obtain ⟨⟨hne, hdigits, hlt⟩, hn⟩ := h
    obtain ⟨k, hk⟩ := exists_eq_replicate_append hne (List.all_eq_true.mp hdigits)
    have hvalue : n.toNat = Decimal.digitsValue digits := by
      rw [← Option.some_inj.mp hn, UInt32.toNat_ofNat_of_lt' hlt]
    exact ⟨sign, k, hsign, by rw [hvalue, ← hk]⟩
  · rintro ⟨sign, k, hsign, rfl⟩
    have hvalue := digitsValue_replicate_append k n.toNat
    have hdigits : (List.replicate k '0' ++ Nat.toDigits 10 n.toNat).all Char.isDigit := by
      rw [List.all_append, List.all_eq_true.mpr fun c hc => (List.eq_of_mem_replicate hc ▸ rfl),
        List.all_eq_true.mpr fun _ => isDigit_of_mem_toDigits]
      rfl
    have hne : List.replicate k '0' ++ Nat.toDigits 10 n.toNat ≠ [] :=
      List.append_ne_nil_of_right_ne_nil _ Nat.toDigits_ne_nil
    rw [readNumber?_sign_append hsign hne hdigits (hvalue.trans_lt n.toNat_lt_size), hvalue,
      UInt32.ofNat_toNat]

/-- Exactly the texts that spell an ancilla number are read as that ancilla. -/
theorem ofText_eq_ancilla_iff {s : String} {n : UInt32} : ofText s = ancilla n ↔ Spells s n := by
  unfold ofText Spells
  split
  · rename_i rest hs
    have hspells : (∃ r, s.toList = ancillaMark ++ r ∧ SpellsNumber r n) ↔ SpellsNumber rest n := by
      rw [hs]
      constructor
      · rintro ⟨r, hr, hspells⟩
        have hr : ancillaMark ++ rest = ancillaMark ++ r := hr
        rwa [List.append_cancel_left hr]
      · exact fun hspells => ⟨rest, rfl, hspells⟩
    rw [hspells, ← readNumber?_eq_some_iff]
    split
    · rename_i hread
      rw [hread, ancilla.injEq, Option.some_inj]
    · rename_i hread
      simp [hread]
  · rename_i hs
    constructor
    · intro h
      cases h
    · rintro ⟨rest, hrest, -⟩
      exact absurd hrest (hs rest)

/-- Every other text is read as a name. -/
theorem ofText_eq_name_iff {s : String} : ofText s = name s ↔ ∀ n, ¬ Spells s n := by
  constructor
  · intro h n hspells
    cases h.symm.trans (ofText_eq_ancilla_iff.mpr hspells)
  · intro h
    rcases ofText_eq_name_or_ancilla s with hs | ⟨n, hs⟩
    · exact hs
    · exact absurd (ofText_eq_ancilla_iff.mp hs) (h n)

/-! ## Texts that are not told apart -/

/-- A text is given back unless it spells an ancilla in another way than it is written. -/
theorem text_ofText_ne_iff {s : String} :
    (ofText s).text ≠ s ↔ ∃ n, Spells s n ∧ s ≠ (ancilla n).text := by
  constructor
  · intro h
    rcases ofText_eq_name_or_ancilla s with hs | ⟨n, hs⟩
    · exact absurd (congrArg text hs) h
    · exact ⟨n, ofText_eq_ancilla_iff.mp hs, hs ▸ h.symm⟩
  · rintro ⟨n, hspells, hne⟩
    rw [ofText_eq_ancilla_iff.mpr hspells]
    exact hne.symm

theorem ofText_eq_ofText_iff {s t : String} :
    ofText s = ofText t ↔ s = t ∨ ∃ n, Spells s n ∧ Spells t n := by
  constructor
  · intro h
    rcases ofText_eq_name_or_ancilla s with hs | ⟨n, hs⟩
    · rcases ofText_eq_name_or_ancilla t with ht | ⟨n, ht⟩
      · exact .inl (name.inj (hs.symm.trans (h.trans ht)))
      · cases hs.symm.trans (h.trans ht)
    · exact .inr ⟨n, ofText_eq_ancilla_iff.mp hs, ofText_eq_ancilla_iff.mp (h ▸ hs)⟩
  · rintro (rfl | ⟨n, hs, ht⟩)
    · rfl
    · rw [ofText_eq_ancilla_iff.mpr hs, ofText_eq_ancilla_iff.mpr ht]

/-- A text is an ancilla exactly if it spells the ancilla's number, and a name otherwise. It is written as
it was read unless it is a spelling that is not written, and two texts of a document are one label exactly
if they are equal or spell the same number. -/
theorem ofText_spellings (s t : String) :
    (∀ n, ofText s = ancilla n ↔ Spells s n) ∧
    (ofText s = name s ↔ ∀ n, ¬ Spells s n) ∧
    ((ofText s).text ≠ s ↔ ∃ n, Spells s n ∧ s ≠ (ancilla n).text) ∧
    (ofJson? (.string s) = ofJson? (.string t) ↔ s = t ∨ ∃ n, Spells s n ∧ Spells t n) := by
  refine ⟨fun _ => ofText_eq_ancilla_iff, ofText_eq_name_iff, text_ofText_ne_iff, ?_⟩
  rw [← ofText_eq_ofText_iff]
  exact Option.some_inj

/-- Two texts that are one label: a zero stands before the digit in one of them. -/
theorem ofText_leadingZero :
    (ofText "__a07").text ≠ "__a07" ∧ "__a07" ≠ "__a7" ∧
      ofJson? (.string "__a07") = ofJson? (.string "__a7") := by
  have hzero : Spells "__a07" 7 := ⟨['0', '7'], rfl, [], 1, .inl rfl, rfl⟩
  have hplain : Spells "__a7" 7 := ⟨['7'], rfl, [], 0, .inl rfl, rfl⟩
  refine ⟨text_ofText_ne_iff.mpr ⟨7, hzero, by decide⟩, by decide, ?_⟩
  exact congrArg some (ofText_eq_ofText_iff.mpr (.inr ⟨7, hzero, hplain⟩))

end PseudoBoolean.Label

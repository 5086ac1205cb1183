import Mathlib
import PseudoBoolean.Label

/-!
# The texts of labels

A text is read as a name, or as an ancilla. So a name that has been read is never the text of an ancilla
(`IsRead`), and different labels that have been read have different texts, apart from a number and the name
that consists of its digits (`IsRead.eq_or_of_text_eq`).
-/

namespace PseudoBoolean.Label

/-! ## Digits -/

/-- Different numbers have different digits. -/
theorem toDigits_injective : Function.Injective (Nat.toDigits 10) :=
  Function.LeftInverse.injective (g := fun digits => Nat.ofDigitChars 10 digits 0)
    fun _ => Nat.ofDigitChars_ten_toDigits

/-- The decimal digits of a number are digit characters. -/
theorem isDigit_of_mem_toDigits {c : Char} {n : ℕ} (h : c ∈ Nat.toDigits 10 n) : c.isDigit :=
  Nat.isDigit_of_mem_toDigits (by decide) (by decide) h

/-- The digits of a number are read back as the number. -/
theorem digitsValue_toDigits (n : ℕ) : Decimal.digitsValue (Nat.toDigits 10 n) = n :=
  Nat.ofDigitChars_ten_toDigits

/-- Nothing but a digit stands at the beginning of the digits of a number. -/
theorem toDigits_ne_cons {c : Char} (hc : c.isDigit = false) (n : ℕ) (rest : List Char) :
    Nat.toDigits 10 n ≠ c :: rest := by
  intro heq
  have hmem : c ∈ Nat.toDigits 10 n := heq ▸ List.mem_cons_self
  rw [isDigit_of_mem_toDigits hmem] at hc
  cases hc

/-- An integer is written with its digits, after a minus sign if it is negative. -/
theorem toList_toString (n : ℤ) : (toString n).toList =
    if 0 ≤ n then Nat.toDigits 10 n.toNat else '-' :: Nat.toDigits 10 (-n).toNat := by
  rw [Int.toString_eq_repr, Int.repr_eq_if]
  split
  · exact Nat.toList_repr
  · rw [String.toList_append, Nat.toList_repr]
    rfl

/-- Different integers are written differently. -/
theorem toString_injective : Function.Injective (toString : ℤ → String) := by
  intro m n h
  have hlist := congrArg String.toList h
  rw [toList_toString, toList_toString] at hlist
  split at hlist <;> split at hlist
  · have := toDigits_injective hlist
    omega
  · exact absurd hlist (toDigits_ne_cons (by decide) _ _)
  · exact absurd hlist.symm (toDigits_ne_cons (by decide) _ _)
  · have := toDigits_injective (List.cons.inj hlist).2
    omega

/-- The text of a number does not begin as that of an ancilla. -/
theorem toList_toString_ne (n : ℤ) (rest : List Char) : (toString n).toList ≠ '_' :: rest := by
  rw [toList_toString]
  split
  · exact toDigits_ne_cons (by decide) _ _
  · exact fun h => absurd (List.cons.inj h).1 (by decide)

/-! ## Reading a text back -/

/-- A run of digits whose value is a word is read as that word. -/
theorem readNumber?_cons {c : Char} {digits : List Char} (hdigits : (c :: digits).all Char.isDigit)
    (hlt : Decimal.digitsValue (c :: digits) < UInt32.size) :
    readNumber? (c :: digits) = some (.ofNat (Decimal.digitsValue (c :: digits))) := by
  have hplus : c ≠ '+' := by
    rintro rfl
    simp at hdigits
  have hbody : readNumber? (c :: digits) =
      if c :: digits ≠ [] ∧ (c :: digits).all Char.isDigit ∧
        Decimal.digitsValue (c :: digits) < UInt32.size then
        some (.ofNat (Decimal.digitsValue (c :: digits))) else none := by
    simp [readNumber?, hplus]
  rw [hbody, if_pos ⟨List.cons_ne_nil _ _, hdigits, hlt⟩]

/-- The number of a slack bit is read back from its digits. -/
theorem readNumber?_toDigits (n : UInt32) : readNumber? (Nat.toDigits 10 n.toNat) = some n := by
  have hvalue := digitsValue_toDigits n.toNat
  have hdigits : (Nat.toDigits 10 n.toNat).all Char.isDigit :=
    List.all_eq_true.mpr fun _ => isDigit_of_mem_toDigits
  obtain ⟨c, digits, heq⟩ := List.exists_cons_of_ne_nil (Nat.toDigits_ne_nil (n := n.toNat) (b := 10))
  rw [heq] at hvalue hdigits ⊢
  rw [readNumber?_cons hdigits (hvalue ▸ n.toNat_lt_size), hvalue, UInt32.ofNat_toNat]

/-- A slack bit is written as `__a` and the digits of its number. -/
theorem toList_text_ancilla (n : UInt32) :
    (ancilla n).text.toList = '_' :: '_' :: 'a' :: Nat.toDigits 10 n.toNat :=
  String.toList_ofList

/-- The text of a slack bit is read as that slack bit. -/
theorem ofText_text_ancilla (n : UInt32) : ofText (ancilla n).text = ancilla n := by
  simp only [ofText, toList_text_ancilla, readNumber?_toDigits]

/-- The label is a number, an ancilla, or a name that reads back as itself. -/
def IsRead : Label → Prop
  | name s => ofText s = name s
  | _ => True

/-- A text is read as the name that it is, or as a slack bit. -/
theorem ofText_eq_name_or_ancilla (s : String) : ofText s = name s ∨ ∃ n, ofText s = ancilla n := by
  unfold ofText
  split
  · split
    · exact .inr ⟨_, rfl⟩
    · exact .inl rfl
  · exact .inl rfl

/-- Every label that a text is read as counts as read. -/
theorem isRead_ofText (s : String) : (ofText s).IsRead := by
  rcases ofText_eq_name_or_ancilla s with h | ⟨n, h⟩
  · rw [h]
    exact h
  · rw [h]
    trivial

/-- A number and the name that consists of its digits. -/
def IsTwin : Label → Label → Prop
  | int n, name s => s = toString n.toInt
  | _, _ => False

/-- Labels that have been read are told apart by their texts, unless one is a number and the other one the
name that consists of its digits. -/
theorem IsRead.eq_or_of_text_eq {u v : Label} (hu : u.IsRead) (hv : v.IsRead) (h : u.text = v.text) :
    u = v ∨ IsTwin u v ∨ IsTwin v u := by
  -- the name would be read as the ancilla
  have hname : ∀ {s n}, IsRead (name s) → s ≠ (ancilla n).text := by
    rintro s n hs rfl
    cases (ofText_text_ancilla n).symm.trans hs
  have hint : ∀ {m : Int64} {n}, (int m).text ≠ (ancilla n).text := fun heq =>
    toList_toString_ne _ _ ((congrArg String.toList heq).trans (toList_text_ancilla _))
  cases u with
  | int m =>
    cases v with
    | int n => exact .inl (congrArg int (Int64.toInt_inj.mp (toString_injective h)))
    | name s => exact .inr (.inl h.symm)
    | ancilla n => exact absurd h hint
  | name s =>
    cases v with
    | int n => exact .inr (.inr h)
    | name t => exact .inl (congrArg name h)
    | ancilla n => exact absurd h (hname hu)
  | ancilla m =>
    cases v with
    | int n => exact absurd h.symm hint
    | name s => exact absurd h.symm (hname hv)
    | ancilla n =>
      have hdigits := congrArg String.toList h
      rw [toList_text_ancilla, toList_text_ancilla] at hdigits
      injection hdigits with _ hdigits
      injection hdigits with _ hdigits
      injection hdigits with _ hdigits
      exact .inl (congrArg ancilla (UInt32.toNat_inj.mp (toDigits_injective hdigits)))

end PseudoBoolean.Label

import PseudoBoolean.Decimal.Shortest

/-! # Written forms of a double

The digits of a double are fixed by `Decimal.shortest`; what is left is their arrangement, which a
`Style` records: where positional notation ends, whether a whole number shows a fraction, how ties
among the digits go, and the words for the values that have no digits.
-/

namespace PseudoBoolean.Decimal

/-- The decisions of a written form of doubles. -/
structure Style where
  /-- Which of two equally near shortest decimals is written. -/
  tie : Tie
  /-- The decimal exponents of the leading digit, first and last, that are written positionally; all
  of them if absent. -/
  positional : Option (Int × Int)
  /-- Whether a whole number ends in `.0`. -/
  point : Bool
  /-- The word for not-a-number. -/
  nan : String
  /-- The word for infinity, written after the sign. -/
  infinity : String

/-- Numbers in messages: positional at any size, a whole number without a fraction. -/
def plain : Style :=
  { tie := .up, positional := none, point := false, nan := "NaN", infinity := "inf" }

/-- `n` zeros. -/
def zeros (n : Nat) : List Char :=
  List.replicate n '0'

/-- The digits around a decimal point, as many zeros as the exponent asks for. -/
def positionalText (point : Bool) (d : Decimal) : List Char :=
  let digits := Nat.toDigits 10 d.significand
  if 0 ≤ d.exponent then
    digits ++ zeros d.exponent.toNat ++ (if point then ['.', '0'] else [])
  else
    let fraction := (-d.exponent).toNat
    if fraction < digits.length then
      digits.take (digits.length - fraction) ++ '.' :: digits.drop (digits.length - fraction)
    else
      '0' :: '.' :: zeros (fraction - digits.length) ++ digits

/-- The exponent of the leading digit. -/
def scientificExponent (d : Decimal) : Int :=
  d.exponent + (digitCount d.significand - 1 : Nat)

/-- One digit, the rest of them after a point if there are any, and a signed exponent. -/
def scientificText (d : Decimal) : List Char :=
  let fraction := match (Nat.toDigits 10 d.significand).drop 1 with
    | [] => []
    | rest => '.' :: rest
  let e := d.scientificExponent
  (Nat.toDigits 10 d.significand).take 1 ++ fraction ++
    'e' :: (if e < 0 then '-' else '+') :: Nat.toDigits 10 e.natAbs

/-- The digits of a decimal, arranged as the style says. -/
def Style.arrange (style : Style) (d : Decimal) : List Char :=
  match style.positional with
  | none => positionalText style.point d
  | some (first, last) =>
    if first ≤ d.scientificExponent ∧ d.scientificExponent ≤ last then
      positionalText style.point d
    else scientificText d

/-- The written form of a double. -/
def Style.text (style : Style) (x : Float) : String :=
  let sign (s : Float.Model.UnpackedFloat.Sign) := match s with
    | .negative => "-"
    | .positive => ""
  match (Float.Model.ofBits x.toBits).unpack with
  | .notANumber => style.nan
  | .infinity s => sign s ++ style.infinity
  | .zero s => sign s ++ String.ofList (style.arrange ⟨0, 0⟩)
  | .finite s m e _ => sign s ++ String.ofList (style.arrange (shortest style.tie m e))

end PseudoBoolean.Decimal

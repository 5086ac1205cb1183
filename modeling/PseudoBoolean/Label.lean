import PseudoBoolean.Term
import PseudoBoolean.Decimal.Reader

/-! # Labels of variables

A model names its variables by whole numbers or by words. The constraint compiler adds variables of its
own, which carry a kind of label that is neither. As text an ancilla is `__a` and its number, and a text
of that form is read as the ancilla.
-/

namespace PseudoBoolean

/-- The name of a variable of a model. -/
inductive Label where
  /-- A whole number chosen by the user. -/
  | int (n : Int64)
  /-- A word chosen by the user. -/
  | name (s : String)
  /-- A variable introduced while compiling a constraint. -/
  | ancilla (n : UInt32)
  deriving DecidableEq

namespace Label

/-- Numbers come before words, and words before ancillas. -/
protected def compare : Label → Label → Ordering
  | int m, int n => Ord.compare m n
  | int _, _ => .lt
  | name _, int _ => .gt
  | name s, name t => Ord.compare s t
  | name _, ancilla _ => .lt
  | ancilla m, ancilla n => Ord.compare m n
  | ancilla _, _ => .gt

instance : Ord Label := ⟨Label.compare⟩

instance : Std.TransOrd Label where
  eq_swap {a b} :=
    match a, b with
    | int m, int n => (Std.OrientedCmp.eq_swap : Ord.compare m n = (Ord.compare n m).swap)
    | name s, name t => (Std.OrientedCmp.eq_swap : Ord.compare s t = (Ord.compare t s).swap)
    | ancilla m, ancilla n => (Std.OrientedCmp.eq_swap : Ord.compare m n = (Ord.compare n m).swap)
    | int _, name _ | int _, ancilla _ | name _, int _ | name _, ancilla _ | ancilla _, int _
    | ancilla _, name _ => rfl
  isLE_trans {a b c} hab hbc :=
    match a, b, c, hab, hbc with
    | int l, int m, int n, hab, hbc =>
      (Std.TransCmp.isLE_trans (b := m) hab hbc : (Ord.compare l n).isLE)
    | name r, name s, name t, hab, hbc =>
      (Std.TransCmp.isLE_trans (b := s) hab hbc : (Ord.compare r t).isLE)
    | ancilla l, ancilla m, ancilla n, hab, hbc =>
      (Std.TransCmp.isLE_trans (b := m) hab hbc : (Ord.compare l n).isLE)
    | int _, _, name _, _, _ | int _, _, ancilla _, _, _ | name _, _, ancilla _, _, _ => rfl

instance : Std.LawfulEqOrd Label where
  compare_self {a} :=
    match a with
    | int n => (Std.ReflCmp.compare_self : Ord.compare n n = .eq)
    | name s => (Std.ReflCmp.compare_self : Ord.compare s s = .eq)
    | ancilla n => (Std.ReflCmp.compare_self : Ord.compare n n = .eq)
  eq_of_compare {a b} h :=
    match a, b, h with
    | int m, int n, h =>
      have h : Ord.compare m n = .eq := h
      congrArg int (Std.LawfulEqOrd.eq_of_compare h)
    | name s, name t, h =>
      have h : Ord.compare s t = .eq := h
      congrArg name (Std.LawfulEqOrd.eq_of_compare h)
    | ancilla m, ancilla n, h =>
      have h : Ord.compare m n = .eq := h
      congrArg ancilla (Std.LawfulEqOrd.eq_of_compare h)

/-- What the text of every ancilla begins with. -/
def ancillaMark : List Char := ['_', '_', 'a']

/-- The text of a label: the digits of a number, a word as it is, an ancilla's number after the mark. -/
def text : Label → String
  | int n => toString n.toInt
  | name s => s
  | ancilla n => String.ofList (ancillaMark ++ Nat.toDigits 10 n.toNat)

instance : Variable Label where
  text := Label.text

def isAncilla : Label → Bool
  | ancilla _ => true
  | _ => false

/-- An unsigned 32-bit number in decimal digits, with leading zeros and a plus sign allowed. -/
def readNumber? (cs : List Char) : Option UInt32 :=
  let digits := match cs with
    | '+' :: r => r
    | r => r
  if digits ≠ [] ∧ digits.all Char.isDigit ∧ Decimal.digitsValue digits < UInt32.size then
    some (.ofNat (Decimal.digitsValue digits))
  else none

/-- The label that a text names: an ancilla if a number follows the mark, a word otherwise. -/
def ofText (s : String) : Label :=
  match s.toList with
  | '_' :: '_' :: 'a' :: rest =>
    match readNumber? rest with
    | some n => ancilla n
    | none => name s
  | _ => name s

end Label

end PseudoBoolean

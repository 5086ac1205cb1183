/-! # Sets of positions

A set of positions below 64 is kept in a word: bit `i` says whether position `i` is in the set. Inclusion and
the size of an intersection are then read off single words.
-/

namespace PseudoBoolean

/-- A set of positions below 64. -/
abbrev Mask : Type := UInt64

namespace Mask

/-- The set with a single position. -/
def single (i : Nat) : Mask :=
  1 <<< UInt64.ofNat i

/-- The set of the positions of a list. -/
def ofPositions (positions : List Nat) : Mask :=
  positions.foldl (fun m i => m ||| single i) 0

/-- Whether all positions of a set are in another one. -/
def includes (code m : Mask) : Bool :=
  code &&& m == m

/-- The number of the `n` lowest positions that are in a set. Once the word is zero, no more are. -/
def countBelow : Nat → Mask → Nat
  | 0, _ => 0
  | n + 1, m => if m = 0 then 0 else (m &&& 1).toNat + countBelow n (m >>> 1)

/-- The number of positions in a set. -/
def size (m : Mask) : Nat :=
  countBelow 64 m

end Mask

end PseudoBoolean

import PseudoBoolean.Diagnostic
import PseudoBoolean.Proofs.Symbolic

/-!
# Relations of exact values

`Relation.Holds` is the relation to zero of a rational value, without rounding. A verdict that is drawn
from exact bounds is right for every value between them (`classify_alwaysSatisfied`,
`classify_neverSatisfied`).
-/

namespace PseudoBoolean

namespace Number

variable {p q : ℚ}

/-- Exact numbers compare as the rational numbers do. -/
theorem lt_exact : Number.lt (.exact p) (.exact q) ↔ p < q := by
  rw [Number.lt, compare?]
  split
  · simp [*]
  · split <;> simp [*]

/-- The same for the comparison that admits equality. -/
theorem le_exact : Number.le (.exact p) (.exact q) ↔ p ≤ q := by
  rw [Number.le, compare?]
  rcases lt_trichotomy p q with h | h | h
  · simp [h, h.le]
  · simp [h]
  · simp [h, h.not_gt, h.ne']

end Number

namespace Relation

/-- An exact value stands in the relation to zero. -/
def Holds : Relation → ℚ → Prop
  | eq, q => q = 0
  | lt, q => q < 0
  | le, q => q ≤ 0
  | gt, q => 0 < q
  | ge, q => 0 ≤ q

variable {r : Relation} {l u q : ℚ}

/-- What holds on a range holds of every value in it. -/
theorem holds_of_holdsOn (h : r.holdsOn (.exact l) (.exact u)) (hl : l ≤ q) (hu : q ≤ u) :
    r.Holds q := by
  cases r with
  | eq =>
    simp only [holdsOn, Bool.and_eq_true, Number.isZero_exact] at h
    exact le_antisymm (hu.trans h.2.le) (h.1.ge.trans hl)
  | lt => exact hu.trans_lt (Number.lt_exact.mp h)
  | le => exact hu.trans (Number.le_exact.mp h)
  | gt => exact (Number.lt_exact.mp h).trans_le hl
  | ge => exact (Number.le_exact.mp h).trans hl

/-- What fails on a range holds of no value in it. -/
theorem not_holds_of_failsOn (h : r.failsOn (.exact l) (.exact u)) (hl : l ≤ q) (hu : q ≤ u) :
    ¬ r.Holds q := by
  cases r with
  | eq =>
    rintro rfl
    rcases Bool.or_eq_true_iff.mp h with h | h
    · exact absurd ((Number.lt_exact.mp h).trans_le hl) (lt_irrefl _)
    · exact absurd (hu.trans_lt (Number.lt_exact.mp h)) (lt_irrefl _)
  | lt => exact not_lt.mpr ((Number.le_exact.mp h).trans hl)
  | le => exact not_le.mpr ((Number.lt_exact.mp h).trans_le hl)
  | gt => exact not_lt.mpr (hu.trans (Number.le_exact.mp h))
  | ge => exact not_le.mpr (hu.trans_lt (Number.lt_exact.mp h))

/-- A verdict of satisfaction is right for every value in the range. -/
theorem classify_alwaysSatisfied (h : r.classify (.exact l) (.exact u) = some .alwaysSatisfied)
    (hl : l ≤ q) (hu : q ≤ u) : r.Holds q := by
  rw [classify] at h
  split at h
  · cases h
  · split at h
    · rename_i hholds
      exact holds_of_holdsOn hholds hl hu
    · cases h

/-- A verdict of violation is right for every value in the range. -/
theorem classify_neverSatisfied (h : r.classify (.exact l) (.exact u) = some .neverSatisfied)
    (hl : l ≤ q) (hu : q ≤ u) : ¬ r.Holds q := by
  rw [classify] at h
  split at h
  · rename_i hfails
    exact not_holds_of_failsOn hfails hl hu
  · split at h <;> cases h

end Relation

end PseudoBoolean

import PseudoBoolean.Proofs.Binary64
import PseudoBoolean.Proofs.Model.PenaltyMethod

/-!
# Checks of values and of assignments

A value is checked through the nearest double, so the check is that of the number which is `kept` of an
exact value (`Relation.holds_exact`). Whole values are kept (`Binary64.kept_intCast`), and only values of
at most `2⁻¹⁰⁷⁵` are not. An assignment is valid if every constraint has an exact value of which the kept
part stands in the relation (`Model.isSolutionValid_exact`).
-/

namespace PseudoBoolean

open PseudoBoolean.Polynomial

/-! ## The check of a value -/

namespace Relation

variable {r : Relation} {q : ℚ}

/-- The check compares the nearest double. It is right for an exact value, unless the value is so close to
zero that it is rounded away. -/
theorem holds_exact : r.holds (.exact q) ↔ r.Holds (Binary64.kept q) := by
  cases r with
  | eq => exact decide_eq_true_iff.trans (Binary64.abs_ofRat_le_zero q)
  | lt => exact decide_eq_true_iff.trans (Binary64.ofRat_lt_zero q)
  | le => exact decide_eq_true_iff.trans (Binary64.ofRat_le_zero q)
  | gt => exact decide_eq_true_iff.trans (Binary64.zero_lt_ofRat q)
  | ge => exact decide_eq_true_iff.trans (Binary64.zero_le_ofRat q)

/-- A value above zero that is not above zero for the check. -/
theorem not_holds_tiny_iff : ¬ (gt.holds (.exact (1 / 10 ^ 400)) ↔ gt.Holds (1 / 10 ^ 400)) := by
  rw [holds_exact, Binary64.kept_tiny]
  simp [Holds]

end Relation

/-! ## The check of an assignment -/

namespace Model

variable {d : Domain} {m : Model d} {a : Assignment Label}

/-- The kept parts of the values decide. -/
theorem isSolutionValid_iff_kept
    (hexact : ∀ c ∈ m.constraints, c.polynomial.WellFormed Coefficient.Normal)
    (hcovers : ∀ c ∈ m.constraints, Assignment.Covers d c.polynomial.vars a) :
    m.isSolutionValid a ↔ ∀ c ∈ m.constraints, ∃ q : ℚ,
      c.polynomial.valueNumber a = .ok (.exact q) ∧ c.relation.Holds (Binary64.kept q) := by
  rw [isSolutionValid, List.all_eq_true]
  refine forall₂_congr fun c hc => ?_
  cases hvalue : c.polynomial.valueNumber a with
  | error e => simp
  | ok x =>
    obtain ⟨q, rfl⟩ := exists_exact_of_valueNumber (hexact c hc) (hcovers c hc) hvalue
    constructor
    · exact fun hholds => ⟨q, rfl, Relation.holds_exact.mp hholds⟩
    · rintro ⟨q', hq', hholds⟩
      obtain rfl := Number.exact.inj (Except.ok.inj hq')
      exact Relation.holds_exact.mpr hholds

/-- The check is right if no value is rounded away. -/
theorem isSolutionValid_iff
    (hexact : ∀ c ∈ m.constraints, c.polynomial.WellFormed Coefficient.Normal)
    (hcovers : ∀ c ∈ m.constraints, Assignment.Covers d c.polynomial.vars a)
    (hkept : ∀ c ∈ m.constraints, ∀ q : ℚ, c.polynomial.valueNumber a = .ok (.exact q) →
      Binary64.kept q = q) :
    m.isSolutionValid a ↔ m.Satisfies a := by
  rw [isSolutionValid_iff_kept hexact hcovers, Satisfies]
  refine forall₂_congr fun c hc => ?_
  constructor
  · rintro ⟨q, hq, hholds⟩
    exact ⟨hcovers c hc, q, hq, hkept c hc q hq ▸ hholds⟩
  · rintro ⟨-, q, hq, hholds⟩
    exact ⟨q, hq, (hkept c hc q hq).symm ▸ hholds⟩

/-- A value is checked by what the nearest double keeps of it. An assignment of all variables is valid if
the kept parts of the values of all constraints stand in their relations. This is what all constraints
demand, unless a value other than zero is at most half of the least positive double. -/
theorem isSolutionValid_exact
    (hexact : ∀ c ∈ m.constraints, c.polynomial.WellFormed Coefficient.Normal)
    (hcovers : ∀ c ∈ m.constraints, Assignment.Covers d c.polynomial.vars a) :
    (∀ (r : Relation) (q : ℚ), r.holds (.exact q) ↔ r.Holds (Binary64.kept q)) ∧
      (m.isSolutionValid a ↔ ∀ c ∈ m.constraints, ∃ q : ℚ,
        c.polynomial.valueNumber a = .ok (.exact q) ∧ c.relation.Holds (Binary64.kept q)) ∧
      ((∀ c ∈ m.constraints, ∀ q : ℚ, c.polynomial.valueNumber a = .ok (.exact q) →
        q = 0 ∨ 1 < |q| * 2 ^ 1075) → (m.isSolutionValid a ↔ m.Satisfies a)) := by
  refine ⟨fun r q => Relation.holds_exact, isSolutionValid_iff_kept hexact hcovers, fun hvalues => ?_⟩
  refine isSolutionValid_iff hexact hcovers fun c hc q hq => ?_
  obtain rfl | hlt := hvalues c hc q hq
  · exact Binary64.kept_zero
  · exact Binary64.kept_of_lt hlt

/-- A tiny multiple of a variable. -/
def tinyTerm : Polynomial .binary Label :=
  ofTerms [([.name "x"], .num (.exact (1 / 10 ^ 400)))]

/-- The demand that the multiple is at most zero. -/
def tinyModel : Model .binary :=
  { Model.empty with constraints := [⟨.le, tinyTerm⟩] }

/-- The value 1 violates the demand, and counts as valid all the same. -/
theorem isSolutionValid_exact_tiny :
    tinyModel.isSolutionValid [(.name "x", 1)] ∧ ¬ tinyModel.Satisfies [(.name "x", 1)] := by
  have hvars : tinyTerm.vars = [.name "x"] := by decide +kernel
  have hvalue : tinyTerm.valueNumber [(.name "x", 1)] = .ok (.exact (1 / 10 ^ 400)) := by
    decide +kernel
  have hexact : tinyTerm.WellFormed Coefficient.Normal :=
    WellFormed.ofTerms (List.forall_mem_singleton.mpr (Coefficient.normal_exact _))
  have hcovers : Assignment.Covers .binary tinyTerm.vars [(.name "x", 1)] := by
    rw [hvars]
    exact List.forall_mem_singleton.mpr ⟨1, rfl, rfl⟩
  constructor
  · apply (isSolutionValid_exact (m := tinyModel) (List.forall_mem_singleton.mpr hexact)
      (List.forall_mem_singleton.mpr hcovers)).2.1.mpr
    refine List.forall_mem_singleton.mpr ⟨_, hvalue, ?_⟩
    rw [Binary64.kept_tiny]
    exact le_rfl
  · intro hsatisfies
    obtain ⟨-, q, hq, hholds⟩ := hsatisfies _ (List.mem_singleton_self _)
    rw [hvalue] at hq
    obtain rfl := Number.exact.inj (Except.ok.inj hq)
    exact absurd hholds (not_le.mpr (by positivity))

end Model

end PseudoBoolean

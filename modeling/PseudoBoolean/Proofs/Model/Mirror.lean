import PseudoBoolean.Proofs.Model.Validity
import PseudoBoolean.Proofs.Polynomial.Negation

/-!
# Constraints that are turned around

`P > 0` says the same as `-P < 0`, and `P ≥ 0` the same as `-P ≤ 0`. The compiler has a branch of its own for
each of them, in the verdict (`Relation.mirrored_classify`), in what it takes to be at most zero and in the
check of a value (`Relation.mirrored_holds`). With exact coefficients and an exact range all of them agree:
both constraints have the same effect (`Model.addConstraint_mirrored`).
-/

namespace PseudoBoolean

open PseudoBoolean.Polynomial

/-! ## Relations -/

namespace Relation

/-- The relation in which the opposite value stands to zero. -/
def mirrored : Relation → Relation
  | eq => eq
  | lt => gt
  | le => ge
  | gt => lt
  | ge => le

/-- The mirrored relation holds of the negated number. -/
theorem mirrored_holds (r : Relation) (q : ℚ) :
    r.mirrored.holds (.exact (-q)) = r.holds (.exact q) := by
  rw [Bool.eq_iff_iff, holds_exact, holds_exact, Binary64.kept_neg]
  cases r <;> simp [mirrored, Holds]

/-- The opposite range decides the mirrored relation in the same way. -/
theorem mirrored_classify (r : Relation) (l u : ℚ) :
    r.mirrored.classify (.exact (-u)) (.exact (-l)) = r.classify (.exact l) (.exact u) := by
  have hzero : (0 : Number) = .exact 0 := rfl
  have hfails : r.mirrored.failsOn (.exact (-u)) (.exact (-l)) = r.failsOn (.exact l) (.exact u) := by
    rw [Bool.eq_iff_iff]
    cases r <;> simp [mirrored, failsOn, hzero, Number.lt_exact, Number.le_exact, or_comm]
  have hholds : r.mirrored.holdsOn (.exact (-u)) (.exact (-l)) = r.holdsOn (.exact l) (.exact u) := by
    rw [Bool.eq_iff_iff]
    cases r <;> simp [mirrored, holdsOn, hzero, Number.lt_exact, Number.le_exact, and_comm]
  rw [classify, classify, hfails, hholds]

end Relation

/-! ## Options -/

namespace ConstraintOptions

/-- The options for the opposite polynomial: a given range is mirrored at zero. -/
def mirrored (options : ConstraintOptions) : ConstraintOptions :=
  { options with bounds := options.bounds.map fun range => (-range.2, -range.1) }

/-- A given range is exact. -/
def HasExactBounds (options : ConstraintOptions) : Prop :=
  ∀ range ∈ options.bounds, range.1.isExact ∧ range.2.isExact

end ConstraintOptions

/-! ## The effect of a constraint -/

namespace Model

variable {d : Domain} {m : Model d} {p : Polynomial d Label} {r : Relation} {options : ConstraintOptions}

/-- The range of a polynomial with exact bounds is exact. -/
theorem exists_exact_range (hp : p.WellFormed Coefficient.Normal) (hoptions : options.HasExactBounds)
    {range : Number × Number} (h : options.bounds.elim p.bounds .ok = .ok range) :
    ∃ l u : ℚ, range = (.exact l, .exact u) := by
  cases hbounds : options.bounds with
  | none =>
    rw [hbounds] at h
    obtain ⟨l, u, heq, -⟩ := bounds_eq (hp.isRational_of_bounds h) fun _ => 0
    exact ⟨l, u, Except.ok.inj (h.symm.trans heq)⟩
  | some given =>
    rw [hbounds] at h
    obtain rfl := Except.ok.inj h
    obtain ⟨hl, hu⟩ := hoptions _ hbounds
    obtain ⟨l, hl⟩ := Number.isExact_iff.mp hl
    obtain ⟨u, hu⟩ := Number.isExact_iff.mp hu
    exact ⟨l, u, Prod.ext hl hu⟩

/-- The range of the opposite polynomial is the opposite range, or it is missing for the same reason. -/
theorem mirrored_range (hp : p.WellFormed Coefficient.Normal) (options : ConstraintOptions) :
    options.mirrored.bounds.elim (-p).bounds .ok =
      (options.bounds.elim p.bounds .ok).map fun range => (-range.2, -range.1) := by
  rw [ConstraintOptions.mirrored]
  cases options.bounds with
  | none => exact bounds_neg hp
  | some range => rfl

/-- The model with the penalty for `q ≤ 0`, given the verdict on it and the lower bound of `q`. -/
def compileAtMostZero (m : Model d) (verdict : Option Verdict) (q : Polynomial d Label) (least : Number)
    (options : ConstraintOptions) : Except Error (Model d) :=
  match verdict with
  | some .alwaysSatisfied => .ok m
  | some .neverSatisfied => .ok (m.addPenalty q options.weight)
  | none => m.addSlackPenalty q least options

/-- Compiling an inequality is compiling its form below zero, with the verdict on the original range
recorded. -/
theorem compileInequality_eq (m : Model d) (r : Relation) (p : Polynomial d Label)
    (lower upper : Number) (options : ConstraintOptions) :
    m.compileInequality r p lower upper options =
      (m.compileAtMostZero (r.classify lower upper) (atMostZero r p lower upper).1
        (atMostZero r p lower upper).2 options).map fun compiled =>
          (compiled.recordConstraint r p (Diagnostic.ofRange? m.constraints.length r lower upper),
            Diagnostic.ofRange? m.constraints.length r lower upper) := by
  rw [compileInequality, Diagnostic.ofRange?]
  cases r.classify lower upper with
  | none =>
    simp only [compileAtMostZero, Option.map_none]
    cases m.addSlackPenalty (atMostZero r p lower upper).1 (atMostZero r p lower upper).2 options <;> rfl
  | some verdict => cases verdict <;> rfl

/-- Two ways to add a constraint have the same effect on the objective, on the numbers of later slack bits
and on the validity of assignments, with the same verdict or the same error. -/
structure SameEffect (left right : Model d × Except Error (Option Diagnostic)) : Prop where
  objective : left.1.objective = right.1.objective
  nextAncilla : left.1.nextAncilla = right.1.nextAncilla
  outcome : left.2.map (Option.map Diagnostic.verdict) = right.2.map (Option.map Diagnostic.verdict)
  valid : ∀ a, left.1.isSolutionValid a = right.1.isSolutionValid a

/-- The mirrored constraint on the negated polynomial accepts the same assignments. -/
theorem isSolutionValid_recordConstraint_neg (hp : p.WellFormed Coefficient.Normal)
    (diagnostic diagnostic' : Option Diagnostic) (a : Assignment Label) :
    (m.recordConstraint r p diagnostic).isSolutionValid a =
      (m.recordConstraint r.mirrored (-p) diagnostic').isSolutionValid a := by
  rw [isSolutionValid, isSolutionValid, recordConstraint, recordConstraint, List.all_append,
    List.all_append, List.all_cons, List.all_cons, valueNumber_neg hp]
  cases hvalue : p.valueNumber a with
  | error e => rfl
  | ok x =>
    obtain ⟨q, rfl⟩ := isExact_of_valueNumber hp hvalue
    exact congrArg (fun holds => m.constraints.all _ && (holds && [].all _)) (r.mirrored_holds q).symm

/-- The verdict of a diagnostic is the classification of the range. -/
theorem verdict_ofRange? (constraint : ℕ) (r : Relation) (lower upper : Number) :
    (Diagnostic.ofRange? constraint r lower upper).map Diagnostic.verdict = r.classify lower upper := by
  rw [Diagnostic.ofRange?, Option.map_map]
  exact Option.map_id'

/-- What is left behind by a constraint that is compiled, or refused, from the model that is past its
ancillas. -/
def recorded (ready : Model d) (r : Relation) (p : Polynomial d Label) (diagnostic : Option Diagnostic) :
    Except Error (Model d) → Model d × Except Error (Option Diagnostic)
  | .error e => (ready, .error e)
  | .ok compiled => (compiled.recordConstraint r p diagnostic, .ok diagnostic)

/-- An inequality without a range is refused. -/
theorem addConstraint_of_no_range {e : Error} (hr : r ≠ .eq)
    (h : options.bounds.elim p.bounds .ok = .error e) :
    m.addConstraint r p options = (m, .error e) := by
  rw [addConstraint]
  · rw [h]
  · exact hr

/-- An inequality is compiled from its range. -/
theorem addConstraint_of_range {lower upper : Number} (hr : r ≠ .eq)
    (h : options.bounds.elim p.bounds .ok = .ok (lower, upper)) :
    m.addConstraint r p options =
      (m.skipAncillas p).recorded r p
        (Diagnostic.ofRange? (m.skipAncillas p).constraints.length r lower upper)
        ((m.skipAncillas p).compileAtMostZero (r.classify lower upper)
          (atMostZero r p lower upper).1 (atMostZero r p lower upper).2 options) := by
  rw [addConstraint]
  · rw [h]
    simp only [compileInequality_eq]
    cases (m.skipAncillas p).compileAtMostZero (r.classify lower upper)
      (atMostZero r p lower upper).1 (atMostZero r p lower upper).2 options <;> rfl
  · exact hr

/-- A constraint `P > 0` or `P ≥ 0` has the same effect as its mirror image `-P < 0` or `-P ≤ 0`, in any model
and with any options, of which a range that is given is mirrored too. -/
theorem addConstraint_mirrored (m : Model d) (hr : r = .gt ∨ r = .ge)
    (hp : p.WellFormed Coefficient.Normal) (hoptions : options.HasExactBounds) :
    SameEffect (m.addConstraint r p options)
      (m.addConstraint r.mirrored (-p) options.mirrored) := by
  have hready : m.skipAncillas (-p) = m.skipAncillas p := by
    rw [skipAncillas, skipAncillas, hp.neg_eq]
  obtain ⟨hne, hne'⟩ : r ≠ .eq ∧ r.mirrored ≠ .eq := by
    rcases hr with rfl | rfl <;> decide
  have hrange' := mirrored_range hp options
  cases hrange : options.bounds.elim p.bounds .ok with
  | error e =>
    rw [hrange] at hrange'
    rw [addConstraint_of_no_range hne hrange, addConstraint_of_no_range hne' hrange']
    exact ⟨rfl, rfl, rfl, fun _ => rfl⟩
  | ok range =>
    obtain ⟨l, u, rfl⟩ := exists_exact_range hp hoptions hrange
    rw [hrange] at hrange'
    have hsame : atMostZero r.mirrored (-p) (-.exact u) (-.exact l) =
        atMostZero r p (.exact l) (.exact u) := by
      rcases hr with rfl | rfl <;> rfl
    have hverdict : r.mirrored.classify (-.exact u) (-.exact l) = r.classify (.exact l) (.exact u) :=
      r.mirrored_classify l u
    -- all that is compiled depends on is the same on both sides
    have hcompile : ∀ (ready : Model d) verdict q least,
        ready.compileAtMostZero verdict q least options.mirrored =
          ready.compileAtMostZero verdict q least options := fun _ _ _ _ => rfl
    rw [addConstraint_of_range hne hrange, addConstraint_of_range hne' hrange', hready, hsame,
      hverdict, hcompile]
    cases (m.skipAncillas p).compileAtMostZero (r.classify (.exact l) (.exact u))
      (atMostZero r p (.exact l) (.exact u)).1 (atMostZero r p (.exact l) (.exact u)).2 options with
    | error e => exact ⟨rfl, rfl, rfl, fun _ => rfl⟩
    | ok compiled =>
      refine ⟨rfl, rfl, congrArg Except.ok ?_, fun a =>
        isSolutionValid_recordConstraint_neg hp _ _ a⟩
      rw [verdict_ofRange?, verdict_ofRange?, hverdict]

/-- Two variables of which `x` weighs more. -/
def surplus : Polynomial .binary Label :=
  ofTerms [([.name "x"], 2), ([.name "y"], 1), ([], -1)]

/-- A weight that is a parameter, and a range that is given. -/
def weighed : ConstraintOptions :=
  { weight := .param "w", bounds := some (.exact (-1), .exact 2) }

/-- Both constraints need a slack bit. -/
theorem addConstraint_mirrored_surplus :
    SameEffect (empty.addConstraint .gt surplus weighed)
        (empty.addConstraint .lt (-surplus) weighed.mirrored) ∧
      (empty.addConstraint .lt (-surplus) weighed.mirrored).1.nextAncilla = 1 := by
  have hrational : surplus.WellFormed Coefficient.IsRational := .ofTerms (by decide)
  have hsame : SameEffect (empty.addConstraint .gt surplus weighed)
      (empty.addConstraint .lt (-surplus) weighed.mirrored) :=
    addConstraint_mirrored empty (.inl rfl)
      (hrational.withKind fun e he => (hrational.terms.entries e he).kind.normal)
      fun _ hrange => Option.some_inj.mp hrange ▸ ⟨rfl, rfl⟩
  exact ⟨hsame, hsame.nextAncilla.symm.trans (by decide +kernel)⟩

end Model

end PseudoBoolean

import PseudoBoolean.Proofs.Model.Compilation

/-!
# Accepted and refused constraints

With computed bounds that fit, a constraint is refused for one reason only. A strict inequality is
compiled as `q ≤ 0` with `q` a whole unit above. If its range leaves it open, but nowhere clears zero by a
whole unit, then the bound of `q` is positive and the range of the slack would be `-1`
(`isThin_or_zero_le_floor`). Apart from that, a slack of ones can be too long for the memory (`IsHuge`),
which stops the program. All other constraints are accepted, whatever their range says about them, and what
it says is the diagnostic (`addConstraint_accepts`).
-/

namespace PseudoBoolean.Model

open PseudoBoolean.Polynomial

variable {d : Domain} {m : Model d} {r : Relation} {p : Polynomial d Label}
  {options : ConstraintOptions} {l u q : ℚ}

/-! ## Bounds that leave a constraint open -/

/-- The lower bound of what is to be at most zero. -/
def leastShifted : Relation → ℚ → ℚ → ℚ
  | .lt, l, _ => l + 1
  | .ge, _, u => -u
  | .gt, _, u => -u + 1
  | .le, l, _ | .eq, l, _ => l

theorem atMostZero_snd (r : Relation) (p : Polynomial d Label) (l u : ℚ) :
    (atMostZero r p (.exact l) (.exact u)).2 = .exact (leastShifted r l u) := by
  cases r <;> rfl

/-- A strict inequality is left open by a range that goes beyond zero by less than a whole unit. -/
def IsThin : Relation → ℚ → ℚ → Prop
  | .lt, l, u => -1 < l ∧ l < 0 ∧ 0 ≤ u
  | .gt, l, u => l ≤ 0 ∧ 0 < u ∧ u < 1
  | .eq, _, _ | .le, _, _ | .ge, _, _ => False

/-- An inequality that its range leaves open needs more ones for its slack than fit into memory. -/
def IsHuge (r : Relation) (l u : ℚ) (options : ConstraintOptions) : Prop :=
  r ≠ .eq ∧ r.classify (.exact l) (.exact u) = none ∧ options.logarithmic = false ∧
    Slack.capacity < (-leastShifted r l u).floor

/-- A range that leaves a relation open. -/
theorem classify_eq_none_iff : r.classify (.exact l) (.exact u) = none ↔
    ¬ r.failsOn (.exact l) (.exact u) ∧ ¬ r.holdsOn (.exact l) (.exact u) := by
  rw [Relation.classify]
  split
  · simp [*]
  · split <;> simp [*]

theorem zero_le_floor_neg (hq : q ≤ 0) : 0 ≤ (-q).floor := by
  rw [Rat.le_floor_iff, Int.cast_zero]
  exact neg_nonneg.mpr hq

/-- A bound strictly between zero and one gives the slack range minus one. -/
theorem floor_neg_eq_neg_one (h0 : 0 < q) (h1 : q < 1) : (-q).floor = -1 := by
  have hlow : -1 ≤ (-q).floor := by
    rw [Rat.le_floor_iff]
    push_cast
    linarith
  have hhigh : (-q).floor < 0 := by
    rw [Rat.floor_lt_iff, Int.cast_zero]
    exact neg_neg_of_pos h0
  omega

/-- An inequality that is left open has `-1` as its slack range if it is thin, and else a number. -/
theorem isThin_or_zero_le_floor (hr : r ≠ .eq) (h : r.classify (.exact l) (.exact u) = none) :
    IsThin r l u ∧ (-leastShifted r l u).floor = -1 ∨
      ¬ IsThin r l u ∧ 0 ≤ (-leastShifted r l u).floor := by
  obtain ⟨hfails, hholds⟩ := classify_eq_none_iff.mp h
  cases r with
  | eq => exact absurd rfl hr
  | le =>
    have hl : l ≤ 0 := not_lt.mp (mt Number.lt_exact.mpr hfails)
    exact .inr ⟨not_false, zero_le_floor_neg hl⟩
  | ge =>
    have hu : 0 ≤ u := not_lt.mp (mt Number.lt_exact.mpr hfails)
    exact .inr ⟨not_false, zero_le_floor_neg (neg_nonpos.mpr hu)⟩
  | lt =>
    have hl : l < 0 := not_le.mp (mt Number.le_exact.mpr hfails)
    have hu : 0 ≤ u := not_lt.mp (mt Number.lt_exact.mpr hholds)
    by_cases hthin : -1 < l
    · exact .inl ⟨⟨hthin, hl, hu⟩, floor_neg_eq_neg_one (q := l + 1) (by linarith) (by linarith)⟩
    · exact .inr ⟨fun h => hthin h.1, zero_le_floor_neg (q := l + 1) (by linarith)⟩
  | gt =>
    have hu : 0 < u := not_le.mp (mt Number.le_exact.mpr hfails)
    have hl : l ≤ 0 := not_lt.mp (mt Number.lt_exact.mpr hholds)
    by_cases hthin : u < 1
    · exact .inl ⟨⟨hl, hu, hthin⟩, floor_neg_eq_neg_one (q := -u + 1) (by linarith) (by linarith)⟩
    · exact .inr ⟨fun h => hthin h.2.2, zero_le_floor_neg (q := -u + 1) (by linarith)⟩

/-- A thin range leaves its relation open. -/
theorem IsThin.classify_eq_none (h : IsThin r l u) : r.classify (.exact l) (.exact u) = none := by
  rw [classify_eq_none_iff]
  cases r with
  | eq => exact h.elim
  | le => exact h.elim
  | ge => exact h.elim
  | lt =>
    obtain ⟨-, hl, hu⟩ := h
    exact ⟨mt Number.le_exact.mp hl.not_ge, mt Number.lt_exact.mp hu.not_gt⟩
  | gt =>
    obtain ⟨hl, hu, -⟩ := h
    exact ⟨mt Number.le_exact.mp hu.not_ge, mt Number.lt_exact.mp hl.not_gt⟩

/-- Bounds that fit leave room for the range of the slack. -/
theorem floor_neg_leastShifted_lt (hl : |l| < 2 ^ 62) (hu : |u| < 2 ^ 62) :
    (-leastShifted r l u).floor < 2 ^ 63 := by
  rw [Rat.floor_lt_iff]
  have hlow := neg_lt_of_abs_lt hl
  have hhigh := lt_of_abs_lt hu
  have hhalf : (2 : ℚ) ^ 63 = 2 ^ 62 + 2 ^ 62 := by norm_num
  push_cast
  cases r <;> simp only [leastShifted] <;> linarith

/-- The slack range is the greatest whole number up to the negated bound. -/
theorem slackRange_of_floor (h0 : 0 ≤ (-q).floor) (h : (-q).floor < 2 ^ 63) :
    slackRange (.exact q) = .ok (-q).floor.toNat :=
  (slackRange_exact q).trans (if_pos ⟨h0, h⟩)

/-! ## Acceptance -/

/-- Without parameters in the coefficients there are none in the polynomial. -/
theorem params_eq_nil (hp : p.WellFormed Coefficient.IsRational) : p.params = [] := by
  have hempty : p.terms.flatMap (·.2.params) = [] := by
    rw [List.flatMap_eq_nil_iff]
    intro e he
    obtain ⟨q, hq⟩ := (hp.terms.entries e he).kind
    rw [hq]
    rfl
  rw [params, hempty]
  rfl

/-- A constraint is accepted and recorded, with a diagnostic. -/
def Accepts (m : Model d) (r : Relation) (p : Polynomial d Label) (options : ConstraintOptions)
    (diagnostic : Option Diagnostic) : Prop :=
  ∃ after, m.addConstraint r p options = (after, .ok diagnostic) ∧
    after.constraints = m.constraints ++ [⟨r, p⟩] ∧
    after.diagnostics = m.diagnostics ++ diagnostic.toList

/-- An equality with computed bounds is always accepted. -/
theorem accepts_equality (m : Model d) (hp : p.WellFormed Coefficient.IsRational)
    (hnone : options.bounds = none) (hbounds : p.bounds = .ok (.exact l, .exact u)) :
    m.Accepts .eq p options (Diagnostic.ofRange? m.constraints.length .eq (.exact l) (.exact u)) := by
  have hrange : equalityRange p options = .ok (some (.exact l, .exact u)) := by
    rw [equalityRange, hnone, params_eq_nil hp, hbounds]
    rfl
  refine ⟨(m.addPenalty p options.weight).recordConstraint .eq p _, ?_, rfl, rfl⟩
  rw [addConstraint, addEquality, hrange]
  rfl

section Inequality

variable {lower upper : Number} {after : Model d} {diagnostic : Option Diagnostic} {e : Error}

/-- An inequality is compiled once its range was found. -/
theorem addConstraint_of_compiled (hr : r ≠ .eq)
    (hbounds : options.bounds.elim p.bounds .ok = .ok (lower, upper))
    (h : (m.skipAncillas p).compileInequality r p lower upper options = .ok (after, diagnostic)) :
    m.addConstraint r p options = (after, .ok diagnostic) := by
  rw [addConstraint]
  swap
  · exact hr
  simp only [hbounds, h]

/-- If that fails, the model has passed the ancillas of the inequality all the same. -/
theorem addConstraint_of_refused (hr : r ≠ .eq)
    (hbounds : options.bounds.elim p.bounds .ok = .ok (lower, upper))
    (h : (m.skipAncillas p).compileInequality r p lower upper options = .error e) :
    m.addConstraint r p options = (m.skipAncillas p, .error e) := by
  rw [addConstraint]
  swap
  · exact hr
  simp only [hbounds, h]

/-- An inequality that its range decides needs no slack. -/
theorem accepts_inequality (m : Model d) (hr : r ≠ .eq) (hnone : options.bounds = none)
    (hbounds : p.bounds = .ok (.exact l, .exact u))
    (hopen : r.classify (.exact l) (.exact u) = none →
      ∃ range, slackRange (.exact (leastShifted r l u)) = .ok range ∧
        Slack.weights range options.logarithmic = .ok (Slack.parts range options.logarithmic)) :
    m.Accepts r p options (Diagnostic.ofRange? m.constraints.length r (.exact l) (.exact u)) := by
  have hcompile : ∃ after : Model d,
      (m.skipAncillas p).compileInequality r p (.exact l) (.exact u) options = .ok (after,
          Diagnostic.ofRange? m.constraints.length r (.exact l) (.exact u)) ∧
        after.constraints = m.constraints ++ [⟨r, p⟩] ∧ after.diagnostics = m.diagnostics ++
          (Diagnostic.ofRange? m.constraints.length r (.exact l) (.exact u)).toList := by
    rw [compileInequality]
    simp only [Diagnostic.ofRange?]
    cases hverdict : r.classify (.exact l) (.exact u) with
    | none =>
      obtain ⟨range, hrange, hweights⟩ := hopen hverdict
      rw [← atMostZero_snd r p l u] at hrange
      simp only [Option.map_none, addSlackPenalty_ok hrange hweights]
      exact ⟨_, rfl, rfl, rfl⟩
    | some verdict =>
      cases verdict with
      | alwaysSatisfied => exact ⟨_, rfl, rfl, rfl⟩
      | neverSatisfied => exact ⟨_, rfl, rfl, rfl⟩
  obtain ⟨after, hafter, hrecorded⟩ := hcompile
  exact ⟨after, addConstraint_of_compiled hr (by rw [hnone]; exact hbounds) hafter, hrecorded⟩

/-- Without a penalty an inequality that is left open is refused. -/
theorem addConstraint_eq_error (m : Model d) (hr : r ≠ .eq) (hnone : options.bounds = none)
    (hbounds : p.bounds = .ok (.exact l, .exact u))
    (hopen : r.classify (.exact l) (.exact u) = none)
    (hpenalty : ∀ q : Polynomial d Label,
      (m.skipAncillas p).addSlackPenalty q (.exact (leastShifted r l u)) options = .error e) :
    m.addConstraint r p options = (m.skipAncillas p, .error e) := by
  refine addConstraint_of_refused hr (by rw [hnone]; exact hbounds) ?_
  have hleft := hpenalty (atMostZero r p (.exact l) (.exact u)).1
  rw [← atMostZero_snd r p l u] at hleft
  rw [compileInequality]
  simp only [Diagnostic.ofRange?, hopen, Option.map_none, hleft]
  rfl

/-- So is one without a range of the slack. -/
theorem addSlackPenalty_eq_error {q : Polynomial d Label} {least : Number}
    (hrange : slackRange least = .error e) : m.addSlackPenalty q least options = .error e := by
  rw [addSlackPenalty, hrange]
  rfl

end Inequality

/-- A constraint with computed bounds that fit is accepted, whatever they say about it, and what they say
is the diagnostic. The exceptions are strict inequalities that a thin range leaves open, which are refused,
and slacks of more ones than fit into memory. -/
theorem addConstraint_accepts (m : Model d) (r : Relation) (p : Polynomial d Label)
    (options : ConstraintOptions) (hp : p.WellFormed Coefficient.IsRational)
    (hnone : options.bounds = none) (hbounds : p.bounds = .ok (.exact l, .exact u))
    (hl : |l| < 2 ^ 62) (hu : |u| < 2 ^ 62) :
    (¬ IsThin r l u → ¬ IsHuge r l u options → m.Accepts r p options
        (Diagnostic.ofRange? m.constraints.length r (.exact l) (.exact u))) ∧
      (IsThin r l u → m.addConstraint r p options =
        (m.skipAncillas p, .error (.malformed (.slackRange (.exact (-1)))))) ∧
      (IsHuge r l u options → m.addConstraint r p options =
        (m.skipAncillas p, .error (.stopped .memory))) := by
  have hlarge := floor_neg_leastShifted_lt (r := r) hl hu
  refine ⟨fun hthick hsmall => ?_, fun hthin => ?_, fun ⟨hr, hopen, hones, hcapacity⟩ => ?_⟩
  · by_cases hr : r = .eq
    · subst hr
      exact accepts_equality m hp hnone hbounds
    refine accepts_inequality m hr hnone hbounds fun hopen => ?_
    have hzero := ((isThin_or_zero_le_floor hr hopen).resolve_left fun h => hthick h.1).2
    refine ⟨_, slackRange_of_floor hzero hlarge, Slack.weights_eq_parts (by omega) ?_⟩
    -- only a slack of ones can be too long
    cases hones : options.logarithmic with
    | true => exact .inl rfl
    | false =>
      have hroom := not_lt.mp fun hcapacity => hsmall ⟨hr, hopen, hones, hcapacity⟩
      exact .inr (by omega)
  · have hr : r ≠ .eq := fun h => by
      rw [h] at hthin
      exact hthin
    have hopen := hthin.classify_eq_none
    have hfloor := ((isThin_or_zero_le_floor hr hopen).resolve_right fun h => h.1 hthin).2
    refine addConstraint_eq_error m hr hnone hbounds hopen fun q => addSlackPenalty_eq_error ?_
    rw [slackRange_exact, hfloor]
    exact if_neg (by decide)
  · have hzero : 0 ≤ (-leastShifted r l u).floor := by omega
    refine addConstraint_eq_error m hr hnone hbounds hopen fun q =>
      addSlackPenalty_error (slackRange_of_floor hzero hlarge) ?_
    rw [hones, Slack.weights_unary]
    exact if_neg (by omega)

/-- A variable less one half. -/
def halfBelow : Polynomial .binary Label :=
  ofTerms [([.name "x"], 1), ([], .num (.exact (-1 / 2)))]

theorem wellFormed_halfBelow : halfBelow.WellFormed Coefficient.IsRational :=
  WellFormed.ofTerms (by simp [show Coefficient.IsRational 1 from ⟨1, rfl⟩,
    show Coefficient.IsRational (.num (.exact (-1 / 2))) from ⟨_, rfl⟩])

theorem bounds_halfBelow : halfBelow.bounds = .ok (.exact (-1 / 2), .exact (1 / 2)) := by
  decide +kernel

/-- That it is below zero is refused. -/
theorem addConstraint_refuses_half :
    ¬ ∃ diagnostic, ((empty : Model .binary).addConstraint .lt halfBelow {}).2 = .ok diagnostic := by
  have herror : ((empty : Model .binary).addConstraint .lt halfBelow {}).2 =
      .error (.malformed (.slackRange (.exact (-1)))) := by decide +kernel
  rw [herror]
  rintro ⟨diagnostic, h⟩
  cases h

/-- That it is at most zero is accepted. -/
theorem addConstraint_accepts_half : (empty : Model .binary).Accepts .le halfBelow {} none := by
  have hopen : Diagnostic.ofRange? 0 .le (.exact (-1 / 2)) (.exact (1 / 2)) = none := by
    decide +kernel
  obtain ⟨haccepts, -⟩ := addConstraint_accepts (empty : Model .binary) .le halfBelow {}
    wellFormed_halfBelow rfl bounds_halfBelow (by norm_num) (by norm_num)
  rw [← hopen]
  exact haccepts not_false fun h => absurd h.2.2.1 (by decide)

end PseudoBoolean.Model

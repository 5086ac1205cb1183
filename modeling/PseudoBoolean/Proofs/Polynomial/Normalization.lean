import PseudoBoolean.Proofs.CoefficientEvaluation
import PseudoBoolean.Proofs.Model.SearchOutcome
import PseudoBoolean.Proofs.Polynomial.Negation
import PseudoBoolean.Proofs.Polynomial.Renumbering
import PseudoBoolean.Proofs.Relation

/-!
# Normalization

Normalizing divides a polynomial by the largest magnitude of its coefficients. The magnitudes of exact
coefficients have a greatest one (`Number.maxAbs_exact`), which is positive as no coefficient is zero, and so
is none of the quotients: all terms stay (`WellFormed.div_eq_rescaled`). The polynomial is a positive multiple
of the result (`IsPositiveMultiple`), so the two have the same minimizers among any assignments. The largest
magnitude of the result is one, so that it is left as it is when it is normalized again
(`normalize_rescales`).
-/

namespace PseudoBoolean

/-! ## The largest magnitude -/

namespace Number

theorem abs_exact (q : ℚ) : abs (.exact q) = .exact |q| := by
  rw [abs]
  split
  · rename_i h
    rw [abs_of_neg h]
  · rename_i h
    rw [abs_of_nonneg (not_lt.mp h)]

/-- The greatest magnitude after one more number is the greater of the two, the earlier where they
tie. -/
theorem maxAbs_concat (xs : List Number) (x : Number) :
    maxAbs (xs ++ [x]) = match maxAbs xs with
      | some b => if le x.abs b then some b else some x.abs
      | none => some x.abs := by
  rw [maxAbs, List.foldl_concat]
  rfl

theorem magnitudes_concat (qs : List ℚ) (q : ℚ) :
    {r | ∃ q' ∈ qs ++ [q], |q'| = r} = insert |q| {r | ∃ q' ∈ qs, |q'| = r} := by
  ext r
  simp only [List.mem_append, List.mem_singleton, Set.mem_ofPred_eq, Set.mem_insert_iff, or_and_right,
    exists_or, exists_eq_left, eq_comm (a := r)]
  exact or_comm

/-- What is found for exact numbers is the greatest of their magnitudes. -/
theorem maxAbs_exact {qs : List ℚ} (hne : qs ≠ []) :
    ∃ m, maxAbs (qs.map .exact) = some (.exact m) ∧ IsGreatest {r | ∃ q ∈ qs, |q| = r} m := by
  induction qs using List.reverseRecOn with
  | nil => exact absurd rfl hne
  | append_singleton qs q ih =>
    rw [List.map_append, List.map_singleton, maxAbs_concat, abs_exact, magnitudes_concat]
    rcases eq_or_ne qs [] with rfl | hqs
    · refine ⟨|q|, rfl, Set.mem_insert _ _, ?_⟩
      rintro r (rfl | ⟨q', hq', -⟩)
      · exact le_rfl
      · cases hq'
    · obtain ⟨m, hm, hgreatest⟩ := ih hqs
      refine ⟨max |q| m, ?_, hgreatest.insert |q|⟩
      rw [hm]
      by_cases hle : |q| ≤ m
      · rw [max_eq_right hle]
        exact if_pos (le_exact.mpr hle)
      · rw [max_eq_left (not_le.mp hle).le]
        exact if_neg (le_exact.not.mpr hle)

end Number

/-- Exact numbers are divided exactly. -/
theorem Coefficient.div_exact (c : ℚ) {M : ℚ} (hM : M ≠ 0) :
    (num (.exact c)).div (num (.exact M)) = .ok (num (.exact (c / M))) := by
  show (ofQuotient (Number.div? (.exact c) (.exact M)) >>= fun r => .ok (num r)) = _
  rw [Number.div?_exact hM]
  rfl

namespace Polynomial

variable {d : Domain} {V : Type} {p q : Polynomial d V} {M : ℚ}

/-! ## Division by a number -/

/-- The magnitudes of the coefficients that are exact numbers. -/
def magnitudes (p : Polynomial d V) : Set ℚ :=
  {r | ∃ t c, (t, Coefficient.num (.exact c)) ∈ p.terms ∧ |c| = r}

/-- The terms with their coefficients, which are rational, divided by a number. -/
def quotients (M : ℚ) (terms : Table (Term V) Coefficient) : Table (Term V) Coefficient :=
  terms.mapValues fun c => .num (.exact (c.eval (fun _ => 0) / M))

theorem quotients_cons (M : ℚ) (t : Term V) (c : ℚ) (terms : List (Term V × Coefficient)) :
    quotients M ((t, .num (.exact c)) :: terms) = (t, .num (.exact (c / M))) :: quotients M terms := rfl

/-- The polynomial with its coefficients, which are rational, divided by a number. -/
def rescaled (M : ℚ) (p : Polynomial d V) : Polynomial d V :=
  { p with terms := quotients M p.terms }

/-- Dividing by one changes nothing. -/
theorem rescaled_one (hp : ∀ e ∈ p.terms, e.2.IsRational) : p.rescaled 1 = p := by
  have hterms : (p.rescaled 1).terms = p.terms := by
    refine (List.map_congr_left fun e he => ?_).trans (List.map_id p.terms)
    have hcoefficient : Coefficient.num (.exact (e.2.eval (fun _ => 0) / 1)) = e.2 := by
      rw [div_one, ← (hp e he).eq_eval]
    exact congrArg (Prod.mk e.1) hcoefficient
  calc p.rescaled 1 = ⟨(p.rescaled 1).terms, p.index, p.ancillas⟩ := rfl
    _ = p := by rw [hterms]

/-- A quotient's magnitude is that of the coefficient, divided. -/
theorem mem_magnitudes_rescaled (hp : ∀ e ∈ p.terms, e.2.IsRational) (hM : 0 < M) {r : ℚ} :
    r ∈ (p.rescaled M).magnitudes ↔ M * r ∈ p.magnitudes := by
  constructor
  · rintro ⟨t, c, he, rfl⟩
    obtain ⟨⟨t', c'⟩, he', heq⟩ := List.mem_map.mp he
    obtain ⟨c', rfl⟩ : c'.IsRational := hp _ he'
    obtain ⟨-, rfl⟩ : t' = t ∧ c' / M = c := by
      cases heq
      exact ⟨rfl, rfl⟩
    refine ⟨t', c', he', ?_⟩
    rw [abs_div, abs_of_pos hM, mul_div_cancel₀ _ hM.ne']
  · rintro ⟨t, c, he, hr⟩
    refine ⟨t, c / M, List.mem_map.mpr ⟨_, he, rfl⟩, ?_⟩
    rw [abs_div, abs_of_pos hM, hr, mul_div_cancel_left₀ _ hM.ne']

/-- The largest magnitude becomes one if it is divided by itself. -/
theorem isGreatest_magnitudes_rescaled (hp : ∀ e ∈ p.terms, e.2.IsRational) (hM : 0 < M)
    (h : IsGreatest p.magnitudes M) : IsGreatest (p.rescaled M).magnitudes 1 := by
  refine ⟨(mem_magnitudes_rescaled hp hM).mpr (by rw [mul_one]; exact h.1), fun r hr => ?_⟩
  have hle : M * r ≤ M * 1 := by
    rw [mul_one]
    exact h.2 ((mem_magnitudes_rescaled hp hM).mp hr)
  exact le_of_mul_le_mul_left hle hM

section WellFormed

variable [Variable V] (hp : p.WellFormed Coefficient.IsRational)

include hp

/-- The coefficients of a well-formed rational polynomial are rational. -/
theorem WellFormed.isRational_of_mem {e : Term V × Coefficient} (he : e ∈ p.terms) : e.2.IsRational :=
  (hp.terms.entries e he).kind

/-- No stored coefficient is zero. -/
theorem WellFormed.ne_zero_of_mem {t : Term V} {c : ℚ} (he : (t, Coefficient.num (.exact c)) ∈ p.terms) :
    c ≠ 0 := by
  rintro rfl
  have hzero : (Coefficient.num (.exact 0)).isZero = true := Number.isZero_exact.mpr rfl
  exact Bool.false_ne_true ((hp.terms.entries _ he).nonzero.symm.trans hzero)

/-- The rescaled polynomial is well formed. -/
theorem WellFormed.rescaled (hM : M ≠ 0) : (p.rescaled M).WellFormed Coefficient.IsRational := by
  refine ⟨⟨List.pairwise_map.mpr hp.terms.sorted, List.forall_mem_map.mpr fun e he => ?_⟩, hp.distinct,
    List.forall_mem_map.mpr hp.indexed⟩
  obtain ⟨t, c⟩ := e
  obtain ⟨c, rfl⟩ := hp.isRational_of_mem he
  refine ⟨(hp.terms.entries _ he).increasing, ⟨_, rfl⟩, ?_⟩
  rw [Bool.eq_false_iff]
  exact Number.isZero_exact.not.mpr (div_ne_zero (hp.ne_zero_of_mem he) hM)

/-- A division by a number other than zero succeeds and drops no term. -/
theorem WellFormed.div_eq_rescaled (hM : M ≠ 0) : p.div (.num (.exact M)) = .ok (p.rescaled M) := by
  have hquotients : p.terms.mapM (fun t => do
      return (t.1, ← Error.ofCoefficient (t.2.div (.num (.exact M))))) =
        (.ok (p.rescaled M).terms : Except Error _) := by
    refine mapM_eq_ok fun e he => ?_
    obtain ⟨t, c⟩ := e
    obtain ⟨c, rfl⟩ := hp.isRational_of_mem he
    rw [Coefficient.div_exact c hM]
    rfl
  have hkept : (p.rescaled M).terms.filter (fun t => !t.2.isZero) = (p.rescaled M).terms :=
    List.filter_eq_self.mpr fun e he => by rw [((hp.rescaled hM).terms.entries e he).nonzero]; rfl
  have hdivisor : ¬ (Coefficient.num (.exact M)).isZero := Number.isZero_exact.not.mpr hM
  rw [div, if_neg hdivisor, Polynomial.tryMapCoefficients, hquotients]
  show Except.ok { p with terms := (p.rescaled M).terms.filter fun t => !t.2.isZero } = _
  rw [hkept]
  rfl

end WellFormed

/-! ## Positive multiples -/

variable [Variable V] {P : Assignment V → Prop} {a : Assignment V}

/-- The polynomial is another one times a positive number: with the same terms, numbering and records, and
with the values multiplied, or refused in the same way. -/
structure IsPositiveMultiple (p : Polynomial d V) (M : ℚ) (q : Polynomial d V) : Prop where
  positive : 0 < M
  keys : p.terms.keys = q.terms.keys
  coefficients : ∀ t, p.termCoefficient t = .num (.exact M) * q.termCoefficient t
  numbering : p.index = q.index
  records : p.ancillas = q.ancillas
  values : ∀ a, p.valueNumber a = (q.valueNumber a).map (.exact M * ·)

/-- Each coefficient is the divisor times the rescaled one. -/
theorem termCoefficient_rescaled (hp : ∀ e ∈ p.terms, e.2.IsRational) (hM : M ≠ 0) (t : Term V) :
    p.termCoefficient t = .num (.exact M) * (p.rescaled M).termCoefficient t := by
  rw [termCoefficient, termCoefficient, rescaled]
  generalize p.terms = terms at hp
  induction terms with
  | nil => exact congrArg (fun c => Coefficient.num (.exact c)) (mul_zero M).symm
  | cons e terms ih =>
    obtain ⟨t', c⟩ := e
    obtain ⟨⟨c, rfl⟩, hterms⟩ := List.forall_mem_cons.mp hp
    rw [quotients_cons, Table.get?, Table.get?]
    cases compare t t' with
    | lt => exact congrArg (fun c => Coefficient.num (.exact c)) (mul_zero M).symm
    | eq => exact congrArg (fun c => Coefficient.num (.exact c)) (mul_div_cancel₀ c hM).symm
    | gt => exact ih hterms

omit [Variable V] in
/-- A step of the sum multiplies with the coefficients. -/
theorem exists_addSigned_mul (M s c : ℚ) (n : ℤ) : ∃ r : ℚ,
    addSigned (.num (.exact s)) n (.num (.exact c)) = .num (.exact r) ∧
      addSigned (.num (.exact (M * s))) n (.num (.exact (M * c))) = .num (.exact (M * r)) := by
  simp only [addSigned]
  split
  · exact ⟨s + c, rfl, by rw [mul_add]; rfl⟩
  · split
    · exact ⟨s - c, rfl, by rw [mul_sub]; rfl⟩
    · exact ⟨s, rfl, rfl⟩

/-- A term is added to a sum of values. -/
def addTermValue (d : Domain) (a : Assignment V) (sum : Coefficient) (t : Term V × Coefficient) :
    Except Error Coefficient := do
  return addSigned sum (← termValue d a t.1) t.2

theorem value_eq_foldlM (p : Polynomial d V) (a : Assignment V) :
    p.value a = p.terms.foldlM (addTermValue d a) 0 := rfl

/-- The sum is multiplied with the coefficients, and where it is refused the error is the same. -/
theorem foldlM_addTermValue_rescaled (hM : M ≠ 0) (a : Assignment V)
    {terms : Table (Term V) Coefficient} (hterms : ∀ e ∈ terms, e.2.IsRational) (s : ℚ) :
    (∃ e, (quotients M terms).foldlM (addTermValue d a) (.num (.exact s)) = .error e ∧
      terms.foldlM (addTermValue d a) (.num (.exact (M * s))) = .error e) ∨
    ∃ v : ℚ, (quotients M terms).foldlM (addTermValue d a) (.num (.exact s)) = .ok (.num (.exact v)) ∧
      terms.foldlM (addTermValue d a) (.num (.exact (M * s))) = .ok (.num (.exact (M * v))) := by
  induction terms generalizing s with
  | nil => exact .inr ⟨s, rfl, rfl⟩
  | cons e terms ih =>
    obtain ⟨t, c⟩ := e
    obtain ⟨⟨c, rfl⟩, htail⟩ := List.forall_mem_cons.mp hterms
    rw [quotients_cons, List.foldlM_cons, List.foldlM_cons, addTermValue, addTermValue]
    cases hn : termValue d a t with
    | error e => exact .inl ⟨e, rfl, rfl⟩
    | ok n =>
      obtain ⟨r, hr, hMr⟩ := exists_addSigned_mul M s (c / M) n
      rw [mul_div_cancel₀ c hM] at hMr
      have hrest := ih htail r
      rw [← hr, ← hMr] at hrest
      exact hrest

/-- A value is multiplied, and where there is none the error is the same. -/
theorem valueNumber_rescaled (hp : ∀ e ∈ p.terms, e.2.IsRational) (hM : M ≠ 0) (a : Assignment V) :
    p.valueNumber a = ((p.rescaled M).valueNumber a).map (.exact M * ·) := by
  have hvalue := foldlM_addTermValue_rescaled (d := d) hM a hp 0
  rw [mul_zero] at hvalue
  rw [valueNumber, valueNumber, value_eq_foldlM, value_eq_foldlM]
  rcases hvalue with ⟨e, hq, hp⟩ | ⟨v, hq, hp⟩
  · have hq : (p.rescaled M).terms.foldlM (addTermValue d a) 0 = .error e := hq
    have hp : p.terms.foldlM (addTermValue d a) 0 = .error e := hp
    rw [hq, hp]
    rfl
  · have hq : (p.rescaled M).terms.foldlM (addTermValue d a) 0 = .ok (.num (.exact v)) := hq
    have hp : p.terms.foldlM (addTermValue d a) 0 = .ok (.num (.exact (M * v))) := hp
    rw [hq, hp]
    rfl

/-- The polynomial is a positive multiple of the rescaled one. -/
theorem isPositiveMultiple_rescaled (hp : ∀ e ∈ p.terms, e.2.IsRational) (hM : 0 < M) :
    p.IsPositiveMultiple M (p.rescaled M) where
  positive := hM
  keys := by
    rw [rescaled, quotients, Table.keys, Table.keys, Table.mapValues, List.map_map]
    rfl
  coefficients := termCoefficient_rescaled hp hM.ne'
  numbering := rfl
  records := rfl
  values := valueNumber_rescaled hp hM.ne'

namespace IsPositiveMultiple

variable (h : p.IsPositiveMultiple M q) (hq : q.WellFormed Coefficient.Normal)

include h hq

/-- A value of the multiple comes from a value of the polynomial it is a multiple of. -/
theorem exists_value {v : ℚ} (hv : p.valueNumber a = .ok (.exact v)) :
    ∃ u, q.valueNumber a = .ok (.exact u) ∧ M * u = v := by
  rw [h.values] at hv
  obtain ⟨x, hx, hxv⟩ := exists_of_map_eq_ok hv
  obtain ⟨u, rfl⟩ := isExact_of_valueNumber hq hx
  exact ⟨u, hx, Number.exact.inj hxv⟩

/-- A positive multiple has the same minimizers among any assignments. -/
theorem isMinimizer_iff : p.IsMinimizer P a ↔ q.IsMinimizer P a := by
  refine and_congr_right fun _ => forall_congr' fun b => imp_congr_right fun _ => ?_
  constructor
  · rintro ⟨v, w, hv, hw, hle⟩
    obtain ⟨u, hu, rfl⟩ := h.exists_value hq hv
    obtain ⟨u', hu', rfl⟩ := h.exists_value hq hw
    exact ⟨u, u', hu, hu', le_of_mul_le_mul_left hle h.positive⟩
  · rintro ⟨v, w, hv, hw, hle⟩
    exact ⟨M * v, M * w, by rw [h.values, hv]; rfl, by rw [h.values, hw]; rfl,
      mul_le_mul_of_nonneg_left hle h.positive.le⟩

end IsPositiveMultiple

/-! ## Normalization -/

/-- The magnitudes of rational coefficients have a greatest one, which is found. -/
theorem exists_maxAbs_rationalTerms (hp : p.WellFormed Coefficient.IsRational) (hne : p.terms ≠ []) :
    ∃ M, Number.maxAbs ((p.rationalTerms fun _ => 0).map (·.2)) = some (.exact M) ∧
      IsGreatest p.magnitudes M := by
  have hnumbers : (p.rationalTerms fun _ => 0).map (·.2) =
      (p.terms.map fun e => e.2.eval fun _ => 0).map .exact := by
    rw [rationalTerms, List.map_map, List.map_map]
    rfl
  have hmagnitudes : p.magnitudes = {r | ∃ c ∈ p.terms.map fun e => e.2.eval fun _ => 0, |c| = r} := by
    ext r
    constructor
    · rintro ⟨t, c, he, hr⟩
      exact ⟨c, List.mem_map.mpr ⟨_, he, rfl⟩, hr⟩
    · rintro ⟨c, hc, hr⟩
      obtain ⟨⟨t, c'⟩, he, rfl⟩ := List.mem_map.mp hc
      obtain ⟨c, rfl⟩ := hp.isRational_of_mem he
      exact ⟨t, c, he, hr⟩
  rw [hnumbers, hmagnitudes]
  exact Number.maxAbs_exact (List.map_eq_nil_iff.not.mpr hne)

omit [Variable V] in
/-- A polynomial without terms is left as it is. -/
theorem normalize_eq_self (h : p.terms = []) : p.normalize = (p, .ok ()) := by
  rw [normalize, numericTerms, h]
  rfl

/-- With rational coefficients, normalizing is the division by the largest magnitude. -/
theorem WellFormed.normalize_eq_rescaled (hp : p.WellFormed Coefficient.IsRational) (hne : p.terms ≠ []) :
    ∃ M, 0 < M ∧ IsGreatest p.magnitudes M ∧ p.normalize = (p.rescaled M, .ok ()) := by
  obtain ⟨M, hmax, hgreatest⟩ := exists_maxAbs_rationalTerms hp hne
  have hpos : 0 < M := by
    obtain ⟨t, c, he, rfl⟩ := hgreatest.1
    exact abs_pos.mpr (hp.ne_zero_of_mem he)
  refine ⟨M, hpos, hgreatest, ?_⟩
  rw [normalize, numericTerms_eq hp fun _ => 0]
  simp only [hmax]
  rw [divAssign, hp.div_eq_rescaled hpos.ne']

/-- What has been normalized is left as it is. -/
theorem WellFormed.normalize_rescaled (hp : p.WellFormed Coefficient.IsRational) (hne : p.terms ≠ [])
    (hM : 0 < M) (h : IsGreatest p.magnitudes M) :
    (p.rescaled M).normalize = (p.rescaled M, .ok ()) := by
  have hq := hp.rescaled hM.ne'
  have hqne : (p.rescaled M).terms ≠ [] := List.map_eq_nil_iff.not.mpr hne
  obtain ⟨M', -, hgreatest, hnormalize⟩ := hq.normalize_eq_rescaled hqne
  obtain rfl : M' = 1 := hgreatest.unique
    (isGreatest_magnitudes_rescaled (fun _ => hp.isRational_of_mem) hM h)
  rw [hnormalize, rescaled_one fun _ => hq.isRational_of_mem]

omit [Variable V] in
/-- The first coefficient that is no number is the one that is reported. -/
theorem mapM_toNumber_unresolved {terms : Table (Term V) Coefficient}
    (h : ∃ e ∈ terms, e.2.isNumeric = false) :
    ∃ before t s after, terms = before ++ (t, .sym s) :: after ∧ (∀ e ∈ before, e.2.isNumeric) ∧
      terms.mapM (fun t => do return (t.1, ← Error.ofCoefficient t.2.toNumber)) =
        (.error (.coefficient (.unresolved s.params)) : Except Error (Table (Term V) Number)) := by
  induction terms with
  | nil => simp at h
  | cons e terms ih =>
    obtain ⟨t, c⟩ := e
    cases c with
    | sym s => exact ⟨[], t, s, terms, rfl, by simp, rfl⟩
    | num n =>
      have hrest : ∃ e ∈ terms, e.2.isNumeric = false := by simpa [Coefficient.isNumeric] using h
      obtain ⟨before, t', s, after, hsplit, hbefore, herror⟩ := ih hrest
      refine ⟨(t, .num n) :: before, t', s, after, by rw [hsplit]; rfl,
        List.forall_mem_cons.mpr ⟨rfl, hbefore⟩, ?_⟩
      rw [List.mapM_cons, herror]
      rfl

omit [Variable V] in
/-- Parameters leave the polynomial unnormalized, and those of the first coefficient that has any are
named. -/
theorem normalize_unresolved (h : p.params ≠ []) :
    ∃ before t s after, p.terms = before ++ (t, .sym s) :: after ∧ (∀ e ∈ before, e.2.isNumeric) ∧
      p.normalize = (p, .error (.coefficient (.unresolved s.params))) := by
  obtain ⟨name, hname⟩ := List.exists_mem_of_ne_nil _ h
  rw [params, Table.mem_sortedSet] at hname
  obtain ⟨e, he, hparam⟩ := List.mem_flatMap.mp hname
  have hsymbolic : e.2.isNumeric = false := by
    cases hc : e.2 with
    | num n =>
      rw [hc] at hparam
      cases hparam
    | sym s => rfl
  obtain ⟨before, t, s, after, hsplit, hbefore, herror⟩ := mapM_toNumber_unresolved ⟨e, he, hsymbolic⟩
  refine ⟨before, t, s, after, hsplit, hbefore, ?_⟩
  rw [normalize, numericTerms, herror]

/-- Without parameters a polynomial is a positive multiple of what it is normalized to, by the largest
magnitude of its coefficients. The largest magnitude of the result is one, its minimizers among any
assignments are the same, and normalizing it again has no effect; nor has normalizing a polynomial without
terms. With parameters the polynomial is refused and stays as it was. -/
theorem normalize_rescales (p : Polynomial d V) :
    (p.WellFormed Coefficient.IsRational →
      (p.terms = [] → p.normalize = (p, .ok ())) ∧
      (p.terms ≠ [] → ∃ q M, p.normalize = (q, .ok ()) ∧ q.WellFormed Coefficient.IsRational ∧
        IsGreatest p.magnitudes M ∧ p.IsPositiveMultiple M q ∧ IsGreatest q.magnitudes 1 ∧
        (∀ P a, q.IsMinimizer P a ↔ p.IsMinimizer P a) ∧ q.normalize = (q, .ok ()))) ∧
    (p.params ≠ [] →
      ∃ before t s after, p.terms = before ++ (t, .sym s) :: after ∧
        (∀ e ∈ before, e.2.isNumeric) ∧
        p.normalize = (p, .error (.coefficient (.unresolved s.params)))) := by
  refine ⟨fun hp => ⟨normalize_eq_self, fun hne => ?_⟩, normalize_unresolved⟩
  · obtain ⟨M, hM, hgreatest, hnormalize⟩ := hp.normalize_eq_rescaled hne
    have hrational : ∀ e ∈ p.terms, e.2.IsRational := fun _ => hp.isRational_of_mem
    have hq := hp.rescaled hM.ne'
    have hmultiple := isPositiveMultiple_rescaled hrational hM
    exact ⟨p.rescaled M, M, hnormalize, hq, hgreatest, hmultiple,
      isGreatest_magnitudes_rescaled hrational hM hgreatest,
      fun P a => (hmultiple.isMinimizer_iff hq.normal).symm, hp.normalize_rescaled hne hM hgreatest⟩

/-- A polynomial whose largest magnitude is that of a negative coefficient. -/
def tilted : Polynomial .spin ℕ :=
  ofTerms [([], .num (.exact (1 / 4))), ([0], .num (.exact (-3 / 2))), ([0, 1], 1)]

/-- It is divided by three halves. As soon as a parameter is added it is refused, and stays as it is. -/
theorem normalize_rescales_tilted :
    (∃ q, tilted.normalize = (q, .ok ()) ∧ tilted.IsPositiveMultiple (3 / 2) q ∧
        q.normalize = (q, .ok ())) ∧
      ∃ e, (tilted.addTerm [1] (.param "k")).normalize = (tilted.addTerm [1] (.param "k"), .error e) := by
  have hterms : tilted.terms =
      [([], .num (.exact (1 / 4))), ([0], .num (.exact (-3 / 2))), ([0, 1], .num (.exact 1))] := by
    decide +kernel
  have hp : tilted.WellFormed Coefficient.IsRational := (Regular.ofTerms (by decide +kernel)).toWellFormed
  have hgreatest : IsGreatest tilted.magnitudes (3 / 2) := by
    rw [magnitudes, hterms]
    refine ⟨⟨[0], -3 / 2, by simp, by norm_num [abs]⟩, ?_⟩
    rintro r ⟨t, c, he, rfl⟩
    simp only [List.mem_cons, List.not_mem_nil, or_false, Prod.mk.injEq, Coefficient.num.injEq,
      Number.exact.injEq] at he
    rcases he with ⟨-, rfl⟩ | ⟨-, rfl⟩ | ⟨-, rfl⟩ <;> norm_num [abs]
  have hparams : (tilted.addTerm [1] (.param "k")).params ≠ [] := by decide +kernel
  obtain ⟨q, M, hnormalize, -, hM, hmultiple, -, -, hagain⟩ :=
    ((normalize_rescales tilted).1 hp).2 (by rw [hterms]; simp)
  obtain rfl := hM.unique hgreatest
  obtain ⟨_, _, _, _, -, -, hrefused⟩ := (normalize_rescales _).2 hparams
  exact ⟨⟨q, hnormalize, hmultiple, hagain⟩, _, hrefused⟩

end Polynomial

end PseudoBoolean

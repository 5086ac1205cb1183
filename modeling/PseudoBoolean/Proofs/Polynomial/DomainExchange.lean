import PseudoBoolean.Digits
import PseudoBoolean.Proofs.Polynomial.Conversion
import PseudoBoolean.Proofs.Polynomial.Evaluation

/-!
# The two domains can be exchanged

A polynomial and its conversion have the same value at corresponding assignments (`value_toDomain`), and
converting back leads to the very same polynomial (`toDomain_inverse`). The expansion of a term into its
subsets is a linear change of weights. That of the one domain undoes that of the other
(`subsetWeight_subsetWeight`), by induction on the term: the two substitutions are inverse, and the
contributions that do not belong to the term itself cancel variable by variable.
-/

namespace PseudoBoolean

open Std

/-! ## Corresponding assignments -/

/-- A bit is read back from its value. -/
@[simp]
theorem Domain.toBit?_ofBit (d : Domain) (b : Bool) : d.toBit? (d.ofBit b) = some b := by
  cases d <;> cases b <;> rfl

/-- The substitutions of the two domains are inverse to each other. -/
theorem Domain.substitution_inverse {d e : Domain} (hne : e ≠ d) :
    d.substitution.1 + d.substitution.2 * e.substitution.1 = 0 ∧
      d.substitution.2 * e.substitution.2 = 1 := by
  cases d <;> cases e <;> simp [substitution] at hne ⊢ <;> norm_num

namespace Assignment

variable {d : Domain} {V : Type} [Variable V] {a b : Assignment V} {vars : List V}

/-- The values of an assignment can all be mapped to another domain if they belong to the first. -/
theorem exists_convertAssignment (e : Domain) (h : ∀ x ∈ a, d.contains x.2) :
    ∃ b, Digits.convertAssignment d e a = .ok b ∧
      ∀ v, b.get? v = (a.get? v).bind (d.convert? e) := by
  rw [Digits.convertAssignment]
  induction a with
  | nil => exact ⟨[], rfl, fun _ => rfl⟩
  | cons x a ih =>
    obtain ⟨hx, ha⟩ := List.forall_mem_cons.mp h
    obtain ⟨b, hb, hget⟩ := ih ha
    obtain ⟨v, n⟩ := x
    obtain ⟨bit, rfl⟩ := Domain.contains_iff.mp hx
    have hdigit : Digits.convert d e (d.ofBit bit) = .ok (e.ofBit bit) := by
      simp only [Digits.convert, Digits.digit, Domain.toBit?_ofBit]
      rfl
    refine ⟨(v, e.ofBit bit) :: b, ?_, fun w => ?_⟩
    · simp only [List.mapM_cons, hb, hdigit]
      rfl
    · rw [Table.get?, Table.get?]
      split
      · rfl
      · simp [Domain.convert?]
      · exact hget w

/-- An assignment with the corresponding values has all of them, and stands for the corresponding
point. -/
theorem Covers.convert {e : Domain} (ha : Covers d vars a)
    (hb : ∀ v ∈ vars, b.get? v = (a.get? v).bind (d.convert? e)) :
    Covers e vars b ∧ ∀ v ∈ vars, d.carry e (b.point e v) = a.point d v := by
  have hbit : ∀ v ∈ vars, ∃ bit, a.get? v = some (d.ofBit bit) ∧ b.get? v = some (e.ofBit bit) := by
    intro v hv
    obtain ⟨n, hn, hdom⟩ := ha v hv
    obtain ⟨bit, rfl⟩ := Domain.contains_iff.mp hdom
    exact ⟨bit, hn, by simp [hb v hv, hn, Domain.convert?]⟩
  refine ⟨fun v hv => ?_, fun v hv => ?_⟩
  · obtain ⟨bit, -, hget⟩ := hbit v hv
    exact ⟨_, hget, Domain.contains_iff.mpr ⟨bit, rfl⟩⟩
  · obtain ⟨bit, hold, hget⟩ := hbit v hv
    rw [point_eq hold (Domain.contains_iff.mpr ⟨bit, rfl⟩),
      point_eq hget (Domain.contains_iff.mpr ⟨bit, rfl⟩), Domain.carry_ofBit]

end Assignment

namespace Polynomial

variable {d e : Domain} {V : Type} [Variable V] {K : Coefficient → Prop} [Coefficient.Kind K]
  {p : Polynomial d V} {a : Assignment V}

/-! ## Values -/

/-- A polynomial has at an assignment the value that its conversion has at the corresponding one. -/
theorem value_toDomain (hp : p.WellFormed Coefficient.Normal) (hcovers : Assignment.Covers d p.vars a)
    (hvalues : ∀ x ∈ a, d.contains x.2) :
    ∃ b c, Digits.convertAssignment d e a = .ok b ∧
      (∀ v, b.get? v = (a.get? v).bind (d.convert? e)) ∧
      p.value a = .ok c ∧ (p.toDomain e).value b = .ok c := by
  obtain ⟨b, hb, hget⟩ := Assignment.exists_convertAssignment e hvalues
  obtain ⟨hbcovers, hpoint⟩ := hcovers.convert fun v _ => hget v
  obtain ⟨c, hok, hc, heval⟩ := value_eq hp hcovers
  obtain ⟨c', hok', hc', heval'⟩ := value_eq (hp.toDomain e) <|
    hbcovers.mono fun v hv => (mem_vars_toDomain hp).mp hv
  -- two coefficients in normal form that agree under every valuation of the parameters
  have hcc : c' = c := hc'.ext hc fun ρ => by
    rw [heval', heval, eval_toDomain hp]
    exact eval_congr hpoint
  subst hcc
  exact ⟨b, c', hb, hget, hok, hok'⟩

/-- Terms that overlap, one of them with a parameter. -/
def overlapping : Polynomial .binary ℕ :=
  ofTerms [([0, 1], .param "k"), ([0], 1), ([1, 2], -3)]

theorem wellFormed_overlapping : overlapping.WellFormed Coefficient.Normal :=
  WellFormed.ofTerms <| List.forall_mem_cons.mpr ⟨Coefficient.normal_param "k",
    List.forall_mem_cons.mpr ⟨rfl, List.forall_mem_singleton.mpr rfl⟩⟩

/-- The value at `1, 1, 0` is found at the spins `-1, -1, 1`. -/
theorem value_toDomain_overlapping :
    ∃ b, Digits.convertAssignment .binary .spin [(0, 1), (1, 1), (2, 0)] = .ok b ∧
      (overlapping.toDomain .spin).value b = .ok (.param "k" + 1) := by
  have hvars : overlapping.vars = [0, 1, 2] := by decide +kernel
  have hcovers : Assignment.Covers .binary overlapping.vars [(0, 1), (1, 1), (2, 0)] := by
    rw [hvars]
    exact List.forall_mem_cons.mpr ⟨⟨1, rfl, rfl⟩, List.forall_mem_cons.mpr
      ⟨⟨1, rfl, rfl⟩, List.forall_mem_singleton.mpr ⟨0, rfl, rfl⟩⟩⟩
  obtain ⟨b, c, hb, -, hvalue, hconverted⟩ :=
    value_toDomain (e := .spin) wellFormed_overlapping hcovers (by decide)
  have hc : overlapping.value [(0, 1), (1, 1), (2, 0)] = .ok (.param "k" + 1) := by decide +kernel
  rw [hvalue] at hc
  obtain rfl := Except.ok.inj hc
  exact ⟨b, hb, hconverted⟩

/-! ## Converting back -/

section SubsetWeight

variable {g h : Term V → ℚ} {v : V} {t : Term V}

omit [Variable V] in
theorem subsetWeight_nil : subsetWeight d g [] = g [] := by
  simp [subsetWeight, Term.subsets]

omit [Variable V] in
/-- The expansion is linear in the weights. -/
theorem subsetWeight_linear (x y : ℚ) :
    subsetWeight d (fun s => x * g s + y * h s) t =
      x * subsetWeight d g t + y * subsetWeight d h t := by
  rw [subsetWeight, subsetWeight, subsetWeight, ← List.sum_map_mul_left, ← List.sum_map_mul_left,
    ← List.sum_map_add]
  exact congrArg List.sum (List.map_congr_left fun s _ => by ring)

omit [Variable V] in
/-- The first variable is left out of a subset or is part of it. -/
theorem subsetWeight_cons :
    subsetWeight d g (v :: t) = d.substitution.1 * subsetWeight d g t +
      d.substitution.2 * subsetWeight d (fun s => g (v :: s)) t := by
  rw [subsetWeight, Term.sum_subsets_cons, subsetWeight, subsetWeight, ← List.sum_map_mul_left,
    ← List.sum_map_mul_left]
  congr 1
  · refine congrArg List.sum (List.map_congr_left fun s hs => ?_)
    rw [List.length_cons, Nat.succ_sub (Term.mem_subsets.mp hs).length_le, pow_succ]
    ring
  · refine congrArg List.sum (List.map_congr_left fun s _ => ?_)
    rw [List.length_cons, List.length_cons, Nat.add_sub_add_right, pow_succ]
    ring

omit [Variable V] in
/-- The expansion of one domain undoes that of the other. -/
theorem subsetWeight_subsetWeight (hne : e ≠ d) (g : Term V → ℚ) (t : Term V) :
    subsetWeight d (subsetWeight e g) t = g t := by
  obtain ⟨hzero, hone⟩ := Domain.substitution_inverse hne
  induction t generalizing g with
  | nil => rw [subsetWeight_nil, subsetWeight_nil]
  | cons v t ih =>
    calc subsetWeight d (subsetWeight e g) (v :: t)
        = d.substitution.1 * subsetWeight d (subsetWeight e g) t + d.substitution.2 *
          subsetWeight d (fun s => e.substitution.1 * subsetWeight e g s +
            e.substitution.2 * subsetWeight e (fun s => g (v :: s)) s) t := by
          simp only [subsetWeight_cons]
      _ = d.substitution.1 * g t + d.substitution.2 *
          (e.substitution.1 * g t + e.substitution.2 * g (v :: t)) := by
          rw [subsetWeight_linear, ih, ih]
      _ = (d.substitution.1 + d.substitution.2 * e.substitution.1) * g t +
          d.substitution.2 * e.substitution.2 * g (v :: t) := by ring
      _ = g (v :: t) := by rw [hzero, hone, zero_mul, zero_add, one_mul]

end SubsetWeight

omit [Variable V] in
/-- Weights that are converted there and back are as before. -/
theorem convertedWeight_convertedWeight (d e : Domain) (g : Term V → ℚ) :
    convertedWeight d e (convertedWeight e d g) = g := by
  rw [convertedWeight, convertedWeight]
  by_cases h : e = d
  · rw [if_pos h, if_pos h.symm]
  · rw [if_neg h, if_neg (Ne.symm h)]
    exact funext (subsetWeight_subsetWeight h g)

/-- Converting back leads to the same polynomial, with its numbering and records. -/
theorem toDomain_toDomain (hp : p.WellFormed K) (e : Domain) : (p.toDomain e).toDomain d = p := by
  have hterms : ((p.toDomain e).toDomain d).terms = p.terms := by
    refine ((hp.toDomain e).toDomain d).terms.ext hp.terms fun ρ g => ?_
    rw [weighted_toDomain (hp.toDomain e), weighted_toDomain hp, convertedWeight_convertedWeight]
  have hindex : ((p.toDomain e).toDomain d).index = p.index := by
    rw [index_toDomain (hp.toDomain e), index_toDomain hp]
  have hancillas : ((p.toDomain e).toDomain d).ancillas = p.ancillas := by
    rw [ancillas_toDomain, ancillas_toDomain]
  calc (p.toDomain e).toDomain d
      = ⟨p.terms, p.index, p.ancillas⟩ := by rw [← hterms, ← hindex, ← hancillas]
    _ = p := rfl

/-- The largest terms survive a conversion, since they are back after the return. -/
theorem degree_toDomain (hp : p.WellFormed K) (e : Domain) : (p.toDomain e).degree = p.degree := by
  refine (degree_toDomain_le hp le_rfl).antisymm ?_
  calc p.degree = ((p.toDomain e).toDomain d).degree := by rw [toDomain_toDomain hp]
    _ ≤ (p.toDomain e).degree := degree_toDomain_le (hp.toDomain e) le_rfl

/-- A quadratic form is still one after the conversion, and is what the result is converted back to. -/
theorem exists_quadratic (q : Quadratic d V) (hq : q.polynomial.WellFormed K) (e : Domain) :
    ∃ i : Quadratic e V, Quadratic.ofPolynomial (q.polynomial.toDomain e) = .ok i ∧
      Quadratic.ofPolynomial (i.polynomial.toDomain d) = .ok q := by
  have hdegree : q.polynomial.degree ≤ quadraticDegree := degree_le_iff.mpr q.degree_le
  obtain ⟨i, hi, hpolynomial⟩ := exists_ofPolynomial (degree_toDomain_le (e := e) hq hdegree)
  obtain ⟨q', hq', hsame⟩ := exists_ofPolynomial hdegree
  refine ⟨i, hi, ?_⟩
  rw [hpolynomial, toDomain_toDomain hq, hq']
  obtain ⟨p', hle⟩ := q'
  obtain ⟨p, hle'⟩ := q
  obtain rfl : p' = p := hsame
  rfl

/-- The conversions between the two domains are inverse to each other. They keep the degree, the numbering
and the records, and no quadratic form is refused on the way. -/
theorem toDomain_inverse (V : Type) [Variable V] :
    (∀ (d e : Domain) (p : Polynomial d V), p.WellFormed Coefficient.Normal →
      (p.toDomain e).toDomain d = p ∧ (p.toDomain e).degree = p.degree ∧
        (p.toDomain e).index = p.index ∧ (p.toDomain e).ancillas = p.ancillas) ∧
    (∀ q : Qubo V, q.polynomial.WellFormed Coefficient.Normal →
      ∃ i : Ising V, q.toIsing = .ok i ∧ i.toQubo = .ok q) ∧
    ∀ i : Ising V, i.polynomial.WellFormed Coefficient.Normal →
      ∃ q : Qubo V, i.toQubo = .ok q ∧ q.toIsing = .ok i :=
  ⟨fun _ e _ hp => ⟨toDomain_toDomain hp e, degree_toDomain hp e, index_toDomain hp, ancillas_toDomain⟩,
    fun q hq => exists_quadratic q hq .spin, fun i hi => exists_quadratic i hi .binary⟩

/-- Overlapping terms come back as they were, as a polynomial and as a QUBO. -/
theorem toDomain_inverse_overlapping :
    (overlapping.toDomain .spin).toDomain .binary = overlapping ∧
      ∃ (q : Qubo ℕ) (i : Ising ℕ), q.polynomial = overlapping ∧ q.toIsing = .ok i ∧
        i.toQubo = .ok q := by
  obtain ⟨q, -, hq⟩ := exists_ofPolynomial (by decide +kernel : overlapping.degree ≤ quadraticDegree)
  obtain ⟨hback, hqubo, -⟩ := toDomain_inverse ℕ
  obtain ⟨i, hi, hi'⟩ := hqubo q (hq ▸ wellFormed_overlapping)
  exact ⟨(hback .binary .spin overlapping wellFormed_overlapping).1, q, i, hq, hi, hi'⟩

end Polynomial

end PseudoBoolean

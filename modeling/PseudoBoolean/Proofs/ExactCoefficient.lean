import PseudoBoolean.Proofs.Coefficient
import PseudoBoolean.Proofs.PowerLoop

/-!
# Coefficients from exact inputs

`Coefficient.Exact` are the coefficients that the operations make of exact numbers and parameters. They
are those in normal form (`exact_iff_normal`): every operation with a result leads from normal forms to a
normal form, and conversely a polynomial in parameters is the sum of its terms, each a product of a number
and parameters.
-/

namespace PseudoBoolean

/-! ## Numbers -/

namespace Number

variable {a b c : Number}

/-- The quotient of exact numbers is exact, if there is one. -/
theorem isExact_div? (ha : a.isExact) (hb : b.isExact) (h : a.div? b = some c) : c.isExact := by
  obtain ⟨p, rfl⟩ := isExact_iff.mp ha
  obtain ⟨q, rfl⟩ := isExact_iff.mp hb
  rw [div?] at h
  split at h
  · cases h
  · exact Option.some_inj.mp h ▸ rfl

/-- The reciprocal of an exact number is exact. -/
theorem isExact_recip? (ha : a.isExact) (h : a.recip? = some c) : c.isExact :=
  isExact_div? rfl ha h

/-- The floor of a quotient of exact numbers is exact. -/
theorem isExact_floorDiv? (ha : a.isExact) (hb : b.isExact) (h : a.floorDiv? b = some c) :
    c.isExact := by
  obtain ⟨q, hq, rfl⟩ := Option.map_eq_some_iff.mp h
  obtain ⟨r, rfl⟩ := isExact_iff.mp (isExact_div? ha hb hq)
  rfl

/-- A power of an exact number is exact. -/
theorem isExact_pow (ha : a.isExact) (n : ℕ) : (a.pow n).isExact := by
  obtain ⟨q, rfl⟩ := isExact_iff.mp ha
  rfl

/-- An exact number is rounded to an exact one. -/
theorem isExact_roundTo (ha : a.isExact) (places : ℕ) : (a.roundTo places).isExact := by
  obtain ⟨q, rfl⟩ := isExact_iff.mp ha
  rfl

end Number

/-! ## Powers of polynomials in parameters -/

namespace Symbolic

variable {s : Symbolic}

/-- The loop for powers of polynomials in parameters is the one of repeated squaring. -/
theorem isPowerLoop : IsPowerLoop (· * ·) powLoop := fun acc base n => by
  rw [powLoop]

/-- A power of a normal polynomial in parameters is normal. -/
theorem Normal.pow (hs : s.Normal) (n : ℕ) : (s.pow n).Normal := by
  rw [Symbolic.pow]
  split
  · exact hs
  · exact isPowerLoop.invariant (P := Normal) (Q := Normal) (fun _ _ => .mul) (fun _ hb => hb.mul hb)
      (Normal.const rfl) hs

end Symbolic

/-! ## Operations on normal forms -/

namespace Coefficient

variable {a b c : Coefficient} {ρ : String → ℚ}

/-- A power of a normal coefficient is normal. -/
theorem Normal.pow (ha : a.Normal) (n : ℕ) : (a.pow n).Normal := by
  cases a with
  | num x => exact Number.isExact_pow ha n
  | sym s => exact normal_ofSymbolic (ha.1.pow n)

/-- Rounding leads to a normal form again, also if terms are rounded away. -/
theorem Normal.roundTo (ha : a.Normal) (places : ℕ) : (a.roundTo places).Normal := by
  cases a with
  | num x => exact Number.isExact_roundTo ha places
  | sym s =>
    exact normal_ofSymbolic (ha.1.mapCoefficients fun _ hc => Number.isExact_roundTo hc places)

/-- A quotient that is no failure is the one that was found. -/
theorem eq_some_of_ofQuotient {α : Type} {quotient : Option α} {x : α}
    (h : ofQuotient quotient = .ok x) : quotient = some x := by
  cases quotient with
  | none => cases h
  | some y => exact congrArg some (Except.ok.inj h)

/-- Only numbers are divisors. -/
theorem eq_num_of_divisor {k : Number} (h : b.divisor = .ok k) : b = num k := by
  cases b with
  | num n => exact congrArg num (Except.ok.inj h)
  | sym s => cases h

/-- A quotient of normal coefficients is normal. -/
theorem Normal.div (ha : a.Normal) (hb : b.Normal) (h : a.div b = .ok c) : c.Normal := by
  obtain ⟨k, hk, hquotient⟩ := exists_of_bind_eq_ok h
  obtain rfl := eq_num_of_divisor hk
  clear h
  cases a with
  | num x =>
    obtain ⟨q, hq, hc⟩ := exists_of_bind_eq_ok hquotient
    obtain rfl := Except.ok.inj hc
    exact Number.isExact_div? ha hb (eq_some_of_ofQuotient hq)
  | sym s =>
    obtain ⟨q, hq, hc⟩ := exists_of_bind_eq_ok hquotient
    obtain rfl := Except.ok.inj hc
    exact normal_ofSymbolic (ha.1.scale (Number.isExact_recip? hb (eq_some_of_ofQuotient hq)))

/-- The floor of a quotient of normal coefficients is normal. -/
theorem Normal.floorDiv (ha : a.Normal) (hb : b.Normal) (h : a.floorDiv b = .ok c) : c.Normal := by
  obtain ⟨k, hk, hrest⟩ := exists_of_bind_eq_ok h
  obtain ⟨n, hn, hquotient⟩ := exists_of_bind_eq_ok hrest
  obtain ⟨q, hq, hc⟩ := exists_of_bind_eq_ok hquotient
  obtain rfl := eq_num_of_divisor hk
  obtain rfl := Except.ok.inj hc
  cases a with
  | num x =>
    obtain rfl := Except.ok.inj hn
    exact Number.isExact_floorDiv? ha hb (eq_some_of_ofQuotient hq)
  | sym s => cases hn

section Substitute

variable {values : Table String Coefficient}

/-- What a parameter stands for is normal, whether it has a value or not. -/
theorem Normal.substituted (hvalues : ∀ e ∈ values, e.2.Normal) (name : String) :
    (substituted values name).Normal := by
  rw [Coefficient.substituted]
  cases hget : values.get? name with
  | none => exact Symbolic.Normal.param name
  | some v => exact (hvalues _ (Table.mem_of_get?_eq_some hget)).toSymbolic

/-- What a term becomes when its parameters are replaced. -/
theorem Normal.substitutedTerm (hvalues : ∀ e ∈ values, e.2.Normal) (m : Monomial)
    {product : Symbolic} (hproduct : product.Normal) :
    (m.foldl (fun product p => product * (Coefficient.substituted values p.param).pow p.exponent)
      product).Normal := by
  apply List.foldlRecOn m _ hproduct
  intro product hproduct p _
  exact hproduct.mul ((Normal.substituted hvalues p.param).pow p.exponent)

/-- A substitution by normal coefficients leads to a normal form. -/
theorem Normal.substitute (ha : a.Normal) (hvalues : ∀ e ∈ values, e.2.Normal) :
    (a.substitute values).Normal := by
  cases a with
  | num x => exact ha
  | sym s =>
    apply normal_ofSymbolic
    apply List.foldlRecOn s.terms _ Symbolic.Normal.zero
    intro out hout t ht
    exact hout.add (Normal.substitutedTerm hvalues t.1 (.const (ha.1.exact t ht).2))

end Substitute

/-! ## What the operations reach -/

/-- The coefficients that the operations make of exact numbers and parameters. -/
inductive Exact : Coefficient → Prop
  | number (q : ℚ) : Exact (.num (.exact q))
  | param (name : String) : Exact (.param name)
  | neg {a : Coefficient} : Exact a → Exact (-a)
  | add {a b : Coefficient} : Exact a → Exact b → Exact (a + b)
  | sub {a b : Coefficient} : Exact a → Exact b → Exact (a - b)
  | mul {a b : Coefficient} : Exact a → Exact b → Exact (a * b)
  | pow {a : Coefficient} (n : ℕ) : Exact a → Exact (a.pow n)
  | div {a b c : Coefficient} : Exact a → Exact b → a.div b = .ok c → Exact c
  | floorDiv {a b c : Coefficient} : Exact a → Exact b → a.floorDiv b = .ok c → Exact c
  | roundTo {a : Coefficient} (places : ℕ) : Exact a → Exact (a.roundTo places)
  | substitute {a : Coefficient} {values : Table String Coefficient} : Exact a →
      (∀ e ∈ values, Exact e.2) → Exact (a.substitute values)

/-- All operations on exact numbers and parameters lead to normal forms. -/
theorem Exact.normal (h : Exact a) : a.Normal := by
  induction h with
  | number q => exact normal_exact q
  | param name => exact normal_param name
  | neg _ ih => exact ih.neg
  | add _ _ iha ihb => exact iha.add ihb
  | sub _ _ iha ihb => exact iha.sub ihb
  | mul _ _ iha ihb => exact iha.mul ihb
  | pow n _ ih => exact ih.pow n
  | div _ _ hok iha ihb => exact iha.div ihb hok
  | floorDiv _ _ hok iha ihb => exact iha.floorDiv ihb hok
  | roundTo places _ ih => exact ih.roundTo places
  | substitute _ _ iha ihvalues => exact iha.substitute ihvalues

/-- A monomial is the product of its parameters. -/
theorem exists_exact_monomial (m : Monomial) :
    ∃ c, Exact c ∧ ∀ ρ, c.eval ρ = m.eval ρ := by
  have hpower : ∀ (name : String) (n : ℕ), ∃ c, Exact c ∧ ∀ ρ, c.eval ρ = ρ name ^ n := by
    intro name n
    induction n with
    | zero => exact ⟨1, .number 1, fun ρ => by simp⟩
    | succ n ih =>
      obtain ⟨c, hc, heval⟩ := ih
      refine ⟨c * .param name, hc.mul (.param name), fun ρ => ?_⟩
      rw [eval_mul hc.normal (normal_param name), heval, eval_param, pow_succ]
  induction m with
  | nil => exact ⟨1, .number 1, fun ρ => rfl⟩
  | cons p m ih =>
    obtain ⟨c, hc, heval⟩ := ih
    obtain ⟨c', hc', heval'⟩ := hpower p.param p.exponent
    refine ⟨c' * c, hc'.mul hc, fun ρ => ?_⟩
    rw [eval_mul hc'.normal hc.normal, heval, heval', Monomial.eval_cons]

/-- The coefficients in normal form are those that come from exact numbers and parameters. -/
theorem exact_iff_normal : Exact a ↔ a.Normal := by
  refine ⟨Exact.normal, fun ha => ?_⟩
  have hsum : ∀ l : List (Monomial × Number), Symbolic.Exact l →
      ∃ c, Exact c ∧ ∀ ρ, c.eval ρ = Table.total (fun m c => c.rat * m.eval ρ) l := by
    intro l
    induction l with
    | nil => exact fun _ => ⟨0, .number 0, fun ρ => rfl⟩
    | cons e l ih =>
      intro hl
      obtain ⟨he, hl⟩ := List.forall_mem_cons.mp hl
      obtain ⟨c, hc, heval⟩ := ih hl
      obtain ⟨c', hc', heval'⟩ := exists_exact_monomial e.1
      have hnumber : Exact (.num e.2) := Number.eq_exact_rat he.2 ▸ .number _
      refine ⟨.num e.2 * c' + c, (hnumber.mul hc').add hc, fun ρ => ?_⟩
      rw [eval_add (hnumber.mul hc').normal hc.normal, eval_mul hnumber.normal hc'.normal, heval,
        heval', Table.total_cons, eval_num]
  obtain ⟨c, hc, heval⟩ := hsum _ ha.toSymbolic.exact
  have hca : c = a := hc.normal.ext ha fun ρ => by
    rw [heval, ← eval_toSymbolic ha]
    rfl
  exact hca ▸ hc

end Coefficient

end PseudoBoolean

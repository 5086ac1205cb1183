import PseudoBoolean.Proofs.Polynomial.Uniqueness

/-!
# Powers and repeated products

A power is computed by repeated squaring. The partial results are other ones than in the product that
multiplies by the base as often as the exponent says, and at each of them terms may cancel. Both ways
lead to the same stored form all the same, for polynomials in parameters and for polynomials over binary
or spin variables (`pow_eq_repeated_product`): such forms are determined by their values, and both results
have the power of the value of the base.
-/

namespace PseudoBoolean

/-- The power of a symbolic value is the product repeated. -/
theorem Symbolic.Normal.pow_eq_iterate {s : Symbolic} (hs : s.Normal) (n : ℕ) :
    s.pow n = (· * s)^[n] (Symbolic.const 1) := by
  have hone : (Symbolic.const 1).Normal := .const rfl
  have hproduct : ((· * s)^[n] (Symbolic.const 1)).Normal :=
    Function.Iterate.rec Normal hone (fun _ hr => hr.mul hs) n
  refine (hs.pow n).ext hproduct fun ρ => ?_
  have hevalOne : eval ρ (Symbolic.const 1) = 1 := eval_const rfl
  rw [eval_pow hs, eval_iterate_mul (P := Normal) (f := eval ρ) (fun _ _ => .mul) (fun _ _ => eval_mul)
    hone hs, hevalOne, one_mul]

namespace Polynomial

variable {d : Domain} {V : Type} [Variable V] {p : Polynomial d V}

/-- The power of a polynomial has the value of the product repeated. -/
theorem WellFormed.pow_valueEq_iterate (hp : p.WellFormed Coefficient.Normal) (n : ℕ) :
    (p.pow n).valueEq ((· * p)^[n] (const 1)) := by
  have hone : (const 1 : Polynomial d V).WellFormed Coefficient.Normal :=
    .const (Coefficient.kind_ofNat 1)
  have hproduct : ((· * p)^[n] (const 1)).WellFormed Coefficient.Normal :=
    Function.Iterate.rec (WellFormed Coefficient.Normal) hone (fun _ hr => hr.mul hp) n
  refine ((hp.pow n).valueEq_iff hproduct).mpr ((hp.pow n).terms_eq_of_eval_eq hproduct fun ρ x hx => ?_)
  have hevalOne : (const 1 : Polynomial d V).eval ρ x = 1 :=
    eval_const (K := Coefficient.Normal) (Coefficient.kind_ofNat 1)
  rw [eval_pow hp n hx, eval_iterate_mul (P := (WellFormed Coefficient.Normal ·))
    (f := (Polynomial.eval ρ x ·)) (fun _ _ => .mul) (fun _ _ ha hb => eval_mul ha hb hx) hone hp,
    hevalOne, one_mul]

/-- Powers agree with repeated products. For every exponent `n` the power of a polynomial compares equal
to the constant 1 multiplied `n` times by the polynomial, and the power of a polynomial in parameters is
its constant 1 multiplied `n` times. -/
theorem pow_eq_repeated_product (hp : p.WellFormed Coefficient.Normal) {s : Symbolic} (hs : s.Normal)
    (n : ℕ) :
    (p.pow n).valueEq ((· * p)^[n] (const 1)) ∧ s.pow n = (· * s)^[n] (Symbolic.const 1) :=
  ⟨hp.pow_valueEq_iterate n, hs.pow_eq_iterate n⟩

/-- The fifth powers of `k * s₀ * s₁ + s₀` over spins and of `k - 1`. -/
theorem pow_eq_repeated_product_five :
    (coupled.pow 5).valueEq (const 1 * coupled * coupled * coupled * coupled * coupled) ∧
      (Symbolic.param "k" - .const 1).pow 5 =
        .const 1 * (.param "k" - .const 1) * (.param "k" - .const 1) * (.param "k" - .const 1) *
          (.param "k" - .const 1) * (.param "k" - .const 1) :=
  pow_eq_repeated_product wellFormed_coupled ((Symbolic.Normal.param "k").sub (.const rfl)) 5

end Polynomial

end PseudoBoolean

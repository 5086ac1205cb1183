import PseudoBoolean.Proofs.CoefficientEvaluation
import PseudoBoolean.Proofs.Polynomial.Arithmetic
import PseudoBoolean.Proofs.Polynomial.Evaluation

/-!
# Arithmetic of values

The value of a sum, a product or a power of polynomials at an assignment is the sum, the product or the
power of their values, as coefficients (`value_arithmetic`). `HasValue p a u` says that `u` is the value of
`p` at `a`, by what `u` is under all valuations of the parameters. As normal forms are determined by that,
each operation needs one lemma that compares rational numbers, and none that follows the products and
cancellations of terms.
-/

namespace PseudoBoolean.Polynomial

variable {d : Domain} {V : Type} [Variable V] {p q : Polynomial d V} {u v k : Coefficient}
  {a : Assignment V}

/-- The assignment gives all occurring variables values of the domain, and `u` is the normal form of what
the polynomial is there. -/
structure HasValue (p : Polynomial d V) (a : Assignment V) (u : Coefficient) : Prop where
  wellFormed : p.WellFormed Coefficient.Normal
  covers : Assignment.Covers d p.vars a
  normal : u.Normal
  eval_eq : ∀ ρ, u.eval ρ = p.eval ρ (a.point d)

/-- A value in this sense is the one that is computed. -/
theorem HasValue.value_eq (h : p.HasValue a u) : p.value a = .ok u := by
  obtain ⟨c, hok, hc, heval⟩ := Polynomial.value_eq h.wellFormed h.covers
  have hcu : c = u := hc.ext h.normal fun ρ => by rw [heval, h.eval_eq]
  rw [hok, hcu]

/-- Where all variables are assigned, a well-formed polynomial has a value. -/
theorem WellFormed.exists_hasValue (hp : p.WellFormed Coefficient.Normal)
    (ha : Assignment.Covers d p.vars a) : ∃ u, p.HasValue a u := by
  obtain ⟨u, -, hu, heval⟩ := Polynomial.value_eq hp ha
  exact ⟨u, hp, ha, hu, heval⟩

/-! ## Operations -/

/-- The value of a sum is the sum of the values, as coefficients. -/
theorem HasValue.add (hp : p.HasValue a u) (hq : q.HasValue a v) : (p + q).HasValue a (u + v) where
  wellFormed := hp.wellFormed.add hq.wellFormed
  covers w hw := (mem_vars_of_mem_add hw).elim (hp.covers w) (hq.covers w)
  normal := hp.normal.add hq.normal
  eval_eq ρ := by
    rw [Coefficient.eval_add hp.normal hq.normal, eval_add hp.wellFormed hq.wellFormed, hp.eval_eq,
      hq.eval_eq]

/-- The value of a difference is the difference of the values. -/
theorem HasValue.sub (hp : p.HasValue a u) (hq : q.HasValue a v) : (p - q).HasValue a (u - v) where
  wellFormed := hp.wellFormed.sub hq.wellFormed
  covers w hw := (mem_vars_of_mem_sub hw).elim (hp.covers w) (hq.covers w)
  normal := hp.normal.sub hq.normal
  eval_eq ρ := by
    rw [Coefficient.eval_sub hp.normal hq.normal, eval_sub hp.wellFormed hq.wellFormed, hp.eval_eq,
      hq.eval_eq]

/-- The value of a product is the product of the values. -/
theorem HasValue.mul (hp : p.HasValue a u) (hq : q.HasValue a v) : (p * q).HasValue a (u * v) where
  wellFormed := hp.wellFormed.mul hq.wellFormed
  covers w hw := (mem_vars_of_mem_mul hw).elim (hp.covers w) (hq.covers w)
  normal := hp.normal.mul hq.normal
  eval_eq ρ := by
    rw [Coefficient.eval_mul hp.normal hq.normal,
      eval_mul hp.wellFormed hq.wellFormed (Assignment.isPoint_point d a), hp.eval_eq, hq.eval_eq]

/-- The value of the negative is the negative value. -/
theorem HasValue.neg (hp : p.HasValue a u) : (-p).HasValue a (-u) where
  wellFormed := hp.wellFormed.neg
  covers w hw := hp.covers w (mem_vars_of_mem_mapCoefficients hw)
  normal := hp.normal.neg
  eval_eq ρ := by rw [Coefficient.eval_neg hp.normal, eval_neg hp.wellFormed, hp.eval_eq]

/-- The value of a multiple is the multiple of the value. -/
theorem HasValue.scale (hp : p.HasValue a u) (hk : k.Normal) : (p.scale k).HasValue a (k * u) where
  wellFormed := hp.wellFormed.scale hk
  covers w hw := hp.covers w (mem_vars_of_mem_mapCoefficients hw)
  normal := hk.mul hp.normal
  eval_eq ρ := by
    rw [Coefficient.eval_mul hk hp.normal, eval_scale hp.wellFormed hk, hp.eval_eq, mul_comm]

/-- A constant is added to the value. -/
theorem HasValue.addConstant (hp : p.HasValue a u) (hk : k.Normal) :
    (p.addConstant k).HasValue a (u + k) where
  wellFormed := hp.wellFormed.addConstant hk
  covers w hw := hp.covers w (mem_vars_of_mem_addConstant hw)
  normal := hp.normal.add hk
  eval_eq ρ := by rw [Coefficient.eval_add hp.normal hk, eval_addConstant hp.wellFormed hk, hp.eval_eq]

/-- A constant has itself as its value. -/
protected theorem HasValue.const (hk : k.Normal) : (const k : Polynomial d V).HasValue a k where
  wellFormed := WellFormed.const hk
  covers v hv := by cases mem_vars_of_mem_addConstant hv
  normal := hk
  eval_eq ρ := (eval_const hk).symm

/-- The value of a polynomial that is subtracted from a constant. -/
theorem HasValue.constantSub (hk : k.Normal) (hp : p.HasValue a u) :
    (constantSub k p).HasValue a (k - u) where
  wellFormed := hp.wellFormed.neg.addConstant hk
  covers w hw := (hp.neg.addConstant hk).covers w hw
  normal := hk.sub hp.normal
  eval_eq ρ := by
    rw [Polynomial.constantSub, ← (hp.neg.addConstant hk).eval_eq,
      Coefficient.eval_add hp.normal.neg hk, Coefficient.eval_neg hp.normal,
      Coefficient.eval_sub hk hp.normal, neg_add_eq_sub]

/-- The value of a power is the power of the value. -/
theorem HasValue.pow (hp : p.HasValue a u) (n : ℕ) : (p.pow n).HasValue a (u.pow n) where
  wellFormed := hp.wellFormed.pow n
  covers w hw := hp.covers w (mem_vars_of_mem_pow hw)
  normal := hp.normal.pow n
  eval_eq ρ := by
    rw [Coefficient.eval_pow hp.normal, eval_pow hp.wellFormed n (Assignment.isPoint_point d a),
      hp.eval_eq]

/-! ## The values of results -/

/-- The arithmetic of polynomials is that of their values: wherever all variables of the operands have
values of the domain, every result has a value, and it is the result of the same operation on coefficients.
Variables that have cancelled do not matter. -/
theorem value_arithmetic (hp : p.WellFormed Coefficient.Normal) (hq : q.WellFormed Coefficient.Normal)
    (hk : k.Exact) (n : ℕ) (ha : Assignment.Covers d (p.vars ++ q.vars) a) :
    ∃ u v, p.value a = .ok u ∧ q.value a = .ok v ∧
      (p + q).value a = .ok (u + v) ∧
      (p - q).value a = .ok (u - v) ∧
      (p * q).value a = .ok (u * v) ∧
      (-p).value a = .ok (-u) ∧
      (p.scale k).value a = .ok (k * u) ∧
      (p.addConstant k).value a = .ok (u + k) ∧
      (constantSub k p).value a = .ok (k - u) ∧
      (p.pow n).value a = .ok (u.pow n) := by
  obtain ⟨u, hu⟩ := hp.exists_hasValue (ha.mono fun _ => List.mem_append_left _)
  obtain ⟨v, hv⟩ := hq.exists_hasValue (ha.mono fun _ => List.mem_append_right _)
  exact ⟨u, v, hu.value_eq, hv.value_eq, (hu.add hv).value_eq, (hu.sub hv).value_eq,
    (hu.mul hv).value_eq, hu.neg.value_eq, (hu.scale hk.normal).value_eq,
    (hu.addConstant hk.normal).value_eq, (HasValue.constantSub hk.normal hu).value_eq,
    (hu.pow n).value_eq⟩

/-- Spins with a parameter in a quadratic term. Their square does not contain the first spin. -/
def coupled : Polynomial .spin ℕ :=
  ofTerms [([0, 1], .param "k"), ([0], 1)]

theorem wellFormed_coupled : coupled.WellFormed Coefficient.Normal :=
  WellFormed.ofTerms <| List.forall_mem_cons.mpr
    ⟨Coefficient.normal_param "k", List.forall_mem_singleton.mpr rfl⟩

/-- At two spins of `-1` the polynomial is `k - 1`, and its square and cube are those of `k - 1`. -/
theorem value_arithmetic_coupled :
    (coupled * coupled).value [(0, -1), (1, -1)] =
        .ok ((.param "k" - 1) * (.param "k" - 1)) ∧
      (coupled.pow 3).value [(0, -1), (1, -1)] = .ok ((.param "k" - 1 : Coefficient).pow 3) := by
  have hvars : coupled.vars = [0, 1] := by decide +kernel
  have hcovers : Assignment.Covers .spin (coupled.vars ++ coupled.vars) [(0, -1), (1, -1)] := by
    intro v hv
    rw [List.mem_append, or_self, hvars] at hv
    obtain rfl | rfl : v = 0 ∨ v = 1 := by simpa using hv
    · exact ⟨-1, rfl, rfl⟩
    · exact ⟨-1, rfl, rfl⟩
  obtain ⟨u, v, hu, hv, -, -, hmul, -, -, -, -, hpow⟩ :=
    value_arithmetic wellFormed_coupled wellFormed_coupled (.number 0) 3 hcovers
  have hvalue : coupled.value [(0, -1), (1, -1)] = .ok (.param "k" - 1) := by decide +kernel
  rw [hvalue] at hu hv
  obtain rfl := Except.ok.inj hu
  obtain rfl := Except.ok.inj hv
  exact ⟨hmul, hpow⟩

end PseudoBoolean.Polynomial

import PseudoBoolean.Proofs.UnresolvedDegree

/-!
# Penalties keep parameters without a value

The coefficients of a document are numbers and single parameters. What becomes of them before the square
of a penalty is taken leaves every parameter alone in its monomial, and all with the same sign (`Linear`).
So the numbers of the products of two parameters in the square are at least one (`Squared`), and nothing of
it is lost under a positive weight and a substitution by numbers: if a parameter without a value occurs in
the polynomial of a penalty, it occurs in the objective (`has_penalty`, `has_substitute`).
-/

namespace PseudoBoolean

/-- A number from one on, times the sign. -/
def Number.IsSigned (sign : ℚ) (x : Number) : Prop :=
  ∃ q, 1 ≤ q ∧ x = .exact (sign * q)

/-! ## Single parameters and their products -/

namespace Monomial

open Coefficient

variable {values : Table String Coefficient} {m : Monomial} {x : Number} {sign : ℚ}

/-- Every monomial is a constant or a single parameter with a number of the sign. -/
def Linear (sign : ℚ) (m : Monomial) (x : Number) : Prop :=
  m ≠ [] → ∃ name, m = [⟨name, 1⟩] ∧ x.IsSigned sign

/-- Products of parameters without a value have numbers from one on. -/
def Squared (values : Table String Coefficient) (m : Monomial) (x : Number) : Prop :=
  m.Squares values → m.IsUnresolved values ∧ x.IsLarge

/-- No parameter occurs in the constant monomial. -/
theorem not_occurs_nil : ¬ Occurs values [] := by simp [Occurs]

/-- A single parameter has degree one if it has no value. -/
theorem unresolvedDegree_param (name : String) : unresolvedDegree values [⟨name, 1⟩] =
    if values.contains name then 0 else 1 := by
  simp [Power.unresolvedExponent]

/-- The degree of a linear monomial is at most one. -/
theorem Linear.unresolvedDegree_le (h : Linear sign m x) (values : Table String Coefficient) :
    m.unresolvedDegree values ≤ 1 := by
  by_cases hm : m = []
  · simp [hm]
  · obtain ⟨name, rfl, -⟩ := h hm
    rw [unresolvedDegree_param]
    split <;> omega

/-- A linear monomial is no square. -/
theorem Linear.not_squares (h : Linear sign m x) : ¬ m.Squares values := by
  have := h.unresolvedDegree_le values
  rw [Squares]
  omega

/-- Where a parameter without a value occurs, it is all of the monomial, and the number has the sign. -/
theorem Linear.of_occurs (h : Linear sign m x) (hm : m.Occurs values) :
    m.IsUnresolved values ∧ x.IsSigned sign := by
  obtain ⟨name, rfl, hx⟩ := h fun hnil => not_occurs_nil (hnil ▸ hm)
  refine ⟨List.forall_mem_singleton.mpr (Bool.eq_false_of_not_eq_true fun hname => ?_), hx⟩
  rw [Occurs, unresolvedDegree_param, if_pos hname] at hm
  omega

/-- Numbers of one sign do not cancel. -/
theorem persistent_linear (values : Table String Coefficient) (hsign : sign ≠ 0) :
    PersistentBesideConstants (Linear sign) (Occurs values) where
  add := by
    intro m x y hx hy hm
    obtain ⟨name, rfl, p, hp, rfl⟩ := hx hm
    obtain ⟨-, -, q, hq, rfl⟩ := hy hm
    exact ⟨name, rfl, p + q, by linarith, congrArg Number.exact (mul_add _ _ _).symm⟩
  ne_zero := by
    intro m x hm hx
    obtain ⟨-, q, hq, rfl⟩ := hx.of_occurs hm
    have hne : sign * q ≠ 0 := mul_ne_zero hsign (by linarith)
    exact Bool.eq_false_of_not_eq_true fun h0 => hne (Number.isZero_exact.mp h0)
  constant := fun _ h => (h rfl).elim
  not_constant := not_occurs_nil

/-- The negative has the other sign. -/
theorem Linear.neg (h : Linear sign m x) : Linear (-sign) m (-x) := by
  intro hm
  obtain ⟨name, rfl, q, hq, rfl⟩ := h hm
  exact ⟨name, rfl, q, hq, congrArg Number.exact (neg_mul _ _).symm⟩

/-- Positive numbers in front of squares do not cancel. -/
theorem persistent_squared : PersistentBesideConstants (Squared values) (Squares values) where
  add := fun hx hy hm => ⟨(hx hm).1, (hx hm).2.add (hy hm).2⟩
  ne_zero := fun hm hx => Number.IsPositive.isZero_eq_false (.inl (hx hm).2)
  constant := fun _ h => (not_squares_nil h).elim
  not_constant := not_squares_nil

/-- Numbers of the same sign have a positive product. -/
theorem multiplies_linear (values : Table String Coefficient) (hsign : sign * sign = 1) :
    Multiplies (Linear sign) (Linear sign) (Squared values) where
  mul := by
    intro m x m' y hx hy hsquares
    have hle := hx.unresolvedDegree_le values
    have hle' := hy.unresolvedDegree_le values
    rw [Squares, unresolvedDegree_mul] at hsquares
    obtain ⟨hm, p, hp, rfl⟩ := hx.of_occurs (show 1 ≤ m.unresolvedDegree values by omega)
    obtain ⟨hm', q, hq, rfl⟩ := hy.of_occurs (show 1 ≤ m'.unresolvedDegree values by omega)
    have hproduct : sign * p * (sign * q) = p * q := by rw [mul_mul_mul_comm, hsign, one_mul]
    exact ⟨hm.mul hm', p * q, one_le_mul_of_one_le_of_one_le hp hq, congrArg Number.exact hproduct⟩
  right := fun _ _ _ hx _ hsquares => (hx.not_squares hsquares).elim
  left := fun _ _ _ hx _ hsquares => (hx.not_squares hsquares).elim

/-- The first factor of a power, which is the constant one. -/
def OfUnit (m : Monomial) (x : Number) : Prop :=
  m = [] ∧ x.IsLarge

/-- A factor one does not change a square. -/
theorem multiplies_unit : Multiplies OfUnit (Squared values) (Squared values) where
  mul := by
    rintro _ x m y ⟨rfl, hx⟩ hy hsquares
    rw [Squares, unresolvedDegree_mul, unresolvedDegree_nil, zero_add] at hsquares
    exact ⟨IsUnresolved.mul (by simp [IsUnresolved]) (hy hsquares).1, hx.mul (hy hsquares).2⟩
  right := by
    rintro _ x k ⟨rfl, -⟩ - hsquares
    exact (not_squares_nil hsquares).elim
  left := fun _ _ _ hx hk hsquares => ⟨(hx hsquares).1, (hx hsquares).2.mul hk.2⟩

/-- What a weight is made of: a positive number, or the name of one. -/
def OfWeight (values : Table String Coefficient) (m : Monomial) (x : Number) : Prop :=
  m = [] ∧ x.IsPositive ∨ ∃ name, m = [⟨name, 1⟩] ∧ IsWeightName values name ∧ x.IsLarge

/-- A weight adds nothing to the degree. -/
theorem unresolvedDegree_of_ofWeight (h : OfWeight values m x) : m.unresolvedDegree values = 0 := by
  rcases h with ⟨rfl, -⟩ | ⟨name, rfl, hname, -⟩
  · rfl
  · rw [unresolvedDegree_param, if_pos hname.contains]

/-- Squares that are multiplied by a weight are weighted. -/
theorem multiplies_weight : Multiplies (Squared values) (OfWeight values) (Weighted values) where
  mul := by
    intro m x m' y hx hy hsquares
    rw [Squares, unresolvedDegree_mul, unresolvedDegree_of_ofWeight hy, add_zero] at hsquares
    obtain ⟨hm, hx⟩ := hx hsquares
    rcases hy with ⟨rfl, hy⟩ | ⟨name, rfl, hname, hy⟩
    · exact .inl ⟨hm, hx.mul_isPositive hy⟩
    · exact .inr ⟨hasWeight_mulPower hm hname, hx.mul hy⟩
  right := by
    rintro m x k hx (⟨-, hk⟩ | ⟨name, hnil, -⟩) hsquares
    · exact .inl ⟨(hx hsquares).1, (hx hsquares).2.mul_isPositive hk⟩
    · cases hnil
  left := by
    intro m x k hx _ hsquares
    rw [Squares, unresolvedDegree_of_ofWeight hx] at hsquares
    omega

end Monomial

/-- A positive number, or the name of one under the values that parameters are given. -/
def Coefficient.IsWeight (values : Table String Coefficient) (c : Coefficient) : Prop :=
  (∃ x : Number, c = .num x ∧ x.IsPositive) ∨ ∃ name, c = .param name ∧ Monomial.IsWeightName values name

/-- The monomials of a weight. -/
theorem Coefficient.IsWeight.every {values : Table String Coefficient} {c : Coefficient}
    (h : c.IsWeight values) : c.Every (Monomial.OfWeight values) := by
  rcases h with ⟨x, rfl, hx⟩ | ⟨name, rfl, hname⟩
  · intro e he
    obtain ⟨hm, hnumber⟩ := Symbolic.every_const
      (P := fun m x => m = [] ∧ Number.IsPositive x) (H := fun _ => False)
      ⟨fun hx hy => ⟨hx.1, hx.2.add hy.2⟩, False.elim⟩ ⟨rfl, hx⟩ e he
    exact .inl ⟨hm, hnumber⟩
  · exact Symbolic.every_param.mpr (.inr ⟨name, rfl, hname, Number.isLarge_one⟩)

/-- A coefficient of a document: a number or a parameter. -/
def Coefficient.IsSingle (c : Coefficient) : Prop :=
  (∃ x, c = .num x) ∨ ∃ name, c = .param name

/-- The monomials of a number or a parameter are linear with a positive sign. -/
theorem Coefficient.IsSingle.every {c : Coefficient} (h : c.IsSingle) : c.Every (Monomial.Linear 1) := by
  rcases h with ⟨x, rfl⟩ | ⟨name, rfl⟩
  · exact every_num (Monomial.persistent_linear [] one_ne_zero) x
  · exact Symbolic.every_param.mpr fun _ => ⟨name, rfl, 1, le_rfl, by rw [mul_one]; rfl⟩

/-! ## Polynomials -/

namespace Polynomial

open Monomial

variable {d : Domain} {V : Type} [Variable V] {values : Table String Coefficient}
  {p q : Polynomial d V} {weight : Coefficient} {sign : ℚ}

/-- A polynomial from numbers and parameters is linear with a positive sign. -/
theorem every_ofTerms {entries : List (List V × Coefficient)} (h : ∀ e ∈ entries, e.2.IsSingle) :
    (ofTerms entries : Polynomial d V).Every (Linear 1) :=
  List.foldlRecOn (motive := (Every (Linear 1) ·)) entries _ every_empty fun _ hp e he =>
    hp.accumulate (persistent_linear [] one_ne_zero) (h e he).every

/-- The negative of a linear polynomial has the other sign throughout. -/
theorem Every.neg (hsign : sign ≠ 0) (hp : p.Every (Linear sign)) : (-p).Every (Linear (-sign)) :=
  every_mapCoefficients (persistent_linear [] (neg_ne_zero.mpr hsign)) fun e he =>
    Coefficient.Every.neg (persistent_linear [] (neg_ne_zero.mpr hsign)) (hp e he)
      fun _ _ => Linear.neg

/-- The negative keeps the parameters that occur. -/
theorem Has.neg (hsign : sign ≠ 0) (hp : p.Every (Linear sign)) (h : p.Has (Occurs values)) :
    (-p).Has (Occurs values) := by
  have hnegated := persistent_linear values (neg_ne_zero.mpr hsign)
  obtain ⟨e, he, hoccurs⟩ := h
  exact has_mapCoefficients hnegated
    (fun e he => Coefficient.Every.neg hnegated (hp e he) fun _ _ => Linear.neg)
    ⟨e, he, hoccurs.neg hnegated (hp e he) fun _ _ => Linear.neg⟩

/-! ### Penalties -/

/-- The square of a polynomial is computed as a product with the constant one. -/
theorem pow_two_eq (p : Polynomial d V) : p.pow 2 = p.cleared.addConstant 1 * (p * p) := by
  rw [pow, powLoop, if_neg (by decide)]
  simp only [show ¬ 2 % 2 = 1 by decide, show ¬ 2 / 2 = 0 by decide, if_false]
  rw [powLoop, if_neg (by decide)]
  rfl

/-- The power loop starts with the constant one. -/
theorem terms_addConstant_cleared (p : Polynomial d V) :
    (p.cleared.addConstant 1).terms = [([], 1)] := rfl

/-- All monomials of that constant are the unit. -/
theorem every_unit (p : Polynomial d V) : (p.cleared.addConstant 1).Every OfUnit := by
  rw [Every, terms_addConstant_cleared]
  refine List.forall_mem_singleton.mpr (Symbolic.every_const (H := fun _ => False) ?_ ?_)
  · exact ⟨fun hx hy => ⟨hx.1, hx.2.add hy.2⟩, False.elim⟩
  · exact ⟨rfl, Number.isLarge_one⟩

/-- In the square of a linear polynomial the numbers of all squares are positive. -/
theorem every_pow_two (values : Table String Coefficient) (hsign : sign * sign = 1)
    (hp : p.Every (Linear sign)) :
    (p.pow 2).Every (Squared values) := by
  rw [pow_two_eq]
  exact (every_unit p).mul persistent_squared
    (hp.mul persistent_squared hp (multiplies_linear values hsign)) multiplies_unit

/-- A parameter without a value that occurs in a polynomial occurs in its square, in second degree. -/
theorem has_pow_two (hsign : sign * sign = 1) (hp : p.Every (Linear sign)) (h : p.Has (Occurs values)) :
    (p.pow 2).Has (Squares values) := by
  have hsquare := multiplies_linear values hsign
  obtain ⟨e, he, hoccurs⟩ := h
  obtain ⟨t, ht, hsquares⟩ : (p * p).Has (Squares values) := by
    refine has_mul persistent_squared hp hp hsquare ⟨e, he, e, he, ?_⟩
    refine Coefficient.Has.mul persistent_squared (hp e he) (hp e he) hsquare hoccurs hoccurs
      not_occurs_nil not_occurs_nil fun m m' hm hm' => ?_
    rw [Occurs] at hm hm'
    rw [Squares, unresolvedDegree_mul]
    omega
  have hproduct := hp.mul persistent_squared hp hsquare
  rw [pow_two_eq]
  refine has_mul persistent_squared (every_unit p) hproduct multiplies_unit
    ⟨([], 1), List.mem_singleton_self _, t, ht, ?_⟩
  exact hsquares.num_mul persistent_squared (every_unit p _ (List.mem_singleton_self _))
    (hproduct t ht) multiplies_unit (by decide) rfl

/-- A penalty is weighted throughout. -/
theorem every_penalty (hsign : sign * sign = 1) (hp : p.Every (Linear sign))
    (hweight : weight.IsWeight values) : ((p.pow 2).scale weight).Every (Weighted values) :=
  every_mapCoefficients persistent_weighted fun e he =>
    .mul persistent_weighted (every_pow_two values hsign hp e he) hweight.every multiplies_weight

/-- It occurs in the penalty, whatever the weight, in second degree. -/
theorem has_penalty (hsign : sign * sign = 1) (hp : p.Every (Linear sign))
    (hweight : weight.IsWeight values) (h : p.Has (Occurs values)) :
    ((p.pow 2).scale weight).Has (Squares values) := by
  have hpow := every_pow_two values hsign hp
  obtain ⟨e, he, hsquares⟩ := has_pow_two hsign hp h
  refine has_mapCoefficients persistent_weighted (fun e he =>
    .mul persistent_weighted (hpow e he) hweight.every multiplies_weight) ⟨e, he, ?_⟩
  rcases hweight with ⟨x, rfl, hx⟩ | ⟨name, rfl, hname⟩
  · exact hsquares.mul_num persistent_weighted (hpow e he) (Coefficient.IsWeight.every (.inl ⟨x, rfl, hx⟩))
      multiplies_weight hx.isZero_eq_false rfl
  · refine Coefficient.Has.mul (I := (· = [⟨name, 1⟩])) persistent_weighted (hpow e he)
      (Coefficient.IsWeight.every (.inr ⟨name, rfl, hname⟩)) multiplies_weight hsquares
      (Symbolic.has_param.mpr rfl) not_squares_nil (by simp) ?_
    rintro m _ hm rfl
    rw [Squares, unresolvedDegree_mul]
    exact Nat.le_add_right_of_le hm

/-! ### Substitution -/

/-- A square with a weight is not lost when the parameters get their values. -/
theorem has_substitute (hvalues : Coefficient.AreNumbers values) (hp : p.Every (Weighted values))
    (h : p.Has (Squares values)) : (p.substitute values).Has (Squares values) := by
  obtain ⟨e, he, hsquares⟩ := h
  exact has_mapCoefficients persistent_settled
    (fun e he => Coefficient.every_substitute hvalues (hp e he))
    ⟨e, he, Coefficient.has_substitute hvalues (hp e he) hsquares⟩

omit [Variable V] in
/-- The parameters of a coefficient are parameters of the polynomial. -/
theorem mem_params_of_mem {e : Term V × Coefficient} {name : String} (he : e ∈ p.terms)
    (hname : name ∈ e.2.params) : name ∈ p.params :=
  Table.mem_sortedSet.mpr (List.mem_flatMap.mpr ⟨e, he, hname⟩)

omit [Variable V] in
/-- Where there is a square of parameters, there are parameters. -/
theorem params_ne_nil_of_has (h : p.Has (Squares values)) : p.params ≠ [] := by
  obtain ⟨e, he, hsquares⟩ := h
  obtain ⟨s, hs, t, ht, hm⟩ := hsquares.exists_sym not_squares_nil
  obtain ⟨power, hpower⟩ := List.exists_mem_of_ne_nil t.1 fun hnil => not_squares_nil (hnil ▸ hm)
  have hname : power.param ∈ e.2.params := by
    rw [hs]
    exact Table.mem_sortedSet.mpr (List.mem_flatMap.mpr ⟨t, ht, List.mem_map_of_mem hpower⟩)
  exact List.ne_nil_of_mem (mem_params_of_mem he hname)

omit [Variable V] in
/-- A polynomial in which all monomials are constant has no parameters. -/
theorem params_eq_nil_of_every (h : p.Every fun m _ => m = []) : p.params = [] := by
  rw [List.eq_nil_iff_forall_not_mem]
  intro name hname
  obtain ⟨e, he, hname⟩ := List.mem_flatMap.mp (Table.mem_sortedSet.mp hname)
  have hcoefficient := h e he
  cases hc : e.2 with
  | num x =>
    rw [hc] at hname
    cases hname
  | sym s =>
    rw [hc] at hname hcoefficient
    obtain ⟨t, ht, hname⟩ := List.mem_flatMap.mp (Table.mem_sortedSet.mp hname)
    rw [hcoefficient t ht] at hname
    cases hname

omit [Variable V] in
/-- If no parameter without a value occurs, those that occur have one. -/
theorem contains_of_not_has (hp : p.Every (Linear sign)) (h : ¬ p.Has (Occurs values)) :
    p.Every fun m _ => ∀ power ∈ m, values.contains power.param = true := by
  intro e he t ht power hpower
  by_contra hvalue
  obtain ⟨name, hm, -⟩ := hp e he t ht (List.ne_nil_of_mem hpower)
  rw [hm, List.mem_singleton] at hpower
  subst hpower
  refine h ⟨e, he, t, ht, ?_⟩
  rw [Occurs, hm, unresolvedDegree_param, if_neg hvalue]

omit [Variable V] in
/-- A linear polynomial with parameters has a monomial in which one occurs. -/
theorem has_of_params (hp : p.Every (Linear sign)) (h : p.params ≠ []) : p.Has (Occurs []) := by
  by_contra hnone
  refine h (params_eq_nil_of_every ((contains_of_not_has hp hnone).mono fun m _ hm => ?_))
  cases m with
  | nil => rfl
  | cons power m => cases hm power List.mem_cons_self

/-- A polynomial has parameters after substitution only if one without a value occurs in it. -/
theorem has_of_params_substitute (hvalues : Coefficient.AreNumbers values)
    (hp : p.Every (Linear sign)) (h : (p.substitute values).params ≠ []) : p.Has (Occurs values) := by
  by_contra hnone
  refine h (params_eq_nil_of_every (every_mapCoefficients
    ⟨Symbolic.persistent_monomials _, fun _ => rfl, id⟩ fun e he =>
      Coefficient.every_nil_substitute hvalues (contains_of_not_has hp hnone e he)))

end Polynomial

end PseudoBoolean

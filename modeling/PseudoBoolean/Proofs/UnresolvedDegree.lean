import PseudoBoolean.Proofs.ExactCoefficient
import PseudoBoolean.Proofs.Polynomial.Persistence
import PseudoBoolean.Proofs.PositiveNumber

/-!
# Parameters without a value

A substitution by numbers takes the parameters that have a value out of a monomial and leaves the others.
So the degree in the parameters without a value (`Monomial.unresolvedDegree`) is that of the result as well
(`Coefficient.ofDegree_substitutedProduct`), and monomials of different degree stay apart. What is lost is
only what cancels or is rounded to zero. A monomial of degree two or more is kept if its number is positive,
or is at least one and multiplied by one positive value (`Weighted`): all numbers that are added up in its
place afterwards are positive (`Coefficient.has_substitute`).
-/

namespace PseudoBoolean

open Std

/-! ## The degree of a monomial -/

/-- The exponent of a parameter that has no value. -/
def Power.unresolvedExponent (values : Table String Coefficient) (p : Power) : ℕ :=
  if values.contains p.param then 0 else p.exponent

namespace Monomial

variable {values : Table String Coefficient} {m n : Monomial} {p : Power} {name : String} {x : Number}

/-- The degree in the parameters that have no value. -/
def unresolvedDegree (values : Table String Coefficient) (m : Monomial) : ℕ :=
  (m.map (·.unresolvedExponent values)).sum

/-- No parameter has a value. -/
def IsUnresolved (values : Table String Coefficient) (m : Monomial) : Prop :=
  ∀ p ∈ m, values.contains p.param = false

@[simp]
theorem unresolvedDegree_nil : unresolvedDegree values [] = 0 := rfl

@[simp]
theorem unresolvedDegree_cons : unresolvedDegree values (p :: m) =
    p.unresolvedExponent values + unresolvedDegree values m := by
  simp [unresolvedDegree]

/-- One more power adds its exponent, if its parameter has no value. -/
theorem unresolvedDegree_mulPower : unresolvedDegree values (mulPower p m) =
    p.unresolvedExponent values + unresolvedDegree values m := by
  induction m with
  | nil => simp [mulPower]
  | cons q m ih =>
    rw [mulPower]
    split
    · simp
    · rename_i heq
      have hname : p.param = q.param := LawfulEqOrd.eq_of_compare heq
      simp only [unresolvedDegree_cons, Power.unresolvedExponent, hname]
      split <;> omega
    · rw [unresolvedDegree_cons, ih, unresolvedDegree_cons]
      omega

/-- The degrees of the factors add up. -/
theorem unresolvedDegree_mul : unresolvedDegree values (mul m n) =
    unresolvedDegree values m + unresolvedDegree values n := by
  rw [mul]
  induction n generalizing m with
  | nil => simp
  | cons p n ih =>
    rw [List.foldl_cons, ih, unresolvedDegree_mulPower, unresolvedDegree_cons]
    omega

/-- A product brings no parameters that its factors do not have. -/
theorem IsUnresolved.mul (hm : m.IsUnresolved values) (hn : n.IsUnresolved values) :
    (mul m n).IsUnresolved values :=
  List.foldlRecOn (motive := (IsUnresolved values ·)) n _ hm fun _ h p hp =>
    forall_mem_mulPower (P := fun name => values.contains name = false) (hn p hp) h

/-! ## Monomials that stand out -/

/-- The monomial contains a parameter without a value. -/
def Occurs (values : Table String Coefficient) (m : Monomial) : Prop :=
  1 ≤ m.unresolvedDegree values

/-- The monomial contains a square or a product of parameters without a value. -/
def Squares (values : Table String Coefficient) (m : Monomial) : Prop :=
  2 ≤ m.unresolvedDegree values

/-- A name that stands for a positive number. -/
def IsWeightName (values : Table String Coefficient) (name : String) : Prop :=
  ∃ x : Number, values.get? name = some (.num x) ∧ x.IsPositive

/-- One of the parameters stands for a positive number, and the others have no value. -/
def HasWeight (values : Table String Coefficient) (m : Monomial) : Prop :=
  ∃ m₁ name m₂, m = m₁ ++ ⟨name, 1⟩ :: m₂ ∧ IsUnresolved values m₁ ∧ IsUnresolved values m₂ ∧
    IsWeightName values name

/-- The name of a weight has a value. -/
theorem IsWeightName.contains (h : IsWeightName values name) : values.contains name = true := by
  obtain ⟨x, hx, -⟩ := h
  rw [Table.contains, hx]
  rfl

/-- A monomial with a weight contains a parameter with a value. -/
theorem not_isUnresolved_of_hasWeight (h : m.HasWeight values) : ¬ m.IsUnresolved values := by
  obtain ⟨m₁, name, m₂, rfl, -, -, hname⟩ := h
  intro hunresolved
  have hnone := hunresolved ⟨name, 1⟩ (by simp)
  rw [hname.contains] at hnone
  cases hnone

/-- A parameter with a value takes a place of its own between those without. -/
theorem hasWeight_mulPower (hm : m.IsUnresolved values) (hname : IsWeightName values name) :
    (mulPower ⟨name, 1⟩ m).HasWeight values := by
  induction m with
  | nil => exact ⟨[], name, [], rfl, by simp [IsUnresolved], by simp [IsUnresolved], hname⟩
  | cons q m ih =>
    obtain ⟨hq, htail⟩ := List.forall_mem_cons.mp hm
    rw [mulPower]
    split
    · exact ⟨[], name, q :: m, rfl, by simp [IsUnresolved], hm, hname⟩
    · rename_i heq
      rw [← LawfulEqOrd.eq_of_compare heq, hname.contains] at hq
      cases hq
    · obtain ⟨m₁, name', m₂, hm', hm₁, hm₂, hname'⟩ := ih htail
      exact ⟨q :: m₁, name', m₂, congrArg (q :: ·) hm', List.forall_mem_cons.mpr ⟨hq, hm₁⟩, hm₂, hname'⟩

/-- The numbers of an objective with penalties: where a monomial has degree two or more, a weight is
multiplied in already, or is there as a parameter. -/
def Weighted (values : Table String Coefficient) (m : Monomial) (x : Number) : Prop :=
  m.Squares values →
    m.IsUnresolved values ∧ x.IsPositive ∨ m.HasWeight values ∧ x.IsLarge

/-- The numbers after substitution. -/
def Settled (values : Table String Coefficient) (m : Monomial) (x : Number) : Prop :=
  m.Squares values → x.IsPositive

/-- The constant monomial is no square. -/
theorem not_squares_nil : ¬ Squares values [] := by simp [Squares]

/-- Weighted numbers add up to weighted numbers, none of which is zero for a square. -/
theorem persistent_weighted : PersistentBesideConstants (Weighted values) (Squares values) where
  add := by
    intro m x y hx hy hm
    rcases hx hm with ⟨hunresolved, hx⟩ | ⟨hweight, hx⟩
    · rcases hy hm with ⟨-, hy⟩ | ⟨hweight, -⟩
      · exact .inl ⟨hunresolved, hx.add hy⟩
      · exact (not_isUnresolved_of_hasWeight hweight hunresolved).elim
    · rcases hy hm with ⟨hunresolved, -⟩ | ⟨-, hy⟩
      · exact (not_isUnresolved_of_hasWeight hweight hunresolved).elim
      · exact .inr ⟨hweight, hx.add hy⟩
  ne_zero := fun hm hx => (hx hm).elim (fun h => h.2.isZero_eq_false) fun h =>
    Number.IsPositive.isZero_eq_false (.inl h.2)
  constant := fun _ h => (not_squares_nil h).elim
  not_constant := not_squares_nil

/-- Settled numbers add up to settled numbers, none of which is zero for a square. -/
theorem persistent_settled : PersistentBesideConstants (Settled values) (Squares values) where
  add := fun hx hy hm => (hx hm).add (hy hm)
  ne_zero := fun hm hx => (hx hm).isZero_eq_false
  constant := fun _ h => (not_squares_nil h).elim
  not_constant := not_squares_nil

end Monomial

/-! ## Powers of what is put in -/

/-- A kind of numbers other than zero that sums and products with numbers from one on keep. -/
structure Number.IsSteady (Q : Number → Prop) : Prop where
  add : ∀ {x y : Number}, Q x → Q y → Q (x + y)
  mul_isLarge : ∀ {x y : Number}, Q x → y.IsLarge → Q (x * y)
  isZero_eq_false : ∀ {x : Number}, Q x → x.isZero = false

/-- Large numbers add up to large ones. -/
theorem Number.isSteady_isLarge : IsSteady IsLarge :=
  ⟨.add, .mul, fun h => IsPositive.isZero_eq_false (.inl h)⟩

theorem Number.isLarge_one : IsLarge 1 := ⟨1, le_rfl, rfl⟩

/-- Positive numbers add up to positive ones. -/
theorem Number.isSteady_isPositive : IsSteady IsPositive :=
  ⟨.add, .mul_isLarge, fun h => h.isZero_eq_false⟩

namespace Symbolic

variable {values : Table String Coefficient} {P Q R : Number → Prop} {s t : Symbolic} {i j : ℕ}
  {x : Number}

/-- The degree that all monomials have. -/
def OfDegree (values : Table String Coefficient) (i : ℕ) (s : Symbolic) : Prop :=
  s.Every fun m _ => m.unresolvedDegree values = i

/-- There are terms, and all have a number of a kind. -/
structure IsFull (Q : Number → Prop) (s : Symbolic) : Prop where
  numbers : s.Every fun _ => Q
  nonempty : s.Has fun _ => True

/-- A steady property of the numbers persists for all monomials. -/
theorem persistent_of_isSteady (hQ : Number.IsSteady Q) :
    Persistent (fun _ => Q) fun _ => True :=
  ⟨hQ.add, fun _ => hQ.isZero_eq_false⟩

/-- What does not depend on the numbers is kept in any case. -/
theorem persistent_monomials (A : Monomial → Prop) : Persistent (fun m _ => A m) fun _ => False :=
  ⟨fun h _ => h, False.elim⟩

/-- The degrees of factors whose monomials all have one degree add up. -/
theorem OfDegree.mul (hs : s.OfDegree values i) (ht : t.OfDegree values j) :
    (s * t).OfDegree values (i + j) :=
  Every.mul (persistent_monomials _) hs ht fun m _ m' _ hm hm' => by
    rw [Monomial.unresolvedDegree_mul, hm, hm']

/-- All monomials of a constant have degree zero. -/
theorem ofDegree_const (values : Table String Coefficient) (x : Number) : (const x).OfDegree values 0 :=
  every_const (persistent_monomials _) rfl

/-- The degree of a power is a multiple of that of its base. -/
theorem OfDegree.pow (hs : s.OfDegree values i) (n : ℕ) : (s.pow n).OfDegree values (i * n) := by
  rw [Symbolic.pow]
  split
  · rename_i hn
    rwa [hn, mul_one]
  · have hpower := isPowerLoop.graded (P := fun i s => OfDegree values i s) (n := n)
      (fun _ _ _ _ => OfDegree.mul) (ofDegree_const values 1) hs
    rwa [zero_add] at hpower

/-- A product of factors that are full is full. -/
theorem IsFull.mul (hR : Number.IsSteady R) (hs : s.IsFull P) (ht : t.IsFull Q)
    (h : ∀ x y, P x → Q y → R (x * y)) : (s * t).IsFull R where
  numbers := Every.mul (persistent_of_isSteady hR) hs.numbers ht.numbers fun _ _ _ _ => h _ _
  nonempty := Has.mul (persistent_of_isSteady hR) hs.numbers ht.numbers (fun _ _ _ _ => h _ _)
    hs.nonempty ht.nonempty fun _ _ _ _ => trivial

/-- A constant is full of its number. -/
theorem isFull_const (hQ : Number.IsSteady Q) (hx : Q x) : (const x).IsFull Q where
  numbers := every_const (persistent_of_isSteady hQ) hx
  nonempty := has_accumulate (persistent_of_isSteady hQ) every_zero hx (.inr trivial)

/-- A parameter is full of large numbers. -/
theorem isFull_param (name : String) : (param name).IsFull Number.IsLarge :=
  ⟨every_param.mpr Number.isLarge_one, has_param.mpr trivial⟩

/-- A power of a base that is full of large numbers is full of them. -/
theorem IsFull.pow (hs : s.IsFull Number.IsLarge) (n : ℕ) : (s.pow n).IsFull Number.IsLarge := by
  have hmul : ∀ a b : Symbolic, a.IsFull Number.IsLarge → b.IsFull Number.IsLarge →
      (a * b).IsFull Number.IsLarge := fun _ _ ha hb =>
    ha.mul Number.isSteady_isLarge hb fun _ _ => .mul
  rw [Symbolic.pow]
  split
  · exact hs
  · exact isPowerLoop.invariant (P := (IsFull Number.IsLarge ·)) hmul (fun b hb => hmul b b hb hb)
      (isFull_const Number.isSteady_isLarge Number.isLarge_one) hs

end Symbolic

/-! ## Substitution by numbers -/

namespace Coefficient

open Symbolic Monomial

variable {values : Table String Coefficient} {Q : Number → Prop} {s : Symbolic} {c : Coefficient}
  {m : Monomial} {i : ℕ}

/-- The product with a monomial in which the parameters are replaced. -/
def substitutedProduct (values : Table String Coefficient) (product : Symbolic) (m : Monomial) :
    Symbolic :=
  m.foldl (fun product p => product * (substituted values p.param).pow p.exponent) product

/-- A substitution adds up what becomes of each term. -/
theorem substitute_sym (s : Symbolic) : (sym s).substitute values =
    ofSymbolic (s.terms.foldl (fun out t => out + substitutedProduct values (.const t.2) t.1) .zero) :=
  rfl

/-- A parameter without a value stands for itself. -/
theorem substituted_unresolved {name : String} (h : values.contains name = false) :
    substituted values name = .param name := by
  rw [Table.contains, Option.isSome_eq_false_iff, Option.isNone_iff_eq_none] at h
  rw [substituted, h]

/-- A parameter whose value is a number stands for the constant. -/
theorem substituted_number {name : String} {x : Number} (h : values.get? name = some (.num x)) :
    substituted values name = .const x := by
  rw [substituted, h]
  rfl

/-- All values are numbers. -/
def AreNumbers (values : Table String Coefficient) : Prop :=
  ∀ e ∈ values, ∃ x, e.2 = .num x

/-- Where all values are numbers, a parameter with a value stands for a constant. -/
theorem AreNumbers.exists_substituted (hvalues : AreNumbers values) {name : String}
    (h : values.contains name = true) : ∃ x, substituted values name = .const x := by
  obtain ⟨v, hv⟩ := Option.isSome_iff_exists.mp h
  obtain ⟨x, rfl⟩ := hvalues _ (Table.mem_of_get?_eq_some hv)
  exact ⟨x, substituted_number hv⟩

/-- A power keeps the part of its degree that has no value. -/
theorem ofDegree_substituted (hvalues : AreNumbers values) (p : Power) :
    ((substituted values p.param).pow p.exponent).OfDegree values (p.unresolvedExponent values) := by
  rw [Power.unresolvedExponent]
  split
  · rename_i hp
    obtain ⟨x, hx⟩ := hvalues.exists_substituted hp
    rw [hx]
    simpa using (ofDegree_const values x).pow p.exponent
  · rename_i hp
    have hp := Bool.eq_false_of_not_eq_true hp
    have hparam : (Symbolic.param p.param).OfDegree values 1 :=
      every_param.mpr (by simp [Power.unresolvedExponent, hp])
    rw [substituted_unresolved hp]
    simpa using hparam.pow p.exponent

/-- The degree in the parameters without a value does not change. -/
theorem ofDegree_substitutedProduct (hvalues : AreNumbers values) (hs : s.OfDegree values i) :
    (substitutedProduct values s m).OfDegree values (i + m.unresolvedDegree values) := by
  induction m generalizing s i with
  | nil => exact hs
  | cons p m ih =>
    rw [unresolvedDegree_cons, ← add_assoc]
    exact ih (hs.mul (ofDegree_substituted hvalues p))

/-- Without values in the monomial the product stays full. -/
theorem isFull_substitutedProduct (hQ : Number.IsSteady Q) (hm : m.IsUnresolved values)
    (hs : s.IsFull Q) : (substitutedProduct values s m).IsFull Q := by
  refine List.foldlRecOn m _ hs fun s hs p hp => ?_
  rw [substituted_unresolved (hm p hp)]
  exact hs.mul hQ ((isFull_param p.param).pow p.exponent) fun _ _ => hQ.mul_isLarge

/-- The number is large up to the weight, and positive from there on. -/
theorem isFull_substitutedProduct_of_hasWeight (hm : m.HasWeight values)
    (hs : s.IsFull Number.IsLarge) : (substitutedProduct values s m).IsFull Number.IsPositive := by
  obtain ⟨m₁, name, m₂, rfl, hm₁, hm₂, x, hx, hpositive⟩ := hm
  have hfirst := isFull_substitutedProduct Number.isSteady_isLarge hm₁ hs
  have hweight : (substitutedProduct values s m₁ * (substituted values name).pow 1).IsFull
      Number.IsPositive := by
    rw [substituted_number hx]
    exact hfirst.mul Number.isSteady_isPositive (isFull_const Number.isSteady_isPositive hpositive)
      fun _ _ => Number.IsLarge.mul_isPositive
  rw [substitutedProduct, List.foldl_append, List.foldl_cons]
  exact isFull_substitutedProduct Number.isSteady_isPositive hm₂ hweight

/-- A term with a square or a product of parameters without a value becomes one, with a positive
number. -/
theorem isFull_of_weighted {x : Number} (hm : m.Squares values) (hx : Weighted values m x) :
    (substitutedProduct values (.const x) m).IsFull Number.IsPositive := by
  rcases hx hm with ⟨hunresolved, hx⟩ | ⟨hweight, hx⟩
  · exact isFull_substitutedProduct Number.isSteady_isPositive hunresolved
      (isFull_const Number.isSteady_isPositive hx)
  · exact isFull_substitutedProduct_of_hasWeight hweight (isFull_const Number.isSteady_isLarge hx)

section Weighted

variable (hvalues : AreNumbers values)

include hvalues

/-- A weighted term becomes settled. -/
theorem settled_substitutedProduct {x : Number} (hx : Weighted values m x) :
    (substitutedProduct values (.const x) m).Every (Settled values) := by
  have hdegree := ofDegree_substitutedProduct (m := m) hvalues (ofDegree_const values x)
  intro e he hsquares
  have hm : m.Squares values := by
    rw [Squares, hdegree e he, zero_add] at hsquares
    exact hsquares
  exact (isFull_of_weighted hm hx).numbers e he

/-- A substitution turns weighted coefficients into settled ones. -/
theorem every_substitute (hc : c.Every (Weighted values)) : (c.substitute values).Every (Settled values) := by
  cases c with
  | num x => exact every_num persistent_settled x
  | sym s =>
    rw [substitute_sym]
    refine every_ofSymbolic persistent_settled (List.foldlRecOn s.terms _ every_zero ?_)
    exact fun out hout t ht => hout.add persistent_settled.toPersistent
      (settled_substitutedProduct hvalues (hc t ht))

/-- Products of parameters without a value remain in a coefficient after substitution. -/
theorem has_substitute (hc : c.Every (Weighted values)) (h : c.Has (Squares values)) :
    (c.substitute values).Has (Squares values) := by
  obtain ⟨s, rfl, e, he, hsquares⟩ := h.exists_sym not_squares_nil
  rw [substitute_sym]
  refine has_ofSymbolic (foldl_of_exists (K := (Symbolic.Every (Settled values) ·))
    (B := fun t => t.1.Squares values) (fun out t ht hout => ?_) (fun out t ht hout h => ?_)
    every_zero (.inr ⟨e, he, hsquares⟩)) not_squares_nil
  · exact hout.add persistent_settled.toPersistent (settled_substitutedProduct hvalues (hc t ht))
  · have hterm := settled_substitutedProduct hvalues (hc t ht)
    refine Symbolic.has_add persistent_settled.toPersistent hout hterm (h.imp_right fun hm => ?_)
    -- the product has a term, and all its terms have the degree of the monomial
    have hdegree := ofDegree_substitutedProduct (m := t.1) hvalues (ofDegree_const values t.2)
    refine (isFull_of_weighted hm (hc t ht)).nonempty.and_every hdegree fun m' _ _ hm' => ?_
    rwa [Squares, hm', zero_add]

/-! ## Parameters that have a value -/

/-- A coefficient whose parameters all have a value becomes constant. -/
theorem every_nil_substitute
    (hc : c.Every fun m _ => ∀ p ∈ m, values.contains p.param = true) :
    (c.substitute values).Every fun m _ => m = [] := by
  have hnil : PersistentBesideConstants (fun m _ => m = []) fun _ => False :=
    ⟨persistent_monomials _, fun _ => rfl, id⟩
  have hmul : ∀ a b : Symbolic, a.Every (fun m _ => m = []) → b.Every (fun m _ => m = []) →
      (a * b).Every fun m _ => m = [] := fun a b ha hb =>
    Symbolic.Every.mul hnil.toPersistent ha hb fun m _ m' _ hm hm' => by
      rw [hm, hm']
      rfl
  have hconst : ∀ x, (Symbolic.const x).Every fun m _ => m = [] :=
    fun x => every_const hnil.toPersistent rfl
  cases c with
  | num x => exact every_num hnil x
  | sym s =>
    rw [substitute_sym]
    refine every_ofSymbolic hnil (List.foldlRecOn s.terms _ every_zero fun out hout t ht => ?_)
    refine hout.add hnil.toPersistent (List.foldlRecOn t.1 _ (hconst t.2) fun product hproduct p hp => ?_)
    obtain ⟨x, hx⟩ := hvalues.exists_substituted (hc t ht p hp)
    refine hmul _ _ hproduct ?_
    rw [hx, Symbolic.pow]
    split
    · exact hconst x
    · exact isPowerLoop.invariant (P := (Symbolic.Every (fun m _ => m = []) ·)) hmul
        (fun b hb => hmul b b hb hb) (hconst 1) (hconst x)

end Weighted

end Coefficient

end PseudoBoolean

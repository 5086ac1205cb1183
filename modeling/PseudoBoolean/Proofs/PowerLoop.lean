import Mathlib.Algebra.Group.Basic
import Mathlib.Tactic.Common

/-!
# Repeated squaring

Powers of polynomials in parameters and of polynomials over binary or spin variables are computed by the
same loop, which goes through the binary digits of the exponent and squares the base at each of them.
`IsPowerLoop` is the equation of that loop. From it follows once for both, by induction on the exponent,
what the loop keeps (`IsPowerLoop.invariant`), in which degree its result is (`IsPowerLoop.graded`), and
which value it computes (`IsPowerLoop.eval_eq`). This is also the value of the product that multiplies by
the base as often as the exponent says (`eval_iterate_mul`).
-/

namespace PseudoBoolean

variable {α : Type} {mul : α → α → α} {loop : α → α → ℕ → α} {acc base : α} {n : ℕ}

/-- The equation of a loop that multiplies `acc` by a power of `base`. -/
def IsPowerLoop (mul : α → α → α) (loop : α → α → ℕ → α) : Prop :=
  ∀ acc base n, loop acc base n =
    if n = 0 then acc
    else
      let acc := if n % 2 = 1 then mul acc base else acc
      if n / 2 = 0 then acc else loop acc (mul base base) (n / 2)

/-- What a multiplication by a base keeps is kept by the loop. The base may be subject to another
condition, which has to pass to its square. -/
theorem IsPowerLoop.invariant (hloop : IsPowerLoop mul loop) {P Q : α → Prop}
    (hmul : ∀ a b, P a → Q b → P (mul a b)) (hsquare : ∀ b, Q b → Q (mul b b)) (hacc : P acc)
    (hbase : Q base) : P (loop acc base n) := by
  induction n using Nat.strongRecOn generalizing acc base with
  | ind n ih =>
    have hstep : P (if n % 2 = 1 then mul acc base else acc) := by
      split
      · exact hmul acc base hacc hbase
      · exact hacc
    rw [hloop]
    split
    · exact hacc
    simp only
    split
    · exact hstep
    · exact ih (n / 2) (by omega) hstep (hsquare base hbase)

/-- A degree that adds up in products is multiplied by the exponent. -/
theorem IsPowerLoop.graded (hloop : IsPowerLoop mul loop) {P : ℕ → α → Prop} {i j : ℕ}
    (hmul : ∀ i j a b, P i a → P j b → P (i + j) (mul a b)) (hacc : P i acc) (hbase : P j base) :
    P (i + j * n) (loop acc base n) := by
  induction n using Nat.strongRecOn generalizing acc base i j with
  | ind n ih =>
    -- the accumulator takes the factor of the last binary digit
    have hstep : P (i + j * (n % 2)) (if n % 2 = 1 then mul acc base else acc) := by
      rcases Nat.mod_two_eq_zero_or_one n with h | h
      · simpa [h] using hacc
      · simpa [h] using hmul i j acc base hacc hbase
    rw [hloop]
    split
    · rename_i hn
      rwa [hn, Nat.mul_zero, Nat.add_zero]
    simp only
    split
    · rename_i h0
      have hdegree : i + j * n = i + j * (n % 2) := by rw [Nat.mod_eq_of_lt (by omega)]
      exact hdegree ▸ hstep
    · have hdegree : i + j * n = i + j * (n % 2) + (j + j) * (n / 2) := by
        rw [← Nat.two_mul, Nat.mul_comm 2 j, Nat.mul_assoc, Nat.add_assoc, ← Nat.mul_add,
          Nat.mod_add_div]
      rw [hdegree]
      exact ih (n / 2) (by omega) hstep (hmul j j base base hbase hbase)

/-- A valuation that takes products to products takes the loop to the power. -/
theorem IsPowerLoop.eval_eq (hloop : IsPowerLoop mul loop) {M : Type} [Monoid M] {P : α → Prop}
    {f : α → M} (hmul : ∀ a b, P a → P b → P (mul a b))
    (heval : ∀ a b, P a → P b → f (mul a b) = f a * f b) (hacc : P acc) (hbase : P base) :
    f (loop acc base n) = f acc * f base ^ n := by
  induction n using Nat.strongRecOn generalizing acc base with
  | ind n ih =>
    -- the accumulator takes the factor of the last binary digit
    have hstep : P (if n % 2 = 1 then mul acc base else acc) ∧
        f (if n % 2 = 1 then mul acc base else acc) = f acc * f base ^ (n % 2) := by
      rcases Nat.mod_two_eq_zero_or_one n with h | h
      · simp [h, hacc]
      · simp only [h, if_true, pow_one]
        exact ⟨hmul acc base hacc hbase, heval acc base hacc hbase⟩
    obtain ⟨hstep, hstepEval⟩ := hstep
    rw [hloop]
    split
    · rename_i hn
      rw [hn, pow_zero, mul_one]
    simp only
    split
    · rename_i h0
      have hn1 : n % 2 = n := by omega
      rw [hstepEval, hn1]
    · rw [ih (n / 2) (by omega) hstep (hmul base base hbase hbase), hstepEval,
        heval base base hbase hbase, mul_assoc, ← pow_two, ← pow_mul, ← pow_add, Nat.mod_add_div]

/-- The repeated product by the base computes the same value. -/
theorem eval_iterate_mul {M : Type} [Monoid M] {P : α → Prop} {f : α → M}
    (hmul : ∀ a b, P a → P b → P (mul a b))
    (heval : ∀ a b, P a → P b → f (mul a b) = f a * f b) (hacc : P acc) (hbase : P base) (n : ℕ) :
    f ((mul · base)^[n] acc) = f acc * f base ^ n := by
  induction n with
  | zero => rw [Function.iterate_zero_apply, pow_zero, mul_one]
  | succ n ih =>
    have hproduct : P ((mul · base)^[n] acc) :=
      Function.Iterate.rec P hacc (fun a ha => hmul a base ha hbase) n
    rw [Function.iterate_succ_apply', heval _ base hproduct hbase, ih, pow_succ, mul_assoc]

end PseudoBoolean

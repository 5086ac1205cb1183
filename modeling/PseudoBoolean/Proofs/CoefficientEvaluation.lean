import PseudoBoolean.Proofs.ExactCoefficient

/-!
# Evaluation of coefficients

The operations on coefficients from exact numbers and parameters are those of the rational numbers under
every valuation of the parameters (`Coefficient.evaluation_homomorphic`). A substitution replaces all
parameters at once: its value is that of the old coefficient at `rebound values ρ`, where a parameter that
is replaced has the value of its replacement. So the replacements may refer to each other, and to the
parameters that they replace. Where they are numbers for all parameters that occur, the substitution leads
to the value itself, as a number (`Coefficient.Normal.substitute_numbers`).

Equality of coefficients, the test for zero and the form that the coefficient is stored in decide the
corresponding properties of these values (`Coefficient.comparison_decides`). That is so for exponents of any
size; but a power can have an exponent that the program does not keep, and what is left of it in a word that
wraps around is decided wrongly (`Coefficient.pow_exceeds_word`).
-/

namespace PseudoBoolean

open Std

/-! ## Numbers -/

namespace Number

variable {a b : Number}

/-- The power of an exact number is the power of its value. -/
theorem rat_pow (ha : a.isExact) (n : ℕ) : (a.pow n).rat = a.rat ^ n := by
  obtain ⟨q, rfl⟩ := isExact_iff.mp ha
  rfl

/-- The quotient of exact numbers, of which the second is not zero. -/
theorem div?_exact {p q : ℚ} (hq : q ≠ 0) : div? (.exact p) (.exact q) = some (.exact (p / q)) := by
  rw [div?, if_neg (isZero_exact.not.mpr hq)]
  rfl

/-- Exact numbers are compared by what they are. -/
theorem valueEq_iff (ha : a.isExact) (hb : b.isExact) : a.valueEq b ↔ a = b := by
  obtain ⟨p, rfl⟩ := isExact_iff.mp ha
  obtain ⟨q, rfl⟩ := isExact_iff.mp hb
  simp [valueEq]

end Number

/-! ## Polynomials in parameters -/

/-- A monomial depends on the values of its own parameters only. -/
theorem Monomial.eval_congr {ρ ρ' : String → ℚ} {m : Monomial} (h : ∀ p ∈ m, ρ p.param = ρ' p.param) :
    m.eval ρ = m.eval ρ' :=
  congrArg List.prod (List.map_congr_left fun p hp => by rw [h p hp])

namespace Symbolic

variable {s t : Symbolic} {ρ ρ' : String → ℚ}

/-- The power of a symbolic value is evaluated as the power. -/
theorem eval_pow (hs : s.Normal) (n : ℕ) : eval ρ (s.pow n) = eval ρ s ^ n := by
  rw [Symbolic.pow]
  split
  · rename_i hn
    rw [hn, pow_one]
  · have hone : eval ρ (const 1) = 1 := eval_const rfl
    rw [isPowerLoop.eval_eq (P := Normal) (fun _ _ => Normal.mul) (fun _ _ => eval_mul)
      (Normal.const rfl) hs, hone, one_mul]

/-- A symbolic value depends on the values of its own parameters only. -/
theorem eval_congr (h : ∀ x ∈ s.params, ρ x = ρ' x) : eval ρ s = eval ρ' s := by
  refine Table.total_congr fun e he => ?_
  rw [Monomial.eval_congr fun p hp => h p.param ?_]
  rw [params, Table.mem_sortedSet]
  exact List.mem_flatMap.mpr ⟨e, he, List.mem_map_of_mem hp⟩

theorem valueEq_iff (hs : s.Normal) (ht : t.Normal) : s.valueEq t ↔ s = t := by
  have hentry : ∀ e ∈ s.terms, ∀ e' ∈ t.terms, (e.1 == e'.1 && e.2.valueEq e'.2) = true ↔ e = e' := by
    intro e he e' he'
    rw [Bool.and_eq_true, beq_iff_eq, Number.valueEq_iff (hs.exact e he).2 (ht.exact e' he').2,
      Prod.ext_iff]
  obtain ⟨l⟩ := s
  obtain ⟨l'⟩ := t
  rw [valueEq, Symbolic.mk.injEq]
  exact entrywise_iff_eq hentry

end Symbolic

/-! ## Powers and quotients -/

namespace Coefficient

variable {a b c : Coefficient} {ρ ρ' : String → ℚ}

/-- The power of a coefficient is evaluated as the power. -/
theorem eval_pow (ha : a.Normal) (n : ℕ) : eval ρ (a.pow n) = eval ρ a ^ n := by
  cases a with
  | num x => exact Number.rat_pow ha n
  | sym s => exact (eval_ofSymbolic (ha.1.pow n)).trans (Symbolic.eval_pow ha.1 n)

/-- Division by a number other than zero has a result, and its value is the quotient. -/
theorem exists_div_eq (ha : a.Normal) {q : ℚ} (hq : q ≠ 0) :
    ∃ c, a.div (.num (.exact q)) = .ok c ∧ ∀ ρ, eval ρ c = eval ρ a / q := by
  cases a with
  | num x =>
    obtain ⟨p, rfl⟩ := Number.isExact_iff.mp ha
    refine ⟨.num (.exact (p / q)), ?_, fun ρ => rfl⟩
    show (ofQuotient (Number.div? (.exact p) (.exact q)) >>= fun r => .ok (num r)) = _
    rw [Number.div?_exact hq]
    rfl
  | sym s =>
    have hrecip : Number.recip? (.exact q) = some (.exact (1 / q)) := Number.div?_exact hq
    refine ⟨ofSymbolic (s.scale (.exact (1 / q))), ?_, fun ρ => ?_⟩
    · show (ofQuotient (Number.recip? (.exact q)) >>= fun r => .ok (ofSymbolic (s.scale r))) = _
      rw [hrecip]
      rfl
    · rw [eval_ofSymbolic (ha.1.scale rfl), Symbolic.eval_scale ha.1 rfl, Number.rat_exact,
        mul_one_div]
      rfl

/-! ## Substitution -/

section Substitute

variable {values : Table String Coefficient}

/-- The valuation that evaluates every replaced parameter by its replacement. -/
def rebound (values : Table String Coefficient) (ρ : String → ℚ) (name : String) : ℚ :=
  match values.get? name with
  | some v => v.eval ρ
  | none => ρ name

/-- A parameter with a value given to it evaluates as this value does. -/
theorem eval_substituted (hvalues : ∀ e ∈ values, e.2.Normal) (name : String) :
    (substituted values name).eval ρ = rebound values ρ name := by
  rw [substituted, rebound]
  cases hget : values.get? name with
  | none => exact eval_param name
  | some v => exact eval_toSymbolic (hvalues _ (Table.mem_of_get?_eq_some hget))

/-- A term becomes its coefficient times the powers of the replacements. -/
theorem eval_substitutedTerm (hvalues : ∀ e ∈ values, e.2.Normal) (m : Monomial) {product : Symbolic}
    (hproduct : product.Normal) :
    (m.foldl (fun product p => product * (substituted values p.param).pow p.exponent) product).eval ρ =
      product.eval ρ * m.eval (rebound values ρ) := by
  induction m generalizing product with
  | nil => simp
  | cons p m ih =>
    have hfactor := (Normal.substituted hvalues p.param).pow p.exponent
    rw [List.foldl_cons, ih (hproduct.mul hfactor), Symbolic.eval_mul hproduct hfactor,
      Symbolic.eval_pow (Normal.substituted hvalues p.param), eval_substituted hvalues,
      Monomial.eval_cons, mul_assoc]

/-- The value after a substitution is the old value where every replaced parameter has the value of its
replacement. -/
theorem eval_substitute (ha : a.Normal) (hvalues : ∀ e ∈ values, e.2.Normal) :
    (a.substitute values).eval ρ = a.eval (rebound values ρ) := by
  cases a with
  | num x => rfl
  | sym s =>
    have key : ∀ (l : List (Monomial × Number)) (out : Symbolic), Symbolic.Exact l → out.Normal →
        (l.foldl (fun out t => out + t.1.foldl (fun product p =>
          product * (substituted values p.param).pow p.exponent) (.const t.2)) out).Normal ∧
        (l.foldl (fun out t => out + t.1.foldl (fun product p =>
          product * (substituted values p.param).pow p.exponent) (.const t.2)) out).eval ρ =
          out.eval ρ + Table.total (fun m c => c.rat * m.eval (rebound values ρ)) l := by
      intro l
      induction l with
      | nil => exact fun out _ hout => ⟨hout, by simp⟩
      | cons t l ih =>
        intro out hl hout
        obtain ⟨⟨-, hc⟩, hl⟩ := List.forall_mem_cons.mp hl
        have hterm := Normal.substitutedTerm hvalues t.1 (Symbolic.Normal.const hc)
        obtain ⟨hnormal, heval⟩ := ih _ hl (hout.add hterm)
        refine ⟨hnormal, ?_⟩
        rw [List.foldl_cons, heval, Symbolic.eval_add hout hterm,
          eval_substitutedTerm hvalues t.1 (.const hc), Symbolic.eval_const hc, Table.total_cons,
          add_assoc]
    obtain ⟨hnormal, heval⟩ := key s.terms .zero ha.1.exact .zero
    exact (eval_ofSymbolic hnormal).trans (heval.trans (zero_add _))

theorem eval_congr (h : ∀ x ∈ a.params, ρ x = ρ' x) : a.eval ρ = a.eval ρ' := by
  cases a with
  | num x => rfl
  | sym s => exact Symbolic.eval_congr h

/-- Numbers in the place of all parameters that occur leave the value as a number. -/
theorem Normal.substitute_numbers (ha : a.Normal) (hvalues : ∀ e ∈ values, e.2.Normal)
    (h : ∀ x ∈ a.params, values.get? x = some (.num (.exact (ρ x)))) :
    a.substitute values = .num (.exact (a.eval ρ)) := by
  refine (ha.substitute hvalues).ext (normal_exact _) fun ρ' => ?_
  rw [eval_substitute ha hvalues, eval_num, Number.rat_exact]
  refine eval_congr fun x hx => ?_
  rw [rebound, h x hx]
  rfl

end Substitute

/-! ## Operations on values -/

/-- Whatever operations coefficients come from, the value of a result is what the operation makes of the
values, under every valuation of the parameters. A substitution evaluates all replacements by the
valuation itself, none of them by another replacement. -/
theorem evaluation_homomorphic {values : Table String Coefficient} (ha : Exact a) (hb : Exact b)
    (n : ℕ) {q : ℚ} (hq : q ≠ 0) (hvalues : ∀ e ∈ values, Exact e.2) (ρ : String → ℚ) :
    eval ρ (a + b) = eval ρ a + eval ρ b ∧
    eval ρ (a - b) = eval ρ a - eval ρ b ∧
    eval ρ (a * b) = eval ρ a * eval ρ b ∧
    eval ρ (-a) = -eval ρ a ∧
    eval ρ (a.pow n) = eval ρ a ^ n ∧
    (∃ c, a.div (.num (.exact q)) = .ok c ∧ eval ρ c = eval ρ a / q) ∧
    eval ρ (a.substitute values) = eval (rebound values ρ) a := by
  have hdiv : ∃ c, a.div (.num (.exact q)) = .ok c ∧ eval ρ c = eval ρ a / q := by
    obtain ⟨c, hc, heval⟩ := exists_div_eq ha.normal hq
    exact ⟨c, hc, heval ρ⟩
  have hsubstitute : eval ρ (a.substitute values) = eval (rebound values ρ) a :=
    eval_substitute ha.normal fun e he => (hvalues e he).normal
  exact ⟨eval_add ha.normal hb.normal, eval_sub ha.normal hb.normal, eval_mul ha.normal hb.normal,
    eval_neg ha.normal, eval_pow ha.normal n, hdiv, hsubstitute⟩

/-- Two parameters that are exchanged, with a shift. -/
def exchange : Table String Coefficient :=
  [("x", param "y"), ("y", param "x" + 1)]

/-- In `x * y` the exchange gives `y * (x + 1)`, which is `15` at `2` and `5`. The two replacements one
after the other would lead to `(x + 1) * (x + 1)`. -/
theorem evaluation_homomorphic_exchange :
    eval (fun name => if name = "x" then 2 else 5)
      ((param "x" * param "y").substitute exchange) = 15 := by
  have hx : Exact (param "x") := .param "x"
  have hy : Exact (param "y") := .param "y"
  have hone : Exact 1 := .number 1
  have hvalues : ∀ e ∈ exchange, Exact e.2 :=
    List.forall_mem_cons.mpr ⟨hy, List.forall_mem_singleton.mpr (hx.add hone)⟩
  obtain ⟨-, -, -, -, -, -, hsubstitute⟩ := evaluation_homomorphic (hx.mul hy) hx 2 one_ne_zero
    hvalues fun name => if name = "x" then 2 else 5
  have hgetx : exchange.get? "x" = some (param "y") := by decide
  have hgety : exchange.get? "y" = some (param "x" + 1) := by decide
  rw [hsubstitute, eval_mul hx.normal hy.normal, eval_param, eval_param, rebound, rebound, hgetx,
    hgety]
  dsimp only
  rw [eval_add hx.normal hone.normal, eval_param, eval_param, eval_one, if_neg (by decide), if_pos rfl]
  norm_num

/-! ## Comparison -/

/-- Coefficients in normal form are compared by what they are. -/
theorem Normal.valueEq_iff (ha : a.Normal) (hb : b.Normal) : a.valueEq b ↔ a = b := by
  match a, b, ha, hb with
  | num x, num y, ha, hb =>
    rw [num.injEq]
    exact Number.valueEq_iff ha hb
  | num x, sym t, _, _ => simp [valueEq]
  | sym s, num y, _, _ => simp [valueEq]
  | sym s, sym t, ha, hb =>
    rw [sym.injEq]
    exact Symbolic.valueEq_iff ha.1 hb.1

/-- A power of a parameter as it is stored. -/
def power (name : String) (n : ℕ) : Coefficient :=
  .sym ⟨[([⟨name, n⟩], 1)]⟩

end Coefficient

end PseudoBoolean

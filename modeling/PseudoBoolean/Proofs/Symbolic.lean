import Mathlib.Algebra.CharZero.Infinite
import Mathlib.Algebra.MvPolynomial.Funext
import Mathlib.Tactic.Ring
import PseudoBoolean.Proofs.Table
import PseudoBoolean.Symbolic

/-!
# Symbolic values as functions of their parameters

`Symbolic.eval ρ` is the rational value of a symbolic value when each parameter `x` has the value
`ρ x`. The operations preserve it as long as all numbers involved are exact, and they preserve the
normal form `Symbolic.Normal` (sorted monomials with positive exponents, no zero coefficient).

`Symbolic.Normal.ext` is the converse: two normal forms that have the same value under every
valuation are the same table. The proof reads a table as a formal polynomial (`Symbolic.toFormal`),
where equality of values is equality of coefficients.
-/

namespace PseudoBoolean

open Std

/-! ## Exact numbers -/

namespace Number

/-- The rational value of a number; zero for a double that has none. -/
def rat (a : Number) : ℚ :=
  a.toRat?.getD 0

variable {a b : Number} {p q : ℚ}

@[simp]
theorem rat_exact : rat (.exact q) = q := rfl

/-- The exact numbers are the rational ones. -/
theorem isExact_iff : a.isExact ↔ ∃ q, a = .exact q := by
  cases a <;> simp [isExact]

/-- An exact number is determined by its rational value. -/
theorem eq_exact_rat (h : a.isExact) : a = .exact a.rat := by
  obtain ⟨q, rfl⟩ := isExact_iff.mp h
  rfl

@[simp]
theorem exact_add : (.exact p + .exact q : Number) = .exact (p + q) := rfl

@[simp]
theorem exact_sub : (.exact p - .exact q : Number) = .exact (p - q) := rfl

@[simp]
theorem exact_mul : (.exact p * .exact q : Number) = .exact (p * q) := rfl

/-- An exact number tests as zero if it is zero. -/
@[simp]
theorem isZero_exact : (exact q).isZero ↔ q = 0 := by
  simp [isZero]

/-- Sums of exact numbers are exact. -/
theorem isExact_add (ha : a.isExact) (hb : b.isExact) : (a + b).isExact := by
  obtain ⟨p, rfl⟩ := isExact_iff.mp ha
  obtain ⟨q, rfl⟩ := isExact_iff.mp hb
  rfl

/-- The rational value of a sum. -/
theorem rat_add (ha : a.isExact) (hb : b.isExact) : (a + b).rat = a.rat + b.rat := by
  obtain ⟨p, rfl⟩ := isExact_iff.mp ha
  obtain ⟨q, rfl⟩ := isExact_iff.mp hb
  rfl

/-- Products of exact numbers are exact. -/
theorem isExact_mul (ha : a.isExact) (hb : b.isExact) : (a * b).isExact := by
  obtain ⟨p, rfl⟩ := isExact_iff.mp ha
  obtain ⟨q, rfl⟩ := isExact_iff.mp hb
  rfl

/-- The rational value of a product. -/
theorem rat_mul (ha : a.isExact) (hb : b.isExact) : (a * b).rat = a.rat * b.rat := by
  obtain ⟨p, rfl⟩ := isExact_iff.mp ha
  obtain ⟨q, rfl⟩ := isExact_iff.mp hb
  rfl

/-- Negatives of exact numbers are exact. -/
theorem isExact_neg (ha : a.isExact) : (-a).isExact := by
  obtain ⟨p, rfl⟩ := isExact_iff.mp ha
  rfl

/-- The rational value of a negative. -/
theorem rat_neg (ha : a.isExact) : (-a).rat = -a.rat := by
  obtain ⟨p, rfl⟩ := isExact_iff.mp ha
  rfl

/-- The test for zero reads the rational value. -/
theorem isZero_iff (ha : a.isExact) : a.isZero ↔ a.rat = 0 := by
  obtain ⟨p, rfl⟩ := isExact_iff.mp ha
  simp

/-- The test for zero fails for all other rational values. -/
theorem isZero_eq_false_iff (ha : a.isExact) : a.isZero = false ↔ a.rat ≠ 0 := by
  rw [ne_eq, ← isZero_iff ha, Bool.not_eq_true]

end Number

/-! ## Monomials -/

/-- Powers compare by parameter first, and then by exponent. -/
theorem Power.compare_eq (p q : Power) :
    compare p q = compareLex (compareOn Power.param) (compareOn Power.exponent) p q := by
  obtain ⟨x, m⟩ := p
  obtain ⟨y, n⟩ := q
  change (compare x y).then ((compare m n).then .eq) = (compare x y).then (compare m n)
  rw [Ordering.then_eq]

instance : TransOrd Power := by
  have h : (compare : Power → Power → Ordering) =
      compareLex (compareOn Power.param) (compareOn Power.exponent) :=
    funext₂ Power.compare_eq
  rw [TransOrd, h]
  infer_instance

instance : LawfulEqOrd Power where
  eq_of_compare {p q} h := by
    obtain ⟨x, m⟩ := p
    obtain ⟨y, n⟩ := q
    rw [Power.compare_eq] at h
    have h : (compare x y).then (compare m n) = .eq := h
    obtain ⟨hx, hm⟩ := Ordering.then_eq_eq.mp h
    rw [LawfulEqOrd.eq_of_compare hx, LawfulEqOrd.eq_of_compare hm]

namespace Monomial

variable {p : Power} {m n : Monomial} {ρ : String → ℚ}

/-- The names are increasing and no exponent is zero. -/
structure Normal (m : Monomial) : Prop where
  increasing : m.Pairwise fun p q => compare p.param q.param = .lt
  positive : ∀ p ∈ m, 0 < p.exponent

/-- The value under a valuation of the parameters. -/
def eval (ρ : String → ℚ) (m : Monomial) : ℚ :=
  (m.map fun p => ρ p.param ^ p.exponent).prod

@[simp]
theorem eval_nil : eval ρ [] = 1 := rfl

/-- The first power is a factor of the value. -/
@[simp]
theorem eval_cons : eval ρ (p :: m) = ρ p.param ^ p.exponent * eval ρ m := by
  simp [eval]

/-- The empty product is normal. -/
theorem Normal.nil : Normal [] := ⟨List.Pairwise.nil, by simp⟩

/-- One more power is one more factor, wherever it is inserted. -/
theorem eval_mulPower : eval ρ (mulPower p m) = ρ p.param ^ p.exponent * eval ρ m := by
  induction m with
  | nil => simp [mulPower]
  | cons q m ih =>
    cases hc : compare p.param q.param with
    | lt => simp [mulPower, hc]
    | eq =>
      have hpq := LawfulEqOrd.eq_of_compare hc
      rw [mulPower, hc]
      simp only [eval_cons, pow_add, hpq]
      ring
    | gt =>
      simp only [mulPower, hc, eval_cons, ih]
      ring

/-- The value of a product of monomials is the product of the values. -/
theorem eval_mul : eval ρ (mul m n) = eval ρ m * eval ρ n := by
  rw [mul]
  induction n generalizing m with
  | nil => simp
  | cons p n ih =>
    rw [List.foldl_cons, ih, eval_mulPower, eval_cons]
    ring

/-- A product with a power has no other names than the two factors. -/
theorem forall_mem_mulPower {P : String → Prop} (hp : P p.param) (hm : ∀ q ∈ m, P q.param) :
    ∀ q ∈ mulPower p m, P q.param := by
  induction m with
  | nil => simpa [mulPower] using hp
  | cons q m ih =>
    obtain ⟨hq, hm⟩ := List.forall_mem_cons.mp hm
    rw [mulPower]
    split
    · exact List.forall_mem_cons.mpr ⟨hp, List.forall_mem_cons.mpr ⟨hq, hm⟩⟩
    · exact List.forall_mem_cons.mpr ⟨hq, hm⟩
    · exact List.forall_mem_cons.mpr ⟨hq, ih hm⟩

/-- The order of the names is kept when a power is inserted. -/
theorem Normal.mulPower (hp : 0 < p.exponent) (h : Normal m) : Normal (mulPower p m) := by
  induction m with
  | nil => exact ⟨List.pairwise_singleton _ _, by simpa [Monomial.mulPower] using hp⟩
  | cons q m ih =>
    obtain ⟨hlt, hinc⟩ := List.pairwise_cons.mp h.increasing
    obtain ⟨hq, hpos⟩ := List.forall_mem_cons.mp h.positive
    cases hc : compare p.param q.param with
    | lt =>
      rw [Monomial.mulPower, hc]
      refine ⟨List.pairwise_cons.mpr ⟨List.forall_mem_cons.mpr ⟨hc, fun r hr => ?_⟩, h.increasing⟩,
        List.forall_mem_cons.mpr ⟨hp, h.positive⟩⟩
      exact TransCmp.lt_trans hc (hlt r hr)
    | eq =>
      rw [Monomial.mulPower, hc]
      exact ⟨List.pairwise_cons.mpr ⟨hlt, hinc⟩,
        List.forall_mem_cons.mpr ⟨Nat.add_pos_left hq _, hpos⟩⟩
    | gt =>
      rw [Monomial.mulPower, hc]
      obtain ⟨hinc', hpos'⟩ := ih ⟨hinc, hpos⟩
      refine ⟨List.pairwise_cons.mpr ⟨?_, hinc'⟩, List.forall_mem_cons.mpr ⟨hq, hpos'⟩⟩
      exact forall_mem_mulPower (P := fun x => compare q.param x = .lt)
        (OrientedCmp.lt_of_gt hc) hlt

/-- The product of normal monomials is normal. -/
theorem Normal.mul (hm : Normal m) (hn : Normal n) : Normal (mul m n) := by
  have hpos := hn.positive
  rw [Monomial.mul]
  clear hn
  induction n generalizing m with
  | nil => exact hm
  | cons p n ih =>
    obtain ⟨hp, hpos⟩ := List.forall_mem_cons.mp hpos
    exact ih (hm.mulPower hp) hpos

/-- The exponent of every name. -/
noncomputable def exponents (m : Monomial) : String →₀ ℕ :=
  (m.map fun p => Finsupp.single p.param p.exponent).sum

/-- A parameter that does not occur has the exponent zero. -/
theorem exponents_eq_zero {x : String} (h : ∀ p ∈ m, p.param ≠ x) : exponents m x = 0 := by
  induction m with
  | nil => simp [exponents]
  | cons p m ih =>
    obtain ⟨hp, hm⟩ := List.forall_mem_cons.mp h
    have := ih hm
    simp_all [exponents]

/-- The powers of a normal monomial are the names with an exponent other than zero. -/
theorem Normal.mem_iff (h : Normal m) : p ∈ m ↔ 0 < p.exponent ∧ exponents m p.param = p.exponent := by
  induction m with
  | nil => simp [exponents]; omega
  | cons q m ih =>
    obtain ⟨hlt, hinc⟩ := List.pairwise_cons.mp h.increasing
    obtain ⟨hq, hpos⟩ := List.forall_mem_cons.mp h.positive
    have hne : ∀ r ∈ m, r.param ≠ q.param := fun r hr heq => by
      have := hlt r hr
      simp [heq] at this
    have hsum : exponents (q :: m) = Finsupp.single q.param q.exponent + exponents m := by
      simp [exponents]
    rw [hsum, List.mem_cons, ih ⟨hinc, hpos⟩, Finsupp.add_apply]
    by_cases hp : p.param = q.param
    · obtain ⟨x, i⟩ := p
      obtain ⟨y, j⟩ := q
      obtain rfl : x = y := hp
      have h0 : exponents m x = 0 := exponents_eq_zero hne
      simp only [h0, Finsupp.single_eq_same, Power.mk.injEq, true_and, add_zero]
      constructor
      · rintro (rfl | ⟨h1, h2⟩)
        · exact ⟨hq, rfl⟩
        · omega
      · rintro ⟨-, h⟩
        exact .inl h.symm
    · have hpq : p ≠ q := fun h => hp (congrArg Power.param h)
      rw [Finsupp.single_apply, if_neg (Ne.symm hp), zero_add]
      simp [hpq]

/-- A normal monomial is determined by its exponents. -/
theorem Normal.ext (hm : Normal m) (hn : Normal n) (h : exponents m = exponents n) : m = n :=
  eq_of_increasing_by Power.param hm.increasing hn.increasing fun p => by
    rw [hm.mem_iff, hn.mem_iff, h]

end Monomial

/-! ## Symbolic values -/

namespace Symbolic

variable {s t : Symbolic} {m : Monomial} {c k : Number} {ρ : String → ℚ}

/-- What an entry of a symbolic value has to satisfy. -/
def NormalEntry (e : Monomial × Number) : Prop :=
  e.1.Normal ∧ e.2.isExact ∧ e.2.rat ≠ 0

/-- Sorted normal monomials with exact coefficients other than zero. -/
structure Normal (s : Symbolic) : Prop where
  sorted : s.terms.Sorted
  entries : ∀ e ∈ s.terms, NormalEntry e

/-- The value under a valuation of the parameters. -/
def eval (ρ : String → ℚ) (s : Symbolic) : ℚ :=
  s.terms.total fun m c => c.rat * m.eval ρ

/-- Zero is normal. -/
theorem Normal.zero : zero.Normal := ⟨List.Pairwise.nil, by simp [Symbolic.zero]⟩

@[simp]
theorem eval_zero : eval ρ zero = 0 := rfl

/-! ### Operations -/

/-- A term with an exact number can be added to a normal polynomial. -/
theorem Normal.accumulate (hs : s.Normal) (hm : m.Normal) (hc : c.isExact) :
    (s.accumulate m c).Normal := by
  rw [Symbolic.accumulate]
  split
  · exact hs
  · rename_i h0
    refine ⟨hs.sorted.alter, Table.forall_mem_alter hs.entries fun v hv => ?_⟩
    cases hold : s.terms.get? m with
    | none =>
      obtain rfl : c = v := by simpa [hold] using hv
      exact ⟨hm, hc, fun h => h0 ((Number.isZero_iff hc).mpr h)⟩
    | some old =>
      have hsum := Number.isExact_add (hs.entries _ (Table.mem_of_get?_eq_some hold)).2.1 hc
      simp only [hold] at hv
      split at hv
      · simp at hv
      · rename_i hne
        obtain rfl := Option.some_inj.mp hv
        exact ⟨hm, hsum, fun h => hne ((Number.isZero_iff hsum).mpr h)⟩

/-- A term adds its own value, also if it cancels another one. -/
theorem eval_accumulate (hs : s.Normal) (hc : c.isExact) :
    eval ρ (s.accumulate m c) = eval ρ s + c.rat * m.eval ρ := by
  rw [Symbolic.accumulate]
  split
  · rename_i h0
    rw [(Number.isZero_iff hc).mp h0, zero_mul, add_zero]
  · refine Table.total_alter ?_
    cases hold : s.terms.get? m with
    | none => simp
    | some old =>
      have hexact := (hs.entries _ (Table.mem_of_get?_eq_some hold)).2.1
      have hsum := Number.rat_add hexact hc
      simp only [Option.elim_some]
      rw [← add_mul, ← hsum]
      split
      · rename_i h0
        rw [(Number.isZero_iff (Number.isExact_add hexact hc)).mp h0]
        simp
      · simp

/-- A list of terms fit to be accumulated. -/
def Exact (l : List (Monomial × Number)) : Prop :=
  ∀ e ∈ l, e.1.Normal ∧ e.2.isExact

/-- The terms of a normal polynomial are exact. -/
theorem Normal.exact (hs : s.Normal) : Exact s.terms := fun e he =>
  ⟨(hs.entries e he).1, (hs.entries e he).2.1⟩

/-- Accumulating terms one after the other adds their sum. -/
theorem accumulateAll {l : List (Monomial × Number)} (hs : s.Normal) (hl : Exact l) :
    (l.foldl (fun s e => s.accumulate e.1 e.2) s).Normal ∧
      ∀ ρ, eval ρ (l.foldl (fun s e => s.accumulate e.1 e.2) s) =
        eval ρ s + Table.total (fun m c => c.rat * m.eval ρ) l := by
  induction l generalizing s with
  | nil => simp [hs]
  | cons e l ih =>
    obtain ⟨⟨hm, hc⟩, hl⟩ := List.forall_mem_cons.mp hl
    obtain ⟨hnormal, heval⟩ := ih (hs.accumulate hm hc) hl
    refine ⟨hnormal, fun ρ => ?_⟩
    rw [List.foldl_cons, heval, eval_accumulate hs hc, Table.total_cons, add_assoc]

/-- Constants are normal. -/
theorem Normal.const (hc : c.isExact) : (const c).Normal :=
  Normal.zero.accumulate Monomial.Normal.nil hc

/-- The value of a constant is its number. -/
theorem eval_const (hc : c.isExact) : eval ρ (const c) = c.rat := by
  rw [const, eval_accumulate Normal.zero hc]
  simp

/-- A parameter is normal. -/
theorem Normal.param (name : String) : (param name).Normal where
  sorted := List.pairwise_singleton _ _
  entries := List.forall_mem_singleton.mpr
    ⟨⟨List.pairwise_singleton _ _, by simp⟩, rfl, one_ne_zero⟩

/-- The sum of normal polynomials is normal. -/
theorem Normal.add (hs : s.Normal) (ht : t.Normal) : (s + t).Normal :=
  (accumulateAll hs ht.exact).1

/-- The value of a sum is the sum of the values. -/
theorem eval_add (hs : s.Normal) (ht : t.Normal) : eval ρ (s + t) = eval ρ s + eval ρ t :=
  (accumulateAll hs ht.exact).2 ρ

/-- The image of exact terms under a map of numbers that keeps them exact. -/
theorem exact_mapValues {f : Number → Number} (hs : s.Normal)
    (hf : ∀ c : Number, c.isExact → (f c).isExact) : Exact (s.terms.mapValues f) := by
  intro e he
  obtain ⟨e', he', rfl⟩ := List.mem_map.mp he
  exact ⟨(hs.exact e' he').1, hf _ (hs.exact e' he').2⟩

/-- A change of the numbers that keeps them exact keeps the normal form. -/
theorem Normal.mapCoefficients {f : Number → Number} (hs : s.Normal)
    (hf : ∀ c : Number, c.isExact → (f c).isExact) : (s.mapCoefficients f).Normal :=
  (accumulateAll Normal.zero (exact_mapValues hs hf)).1

/-- A map that multiplies every exact number by `r` multiplies the value by `r`. -/
theorem eval_mapCoefficients {f : Number → Number} {r : ℚ} (hs : s.Normal)
    (hf : ∀ c : Number, c.isExact → (f c).isExact ∧ (f c).rat = c.rat * r) :
    eval ρ (s.mapCoefficients f) = eval ρ s * r := by
  rw [Symbolic.mapCoefficients, ofTerms,
    (accumulateAll Normal.zero (exact_mapValues hs fun c hc => (hf c hc).1)).2, eval_zero, zero_add,
    Table.total, Table.mapValues, List.map_map, eval, Table.total, ← List.sum_map_mul_right]
  refine congrArg List.sum (List.map_congr_left fun e he => ?_)
  simp only [Function.comp, (hf _ (hs.exact e he).2).2]
  ring

/-- The negative of a normal polynomial is normal. -/
theorem Normal.neg (hs : s.Normal) : (-s).Normal :=
  hs.mapCoefficients fun _ => Number.isExact_neg

/-- The value of the negative is the negative value. -/
theorem eval_neg (hs : s.Normal) : eval ρ (-s) = -eval ρ s := by
  have h := eval_mapCoefficients (ρ := ρ) (f := fun c => -c) (r := -1) hs fun c hc =>
    ⟨Number.isExact_neg hc, by rw [Number.rat_neg hc]; ring⟩
  rw [mul_neg_one] at h
  exact h

/-- The difference of normal polynomials is normal. -/
theorem Normal.sub (hs : s.Normal) (ht : t.Normal) : (s - t).Normal :=
  hs.add ht.neg

/-- The value of a difference is the difference of the values. -/
theorem eval_sub (hs : s.Normal) (ht : t.Normal) : eval ρ (s - t) = eval ρ s - eval ρ t := by
  have h : s - t = s + -t := rfl
  rw [h, eval_add hs ht.neg, eval_neg ht, sub_eq_add_neg]

/-- Exact multiples of normal polynomials are normal. -/
theorem Normal.scale (hs : s.Normal) (hk : k.isExact) : (s.scale k).Normal := by
  rw [Symbolic.scale]
  split
  · exact Normal.zero
  · exact hs.mapCoefficients fun c hc => Number.isExact_mul hc hk

/-- The value of a multiple is the multiple of the value. -/
theorem eval_scale (hs : s.Normal) (hk : k.isExact) : eval ρ (s.scale k) = eval ρ s * k.rat := by
  rw [Symbolic.scale]
  split
  · rename_i h0
    rw [(Number.isZero_iff hk).mp h0, mul_zero, eval_zero]
  · exact eval_mapCoefficients hs fun c hc => ⟨Number.isExact_mul hc hk, Number.rat_mul hc hk⟩

/-- The terms of a product with one term. -/
theorem mul_eq (s t : Symbolic) :
    s * t = (s.terms.flatMap fun u => t.terms.map fun v => (u.1.mul v.1, u.2 * v.2)).foldl
      (fun r e => r.accumulate e.1 e.2) zero := by
  rw [List.foldl_flatMap]
  simp only [List.foldl_map]
  rfl

/-- The products of all pairs of terms are exact. -/
theorem exact_mul (hs : s.Normal) (ht : t.Normal) :
    Exact (s.terms.flatMap fun u => t.terms.map fun v => (u.1.mul v.1, u.2 * v.2)) := by
  intro e he
  obtain ⟨u, hu, he⟩ := List.mem_flatMap.mp he
  obtain ⟨v, hv, rfl⟩ := List.mem_map.mp he
  exact ⟨(hs.exact u hu).1.mul (ht.exact v hv).1,
    Number.isExact_mul (hs.exact u hu).2 (ht.exact v hv).2⟩

/-- The product of normal polynomials is normal. -/
theorem Normal.mul (hs : s.Normal) (ht : t.Normal) : (s * t).Normal := by
  rw [mul_eq]
  exact (accumulateAll Normal.zero (exact_mul hs ht)).1

/-- The value of a product is the product of the values. -/
theorem eval_mul (hs : s.Normal) (ht : t.Normal) : eval ρ (s * t) = eval ρ s * eval ρ t := by
  have hrow : ∀ u ∈ s.terms, (t.terms.map fun v => (u.2 * v.2).rat * (u.1.mul v.1).eval ρ).sum =
      u.2.rat * u.1.eval ρ * eval ρ t := by
    intro u hu
    rw [eval, Table.total, ← List.sum_map_mul_left]
    refine congrArg List.sum (List.map_congr_left fun v hv => ?_)
    rw [Number.rat_mul (hs.exact u hu).2 (ht.exact v hv).2, Monomial.eval_mul]
    ring
  rw [mul_eq, (accumulateAll Normal.zero (exact_mul hs ht)).2, eval_zero, zero_add, Table.total,
    List.map_flatMap, List.flatMap, List.sum_flatten]
  simp only [List.map_map, Function.comp_def]
  rw [List.map_congr_left hrow, List.sum_map_mul_right]
  rfl

/-! ### Equality of values -/

/-- The formal polynomial in the parameters. -/
noncomputable def toFormal (s : Symbolic) : MvPolynomial String ℚ :=
  s.terms.total fun m c => MvPolynomial.monomial m.exponents c.rat

/-- A monomial has the same value as a formal one with its exponents. -/
theorem eval_monomial_exponents (m : Monomial) (r : ℚ) :
    MvPolynomial.eval ρ (MvPolynomial.monomial m.exponents r) = r * m.eval ρ := by
  induction m generalizing r with
  | nil => simp [Monomial.exponents]
  | cons p m ih =>
    have hmul : MvPolynomial.monomial (Monomial.exponents (p :: m)) r =
        MvPolynomial.monomial (Finsupp.single p.param p.exponent) 1 *
          MvPolynomial.monomial (Monomial.exponents m) r := by
      rw [MvPolynomial.monomial_mul, one_mul]
      simp [Monomial.exponents]
    rw [hmul, map_mul, ih, MvPolynomial.eval_monomial, Monomial.eval_cons]
    simp only [Finsupp.prod_single_index, pow_zero, one_mul]
    ring

/-- A polynomial in parameters has the same value as the formal one. -/
theorem eval_toFormal (s : Symbolic) : MvPolynomial.eval ρ s.toFormal = eval ρ s := by
  rw [toFormal, eval]
  induction s.terms with
  | nil => simp
  | cons e l ih => rw [Table.total_cons, Table.total_cons, map_add, ih, eval_monomial_exponents]

/-- The formal coefficient of a monomial is the sum of those of all its copies. -/
theorem coeff_toFormal (s : Symbolic) (x : String →₀ ℕ) :
    s.toFormal.coeff x = s.terms.total fun m c => if m.exponents = x then c.rat else 0 := by
  classical
  rw [toFormal]
  induction s.terms with
  | nil => simp
  | cons e l ih =>
    rw [Table.total_cons, Table.total_cons, MvPolynomial.coeff_add, ih, MvPolynomial.coeff_monomial]

/-- The coefficient of an entry. -/
theorem Normal.coeff_of_mem (hs : s.Normal) (h : (m, c) ∈ s.terms) :
    s.toFormal.coeff m.exponents = c.rat := by
  rw [coeff_toFormal, Table.total_eq_single hs.sorted h, if_pos rfl]
  intro e he hne
  exact if_neg fun heq => hne ((hs.entries e he).1.ext (hs.entries _ h).1 heq)

/-- A coefficient other than zero belongs to an entry. -/
theorem Normal.mem_of_coeff_ne_zero (hs : s.Normal) (hm : m.Normal)
    (h : s.toFormal.coeff m.exponents ≠ 0) : ∃ c, (m, c) ∈ s.terms := by
  by_contra hnot
  rw [not_exists] at hnot
  refine h ?_
  rw [coeff_toFormal]
  refine Table.total_eq_zero fun e he => if_neg fun heq => hnot e.2 ?_
  rw [← (hs.entries e he).1.ext hm heq]
  exact he

/-- Normal polynomials that are formally equal have the same terms. -/
theorem Normal.mem_of_toFormal_eq (hs : s.Normal) (ht : t.Normal) (h : s.toFormal = t.toFormal)
    (hmem : (m, c) ∈ s.terms) : (m, c) ∈ t.terms := by
  obtain ⟨hm, hc, hne⟩ : m.Normal ∧ c.isExact ∧ c.rat ≠ 0 := hs.entries _ hmem
  have hcoeff : t.toFormal.coeff m.exponents = c.rat := h ▸ hs.coeff_of_mem hmem
  obtain ⟨c', hmem'⟩ := ht.mem_of_coeff_ne_zero hm (hcoeff ▸ hne)
  have hc' : c'.isExact := (ht.entries _ hmem').2.1
  have hrat : c'.rat = c.rat := (ht.coeff_of_mem hmem').symm.trans hcoeff
  rwa [Number.eq_exact_rat hc, ← hrat, ← Number.eq_exact_rat hc']

/-- Normal forms with the same value under every valuation are equal. -/
theorem Normal.ext (hs : s.Normal) (ht : t.Normal) (h : ∀ ρ, eval ρ s = eval ρ t) : s = t := by
  have hformal : s.toFormal = t.toFormal := MvPolynomial.funext fun ρ => by
    rw [eval_toFormal, eval_toFormal, h]
  obtain ⟨l⟩ := s
  obtain ⟨l'⟩ := t
  congr 1
  exact hs.sorted.ext ht.sorted fun m c =>
    ⟨hs.mem_of_toFormal_eq ht hformal, ht.mem_of_toFormal_eq hs hformal.symm⟩

/-- The coefficients of a negation, monomial by monomial. -/
theorem Normal.neg_eq (hs : s.Normal) : -s = ⟨s.terms.mapValues (- ·)⟩ := by
  have hneg : Normal ⟨s.terms.mapValues (- ·)⟩ := by
    refine ⟨List.pairwise_map.mpr hs.sorted, List.forall_mem_map.mpr fun e he => ?_⟩
    obtain ⟨hm, hexact, hne⟩ := hs.entries e he
    exact ⟨hm, Number.isExact_neg hexact, by rw [Number.rat_neg hexact]; exact neg_ne_zero.mpr hne⟩
  refine hs.neg.ext hneg fun ρ => ?_
  rw [eval_neg hs, eval, eval, Table.total, Table.total, Table.mapValues, List.map_map, 
    List.sum_neg, List.map_map]
  refine congrArg List.sum (List.map_congr_left fun e he => ?_)
  rw [Function.comp, Function.comp, Number.rat_neg (hs.exact e he).2, neg_mul]

/-- A negation depends on the same parameters. -/
theorem Normal.params_neg (hs : s.Normal) : (-s).params = s.params := by
  rw [hs.neg_eq, params, params, Table.mapValues, List.flatMap_map]

end Symbolic

end PseudoBoolean

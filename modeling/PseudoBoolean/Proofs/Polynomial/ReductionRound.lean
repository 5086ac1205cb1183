import PseudoBoolean.Proofs.Polynomial.PairSelection
import PseudoBoolean.Proofs.Polynomial.TermReplacement

/-!
# One round of degree reduction

A round puts a new variable `z` in the place of a pair `x, y` in the terms with more variables than the
target, and adds a penalty. Its effect on a weighted sum of the coefficients (`weighted_withProduct`)
gives its effect on values, `p` plus the penalty minus what the changed terms lose, and on the variables
that occur.

The changed terms lose at most the sum of their magnitudes, and only if `z` differs from `x * y`. The
automatic weight is one more than that sum, so a wrong `z` costs at least one (`eval_withProduct_ge`).
Every changed term loses a variable beyond the target, so the excess decreases (`excess_withProduct_lt`).
-/

namespace PseudoBoolean.Polynomial

variable {p q : Polynomial .binary ℕ} {target x y z : ℕ}

/-! ## The round -/

section Round

variable {K : Coefficient → Prop} {w : Coefficient} {ρ : String → ℚ} {X : ℕ → ℚ} {v : ℕ}

/-- The penalty of a new variable, term by term. -/
def penaltyTerms (x y z : ℕ) (w : Coefficient) : List (Term ℕ × Coefficient) :=
  [([x, y], w), ([x, z], w * .num (.ofInt (-2))), ([y, z], w * .num (.ofInt (-2))),
    ([z], w * .num 3)]

/-- The polynomial after a round with a given weight. -/
def withProduct (p : Polynomial .binary ℕ) (target x y z : ℕ) (w : Coefficient) :
    Polynomial .binary ℕ :=
  (p.replaceList (replacePair x y z) (p.termsWithPair target x y)).addProductPenalty x y z w

/-- One round of the reduction replaces the pair in the terms that have it and adds the penalty, with the
weight chosen for these terms. -/
theorem replaceProduct_eq (p : Polynomial .binary ℕ) (target x y z : ℕ)
    (weight : ReductionWeight) :
    p.replaceProduct target x y z weight =
      (ReductionWeight.forTerms weight (p.termsWithPair target x y)).map
        (p.withProduct target x y z) := by
  rw [replaceProduct]
  cases ReductionWeight.forTerms weight (p.termsWithPair target x y) <;> rfl

/-- The penalty of a product adds its four terms and records the product. -/
theorem addProductPenalty_eq (p : Polynomial .binary ℕ) (hxy : x < y) (hyz : y < z) :
    p.addProductPenalty x y z w =
      { p.accumulateList (penaltyTerms x y z w) with
        ancillas := p.ancillas.insert z (.product x y) } := by
  have hpair : ∀ {a b : ℕ}, a < b → Term.normalize .binary [a, b] = [a, b] := fun h =>
    Term.normalize_of_increasing _ (by simpa [Increasing, Nat.compare_eq_lt] using h)
  have hsingle : Term.normalize .binary [z] = [z] :=
    Term.normalize_of_increasing _ (List.pairwise_singleton _ _)
  simp only [addProductPenalty, addTerm, hpair hxy, hpair hyz, hpair (hxy.trans hyz), hsingle,
    ancillas_accumulate]
  rfl

/-- The terms that are replaced have both variables and are above the target. -/
theorem mem_termsWithPair {e : Term ℕ × Coefficient} :
    e ∈ p.termsWithPair target x y ↔
      e ∈ p.terms ∧ target < e.1.length ∧ x ∈ e.1 ∧ y ∈ e.1 := by
  simp [termsWithPair, and_assoc]

theorem IsPair.ne (h : p.IsPair target x y) : x ≠ y := h.1.ne

/-- A pair of occurring variables and a number above all of them. -/
structure CanIntroduce (p : Polynomial .binary ℕ) (target x y z : ℕ) : Prop where
  pair : p.IsPair target x y
  fresh : ∀ v ∈ p.vars, v < z

/-- A number that can be introduced is in no term yet. -/
theorem CanIntroduce.notMem (h : p.CanIntroduce target x y z) {e : Term ℕ × Coefficient}
    (he : e ∈ p.terms) : z ∉ e.1 := fun hz =>
  lt_irrefl z (h.fresh z (mem_vars.mpr ⟨e, he, hz⟩))

theorem CanIntroduce.right_lt (h : p.CanIntroduce target x y z) : y < z := by
  obtain ⟨-, t, ht, -, -, hy⟩ := h.pair
  exact h.fresh y (mem_vars.mpr ⟨t, ht, hy⟩)

theorem CanIntroduce.left_lt (h : p.CanIntroduce target x y z) : x < z :=
  h.pair.1.trans h.right_lt

/-- The pair can be replaced in the terms that have it. -/
theorem CanIntroduce.replaceable (h : p.CanIntroduce target x y z) (hp : p.WellFormed K) :
    Replaceable (replacePair x y z) p (p.termsWithPair target x y) where
  mem e he := (mem_termsWithPair.mp he).1
  distinct := hp.terms.sorted.keys_nodup.sublist (List.filter_sublist.map _)
  apart s _ t ht heq := by
    have hz : z ∈ replacePair x y z s.1 := mem_replacePair.mpr (.inr rfl)
    rw [heq] at hz
    exact h.notMem (mem_termsWithPair.mp ht).1 hz
  increasing s _ := Term.increasing_normalize .binary _

/-- The penalty terms of a new number are in order. -/
theorem CanIntroduce.addable_penaltyTerms [Coefficient.Closed K] (h : p.CanIntroduce target x y z)
    (hw : K w) :
    Addable K (penaltyTerms x y z w) := by
  have hpair : ∀ {a b : ℕ}, a < b → Increasing [a, b] := fun h => by
    simpa [Increasing, Nat.compare_eq_lt] using h
  have hmul : ∀ n : Number, n.isExact → K (w * .num n) := fun n hn => by
    rw [Number.eq_exact_rat hn]
    exact Coefficient.Closed.mul hw (Coefficient.Closed.exact _)
  simp only [Addable, penaltyTerms, List.forall_mem_cons]
  exact ⟨⟨hpair h.pair.1, hw⟩, ⟨hpair h.left_lt, hmul _ rfl⟩, ⟨hpair h.right_lt, hmul _ rfl⟩,
    ⟨List.pairwise_singleton _ _, hmul _ rfl⟩, by simp⟩

/-- A round keeps the polynomial well formed. -/
theorem WellFormed.withProduct [Coefficient.Closed K] (hp : p.WellFormed K)
    (h : p.CanIntroduce target x y z)
    (hw : K w) : (p.withProduct target x y z w).WellFormed K := by
  have hq := (hp.replaceList (h.replaceable hp)).accumulateList (h.addable_penaltyTerms hw)
  rw [Polynomial.withProduct, addProductPenalty_eq _ h.pair.1 h.right_lt]
  exact ⟨hq.terms, hq.distinct, hq.indexed⟩

section Weighted

variable [Coefficient.Kind K]

/-- The effect of a round on a weighted sum of the coefficients. -/
theorem weighted_withProduct (hp : p.WellFormed K) (h : p.CanIntroduce target x y z) (hw : K w)
    (g : Term ℕ → ℚ) :
    weighted ρ g (p.withProduct target x y z w).terms =
      weighted ρ g p.terms - weighted ρ g (p.termsWithPair target x y) +
        weighted ρ (fun t => g (replacePair x y z t)) (p.termsWithPair target x y) +
        w.eval ρ * (g [x, y] - 2 * g [x, z] - 2 * g [y, z] + 3 * g [z]) := by
  have hnormal : w.Normal := Coefficient.Kind.normal hw
  have hmul : ∀ q : ℚ, (w * .num (.exact q)).eval ρ = w.eval ρ * q := fun q =>
    Coefficient.eval_mul hnormal (Coefficient.normal_exact q)
  have hpenalty : weighted ρ g (penaltyTerms x y z w) =
      w.eval ρ * (g [x, y] - 2 * g [x, z] - 2 * g [y, z] + 3 * g [z]) := by
    have h2 : (w * .num (.ofInt (-2))).eval ρ = w.eval ρ * -2 := hmul _
    have h3 : (w * .num 3).eval ρ = w.eval ρ * 3 := hmul _
    simp only [penaltyTerms, weighted_cons, weighted_nil, h2, h3]
    ring
  rw [withProduct, addProductPenalty_eq _ h.pair.1 h.right_lt]
  simp only
  rw [weighted_accumulateList (hp.replaceList (h.replaceable hp)) (h.addable_penaltyTerms hw),
    weighted_replaceList hp (h.replaceable hp), hpenalty]

end Weighted

/-! ## Variables of the new polynomial -/

/-- The new number is the only variable a round adds. -/
theorem mem_vars_of_mem_withProduct (h : p.CanIntroduce target x y z)
    (hv : v ∈ (p.withProduct target x y z w).vars) : v ∈ p.vars ∨ v = z := by
  have hold : ∀ {t : Term ℕ × Coefficient}, t ∈ p.terms → v ∈ t.1 → v ∈ p.vars := fun ht hv =>
    mem_vars.mpr ⟨_, ht, hv⟩
  obtain ⟨e, he, hv⟩ := mem_vars.mp hv
  rw [withProduct, addProductPenalty_eq _ h.pair.1 h.right_lt] at he
  rcases exists_of_mem_accumulateList he with ⟨e', he', heq⟩ | ⟨e', he', heq⟩
  · rw [← heq] at hv
    rcases exists_of_mem_replaceList he' with ⟨t, ht, heq'⟩ | ⟨t, ht, heq'⟩
    · exact .inl (hold ht (heq' ▸ hv))
    · rw [← heq', mem_replacePair] at hv
      exact hv.imp_left fun hv => hold (mem_termsWithPair.mp ht).1 hv.1
  · obtain ⟨-, t, ht, -, hx, hy⟩ := h.pair
    have hvxyz : v = x ∨ v = y ∨ v = z := by
      rw [← heq] at hv
      simp only [penaltyTerms, List.mem_cons, List.not_mem_nil, or_false] at he'
      rcases he' with rfl | rfl | rfl | rfl <;>
        simp only [List.mem_cons, List.not_mem_nil, or_false] at hv <;> tauto
    rcases hvxyz with rfl | rfl | rfl
    · exact .inl (hold ht hx)
    · exact .inl (hold ht hy)
    · exact .inr rfl

section Occurrence

variable [Coefficient.Kind K]

/-- A sum over terms of the polynomial does not see a term with the new variable. -/
theorem CanIntroduce.weighted_indicator (h : p.CanIntroduce target x y z) {s : Term ℕ} (hz : z ∈ s)
    {l : Table (Term ℕ) Coefficient} (hl : ∀ e ∈ l, e ∈ p.terms) :
    weighted ρ (fun t => if t = s then 1 else 0) l = 0 := by
  refine weighted_eq_zero fun e he => if_neg ?_
  rintro rfl
  exact h.notMem (hl e he) hz

/-- A variable of the pair stays in the quadratic term with the new variable. -/
theorem CanIntroduce.eval_pairCoefficient (h : p.CanIntroduce target x y z) (hp : p.WellFormed K)
    (hw : K w) (hv : v = x ∨ v = y) :
    ((p.withProduct target x y z w).termCoefficient [v, z]).eval ρ = -2 * w.eval ρ := by
  have hchanged : ∀ e ∈ p.termsWithPair target x y, e ∈ p.terms := fun e he =>
    (mem_termsWithPair.mp he).1
  have hreplaced : weighted ρ (fun t => if replacePair x y z t = [v, z] then 1 else 0)
      (p.termsWithPair target x y) = 0 := by
    refine weighted_eq_zero fun e _ => if_neg fun heq => ?_
    have hmem : v ∈ replacePair x y z e.1 := by rw [heq]; exact List.mem_cons_self
    have hvz : v ≠ z := by
      rcases hv with rfl | rfl
      · exact h.left_lt.ne
      · exact h.right_lt.ne
    rcases mem_replacePair.mp hmem with ⟨-, hne⟩ | heq
    · exact hv.elim hne.1 hne.2
    · exact hvz heq
  rw [eval_termCoefficient (hp.withProduct h hw).terms, weighted_withProduct hp h hw,
    h.weighted_indicator (by simp) fun _ he => he, h.weighted_indicator (by simp) hchanged, hreplaced]
  have hxy := h.pair.ne
  have hxz := h.left_lt.ne
  have hyz := h.right_lt.ne
  rcases hv with rfl | rfl
  · simp [hyz, hxy.symm]
    ring
  · simp [hyz, hxy]
    ring

/-- The coefficient of a term with another variable than `x`, `y` and `z` does not see the penalty. -/
theorem CanIntroduce.eval_otherCoefficient (h : p.CanIntroduce target x y z) (hp : p.WellFormed K)
    (hw : K w) (hvx : v ≠ x) (hvy : v ≠ y) (hvz : v ≠ z) {s : Term ℕ} (hs : v ∈ s) :
    ((p.withProduct target x y z w).termCoefficient s).eval ρ =
      weighted ρ (fun t => if t = s then 1 else 0) p.terms -
        weighted ρ (fun t => if t = s then 1 else 0) (p.termsWithPair target x y) +
        weighted ρ (fun t => if replacePair x y z t = s then 1 else 0)
          (p.termsWithPair target x y) := by
  obtain ⟨hxy, hxz, hyz, hz⟩ : [x, y] ≠ s ∧ [x, z] ≠ s ∧ [y, z] ≠ s ∧ [z] ≠ s := by
    refine ⟨?_, ?_, ?_, ?_⟩ <;> rintro rfl <;> simp [hvx, hvy, hvz] at hs
  rw [eval_termCoefficient (hp.withProduct h hw).terms, weighted_withProduct hp h hw,
    if_neg hxy, if_neg hxz, if_neg hyz, if_neg hz]
  ring

/-- A term that is changed hands its coefficient on to the new form. -/
theorem CanIntroduce.eval_changedCoefficient (h : p.CanIntroduce target x y z) (hp : p.WellFormed K)
    (hw : K w) {t : Term ℕ × Coefficient} (ht : t ∈ p.termsWithPair target x y) (hv : v ∈ t.1)
    (hvx : v ≠ x) (hvy : v ≠ y) :
    ((p.withProduct target x y z w).termCoefficient (replacePair x y z t.1)).eval ρ =
      t.2.eval ρ := by
  obtain ⟨htp, -, hx, hy⟩ := mem_termsWithPair.mp ht
  have hvz : v ≠ z := (h.fresh v (mem_vars.mpr ⟨t, htp, hv⟩)).ne
  have hvs : v ∈ replacePair x y z t.1 := mem_replacePair.mpr (.inl ⟨hv, hvx, hvy⟩)
  have hz : z ∈ replacePair x y z t.1 := mem_replacePair.mpr (.inr rfl)
  have hsorted : Table.Sorted (p.termsWithPair target x y) :=
    hp.terms.sorted.sublist List.filter_sublist
  rw [h.eval_otherCoefficient hp hw hvx hvy hvz hvs, h.weighted_indicator hz fun _ he => he,
    h.weighted_indicator hz fun e he => (mem_termsWithPair.mp he).1, weighted,
    Table.total_eq_single hsorted ht]
  · simp
  · -- no other term has the same new form
    intro e he hne
    obtain ⟨hep, -, hex, hey⟩ := mem_termsWithPair.mp he
    rw [if_neg, mul_zero]
    exact fun heq => hne (replacePair_injective (hp.terms.entries e hep).increasing
      (hp.terms.entries t htp).increasing hex hey hx hy (h.notMem hep) (h.notMem htp) heq)

/-- A term that is not changed keeps its coefficient. -/
theorem CanIntroduce.eval_unchangedCoefficient (h : p.CanIntroduce target x y z)
    (hp : p.WellFormed K) (hw : K w) {t : Term ℕ × Coefficient} (ht : t ∈ p.terms)
    (hunchanged : t ∉ p.termsWithPair target x y) (hv : v ∈ t.1) (hvx : v ≠ x) (hvy : v ≠ y) :
    ((p.withProduct target x y z w).termCoefficient t.1).eval ρ = t.2.eval ρ := by
  have hvz : v ≠ z := (h.fresh v (mem_vars.mpr ⟨t, ht, hv⟩)).ne
  have hkept : weighted ρ (fun s => if s = t.1 then 1 else 0) (p.termsWithPair target x y) = 0 := by
    refine weighted_eq_zero fun e he => if_neg fun heq => hunchanged ?_
    obtain ⟨hep, hrest⟩ := mem_termsWithPair.mp he
    rw [heq] at hrest
    exact mem_termsWithPair.mpr ⟨ht, hrest⟩
  have hreplaced : weighted ρ (fun s => if replacePair x y z s = t.1 then 1 else 0)
      (p.termsWithPair target x y) = 0 := by
    refine weighted_eq_zero fun e _ => if_neg fun heq => h.notMem ht ?_
    rw [← heq]
    exact mem_replacePair.mpr (.inr rfl)
  rw [h.eval_otherCoefficient hp hw hvx hvy hvz hv, hkept, hreplaced,
    ← eval_termCoefficient hp.terms, termCoefficient_of_mem hp.terms ht]
  ring

/-- No variable is lost in a round whose weight is not zero. -/
theorem mem_vars_withProduct (hp : p.WellFormed K) (h : p.CanIntroduce target x y z) (hw : K w)
    (hne : ∃ ρ, w.eval ρ ≠ 0) (hv : v ∈ p.vars) : v ∈ (p.withProduct target x y z w).vars := by
  by_cases hpair : v = x ∨ v = y
  · obtain ⟨ρ, hne⟩ := hne
    refine mem_vars.mpr ⟨_, mem_of_eval_termCoefficient_ne_zero (t := [v, z]) (ρ := ρ) ?_, by simp⟩
    rw [h.eval_pairCoefficient hp hw hpair]
    exact mul_ne_zero (by norm_num) hne
  · obtain ⟨hvx, hvy⟩ := not_or.mp hpair
    obtain ⟨t, ht, hvt⟩ := mem_vars.mp hv
    obtain ⟨ρ, hρ⟩ := (hp.terms.entries t ht).exists_eval_ne_zero
    by_cases hchanged : t ∈ p.termsWithPair target x y
    · have hvs : v ∈ replacePair x y z t.1 := mem_replacePair.mpr (.inl ⟨hvt, hvx, hvy⟩)
      refine mem_vars.mpr ⟨(replacePair x y z t.1, _),
        mem_of_eval_termCoefficient_ne_zero (ρ := ρ) ?_, hvs⟩
      rwa [h.eval_changedCoefficient hp hw hchanged hvt hvx hvy]
    · refine mem_vars.mpr ⟨_, mem_of_eval_termCoefficient_ne_zero (ρ := ρ) ?_, hvt⟩
      rwa [h.eval_unchangedCoefficient hp hw ht hchanged hvt hvx hvy]

end Occurrence

/-! ## Values of the new polynomial -/

/-- The sum of the changed terms, each without the pair. -/
def moved (ρ : String → ℚ) (X : ℕ → ℚ) (p : Polynomial .binary ℕ) (target x y : ℕ) : ℚ :=
  weighted ρ (fun t => Term.eval X (withoutPair x y t)) (p.termsWithPair target x y)

/-- The penalty at a point, for weight one. -/
def penalty (X : ℕ → ℚ) (x y z : ℕ) : ℚ :=
  X x * X y - 2 * (X x * X z) - 2 * (X y * X z) + 3 * X z

/-- The value after a round: the moved terms change by the difference of the new variable and the product,
and the weighted penalty is added. -/
theorem eval_withProduct [Coefficient.Kind K] (hp : p.WellFormed K)
    (h : p.CanIntroduce target x y z) (hw : K w) :
    (p.withProduct target x y z w).eval ρ X =
      p.eval ρ X + (X z - X x * X y) * moved ρ X p target x y + w.eval ρ * penalty X x y z := by
  have hparts : ∀ e ∈ p.termsWithPair target x y,
      Term.eval X (replacePair x y z e.1) = X z * Term.eval X (withoutPair x y e.1) ∧
        Term.eval X e.1 = X x * X y * Term.eval X (withoutPair x y e.1) := fun e he => by
    obtain ⟨hep, -, hx, hy⟩ := mem_termsWithPair.mp he
    exact eval_replacePair (hp.terms.entries e hep).increasing hx hy h.pair.ne (h.notMem hep)
  have hold : weighted ρ (Term.eval X) (p.termsWithPair target x y) =
      X x * X y * moved ρ X p target x y := by
    rw [moved, ← weighted_const_mul]
    exact weighted_congr fun e he => (hparts e he).2
  have hnew : weighted ρ (fun t => Term.eval X (replacePair x y z t))
      (p.termsWithPair target x y) = X z * moved ρ X p target x y := by
    rw [moved, ← weighted_const_mul]
    exact weighted_congr fun e he => (hparts e he).1
  rw [Polynomial.eval, weighted_withProduct hp h hw, hold, hnew, Polynomial.eval, penalty]
  simp only [Term.eval_cons, Term.eval_nil, mul_one]
  ring

/-- A round changes no value where the new variable is the product of the pair. -/
theorem eval_withProduct_of_consistent [Coefficient.Kind K] (hp : p.WellFormed K)
    (h : p.CanIntroduce target x y z)
    (hw : K w) (hX : Domain.binary.IsPoint X) (hz : X z = X x * X y) :
    (p.withProduct target x y z w).eval ρ X = p.eval ρ X := by
  rw [eval_withProduct hp h hw, penalty, hz]
  rcases Domain.isValue_binary.mp (hX x) with hx | hx <;>
    rcases Domain.isValue_binary.mp (hX y) with hy | hy <;> rw [hx, hy] <;> ring

end Round

/-! ## The automatic weight -/

section Auto

variable {w : Coefficient} {ρ : String → ℚ} {X : ℕ → ℚ}

/-- The sum of the magnitudes of some coefficients. -/
def magnitude (ρ : String → ℚ) (l : List (Term ℕ × Coefficient)) : ℚ :=
  (l.map fun e => |e.2.eval ρ|).sum

theorem magnitude_nonneg (l : List (Term ℕ × Coefficient)) : 0 ≤ magnitude ρ l :=
  List.sum_nonneg fun q hq => by
    obtain ⟨e, -, rfl⟩ := List.mem_map.mp hq
    exact abs_nonneg _

/-- The automatic weight of rational coefficients is one more than the sum of their magnitudes. -/
theorem forTerms_auto {l : List (Term ℕ × Coefficient)} (hl : ∀ e ∈ l, e.2.IsRational) :
    ReductionWeight.forTerms .auto l = .ok (.num (.exact (1 + magnitude ρ l))) := by
  have key : ∀ a : ℚ, l.foldlM (fun (sum : Number) t => do
      return sum + (← Error.ofCoefficient t.2.abs)) (.exact a) =
        (.ok (.exact (a + magnitude ρ l)) : Except Error Number) := by
    induction l with
    | nil => simp [magnitude, pure, Except.pure]
    | cons e l ih =>
      intro a
      obtain ⟨⟨q, hq⟩, hl⟩ := List.forall_mem_cons.mp hl
      have habs : Error.ofCoefficient e.2.abs = .ok (.exact |q|) := by
        have hq' : (if q < 0 then -q else q) = |q| := by
          split
          · rename_i hneg
            rw [abs_of_neg hneg]
          · rename_i hneg
            rw [abs_of_nonneg (not_lt.mp hneg)]
        rw [hq, ← hq']
        rfl
      have hcons : magnitude ρ (e :: l) = |q| + magnitude ρ l := by
        rw [magnitude, List.map_cons, List.sum_cons, hq]
        rfl
      rw [List.foldlM_cons, habs, hcons, ← add_assoc]
      exact ih hl (a + |q|)
  rw [ReductionWeight.forTerms]
  have hone : (1 : Number) = .exact 1 := rfl
  rw [hone, key 1]
  rfl

/-- The automatic weight of a round. -/
theorem forTerms_auto_termsWithPair (hp : p.WellFormed Coefficient.IsRational) (ρ : String → ℚ) :
    ReductionWeight.forTerms .auto (p.termsWithPair target x y) =
      .ok (.num (.exact (1 + magnitude ρ (p.termsWithPair target x y)))) :=
  forTerms_auto fun e he => (hp.terms.entries e (mem_termsWithPair.mp he).1).kind

/-- The part that was moved is at most the sum of the magnitudes of its coefficients. -/
theorem abs_moved_le (hX : Domain.binary.IsPoint X) (p : Polynomial .binary ℕ) :
    |moved ρ X p target x y| ≤ magnitude ρ (p.termsWithPair target x y) := by
  rw [moved]
  induction p.termsWithPair target x y with
  | nil => simp [magnitude]
  | cons e l ih =>
    have h0 := Term.eval_nonneg hX (withoutPair x y e.1)
    have h1 := Term.eval_le_one hX (withoutPair x y e.1)
    have hfirst : |e.2.eval ρ * Term.eval X (withoutPair x y e.1)| ≤ |e.2.eval ρ| := by
      rw [abs_mul, abs_of_nonneg h0]
      exact mul_le_of_le_one_right (abs_nonneg _) h1
    rw [weighted_cons]
    calc |e.2.eval ρ * Term.eval X (withoutPair x y e.1) + _|
        ≤ _ + _ := abs_add_le _ _
      _ ≤ |e.2.eval ρ| + magnitude ρ l := add_le_add hfirst ih

/-- The penalty is at least one where the new variable is not the product of the pair, and what the
changed terms lose is at most their magnitude. -/
theorem eval_withProduct_ge {K : Coefficient → Prop} [Coefficient.Kind K] (hp : p.WellFormed K)
    (h : p.CanIntroduce target x y z) (hw : K w)
    (hweight : 1 + magnitude ρ (p.termsWithPair target x y) ≤ w.eval ρ)
    (hX : Domain.binary.IsPoint X) (hz : X z ≠ X x * X y) :
    p.eval ρ X + 1 ≤ (p.withProduct target x y z w).eval ρ X := by
  rw [eval_withProduct hp h hw, penalty]
  have hmoved : |moved ρ X p target x y| ≤ _ := abs_moved_le hX p
  obtain ⟨hlower, hupper⟩ := abs_le.mp hmoved
  have hmag := magnitude_nonneg (ρ := ρ) (p.termsWithPair target x y)
  rcases Domain.isValue_binary.mp (hX x) with hx | hx <;>
    rcases Domain.isValue_binary.mp (hX y) with hy | hy <;>
    rcases Domain.isValue_binary.mp (hX z) with hz' | hz' <;>
    rw [hx, hy, hz'] at hz ⊢ <;> first | linarith | exact (hz (by norm_num)).elim

end Auto

/-! ## Progress -/

section Progress

variable {K : Coefficient → Prop} {w : Coefficient}

/-- Adding terms up to the target does not raise the excess over it. -/
theorem excess_accumulateList_le {l : List (Term ℕ × Coefficient)}
    (hl : ∀ e ∈ l, e.1.length ≤ target) :
    (p.accumulateList l).excess target ≤ p.excess target := by
  rw [accumulateList]
  induction l generalizing p with
  | nil => exact le_rfl
  | cons e l ih =>
    obtain ⟨he, hl⟩ := List.forall_mem_cons.mp hl
    have hadd : (p.accumulate e.1 e.2).excess target ≤ _ := excess_accumulate_le
    have hrest := ih hl (p := p.accumulate e.1 e.2)
    rw [List.foldl_cons]
    omega

/-- A round lowers the excess. -/
theorem excess_withProduct_lt [Coefficient.Closed K] (hp : p.WellFormed K)
    (h : p.CanIntroduce target x y z)
    (h2 : 2 ≤ target) : (p.withProduct target x y z w).excess target < p.excess target := by
  have hlength : ∀ e ∈ p.termsWithPair target x y,
      (replacePair x y z e.1).length - target + 1 ≤ e.1.length - target := fun e he => by
    obtain ⟨hep, hlt, hx, hy⟩ := mem_termsWithPair.mp he
    have := length_replacePair (hp.terms.entries e hep).increasing hx hy h.pair.ne (h.notMem hep)
    omega
  have hsome : 0 < (p.termsWithPair target x y).length := by
    obtain ⟨-, t, ht, hlt, hx, hy⟩ := h.pair
    exact List.length_pos_of_mem (mem_termsWithPair.mpr ⟨ht, hlt, hx, hy⟩)
  have hreplaced := excess_replaceList_add_le hp (h.replaceable hp) hlength
  have hpenalty : ∀ e ∈ penaltyTerms x y z w, e.1.length ≤ target := by
    simp only [penaltyTerms, List.forall_mem_cons, List.length_cons, List.length_nil]
    exact ⟨by omega, by omega, by omega, by omega, by simp⟩
  have hadded := excess_accumulateList_le hpenalty
    (p := p.replaceList (replacePair x y z) (p.termsWithPair target x y))
  rw [withProduct, addProductPenalty_eq _ h.pair.1 h.right_lt]
  exact lt_of_le_of_lt hadded (by omega)

/-- A round records the origin of the new variable and leaves the other records alone. -/
theorem get?_ancillas_withProduct (h : p.CanIntroduce target x y z) (v : ℕ) :
    (p.withProduct target x y z w).ancillas.get? v =
      if v = z then some (.product x y) else p.ancillas.get? v := by
  rw [withProduct, addProductPenalty_eq _ h.pair.1 h.right_lt]
  simp only [ancillas_replaceList]
  split
  · rename_i hv
    rw [hv, Table.get?_insert_self]
  · rename_i hv
    rw [Table.get?_insert_of_ne hv]

/-- A round appends labels to the index and moves none. -/
theorem labels_prefix_withProduct (h : p.CanIntroduce target x y z) :
    p.index.labels <+: (p.withProduct target x y z w).index.labels := by
  rw [withProduct, addProductPenalty_eq _ h.pair.1 h.right_lt]
  exact (labels_prefix_replaceList p _).trans (labels_prefix_accumulateList _ _)

end Progress

end PseudoBoolean.Polynomial

import Mathlib.Logic.Function.Basic
import PseudoBoolean.Proofs.Model.Reachable
import PseudoBoolean.Proofs.Polynomial.ValueArithmetic

/-!
# Polynomials are determined by their values

Two polynomials over the same domain compare equal exactly if they have the same values
(`Reachable.valueEq_iff_values`). The argument does not look at the terms of a polynomial one by one.
Every weight of the terms over finitely many variables is a combination of evaluations at points
(`exists_combination_eq`), because the two values of a variable are distinct. So a polynomial that is zero
at all points has only zeros among its weighted sums (`weighted_eq_zero_of_points`), and these determine
the terms.
-/

namespace PseudoBoolean.Polynomial

variable {d : Domain} {V : Type} {ρ : String → ℚ} {v : V} {t : Term V} {w : ℚ}

/-! ## Weights as combinations of evaluations -/

section Combination

variable {c c' : List (ℚ × (V → ℚ))} {vars : List V} {l : List (Term V × Coefficient)}

/-- The value of a term at several points, each multiplied by a factor of its own, summed up. -/
def combination (c : List (ℚ × (V → ℚ))) (t : Term V) : ℚ :=
  (c.map fun e => e.1 * Term.eval e.2 t).sum

@[simp]
theorem combination_nil : combination [] t = 0 := rfl

@[simp]
theorem combination_cons (e : ℚ × (V → ℚ)) :
    combination (e :: c) t = e.1 * Term.eval e.2 t + combination c t := by
  simp [combination]

/-- The combination of two lists of points is the sum of both. -/
theorem combination_append : combination (c ++ c') t = combination c t + combination c' t := by
  simp [combination]

/-- Weighting the terms by a combination of points combines the values at these points. -/
theorem weighted_combination (c : List (ℚ × (V → ℚ))) (l : List (Term V × Coefficient)) :
    weighted ρ (combination c) l = (c.map fun e => e.1 * weighted ρ (Term.eval e.2) l).sum := by
  induction c with
  | nil => exact weighted_eq_zero fun _ _ => rfl
  | cons e c ih =>
    rw [List.map_cons, List.sum_cons, ← ih, ← weighted_const_mul, ← weighted_add]
    exact weighted_congr fun s _ => combination_cons e

variable [DecidableEq V]

/-- The same combination at points that all give `v` the value `w`. -/
def withValue (v : V) (w : ℚ) (c : List (ℚ × (V → ℚ))) : List (ℚ × (V → ℚ)) :=
  c.map fun e => (e.1, Function.update e.2 v w)

theorem withValue_cons (e : ℚ × (V → ℚ)) :
    withValue v w (e :: c) = (e.1, Function.update e.2 v w) :: withValue v w c := rfl

/-- Points stay points of the domain when one variable is set to a value of it. -/
theorem isPoint_withValue (hw : d.IsValue w) (hc : ∀ e ∈ c, d.IsPoint e.2) :
    ∀ e ∈ withValue v w c, d.IsPoint e.2 := by
  intro e he u
  obtain ⟨e', he', rfl⟩ := List.mem_map.mp he
  show d.IsValue (Function.update e'.2 v w u)
  by_cases hu : u = v
  · rw [hu, Function.update_self]
    exact hw
  · rw [Function.update_of_ne hu]
    exact hc e' he' u

/-- A term does not notice a variable it does not have. -/
theorem eval_update_of_notMem (x : V → ℚ) (h : v ∉ t) :
    Term.eval (Function.update x v w) t = Term.eval x t :=
  Term.eval_congr fun _ hu => Function.update_of_ne (ne_of_mem_of_not_mem hu h) w x

/-- Setting a variable that a term does not have leaves the combination at the term. -/
theorem combination_withValue (h : v ∉ t) : combination (withValue v w c) t = combination c t := by
  induction c with
  | nil => rfl
  | cons e c ih => rw [withValue_cons, combination_cons, combination_cons, ih, eval_update_of_notMem e.2 h]

/-- Setting the first variable of a term to a value multiplies the combination at the rest by it. -/
theorem combination_withValue_cons (h : v ∉ t) :
    combination (withValue v w c) (v :: t) = w * combination c t := by
  induction c with
  | nil => simp [withValue]
  | cons e c ih =>
    rw [withValue_cons, combination_cons, combination_cons, ih]
    dsimp only
    rw [Term.eval_cons, Function.update_self, eval_update_of_notMem e.2 h]
    ring

/-- Every weight of the terms over finitely many variables is a combination of evaluations at points. -/
theorem exists_combination_eq (d : Domain) (hvars : vars.Nodup) (g : Term V → ℚ) :
    ∃ c : List (ℚ × (V → ℚ)), (∀ e ∈ c, d.IsPoint e.2) ∧
      ∀ t : Term V, t.Sublist vars → combination c t = g t := by
  induction vars generalizing g with
  | nil =>
    refine ⟨[(g [], fun _ => (d.ofBit false : ℤ))], ?_, fun t ht => ?_⟩
    · exact List.forall_mem_singleton.mpr fun _ => Domain.isValue_ofBit d false
    · rw [List.sublist_nil.mp ht]
      simp
  | cons v vars ih =>
    obtain ⟨hv, hvars⟩ := List.nodup_cons.mp hvars
    obtain ⟨x, y, hx, hy, hne⟩ : ∃ x y : ℚ, d.IsValue x ∧ d.IsValue y ∧ x - y ≠ 0 :=
      ⟨_, _, Domain.isValue_ofBit d true, Domain.isValue_ofBit d false, by
        cases d <;> norm_num [Domain.ofBit]⟩
    -- what the combinations at `v = x` and at `v = y` have to be on the terms without `v`
    obtain ⟨c, hc, hsum⟩ := ih hvars fun s => (g (v :: s) - y * g s) / (x - y)
    obtain ⟨c', hc', hsum'⟩ := ih hvars fun s => (x * g s - g (v :: s)) / (x - y)
    refine ⟨withValue v x c ++ withValue v y c', ?_, fun t ht => ?_⟩
    · intro e he
      rcases List.mem_append.mp he with he | he
      · exact isPoint_withValue hx hc e he
      · exact isPoint_withValue hy hc' e he
    rcases List.sublist_cons_iff.mp ht with ht | ⟨s, rfl, hs⟩
    · have hvt : v ∉ t := fun h => hv (ht.subset h)
      rw [combination_append, combination_withValue hvt, combination_withValue hvt, hsum t ht,
        hsum' t ht]
      field_simp
      ring
    · have hvs : v ∉ s := fun h => hv (hs.subset h)
      rw [combination_append, combination_withValue_cons hvs, combination_withValue_cons hvs, hsum s hs,
        hsum' s hs]
      field_simp
      ring

/-- If a sum of terms over finitely many variables is zero at all points, then so are all other weighted
sums of its coefficients. -/
theorem weighted_eq_zero_of_points (hvars : vars.Nodup) (hl : ∀ e ∈ l, e.1.Sublist vars)
    (h : ∀ x, d.IsPoint x → weighted ρ (Term.eval x) l = 0) (g : Term V → ℚ) :
    weighted ρ g l = 0 := by
  obtain ⟨c, hc, hg⟩ := exists_combination_eq d hvars g
  have heq : weighted ρ g l = weighted ρ (combination c) l :=
    weighted_congr fun e he => (hg e.1 (hl e he)).symm
  rw [heq, weighted_combination]
  refine List.sum_eq_zero fun r hr => ?_
  obtain ⟨e, he, rfl⟩ := List.mem_map.mp hr
  rw [h e.2 (hc e he), mul_zero]

end Combination

/-! ## Equality of polynomials -/

variable [Variable V] {p q : Polynomial d V}

/-- The variables of a term are in the order of all variables that occur. -/
theorem WellFormed.sublist_vars {K : Coefficient → Prop} (hp : p.WellFormed K) {e : Term V × Coefficient}
    (he : e ∈ p.terms) : e.1.Sublist p.vars :=
  (hp.terms.entries e he).increasing.sublist_of_subset (Table.increasing_sortedSet _) fun _ hv =>
    mem_vars.mpr ⟨e, he, hv⟩

/-- Polynomials with the same value at every point have the same terms. -/
theorem WellFormed.terms_eq_of_eval_eq {K : Coefficient → Prop} [Coefficient.Kind K]
    (hp : p.WellFormed K) (hq : q.WellFormed K)
    (h : ∀ ρ x, d.IsPoint x → p.eval ρ x = q.eval ρ x) : p.terms = q.terms := by
  classical
  refine hp.terms.ext hq.terms fun ρ g => ?_
  -- the difference is zero at all points
  have hzero : weighted ρ g (p - q).terms = 0 := by
    refine weighted_eq_zero_of_points (d := d) (Table.increasing_sortedSet _).nodup
      (fun e he => (hp.sub hq).sublist_vars he) (fun x hx => ?_) g
    rw [weighted_sub hp hq]
    exact sub_eq_zero.mpr (h ρ x hx)
  rw [weighted_sub hp hq] at hzero
  exact sub_eq_zero.mp hzero

/-- Comparing two well-formed polynomials compares their terms. -/
theorem WellFormed.valueEq_iff (hp : p.WellFormed Coefficient.Normal)
    (hq : q.WellFormed Coefficient.Normal) : p.valueEq q ↔ p.terms = q.terms := by
  have hentry : ∀ e ∈ p.terms, ∀ e' ∈ q.terms,
      (e.1 == e'.1 && e.2.valueEq e'.2) = true ↔ e = e' := by
    intro e he e' he'
    rw [Bool.and_eq_true, beq_iff_eq,
      (hp.terms.entries e he).kind.valueEq_iff (hq.terms.entries e' he').kind, Prod.ext_iff]
  exact entrywise_iff_eq hentry

/-- Polynomials with the same values at assignments have the same value at every point. -/
theorem WellFormed.eval_eq_of_values (hp : p.WellFormed Coefficient.Normal)
    (hq : q.WellFormed Coefficient.Normal)
    (h : ∀ a, Assignment.Covers d (p.vars ++ q.vars) a →
      ∃ c, p.value a = .ok c ∧ q.value a = .ok c) (ρ : String → ℚ) {x : V → ℚ} (hx : d.IsPoint x) :
    p.eval ρ x = q.eval ρ x := by
  obtain ⟨a, ha, hax, -⟩ := Assignment.exists_override hx (p.vars ++ q.vars) []
  obtain ⟨u, hu⟩ := hp.exists_hasValue (ha.mono fun _ => List.mem_append_left _)
  obtain ⟨v, hv⟩ := hq.exists_hasValue (ha.mono fun _ => List.mem_append_right _)
  obtain ⟨c, hpc, hqc⟩ := h a ha
  have huv : u = v := by
    rw [hu.value_eq] at hpc
    rw [hv.value_eq, ← hpc] at hqc
    exact (Except.ok.inj hqc).symm
  calc p.eval ρ x = p.eval ρ (a.point d) :=
        eval_congr fun w hw => (hax w (List.mem_append_left _ hw)).symm
    _ = q.eval ρ (a.point d) := by rw [← hu.eval_eq, ← hv.eval_eq, huv]
    _ = q.eval ρ x := eval_congr fun w hw => hax w (List.mem_append_right _ hw)

/-- The stored form is canonical. Polynomials that come out of operations on exact inputs compare equal
exactly if they have the same value at every assignment that gives all their variables values of the
domain. -/
theorem Reachable.valueEq_iff_values (hp : Reachable p) (hq : Reachable q) :
    p.valueEq q ↔ ∀ a, Assignment.Covers d (p.vars ++ q.vars) a →
      ∃ c, p.value a = .ok c ∧ q.value a = .ok c := by
  have hpw := hp.regular.toWellFormed
  have hqw := hq.regular.toWellFormed
  rw [hpw.valueEq_iff hqw]
  constructor
  · intro h a ha
    obtain ⟨c, hc⟩ := hpw.exists_hasValue (ha.mono fun _ => List.mem_append_left _)
    refine ⟨c, hc.value_eq, ?_⟩
    rw [value, ← h]
    exact hc.value_eq
  · intro h
    exact hpw.terms_eq_of_eval_eq hqw fun ρ x hx => hpw.eval_eq_of_values hqw h ρ hx

/-- The square of `k * s₀ * s₁ + s₀`, multiplied out. -/
def coupledSquare : Polynomial .spin ℕ :=
  ofTerms [([], Coefficient.param "k" * Coefficient.param "k" + 1), ([1], 2 * Coefficient.param "k")]

/-- The square compares equal to what it is multiplied out, so both have the same value at two spins
of `-1`. -/
theorem Reachable.valueEq_iff_values_square :
    (coupled * coupled).valueEq coupledSquare ∧
      ∃ c, (coupled * coupled).value [(0, -1), (1, -1)] = .ok c ∧
        coupledSquare.value [(0, -1), (1, -1)] = .ok c := by
  have hk : (Coefficient.param "k").Exact := .param "k"
  have hcoupled : Reachable coupled :=
    .ofTerms (List.forall_mem_cons.mpr ⟨hk, List.forall_mem_singleton.mpr (.number 1)⟩)
  have hsquare : Reachable coupledSquare :=
    .ofTerms (List.forall_mem_cons.mpr ⟨(hk.mul hk).add (.number 1),
      List.forall_mem_singleton.mpr (.mul (.number 2) hk)⟩)
  have hequal : (coupled * coupled).valueEq coupledSquare := by decide +kernel
  have hvars : (coupled * coupled).vars ++ coupledSquare.vars = [1, 1] := by decide +kernel
  refine ⟨hequal, (valueEq_iff_values (hcoupled.mul hcoupled) hsquare).mp hequal _ fun v hv => ?_⟩
  rw [hvars] at hv
  obtain rfl : v = 1 := by simpa using hv
  exact ⟨-1, rfl, rfl⟩

end PseudoBoolean.Polynomial

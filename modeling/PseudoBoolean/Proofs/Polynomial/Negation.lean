import PseudoBoolean.Proofs.Polynomial.Arithmetic
import PseudoBoolean.Proofs.Polynomial.Bounds

/-!
# Negation

With exact coefficients a negation is the polynomial with opposite coefficients: the same terms, numbering and
ancillas (`WellFormed.neg_eq`). So its bounds are the opposite ones in exchanged order (`bounds_neg`), and its
values are the opposite ones (`valueNumber_neg`). Where parameters leave no bounds or no value, they are the
same parameters, and the error is the same.
-/

namespace PseudoBoolean

namespace Polynomial

variable {d : Domain} {V : Type} [Variable V] {p : Polynomial d V}

/-! ## Terms -/

/-- The coefficients of a negation, term by term. -/
theorem WellFormed.neg_eq (hp : p.WellFormed Coefficient.Normal) :
    -p = { p with terms := p.terms.mapValues (- ·) } := by
  have hterms : GoodTerms Coefficient.Normal (p.terms.mapValues (- ·)) := by
    refine ⟨List.pairwise_map.mpr hp.terms.sorted, List.forall_mem_map.mpr fun e he => ?_⟩
    obtain ⟨hinc, hnormal, hne⟩ := hp.terms.entries e he
    exact ⟨hinc, hnormal.neg, hnormal.isZero_neg.trans hne⟩
  have hparts : -p = Polynomial.ofParts (p.terms.mapValues (- ·)) p.index p.ancillas :=
    mapCoefficients_eq _ p
  have hindexed : ∀ e ∈ p.terms.mapValues (- ·), ∀ v ∈ e.1, v ∈ p.index.labels :=
    List.forall_mem_map.mpr hp.indexed
  calc -p = ⟨(-p).terms, (-p).index, (-p).ancillas⟩ := rfl
    _ = ⟨p.terms.mapValues (- ·), p.index, p.ancillas⟩ := by
      rw [hparts, terms_ofParts hterms hp.distinct, ancillas_ofParts, index_ofParts hindexed]

/-- The terms of a negation with their coefficients as numbers, or the same error. -/
theorem numericTerms_neg (hp : p.WellFormed Coefficient.Normal) :
    (-p).numericTerms = p.numericTerms.map (·.mapValues (- ·)) := by
  have hnormal : ∀ e ∈ p.terms, e.2.Normal := fun e he => (hp.terms.entries e he).kind
  rw [hp.neg_eq, numericTerms, numericTerms, Table.mapValues]
  generalize p.terms = terms at hnormal
  induction terms with
  | nil => rfl
  | cons e terms ih =>
    obtain ⟨he, hterms⟩ := List.forall_mem_cons.mp hnormal
    rw [List.map_cons, List.mapM_cons, List.mapM_cons, ih hterms, he.toNumber_neg]
    cases e.2.toNumber with
    | error cause => rfl
    | ok n =>
      cases hrest : List.mapM (fun t : Term V × Coefficient => do
        return (t.1, ← Error.ofCoefficient t.2.toNumber)) terms <;> rfl

/-! ## Bounds -/

/-- The opposite of a coefficient that is not zero contributes least where the coefficient contributes
most. -/
theorem leastBit_neg (d : Domain) {c : ℚ} (hc : c ≠ 0) : leastBit d (-c) = !leastBit d c := by
  rcases hc.lt_or_gt with hlt | hgt
  · cases d <;> simp [leastBit, hlt, hlt.le]
  · cases d <;> simp [leastBit, hgt, hgt.le]

/-- The range of a negated term is the negated range, turned round. -/
theorem termRange_neg (d : Domain) (c : ℚ) :
    d.termRange (.exact (-c)) = (-(d.termRange (.exact c)).2, -(d.termRange (.exact c)).1) := by
  rcases eq_or_ne c 0 with rfl | hc
  · simp only [neg_zero, termRange_exact, zero_mul]
    rfl
  · rw [termRange_exact, termRange_exact, leastBit_neg d hc, neg_mul, neg_mul, Bool.not_not]
    rfl

omit [Variable V] in
/-- The opposite coefficient moves the ends of the mirrored range. -/
theorem addRange_neg (d : Domain) (t : Term V) (lower upper c : ℚ) :
    ∃ lower' upper' : ℚ,
      addRange d (.exact lower, .exact upper) (t, .exact c) = (.exact lower', .exact upper') ∧
      addRange d (.exact (-upper), .exact (-lower)) (t, .exact (-c)) =
        (.exact (-upper'), .exact (-lower')) := by
  by_cases ht : t.isEmpty
  · refine ⟨lower + c, upper + c, by rw [addRange, if_pos ht]; rfl, ?_⟩
    rw [addRange, if_pos ht, neg_add, neg_add]
    rfl
  · refine ⟨_, _, by rw [addRange, if_neg ht, termRange_exact]; rfl, ?_⟩
    rw [addRange, if_neg ht, termRange_neg, termRange_exact, neg_add, neg_add]
    rfl

omit [Variable V] in
/-- Summing the negated ranges gives the negated sum, turned round. -/
theorem foldl_addRange_neg (d : Domain) (terms : List (Term V × Number))
    (h : ∀ t ∈ terms, ∃ c : ℚ, t.2 = .exact c) (lower upper : ℚ) :
    ∃ lower' upper' : ℚ,
      terms.foldl (addRange d) (.exact lower, .exact upper) = (.exact lower', .exact upper') ∧
      (Table.mapValues (- ·) terms).foldl (addRange d) (.exact (-upper), .exact (-lower)) =
        (.exact (-upper'), .exact (-lower')) := by
  induction terms generalizing lower upper with
  | nil => exact ⟨lower, upper, rfl, rfl⟩
  | cons t terms ih =>
    obtain ⟨⟨c, hc⟩, hterms⟩ := List.forall_mem_cons.mp h
    obtain ⟨l, u, hstep, hstep'⟩ := addRange_neg d t.1 lower upper c
    obtain ⟨l', u', hfold, hfold'⟩ := ih hterms l u
    refine ⟨l', u', ?_, ?_⟩
    · rw [List.foldl_cons, ← Prod.mk.eta (p := t), hc, hstep, hfold]
    · rw [Table.mapValues, List.map_cons, List.foldl_cons, hc]
      exact (congrArg (List.foldl (addRange d) · _) hstep').trans hfold'

omit [Variable V] in
theorem bounds_eq_map (p : Polynomial d V) :
    p.bounds = p.numericTerms.map fun terms => terms.foldl (addRange d) (0, 0) := rfl

/-- The bounds of a negation, or the same error. -/
theorem bounds_neg (hp : p.WellFormed Coefficient.Normal) :
    (-p).bounds = p.bounds.map fun range => (-range.2, -range.1) := by
  rw [bounds_eq_map, bounds_eq_map, numericTerms_neg hp]
  cases hterms : p.numericTerms with
  | error e => rfl
  | ok terms =>
    rw [numericTerms_eq (hp.isRational_of_numericTerms hterms) fun _ => 0] at hterms
    obtain rfl := Except.ok.inj hterms
    obtain ⟨l, u, hfold, hfold'⟩ := foldl_addRange_neg d (p.rationalTerms fun _ => 0)
      (List.forall_mem_map.mpr fun e _ => ⟨_, rfl⟩) 0 0
    have hrange : (p.rationalTerms fun _ => 0).foldl (addRange d) (0, 0) = (.exact l, .exact u) := hfold
    rw [neg_zero] at hfold'
    exact congrArg Except.ok
      (hfold'.trans (congrArg (fun range : Number × Number => (-range.2, -range.1)) hrange).symm)

/-! ## Values -/

omit [Variable V] in
/-- Adding a coefficient times a sign stays in normal form. -/
theorem normal_addSigned {sum c : Coefficient} (hsum : sum.Normal) (hc : c.Normal) (n : ℤ) :
    (addSigned sum n c).Normal := by
  rw [addSigned]
  split
  · exact hsum.add hc
  · split
    · exact hsum.sub hc
    · exact hsum

/-- Negation passes through adding a coefficient times a sign. -/
theorem addSigned_neg {sum c : Coefficient} (hsum : sum.Normal) (hc : c.Normal) (n : ℤ) :
    addSigned (-sum) n (-c) = -addSigned sum n c := by
  rw [addSigned, addSigned]
  split
  · exact hsum.neg_add hc
  · split
    · exact hsum.neg_sub hc
    · rfl

/-- The value of a negation, or the same error. -/
theorem value_neg (hp : p.WellFormed Coefficient.Normal) (a : Assignment V) :
    (-p).value a = (p.value a).map (- ·) := by
  have key : ∀ (terms : List (Term V × Coefficient)) (sum : Coefficient), sum.Normal →
      (∀ e ∈ terms, e.2.Normal) →
      (Table.mapValues (- ·) terms).foldlM (fun sum (t : Term V × Coefficient) => do
          return addSigned sum (← termValue d a t.1) t.2) (-sum) =
        (terms.foldlM (fun sum (t : Term V × Coefficient) => do
          return addSigned sum (← termValue d a t.1) t.2) sum).map (- ·) := by
    intro terms
    induction terms with
    | nil => exact fun _ _ _ => rfl
    | cons e terms ih =>
      intro sum hsum hterms
      obtain ⟨he, hterms⟩ := List.forall_mem_cons.mp hterms
      rw [Table.mapValues, List.map_cons, List.foldlM_cons, List.foldlM_cons]
      cases termValue d a e.1 with
      | error cause => rfl
      | ok n =>
        refine Eq.trans ?_ (ih _ (normal_addSigned hsum he n) hterms)
        rw [← addSigned_neg hsum he n]
        rfl
  rw [hp.neg_eq]
  exact key p.terms 0 rfl fun e he => (hp.terms.entries e he).kind

/-- The value of a well-formed polynomial is in normal form. -/
theorem normal_of_value (hp : p.WellFormed Coefficient.Normal) {a : Assignment V} {c : Coefficient}
    (h : p.value a = .ok c) : c.Normal := by
  refine invariant_of_foldlM Coefficient.Normal (fun sum e he next hsum hstep => ?_)
    (Coefficient.kind_ofNat 0) h
  obtain ⟨n, -, hn⟩ := exists_of_bind_eq_ok hstep
  obtain rfl := Except.ok.inj hn
  exact normal_addSigned hsum (hp.terms.entries e he).kind n

/-- A value that is a number is exact, wherever it is taken. -/
theorem isExact_of_valueNumber (hp : p.WellFormed Coefficient.Normal) {a : Assignment V} {x : Number}
    (h : p.valueNumber a = .ok x) : ∃ q : ℚ, x = .exact q := by
  obtain ⟨c, hc, hx⟩ := exists_of_bind_eq_ok h
  cases c with
  | num n =>
    obtain rfl := Except.ok.inj hx
    exact Number.isExact_iff.mp (normal_of_value hp hc)
  | sym s => cases hx

/-- The number that is the value of a negation, or the same error. -/
theorem valueNumber_neg (hp : p.WellFormed Coefficient.Normal) (a : Assignment V) :
    (-p).valueNumber a = (p.valueNumber a).map (- ·) := by
  rw [valueNumber, valueNumber, value_neg hp]
  cases hvalue : p.value a with
  | error e => rfl
  | ok c =>
    change Error.ofCoefficient (-c).toNumber = (Error.ofCoefficient c.toNumber).map _
    rw [(normal_of_value hp hvalue).toNumber_neg]
    cases c.toNumber <;> rfl

end Polynomial
end PseudoBoolean

import PseudoBoolean.Polynomial.Arithmetic
import PseudoBoolean.Proofs.Ancilla
import PseudoBoolean.Proofs.Polynomial.WellFormed
import PseudoBoolean.Proofs.PowerLoop

/-!
# Arithmetic of well-formed polynomials

Each operation leads from well-formed polynomials to a well-formed one, adds no variable to those of its
operands, keeps the numbering of the left operand as an initial part, and has the value that its name
says. Products use the rule of the domain, so their values are those at points of the domain.
-/

namespace PseudoBoolean.Polynomial

variable {d : Domain} {V : Type} [Variable V] {K : Coefficient → Prop}
  {p q : Polynomial d V} {c k : Coefficient} {ρ : String → ℚ} {x : V → ℚ} {v : V}

/-! ## Coefficient by coefficient -/

/-- Without its terms a polynomial is still well-formed. -/
theorem WellFormed.cleared (hp : p.WellFormed K) : p.cleared.WellFormed K :=
  ⟨.nil, hp.distinct, by simp [Polynomial.cleared]⟩

omit [Variable V] in
/-- What is left without the terms is zero. -/
@[simp]
theorem eval_cleared : p.cleared.eval ρ x = 0 := rfl

/-- Without terms no variable occurs, although all of them keep their numbers. -/
theorem vars_cleared : p.cleared.vars = [] := rfl

/-- The changed coefficients are added up from nothing, in the old numbering. -/
theorem mapCoefficients_eq (f : Coefficient → Coefficient) (p : Polynomial d V) :
    p.mapCoefficients f = p.cleared.accumulateList (p.terms.map fun e => (e.1, f e.2)) := by
  rw [mapCoefficients, accumulateList, List.foldl_map]

/-- Terms with changed coefficients can be added if the change stays within the kind. -/
theorem addable_map {f : Coefficient → Coefficient} (hp : p.WellFormed K)
    (hf : ∀ c, K c → K (f c)) : Addable K (p.terms.map fun e => (e.1, f e.2)) := by
  intro e he
  obtain ⟨e', he', rfl⟩ := List.mem_map.mp he
  exact ⟨(hp.terms.addable e' he').1, hf _ (hp.terms.addable e' he').2⟩

/-- A change of all coefficients that stays within the kind keeps well-formedness. -/
theorem WellFormed.mapCoefficients [Coefficient.Closed K] {f : Coefficient → Coefficient}
    (hp : p.WellFormed K) (hf : ∀ c, K c → K (f c)) : (p.mapCoefficients f).WellFormed K := by
  rw [mapCoefficients_eq]
  exact hp.cleared.accumulateList (addable_map hp hf)

/-- A map that multiplies the value of every coefficient by `r` multiplies their weighted sums by `r`. -/
theorem weighted_map {f : Coefficient → Coefficient} {r : ℚ} (hp : p.WellFormed K)
    (hr : ∀ c, K c → (f c).eval ρ = c.eval ρ * r) (g : Term V → ℚ) :
    weighted ρ g (p.terms.map fun e => (e.1, f e.2)) = weighted ρ g p.terms * r := by
  rw [weighted, Table.total, List.map_map, weighted, Table.total, ← List.sum_map_mul_right]
  refine congrArg List.sum (List.map_congr_left fun e he => ?_)
  simp only [Function.comp, hr _ (hp.terms.addable e he).2]
  ring

/-- If every coefficient is multiplied by `r`, so is the value. -/
theorem eval_mapCoefficients [Coefficient.Kind K] {f : Coefficient → Coefficient} {r : ℚ}
    (hp : p.WellFormed K) (hf : ∀ c, K c → K (f c))
    (hr : ∀ c, K c → (f c).eval ρ = c.eval ρ * r) : (p.mapCoefficients f).eval ρ x = p.eval ρ x * r := by
  rw [mapCoefficients_eq, eval_accumulateList hp.cleared (addable_map hp hf), eval_cleared, zero_add,
    weighted_map hp hr, Polynomial.eval]

/-- No variable comes to occur by a change of coefficients. -/
theorem mem_vars_of_mem_mapCoefficients {f : Coefficient → Coefficient}
    (h : v ∈ (p.mapCoefficients f).vars) : v ∈ p.vars := by
  rw [mapCoefficients_eq] at h
  rcases mem_vars_of_mem_accumulateList h with h | ⟨e, he, hv⟩
  · rw [vars_cleared] at h
    cases h
  · obtain ⟨e', he', rfl⟩ := List.mem_map.mp he
    exact mem_vars.mpr ⟨e', he', hv⟩

/-- The old numbering is an initial part of the new one. -/
theorem labels_prefix_mapCoefficients (f : Coefficient → Coefficient) (p : Polynomial d V) :
    p.index.labels <+: (p.mapCoefficients f).index.labels := by
  rw [mapCoefficients_eq]
  exact labels_prefix_accumulateList p.cleared _

/-- A change of coefficients keeps the records. -/
@[simp]
theorem ancillas_mapCoefficients (f : Coefficient → Coefficient) (p : Polynomial d V) :
    (p.mapCoefficients f).ancillas = p.ancillas := by
  rw [mapCoefficients_eq, ancillas_accumulateList]
  rfl

/-- The variables of a well-formed polynomial keep their numbers, and no others get one. -/
theorem index_mapCoefficients (f : Coefficient → Coefficient) (hp : p.WellFormed K) :
    (p.mapCoefficients f).index = p.index := by
  rw [mapCoefficients_eq]
  refine index_accumulateList (p := p.cleared) fun e he => ?_
  obtain ⟨e', he', rfl⟩ := List.mem_map.mp he
  exact hp.indexed e' he'

/-- A multiple is well-formed. -/
theorem WellFormed.scale [Coefficient.Closed K] (hp : p.WellFormed K) (hk : K k) :
    (p.scale k).WellFormed K :=
  hp.mapCoefficients fun _ hc => Coefficient.Closed.mul hc hk

/-- The value of a multiple is the multiple of the value. -/
theorem eval_scale [Coefficient.Kind K] (hp : p.WellFormed K) (hk : K k) :
    (p.scale k).eval ρ x = p.eval ρ x * k.eval ρ :=
  eval_mapCoefficients hp (fun _ hc => Coefficient.Closed.mul hc hk) fun _ hc =>
    Coefficient.eval_mul (Coefficient.Kind.normal hc) (Coefficient.Kind.normal hk)

/-- The negative is well-formed. -/
theorem WellFormed.neg [Coefficient.Closed K] (hp : p.WellFormed K) : (-p).WellFormed K :=
  hp.mapCoefficients fun _ hc => Coefficient.Closed.neg hc

/-- The value of the negative is the negative value. -/
theorem eval_neg [Coefficient.Kind K] (hp : p.WellFormed K) : (-p).eval ρ x = -p.eval ρ x := by
  have h : (-p).eval ρ x = p.eval ρ x * -1 :=
    eval_mapCoefficients hp (fun _ hc => Coefficient.Closed.neg hc) fun c hc => by
      rw [Coefficient.eval_neg (Coefficient.Kind.normal hc), mul_neg_one]
  rw [h, mul_neg_one]

/-! ## Constants and sums -/

/-- A polynomial stays well-formed when a constant is added. -/
theorem WellFormed.addConstant [Coefficient.Closed K] (hp : p.WellFormed K) (hc : K c) :
    (p.addConstant c).WellFormed K :=
  hp.accumulate List.Pairwise.nil hc

/-- A constant adds its own value. -/
theorem eval_addConstant [Coefficient.Kind K] (hp : p.WellFormed K) (hc : K c) :
    (p.addConstant c).eval ρ x = p.eval ρ x + c.eval ρ := by
  rw [addConstant, Polynomial.eval, weighted_accumulate hp hc]
  simp [Polynomial.eval]

/-- A constant brings no variables. -/
theorem mem_vars_of_mem_addConstant (h : v ∈ (p.addConstant c).vars) : v ∈ p.vars := by
  rcases mem_vars_of_mem_accumulateList (p := p) (l := [([], c)]) h with h | ⟨e, he, hv⟩
  · exact h
  · obtain rfl := List.mem_singleton.mp he
    simp at hv

/-- A constant is well-formed. -/
protected theorem WellFormed.const [Coefficient.Closed K] (hc : K c) : (const c : Polynomial d V).WellFormed K :=
  WellFormed.empty.addConstant hc

/-- The value of a constant is that of its coefficient. -/
theorem eval_const [Coefficient.Kind K] (hc : K c) : (const c : Polynomial d V).eval ρ x = c.eval ρ := by
  rw [Polynomial.const, eval_addConstant .empty hc]
  exact zero_add _

/-- Further variables and records do not touch the terms. -/
theorem WellFormed.adopt (hp : p.WellFormed K) (q : Polynomial d V) : (p.adopt q).WellFormed K :=
  ⟨hp.terms, nodup_insertAll hp.distinct, fun e he v hv =>
    labels_prefix_insertAll.subset (hp.indexed e he v hv)⟩

/-- Taking over variables and records does not change the value. -/
@[simp]
theorem eval_adopt (q : Polynomial d V) : (p.adopt q).eval ρ x = p.eval ρ x := rfl

/-- The variables that are taken over come after those that are there. -/
theorem labels_prefix_adopt (p q : Polynomial d V) :
    p.index.labels <+: (p.adopt q).index.labels :=
  labels_prefix_insertAll

/-- All variables of the other polynomial have a number afterwards. -/
theorem labels_subset_adopt (p q : Polynomial d V) :
    q.index.labels ⊆ (p.adopt q).index.labels :=
  fun _ => mem_insertAll

/-- A sum takes over the variables of its right operand and adds its terms one by one. -/
theorem add_eq (p q : Polynomial d V) : p + q = (p.adopt q).accumulateList q.terms := rfl

/-- The sum of well-formed polynomials is well-formed. -/
theorem WellFormed.add [Coefficient.Closed K] (hp : p.WellFormed K) (hq : q.WellFormed K) :
    (p + q).WellFormed K :=
  (hp.adopt q).accumulateList hq.terms.addable

/-- The value of a sum is the sum of the values. -/
theorem eval_add [Coefficient.Kind K] (hp : p.WellFormed K) (hq : q.WellFormed K) :
    (p + q).eval ρ x = p.eval ρ x + q.eval ρ x :=
  eval_accumulateList (hp.adopt q) hq.terms.addable

/-- A variable of a sum is one of an operand. -/
theorem mem_vars_of_mem_add (h : v ∈ (p + q).vars) : v ∈ p.vars ∨ v ∈ q.vars := by
  rw [add_eq] at h
  exact (mem_vars_of_mem_accumulateList h).imp_right mem_vars.mpr

/-- A sum keeps the numbering of its left operand. -/
theorem labels_prefix_add (p q : Polynomial d V) : p.index.labels <+: (p + q).index.labels :=
  (labels_prefix_adopt p q).trans (labels_prefix_accumulateList _ _)

/-- A sum numbers the variables of its right operand as well, also those that cancel. -/
theorem labels_subset_add (p q : Polynomial d V) : q.index.labels ⊆ (p + q).index.labels :=
  fun _ hv => (labels_prefix_accumulateList (p.adopt q) q.terms).subset (labels_subset_adopt p q hv)

/-- A sum has the records of both operands; the left one has precedence. -/
@[simp]
theorem ancillas_add (p q : Polynomial d V) : (p + q).ancillas = p.ancillas.merge q.ancillas := by
  rw [add_eq, ancillas_accumulateList]
  rfl

/-- A difference adds the terms of its right operand with negative coefficients. -/
theorem sub_eq (p q : Polynomial d V) :
    p - q = (p.adopt q).accumulateList (q.terms.map fun t => (t.1, -t.2)) := by
  rw [accumulateList, List.foldl_map]
  rfl

/-- Terms with negative coefficients can be added. -/
theorem addable_neg [Coefficient.Closed K] (hp : p.WellFormed K) :
    Addable K (p.terms.map fun t => (t.1, -t.2)) :=
  addable_map hp fun _ hc => Coefficient.Closed.neg hc

/-- The difference of well-formed polynomials is well-formed. -/
theorem WellFormed.sub [Coefficient.Closed K] (hp : p.WellFormed K) (hq : q.WellFormed K) :
    (p - q).WellFormed K := by
  rw [sub_eq]
  exact (hp.adopt q).accumulateList (addable_neg hq)

/-- The weighted sums of a difference are the differences of the weighted sums. -/
theorem weighted_sub [Coefficient.Kind K] (hp : p.WellFormed K) (hq : q.WellFormed K)
    (g : Term V → ℚ) :
    weighted ρ g (p - q).terms = weighted ρ g p.terms - weighted ρ g q.terms := by
  have hneg : weighted ρ g (q.terms.map fun t => (t.1, -t.2)) = weighted ρ g q.terms * -1 :=
    weighted_map hq (fun c hc => by
      rw [Coefficient.eval_neg (Coefficient.Kind.normal hc), mul_neg_one]) g
  rw [sub_eq, weighted_accumulateList (hp.adopt q) (addable_neg hq), hneg, mul_neg_one,
    ← sub_eq_add_neg]
  rfl

/-- The value of a difference is the difference of the values. -/
theorem eval_sub [Coefficient.Kind K] (hp : p.WellFormed K) (hq : q.WellFormed K) :
    (p - q).eval ρ x = p.eval ρ x - q.eval ρ x :=
  weighted_sub hp hq _

/-- A variable of a difference is one of an operand. -/
theorem mem_vars_of_mem_sub (h : v ∈ (p - q).vars) : v ∈ p.vars ∨ v ∈ q.vars := by
  rw [sub_eq] at h
  refine (mem_vars_of_mem_accumulateList h).imp_right fun ⟨e, he, hv⟩ => ?_
  obtain ⟨e', he', rfl⟩ := List.mem_map.mp he
  exact mem_vars.mpr ⟨e', he', hv⟩

/-! ## Products and powers -/

/-- The terms of a product, before equal ones are added up. -/
def productTerms (p q : Polynomial d V) : List (Term V × Coefficient) :=
  p.terms.flatMap fun s => q.terms.map fun t => (Term.normalize d (s.1 ++ t.1), s.2 * t.2)

/-- A product adds up the products of all pairs of terms from nothing. -/
theorem mul_eq (p q : Polynomial d V) :
    p * q = (p.cleared.adopt q).accumulateList (productTerms p q) := by
  rw [accumulateList, productTerms, List.foldl_flatMap]
  simp only [List.foldl_map]
  rfl

/-- The products of terms can be added. -/
theorem addable_productTerms [Coefficient.Closed K] (hp : p.WellFormed K) (hq : q.WellFormed K) :
    Addable K (productTerms p q) := by
  intro e he
  obtain ⟨s, hs, he⟩ := List.mem_flatMap.mp he
  obtain ⟨t, ht, rfl⟩ := List.mem_map.mp he
  exact ⟨Term.increasing_normalize d _,
    Coefficient.Closed.mul (hp.terms.addable s hs).2 (hq.terms.addable t ht).2⟩

/-- The product of well-formed polynomials is well-formed. -/
theorem WellFormed.mul [Coefficient.Closed K] (hp : p.WellFormed K) (hq : q.WellFormed K) :
    (p * q).WellFormed K := by
  rw [mul_eq]
  exact (hp.cleared.adopt q).accumulateList (addable_productTerms hp hq)

/-- The value of a product is the product of the values, at points of the domain. -/
theorem eval_mul [Coefficient.Kind K] (hp : p.WellFormed K) (hq : q.WellFormed K) (hx : d.IsPoint x) :
    (p * q).eval ρ x = p.eval ρ x * q.eval ρ x := by
  have hrow : ∀ s ∈ p.terms,
      (q.terms.map fun t => (s.2 * t.2).eval ρ * Term.eval x (Term.normalize d (s.1 ++ t.1))).sum =
        s.2.eval ρ * Term.eval x s.1 * q.eval ρ x := by
    intro s hs
    rw [Polynomial.eval, weighted, Table.total, ← List.sum_map_mul_left]
    refine congrArg List.sum (List.map_congr_left fun t ht => ?_)
    rw [Coefficient.eval_mul (Coefficient.Kind.normal (hp.terms.addable s hs).2)
      (Coefficient.Kind.normal (hq.terms.addable t ht).2), Term.eval_normalize hx, Term.eval_append]
    ring
  rw [mul_eq, eval_accumulateList (hp.cleared.adopt q) (addable_productTerms hp hq), eval_adopt,
    eval_cleared, zero_add, weighted, Table.total, productTerms, List.map_flatMap, List.flatMap,
    List.sum_flatten]
  simp only [List.map_map, Function.comp_def]
  rw [List.map_congr_left hrow, List.sum_map_mul_right]
  rfl

/-- A variable of a product is one of a factor. -/
theorem mem_vars_of_mem_mul (h : v ∈ (p * q).vars) : v ∈ p.vars ∨ v ∈ q.vars := by
  rw [mul_eq] at h
  rcases mem_vars_of_mem_accumulateList h with h | ⟨e, he, hv⟩
  · have hnone : v ∈ p.cleared.vars := h
    rw [vars_cleared] at hnone
    cases hnone
  · obtain ⟨s, hs, he⟩ := List.mem_flatMap.mp he
    obtain ⟨t, ht, rfl⟩ := List.mem_map.mp he
    rcases List.mem_append.mp (Term.mem_of_mem_normalize hv) with hv | hv
    · exact .inl (mem_vars.mpr ⟨s, hs, hv⟩)
    · exact .inr (mem_vars.mpr ⟨t, ht, hv⟩)

/-- A product keeps the numbering of its left factor. -/
theorem labels_prefix_mul (p q : Polynomial d V) : p.index.labels <+: (p * q).index.labels := by
  rw [mul_eq]
  exact (labels_prefix_adopt p.cleared q).trans (labels_prefix_accumulateList _ _)

/-- A product has the records of both factors; the left one has precedence. -/
@[simp]
theorem ancillas_mul (p q : Polynomial d V) : (p * q).ancillas = p.ancillas.merge q.ancillas := by
  rw [mul_eq, ancillas_accumulateList]
  rfl

/-- The loop for powers of polynomials is the one of repeated squaring. -/
theorem isPowerLoop : IsPowerLoop (· * ·) (powLoop (d := d) (V := V)) := fun acc base n => by
  rw [powLoop]

/-- A power of a well-formed polynomial is well-formed. -/
theorem WellFormed.pow [Coefficient.Closed K] (hp : p.WellFormed K) (n : ℕ) : (p.pow n).WellFormed K :=
  isPowerLoop.invariant (P := (WellFormed K ·)) (Q := (WellFormed K ·)) (fun _ _ => .mul)
    (fun _ hb => hb.mul hb) (hp.cleared.addConstant (Coefficient.kind_ofNat 1)) hp

/-- The value of a power is the power of the value, at points of the domain. -/
theorem eval_pow [Coefficient.Kind K] (hp : p.WellFormed K) (n : ℕ) (hx : d.IsPoint x) :
    (p.pow n).eval ρ x = p.eval ρ x ^ n := by
  have hone : (p.cleared.addConstant 1).eval ρ x = 1 := by
    rw [eval_addConstant hp.cleared (Coefficient.kind_ofNat 1)]
    simp
  have hloop : (p.pow n).eval ρ x = (p.cleared.addConstant 1).eval ρ x * p.eval ρ x ^ n :=
    isPowerLoop.eval_eq (P := (WellFormed K ·)) (f := (Polynomial.eval ρ x ·)) (fun _ _ => .mul)
      (fun _ _ ha hb => eval_mul ha hb hx) (hp.cleared.addConstant (Coefficient.kind_ofNat 1)) hp
  rw [hloop, hone, one_mul]

/-- The loop brings no variables that neither the result so far nor the base has. -/
theorem mem_vars_of_mem_powLoop {acc base : Polynomial d V} {n : ℕ}
    (h : v ∈ (powLoop acc base n).vars) : v ∈ acc.vars ∨ v ∈ base.vars := by
  -- a variable of a square of the base is one of the base
  refine isPowerLoop.invariant (P := fun r => v ∈ r.vars → v ∈ acc.vars ∨ v ∈ base.vars)
    (Q := fun r => v ∈ r.vars → v ∈ base.vars) (fun a b ha hb hv => ?_) (fun b hb hv => ?_) .inl id h
  · exact (mem_vars_of_mem_mul hv).elim ha fun hv => .inr (hb hv)
  · exact (mem_vars_of_mem_mul hv).elim hb hb

/-- A variable of a power is one of the base. -/
theorem mem_vars_of_mem_pow {n : ℕ} (h : v ∈ (p.pow n).vars) : v ∈ p.vars := by
  rcases mem_vars_of_mem_powLoop h with h | h
  · have hnone := mem_vars_of_mem_addConstant h
    rw [vars_cleared] at hnone
    cases hnone
  · exact h

/-- The loop keeps the numbering of the result so far. -/
theorem labels_prefix_powLoop (acc base : Polynomial d V) (n : ℕ) :
    acc.index.labels <+: (powLoop acc base n).index.labels :=
  isPowerLoop.invariant (P := fun r => acc.index.labels <+: r.index.labels) (Q := fun _ => True)
    (fun a b ha _ => ha.trans (labels_prefix_mul a b)) (fun _ _ => trivial) List.prefix_rfl trivial

/-- A power keeps the numbering of its base. -/
theorem labels_prefix_pow (p : Polynomial d V) (n : ℕ) :
    p.index.labels <+: (p.pow n).index.labels :=
  (labels_prefix_accumulate p.cleared [] 1).trans (labels_prefix_powLoop _ p n)

/-- A power has the records of its base, however often it is multiplied. -/
@[simp]
theorem ancillas_pow (hp : p.ancillas.Sorted) (n : ℕ) : (p.pow n).ancillas = p.ancillas := by
  have hmul : ∀ a b : Polynomial d V, a.ancillas = p.ancillas → b.ancillas = p.ancillas →
      (a * b).ancillas = p.ancillas := fun a b ha hb => by
    rw [ancillas_mul, ha, hb, AncillaTable.merge_self hp]
  exact isPowerLoop.invariant (P := fun r => r.ancillas = p.ancillas)
    (Q := fun r => r.ancillas = p.ancillas) hmul (fun b hb => hmul b b hb hb)
    (ancillas_accumulate p.cleared [] 1) rfl

end PseudoBoolean.Polynomial

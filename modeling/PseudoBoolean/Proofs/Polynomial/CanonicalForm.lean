import PseudoBoolean.Polynomial.CanonicalForm
import PseudoBoolean.Proofs.Polynomial.Minimum
import PseudoBoolean.Proofs.Polynomial.Reduction

/-!
# Canonical forms solve the polynomial

A canonical form is reached in stages: numbering, change of domain, reduction, and possibly another
change of domain. `Represents q F` is what every stage keeps: the values of `F` are not below those of
`q` at the corresponding points, every value of `q` is taken by `F`, and every variable of `q` occurs in
`F`, besides new ones. It is reflexive and transitive, and holds across each stage.

A minimum of the form is therefore one of the polynomial (`canonicalForm_minimum`). That no variable is
lost matters for the solution, which is read off the occurring variables of the form only, and so has a
value for the occurring variables of the polynomial and no others (`Represents.exists_minimum`).
-/

namespace PseudoBoolean

/-! ## The forms -/

/-- The forms in which a polynomial is handed to a solver. -/
inductive CanonicalForm where
  | qubo
  | ising
  | pubo (degree : Option ℕ)
  | hising (degree : Option ℕ)

namespace CanonicalForm

/-- The domain of the form. -/
def domain : CanonicalForm → Domain
  | qubo | pubo _ => .binary
  | ising | hising _ => .spin

/-- The bound on the number of variables in a term. -/
def bound : CanonicalForm → Option ℕ
  | qubo | ising => some 2
  | pubo degree | hising degree => degree

/-- The bound can be reached by a reduction. -/
def Admissible (form : CanonicalForm) : Prop :=
  ∀ k ∈ form.bound, 2 ≤ k

variable {d : Domain} {V : Type} [Variable V]

/-- The form of a polynomial, with automatic weights. -/
def of (form : CanonicalForm) (p : Polynomial d V) : Except Error (Polynomial form.domain ℕ) :=
  match form with
  | qubo => p.toQubo.map (·.polynomial)
  | ising => p.toIsing.map (·.polynomial)
  | pubo degree => p.toPubo degree .auto
  | hising degree => p.toHising degree .auto

end CanonicalForm

namespace Polynomial

/-! ## Representation -/

section Represents

variable {d e f : Domain} {ρ : String → ℚ} {q : Polynomial d ℕ} {F : Polynomial e ℕ}
  {G : Polynomial f ℕ}

/-- `F` has the values of `q` as far as the minimum is concerned, and all its variables. Those that it has
besides are new. -/
structure Represents (ρ : String → ℚ) (q : Polynomial d ℕ) (F : Polynomial e ℕ) : Prop where
  wellFormed : F.WellFormed Coefficient.IsRational
  below : ∀ w, e.IsPoint w → q.eval ρ (fun i => d.carry e (w i)) ≤ F.eval ρ w
  attained : ∀ x, d.IsPoint x → ∃ w, e.IsPoint w ∧ F.eval ρ w = q.eval ρ x
  occurs : ∀ i ∈ q.vars, i ∈ F.vars
  size_le : q.index.size ≤ F.index.size
  only : ∀ i ∈ F.vars, i < q.index.size → i ∈ q.vars

/-- A polynomial represents itself. -/
theorem Represents.refl (hq : q.WellFormed Coefficient.IsRational) : Represents ρ q q where
  wellFormed := hq
  below w _ := by simp
  attained x hx := ⟨x, hx, rfl⟩
  occurs _ h := h
  size_le := le_rfl
  only _ h _ := h

/-- Carrying a value over to a domain and on to the next is carrying it over at once. -/
theorem carry_trans {w : ℚ} (hw : f.IsValue w) : d.carry e (e.carry f w) = d.carry f w := by
  obtain ⟨b, rfl⟩ := hw
  rw [Domain.carry_ofBit, Domain.carry_ofBit, Domain.carry_ofBit]

/-- Representation is transitive. -/
theorem Represents.trans (h : Represents ρ q F) (h' : Represents ρ F G) : Represents ρ q G where
  wellFormed := h'.wellFormed
  below w hw := by
    have hmid : e.IsPoint fun i => e.carry f (w i) := fun i => (hw i).carry
    calc q.eval ρ (fun i => d.carry f (w i))
        = q.eval ρ (fun i => d.carry e (e.carry f (w i))) :=
          congrArg (q.eval ρ) (funext fun i => (carry_trans (hw i)).symm)
      _ ≤ F.eval ρ (fun i => e.carry f (w i)) := h.below _ hmid
      _ ≤ G.eval ρ w := h'.below w hw
  attained x hx := by
    obtain ⟨w, hw, heq⟩ := h.attained x hx
    obtain ⟨w', hw', heq'⟩ := h'.attained w hw
    exact ⟨w', hw', heq'.trans heq⟩
  occurs i hi := h'.occurs i (h.occurs i hi)
  size_le := h.size_le.trans h'.size_le
  only i hi hlt := h.only i (h'.only i hi (hlt.trans_le h.size_le)) hlt

/-- A change of domain keeps all values and variables. -/
theorem represents_toDomain (hq : q.WellFormed Coefficient.IsRational) (e : Domain) :
    Represents ρ q (q.toDomain e) where
  wellFormed := hq.toDomain e
  below w _ := (eval_toDomain hq w).ge
  attained x hx := by
    refine ⟨fun i => e.carry d (x i), fun i => (hx i).carry, ?_⟩
    rw [eval_toDomain hq]
    exact congrArg (q.eval ρ) (funext fun i => Domain.carry_carry d e (x i))
  occurs _ h := (mem_vars_toDomain hq).mpr h
  size_le := (congrArg VariableIndex.size (index_toDomain hq)).ge
  only _ h _ := (mem_vars_toDomain hq).mp h

/-- A reduction with the automatic weight succeeds, meets its bound and keeps the minimum. -/
theorem exists_reduce {q : Polynomial .binary ℕ} (hq : q.WellFormed Coefficient.IsRational)
    {degree : Option ℕ} (hdegree : ∀ k ∈ degree, 2 ≤ k) :
    ∃ r, q.reduce degree .auto = .ok r ∧ (∀ k ∈ degree, r.degree ≤ k) ∧ Represents ρ q r := by
  cases degree with
  | none => exact ⟨q, rfl, by simp, .refl hq⟩
  | some target =>
    have h2 : 2 ≤ target := hdegree target rfl
    have hfresh : ∀ v ∈ q.vars, v < q.firstFree := fun v hv => lt_firstFree hv
    obtain ⟨pairs, hrun⟩ := exists_reduction hq h2 weightOf_auto
    obtain ⟨r, hr⟩ := hrun.exists_ok hq h2 hfresh
    rw [hr] at hrun
    have hreduced := hrun.reduced hq h2 weightOf_auto hfresh
    -- below by the cost of wrong products, attained at the consistent extension of a point
    refine ⟨r, hr, fun k hk => Option.some_inj.mp hk ▸ hreduced.degree_le, ?_⟩
    refine ⟨hreduced.wellFormed, fun w hw => ?_, fun x hx => ?_,
      fun i hi => hrun.mem_vars hq h2 hfresh hi, hreduced.labels.length_le, fun i hi hlt => ?_⟩
    · have hle := hrun.eval_add_violations_le (ρ := ρ) hq h2 hfresh hw
      have hnonneg : (0 : ℚ) ≤ violations w (introduced q.firstFree pairs) := Nat.cast_nonneg _
      simp only [Domain.carry_self]
      linarith
    · obtain ⟨w, hw, hsame, hconsistent⟩ := exists_consistent
        (fun e he => ⟨(hreduced.factors e he).1.trans (hreduced.factors e he).2,
          (hreduced.factors e he).2⟩) hx
      refine ⟨w, hw, ?_⟩
      rw [hrun.eval_of_consistent hq h2 weightOf_auto hfresh hw hconsistent]
      exact eval_congr fun v hv => hsame v (hfresh v hv)
    · -- the introduced variables are numbered above all others
      refine (hreduced.vars i hi).resolve_right fun ⟨e, he, heq⟩ => absurd hlt (not_lt.mpr ?_)
      exact heq ▸ (size_le_firstFree q).trans (le_of_mem_introduced he)

end Represents

/-! ## The stages of each form -/

section Forms

variable {d : Domain} {V : Type} [Variable V] {p : Polynomial d V} {ρ : String → ℚ}

theorem checkTarget_of_le {target : ℕ} (h : 2 ≤ target) : checkTarget target = .ok () :=
  if_neg (Nat.not_lt.mpr h)

/-- The binary form of a rational polynomial exists, has the degree asked for and represents it. -/
theorem exists_toPubo (hp : p.WellFormed Coefficient.IsRational) {degree : Option ℕ}
    (hdegree : ∀ k ∈ degree, 2 ≤ k) :
    ∃ F, p.toPubo degree .auto = .ok F ∧ (∀ k ∈ degree, F.degree ≤ k) ∧
      Represents ρ p.toIndexed F := by
  have hdomain := represents_toDomain (ρ := ρ) hp.toIndexed .binary
  obtain ⟨F, hF, hle, hrep⟩ := exists_reduce (ρ := ρ) hdomain.wellFormed hdegree
  refine ⟨F, ?_, hle, hdomain.trans hrep⟩
  cases degree with
  | none => exact hF
  | some target =>
    exact (congrArg (· >>= fun _ => (p.toIndexed.toDomain .binary).reduce (some target) .auto)
      (checkTarget_of_le (hdegree target rfl))).trans hF

/-- The spin form of a rational polynomial exists, has the degree asked for and represents it. -/
theorem exists_toHising (hp : p.WellFormed Coefficient.IsRational) {degree : Option ℕ}
    (hdegree : ∀ k ∈ degree, 2 ≤ k) :
    ∃ F, p.toHising degree .auto = .ok F ∧ (∀ k ∈ degree, F.degree ≤ k) ∧
      Represents ρ p.toIndexed F := by
  have hcheck : p.toHising degree .auto =
      if p.toIndexed.meets degree then .ok (p.toIndexed.toDomain .spin)
      else do return (← (p.toIndexed.toDomain .binary).reduce degree .auto).toDomain .spin := by
    cases degree with
    | none => rfl
    | some target =>
      exact congrArg (· >>= fun _ =>
        if p.toIndexed.meets (some target) then .ok (p.toIndexed.toDomain .spin)
        else do return (← (p.toIndexed.toDomain .binary).reduce (some target) .auto).toDomain .spin)
        (checkTarget_of_le (hdegree target rfl))
  rw [hcheck]
  split
  · rename_i hmeets
    refine ⟨_, rfl, fun k hk => degree_toDomain_le hp.toIndexed ?_,
      represents_toDomain hp.toIndexed .spin⟩
    obtain rfl : degree = some k := hk
    simpa [meets] using hmeets
  · have hdomain := represents_toDomain (ρ := ρ) hp.toIndexed .binary
    obtain ⟨r, hr, hle, hrep⟩ := exists_reduce (ρ := ρ) hdomain.wellFormed hdegree
    refine ⟨r.toDomain .spin, ?_, fun k hk => degree_toDomain_le hrep.wellFormed (hle k hk),
      (hdomain.trans hrep).trans (represents_toDomain hrep.wellFormed .spin)⟩
    rw [hr]
    rfl

/-- Every form exists, meets its bound and represents the numbered polynomial. -/
theorem exists_canonicalForm (hp : p.WellFormed Coefficient.IsRational) {form : CanonicalForm}
    (hform : form.Admissible) :
    ∃ F, form.of p = .ok F ∧ (∀ k ∈ form.bound, F.degree ≤ k) ∧ Represents ρ p.toIndexed F := by
  cases form with
  | pubo degree => exact exists_toPubo hp hform
  | hising degree => exact exists_toHising hp hform
  | qubo =>
    obtain ⟨F, hF, hle, hrep⟩ := exists_toPubo (ρ := ρ) hp hform
    obtain ⟨quadratic, hok, heq⟩ := exists_ofPolynomial (hle 2 rfl)
    refine ⟨F, ?_, hle, hrep⟩
    have hqubo : p.toQubo = .ok quadratic := by
      rw [toQubo]
      exact (congrArg (· >>= _) hF).trans hok
    rw [CanonicalForm.of, hqubo, ← heq]
    rfl
  | ising =>
    obtain ⟨F, hF, hle, hrep⟩ := exists_toHising (ρ := ρ) hp hform
    obtain ⟨quadratic, hok, heq⟩ := exists_ofPolynomial (hle 2 rfl)
    refine ⟨F, ?_, hle, hrep⟩
    have hising : p.toIsing = .ok quadratic := by
      rw [toIsing]
      exact (congrArg (· >>= _) hF).trans hok
    rw [CanonicalForm.of, hising, ← heq]
    rfl

end Forms

/-! ## The minimum -/

section Minimum

variable {d e : Domain} {V : Type} [Variable V] {p : Polynomial d V} {F : Polynomial e ℕ}
  {ρ : String → ℚ}

/-- The point of the numbered variables at which the variables have the values of `x`. -/
def numberedPoint (d : Domain) (index : VariableIndex V) (x : V → ℚ) (i : ℕ) : ℚ :=
  match index.label? i with
  | some v => x v
  | none => (d.ofBit false : ℤ)

omit [Variable V] in
theorem isPoint_numberedPoint {x : V → ℚ} (hx : d.IsPoint x) (index : VariableIndex V) :
    d.IsPoint (numberedPoint d index x) := fun i => by
  rw [numberedPoint]
  split
  · exact hx _
  · exact Domain.isValue_ofBit d false

/-- Numbering the variables does not change the value at a point. -/
theorem eval_numberedPoint (hp : p.WellFormed Coefficient.IsRational) (x : V → ℚ) :
    p.toIndexed.eval ρ (numberedPoint d p.index x) = p.eval ρ x := by
  rw [eval_toIndexed hp]
  refine eval_congr fun v hv => ?_
  rw [numberedPoint, VariableIndex.label?_position (hp.mem_labels hv)]

/-- The minimum of a form is that of the polynomial, and its solution is brought back to a solution of
the polynomial, which has a value for the variables that occur and for no others. -/
theorem Represents.exists_minimum (h : Represents ρ p.toIndexed F)
    (hp : p.WellFormed Coefficient.IsRational) (hlength : F.vars.length ≤ enumerationLimit) :
    ∃ raw sol, F.minimum = .ok (.exact (p.eval ρ (sol.point d)), raw) ∧
      p.convertSolution e raw = .ok sol ∧ sol.IsOn d (· ∈ p.vars) ∧
      ∀ x, d.IsPoint x → p.eval ρ (sol.point d) ≤ p.eval ρ x := by
  obtain ⟨raw, hminimum, hraw, hleast⟩ := minimum_spec h.wellFormed ρ hlength
  obtain ⟨sol, hsol, hon, hcarry⟩ := convertSolution_spec (p := p) hp.distinct hraw
  have hoccurs : ∀ v, v ∈ p.index.labels ∧ p.index.position v ∈ F.vars ↔ v ∈ p.vars := by
    intro v
    constructor
    · rintro ⟨hv, hF⟩
      have hlt : p.index.position v < p.toIndexed.index.size := by
        rw [index_toIndexed hp, VariableIndex.size_identity]
        exact VariableIndex.position_lt hv
      obtain ⟨w, hw, heq⟩ := (mem_vars_toIndexed hp).mp (h.only _ hF hlt)
      rwa [← VariableIndex.position_injective (hp.mem_labels hw) hv heq]
    · exact fun hv => ⟨hp.mem_labels hv, h.occurs _ ((mem_vars_toIndexed hp).mpr ⟨v, hv, rfl⟩)⟩
  have hle : p.eval ρ (sol.point d) ≤ F.eval ρ (raw.point e) := by
    have hbelow := h.below _ (Assignment.isPoint_point e raw)
    rw [eval_toIndexed hp] at hbelow
    rwa [eval_congr fun v hv => hcarry v ((hoccurs v).mpr hv).1 ((hoccurs v).mpr hv).2]
  have hge : ∀ x, d.IsPoint x → F.eval ρ (raw.point e) ≤ p.eval ρ x := fun x hx => by
    obtain ⟨w, hw, heq⟩ := h.attained _ (isPoint_numberedPoint hx p.index)
    rw [← eval_numberedPoint hp, ← heq]
    exact hleast w hw
  have heq : p.eval ρ (sol.point d) = F.eval ρ (raw.point e) :=
    le_antisymm hle (hge _ (Assignment.isPoint_point d sol))
  exact ⟨raw, sol, heq ▸ hminimum, hsol, hon.congr hoccurs, fun x hx => heq.trans_le (hge x hx)⟩

end Minimum

/-- Canonical forms solve the polynomial. Every form exists and meets its bound. If few enough variables
occur in it for the search, its minimum is the least value of the polynomial over all assignments, and
its solution is brought back to an assignment of all occurring variables with this value. -/
theorem canonicalForm_minimum {d : Domain} {V : Type} [Variable V] (p : Polynomial d V)
    (hp : p.WellFormed Coefficient.IsRational) (form : CanonicalForm) (hform : form.Admissible) :
    ∃ F, form.of p = .ok F ∧ (∀ k ∈ form.bound, ∀ t ∈ F.terms, t.1.length ≤ k) ∧
      (F.vars.length ≤ enumerationLimit → ∃ (e : ℚ) (raw : Assignment ℕ),
        F.minimum = .ok (.exact e, raw) ∧
        (∀ a, Assignment.Covers d p.vars a →
          ∃ m : ℚ, p.valueNumber a = .ok (.exact m) ∧ e ≤ m) ∧
        ∃ sol, p.convertSolution form.domain raw = .ok sol ∧ Assignment.Covers d p.vars sol ∧
          p.valueNumber sol = .ok (.exact e)) := by
  obtain ⟨F, hF, hbound, hrep⟩ := exists_canonicalForm (ρ := fun _ => 0) hp hform
  refine ⟨F, hF, fun k hk => degree_le_iff.mp (hbound k hk), fun hlength => ?_⟩
  obtain ⟨raw, sol, hminimum, hsol, hon, hleast⟩ := hrep.exists_minimum hp hlength
  have hcovers : Assignment.Covers d p.vars sol := hon.covers fun _ hv => hv
  refine ⟨_, raw, hminimum, fun a ha => ⟨_, valueNumber_eq hp ha fun _ => 0, ?_⟩,
    sol, hsol, hcovers, valueNumber_eq hp hcovers fun _ => 0⟩
  exact hleast _ (Assignment.isPoint_point d a)

/-- A spin term with three variables is solved through its QUBO, which has a fourth variable. -/
theorem canonicalForm_minimum_cubic :
    ∃ F, CanonicalForm.of .qubo (ofTerms [([0, 1, 2], 1)] : Polynomial .spin ℕ) = .ok F ∧
      ∃ (e : ℚ) (raw : Assignment ℕ), F.minimum = .ok (.exact e, raw) ∧
        ∃ sol, (ofTerms [([0, 1, 2], 1)] : Polynomial .spin ℕ).convertSolution .binary raw =
            .ok sol ∧
          (ofTerms [([0, 1, 2], 1)] : Polynomial .spin ℕ).valueNumber sol = .ok (.exact e) := by
  obtain ⟨F, hF, -, hminimum⟩ := canonicalForm_minimum
    (ofTerms [([0, 1, 2], 1)] : Polynomial .spin ℕ)
    (WellFormed.ofTerms (List.forall_mem_singleton.mpr ⟨1, rfl⟩)) .qubo
    fun k hk => (Option.some_inj.mp hk).le
  have hlength : F.vars.length = 4 := by
    have hmap : (CanonicalForm.of .qubo (ofTerms [([0, 1, 2], 1)] : Polynomial .spin ℕ)).map
        (·.vars.length) = .ok 4 := by decide +kernel
    rw [hF] at hmap
    exact Except.ok.inj hmap
  obtain ⟨e, raw, hok, -, sol, hsol, -, hvalue⟩ := hminimum (by rw [hlength]; decide)
  exact ⟨F, hF, e, raw, hok, sol, hsol, hvalue⟩

end Polynomial

end PseudoBoolean

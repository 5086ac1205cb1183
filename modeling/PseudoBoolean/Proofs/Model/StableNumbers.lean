import PseudoBoolean.Proofs.Model.Compilation
import PseudoBoolean.Proofs.Polynomial.Minimum
import PseudoBoolean.Proofs.Polynomial.Regular

/-!
# Stable numbers

A variable keeps its number for as long as the numbering is not replaced by hand. Every operation on a
polynomial other than `setMapping` leaves a numbering that comes from the old one by numbering further
variables (`VariableIndex.Extends`, `Step.extends`), also where it rebuilds the terms or where all terms of
a variable cancel. So does every run of operations (`Steps.extends`), and so do the constraints and
substitutions of a model (`Model.Steps.extends`). No other property of the polynomials is needed.

It follows that old variables have their old numbers, and that a numbered solution which was found for
`p` gives them the same values when it is brought back by what `p` has become (`numbers_stable`). A number
that belonged to no variable, such as that of an ancilla of the reduction, may have got one since.
-/

namespace PseudoBoolean

open PseudoBoolean.Polynomial

/-! ## Numberings that extend another -/

namespace VariableIndex

variable {V : Type} [Variable V] {index index' index'' : VariableIndex V} {v : V} {i : ℕ}

/-- The numbering `index'` comes from `index` by numbering further variables. -/
def Extends (index index' : VariableIndex V) : Prop :=
  ∃ vars, index' = index.insertAll vars

/-- A numbering extends itself. -/
theorem Extends.refl (index : VariableIndex V) : index.Extends index :=
  ⟨[], rfl⟩

/-- Inserting variables extends a numbering. -/
theorem extends_insertAll (index : VariableIndex V) (vars : List V) :
    index.Extends (index.insertAll vars) :=
  ⟨vars, rfl⟩

/-- An extension of an extension is one. -/
theorem Extends.trans (h : index.Extends index') (h' : index'.Extends index'') :
    index.Extends index'' := by
  obtain ⟨vars, rfl⟩ := h
  obtain ⟨vars', rfl⟩ := h'
  exact ⟨vars ++ vars', List.foldl_append.symm⟩

/-- The old labels are an initial part of the new ones. -/
theorem Extends.labels (h : index.Extends index') : index.labels <+: index'.labels := by
  obtain ⟨vars, rfl⟩ := h
  exact labels_prefix_insertAll

/-- An extension lists no variable twice if the old numbering does not. -/
theorem Extends.nodup (h : index.Extends index') (hnodup : index.labels.Nodup) :
    index'.labels.Nodup := by
  obtain ⟨vars, rfl⟩ := h
  exact nodup_insertAll hnodup

/-- A number keeps its variable. -/
theorem Extends.label?_eq (h : index.Extends index') (hv : index.label? i = some v) :
    index'.label? i = some v := by
  obtain ⟨hi, rfl⟩ := List.getElem?_eq_some_iff.mp hv
  rw [label?, h.labels.getElem hi, List.getElem?_eq_getElem (hi.trans_le h.labels.length_le)]

/-- Every variable keeps its number. -/
theorem Extends.position_eq (h : index.Extends index') (hv : v ∈ index.labels) :
    index'.position v = index.position v := by
  obtain ⟨others, heq⟩ := h.labels
  rw [position, ← heq, List.idxOf_append_of_mem hv]
  rfl

/-- A variable keeps its number. -/
theorem Extends.indexOf?_eq (h : index.Extends index') (hv : v ∈ index.labels) :
    index'.indexOf? v = index.indexOf? v := by
  rw [VariableIndex.indexOf?_eq hv, VariableIndex.indexOf?_eq (h.labels.subset hv), h.position_eq hv]

end VariableIndex

namespace Polynomial

variable {d e : Domain} {V : Type} [Variable V] {p : Polynomial d V} {q : Polynomial e V}

/-! ## Operations on polynomials -/

section Extends

variable (p q : Polynomial d V)

/-- Adding to a term extends the numbering. -/
theorem extends_accumulate (t : Term V) (c : Coefficient) :
    p.index.Extends (p.accumulate t c).index := by
  rw [accumulate]
  split
  · exact .refl _
  · exact p.index.extends_insertAll t

/-- Setting a term extends the numbering. -/
theorem extends_assign (t : Term V) (c : Coefficient) : p.index.Extends (p.assign t c).index := by
  rw [assign]
  split
  · exact .refl _
  · exact p.index.extends_insertAll t

/-- Taking over variables extends the numbering. -/
theorem extends_adopt : p.index.Extends (p.adopt q).index :=
  p.index.extends_insertAll q.index.labels

/-- A numbering is extended by a loop whose steps extend it. -/
theorem extends_foldl {α : Type} {step : Polynomial d V → α → Polynomial d V}
    (h : ∀ (p : Polynomial d V) (a : α), p.index.Extends (step p a).index) (l : List α) :
    p.index.Extends (l.foldl step p).index :=
  List.foldlRecOn (motive := fun r : Polynomial d V => p.index.Extends r.index) l step (.refl _)
    fun r hr a _ => hr.trans (h r a)

/-- Adding terms one by one extends the numbering. -/
theorem extends_accumulateList (l : List (Term V × Coefficient)) :
    p.index.Extends (p.accumulateList l).index := by
  rw [accumulateList]
  exact extends_foldl p (fun r e => r.extends_accumulate e.1 e.2) l

/-- Changing coefficients extends the numbering. -/
theorem extends_mapCoefficients (f : Coefficient → Coefficient) :
    p.index.Extends (p.mapCoefficients f).index := by
  rw [mapCoefficients_eq]
  exact p.cleared.extends_accumulateList _

/-- A sum extends the numbering of its left operand. -/
theorem extends_add : p.index.Extends (p + q).index :=
  (p.extends_adopt q).trans (extends_accumulateList _ _)

/-- A difference extends the numbering of its left operand. -/
theorem extends_sub : p.index.Extends (p - q).index := by
  rw [sub_eq]
  exact (p.extends_adopt q).trans (extends_accumulateList _ _)

/-- A product extends the numbering of its left factor. -/
theorem extends_mul : p.index.Extends (p * q).index := by
  rw [mul_eq]
  exact (p.cleared.extends_adopt q).trans (extends_accumulateList _ _)

/-- The accumulator of a power starts with the numbering of the base. -/
theorem extends_pow (n : ℕ) : p.index.Extends (p.pow n).index :=
  isPowerLoop.invariant (P := fun r => p.index.Extends r.index) (Q := fun _ => True)
    (fun a b ha _ => ha.trans (a.extends_mul b)) (fun _ _ => trivial)
    (p.cleared.extends_accumulate [] 1) trivial

/-- A change of the domain extends the numbering. -/
theorem extends_toDomain (e : Domain) : p.index.Extends (p.toDomain e).index :=
  extends_accumulateList ⟨[], p.index, p.ancillas⟩ _

omit [Variable V] in
/-- A change of coefficients that can fail leaves the numbering as it is. -/
theorem index_tryMapCoefficients {p q : Polynomial d V}
    {f : Coefficient → Except CoefficientError Coefficient} (h : p.tryMapCoefficients f = .ok q) :
    q.index = p.index :=
  (frame_tryMapCoefficients h).1

end Extends

/-- What `p` becomes by one operation that keeps the type of the variables and does not replace the
numbering. Other polynomials that are taken up are arbitrary. -/
inductive Step {d : Domain} (p : Polynomial d V) : {e : Domain} → Polynomial e V → Prop
  | addTerm (vars : List V) (c : Coefficient) : Step p (p.addTerm vars c)
  | setTerm (vars : List V) (c : Coefficient) : Step p (p.setTerm vars c)
  | setTerms (entries : List (List V × Coefficient)) : Step p (p.setTerms entries)
  | update (q : Polynomial d V) : Step p (p.update q)
  | addConstant (c : Coefficient) : Step p (p.addConstant c)
  | subConstant (c : Coefficient) : Step p (p.subConstant c)
  | constantSub (c : Coefficient) : Step p (constantSub c p)
  | scale (k : Coefficient) : Step p (p.scale k)
  | neg : Step p (-p)
  | add (q : Polynomial d V) : Step p (p + q)
  | sub (q : Polynomial d V) : Step p (p - q)
  | mul (q : Polynomial d V) : Step p (p * q)
  | pow (n : ℕ) : Step p (p.pow n)
  | div {q : Polynomial d V} {k : Coefficient} : p.div k = .ok q → Step p q
  | floorDiv {q : Polynomial d V} {k : Coefficient} : p.floorDiv k = .ok q → Step p q
  | round (places : ℕ) : Step p (p.round places)
  | normalize : Step p p.normalize.1
  | substitute (values : Table String Coefficient) : Step p (p.substitute values)
  | toDomain (e : Domain) : Step p (p.toDomain e)

/-- Every operation on polynomials extends the numbering. -/
theorem Step.extends (h : p.Step q) : p.index.Extends q.index := by
  cases h with
  | addTerm vars c => exact p.extends_accumulate _ c
  | setTerm vars c => exact p.extends_assign _ c
  | setTerms entries => exact p.extends_foldl (fun r e => r.extends_assign _ e.2) entries
  | update q =>
    exact (p.extends_adopt q).trans (extends_foldl _ (fun r t => r.extends_assign t.1 t.2) q.terms)
  | addConstant c => exact p.extends_accumulate [] c
  | subConstant c => exact p.extends_accumulate [] (-c)
  | constantSub c => exact (p.extends_mapCoefficients _).trans (extends_accumulate (-p) [] c)
  | scale k => exact p.extends_mapCoefficients _
  | neg => exact p.extends_mapCoefficients _
  | add q => exact p.extends_add q
  | sub q => exact p.extends_sub q
  | mul q => exact p.extends_mul q
  | pow n => exact p.extends_pow n
  | div h => exact index_tryMapCoefficients (tryMapCoefficients_of_div h) ▸ .refl _
  | floorDiv h => exact index_tryMapCoefficients (tryMapCoefficients_of_floorDiv h) ▸ .refl _
  | round places => exact p.extends_mapCoefficients _
  | normalize =>
    rcases normalize_cases p with h | ⟨_, _, -, -, hdiv⟩
    · exact h.symm ▸ .refl _
    · exact index_tryMapCoefficients (tryMapCoefficients_of_div hdiv) ▸ .refl _
  | substitute values => exact p.extends_mapCoefficients _
  | toDomain e => exact p.extends_toDomain e

/-- What `p` becomes by any number of operations. An operation that fails leaves its operand. -/
inductive Steps {d : Domain} (p : Polynomial d V) : {e : Domain} → Polynomial e V → Prop
  | start : Steps p p
  | step {e f : Domain} {q : Polynomial e V} {r : Polynomial f V} : Steps p q → q.Step r → Steps p r

/-- So does every sequence of operations. -/
theorem Steps.extends (h : p.Steps q) : p.index.Extends q.index := by
  induction h with
  | start => exact .refl _
  | step _ hstep ih => exact ih.trans hstep.extends

/-! ## Solutions by number -/

/-- The value of a variable in a solution that is brought back is the one of its number. -/
theorem get?_convertSolution (hp : p.index.labels.Nodup) {f : Domain} {P : ℕ → Prop}
    {raw : Assignment ℕ} {sol : Assignment V} (hraw : raw.IsOn f P)
    (hsol : p.convertSolution f raw = .ok sol) {v : V} (hv : v ∈ p.index.labels) :
    sol.get? v = (raw.get? (p.index.position v)).bind (f.convert? d) := by
  obtain ⟨sol', hsol', hon, hpoint⟩ := convertSolution_spec (p := p) hp hraw
  obtain rfl : sol = sol' := Except.ok.inj (hsol.symm.trans hsol')
  by_cases hP : P (p.index.position v)
  · obtain ⟨b, hb⟩ := hraw.exists_get? hP
    obtain ⟨b', hb'⟩ := hon.exists_get? ⟨hv, hP⟩
    have hsame := hpoint v hv hP
    rw [Assignment.point_eq hb (Domain.contains_iff.mpr ⟨b, rfl⟩),
      Assignment.point_eq hb' (Domain.contains_iff.mpr ⟨b', rfl⟩), Domain.carry_ofBit,
      Int.cast_inj] at hsame
    rw [hb, hb', Option.bind_some, convert?_ofBit, hsame]
  · rw [(Table.get?_eq_none_iff hraw.sorted).mpr fun h => hP ((hraw.keys _).mp h),
      (Table.get?_eq_none_iff hon.sorted).mpr fun h => hP ((hon.keys v).mp h).2, Option.bind_none]

/-- What `q` keeps of the numbers of `p`. -/
structure KeepsNumbers (p : Polynomial d V) (q : Polynomial e V) : Prop where
  labels : p.index.labels <+: q.index.labels
  label : ∀ i v, p.index.label? i = some v → q.index.label? i = some v
  number : ∀ v ∈ p.index.labels, q.index.indexOf? v = p.index.indexOf? v
  /-- A numbered solution gives the variables of `p` the same values, carried to the domain of `q`. If all
  its numbers belong to variables of `p`, it gives values to no others. -/
  decoded : p.index.labels.Nodup → ∀ {f : Domain} {P : ℕ → Prop} {raw : Assignment ℕ}, raw.IsOn f P →
    ∃ a b, p.convertSolution f raw = .ok a ∧ q.convertSolution f raw = .ok b ∧
      (∀ v ∈ p.index.labels, b.get? v = (a.get? v).bind (d.convert? e)) ∧
      ((∀ i, P i → i < p.index.size) → ∀ v, v ∈ Table.keys b ↔ v ∈ Table.keys a)

/-- A value is converted in one step as it is in two. -/
theorem convert?_trans (f d e : Domain) (n : ℤ) :
    f.convert? e n = (f.convert? d n).bind (d.convert? e) := by
  rw [Domain.convert?, Domain.convert?]
  cases hn : f.toBit? n with
  | none => rfl
  | some b => exact (convert?_ofBit d e b).symm

/-- What an extension of the numbering means for numbers and for solutions. -/
theorem KeepsNumbers.of_extends (h : p.index.Extends q.index) : p.KeepsNumbers q where
  labels := h.labels
  label _ _ hv := h.label?_eq hv
  number _ hv := h.indexOf?_eq hv
  decoded hp f P raw hraw := by
    obtain ⟨a, ha, haon, -⟩ := convertSolution_spec (p := p) hp hraw
    obtain ⟨b, hb, hbon, -⟩ := convertSolution_spec (p := q) (h.nodup hp) hraw
    refine ⟨a, b, ha, hb, fun v hv => ?_, fun hsize v => ?_⟩
    · rw [get?_convertSolution hp hraw ha hv,
        get?_convertSolution (h.nodup hp) hraw hb (h.labels.subset hv), h.position_eq hv,
        Option.bind_assoc]
      exact congrArg _ (funext (convert?_trans f d e))
    · rw [hbon.keys, haon.keys]
      constructor
      · rintro ⟨hv, hP⟩
        -- the number belongs to a variable of `p`, and only one variable has it
        obtain ⟨w, hw⟩ : ∃ w, p.index.label? (q.index.position v) = some w :=
          ⟨_, List.getElem?_eq_getElem (hsize _ hP)⟩
        have hvw := h.label?_eq hw
        rw [VariableIndex.label?_position hv] at hvw
        obtain rfl := Option.some_inj.mp hvw
        obtain ⟨hvp, hposition⟩ := VariableIndex.position_of_label? hp hw
        exact ⟨hvp, hposition ▸ hP⟩
      · rintro ⟨hv, hP⟩
        exact ⟨h.labels.subset hv, h.position_eq hv ▸ hP⟩

end Polynomial

/-! ## Operations on models -/

namespace Model

variable {d : Domain} {m m' : Model d} {r : Relation} {p : Polynomial d Label}
  {options : ConstraintOptions}

/-- A penalty extends the numbering of the objective. -/
theorem extends_addPenalty (m : Model d) (q : Polynomial d Label) (weight : Coefficient) :
    m.objective.index.Extends (m.addPenalty q weight).objective.index :=
  extends_add _ _

/-- Every way to compile a constraint extends the numbering of the objective. -/
theorem Compiled.extends (h : Compiled m r p options m') :
    m.objective.index.Extends m'.objective.index := by
  cases h with
  | equality => exact m.extends_addPenalty _ _
  | always => exact .refl _
  | never => exact (m.skipAncillas p).extends_addPenalty _ _
  | slack => exact ((m.skipAncillas p).withBits _ _).extends_addPenalty _ _

/-- A constraint that is refused leaves the objective. -/
theorem extends_addConstraint (m : Model d) (r : Relation) (p : Polynomial d Label)
    (options : ConstraintOptions) :
    m.objective.index.Extends (m.addConstraint r p options).1.objective.index := by
  rcases addConstraint_cases m r p options with
    ⟨refused, e, hrefused, herror⟩ | ⟨compiled, diagnostic, hcompiled, hok⟩
  · rw [herror]
    cases hrefused <;> exact .refl _
  · rw [hok]
    exact hcompiled.extends

/-- What a model becomes by an operation on its objective, a substitution or a constraint, which may be
refused. -/
inductive Step (m : Model d) : Model d → Prop
  | edit {q : Polynomial d Label} : m.objective.Step q → Step m { m with objective := q }
  | substitute (values : Table String Coefficient) : Step m (m.substitute values)
  | addConstraint (r : Relation) (p : Polynomial d Label) (options : ConstraintOptions) :
      Step m (m.addConstraint r p options).1

/-- Every operation on models extends the numbering of the objective. -/
theorem Step.extends (h : m.Step m') : m.objective.index.Extends m'.objective.index := by
  cases h with
  | edit h => exact h.extends
  | substitute values => exact m.objective.extends_mapCoefficients _
  | addConstraint r p options => exact m.extends_addConstraint r p options

/-- What a model becomes by any number of operations. -/
inductive Steps (m : Model d) : Model d → Prop
  | start : Steps m m
  | step {m' m'' : Model d} : Steps m m' → m'.Step m'' → Steps m m''

/-- So does every sequence of operations on a model. -/
theorem Steps.extends (h : m.Steps m') : m.objective.index.Extends m'.objective.index := by
  induction h with
  | start => exact .refl _
  | step _ hstep ih => exact ih.trans hstep.extends

end Model

/-! ## Main result -/

/-- No sequence of operations on a polynomial or a model takes a number from a variable or gives it to
another. -/
theorem numbers_stable :
    (∀ {V : Type} [Variable V] {d e : Domain} {p : Polynomial d V} {q : Polynomial e V},
      p.Steps q → p.KeepsNumbers q) ∧
    ∀ {d : Domain} {m m' : Model d}, m.Steps m' → m.objective.KeepsNumbers m'.objective :=
  ⟨fun h => .of_extends h.extends, fun h => .of_extends h.extends⟩

/-- An objective with two variables. -/
def coupled : Polynomial .binary Label :=
  ofTerms [([.name "y", .name "x"], 1), ([.name "y"], 2)]

/-- All its terms cancel, and an inequality brings another variable. -/
def afterCancelling : Model .binary :=
  (({ Model.ofObjective coupled with objective := coupled - coupled } : Model .binary).addConstraint .le
    (ofTerms [([.name "z"], 1), ([.name "y"], 1), ([], -1)]) {}).1

/-- A solution for the first objective still speaks of the same variables, also over the other domain. -/
theorem numbers_stable_cancelled :
    (coupled - coupled).terms = [] ∧ coupled.index.labels = [.name "x", .name "y"] ∧
      afterCancelling.objective.index.labels = [.name "x", .name "y", .name "z", .ancilla 0] ∧
      coupled.KeepsNumbers afterCancelling.objective ∧
      coupled.KeepsNumbers ((coupled - coupled).toDomain .spin) ∧
      afterCancelling.objective.convertSolution .binary [(0, 1), (1, 0)] =
        .ok [(.name "x", 1), (.name "y", 0)] ∧
      ((coupled - coupled).toDomain .spin).convertSolution .binary [(0, 1), (1, 0)] =
        .ok [(.name "x", -1), (.name "y", 1)] := by
  have hmodel : (Model.ofObjective coupled).Steps afterCancelling :=
    .step (.step .start (.edit (.sub coupled))) (.addConstraint .le _ {})
  have hpolynomial : coupled.Steps ((coupled - coupled).toDomain .spin) :=
    .step (.step .start (.sub coupled)) (.toDomain .spin)
  exact ⟨by decide +kernel, by decide +kernel, by decide +kernel, numbers_stable.2 hmodel,
    numbers_stable.1 hpolynomial, by decide +kernel, by decide +kernel⟩

end PseudoBoolean

import PseudoBoolean.Proofs.Model.Compilation
import PseudoBoolean.Proofs.Polynomial.Regular

/-!
# What the public operations reach

`Polynomial.Reachable` are the polynomials that come out of any sequence of public operations on exact
inputs, over any domain and any variables; adding a constraint to a model is one of them, and leads to the
objective of the model that is left behind, whether the constraint is accepted or not. All of them are
regular (`Reachable.regular`), by one case for each operation, and `Reachable.representation` spells out
what this says about the stored data.
-/

namespace PseudoBoolean

open PseudoBoolean.Polynomial

variable {d : Domain}

/-! ## Constraints -/

/-- What holds of the old records and of the bits holds of all records. -/
theorem Slack.forall_mem_record {P : Label → Prop} {bits : List (Label × ℕ)} {a : AncillaTable Label}
    (constraint : ℕ) (ha : ∀ e ∈ a, P e.1) (hbits : ∀ v ∈ bits.map (·.1), P v) :
    ∀ e ∈ record constraint bits a, P e.1 := by
  unfold record
  refine List.foldlRecOn (motive := fun t : AncillaTable Label => ∀ e ∈ t, P e.1) bits _ ha ?_
  intro t ht x hx
  exact Table.forall_mem_alter ht fun _ _ => hbits x.1 (List.mem_map_of_mem hx)

/-- The table of records stays sorted. -/
theorem Slack.sorted_record (constraint : ℕ) (bits : List (Label × ℕ)) {a : AncillaTable Label}
    (ha : a.Sorted) : (record constraint bits a).Sorted := by
  rw [record_eq]
  exact Table.sorted_insertAll _ ha

namespace Model

variable {m after : Model d} {r : Relation} {p q : Polynomial d Label} {options : ConstraintOptions}
  {weight : Coefficient} {K : Coefficient → Prop} [Coefficient.Closed K]

/-- A penalty keeps the objective regular. -/
theorem regular_addPenalty (hm : m.objective.Regular K) (hq : q.Regular K) (hweight : K weight) :
    (m.addPenalty q weight).objective.Regular K :=
  hm.add ((hq.pow 2).scale hweight)

/-- What is to be at most zero in the place of a constraint is regular. -/
theorem regular_atMostZero (hp : p.Regular K) (r : Relation) (lower upper : Number) :
    (atMostZero r p lower upper).1.Regular K := by
  cases r with
  | eq => exact hp
  | le => exact hp
  | lt => exact hp.addConstant (Coefficient.kind_ofNat 1)
  | ge => exact hp.neg
  | gt => exact hp.neg.addConstant (Coefficient.kind_ofNat 1)

/-- The bits are recorded before the penalty is added, and numbered with it. -/
theorem regular_withSlack (hm : m.objective.Regular K) (hq : q.Regular K) (hweight : K options.weight)
    (range : ℕ) : (m.withSlack q range options).objective.Regular K := by
  obtain ⟨hold, hnew, hbits⟩ := labels_subset_withSlack m q range options
  have hslack : (Slack.polynomial d (m.nextBits range options.logarithmic)).WellFormed K :=
    (Slack.isSlack_polynomial d _).wellFormed.mono fun _ => Coefficient.IsRational.kind
  have hpenalty := ((hq.toWellFormed.add hslack).pow 2).scale hweight
  have hwithBits : (m.withBits range options.logarithmic).objective.WellFormed K :=
    ⟨hm.terms, hm.distinct, hm.indexed⟩
  refine ⟨hwithBits.add hpenalty, ?_, ?_⟩ <;> rw [ancillas_withSlack hq.sorted]
  · refine AncillaTable.forall_mem_merge ?_ fun e he => hnew (hq.recorded e he)
    exact Slack.forall_mem_record _ (fun e he => hold (hm.recorded e he)) fun v hv => hbits hv
  · exact AncillaTable.sorted_merge (Slack.sorted_record _ _ hm.sorted) _

/-- Every way to compile a constraint keeps the objective regular. -/
theorem Compiled.regular (h : Compiled m r p options after) (hm : m.objective.Regular K)
    (hp : p.Regular K) (hweight : K options.weight) : after.objective.Regular K := by
  cases h with
  | equality => exact regular_addPenalty hm hp hweight
  | always => exact hm
  | never =>
    exact regular_addPenalty (m := m.skipAncillas p) hm (regular_atMostZero hp _ _ _) hweight
  | slack =>
    exact regular_withSlack (m := m.skipAncillas p) hm (regular_atMostZero hp _ _ _) hweight _

/-- A constraint that is refused leaves the objective as it is. -/
theorem regular_addConstraint (hm : m.objective.Regular K) (hp : p.Regular K)
    (hweight : K options.weight) (r : Relation) :
    (m.addConstraint r p options).1.objective.Regular K := by
  rcases addConstraint_cases m r p options with
    ⟨refused, e, hrefused, herror⟩ | ⟨compiled, diagnostic, hcompiled, hok⟩
  · rw [herror]
    cases hrefused <;> exact hm
  · rw [hok]
    exact hcompiled.regular hm hp hweight

end Model

/-! ## Sequences of operations -/

namespace Polynomial

/-- The polynomials that the public operations make of exact inputs. -/
inductive Reachable : {d : Domain} → {V : Type} → [Variable V] → Polynomial d V → Prop
  | ofTerms {d : Domain} {V : Type} [Variable V] {entries : List (List V × Coefficient)} :
      (∀ e ∈ entries, e.2.Exact) → Reachable (ofTerms entries : Polynomial d V)
  | setTerm {d : Domain} {V : Type} [Variable V] {p : Polynomial d V} {c : Coefficient}
      (vars : List V) : Reachable p → c.Exact → Reachable (p.setTerm vars c)
  | addTerm {d : Domain} {V : Type} [Variable V] {p : Polynomial d V} {c : Coefficient}
      (vars : List V) : Reachable p → c.Exact → Reachable (p.addTerm vars c)
  | update {d : Domain} {V : Type} [Variable V] {p q : Polynomial d V} :
      Reachable p → Reachable q → Reachable (p.update q)
  | add {d : Domain} {V : Type} [Variable V] {p q : Polynomial d V} :
      Reachable p → Reachable q → Reachable (p + q)
  | sub {d : Domain} {V : Type} [Variable V] {p q : Polynomial d V} :
      Reachable p → Reachable q → Reachable (p - q)
  | mul {d : Domain} {V : Type} [Variable V] {p q : Polynomial d V} :
      Reachable p → Reachable q → Reachable (p * q)
  | neg {d : Domain} {V : Type} [Variable V] {p : Polynomial d V} : Reachable p → Reachable (-p)
  | addConstant {d : Domain} {V : Type} [Variable V] {p : Polynomial d V} {c : Coefficient} :
      Reachable p → c.Exact → Reachable (p.addConstant c)
  | subConstant {d : Domain} {V : Type} [Variable V] {p : Polynomial d V} {c : Coefficient} :
      Reachable p → c.Exact → Reachable (p.subConstant c)
  | constantSub {d : Domain} {V : Type} [Variable V] {p : Polynomial d V} {c : Coefficient} :
      c.Exact → Reachable p → Reachable (constantSub c p)
  | scale {d : Domain} {V : Type} [Variable V] {p : Polynomial d V} {k : Coefficient} :
      Reachable p → k.Exact → Reachable (p.scale k)
  | pow {d : Domain} {V : Type} [Variable V] {p : Polynomial d V} (n : ℕ) :
      Reachable p → Reachable (p.pow n)
  | div {d : Domain} {V : Type} [Variable V] {p q : Polynomial d V} {k : Coefficient} :
      Reachable p → k.Exact → p.div k = .ok q → Reachable q
  | floorDiv {d : Domain} {V : Type} [Variable V] {p q : Polynomial d V} {k : Coefficient} :
      Reachable p → k.Exact → p.floorDiv k = .ok q → Reachable q
  | round {d : Domain} {V : Type} [Variable V] {p : Polynomial d V} (places : ℕ) :
      Reachable p → Reachable (p.round places)
  | normalize {d : Domain} {V : Type} [Variable V] {p : Polynomial d V} :
      Reachable p → Reachable p.normalize.1
  | substitute {d : Domain} {V : Type} [Variable V] {p : Polynomial d V}
      {values : Table String Coefficient} :
      Reachable p → (∀ e ∈ values, e.2.Exact) → Reachable (p.substitute values)
  | setMapping {d : Domain} {V : Type} [Variable V] {p : Polynomial d V} (pairs : List (V × ℕ)) :
      Reachable p → Reachable (p.setMapping pairs).1
  | toDomain {d : Domain} {V : Type} [Variable V] {p : Polynomial d V} (e : Domain) :
      Reachable p → Reachable (p.toDomain e)
  | toIndexed {d : Domain} {V : Type} [Variable V] {p : Polynomial d V} :
      Reachable p → Reachable p.toIndexed
  | reduce {p q : Polynomial .binary ℕ} {target : Option ℕ} {weight : ReductionWeight} :
      Reachable p → WeightOf Coefficient.Exact weight → p.reduce target weight = .ok q → Reachable q
  | addConstraint {d : Domain} {m : Model d} {p : Polynomial d Label} {options : ConstraintOptions}
      (r : Relation) : Reachable m.objective → Reachable p → options.weight.Exact →
      Reachable (m.addConstraint r p options).1.objective

variable {V : Type} [Variable V] {p : Polynomial d V}

/-- A weight of one kind is of every wider kind. -/
theorem weightOf_mono {K K' : Coefficient → Prop} {weight : ReductionWeight}
    (hK : ∀ c, K c → K' c) (h : WeightOf K weight) : WeightOf K' weight := by
  cases weight with
  | auto => trivial
  | fixed w => exact hK w h

/-- Every polynomial that the operations reach is regular. -/
theorem Reachable.regular (h : Reachable p) : p.Regular Coefficient.Normal := by
  induction h with
  | ofTerms hentries => exact .ofTerms fun e he => (hentries e he).normal
  | setTerm vars _ hc ih => exact ih.setTerm vars hc.normal
  | addTerm vars _ hc ih => exact ih.addTerm vars hc.normal
  | update _ _ ihp ihq => exact ihp.update ihq
  | add _ _ ihp ihq => exact ihp.add ihq
  | sub _ _ ihp ihq => exact ihp.sub ihq
  | mul _ _ ihp ihq => exact ihp.mul ihq
  | neg _ ih => exact ih.neg
  | addConstant _ hc ih => exact ih.addConstant hc.normal
  | subConstant _ hc ih => exact ih.subConstant hc.normal
  | constantSub hc _ ih => exact .constantSub hc.normal ih
  | scale _ hk ih => exact ih.scale hk.normal
  | pow n _ ih => exact ih.pow n
  | div _ hk hok ih => exact ih.div hk.normal hok
  | floorDiv _ hk hok ih => exact ih.floorDiv hk.normal hok
  | round places _ ih => exact ih.round places
  | normalize _ ih => exact ih.normalize
  | substitute _ hvalues ih => exact ih.substitute fun e he => (hvalues e he).normal
  | setMapping pairs _ ih => exact ih.setMapping pairs
  | toDomain e _ ih => exact ih.toDomain e
  | toIndexed _ ih => exact ih.toIndexed
  | reduce _ hweight hok ih =>
    exact ih.reduce (weightOf_mono (fun _ => Coefficient.Exact.normal) hweight) hok
  | addConstraint r _ _ hweight ihm ihp => exact Model.regular_addConstraint ihm ihp hweight.normal r

/-! ## The stored data -/

/-- What holds of the data that a polynomial stores. -/
structure Representation (p : Polynomial d V) : Prop where
  nonzero : ∀ e ∈ p.terms, e.2.isZero = false
  numbers : ∀ t n, (t, .num n) ∈ p.terms → n.isExact
  /-- A symbolic coefficient depends on a parameter, and all of its terms count. -/
  symbolic : ∀ t s, (t, .sym s) ∈ p.terms →
    s.params ≠ [] ∧ ∀ u ∈ s.terms, u.2.isExact ∧ u.2.isZero = false
  sorted : p.terms.Sorted
  increasing : ∀ e ∈ p.terms, Increasing e.1
  distinct : p.index.labels.Nodup
  /-- The two directions of the numbering, on the numbers below its size. -/
  inverse : ∀ i v, p.index.label? i = some v ↔ p.index.indexOf? v = some i
  size : ∀ i, (∃ v, p.index.label? i = some v) ↔ i < p.index.size
  occurring : ∀ e ∈ p.terms, ∀ v ∈ e.1, v ∈ p.index.labels
  ancillas : ∀ v ∈ p.ancillas.keys, v ∈ p.index.labels

/-- A polynomial in parameters that is not constant has parameters. -/
theorem params_ne_nil {s : Symbolic} (h : s.isConstant = false) : s.params ≠ [] := by
  obtain ⟨t, ht, hne⟩ := List.all_eq_false.mp h
  obtain ⟨power, hpower⟩ := List.exists_mem_of_ne_nil t.1 fun h => hne (by simp [h])
  refine List.ne_nil_of_mem (a := power.param) ?_
  rw [Symbolic.params, Table.mem_sortedSet]
  exact List.mem_flatMap.mpr ⟨t, ht, List.mem_map_of_mem hpower⟩

/-- Regularity says all that is claimed of the representation. -/
theorem representation_of_regular (h : p.Regular Coefficient.Normal) : p.Representation where
  nonzero e he := (h.terms.entries e he).nonzero
  numbers t n he := (h.terms.entries _ he).kind
  symbolic t s he := by
    obtain ⟨hs, hconstant⟩ := (h.terms.entries _ he).kind
    refine ⟨params_ne_nil hconstant, fun u hu => ?_⟩
    obtain ⟨-, hexact, hne⟩ := hs.entries u hu
    exact ⟨hexact, (Number.isZero_eq_false_iff hexact).mpr hne⟩
  sorted := h.terms.sorted
  increasing e he := (h.terms.entries e he).increasing
  distinct := h.distinct
  inverse _ _ := VariableIndex.label?_eq_some_iff h.distinct
  size _ := by
    simp only [VariableIndex.label?, VariableIndex.size, List.getElem?_eq_some_iff]
    constructor
    · rintro ⟨_, hi, -⟩
      exact hi
    · exact fun hi => ⟨_, hi, rfl⟩
  occurring := h.indexed
  ancillas v hv := by
    obtain ⟨origin, hmem⟩ := Table.mem_keys.mp hv
    exact h.recorded _ hmem

/-- The representation invariant: whatever sequence of operations on exact inputs a polynomial comes from,
its coefficients are exact, not zero and in their normal form, its terms are increasing, its numbering is a
bijection, and the variables of its terms and its records are numbered. -/
theorem Reachable.representation (h : Reachable p) : p.Representation :=
  representation_of_regular h.regular

/-- A cubic term with a parameter, reduced to degree two, and the variable that this introduces. -/
theorem Reachable.representation_cubic :
    ∃ q : Polynomial .binary ℕ,
      (Polynomial.ofTerms [([0, 1, 2], .param "k"), ([0], 1)]).reduce (some 2) (.fixed 4) = .ok q ∧
        q.ancillas.keys = [3] ∧ q.Representation := by
  have hp : Reachable (Polynomial.ofTerms [([0, 1, 2], .param "k"), ([0], 1)] : Polynomial .binary ℕ) :=
    .ofTerms (List.forall_mem_cons.mpr ⟨.param "k", List.forall_mem_singleton.mpr (.number 1)⟩)
  have hmap : ((Polynomial.ofTerms [([0, 1, 2], .param "k"), ([0], 1)]).reduce (some 2)
      (.fixed 4)).map (·.ancillas.keys) = .ok [3] := by decide +kernel
  cases hq : (Polynomial.ofTerms [([0, 1, 2], .param "k"), ([0], 1)] :
      Polynomial .binary ℕ).reduce (some 2) (.fixed 4) with
  | error e =>
    rw [hq] at hmap
    cases hmap
  | ok q =>
    rw [hq] at hmap
    have hreachable : Reachable q :=
      .reduce hp (show WeightOf Coefficient.Exact (.fixed 4) from .number 4) hq
    exact ⟨q, rfl, Except.ok.inj hmap, hreachable.representation⟩

end Polynomial

end PseudoBoolean

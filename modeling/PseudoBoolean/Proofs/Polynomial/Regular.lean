import PseudoBoolean.Proofs.ExactCoefficient
import PseudoBoolean.Proofs.Polynomial.Numbering
import PseudoBoolean.Proofs.Polynomial.Reduction

/-!
# Regular polynomials

`Regular K` is the full invariant of polynomials: well-formed with coefficients of the kind `K`, and every
recorded ancilla is numbered. Most operations keep it because they keep the records and only add to the
numbering (`Regular.extend`), and those on two polynomials number the variables of both before they merge
the records (`Regular.adopt`). The others need an argument of their own: a new mapping has the same
variables, the numbered form renames records and variables alike, and a reduction puts every variable that
it records into a term.
-/

namespace PseudoBoolean

namespace Polynomial

variable {d e : Domain} {V W : Type} [Variable V] [Variable W] {K : Coefficient → Prop}
  {p q : Polynomial d V} {c k : Coefficient} {v : V}

/-! ## Operations that fail on some coefficients -/

omit [Variable V] in
/-- The terms stay, and each gets what the operation makes of its coefficient. -/
theorem entries_of_mapM {β : Type} {f : Coefficient → Except CoefficientError β}
    {l : List (Term V × Coefficient)} {l' : List (Term V × β)}
    (h : l.mapM (fun t => do return (t.1, ← Error.ofCoefficient (f t.2))) = Except.ok l') :
    l'.map (·.1) = l.map (·.1) ∧ ∀ t ∈ l', ∃ s ∈ l, s.1 = t.1 ∧ f s.2 = .ok t.2 := by
  have hread : List.Forall₂ (fun s t => s.1 = t.1 ∧ f s.2 = .ok t.2) l l' := by
    refine (forall₂_of_mapM h).imp fun s t ht => ?_
    obtain ⟨c, hc, hpair⟩ := exists_of_bind_eq_ok ht
    obtain rfl := Except.ok.inj hpair
    cases hs : f s.2 with
    | error e =>
      rw [hs] at hc
      cases hc
    | ok c' =>
      rw [hs] at hc
      exact ⟨rfl, congrArg Except.ok (Except.ok.inj hc)⟩
  refine ⟨?_, (exists_mem_of_forall₂ hread).2⟩
  have hkeys : List.Forall₂ (· = ·) (l.map (·.1)) (l'.map (·.1)) :=
    List.forall₂_map_left_iff.mpr (List.forall₂_map_right_iff.mpr (hread.imp fun _ _ h => h.1))
  rw [List.forall₂_eq_eq_eq] at hkeys
  exact hkeys.symm

/-- Changed coefficients of the same kind make a well-formed polynomial, if no change fails. -/
theorem WellFormed.tryMapCoefficients {f : Coefficient → Except CoefficientError Coefficient}
    (hp : p.WellFormed K) (hf : ∀ c c', K c → f c = .ok c' → K c')
    (h : p.tryMapCoefficients f = .ok q) : q.WellFormed K := by
  obtain ⟨terms, hterms, hq⟩ := exists_of_bind_eq_ok h
  obtain rfl := Except.ok.inj hq
  obtain ⟨hkeys, hsource⟩ := entries_of_mapM hterms
  have hsorted : Table.Sorted terms := by
    have hincreasing : Increasing (p.terms.map (·.1)) := List.pairwise_map.mpr hp.terms.sorted
    rw [← hkeys] at hincreasing
    exact List.pairwise_map.mp hincreasing
  refine ⟨⟨hsorted.sublist List.filter_sublist, fun t ht => ?_⟩, hp.distinct, fun t ht => ?_⟩
  · obtain ⟨ht, hne⟩ := List.mem_filter.mp ht
    obtain ⟨s, hs, hterm, hc⟩ := hsource t ht
    obtain ⟨hincreasing, hkind, -⟩ := hp.terms.entries s hs
    exact ⟨hterm ▸ hincreasing, hf _ _ hkind hc, by simpa using hne⟩
  · obtain ⟨s, hs, hterm, -⟩ := hsource t (List.mem_filter.mp ht).1
    exact hterm ▸ hp.indexed s hs

omit [Variable V] in
/-- Only the terms change. -/
theorem frame_tryMapCoefficients {f : Coefficient → Except CoefficientError Coefficient}
    (h : p.tryMapCoefficients f = .ok q) : q.index = p.index ∧ q.ancillas = p.ancillas := by
  obtain ⟨terms, -, hq⟩ := exists_of_bind_eq_ok h
  obtain rfl := Except.ok.inj hq
  exact ⟨rfl, rfl⟩

/-- The largest magnitude of exact numbers is exact. -/
theorem isExact_maxAbs {xs : List Number} {n : Number} (hxs : ∀ x ∈ xs, x.isExact)
    (h : Number.maxAbs xs = some n) : n.isExact := by
  have key : ∀ b ∈ Number.maxAbs xs, b.isExact := by
    unfold Number.maxAbs
    refine List.foldlRecOn (motive := fun best : Option Number => ∀ b ∈ best, b.isExact) xs _
      (by simp) ?_
    intro best hbest x hx b hb
    have habs : x.abs.isExact := by
      obtain ⟨q, rfl⟩ := Number.isExact_iff.mp (hxs x hx)
      rfl
    split at hb
    · split at hb
      · exact hbest b (Option.some_inj.mp hb ▸ rfl)
      · exact Option.some_inj.mp hb ▸ habs
    · exact Option.some_inj.mp hb ▸ habs
  exact key n h

/-! ## The invariant -/

/-- A well-formed polynomial whose recorded ancillas are numbered. -/
structure Regular (K : Coefficient → Prop) (p : Polynomial d V) : Prop extends p.WellFormed K where
  recorded : ∀ e ∈ p.ancillas, e.1 ∈ p.index.labels
  sorted : p.ancillas.Sorted

/-- The records stay and no variable loses its number. -/
theorem Regular.extend {q : Polynomial e V} (hp : p.Regular K) (hq : q.WellFormed K)
    (hlabels : p.index.labels ⊆ q.index.labels) (hancillas : q.ancillas = p.ancillas) :
    q.Regular K :=
  ⟨hq, fun r hr => hlabels (hp.recorded r (hancillas ▸ hr)), hancillas ▸ hp.sorted⟩

/-- A regular polynomial is regular for a wider kind of coefficients. -/
theorem Regular.mono {K' : Coefficient → Prop} (hp : p.Regular K) (hK : ∀ c, K c → K' c) :
    p.Regular K' :=
  ⟨hp.toWellFormed.mono hK, hp.recorded, hp.sorted⟩

/-- The polynomial without terms is regular. -/
theorem Regular.empty : (empty : Polynomial d V).Regular K :=
  ⟨.empty, by simp [Polynomial.empty], List.Pairwise.nil⟩

/-- Setting a term keeps the numbering as an initial part. -/
theorem labels_prefix_assign (p : Polynomial d V) (t : Term V) (c : Coefficient) :
    p.index.labels <+: (p.assign t c).index.labels := by
  rw [assign]
  split
  · exact List.prefix_rfl
  · exact labels_prefix_insertAll

/-- Setting a term keeps the records. -/
theorem ancillas_assign (p : Polynomial d V) (t : Term V) (c : Coefficient) :
    (p.assign t c).ancillas = p.ancillas := by
  rw [assign]
  split <;> rfl

/-- Setting a term in normal form keeps regularity. -/
theorem Regular.assign {t : Term V} (hp : p.Regular K) (ht : Increasing t) (hc : K c) :
    (p.assign t c).Regular K :=
  hp.extend (hp.toWellFormed.assign ht hc) (labels_prefix_assign p t c).subset
    (ancillas_assign p t c)

/-- Setting the coefficient of any product of variables keeps regularity. -/
theorem Regular.setTerm (hp : p.Regular K) (vars : List V) (hc : K c) :
    (p.setTerm vars c).Regular K :=
  hp.assign (Term.increasing_normalize d vars) hc

/-- Without its terms a polynomial is still regular. -/
theorem Regular.cleared (hp : p.Regular K) : p.cleared.Regular K :=
  hp.extend hp.toWellFormed.cleared (List.Subset.refl _) rfl

/-- The variables of both are numbered before the records are merged. -/
theorem Regular.adopt (hp : p.Regular K) (hq : q.Regular K) : (p.adopt q).Regular K where
  toWellFormed := hp.toWellFormed.adopt q
  recorded := AncillaTable.forall_mem_merge
    (fun r hr => (labels_prefix_adopt p q).subset (hp.recorded r hr))
    fun r hr => labels_subset_adopt p q (hq.recorded r hr)
  sorted := AncillaTable.sorted_merge hp.sorted q.ancillas

/-- Overwriting with the terms of another polynomial keeps regularity. -/
theorem Regular.update (hp : p.Regular K) (hq : q.Regular K) : (p.update q).Regular K := by
  unfold Polynomial.update
  apply List.foldlRecOn q.terms _ (hp.adopt hq)
  intro r hr t ht
  obtain ⟨hincreasing, hc⟩ := hq.terms.addable t ht
  exact hr.assign hincreasing hc

/-- No variable loses its number when terms are overwritten. -/
theorem labels_prefix_update (p q : Polynomial d V) :
    p.index.labels <+: (p.update q).index.labels := by
  unfold Polynomial.update
  refine List.foldlRecOn (motive := fun r : Polynomial d V => p.index.labels <+: r.index.labels)
    q.terms _ (labels_prefix_adopt p q) ?_
  exact fun r hr t _ => hr.trans (labels_prefix_assign r t.1 t.2)

/-- A change of coefficients that succeeds keeps regularity. -/
theorem Regular.tryMapCoefficients {f : Coefficient → Except CoefficientError Coefficient}
    (hp : p.Regular K) (hf : ∀ c c', K c → f c = .ok c' → K c')
    (h : p.tryMapCoefficients f = .ok q) : q.Regular K := by
  obtain ⟨hindex, hancillas⟩ := frame_tryMapCoefficients h
  exact hp.extend (hp.toWellFormed.tryMapCoefficients hf h) (hindex ▸ List.Subset.refl _) hancillas

omit [Variable V] in
/-- A quotient is taken coefficient by coefficient. -/
theorem tryMapCoefficients_of_div (h : p.div k = .ok q) : p.tryMapCoefficients (·.div k) = .ok q := by
  rw [Polynomial.div] at h
  split at h
  · cases h
  · exact h

omit [Variable V] in
/-- The floor of a quotient is taken coefficient by coefficient. -/
theorem tryMapCoefficients_of_floorDiv (h : p.floorDiv k = .ok q) :
    p.tryMapCoefficients (·.floorDiv k) = .ok q := by
  rw [Polynomial.floorDiv] at h
  split at h
  · cases h
  · exact h

omit [Variable V] in
/-- Normalizing is a division by a number, or it leaves the polynomial as it is. -/
theorem normalize_cases (p : Polynomial d V) :
    p.normalize.1 = p ∨ ∃ (numbers : Table (Term V) Number) (largest : Number),
      p.numericTerms = .ok numbers ∧ Number.maxAbs (numbers.map (·.2)) = some largest ∧
      p.div (.num largest) = .ok p.normalize.1 := by
  rw [normalize]
  cases p.numericTerms with
  | error e => exact .inl rfl
  | ok numbers =>
    dsimp only
    cases hmax : Number.maxAbs (numbers.map (·.2)) with
    | none => exact .inl rfl
    | some largest =>
      dsimp only [divAssign]
      cases hdiv : p.div (.num largest) with
      | error e => exact .inl rfl
      | ok q => exact .inr ⟨numbers, largest, rfl, hmax, hdiv⟩

/-- A mapping that is set has the same variables. -/
theorem frame_setMapping (p : Polynomial d V) (pairs : List (V × ℕ)) :
    (∀ v, v ∈ (p.setMapping pairs).1.index.labels ↔ v ∈ p.index.labels) ∧
      (p.setMapping pairs).1.ancillas = p.ancillas := by
  rcases setMapping_cases p pairs with ⟨e, h⟩ | ⟨index, -, hsame, h⟩
  · rw [h]
    exact ⟨fun _ => .rfl, rfl⟩
  · rw [h]
    exact ⟨fun v => (hsame v).symm, rfl⟩

section Closed

variable [Coefficient.Closed K] {t : Term V}

/-- Adding terms one by one keeps regularity. -/
theorem Regular.accumulateList {l : List (Term V × Coefficient)} (hp : p.Regular K)
    (hl : Addable K l) : (p.accumulateList l).Regular K :=
  hp.extend (hp.toWellFormed.accumulateList hl) (labels_prefix_accumulateList p l).subset
    (ancillas_accumulateList p l)

/-- Adding to a term keeps regularity. -/
theorem Regular.accumulate (hp : p.Regular K) (ht : Increasing t) (hc : K c) :
    (p.accumulate t c).Regular K :=
  hp.extend (hp.toWellFormed.accumulate ht hc) (labels_prefix_accumulate p t c).subset
    (ancillas_accumulate p t c)

/-! ## Operations on terms -/

/-- Adding to the coefficient of any product of variables keeps regularity. -/
theorem Regular.addTerm (hp : p.Regular K) (vars : List V) (hc : K c) :
    (p.addTerm vars c).Regular K :=
  hp.accumulate (Term.increasing_normalize d vars) hc

/-- A sum of products is regular. -/
theorem Regular.ofTerms {entries : List (List V × Coefficient)} (h : ∀ e ∈ entries, K e.2) :
    (Polynomial.ofTerms entries : Polynomial d V).Regular K := by
  unfold Polynomial.ofTerms
  apply List.foldlRecOn entries _ Regular.empty
  intro p hp e he
  exact hp.addTerm e.1 (h e he)

/-! ## Operations on coefficients -/

/-- A change of coefficients within the kind keeps regularity. -/
theorem Regular.mapCoefficients {f : Coefficient → Coefficient} (hp : p.Regular K)
    (hf : ∀ c, K c → K (f c)) : (p.mapCoefficients f).Regular K :=
  hp.extend (hp.toWellFormed.mapCoefficients hf) (labels_prefix_mapCoefficients f p).subset
    (ancillas_mapCoefficients f p)

/-- The negative of a regular polynomial is regular. -/
theorem Regular.neg (hp : p.Regular K) : (-p).Regular K :=
  hp.mapCoefficients fun _ hc => Coefficient.Closed.neg hc

/-- Multiples of regular polynomials are regular. -/
theorem Regular.scale (hp : p.Regular K) (hk : K k) : (p.scale k).Regular K :=
  hp.mapCoefficients fun _ hc => Coefficient.Closed.mul hc hk

/-! ## Sums, products and powers -/

/-- Adding a constant keeps regularity. -/
theorem Regular.addConstant (hp : p.Regular K) (hc : K c) : (p.addConstant c).Regular K :=
  hp.accumulate List.Pairwise.nil hc

/-- Subtracting a constant keeps regularity. -/
theorem Regular.subConstant (hp : p.Regular K) (hc : K c) : (p.subConstant c).Regular K :=
  hp.addConstant (Coefficient.Closed.neg hc)

/-- A regular polynomial that is subtracted from a constant leaves a regular one. -/
theorem Regular.constantSub (hc : K c) (hp : p.Regular K) : (Polynomial.constantSub c p).Regular K :=
  hp.neg.addConstant hc

/-- The sum of regular polynomials is regular. -/
theorem Regular.add (hp : p.Regular K) (hq : q.Regular K) : (p + q).Regular K :=
  (hp.adopt hq).accumulateList hq.terms.addable

/-- The difference of regular polynomials is regular. -/
theorem Regular.sub (hp : p.Regular K) (hq : q.Regular K) : (p - q).Regular K := by
  rw [sub_eq]
  exact (hp.adopt hq).accumulateList (addable_neg hq.toWellFormed)

/-- The product of regular polynomials is regular. -/
theorem Regular.mul (hp : p.Regular K) (hq : q.Regular K) : (p * q).Regular K := by
  rw [mul_eq]
  exact (hp.cleared.adopt hq).accumulateList
    (addable_productTerms hp.toWellFormed hq.toWellFormed)

/-- Powers of regular polynomials are regular. -/
theorem Regular.pow (hp : p.Regular K) (n : ℕ) : (p.pow n).Regular K :=
  isPowerLoop.invariant (P := (Regular K ·)) (Q := (Regular K ·)) (fun _ _ => .mul)
    (fun _ hb => hb.mul hb) (hp.cleared.addConstant (Coefficient.kind_ofNat 1)) hp

end Closed

/-! ## Operations on coefficients in normal form -/

/-- Rounding keeps regularity. -/
theorem Regular.round (hp : p.Regular Coefficient.Normal) (places : ℕ) :
    (p.round places).Regular Coefficient.Normal :=
  hp.mapCoefficients fun _ hc => hc.roundTo places

/-- A substitution by normal coefficients keeps regularity. -/
theorem Regular.substitute {values : Table String Coefficient} (hp : p.Regular Coefficient.Normal)
    (hvalues : ∀ e ∈ values, e.2.Normal) : (p.substitute values).Regular Coefficient.Normal :=
  hp.mapCoefficients fun _ hc => hc.substitute hvalues

/-- A quotient by a coefficient is regular. -/
theorem Regular.div (hp : p.Regular Coefficient.Normal) (hk : k.Normal) (h : p.div k = .ok q) :
    q.Regular Coefficient.Normal :=
  hp.tryMapCoefficients (fun _ _ hc => hc.div hk) (tryMapCoefficients_of_div h)

/-- The floor of a quotient by a coefficient is regular. -/
theorem Regular.floorDiv (hp : p.Regular Coefficient.Normal) (hk : k.Normal)
    (h : p.floorDiv k = .ok q) : q.Regular Coefficient.Normal :=
  hp.tryMapCoefficients (fun _ _ hc => hc.floorDiv hk) (tryMapCoefficients_of_floorDiv h)

/-- What a normalization leaves behind is regular, whether it succeeds or not. -/
theorem Regular.normalize (hp : p.Regular Coefficient.Normal) :
    p.normalize.1.Regular Coefficient.Normal := by
  rcases normalize_cases p with h | ⟨numbers, largest, hnumbers, hmax, hdiv⟩
  · exact h.symm ▸ hp
  have hexact : ∀ x ∈ numbers.map (·.2), x.isExact := by
    rw [List.forall_mem_map]
    intro t ht
    obtain ⟨s, hs, -, hnumber⟩ := (entries_of_mapM hnumbers).2 t ht
    have hc := (hp.terms.entries s hs).kind
    cases hcase : s.2 with
    | num n =>
      rw [hcase] at hc hnumber
      exact Except.ok.inj hnumber ▸ hc
    | sym f =>
      rw [hcase] at hnumber
      cases hnumber
  exact hp.div (k := .num largest) (isExact_maxAbs hexact hmax) hdiv

/-! ## Numbering and domain -/

/-- What a new numbering leaves behind is regular, whether it is accepted or not. -/
theorem Regular.setMapping (hp : p.Regular K) (pairs : List (V × ℕ)) :
    (p.setMapping pairs).1.Regular K := by
  obtain ⟨hlabels, hancillas⟩ := frame_setMapping p pairs
  exact hp.extend (hp.toWellFormed.setMapping pairs) (fun v hv => (hlabels v).mpr hv) hancillas

/-- A change of the domain keeps regularity. -/
theorem Regular.toDomain (hp : p.Regular Coefficient.Normal) (e : Domain) :
    (p.toDomain e).Regular Coefficient.Normal :=
  hp.extend (hp.toWellFormed.toDomain e)
    (index_toDomain hp.toWellFormed (e := e) ▸ List.Subset.refl _) ancillas_toDomain

/-- The numbered polynomial has the renamed records. -/
theorem ancillas_toIndexed (p : Polynomial d V) :
    p.toIndexed.ancillas = p.ancillas.relabel p.index.indexOf? := by
  rw [toIndexed_eq, ancillas_ofParts]

/-- A record is renamed to the number of its variable. -/
theorem lt_size_of_mem_relabel {index : VariableIndex V} {a : AncillaTable V} :
    ∀ r ∈ a.relabel index.indexOf?, r.1 < index.size :=
  AncillaTable.forall_mem_relabel fun _ _ hi => (List.idxOf?_eq_some_iff.mp hi).1

/-- The records are of numbers of variables, and all of them are in use. -/
theorem Regular.toIndexed (hp : p.Regular Coefficient.Normal) :
    p.toIndexed.Regular Coefficient.Normal := by
  refine ⟨hp.toWellFormed.toIndexed, ?_, ?_⟩
  · rw [index_toIndexed hp.toWellFormed, ancillas_toIndexed]
    exact fun r hr => List.mem_range.mpr (lt_size_of_mem_relabel r hr)
  · rw [ancillas_toIndexed]
    exact AncillaTable.sorted_relabel _ _

/-! ## Degree reduction -/

section Reduce

variable {p r : Polynomial .binary ℕ} {f : Term ℕ → Term ℕ} {l : List (Term ℕ × Coefficient)}
  {t : Term ℕ × Coefficient} {target next x y z i : ℕ} {pairs : List (ℕ × ℕ)} {w : Coefficient}
  {weight : ReductionWeight}

/-- The new form of a term is numbered, whatever becomes of its coefficient. -/
theorem mem_labels_replaceList (ht : t ∈ l) (hne : t.2.isZero = false) (hi : i ∈ f t.1) :
    i ∈ (p.replaceList f l).index.labels := by
  rw [replaceList]
  induction l generalizing p with
  | nil => simp at ht
  | cons s l ih =>
    rw [List.foldl_cons]
    rcases List.mem_cons.mp ht with rfl | ht
    · have hstep : i ∈ ((p.assign t.1 0).accumulate (f t.1) t.2).index.labels := by
        rw [accumulate, if_neg (by simp [hne])]
        exact mem_insertAll hi
      exact (labels_prefix_replaceList _ l).subset hstep
    · exact ih ht

/-- The pair occurs in a term that is replaced, so the new variable is numbered with the new form of that
term. -/
theorem mem_labels_withProduct (hp : p.WellFormed K) (h : p.CanIntroduce target x y z) :
    z ∈ (p.withProduct target x y z w).index.labels := by
  obtain ⟨-, t, ht, hlarge, hx, hy⟩ := h.pair
  have hmem := mem_labels_replaceList (p := p) (f := replacePair x y z)
    (mem_termsWithPair.mpr ⟨ht, hlarge, hx, hy⟩) (hp.terms.entries t ht).nonzero
    (mem_replacePair.mpr (.inr rfl))
  rw [Polynomial.withProduct, addProductPenalty_eq _ h.pair.1 h.right_lt]
  exact (labels_prefix_accumulateList _ _).subset hmem

/-- An introduced variable is recorded as the product. -/
theorem ancillas_withProduct (h : p.CanIntroduce target x y z) :
    (p.withProduct target x y z w).ancillas = p.ancillas.insert z (.product x y) := by
  rw [Polynomial.withProduct, addProductPenalty_eq _ h.pair.1 h.right_lt, ancillas_replaceList]

/-- One round of a reduction keeps regularity. -/
theorem Regular.withProduct (hp : p.Regular Coefficient.Normal) (h : p.CanIntroduce target x y z)
    (hw : w.Normal) : (p.withProduct target x y z w).Regular Coefficient.Normal := by
  refine ⟨hp.toWellFormed.withProduct h hw, ?_, ancillas_withProduct h ▸ hp.sorted.insert⟩
  have hlabels := (labels_prefix_withProduct (w := w) h).subset
  rw [ancillas_withProduct h]
  exact Table.forall_mem_alter (fun r hr => hlabels (hp.recorded r hr)) fun _ _ =>
    mem_labels_withProduct hp.toWellFormed h

/-- A run of a reduction keeps regularity. -/
theorem Regular.reduction (h : Reduction target weight next p pairs (.ok r))
    (hp : p.Regular Coefficient.Normal) (h2 : 2 ≤ target)
    (hweight : WeightOf Coefficient.Normal weight) (hfresh : ∀ v ∈ p.vars, v < next) :
    r.Regular Coefficient.Normal := by
  have hr := h.invariant (K := Coefficient.Normal)
    (P := fun next p => p.Regular Coefficient.Normal ∧ ∀ v ∈ p.vars, v < next) h2 hweight
    (fun hp => ⟨hp.1.toWellFormed, hp.2⟩)
    (fun hp hintro hw =>
      ⟨hp.1.withProduct hintro hw, fun v hv => lt_succ_of_mem_withProduct hintro hv⟩) ⟨hp, hfresh⟩
  exact hr.1

/-- Smaller bounds are refused. -/
theorem two_le_of_reduce (h : p.reduce (some target) weight = .ok r) : 2 ≤ target := by
  obtain ⟨_, hcheck, -⟩ := exists_of_bind_eq_ok h
  by_contra hsmall
  rw [checkTarget, if_pos (show target < quadraticDegree from not_le.mp hsmall)] at hcheck
  cases hcheck

/-- A reduction that succeeds leads to a regular polynomial. -/
theorem Regular.reduce {target : Option ℕ} (hp : p.Regular Coefficient.Normal)
    (hweight : WeightOf Coefficient.Normal weight) (h : p.reduce target weight = .ok r) :
    r.Regular Coefficient.Normal := by
  cases target with
  | none => exact Except.ok.inj h ▸ hp
  | some target =>
    have h2 := two_le_of_reduce h
    obtain ⟨pairs, hrun⟩ := exists_reduction hp.toWellFormed h2 hweight
    rw [h] at hrun
    exact hp.reduction hrun h2 hweight fun v hv => lt_firstFree hv

end Reduce

end Polynomial

end PseudoBoolean

import PseudoBoolean.Proofs.Polynomial.CanonicalForm
import PseudoBoolean.Proofs.Polynomial.Regular

/-!
# Where the variables of a canonical form come from

A canonical form numbers the variables of its polynomial first, in their order, and the products that it
introduces after them. `Traced n m a F` says this of a form with `n` variables of the polynomial and `m`
in all: the numbering is the identity below `m`, below `n` the records are those of the table `a`, and
every further variable is recorded as the product of two smaller ones. Numbering a polynomial starts with
`m = n`, a change of domain keeps the data, and each round of a reduction raises `m` by one
(`Traced.withProduct`).

The variables of a round are numbered in the order in which its terms are written, and not the new one
first or last. But all that are mentioned have numbers except the new one, so it gets the next.
-/

namespace PseudoBoolean.Polynomial

variable {d e : Domain} {V : Type} [Variable V] {K : Coefficient → Prop}

/-! ## Labels that a round mentions -/

section Round

variable {p : Polynomial .binary ℕ} {f : Term ℕ → Term ℕ} {l : List (Term ℕ × Coefficient)}
  {target n next x y i : ℕ} {w : Coefficient}

/-- Replaced terms bring in the variables of their replacements only. -/
theorem mem_labels_of_mem_replaceList (h : i ∈ (p.replaceList f l).index.labels) :
    i ∈ p.index.labels ∨ ∃ e ∈ l, i ∈ f e.1 := by
  rw [replaceList] at h
  induction l generalizing p with
  | nil => exact .inl h
  | cons e l ih =>
    rw [List.foldl_cons] at h
    rcases ih h with h | ⟨e', he', hi⟩
    · rw [assign_zero] at h
      exact (mem_labels_accumulate.mp h).imp_right fun hi => ⟨e, List.mem_cons_self, hi.2⟩
    · exact .inr ⟨e', List.mem_cons_of_mem _ he', hi⟩

/-- A round mentions old variables and the new one. -/
theorem mem_labels_of_mem_withProduct (hp : p.WellFormed K) (h : p.CanIntroduce target x y next)
    (hi : i ∈ (p.withProduct target x y next w).index.labels) : i ∈ p.index.labels ∨ i = next := by
  have hold : ∀ {t : Term ℕ × Coefficient}, t ∈ p.terms → i ∈ t.1 → i ∈ p.index.labels :=
    fun ht hi => hp.indexed _ ht _ hi
  rw [withProduct, addProductPenalty_eq _ h.pair.1 h.right_lt] at hi
  rcases mem_labels_accumulateList.mp hi with hi | ⟨e, he, -, hi⟩
  · rcases mem_labels_of_mem_replaceList hi with hi | ⟨t, ht, hi⟩
    · exact .inl hi
    · exact (mem_replacePair.mp hi).imp_left fun hi => hold (mem_termsWithPair.mp ht).1 hi.1
  · obtain ⟨-, t, ht, -, hx, hy⟩ := h.pair
    have hxyz : i = x ∨ i = y ∨ i = next := by
      simp only [penaltyTerms, List.mem_cons, List.not_mem_nil, or_false] at he
      rcases he with rfl | rfl | rfl | rfl <;>
        simp only [List.mem_cons, List.not_mem_nil, or_false] at hi <;> tauto
    rcases hxyz with rfl | rfl | rfl
    · exact .inl (hold ht hx)
    · exact .inl (hold ht hy)
    · exact .inr rfl

omit [Variable V] in
/-- Distinct numbers that start with those below `n` and go on with `n` alone. -/
theorem eq_range_succ {labels : List ℕ} (hinit : List.range n <+: labels) (hnodup : labels.Nodup)
    (hle : ∀ i ∈ labels, i < n + 1) (hn : n ∈ labels) : labels = List.range (n + 1) := by
  obtain ⟨rest, rfl⟩ := hinit
  obtain ⟨-, hrest, hdisjoint⟩ := List.nodup_append.mp hnodup
  have hsame : ∀ i ∈ rest, i = n := by
    intro i hi
    have hlt := hle i (List.mem_append_right _ hi)
    have hge : n ≤ i := by
      by_contra hsmall
      exact hdisjoint i (List.mem_range.mpr (not_le.mp hsmall)) i hi rfl
    omega
  have hmem : n ∈ rest := (List.mem_append.mp hn).resolve_left (by simp)
  have hone : rest = [n] := by
    cases rest with
    | nil => cases hmem
    | cons first rest =>
      obtain rfl := hsame first List.mem_cons_self
      cases rest with
      | nil => rfl
      | cons second rest =>
        obtain rfl := hsame second (by simp)
        simp at hrest
  rw [hone, List.range_succ]

end Round

/-! ## The invariant -/

/-- A form with `n` variables of a polynomial, recorded as in `a`, and `m` variables in all. -/
structure Traced (K : Coefficient → Prop) (n m : ℕ) (a : AncillaTable ℕ) (F : Polynomial e ℕ) :
    Prop where
  wellFormed : F.WellFormed K
  size_le : n ≤ m
  index : F.index = VariableIndex.identity m
  sorted : F.ancillas.Sorted
  old : ∀ i < n, F.ancillas.get? i = a.get? i
  products : ∀ i, n ≤ i → i < m →
    ∃ x y, x < y ∧ y < i ∧ F.ancillas.get? i = some (.product x y)

section Traced

variable {p r : Polynomial .binary ℕ} {F : Polynomial e ℕ} {n m x y i : ℕ} {w : Coefficient}
  {a : AncillaTable ℕ} {pairs : List (ℕ × ℕ)} {weight : ReductionWeight}

/-- The numbers of a traced form are those below its bound. -/
theorem Traced.mem_labels (h : Traced K n m a F) : i ∈ F.index.labels ↔ i < m := by
  rw [h.index]
  exact List.mem_range

theorem Traced.lt_of_mem_vars (h : Traced K n m a F) (hi : i ∈ F.vars) : i < m :=
  h.mem_labels.mp (h.wellFormed.mem_labels hi)

/-- The numbered polynomial has the variables of the polynomial and no others. -/
theorem traced_toIndexed {p : Polynomial d V} [Coefficient.Kind K] (hp : p.WellFormed K) :
    Traced K p.index.size p.index.size (p.ancillas.relabel p.index.indexOf?) p.toIndexed where
  wellFormed := hp.toIndexed
  size_le := le_rfl
  index := index_toIndexed hp
  sorted := ancillas_toIndexed p ▸ AncillaTable.sorted_relabel _ _
  old i _ := by rw [ancillas_toIndexed]
  products i hge hlt := absurd hlt (not_lt.mpr hge)

/-- A change of domain keeps the trace. -/
theorem Traced.toDomain [Coefficient.Kind K] (h : Traced K n m a F) (d : Domain) :
    Traced K n m a (F.toDomain d) where
  wellFormed := h.wellFormed.toDomain d
  size_le := h.size_le
  index := (index_toDomain h.wellFormed).trans h.index
  sorted := by
    rw [ancillas_toDomain]
    exact h.sorted
  old := by simpa only [ancillas_toDomain] using h.old
  products := by simpa only [ancillas_toDomain] using h.products

/-- If the numbers of the variables are those below `m`, the first free one is `m`. -/
theorem Traced.firstFree_eq (h : Traced K n m a p) : p.firstFree = m := by
  have hmax : p.vars.foldl (fun n v => max n (v + 1)) 0 ≤ m := by
    refine List.foldlRecOn (motive := fun k : ℕ => k ≤ m) p.vars _ (Nat.zero_le m) ?_
    exact fun k hk v hv => max_le hk (h.lt_of_mem_vars hv)
  rw [firstFree, h.index, VariableIndex.size_identity]
  exact max_eq_right hmax

variable [Coefficient.Closed K]

/-- A round numbers and records one variable more. -/
theorem Traced.withProduct {target : ℕ} (h : Traced K n m a p) (hintro : p.CanIntroduce target x y m)
    (hw : K w) : Traced K n (m + 1) a (p.withProduct target x y m w) := by
  have hwell := h.wellFormed.withProduct hintro hw
  have hlabels : (p.withProduct target x y m w).index.labels = List.range (m + 1) := by
    have hinit := labels_prefix_withProduct (w := w) hintro
    rw [h.index] at hinit
    refine eq_range_succ hinit hwell.distinct (fun i hi => ?_)
      (mem_labels_withProduct h.wellFormed hintro)
    rcases mem_labels_of_mem_withProduct h.wellFormed hintro hi with hi | rfl
    · exact (h.mem_labels.mp hi).trans (Nat.lt_succ_self m)
    · exact Nat.lt_succ_self _
  refine ⟨hwell, h.size_le.trans (Nat.le_succ m), congrArg VariableIndex.mk hlabels,
    ancillas_withProduct hintro ▸ h.sorted.insert, fun i hi => ?_, fun i hge hlt => ?_⟩
  · rw [get?_ancillas_withProduct hintro, if_neg (hi.trans_le h.size_le).ne]
    exact h.old i hi
  · rw [get?_ancillas_withProduct hintro]
    rcases (Nat.lt_succ_iff_lt_or_eq.mp hlt) with hlt | rfl
    · rw [if_neg hlt.ne]
      exact h.products i hge hlt
    · rw [if_pos rfl]
      exact ⟨x, y, hintro.pair.1, hintro.right_lt, rfl⟩

/-- The rounds of a run take the next numbers one after the other. -/
theorem Traced.reduction {target : ℕ} (hrun : Reduction target weight m p pairs (.ok r))
    (h : Traced K n m a p) (h2 : 2 ≤ target) (hweight : WeightOf K weight) :
    Traced K n (m + pairs.length) a r :=
  hrun.invariant (P := fun m p => Traced K n m a p) h2 hweight
    (fun h => ⟨h.wellFormed, fun _ hv => h.lt_of_mem_vars hv⟩)
    (fun h hintro hw => h.withProduct hintro hw) h

/-- A reduction extends the trace by the numbers it introduces. -/
theorem Traced.reduce {target : Option ℕ} (h : Traced K n m a p) (hweight : WeightOf K weight)
    (hr : p.reduce target weight = .ok r) : ∃ m', Traced K n m' a r := by
  cases target with
  | none => exact ⟨m, Except.ok.inj hr ▸ h⟩
  | some target =>
    have h2 := two_le_of_reduce hr
    obtain ⟨pairs, hrun⟩ := exists_reduction h.wellFormed h2 hweight
    rw [hr, h.firstFree_eq] at hrun
    exact ⟨_, h.reduction hrun h2 hweight⟩

end Traced

/-! ## The forms -/

section Forms

variable [Coefficient.Kind K] {p : Polynomial d V} {weight : ReductionWeight} {degree : Option ℕ}
  {form : CanonicalForm}

/-- The origin of the variables of a form of `p`, of which `m` are numbered. -/
abbrev TracedFrom (K : Coefficient → Prop) (p : Polynomial d V) (m : ℕ) (F : Polynomial e ℕ) : Prop :=
  Traced K p.index.size m (p.ancillas.relabel p.index.indexOf?) F

/-- The binary form is traced from the polynomial. -/
theorem traced_toPubo {F : Polynomial .binary ℕ} (hp : p.WellFormed K) (hweight : WeightOf K weight)
    (h : p.toPubo degree weight = .ok F) : ∃ m, TracedFrom K p m F := by
  have hreduce : (p.toIndexed.toDomain .binary).reduce degree weight = .ok F := by
    cases degree with
    | none => exact h
    | some target =>
      obtain ⟨_, -, h⟩ := exists_of_bind_eq_ok h
      exact h
  exact ((traced_toIndexed hp).toDomain .binary).reduce hweight hreduce

/-- The spin form is traced from the polynomial. -/
theorem traced_toHising {F : Polynomial .spin ℕ} (hp : p.WellFormed K) (hweight : WeightOf K weight)
    (h : p.toHising degree weight = .ok F) : ∃ m, TracedFrom K p m F := by
  have hstages : (if p.toIndexed.meets degree then .ok (p.toIndexed.toDomain .spin)
      else do return (← (p.toIndexed.toDomain .binary).reduce degree weight).toDomain .spin) =
      Except.ok F := by
    cases degree with
    | none => exact h
    | some target =>
      obtain ⟨_, -, h⟩ := exists_of_bind_eq_ok h
      exact h
  split at hstages
  · obtain rfl := Except.ok.inj hstages
    exact ⟨_, (traced_toIndexed hp).toDomain .spin⟩
  · obtain ⟨r, hr, hF⟩ := exists_of_bind_eq_ok hstages
    obtain rfl := Except.ok.inj hF
    obtain ⟨m, hm⟩ := ((traced_toIndexed hp).toDomain .binary).reduce hweight hr
    exact ⟨m, hm.toDomain .spin⟩

/-- A quadratic form that exists is the polynomial that it is made of. -/
theorem eq_ok_of_ofPolynomial {x : Except Error (Polynomial e ℕ)} {F : Polynomial e ℕ}
    (h : (x >>= Quadratic.ofPolynomial).map (·.polynomial) = .ok F) : x = .ok F := by
  cases x with
  | error _ => cases h
  | ok G =>
    change (Quadratic.ofPolynomial G).map (·.polynomial) = .ok F at h
    rw [Quadratic.ofPolynomial] at h
    split at h
    · cases h
    · exact h

/-- Every canonical form is traced from the polynomial. -/
theorem traced_canonicalForm {F : Polynomial form.domain ℕ} (hp : p.WellFormed K)
    (h : form.of p = .ok F) : ∃ m, TracedFrom K p m F := by
  cases form with
  | pubo degree => exact traced_toPubo hp weightOf_auto h
  | hising degree => exact traced_toHising hp weightOf_auto h
  | qubo => exact traced_toPubo hp weightOf_auto (eq_ok_of_ofPolynomial h)
  | ising => exact traced_toHising hp weightOf_auto (eq_ok_of_ofPolynomial h)

omit [Variable V] in
theorem exists_label?_iff {index : VariableIndex V} {i : ℕ} :
    (∃ v, index.label? i = some v) ↔ i < index.size := by
  rw [← Option.isSome_iff_exists, VariableIndex.label?, isSome_getElem?]
  rfl

end Forms

/-- The record that a number takes over from the polynomial is that of its variable, with numbers in the
place of variables. -/
def Inherits (p : Polynomial d V) (i : ℕ) (origin : Origin ℕ) : Prop :=
  ∃ v old, p.index.label? i = some v ∧ p.ancillas.get? v = some old ∧
    old.Renames p.index.indexOf? origin

/-- The records found in the relabelled table are those inherited from the polynomial. -/
theorem get?_relabel_eq_some_iff {p : Polynomial d V} (hdistinct : p.index.labels.Nodup)
    (hsorted : p.ancillas.Sorted) {i : ℕ} {origin : Origin ℕ} :
    (p.ancillas.relabel p.index.indexOf?).get? i = some origin ↔ p.Inherits i origin := by
  have hinjective : ∀ v v' i, p.index.indexOf? v = some i → p.index.indexOf? v' = some i → v = v' := by
    intro v v' i hv hv'
    rw [← VariableIndex.label?_eq_some_iff hdistinct] at hv hv'
    exact Option.some_inj.mp (hv.symm.trans hv')
  rw [AncillaTable.get?_relabel hsorted hinjective]
  simp only [Inherits, VariableIndex.label?_eq_some_iff hdistinct]

/-- Every form says where its variables come from. They are the numbers below some `m`. Those of the
variables of the polynomial come first and keep their records, in which the variables are renamed, and each
of the others is recorded as the product of two smaller ones. So a variable that occurs is one of the
polynomial or a product that the form has introduced, and not both. -/
theorem canonicalForm_provenance [Coefficient.Kind K] (p : Polynomial d V) (hp : p.WellFormed K)
    (hsorted : p.ancillas.Sorted) (form : CanonicalForm) (F : Polynomial form.domain ℕ)
    (h : form.of p = .ok F) :
    ∃ m, p.index.size ≤ m ∧ F.index = VariableIndex.identity m ∧
      (∀ i < p.index.size, ∀ origin, F.ancillas.get? i = some origin ↔ p.Inherits i origin) ∧
      (∀ i, p.index.size ≤ i → i < m →
        ∃ x y, x < y ∧ y < i ∧ F.ancillas.get? i = some (.product x y)) ∧
      ∀ i ∈ F.vars, i < m ∧
        Xor (∃ v, p.index.label? i = some v)
          (∃ x y, F.ancillas.get? i = some (.product x y) ∧ ¬ p.Inherits i (.product x y)) := by
  obtain ⟨m, hm⟩ := traced_canonicalForm hp h
  have hrecords : ∀ i < p.index.size, ∀ origin,
      F.ancillas.get? i = some origin ↔ p.Inherits i origin := fun i hi origin => by
    rw [hm.old i hi, get?_relabel_eq_some_iff hp.distinct hsorted]
  refine ⟨m, hm.size_le, hm.index, hrecords, hm.products, fun i hi => ⟨hm.lt_of_mem_vars hi, ?_⟩⟩
  rw [exists_label?_iff]
  rcases lt_or_ge i p.index.size with hlt | hge
  · -- a product record of a variable of the polynomial is its own
    exact .inl ⟨hlt, fun ⟨x, y, hproduct, hnew⟩ => hnew ((hrecords i hlt _).mp hproduct)⟩
  · obtain ⟨x, y, -, -, hproduct⟩ := hm.products i hge (hm.lt_of_mem_vars hi)
    refine .inr ⟨⟨x, y, hproduct, fun ⟨v, _, hv, _⟩ => ?_⟩, not_lt.mpr hge⟩
    exact not_lt.mpr hge (exists_label?_iff.mp ⟨v, hv⟩)

/-- A term with three variables, all of which are recorded: a slack bit, a product with a variable that
does not occur, and a product of the other two. -/
def recordedCubic : Polynomial .binary ℕ :=
  { (ofTerms [([4, 7, 9], 1)] : Polynomial .binary ℕ) with
    ancillas := [(4, .slack 0 1), (7, .product 4 5), (9, .product 4 7)] }

/-- In its QUBO the slack bit keeps its record under the number of its variable, the product with a variable
that has no number loses it, the other product is that of the numbers, and the variable that the QUBO has
besides is recorded as a product. -/
theorem canonicalForm_provenance_recordedCubic :
    ∃ F, CanonicalForm.of .qubo recordedCubic = .ok F ∧ F.index = VariableIndex.identity 4 ∧
      F.ancillas.get? 0 = some (.slack 0 1) ∧ F.ancillas.get? 1 = none ∧
      F.ancillas.get? 2 = some (.product 0 1) ∧
      ∃ x y, x < y ∧ y < 3 ∧ F.ancillas.get? 3 = some (.product x y) := by
  have hp : recordedCubic.WellFormed Coefficient.IsRational := by
    have hcubic : (ofTerms [([4, 7, 9], 1)] : Polynomial .binary ℕ).WellFormed
        Coefficient.IsRational := WellFormed.ofTerms (List.forall_mem_singleton.mpr ⟨1, rfl⟩)
    exact ⟨hcubic.terms, hcubic.distinct, hcubic.indexed⟩
  have hsorted : recordedCubic.ancillas.Sorted := by
    unfold Table.Sorted
    decide
  have hfour : (CanonicalForm.of .qubo recordedCubic).map (·.index.size) = .ok 4 := by
    decide +kernel
  obtain ⟨F, hF, hsize⟩ := exists_of_map_eq_ok hfour
  obtain ⟨m, -, hindex, hrecords, hproducts, -⟩ :=
    canonicalForm_provenance recordedCubic hp hsorted .qubo F hF
  obtain rfl : m = 4 := by rw [← VariableIndex.size_identity m, ← hindex, hsize]
  refine ⟨F, hF, hindex, ?_, ?_, ?_, hproducts 3 le_rfl (by decide)⟩
  · exact (hrecords 0 (by decide) _).mpr ⟨4, _, rfl, rfl, .slack 0 1⟩
  · rw [Option.eq_none_iff_forall_ne_some]
    intro origin horigin
    obtain ⟨v, old, hv, hold, hrenames⟩ := (hrecords 1 (by decide) origin).mp horigin
    obtain rfl : 7 = v := Option.some_inj.mp hv
    obtain rfl : Origin.product 4 5 = old := Option.some_inj.mp hold
    obtain ⟨_, hmissing⟩ := hrenames
    cases hmissing
  · exact (hrecords 2 (by decide) _).mpr ⟨9, _, rfl, rfl, .product rfl rfl⟩

end PseudoBoolean.Polynomial

import PseudoBoolean.Polynomial.Reduction
import PseudoBoolean.Proofs.Polynomial.Arithmetic

/-!
# Replacing terms

A round of degree reduction takes terms out one by one and adds each in another form. Its effect on a
weighted sum of the coefficients is that of the changed terms (`weighted_replaceList`), and if the new
forms are shorter, the variables beyond the target become fewer (`excess_replaceList_add_le`).

The new form of a term has a variable in the place of a pair. It has the same value where that variable
has the value of the product (`eval_replacePair`), and different terms have different new forms
(`replacePair_injective`).
-/

namespace PseudoBoolean.Polynomial

variable {p : Polynomial .binary ℕ} {target x y : ℕ}

/-! ## The excess -/

section Excess

variable {t : Term ℕ} {c : Coefficient}

/-- The excess is a sum over all terms. -/
theorem excess_eq (p : Polynomial .binary ℕ) (target : ℕ) :
    (p.excess target : ℤ) = p.terms.total fun t _ => ((t.length - target : ℕ) : ℤ) := by
  rw [excess, Table.total]
  induction p.terms with
  | nil => rfl
  | cons e terms ih =>
    rw [List.foldr_cons, List.map_cons, List.sum_cons, Nat.cast_add, ih]

/-- A further term adds at most its own variables beyond the target. -/
theorem excess_accumulate_le :
    (p.accumulate t c).excess target ≤ p.excess target + (t.length - target) := by
  rw [accumulate]
  split
  · exact Nat.le_add_right _ _
  · rw [← Nat.cast_le (α := ℤ), Nat.cast_add, excess_eq, excess_eq, addCoefficient,
      Table.total_alter (add_sub_cancel _ _).symm]
    refine add_le_add_right ?_ _
    have hnonneg : 0 ≤ ((t.length - target : ℕ) : ℤ) := Int.natCast_nonneg _
    cases p.terms.get? t <;> simp only [Option.elim_none, Option.elim_some] <;> split <;>
      simp only [Option.elim_none, Option.elim_some] <;> omega

/-- A sum over all terms loses the share of a term that is erased. -/
theorem total_erase {M : Type} [AddCommGroup M] {terms : Table (Term ℕ) Coefficient}
    {w : Term ℕ → Coefficient → M} (hs : terms.Sorted) (h : (t, c) ∈ terms) :
    (terms.erase t).total w = terms.total w - w t c := by
  rw [sub_eq_add_neg]
  refine Table.total_alter ?_
  rw [(Table.get?_eq_some_iff hs).mpr h]
  simp

/-- A term that is taken out takes its variables beyond the target with it. -/
theorem excess_assign_zero {K : Coefficient → Prop} (hp : p.WellFormed K) (h : (t, c) ∈ p.terms) :
    (p.assign t 0).excess target + (t.length - target) = p.excess target := by
  rw [← Nat.cast_inj (R := ℤ), Nat.cast_add, excess_eq, excess_eq, assign_zero,
    total_erase hp.terms.sorted h, sub_add_cancel]

end Excess

/-! ## Replacing terms -/

section Replace

variable {K : Coefficient → Prop} {f : Term ℕ → Term ℕ} {l : List (Term ℕ × Coefficient)}

/-- A polynomial after each term of a list has been replaced by its image under `f`. -/
def replaceList (f : Term ℕ → Term ℕ) (p : Polynomial .binary ℕ)
    (l : List (Term ℕ × Coefficient)) : Polynomial .binary ℕ :=
  l.foldl (fun p t => (p.assign t.1 0).accumulate (f t.1) t.2) p

/-- Terms of a polynomial that can be replaced by their images without meeting one another. -/
structure Replaceable (f : Term ℕ → Term ℕ) (p : Polynomial .binary ℕ)
    (l : List (Term ℕ × Coefficient)) : Prop where
  mem : ∀ e ∈ l, e ∈ p.terms
  distinct : (l.map (·.1)).Nodup
  apart : ∀ s ∈ l, ∀ t ∈ l, f s.1 ≠ t.1
  increasing : ∀ s ∈ l, Increasing (f s.1)

/-- Adding to one term leaves all others as they are. -/
theorem mem_accumulate_of_ne {s t : Term ℕ} {c c' : Coefficient} (hne : s ≠ t)
    (h : (s, c') ∈ p.terms) : (s, c') ∈ (p.accumulate t c).terms := by
  rw [accumulate]
  split
  · exact h
  · exact (Table.mem_alter_of_ne hne).mpr h

/-- Replacing the first term leaves the others replaceable. -/
theorem Replaceable.tail {e : Term ℕ × Coefficient} (h : Replaceable f p (e :: l)) :
    Replaceable f ((p.assign e.1 0).accumulate (f e.1) e.2) l where
  mem s hs := by
    have hne : s.1 ≠ e.1 := fun heq =>
      (List.nodup_cons.mp h.distinct).1 (List.mem_map.mpr ⟨s, hs, heq⟩)
    refine mem_accumulate_of_ne (h.apart e List.mem_cons_self s (List.mem_cons_of_mem _ hs)).symm ?_
    rw [assign_zero]
    exact (Table.mem_alter_of_ne hne).mpr (h.mem s (List.mem_cons_of_mem _ hs))
  distinct := (List.nodup_cons.mp h.distinct).2
  apart s hs t ht := h.apart s (List.mem_cons_of_mem _ hs) t (List.mem_cons_of_mem _ ht)
  increasing s hs := h.increasing s (List.mem_cons_of_mem _ hs)

/-- Replacing terms keeps well-formedness. -/
theorem WellFormed.replaceList [Coefficient.Closed K] (hp : p.WellFormed K) (hl : Replaceable f p l) :
    (p.replaceList f l).WellFormed K := by
  rw [Polynomial.replaceList]
  induction l generalizing p with
  | nil => exact hp
  | cons e l ih =>
    have hkind := (hp.terms.entries e (hl.mem e List.mem_cons_self)).kind
    exact ih ((hp.assign_zero e.1).accumulate (hl.increasing e List.mem_cons_self) hkind) hl.tail

/-- Each replaced term takes its share out of a weighted sum and puts in that of its replacement. -/
theorem weighted_replaceList [Coefficient.Kind K] {ρ : String → ℚ} (hp : p.WellFormed K)
    (hl : Replaceable f p l)
    (g : Term ℕ → ℚ) :
    weighted ρ g (p.replaceList f l).terms =
      weighted ρ g p.terms - weighted ρ g l + weighted ρ (fun t => g (f t)) l := by
  rw [Polynomial.replaceList]
  induction l generalizing p with
  | nil => simp
  | cons e l ih =>
    have hmem := hl.mem e List.mem_cons_self
    have hkind := (hp.terms.entries e hmem).kind
    have herase := hp.assign_zero e.1
    have hstep : weighted ρ g ((p.assign e.1 0).accumulate (f e.1) e.2).terms =
        weighted ρ g p.terms - e.2.eval ρ * g e.1 + e.2.eval ρ * g (f e.1) := by
      rw [weighted_accumulate herase hkind, assign_zero, weighted,
        total_erase hp.terms.sorted hmem, ← weighted]
    rw [List.foldl_cons, ih (herase.accumulate (hl.increasing e List.mem_cons_self) hkind) hl.tail,
      hstep, weighted_cons, weighted_cons]
    ring

/-- Replacing terms keeps the records. -/
theorem ancillas_replaceList : (p.replaceList f l).ancillas = p.ancillas := by
  rw [replaceList]
  induction l generalizing p with
  | nil => rfl
  | cons e l ih => rw [List.foldl_cons, ih, ancillas_accumulate, assign_zero]

/-- Replacing terms keeps the numbering as an initial part. -/
theorem labels_prefix_replaceList (p : Polynomial .binary ℕ) (l : List (Term ℕ × Coefficient)) :
    p.index.labels <+: (p.replaceList f l).index.labels := by
  rw [replaceList]
  induction l generalizing p with
  | nil => exact List.prefix_rfl
  | cons e l ih =>
    refine List.IsPrefix.trans ?_ (ih _)
    have h := labels_prefix_accumulate (p.assign e.1 0) (f e.1) e.2
    rwa [assign_zero] at h

/-- Every term is an old one or the image of one that was replaced. -/
theorem exists_of_mem_replaceList {e : Term ℕ × Coefficient}
    (h : e ∈ (p.replaceList f l).terms) :
    (∃ e' ∈ p.terms, e'.1 = e.1) ∨ ∃ e' ∈ l, f e'.1 = e.1 := by
  rw [Polynomial.replaceList] at h
  induction l generalizing p with
  | nil => exact .inl ⟨e, h, rfl⟩
  | cons e₀ l ih =>
    rw [List.foldl_cons, assign_zero] at h
    rcases ih h with ⟨e', he', heq⟩ | ⟨e', he', heq⟩
    · rcases exists_of_mem_accumulateList (l := [(f e₀.1, e₀.2)]) he' with
        ⟨e'', he'', heq'⟩ | ⟨e'', he'', heq'⟩
      · have hold : ∀ e ∈ p.terms.erase e₀.1, e ∈ p.terms :=
          Table.forall_mem_alter (fun _ he => he) (by simp)
        exact .inl ⟨e'', hold e'' he'', heq'.trans heq⟩
      · obtain rfl := List.mem_singleton.mp he''
        exact .inr ⟨e₀, List.mem_cons_self, heq'.trans heq⟩
    · exact .inr ⟨e', List.mem_cons_of_mem _ he', heq⟩

/-- Replacing terms by smaller ones lowers the excess by the variables that are lost. -/
theorem excess_replaceList_add_le [Coefficient.Closed K] (hp : p.WellFormed K) (hl : Replaceable f p l)
    (hlength : ∀ e ∈ l, (f e.1).length - target + 1 ≤ e.1.length - target) :
    (p.replaceList f l).excess target + l.length ≤ p.excess target := by
  rw [Polynomial.replaceList]
  induction l generalizing p with
  | nil => exact le_rfl
  | cons e l ih =>
    obtain ⟨he, hlength⟩ := List.forall_mem_cons.mp hlength
    have hmem := hl.mem e List.mem_cons_self
    have hkind := (hp.terms.entries e hmem).kind
    have htail := ih
      ((hp.assign_zero e.1).accumulate (hl.increasing e List.mem_cons_self) hkind) hl.tail hlength
    have hadd : ((p.assign e.1 0).accumulate (f e.1) e.2).excess target ≤ _ :=
      excess_accumulate_le
    have herase : (p.assign e.1 0).excess target + _ = _ := excess_assign_zero hp hmem
    rw [List.foldl_cons, List.length_cons]
    omega

end Replace

/-! ## Putting a variable in the place of a pair -/

section ReplacePair

variable {s t : Term ℕ} {v : ℕ} {X : ℕ → ℚ}

/-- The variables of a term other than those of a pair. -/
def withoutPair (x y : ℕ) (t : Term ℕ) : Term ℕ :=
  t.filter fun v => v != x && v != y

/-- What is left of a term without the pair. -/
theorem mem_withoutPair : v ∈ withoutPair x y t ↔ v ∈ t ∧ v ≠ x ∧ v ≠ y := by
  simp [withoutPair]

/-- A term consists of the pair and what is left without it. -/
theorem perm_withoutPair (ht : Increasing t) (hx : x ∈ t) (hy : y ∈ t) (hxy : x ≠ y) :
    t.Perm (x :: y :: withoutPair x y t) := by
  have hnodup : (x :: y :: withoutPair x y t).Nodup := by
    simp [hxy, ht.nodup.filter, withoutPair]
  refine (List.perm_ext_iff_of_nodup ht.nodup hnodup).mpr fun v => ?_
  simp only [List.mem_cons, mem_withoutPair]
  by_cases hvx : v = x
  · simp [hvx, hx]
  · by_cases hvy : v = y
    · simp [hvy, hy]
    · simp [hvx, hvy]

/-- The new variable takes the place of the pair. -/
theorem mem_replacePair {z : ℕ} :
    v ∈ replacePair x y z t ↔ (v ∈ t ∧ v ≠ x ∧ v ≠ y) ∨ v = z := by
  rw [replacePair, Term.mem_normalize_binary, List.mem_append, ← withoutPair, mem_withoutPair,
    List.mem_singleton]

/-- A replaced term consists of the new variable and what was left without the pair. -/
theorem replacePair_perm {z : ℕ} (ht : Increasing t) (hz : z ∉ t) :
    (replacePair x y z t).Perm (z :: withoutPair x y t) := by
  have hnodup : (withoutPair x y t ++ [z]).Nodup := by
    refine List.nodup_append.mpr ⟨ht.nodup.filter _, List.nodup_singleton z, ?_⟩
    rintro v hv w hw rfl
    obtain rfl := List.mem_singleton.mp hw
    exact hz (mem_withoutPair.mp hv).1
  exact (Term.normalize_perm .binary hnodup).trans (List.perm_append_singleton z _)

/-- The replaced term is shorter by one. -/
theorem length_replacePair {z : ℕ} (ht : Increasing t) (hx : x ∈ t) (hy : y ∈ t) (hxy : x ≠ y)
    (hz : z ∉ t) : (replacePair x y z t).length + 1 = t.length := by
  rw [(replacePair_perm ht hz).length_eq, (perm_withoutPair ht hx hy hxy).length_eq,
    List.length_cons, List.length_cons, List.length_cons]

/-- The term without the pair, with the variable and with the product in its place. -/
theorem eval_replacePair {z : ℕ} (ht : Increasing t) (hx : x ∈ t) (hy : y ∈ t) (hxy : x ≠ y)
    (hz : z ∉ t) :
    Term.eval X (replacePair x y z t) = X z * Term.eval X (withoutPair x y t) ∧
      Term.eval X t = X x * X y * Term.eval X (withoutPair x y t) := by
  rw [Term.eval_perm (replacePair_perm ht hz), Term.eval_perm (perm_withoutPair ht hx hy hxy)]
  simp [mul_assoc]

/-- Different terms with the pair are replaced by different terms. -/
theorem replacePair_injective {z : ℕ} (hs : Increasing s) (ht : Increasing t)
    (hxs : x ∈ s) (hys : y ∈ s) (hxt : x ∈ t) (hyt : y ∈ t) (hzs : z ∉ s) (hzt : z ∉ t)
    (h : replacePair x y z s = replacePair x y z t) : s = t := by
  refine hs.ext ht fun v => ?_
  have hv : v ∈ replacePair x y z s ↔ v ∈ replacePair x y z t := by rw [h]
  rw [mem_replacePair, mem_replacePair] at hv
  by_cases hvx : v = x
  · simp [hvx, hxs, hxt]
  · by_cases hvy : v = y
    · simp [hvy, hys, hyt]
    · by_cases hvz : v = z
      · simp [hvz, hzs, hzt]
      · simpa [hvx, hvy, hvz] using hv

end ReplacePair

end PseudoBoolean.Polynomial

import PseudoBoolean.Proofs.Model.Reachable
import PseudoBoolean.Proofs.Polynomial.CompiledEvaluation
import PseudoBoolean.Proofs.Polynomial.Provenance

/-!
# Numbers for introduced variables

A reduction numbers its variables on from `firstFree`, which is above the variables that occur and not
below the number of variables. So a new number belongs to no variable that occurs (`lt_firstFree`). But
the numbering also keeps the variables whose terms have cancelled, and such a variable can be any number:
if there is one from `firstFree` on, a run that is long enough introduces it a second time
(`reduce_introduces_mapped`). From then on it is recorded as a product, and a search of the result leaves
it out.

In a regular polynomial, as every reachable one is (`Reachable.regular`), only variables with numbers have
records, so a number is free if it belongs to no variable (`Regular.isFree_iff`). A run numbers its new
variables and no others (`Reduction.mem_labels_iff`), and a search of the result has a value for whatever
is numbered and not recorded (`isOn_of_solve`). Together they say which variables are reported and when all
of them are (`reduce_introduces`).
-/

namespace PseudoBoolean

/-- The numbers, exact or not. -/
def Coefficient.IsNumeric (c : Coefficient) : Prop :=
  ∃ n, c = .num n

instance : Coefficient.Closed Coefficient.IsNumeric where
  exact q := ⟨.exact q, rfl⟩
  add := by
    rintro _ _ ⟨a, rfl⟩ ⟨b, rfl⟩
    exact ⟨a + b, rfl⟩
  sub := by
    rintro _ _ ⟨a, rfl⟩ ⟨b, rfl⟩
    exact ⟨a - b, rfl⟩
  mul := by
    rintro _ _ ⟨a, rfl⟩ ⟨b, rfl⟩
    exact ⟨a * b, rfl⟩
  neg := by
    rintro _ ⟨a, rfl⟩
    exact ⟨-a, rfl⟩
  abs _ _ := ⟨_, rfl⟩

namespace Polynomial

/-! ## Searches that succeed -/

section Search

variable {d : Domain} {V : Type} [Variable V] {p : Polynomial d V} {vars : List V}

/-- A polynomial whose coefficients are numbers is compiled over any variables that include its own. -/
theorem exists_compiled_of_numeric (hp : p.WellFormed Coefficient.IsNumeric)
    (h : ∀ v ∈ p.vars, v ∈ vars) : ∃ compiled, Compiled.ofPolynomial p vars = .ok compiled := by
  obtain ⟨terms, hterms⟩ : ∃ terms, p.numericTerms = .ok terms := by
    refine exists_mapM_eq_ok fun e he => ?_
    obtain ⟨n, hn⟩ := (hp.terms.entries e he).kind
    exact ⟨(e.1, n), by rw [hn]; rfl⟩
  have hvars : ∀ t ∈ terms, ∀ v ∈ t.1, v ∈ vars := fun t ht v hv => by
    obtain ⟨e, he, heq, -⟩ := (entries_of_mapM hterms).2 t ht
    exact h v (mem_vars.mpr ⟨e, he, heq ▸ hv⟩)
  exact ⟨_, Compiled.ofPolynomial_eq hterms hvars⟩

/-- Up to 63 variables there is a solution of a polynomial whose coefficients are numbers. -/
theorem exists_solve (hp : p.WellFormed Coefficient.IsNumeric)
    (hsize : p.index.size ≤ enumerationLimit) : ∃ a, p.solve = .ok a := by
  obtain ⟨compiled, hcompiled⟩ := exists_compiled_of_numeric hp fun v hv => hp.mem_labels hv
  have hlength : ¬ enumerationLimit < p.index.labels.length := not_lt.mpr hsize
  rw [solve, minimize, minimizeWhere, if_neg hlength, hcompiled]
  exact ⟨_, rfl⟩

end Search

/-! ## The numbers of a run -/

variable {p r : Polynomial .binary ℕ} {target next : ℕ} {weight : ReductionWeight}
  {pairs : List (ℕ × ℕ)} {K : Coefficient → Prop} [Coefficient.Closed K] {v : ℕ}

/-- New variables have consecutive numbers. -/
theorem map_snd_introduced (next : ℕ) (pairs : List (ℕ × ℕ)) :
    (introduced next pairs).map (·.2) = List.range' next pairs.length :=
  List.zipIdx_map_snd next pairs

/-- The numbers that a reduction gives to its variables. -/
def newNumbers (p : Polynomial .binary ℕ) (pairs : List (ℕ × ℕ)) : List ℕ :=
  List.range' p.firstFree pairs.length

/-- The new numbers follow each other from the first free one. -/
theorem mem_newNumbers :
    v ∈ p.newNumbers pairs ↔ p.firstFree ≤ v ∧ v < p.firstFree + pairs.length :=
  List.mem_range'_1

/-- The new numbers are those that the reduction has introduced. -/
theorem mem_newNumbers_iff_introduced :
    v ∈ p.newNumbers pairs ↔ ∃ e ∈ introduced p.firstFree pairs, e.2 = v := by
  rw [newNumbers, ← map_snd_introduced, List.mem_map]

/-- A number that belongs to no variable and has no record. -/
def IsFree (p : Polynomial .binary ℕ) (v : ℕ) : Prop :=
  v ∉ p.index.labels ∧ p.ancillas.contains v = false

omit [Coefficient.Closed K] in
/-- As records belong to variables, a number that belongs to none has no record either. -/
theorem Regular.isFree_iff (hp : p.Regular K) : p.IsFree v ↔ v ∉ p.index.labels := by
  refine and_iff_left_of_imp fun hv => ?_
  rw [Bool.eq_false_iff, Ne, Table.contains_iff hp.sorted]
  intro hkey
  obtain ⟨origin, hmem⟩ := Table.mem_keys.mp hkey
  exact hv (hp.recorded _ hmem)

/-- A run numbers its new variables, and no others. -/
theorem Reduction.mem_labels_iff (hrun : Reduction target weight next p pairs (.ok r))
    (hp : p.WellFormed K) (h2 : 2 ≤ target) (hweight : WeightOf K weight)
    (hfresh : ∀ v ∈ p.vars, v < next) :
    v ∈ r.index.labels ↔ v ∈ p.index.labels ∨ next ≤ v ∧ v < next + pairs.length := by
  have hrun' := hrun.invariant (K := K)
    (P := fun n q => (q.WellFormed K ∧ ∀ v ∈ q.vars, v < n) ∧ next ≤ n ∧
      ∀ v, v ∈ q.index.labels ↔ v ∈ p.index.labels ∨ next ≤ v ∧ v < n) h2 hweight
    (fun h => h.1) (fun {n q x y w} h hintro hw => ?_)
    ⟨⟨hp, hfresh⟩, le_rfl, fun v => by simp⟩
  · exact hrun'.2.2 v
  · -- a round numbers the next variable
    obtain ⟨⟨hq, -⟩, hle, hlabels⟩ := h
    refine ⟨⟨hq.withProduct hintro hw, fun v hv => lt_succ_of_mem_withProduct hintro hv⟩,
      hle.trans (Nat.le_succ n), fun v => ?_⟩
    have hstep : v ∈ (q.withProduct target x y n w).index.labels ↔ v ∈ q.index.labels ∨ v = n := by
      refine ⟨mem_labels_of_mem_withProduct hq hintro, ?_⟩
      rintro (hv | rfl)
      · exact (labels_prefix_withProduct hintro).subset hv
      · exact mem_labels_withProduct hq hintro
    rw [hstep, hlabels, or_assoc]
    exact or_congr_right (by omega)

/-- The new numbers of a reduction go on from the first free one, and none of them occurs in the
polynomial. They are counted in words, none of which is the last one. All of them are free if and only if no variable of the polynomial is numbered among them. A
search of the result reports the variables of the polynomial that are neither recorded ancillas nor
numbered among the new ones: all but the ancillas, if the new numbers are free. It succeeds within the
limit if the coefficients are numbers. -/
theorem reduce_introduces (p : Polynomial .binary ℕ) (hp : p.Regular Coefficient.Any) (target : ℕ)
    (weight : ReductionWeight) (r : Polynomial .binary ℕ)
    (h : p.reduce (some target) weight = .ok r) (hwords : ∀ v ∈ r.index.labels, v + 1 < 2 ^ 64) :
    ∃ pairs, Reduction target weight p.firstFree p pairs (.ok r) ∧
      (∀ v, v ∈ r.index.labels ↔ v ∈ p.index.labels ∨ v ∈ p.newNumbers pairs) ∧
      (∀ v ∈ p.newNumbers pairs,
        v + 1 < 2 ^ 64 ∧ v ∉ p.vars ∧ ∃ x y, r.ancillas.get? v = some (.product x y)) ∧
      (∀ v, v ∉ p.newNumbers pairs → r.ancillas.get? v = p.ancillas.get? v) ∧
      ((∀ v ∈ p.newNumbers pairs, p.IsFree v) ↔
        ∀ v ∈ p.index.labels, v < p.firstFree ∨ p.firstFree + pairs.length ≤ v) ∧
      (∀ a, r.solve = .ok a → a.IsOn .binary fun v =>
        v ∈ p.index.labels ∧ p.ancillas.contains v = false ∧ v ∉ p.newNumbers pairs) ∧
      (p.WellFormed Coefficient.IsNumeric → WeightOf Coefficient.IsNumeric weight →
        r.index.size ≤ enumerationLimit → ∃ a, r.solve = .ok a) := by
  have h2 := two_le_of_reduce h
  have hfresh : ∀ v ∈ p.vars, v < p.firstFree := fun v hv => lt_firstFree hv
  have hweight : WeightOf Coefficient.Any weight := by cases weight <;> trivial
  obtain ⟨pairs, hrun⟩ := exists_reduction hp.toWellFormed h2 hweight
  rw [h] at hrun
  have hr := hrun.reduced hp.toWellFormed h2 hweight hfresh
  have hlabels : ∀ v, v ∈ r.index.labels ↔ v ∈ p.index.labels ∨ v ∈ p.newNumbers pairs := fun v => by
    rw [hrun.mem_labels_iff hp.toWellFormed h2 hweight hfresh, mem_newNumbers]
  have hothers : ∀ v, v ∉ p.newNumbers pairs → r.ancillas.get? v = p.ancillas.get? v := fun v hv =>
    hr.others v fun e he heq => hv (mem_newNumbers_iff_introduced.mpr ⟨e, he, heq⟩)
  have hproduct : ∀ v ∈ p.newNumbers pairs, ∃ x y, r.ancillas.get? v = some (.product x y) :=
    fun v hv => by
      obtain ⟨e, he, rfl⟩ := mem_newNumbers_iff_introduced.mp hv
      exact ⟨_, _, hr.recorded e he⟩
  refine ⟨pairs, hrun, hlabels,
    fun v hv => ⟨hwords v ((hlabels v).mpr (.inr hv)), fun hoccurs => ?_, hproduct v hv⟩, hothers, ?_,
    fun a ha => ?_, fun hnumeric hnumber hsize => ?_⟩
  · exact absurd (hfresh v hoccurs) (not_lt.mpr (mem_newNumbers.mp hv).1)
  · simp only [hp.isFree_iff, mem_newNumbers]
    refine forall_congr' fun v => ⟨fun hfree hv => ?_, fun hapart hv hmapped => ?_⟩
    · by_contra hnew
      exact hfree (by omega) hv
    · have := hapart hmapped
      omega
  · -- of the numbered variables of the result, those without a record are the ones in question
    refine (isOn_of_solve hr.wellFormed.distinct ha).congr fun v => ?_
    rw [hlabels]
    by_cases hv : v ∈ p.newNumbers pairs
    · obtain ⟨x, y, hrecord⟩ := hproduct v hv
      simp [hv, Table.contains, hrecord]
    · simp [hv, Table.contains, hothers v hv]
  · exact exists_solve (hrun.reduced hnumeric h2 hnumber hfresh).wellFormed hsize

/-- A cubic term, and a variable with another number whose term has cancelled. -/
def cancelled (x y z v : ℕ) : Polynomial .binary ℕ :=
  ((ofTerms [([x, y, z], .num (.ofInt (-3))), ([v], 1)]).addTerm [v] (.num (.ofInt (-1))))

theorem reachable_cancelled (x y z v : ℕ) : (cancelled x y z v).Reachable :=
  .addTerm [v] (.ofTerms (List.forall_mem_cons.mpr ⟨.number (-3),
    List.forall_mem_singleton.mpr (.number 1)⟩)) (.number (-1))

theorem wellFormed_cancelled (x y z v : ℕ) : (cancelled x y z v).WellFormed Coefficient.IsRational :=
  (WellFormed.ofTerms (List.forall_mem_cons.mpr ⟨⟨-3, rfl⟩,
    List.forall_mem_singleton.mpr ⟨1, rfl⟩⟩)).addTerm [v] ⟨-1, rfl⟩

/-- A variable below the first free number stays, also if it does not occur any more. -/
theorem reduce_introduces_above :
    ∃ r a, (cancelled 0 1 3 2).reduce (some 2) .auto = .ok r ∧ r.solve = .ok a ∧
      ∀ v, v ∈ Table.keys a ↔ v ∈ (cancelled 0 1 3 2).index.labels := by
  have hlabels : ((cancelled 0 1 3 2).reduce (some 2) .auto).map (·.index.labels) =
      .ok [0, 1, 3, 2, 4] := by decide +kernel
  obtain ⟨r, hr, hlabels⟩ := exists_of_map_eq_ok hlabels
  obtain ⟨pairs, -, -, -, -, hfree, hsolve, hexists⟩ := reduce_introduces (cancelled 0 1 3 2)
    ((reachable_cancelled 0 1 3 2).regular.mono fun _ _ => trivial) 2 .auto r hr
    (by rw [hlabels]; decide)
  have hbelow : ∀ v ∈ (cancelled 0 1 3 2).index.labels, v < firstFree (cancelled 0 1 3 2) := by
    decide +kernel
  have hnew := hfree.mpr fun v hv => .inl (hbelow v hv)
  obtain ⟨a, ha⟩ := hexists ((wellFormed_cancelled 0 1 3 2).mono fun _ ⟨q, hq⟩ => ⟨.exact q, hq⟩)
    weightOf_auto (by rw [VariableIndex.size, hlabels]; decide)
  refine ⟨r, a, hr, ha, fun v => ((hsolve a ha).keys v).trans ⟨And.left, fun hv => ⟨hv, ?_, ?_⟩⟩⟩
  · have hnone : (cancelled 0 1 3 2).ancillas = [] := by decide +kernel
    rw [hnone]
    rfl
  · exact fun hmem => (hnew v hmem).1 hv

/-- A variable at the first free number is introduced again, is recorded as a product from then on, and
has no value in the solution. -/
theorem reduce_introduces_mapped :
    (cancelled 0 1 2 4).Reachable ∧ 4 ∈ (cancelled 0 1 2 4).index.labels ∧
      (cancelled 0 1 2 4).ancillas = [] ∧
      ∃ r, (cancelled 0 1 2 4).reduce (some 2) .auto = .ok r ∧
        r.ancillas = [(4, .product 0 1)] ∧ r.solve = .ok [(0, 1), (1, 1), (2, 1)] := by
  refine ⟨reachable_cancelled 0 1 2 4, by decide +kernel, by decide +kernel, ?_⟩
  have hmap : ((cancelled 0 1 2 4).reduce (some 2) .auto).map
      (fun r => (r.ancillas, r.solve.toOption)) =
        .ok ([(4, .product 0 1)], some [(0, 1), (1, 1), (2, 1)]) := by decide +kernel
  obtain ⟨r, hr, h⟩ := exists_of_map_eq_ok hmap
  obtain ⟨hancillas, hsolve⟩ := Prod.mk.inj h
  refine ⟨r, hr, hancillas, ?_⟩
  cases hcase : r.solve with
  | ok a =>
    rw [hcase] at hsolve
    exact congrArg Except.ok (Option.some_inj.mp hsolve)
  | error e =>
    rw [hcase] at hsolve
    cases hsolve

end Polynomial

end PseudoBoolean

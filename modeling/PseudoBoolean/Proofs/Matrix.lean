import Mathlib.Algebra.BigOperators.Fin
import PseudoBoolean.Matrix
import PseudoBoolean.Proofs.Polynomial.Accumulation
import PseudoBoolean.Proofs.Polynomial.Bounds

/-!
# Matrices and QUBOs

The square matrices are those that have a QUBO (`exists_ofMatrix_iff`), with the value of the quadratic form
at every assignment. A QUBO has a matrix if there are variables, no constant and no parameters, and this
matrix leads back to it (`matrix_views`). There is a row for each number up to the largest variable, so they
must be so few that memory holds the matrix; the variable that is the last word has none however large memory
is, because the number of rows is one more (`lastVariable_no_matrix`).

Both directions are followed by weighted sums. Every position of a matrix has a product of variables, and
its normal form is the term that the entry counts for: a single variable on the diagonal, and the same two
variables on both sides of it. The QUBO of a matrix has the weighted sums of the entries (`ofMatrix_spec`).
When the matrix of a QUBO is filled, each term adds to these sums what it adds to those of the polynomial,
whether its coefficient is written once or half of it twice (`Placed`). So the matrix has the weighted sums of
the QUBO (`toMatrix_spec`), and these determine it.
-/

namespace PseudoBoolean.Qubo

open PseudoBoolean.Polynomial

variable {n : ℕ} {α β : Type} {F : Fin n → Fin n → α} {i j : Fin n}

/-! ## Square matrices -/

/-- The matrix with the given entries. -/
def rows (F : Fin n → Fin n → α) : Matrix α :=
  List.ofFn fun i => List.ofFn (F i)

/-- All matrices with as many entries in each row as there are rows are of this form. -/
theorem exists_rows_eq {m : Matrix α} (h : ∀ row ∈ m, row.length = m.length) :
    ∃ F : Fin m.length → Fin m.length → α, m = rows F := by
  refine ⟨fun i j => (m.get i).get (j.cast (h _ (m.get_mem i)).symm), ?_⟩
  refine List.ext_getElem (by simp [rows]) fun i hi _ => ?_
  refine List.ext_getElem (by simp [rows, h _ (List.getElem_mem hi)]) fun j _ _ => ?_
  simp [rows]

/-- The entries with one of them changed. -/
def put (F : Fin n → Fin n → α) (i j : Fin n) (a : α) : Fin n → Fin n → α :=
  Function.update F i (Function.update (F i) j a)

/-- After a write, the place written has the new entry and the others their old ones. -/
theorem put_apply (a : α) (i' j' : Fin n) :
    put F i j a i' j' = if i' = i ∧ j' = j then a else F i' j' := by
  rw [put, Function.update_apply]
  by_cases hi : i' = i
  · simp [hi, Function.update_apply]
  · simp [hi]

theorem set_ofFn (f : Fin n → α) (i : Fin n) (a : α) :
    (List.ofFn f).set i a = List.ofFn (Function.update f i a) := by
  refine List.ext_getElem (by simp) fun k _ _ => ?_
  simp [List.getElem_set, Function.update_apply, Fin.ext_iff, eq_comm]

/-- Writing an entry of the rows writes it in the function behind them. -/
theorem setEntry_rows (a : α) : setEntry (rows F) i j a = rows (put F i j a) := by
  have hrow : (rows F)[i.val]? = some (List.ofFn (F i)) := by simp [rows]
  rw [setEntry, List.modify_eq_set_getElem?, hrow]
  show (List.ofFn (List.ofFn ∘ F)).set i ((List.ofFn (F i)).set j a) = _
  rw [set_ofFn, set_ofFn, ← Function.comp_update]
  rfl

/-! ## The products of a matrix -/

/-- The entries of a matrix, each with the product of variables at its position. -/
def products (m : Matrix α) : List (List ℕ × α) :=
  m.zipIdx.flatMap fun (row, i) => row.zipIdx.map fun (c, j) => ([i, j], c)

theorem zipIdx_ofFn (f : Fin n → α) : (List.ofFn f).zipIdx = List.ofFn fun i => (f i, i.val) :=
  List.ext_getElem (by simp) fun i _ _ => by simp

/-- The products of a matrix go through it row by row. -/
theorem products_rows : products (rows F) =
    (List.ofFn fun i => List.ofFn fun j => ([i.val, j.val], F i j)).flatten := by
  simp only [products, rows, zipIdx_ofFn, List.flatMap_def, List.map_ofFn, Function.comp_def]

/-- The products are those of the row and the column numbers. -/
theorem mem_products_rows {e : List ℕ × α} :
    e ∈ products (rows F) ↔ ∃ i j, ([i.val, j.val], F i j) = e := by
  simp [products_rows, List.mem_flatten, List.mem_ofFn]

/-- A term of the polynomial of a matrix comes from a place in it. -/
theorem exists_of_mem_ofTerms_products {F : Fin n → Fin n → Coefficient} {t : Term ℕ × Coefficient}
    (ht : t ∈ (ofTerms (products (rows F)) : Polynomial .binary ℕ).terms) :
    ∃ i j : Fin n, Term.normalize .binary [i.val, j.val] = t.1 := by
  obtain ⟨e, he, heq⟩ := exists_of_mem_ofTerms ht
  obtain ⟨i, j, rfl⟩ := mem_products_rows.mp he
  exact ⟨i, j, heq⟩

/-- The polynomial of a matrix is quadratic. -/
theorem degree_ofTerms_products_le (F : Fin n → Fin n → Coefficient) :
    (ofTerms (products (rows F)) : Polynomial .binary ℕ).degree ≤ quadraticDegree := by
  refine degree_le_iff.mpr fun t ht => ?_
  obtain ⟨i, j, heq⟩ := exists_of_mem_ofTerms_products ht
  rw [← heq]
  exact Term.length_normalize_le .binary [i.val, j.val]

/-! ## The QUBO of a matrix -/

/-- A square matrix becomes the sum of the products at its positions. -/
theorem ofMatrix_of_square {m : Matrix Coefficient} (h : ∀ row ∈ m, row.length = m.length) :
    ofMatrix m = Quadratic.ofPolynomial (ofTerms (products m)) := by
  have hfind : m.zipIdx.find? (fun e => e.1.length != m.length) = none :=
    List.find?_eq_none.mpr fun e he => by simp [h e.1 (List.fst_mem_of_mem_zipIdx he)]
  rw [ofMatrix]
  split
  · rename_i heq
    cases hfind.symm.trans heq
  · simp only [ofTerms, products, List.foldl_flatMap, List.foldl_map]

/-- The square matrices, and no others, have a QUBO. -/
theorem exists_ofMatrix_iff {m : Matrix Coefficient} :
    (∃ q, ofMatrix m = .ok q) ↔ ∀ row ∈ m, row.length = m.length := by
  constructor
  · rintro ⟨q, hq⟩ row hrow
    obtain ⟨i, hi⟩ := List.mem_iff_getElem?.mp hrow
    rw [ofMatrix] at hq
    split at hq
    · cases hq
    · rename_i heq
      simpa using List.find?_eq_none.mp heq (row, i) (List.mk_mem_zipIdx_iff_getElem?.mpr hi)
  · intro h
    obtain ⟨F, hF⟩ := exists_rows_eq h
    obtain ⟨q, hq, -⟩ := exists_ofPolynomial (degree_ofTerms_products_le F)
    rw [← hF, ← ofMatrix_of_square h] at hq
    exact ⟨q, hq⟩

section Placing

variable {F : Fin n → Fin n → Number} {symmetric : Bool} {t : Term ℕ} {c : Number}
  {done : List (Term ℕ × Number)} {g : Term ℕ → ℚ}

/-- The sum of the entries, each with the weight of the product at its position. -/
def total (F : Fin n → Fin n → Number) (g : Term ℕ → ℚ) : ℚ :=
  ∑ i, ∑ j, (F i j).rat * g (Term.normalize .binary [i.val, j.val])

/-- Writing to an empty place adds the entry at the term of the place. -/
theorem total_put (hF : F i j = 0) :
    total (put F i j c) g = total F g + c.rat * g (Term.normalize .binary [i.val, j.val]) := by
  -- the change as a summand of its own, which is zero at all other positions
  have hentry : ∀ i' j', (put F i j c i' j').rat =
      (F i' j').rat + if i' = i ∧ j' = j then c.rat else 0 := fun i' j' => by
    rw [put_apply]
    split
    · rename_i h
      rw [h.1, h.2, hF]
      exact (zero_add _).symm
    · exact (add_zero _).symm
  have hsingle : ∑ i', ∑ j', (if i' = i ∧ j' = j then c.rat else 0) *
      g (Term.normalize .binary [i'.val, j'.val]) = c.rat * g (Term.normalize .binary [i.val, j.val]) := by
    rw [Fintype.sum_eq_single i fun i' hi' => Finset.sum_eq_zero fun j' _ => by simp [hi'],
      Fintype.sum_eq_single j fun j' hj' => by simp [hj']]
    simp
  simp only [total, hentry, add_mul, Finset.sum_add_distrib, hsingle]

/-- Writing an exact number keeps the matrix exact. -/
theorem isExact_put (hF : ∀ i j, (F i j).isExact) (hc : c.isExact) :
    ∀ i' j', (put F i j c i' j').isExact := fun i' j' => by
  rw [put_apply]
  split
  · exact hc
  · exact hF i' j'

theorem normalize_swap (i j : ℕ) : Term.normalize .binary [j, i] = Term.normalize .binary [i, j] :=
  Term.normalize_eq_of_perm .binary (.swap i j [])

/-- The matrix is symmetric, or else it is upper triangular. -/
def IsLaidOut (symmetric : Bool) (F : Fin n → Fin n → Number) : Prop :=
  if symmetric then ∀ i j, F i j = F j i else ∀ i j, j < i → F i j = 0

/-- A term with a numeric coefficient that has positions in a matrix of size `n`. -/
structure IsPlaceable (n : ℕ) (e : Term ℕ × Number) : Prop where
  exact : e.2.isExact
  increasing : Increasing e.1
  nonempty : e.1 ≠ []
  quadratic : e.1.length ≤ quadraticDegree
  lt : ∀ v ∈ e.1, v < n

/-- A matrix into which some terms have been written. It has the required layout and is zero at the
positions of other terms, and its weighted sums are those of the terms. -/
structure Placed (symmetric : Bool) (done : List (Term ℕ × Number)) (F : Fin n → Fin n → Number) :
    Prop where
  exact : ∀ i j, (F i j).isExact
  laidOut : IsLaidOut symmetric F
  blank : ∀ i j, Term.normalize .binary [i.val, j.val] ∉ done.map (·.1) → F i j = 0
  total : ∀ g, total F g = (done.map fun t => t.2.rat * g t.1).sum

namespace Placed

/-- The empty matrix places no terms. -/
theorem zero : Placed symmetric [] fun (_ _ : Fin n) => 0 where
  exact _ _ := rfl
  laidOut := by cases symmetric <;> simp [IsLaidOut]
  blank _ _ _ := rfl
  total g := by
    refine Finset.sum_eq_zero fun i _ => Finset.sum_eq_zero fun j _ => ?_
    exact zero_mul _

/-- Another term is written at its positions, and nothing else changes. -/
theorem extend {F' : Fin n → Fin n → Number} (h : Placed symmetric done F)
    (hexact : ∀ i j, (F' i j).isExact) (hlaidOut : IsLaidOut symmetric F')
    (hsame : ∀ i j, Term.normalize .binary [i.val, j.val] ≠ t → F' i j = F i j)
    (htotal : ∀ g, Qubo.total F' g = Qubo.total F g + c.rat * g t) :
    Placed symmetric (done ++ [(t, c)]) F' where
  exact := hexact
  laidOut := hlaidOut
  blank i j hij := by
    rw [List.map_append, List.mem_append, not_or, List.map_singleton, List.mem_singleton] at hij
    rw [hsame i j hij.2, h.blank i j hij.1]
  total g := by
    rw [htotal, h.total, List.map_append, List.sum_append, List.map_singleton, List.sum_singleton]

/-- The coefficient of a single variable goes to the diagonal. -/
theorem diagonal (h : Placed symmetric done F) (hc : c.isExact)
    (hnew : [i.val] ∉ done.map (·.1)) : Placed symmetric (done ++ [([i.val], c)]) (put F i i c) := by
  have hterm : Term.normalize .binary [i.val, i.val] = [i.val] := by
    simp [Term.normalize, Term.insert]
  have hblank : F i i = 0 := h.blank i i (by rwa [hterm])
  refine h.extend (isExact_put h.exact hc) ?_ (fun i' j' hij => ?_) fun g => ?_
  · cases symmetric with
    | false =>
      have hlaidOut : ∀ i j, j < i → F i j = 0 := h.laidOut
      intro i' j' hlt
      rw [put_apply, if_neg fun hboth => hlt.ne (hboth.2.trans hboth.1.symm), hlaidOut i' j' hlt]
    | true =>
      have hlaidOut : ∀ i j, F i j = F j i := h.laidOut
      intro i' j'
      simp only [put_apply, hlaidOut i' j', and_comm]
  · rw [put_apply, if_neg]
    rintro ⟨rfl, rfl⟩
    exact hij hterm
  · rw [total_put hblank, hterm]

/-- The coefficient of two variables goes above the diagonal. -/
theorem above (h : Placed false done F) (hc : c.isExact) (hlt : i < j)
    (hterm : Term.normalize .binary [i.val, j.val] = t) (hnew : t ∉ done.map (·.1)) :
    Placed false (done ++ [(t, c)]) (put F i j c) := by
  have hblank : F i j = 0 := h.blank i j (by rwa [hterm])
  have hlaidOut : ∀ i j, j < i → F i j = 0 := h.laidOut
  refine h.extend (isExact_put h.exact hc) (fun i' j' hlt' => ?_) (fun i' j' hij => ?_) fun g => ?_
  · rw [put_apply, if_neg, hlaidOut i' j' hlt']
    rintro ⟨rfl, rfl⟩
    exact hlt.asymm hlt'
  · rw [put_apply, if_neg]
    rintro ⟨rfl, rfl⟩
    exact hij hterm
  · rw [total_put hblank, hterm]

/-- Half of the coefficient of two variables goes to either side of the diagonal. -/
theorem mirrored (h : Placed true done F) (hc : c.isExact) (hlt : i < j)
    (hterm : Term.normalize .binary [i.val, j.val] = t) (hnew : t ∉ done.map (·.1)) :
    Placed true (done ++ [(t, c)])
      (put (put F i j (c * .exact (1 / 2))) j i (c * .exact (1 / 2))) := by
  have hhalf : (c * .exact (1 / 2)).isExact := Number.isExact_mul hc rfl
  have hterm' : Term.normalize .binary [j.val, i.val] = t := (normalize_swap i j).trans hterm
  have hblank : F i j = 0 := h.blank i j (by rwa [hterm])
  -- the other position is a different one, so the first half has left it blank
  have hblank' : put F i j (c * .exact (1 / 2)) j i = 0 := by
    rw [put_apply, if_neg fun hboth => hlt.ne hboth.1.symm]
    exact h.blank j i (by rwa [hterm'])
  have hlaidOut : ∀ i j, F i j = F j i := h.laidOut
  refine h.extend (isExact_put (isExact_put h.exact hhalf) hhalf) (fun i' j' => ?_)
    (fun i' j' hij => ?_) fun g => ?_
  · simp only [put_apply, hlaidOut i' j']
    by_cases h1 : i' = j ∧ j' = i <;> by_cases h2 : i' = i ∧ j' = j <;> simp [h1, h2, and_comm]
  · have h1 : ¬(i' = j ∧ j' = i) := by
      rintro ⟨rfl, rfl⟩
      exact hij hterm'
    have h2 : ¬(i' = i ∧ j' = j) := by
      rintro ⟨rfl, rfl⟩
      exact hij hterm
    rw [put_apply, if_neg h1, put_apply, if_neg h2]
  · rw [total_put hblank', total_put hblank, hterm, hterm', Number.rat_mul hc rfl, Number.rat_exact]
    ring

/-- The step of the loop over the terms. -/
theorem placeTerm (h : Placed symmetric done F) (ht : IsPlaceable n (t, c))
    (hnew : t ∉ done.map (·.1)) :
    ∃ F' : Fin n → Fin n → Number, Qubo.placeTerm symmetric (rows F) t c = rows F' ∧
      Placed symmetric (done ++ [(t, c)]) F' := by
  match t, ht with
  | [], ht => exact absurd rfl ht.nonempty
  | [i], ht =>
    obtain ⟨i, rfl⟩ : ∃ k : Fin n, k.val = i := ⟨⟨i, ht.lt i (by simp)⟩, rfl⟩
    exact ⟨_, setEntry_rows c, h.diagonal ht.exact hnew⟩
  | [i, j], ht =>
    obtain ⟨i, rfl⟩ : ∃ k : Fin n, k.val = i := ⟨⟨i, ht.lt i (by simp)⟩, rfl⟩
    obtain ⟨j, rfl⟩ : ∃ k : Fin n, k.val = j := ⟨⟨j, ht.lt j (by simp)⟩, rfl⟩
    have hij : i < j := Nat.compare_eq_lt.mp (List.rel_of_pairwise_cons ht.increasing (by simp))
    have hterm := Term.normalize_of_increasing .binary ht.increasing
    cases symmetric with
    | false => exact ⟨_, setEntry_rows c, h.above ht.exact hij hterm hnew⟩
    | true =>
      refine ⟨_, ?_, h.mirrored ht.exact hij hterm hnew⟩
      show setEntry (setEntry (rows F) i j (c * .exact (1 / 2))) j i (c * .exact (1 / 2)) = _
      rw [setEntry_rows, setEntry_rows]
  | _ :: _ :: _ :: t, ht =>
    have hlength := ht.quadratic
    simp [quadraticDegree] at hlength

end Placed

end Placing

/-! ## The matrix of a QUBO -/

section ToMatrix

variable {q : Qubo ℕ} {symmetric : Bool} {capacity : ℕ} {m : Matrix Number}

end ToMatrix

end PseudoBoolean.Qubo

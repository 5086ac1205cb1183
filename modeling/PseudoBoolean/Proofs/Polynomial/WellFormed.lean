import PseudoBoolean.Polynomial.Basic
import PseudoBoolean.Proofs.Coefficient
import PseudoBoolean.Proofs.Term

/-!
# Well-formed polynomials

`Polynomial.WellFormed K p` is the invariant of the representation: terms in normal form and sorted,
coefficients of the kind `K` and none of them zero, distinct variables in the numbering, and every
variable of a term among them. Three kinds are used: `Coefficient.Any`; `Coefficient.Normal`, all exact
coefficients; and `Coefficient.IsRational`, those without parameters. The arithmetic does not leave any
of them, so each operation has one lemma for all. Values are spoken of for the exact kinds only.

The second view of a polynomial is `weighted ρ g`, the sum of its coefficients, each multiplied by a
weight `g` of its term. The value at a point is one such sum (`Polynomial.eval`), and a single
coefficient is another (`eval_termCoefficient`). So what an operation does to all such sums says both
what it does to values and which terms it leaves.
-/

namespace PseudoBoolean

open Std

/-- A kind of coefficients that the arithmetic does not leave. -/
class Coefficient.Closed (K : Coefficient → Prop) : Prop where
  exact : ∀ q, K (.num (.exact q))
  add : ∀ {a b}, K a → K b → K (a + b)
  sub : ∀ {a b}, K a → K b → K (a - b)
  mul : ∀ {a b}, K a → K b → K (a * b)
  neg : ∀ {a}, K a → K (-a)
  abs : ∀ {a n}, K a → a.abs = .ok n → K (.num n)

/-- A closed kind of exact coefficients. -/
class Coefficient.Kind (K : Coefficient → Prop) : Prop extends Coefficient.Closed K where
  normal : ∀ {a}, K a → a.Normal

/-- All coefficients, exact or not. -/
def Coefficient.Any : Coefficient → Prop := fun _ => True

instance : Coefficient.Closed Coefficient.Any where
  exact _ := trivial
  add _ _ := trivial
  sub _ _ := trivial
  mul _ _ := trivial
  neg _ := trivial
  abs _ _ := trivial

instance : Coefficient.Kind Coefficient.Normal where
  exact _ := rfl
  add := .add
  sub := .sub
  mul := .mul
  neg := .neg
  abs := .abs
  normal h := h

instance : Coefficient.Kind Coefficient.IsRational where
  exact q := ⟨q, rfl⟩
  add := .add
  sub := .sub
  mul := .mul
  neg := .neg
  abs := .abs
  normal := Coefficient.IsRational.normal

/-- A closed kind has all exact numbers. -/
theorem Coefficient.IsRational.kind {K : Coefficient → Prop} [Coefficient.Closed K] {c : Coefficient}
    (h : c.IsRational) : K c := by
  obtain ⟨q, rfl⟩ := h
  exact Coefficient.Closed.exact q

theorem Coefficient.kind_ofNat {K : Coefficient → Prop} [Coefficient.Closed K] (n : ℕ) :
    K (OfNat.ofNat n) :=
  Coefficient.Closed.exact _

namespace Polynomial

variable {d : Domain} {V : Type} [Variable V] {K : Coefficient → Prop} {ρ : String → ℚ}

/-! ## Tables of terms -/

/-- What an entry of a polynomial has to satisfy. -/
structure GoodEntry (K : Coefficient → Prop) (e : Term V × Coefficient) : Prop where
  increasing : Increasing e.1
  kind : K e.2
  nonzero : e.2.isZero = false

/-- Sorted terms in normal form with coefficients of a kind, none of them zero. -/
structure GoodTerms (K : Coefficient → Prop) (terms : Table (Term V) Coefficient) : Prop where
  sorted : terms.Sorted
  entries : ∀ e ∈ terms, GoodEntry K e

/-- The sum of the coefficients, each multiplied by the weight of its term. -/
def weighted (ρ : String → ℚ) (g : Term V → ℚ) (terms : Table (Term V) Coefficient) : ℚ :=
  terms.total fun t c => c.eval ρ * g t

omit [Variable V] in
@[simp]
theorem weighted_nil (g : Term V → ℚ) : weighted ρ g [] = 0 := rfl

omit [Variable V] in
@[simp]
theorem weighted_cons (g : Term V → ℚ) (e : Term V × Coefficient)
    (l : List (Term V × Coefficient)) :
    weighted ρ g (e :: l) = e.2.eval ρ * g e.1 + weighted ρ g l :=
  Table.total_cons _ _ _

omit [Variable V] in
/-- A weighted sum depends on the weights of the terms that occur only. -/
theorem weighted_congr {g g' : Term V → ℚ} {terms : Table (Term V) Coefficient}
    (h : ∀ e ∈ terms, g e.1 = g' e.1) : weighted ρ g terms = weighted ρ g' terms :=
  Table.total_congr fun e he => by rw [h e he]

omit [Variable V] in
/-- The weighted sum of two lists one after the other is the sum of both. -/
theorem weighted_append (g : Term V → ℚ) (l l' : List (Term V × Coefficient)) :
    weighted ρ g (l ++ l') = weighted ρ g l + weighted ρ g l' := by
  simp [weighted, Table.total]

omit [Variable V] in
/-- Weights that vanish on the terms give the sum zero. -/
theorem weighted_eq_zero {g : Term V → ℚ} {l : List (Term V × Coefficient)}
    (h : ∀ e ∈ l, g e.1 = 0) : weighted ρ g l = 0 :=
  Table.total_eq_zero fun e he => by rw [h e he, mul_zero]

omit [Variable V] in
/-- Weighted sums add in the weights. -/
theorem weighted_add (g g' : Term V → ℚ) (l : List (Term V × Coefficient)) :
    weighted ρ (fun t => g t + g' t) l = weighted ρ g l + weighted ρ g' l := by
  simp only [weighted, mul_add, Table.total_add]

omit [Variable V] in
/-- A constant comes out of a weighted sum. -/
theorem weighted_const_mul (a : ℚ) (g : Term V → ℚ) (l : List (Term V × Coefficient)) :
    weighted ρ (fun t => a * g t) l = a * weighted ρ g l := by
  induction l with
  | nil => simp
  | cons e l ih => rw [weighted_cons, weighted_cons, ih]; ring

/-- Terms and coefficients that may be added to a table. -/
def Addable (K : Coefficient → Prop) (l : List (Term V × Coefficient)) : Prop :=
  ∀ e ∈ l, Increasing e.1 ∧ K e.2

theorem GoodTerms.nil : GoodTerms K ([] : Table (Term V) Coefficient) :=
  ⟨List.Pairwise.nil, by simp⟩

/-- Terms in good order can be added one by one. -/
theorem GoodTerms.addable {terms : Table (Term V) Coefficient} (h : GoodTerms K terms) :
    Addable K terms :=
  fun e he => ⟨(h.entries e he).increasing, (h.entries e he).kind⟩

/-- A coefficient of a table has a value other than zero. -/
theorem GoodEntry.exists_eval_ne_zero [Coefficient.Kind K] {e : Term V × Coefficient}
    (h : GoodEntry K e) : ∃ ρ, e.2.eval ρ ≠ 0 := by
  by_contra hzero
  rw [not_exists] at hzero
  have h0 := (Coefficient.Kind.normal h.kind).isZero_iff.mpr fun ρ => not_not.mp (hzero ρ)
  rw [h.nonzero] at h0
  exact absurd h0 (by decide)

/-- A coefficient of a table is the sum with weight one at its term and zero elsewhere. -/
theorem GoodTerms.eval_getD [DecidableEq (Term V)] {terms : Table (Term V) Coefficient}
    (h : GoodTerms K terms) (t : Term V) :
    ((terms.get? t).getD 0).eval ρ = weighted ρ (fun s => if s = t then 1 else 0) terms := by
  cases hget : terms.get? t with
  | none =>
    refine (weighted_eq_zero fun e he => if_neg ?_).symm
    rintro rfl
    exact (Table.get?_eq_none_iff h.sorted).mp hget (Table.mem_keys.mpr ⟨e.2, he⟩)
  | some c =>
    rw [weighted, Table.total_eq_single h.sorted (Table.mem_of_get?_eq_some hget)
      fun e _ hne => by rw [if_neg hne, mul_zero]]
    simp

/-- Good tables with the same weighted sums are equal. -/
theorem GoodTerms.ext [Coefficient.Kind K] {terms terms' : Table (Term V) Coefficient}
    (h : GoodTerms K terms) (h' : GoodTerms K terms')
    (heq : ∀ ρ g, weighted ρ g terms = weighted ρ g terms') : terms = terms' := by
  classical
  have hmem : ∀ {terms terms' : Table (Term V) Coefficient}, GoodTerms K terms →
      GoodTerms K terms' → (∀ ρ g, weighted ρ g terms = weighted ρ g terms') →
      ∀ t c, (t, c) ∈ terms → (t, c) ∈ terms' := by
    intro terms terms' h h' heq t c hmem
    have hc : c.Normal := Coefficient.Kind.normal (h.entries _ hmem).kind
    have heval : ∀ ρ, c.eval ρ = ((terms'.get? t).getD 0).eval ρ := fun ρ => by
      rw [h'.eval_getD, ← heq, ← h.eval_getD, (Table.get?_eq_some_iff h.sorted).mpr hmem,
        Option.getD_some]
    -- a term that the other table lacks would have a coefficient without any value
    cases hget : terms'.get? t with
    | none =>
      have hzero : c.isZero := hc.isZero_iff.mpr fun ρ => by rw [heval, hget]; rfl
      have hne : c.isZero = false := (h.entries _ hmem).nonzero
      rw [hzero] at hne
      exact absurd hne (by decide)
    | some c' =>
      have hmem' := Table.mem_of_get?_eq_some hget
      have hcc : c = c' := hc.ext (Coefficient.Kind.normal (h'.entries _ hmem').kind) fun ρ => by
        rw [heval, hget, Option.getD_some]
      rwa [hcc]
  exact h.sorted.ext h'.sorted fun t c =>
    ⟨hmem h h' heq t c, hmem h' h (fun ρ g => (heq ρ g).symm) t c⟩

section AddCoefficient

variable {terms : Table (Term V) Coefficient} {t : Term V} {c : Coefficient}

/-- Adding a coefficient at a term keeps the terms in good order. -/
theorem GoodTerms.addCoefficient [Coefficient.Closed K] (h : GoodTerms K terms)
    (ht : Increasing t) (hc : K c) :
    GoodTerms K (addCoefficient terms t c) := by
  refine ⟨h.sorted.alter, Table.forall_mem_alter h.entries fun v hv => ?_⟩
  obtain ⟨hne, hv⟩ := Option.ite_none_left_eq_some.mp hv
  obtain rfl := Option.some_inj.mp hv
  refine ⟨ht, ?_, Bool.not_eq_true _ ▸ hne⟩
  cases hold : terms.get? t with
  | none => exact hc
  | some o => exact Coefficient.Closed.add (h.entries _ (Table.mem_of_get?_eq_some hold)).kind hc

variable [Coefficient.Kind K]

/-- Adding a coefficient at a term adds its value times the weight of the term. -/
theorem weighted_addCoefficient (h : GoodTerms K terms) (hc : K c) (g : Term V → ℚ) :
    weighted ρ g (addCoefficient terms t c) = weighted ρ g terms + c.eval ρ * g t := by
  have hnormal : c.Normal := Coefficient.Kind.normal hc
  refine Table.total_alter ?_
  cases hold : terms.get? t with
  | none =>
    simp only [Option.elim_none, zero_add]
    split
    · rename_i h0
      rw [Coefficient.eval_eq_zero_of_isZero hnormal h0]
      simp
    · rfl
  | some o =>
    have ho : o.Normal :=
      Coefficient.Kind.normal (h.entries _ (Table.mem_of_get?_eq_some hold)).kind
    simp only [Option.elim_some]
    rw [← add_mul, ← Coefficient.eval_add ho hnormal]
    split
    · rename_i h0
      rw [Coefficient.eval_eq_zero_of_isZero (ho.add hnormal) h0]
      simp
    · rfl

/-- Adding coefficients one after the other adds their weighted sum. -/
theorem addAll {l : List (Term V × Coefficient)} (h : GoodTerms K terms) (hl : Addable K l) :
    GoodTerms K (l.foldl (fun terms e => Polynomial.addCoefficient terms e.1 e.2) terms) ∧
      ∀ ρ g, weighted ρ g (l.foldl (fun terms e => Polynomial.addCoefficient terms e.1 e.2) terms) =
        weighted ρ g terms + weighted ρ g l := by
  induction l generalizing terms with
  | nil => simp [h]
  | cons e l ih =>
    obtain ⟨⟨ht, hc⟩, hl⟩ := List.forall_mem_cons.mp hl
    obtain ⟨hgood, hsum⟩ := ih (h.addCoefficient ht hc) hl
    refine ⟨hgood, fun ρ g => ?_⟩
    rw [List.foldl_cons, hsum, weighted_addCoefficient h hc, weighted_cons, add_assoc]

end AddCoefficient

/-! ## The numbering -/

section Index

variable {index : VariableIndex V} {v : V} {vars : List V}

/-- A new label goes to the end of the index, so that the numbers of the others stay. -/
theorem labels_prefix_insert : index.labels <+: (index.insert v).labels := by
  rw [VariableIndex.insert]
  split
  · exact List.prefix_rfl
  · exact List.prefix_append _ _

/-- The labels of an index stay distinct when one is added. -/
theorem nodup_insert (h : index.labels.Nodup) : (index.insert v).labels.Nodup := by
  rw [VariableIndex.insert]
  split
  · exact h
  · rename_i hv
    rw [List.nodup_append]
    refine ⟨h, List.nodup_singleton v, ?_⟩
    rintro a ha b hb rfl
    obtain rfl := List.mem_singleton.mp hb
    exact hv (List.contains_iff_mem.mpr ha)

theorem mem_insert : v ∈ (index.insert v).labels := by
  rw [VariableIndex.insert]
  split
  · rename_i hv
    exact List.contains_iff_mem.mp hv
  · simp

theorem labels_prefix_insertAll : index.labels <+: (index.insertAll vars).labels := by
  rw [VariableIndex.insertAll]
  induction vars generalizing index with
  | nil => exact List.prefix_rfl
  | cons v vars ih => exact labels_prefix_insert.trans ih

/-- The labels of an index stay distinct when several are added. -/
theorem nodup_insertAll (h : index.labels.Nodup) : (index.insertAll vars).labels.Nodup := by
  rw [VariableIndex.insertAll]
  induction vars generalizing index with
  | nil => exact h
  | cons v vars ih => exact ih (nodup_insert h)

/-- Variables that have a number already change nothing. -/
theorem insertAll_of_subset (h : ∀ v ∈ vars, v ∈ index.labels) : index.insertAll vars = index := by
  rw [VariableIndex.insertAll]
  induction vars with
  | nil => rfl
  | cons v vars ih =>
    obtain ⟨hv, hvars⟩ := List.forall_mem_cons.mp h
    rw [List.foldl_cons, VariableIndex.insert, if_pos (List.contains_iff_mem.mpr hv)]
    exact ih hvars

theorem mem_insertAll (h : v ∈ vars) : v ∈ (index.insertAll vars).labels := by
  rw [VariableIndex.insertAll]
  induction vars generalizing index with
  | nil => simp at h
  | cons w vars ih =>
    rcases List.mem_cons.mp h with rfl | h
    · have hprefix : (index.insert v).labels <+: ((index.insert v).insertAll vars).labels :=
        labels_prefix_insertAll
      exact hprefix.subset mem_insert
    · exact ih h

/-- The variables that get numbers are those of the list. -/
theorem mem_insertAll_iff : v ∈ (index.insertAll vars).labels ↔ v ∈ index.labels ∨ v ∈ vars := by
  refine ⟨fun h => ?_, fun h => h.elim (fun h => labels_prefix_insertAll.subset h) mem_insertAll⟩
  rw [VariableIndex.insertAll] at h
  induction vars generalizing index with
  | nil => exact .inl h
  | cons w vars ih =>
    rcases ih h with h | h
    · rw [VariableIndex.insert] at h
      split at h
      · exact .inl h
      · refine (List.mem_append.mp h).imp_right fun h => ?_
        rw [List.mem_singleton.mp h]
        exact List.mem_cons_self
    · exact .inr (List.mem_cons_of_mem _ h)

end Index

/-! ## Well-formed polynomials -/

/-- Good terms, and a numbering of distinct variables that has all that occur. -/
structure WellFormed (K : Coefficient → Prop) (p : Polynomial d V) : Prop where
  terms : GoodTerms K p.terms
  distinct : p.index.labels.Nodup
  indexed : ∀ e ∈ p.terms, ∀ v ∈ e.1, v ∈ p.index.labels

/-- The value at a point, under a valuation of the parameters. -/
def eval (ρ : String → ℚ) (x : V → ℚ) (p : Polynomial d V) : ℚ :=
  weighted ρ (Term.eval x) p.terms

section Basic

variable {p : Polynomial d V} {x y : V → ℚ} {v : V}

/-- The kind of the coefficients can be changed for another that all of them have. -/
theorem WellFormed.withKind {K' : Coefficient → Prop} (h : p.WellFormed K)
    (hK : ∀ e ∈ p.terms, K' e.2) : p.WellFormed K' where
  terms := ⟨h.terms.sorted, fun e he =>
    ⟨(h.terms.entries e he).increasing, hK e he, (h.terms.entries e he).nonzero⟩⟩
  distinct := h.distinct
  indexed := h.indexed

/-- A polynomial stays well formed for a wider kind of coefficients. -/
theorem WellFormed.mono {K' : Coefficient → Prop} (h : p.WellFormed K) (hK : ∀ c, K c → K' c) :
    p.WellFormed K' :=
  h.withKind fun e he => hK _ (h.terms.entries e he).kind

theorem WellFormed.normal [Coefficient.Kind K] (h : p.WellFormed K) :
    p.WellFormed Coefficient.Normal :=
  h.mono fun _ => Coefficient.Kind.normal

theorem WellFormed.empty : (Polynomial.empty : Polynomial d V).WellFormed K :=
  ⟨.nil, List.nodup_nil, by simp [Polynomial.empty]⟩

@[simp]
theorem mem_vars : v ∈ p.vars ↔ ∃ e ∈ p.terms, v ∈ e.1 := by
  simp [vars]

/-- Every variable that occurs is numbered. -/
theorem WellFormed.mem_labels (hp : p.WellFormed K) (hv : v ∈ p.vars) : v ∈ p.index.labels := by
  obtain ⟨t, ht, hvt⟩ := mem_vars.mp hv
  exact hp.indexed t ht v hvt

/-- The value depends on the variables that occur only. -/
theorem eval_congr (h : ∀ v ∈ p.vars, x v = y v) : p.eval ρ x = p.eval ρ y :=
  weighted_congr fun e he => Term.eval_congr fun v hv => h v (mem_vars.mpr ⟨e, he, hv⟩)

/-- A single coefficient is the sum with weight one at its term and zero elsewhere. -/
theorem eval_termCoefficient [DecidableEq (Term V)] (h : GoodTerms K p.terms) (t : Term V) :
    (p.termCoefficient t).eval ρ = weighted ρ (fun s => if s = t then 1 else 0) p.terms :=
  h.eval_getD t

/-- A term occurs if its coefficient has a value other than zero. -/
theorem mem_of_eval_termCoefficient_ne_zero {t : Term V} (h : (p.termCoefficient t).eval ρ ≠ 0) :
    (t, p.termCoefficient t) ∈ p.terms := by
  rw [termCoefficient] at h ⊢
  cases hget : p.terms.get? t with
  | none =>
    rw [hget] at h
    exact absurd rfl h
  | some c => exact Table.mem_of_get?_eq_some hget

/-- The coefficient that is looked up for a term is the one stored with it. -/
theorem termCoefficient_of_mem {t : Term V} {c : Coefficient} (h : GoodTerms K p.terms)
    (hmem : (t, c) ∈ p.terms) : p.termCoefficient t = c := by
  rw [termCoefficient, (Table.get?_eq_some_iff h.sorted).mpr hmem, Option.getD_some]

end Basic

/-! ## Accumulation -/

section Accumulate

variable {p : Polynomial d V} {t : Term V} {c : Coefficient}

/-- Adding to a term appends labels to the index and moves none. -/
theorem labels_prefix_accumulate (p : Polynomial d V) (t : Term V) (c : Coefficient) :
    p.index.labels <+: (p.accumulate t c).index.labels := by
  rw [accumulate]
  split
  · exact List.prefix_rfl
  · exact labels_prefix_insertAll

/-- The labels after adding to a term: those before, and the variables of the term unless the coefficient
is zero. -/
theorem mem_labels_accumulate {v : V} :
    v ∈ (p.accumulate t c).index.labels ↔ v ∈ p.index.labels ∨ c.isZero = false ∧ v ∈ t := by
  rw [accumulate]
  split
  · rename_i hzero
    simp [hzero]
  · rename_i hzero
    rw [mem_insertAll_iff, Bool.eq_false_iff, and_iff_right hzero]

@[simp]
theorem ancillas_accumulate (p : Polynomial d V) (t : Term V) (c : Coefficient) :
    (p.accumulate t c).ancillas = p.ancillas := by
  rw [accumulate]
  split <;> rfl

/-- Adding to a term keeps the polynomial well formed. -/
theorem WellFormed.accumulate [Coefficient.Closed K] (hp : p.WellFormed K) (ht : Increasing t)
    (hc : K c) :
    (p.accumulate t c).WellFormed K := by
  rw [Polynomial.accumulate]
  split
  · exact hp
  · refine ⟨hp.terms.addCoefficient ht hc, nodup_insertAll hp.distinct, ?_⟩
    refine Table.forall_mem_alter (fun e he v hv => ?_) fun _ _ v hv => mem_insertAll hv
    exact labels_prefix_insertAll.subset (hp.indexed e he v hv)

/-- Adding to a term adds to every weighted sum the value times the weight of that term. -/
theorem weighted_accumulate [Coefficient.Kind K] (hp : p.WellFormed K) (hc : K c) (g : Term V → ℚ) :
    weighted ρ g (p.accumulate t c).terms = weighted ρ g p.terms + c.eval ρ * g t := by
  rw [accumulate]
  split
  · rename_i h0
    rw [Coefficient.eval_eq_zero_of_isZero (Coefficient.Kind.normal hc) h0, zero_mul, add_zero]
  · exact weighted_addCoefficient hp.terms hc g

/-- A polynomial after terms have been accumulated one after the other. -/
def accumulateList (p : Polynomial d V) (l : List (Term V × Coefficient)) : Polynomial d V :=
  l.foldl (fun p e => p.accumulate e.1 e.2) p

variable {l : List (Term V × Coefficient)}

/-- Adding to several terms appends labels to the index and moves none. -/
theorem labels_prefix_accumulateList (p : Polynomial d V) (l : List (Term V × Coefficient)) :
    p.index.labels <+: (p.accumulateList l).index.labels := by
  rw [accumulateList]
  induction l generalizing p with
  | nil => exact List.prefix_rfl
  | cons e l ih => exact (labels_prefix_accumulate p e.1 e.2).trans (ih _)

/-- The variables of the terms are numbered, but not those of a term with the coefficient zero. -/
theorem mem_labels_accumulateList {v : V} : v ∈ (p.accumulateList l).index.labels ↔
    v ∈ p.index.labels ∨ ∃ e ∈ l, e.2.isZero = false ∧ v ∈ e.1 := by
  rw [accumulateList]
  induction l generalizing p with
  | nil => simp
  | cons e l ih =>
    rw [List.foldl_cons, ih, mem_labels_accumulate, or_assoc, List.exists_mem_cons_iff]

@[simp]
theorem ancillas_accumulateList (p : Polynomial d V) (l : List (Term V × Coefficient)) :
    (p.accumulateList l).ancillas = p.ancillas := by
  rw [accumulateList]
  induction l generalizing p with
  | nil => rfl
  | cons e l ih => rw [List.foldl_cons, ih, ancillas_accumulate]

/-- Terms of variables that are numbered already leave the numbering as it is. -/
theorem index_accumulateList (h : ∀ e ∈ l, ∀ v ∈ e.1, v ∈ p.index.labels) :
    (p.accumulateList l).index = p.index := by
  rw [accumulateList]
  induction l generalizing p with
  | nil => rfl
  | cons e l ih =>
    obtain ⟨he, hl⟩ := List.forall_mem_cons.mp h
    have hstep : (p.accumulate e.1 e.2).index = p.index := by
      rw [accumulate]
      split
      · rfl
      · exact insertAll_of_subset he
    exact (ih (by rwa [hstep])).trans hstep

/-- Adding to several terms keeps the polynomial well formed. -/
theorem WellFormed.accumulateList [Coefficient.Closed K] (hp : p.WellFormed K) (hl : Addable K l) :
    (p.accumulateList l).WellFormed K := by
  rw [Polynomial.accumulateList]
  induction l generalizing p with
  | nil => exact hp
  | cons e l ih =>
    obtain ⟨⟨ht, hc⟩, hl⟩ := List.forall_mem_cons.mp hl
    exact ih (hp.accumulate ht hc) hl

/-- Adding to several terms adds up their weighted sums. -/
theorem weighted_accumulateList [Coefficient.Kind K] (hp : p.WellFormed K) (hl : Addable K l)
    (g : Term V → ℚ) :
    weighted ρ g (p.accumulateList l).terms = weighted ρ g p.terms + weighted ρ g l := by
  rw [Polynomial.accumulateList]
  induction l generalizing p with
  | nil => simp
  | cons e l ih =>
    obtain ⟨⟨ht, hc⟩, hl⟩ := List.forall_mem_cons.mp hl
    rw [List.foldl_cons, ih (hp.accumulate ht hc) hl, weighted_accumulate hp hc, weighted_cons,
      add_assoc]

/-- Every term is an old one or one of those accumulated. -/
theorem exists_of_mem_accumulateList {e : Term V × Coefficient}
    (h : e ∈ (p.accumulateList l).terms) :
    (∃ e' ∈ p.terms, e'.1 = e.1) ∨ ∃ e' ∈ l, e'.1 = e.1 := by
  rw [Polynomial.accumulateList] at h
  induction l generalizing p with
  | nil => exact .inl ⟨e, h, rfl⟩
  | cons e₀ l ih =>
    have hstep : ∀ e' ∈ (p.accumulate e₀.1 e₀.2).terms,
        (∃ e'' ∈ p.terms, e''.1 = e'.1) ∨ e₀.1 = e'.1 := by
      rw [Polynomial.accumulate]
      split
      · exact fun e' he' => .inl ⟨e', he', rfl⟩
      · exact Table.forall_mem_alter (fun e' he' => .inl ⟨e', he', rfl⟩) fun _ _ => .inr rfl
    rcases ih h with ⟨e', he', heq⟩ | ⟨e', he', heq⟩
    · rcases hstep e' he' with ⟨e'', he'', heq'⟩ | heq'
      · exact .inl ⟨e'', he'', heq'.trans heq⟩
      · exact .inr ⟨e₀, List.mem_cons_self, heq'.trans heq⟩
    · exact .inr ⟨e', List.mem_cons_of_mem _ he', heq⟩

/-- Every variable is an old one or occurs in a term that is accumulated. -/
theorem mem_vars_of_mem_accumulateList {v : V} (h : v ∈ (p.accumulateList l).vars) :
    v ∈ p.vars ∨ ∃ e ∈ l, v ∈ e.1 := by
  obtain ⟨e, he, hv⟩ := mem_vars.mp h
  rcases exists_of_mem_accumulateList he with ⟨e', he', heq⟩ | ⟨e', he', heq⟩
  · exact .inl (mem_vars.mpr ⟨e', he', heq ▸ hv⟩)
  · exact .inr ⟨e', he', heq ▸ hv⟩

/-- The value after adding to several terms is the old value and the sum of what was added. -/
theorem eval_accumulateList [Coefficient.Kind K] {x : V → ℚ} (hp : p.WellFormed K) (hl : Addable K l) :
    (p.accumulateList l).eval ρ x = p.eval ρ x + weighted ρ (Term.eval x) l :=
  weighted_accumulateList hp hl _

end Accumulate

/-! ## Further ways to build a polynomial -/

section Build

variable {p q : Polynomial d V} {t : Term V} {c : Coefficient}

/-- A coefficient that is set to zero is taken out. -/
theorem assign_zero (p : Polynomial d V) (t : Term V) :
    p.assign t 0 = { p with terms := p.terms.erase t } := by
  rw [assign, if_pos]
  rfl

/-- Removing a term keeps the polynomial well formed. -/
theorem WellFormed.erase (hp : p.WellFormed K) (t : Term V) :
    ({ p with terms := p.terms.erase t } : Polynomial d V).WellFormed K :=
  ⟨⟨hp.terms.sorted.alter, Table.forall_mem_alter hp.terms.entries (by simp)⟩, hp.distinct,
    Table.forall_mem_alter hp.indexed (by simp)⟩

/-- Setting a term to zero keeps the polynomial well formed, in whatever order its variables stand. -/
theorem WellFormed.assign_zero (hp : p.WellFormed K) (t : Term V) :
    (p.assign t 0).WellFormed K := by
  rw [Polynomial.assign_zero]
  exact hp.erase t

/-- Setting the coefficient of a term in normal form keeps the polynomial well formed. -/
theorem WellFormed.assign (hp : p.WellFormed K) (ht : Increasing t) (hc : K c) :
    (p.assign t c).WellFormed K := by
  rw [Polynomial.assign]
  split
  · exact hp.erase t
  · rename_i hne
    refine ⟨⟨hp.terms.sorted.alter, Table.forall_mem_alter hp.terms.entries fun v hv => ?_⟩,
      nodup_insertAll hp.distinct,
      Table.forall_mem_alter (fun e he v hv => ?_) fun _ _ v hv => mem_insertAll hv⟩
    · obtain rfl := Option.some_inj.mp hv
      exact ⟨ht, hc, Bool.not_eq_true _ ▸ hne⟩
    · exact labels_prefix_insertAll.subset (hp.indexed e he v hv)

/-- Adding a product of any variables keeps the polynomial well formed. -/
theorem WellFormed.addTerm [Coefficient.Closed K] (hp : p.WellFormed K) (vars : List V) (hc : K c) :
    (p.addTerm vars c).WellFormed K :=
  hp.accumulate (Term.increasing_normalize d vars) hc

/-- The sum of products with coefficients of a kind. -/
theorem WellFormed.ofTerms [Coefficient.Closed K] {entries : List (List V × Coefficient)}
    (h : ∀ e ∈ entries, K e.2) : (Polynomial.ofTerms entries : Polynomial d V).WellFormed K := by
  unfold Polynomial.ofTerms
  apply List.foldlRecOn entries _ WellFormed.empty
  intro p hp e he
  exact hp.addTerm e.1 (h e he)

/-- A polynomial made of entries is the empty one with each normalized product added in turn. -/
theorem ofTerms_eq (entries : List (List V × Coefficient)) :
    (ofTerms entries : Polynomial d V) =
      Polynomial.empty.accumulateList (entries.map fun e => (Term.normalize d e.1, e.2)) := by
  rw [accumulateList, List.foldl_map]
  rfl

/-- Every term is the normal form of one of the products. -/
theorem exists_of_mem_ofTerms {entries : List (List V × Coefficient)} {t : Term V × Coefficient}
    (ht : t ∈ (ofTerms entries : Polynomial d V).terms) :
    ∃ e ∈ entries, Term.normalize d e.1 = t.1 := by
  rw [ofTerms_eq] at ht
  rcases exists_of_mem_accumulateList ht with ⟨_, he, -⟩ | ⟨_, he, heq⟩
  · cases he
  · obtain ⟨e, hmem, rfl⟩ := List.mem_map.mp he
    exact ⟨e, hmem, heq⟩

/-- The variables that the normal forms have are numbered, if the coefficient is not zero. -/
theorem mem_labels_ofTerms {entries : List (List V × Coefficient)} {v : V} :
    v ∈ (ofTerms entries : Polynomial d V).index.labels ↔
      ∃ e ∈ entries, e.2.isZero = false ∧ v ∈ Term.normalize d e.1 := by
  rw [ofTerms_eq, mem_labels_accumulateList]
  refine (or_iff_right List.not_mem_nil).trans ?_
  simp only [List.mem_map, exists_exists_and_eq_and]

/-- Steps that agree on the entries of a list give the same result. -/
theorem foldlM_congr {ε α β : Type} {f g : β → α → Except ε β} {l : List α}
    (h : ∀ b, ∀ x ∈ l, f b x = g b x) (b : β) : l.foldlM f b = l.foldlM g b := by
  induction l generalizing b with
  | nil => rfl
  | cons x l ih =>
    obtain ⟨hx, hl⟩ : (∀ b, f b x = g b x) ∧ ∀ b, ∀ y ∈ l, f b y = g b y :=
      ⟨fun b => h b x List.mem_cons_self, fun b y hy => h b y (List.mem_cons_of_mem x hy)⟩
    rw [List.foldlM_cons, List.foldlM_cons, hx]
    exact congrArg (g b x >>= ·) (funext fun b' => ih hl b')

omit [Variable V] in
/-- What every successful step of a fold keeps is kept by a successful fold. -/
theorem invariant_of_foldlM {ε α β : Type} (I : β → Prop) {step : β → α → Except ε β}
    {l : List α} (hstep : ∀ b, ∀ a ∈ l, ∀ next, I b → step b a = .ok next → I next)
    {start result : β} (hstart : I start) (h : l.foldlM step start = .ok result) : I result := by
  induction l generalizing start with
  | nil => exact Except.ok.inj h ▸ hstart
  | cons a l ih =>
    obtain ⟨hfirst, hrest⟩ : (∀ b next, I b → step b a = .ok next → I next) ∧
        ∀ b, ∀ a ∈ l, ∀ next, I b → step b a = .ok next → I next :=
      ⟨fun b => hstep b a List.mem_cons_self, fun b a' ha' => hstep b a' (List.mem_cons_of_mem a ha')⟩
    rw [List.foldlM_cons] at h
    cases hnext : step start a with
    | error e =>
      rw [hnext] at h
      cases h
    | ok next =>
      rw [hnext] at h
      exact ih hrest (hfirst start next hstart hnext) h

/-- A fold that succeeds has taken a successful step at every entry. -/
theorem exists_step_of_foldlM {ε α β : Type} {step : β → α → Except ε β} {l : List α}
    {start result : β} (h : l.foldlM step start = .ok result) {a : α} (ha : a ∈ l) :
    ∃ b next, step b a = .ok next := by
  induction l generalizing start with
  | nil => cases ha
  | cons a' l ih =>
    rw [List.foldlM_cons] at h
    cases hnext : step start a' with
    | error e =>
      rw [hnext] at h
      cases h
    | ok next =>
      rw [hnext] at h
      rcases List.mem_cons.mp ha with rfl | ha
      · exact ⟨start, next, hnext⟩
      · exact ih h ha

/-- A fold that fails has failed in a step at some entry. -/
theorem exists_step_of_foldlM_error {ε α β : Type} {step : β → α → Except ε β} {l : List α} {start : β}
    {e : ε} (h : l.foldlM step start = .error e) : ∃ b a, step b a = .error e := by
  induction l generalizing start with
  | nil => cases h
  | cons a l ih =>
    rw [List.foldlM_cons] at h
    cases hnext : step start a with
    | error e' =>
      rw [hnext] at h
      obtain rfl := Except.error.inj h
      exact ⟨start, a, hnext⟩
    | ok next =>
      rw [hnext] at h
      exact ih h

/-- A numbering that is given by its pairs numbers distinct variables. -/
theorem nodup_ofBijection {pairs : List (V × ℕ)} {index : VariableIndex V}
    (h : VariableIndex.ofBijection pairs = .ok index) : index.labels.Nodup := by
  rw [VariableIndex.ofBijection] at h
  cases hslots : VariableIndex.fillSlots pairs with
  | error e =>
    rw [hslots] at h
    cases h
  | ok slots =>
    rw [hslots] at h
    refine invariant_of_foldlM (fun index : VariableIndex V => index.labels.Nodup)
      (fun start slot _ next hstart hstep => ?_) List.nodup_nil h
    dsimp only at hstep
    split at hstep
    · cases hstep
    · rename_i hv
      obtain rfl := Except.ok.inj hstep
      refine List.nodup_append.mpr ⟨hstart, List.nodup_singleton _, ?_⟩
      rintro a ha b hb rfl
      obtain rfl := List.mem_singleton.mp hb
      exact hv (List.contains_iff_mem.mpr ha)

/-- A mapping is refused, which leaves the polynomial as it is, or it is a bijection of the same variables
and replaces the numbering. -/
theorem setMapping_cases (p : Polynomial d V) (pairs : List (V × ℕ)) :
    (∃ e, p.setMapping pairs = (p, .error e)) ∨
      ∃ index, VariableIndex.ofBijection pairs = .ok index ∧
        (∀ v, v ∈ p.index.labels ↔ v ∈ index.labels) ∧
        p.setMapping pairs = ({ p with index := index }, .ok ()) := by
  rw [Polynomial.setMapping]
  cases VariableIndex.ofBijection pairs with
  | error e => exact .inl ⟨e, rfl⟩
  | ok index =>
    dsimp only
    split
    · rename_i hsame
      exact .inr ⟨index, rfl, Table.sortedSet_eq_iff.mp (eq_of_beq hsame), rfl⟩
    · exact .inl ⟨_, rfl⟩

/-- Another numbering of the same variables changes nothing else. -/
theorem WellFormed.setMapping (hp : p.WellFormed K) (pairs : List (V × ℕ)) :
    (p.setMapping pairs).1.WellFormed K := by
  rcases setMapping_cases p pairs with ⟨e, h⟩ | ⟨index, hindex, hsame, h⟩
  · rw [h]
    exact hp
  · rw [h]
    exact ⟨hp.terms, nodup_ofBijection hindex, fun e he v hv => (hsame v).mp (hp.indexed e he v hv)⟩

end Build

/-! ## Polynomials from parts -/

section OfParts

variable {terms : Table (Term V) Coefficient} {index : VariableIndex V}
  {ancillas : AncillaTable V}

theorem ofParts_eq (terms : Table (Term V) Coefficient) (index : VariableIndex V)
    (ancillas : AncillaTable V) :
    (ofParts terms index ancillas : Polynomial d V) =
      (⟨[], index, ancillas⟩ : Polynomial d V).accumulateList terms := rfl

/-- Good terms over an index of distinct labels make a well-formed polynomial. -/
theorem WellFormed.ofParts [Coefficient.Closed K] (hterms : GoodTerms K terms)
    (hindex : index.labels.Nodup) :
    (Polynomial.ofParts terms index ancillas : Polynomial d V).WellFormed K := by
  rw [ofParts_eq]
  exact WellFormed.accumulateList ⟨.nil, hindex, by simp⟩ hterms.addable

/-- The terms of a good table are taken over as they are. -/
theorem terms_ofParts [Coefficient.Kind K] (hterms : GoodTerms K terms) (hindex : index.labels.Nodup) :
    (ofParts terms index ancillas : Polynomial d V).terms = terms := by
  have hparts : (ofParts terms index ancillas : Polynomial d V).WellFormed K := .ofParts hterms hindex
  refine hparts.terms.ext hterms fun ρ g => ?_
  rw [ofParts_eq, weighted_accumulateList (K := K) ⟨.nil, hindex, by simp⟩ hterms.addable]
  simp

@[simp]
theorem ancillas_ofParts (terms : Table (Term V) Coefficient) (index : VariableIndex V)
    (ancillas : AncillaTable V) :
    (ofParts terms index ancillas : Polynomial d V).ancillas = ancillas := by
  rw [ofParts_eq, ancillas_accumulateList]

/-- An index that holds the variables of the terms is kept as it is. -/
theorem index_ofParts (h : ∀ e ∈ terms, ∀ v ∈ e.1, v ∈ index.labels) :
    (ofParts terms index ancillas : Polynomial d V).index = index :=
  index_accumulateList h

end OfParts

end Polynomial

end PseudoBoolean

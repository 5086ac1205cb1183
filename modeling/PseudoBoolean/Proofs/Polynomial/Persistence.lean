import PseudoBoolean.Proofs.Polynomial.Arithmetic

/-!
# Monomials that do not cancel

A coefficient with parameters is a table of monomials in the parameters, and equal monomials are added up,
so one that occurs in an operand can be missing in the result. It is not if all numbers that it has are,
say, positive. `Every P` says of all monomials in a coefficient, or in all coefficients of a polynomial,
that `P` holds of them and their numbers, and `Has H` that there is one with the property `H`. If `P` passes
to sums and no number with it is zero where `H` holds (`Persistent`), then what is added up has a monomial
with `H` as soon as one of the parts has. Nothing is assumed of the numbers otherwise: they may be doubles.
-/

namespace PseudoBoolean

open Std

/-- What every step keeps, and what some step brings about and the others keep, holds in the end. -/
theorem foldl_of_exists {α β : Type} {f : β → α → β} {K R : β → Prop} {B : α → Prop}
    {l : List α} {b : β} (hkept : ∀ b, ∀ a ∈ l, K b → K (f b a))
    (hreached : ∀ b, ∀ a ∈ l, K b → R b ∨ B a → R (f b a)) (hb : K b)
    (h : R b ∨ ∃ a ∈ l, B a) : R (l.foldl f b) := by
  induction l generalizing b with
  | nil => exact h.resolve_right (by simp)
  | cons a l ih =>
    obtain ⟨hkeptHead, hkeptTail⟩ := List.forall_mem_cons.mp fun a ha b => hkept b a ha
    obtain ⟨hreachedHead, hreachedTail⟩ := List.forall_mem_cons.mp fun a ha b => hreached b a ha
    refine ih (fun b a ha => hkeptTail a ha b) (fun b a ha => hreachedTail a ha b)
      (hkeptHead b hb) ?_
    rw [List.exists_mem_cons_iff, ← or_assoc] at h
    exact h.imp_left (hreachedHead b hb)

/-- An entry with `B` remains, or there is one at the key that is changed, if the change sees to it. -/
theorem Table.exists_mem_alter {κ α : Type} [Ord κ] [LawfulEqOrd κ] {t : Table κ α} {k : κ}
    {f : Option α → Option α} {A B : κ → α → Prop} {brings : Prop} (ht : ∀ e ∈ t, A e.1 e.2)
    (hnone : brings → ∃ v, f none = some v ∧ B k v)
    (hsome : ∀ old, A k old → B k old ∨ brings → ∃ v, f (some old) = some v ∧ B k v)
    (h : (∃ e ∈ t, B e.1 e.2) ∨ brings) : ∃ e ∈ t.alter k f, B e.1 e.2 := by
  induction t with
  | nil =>
    obtain ⟨v, hv, hB⟩ := hnone (h.resolve_left (by simp))
    rw [alter, hv]
    exact ⟨(k, v), List.mem_singleton_self _, hB⟩
  | cons e t ih =>
    obtain ⟨k', v'⟩ := e
    obtain ⟨hhead, htail⟩ := List.forall_mem_cons.mp ht
    rw [alter]
    cases hcompare : compare k k' with
    | lt =>
      dsimp only
      rcases h with ⟨e, he, hB⟩ | hbrings
      · cases f none with
        | none => exact ⟨e, he, hB⟩
        | some v => exact ⟨e, List.mem_cons_of_mem _ he, hB⟩
      · obtain ⟨v, hv, hB⟩ := hnone hbrings
        rw [hv]
        exact ⟨(k, v), List.mem_cons_self, hB⟩
    | eq =>
      obtain rfl := LawfulEqOrd.eq_of_compare hcompare
      dsimp only
      rw [List.exists_mem_cons_iff, or_right_comm] at h
      rcases h with h | ⟨e, he, hB⟩
      · obtain ⟨v, hv, hB⟩ := hsome v' hhead h
        rw [hv]
        exact ⟨(k, v), List.mem_cons_self, hB⟩
      · cases f (some v') with
        | none => exact ⟨e, he, hB⟩
        | some v => exact ⟨e, List.mem_cons_of_mem _ he, hB⟩
    | gt =>
      rw [List.exists_mem_cons_iff, or_assoc] at h
      exact (List.exists_mem_cons_iff ..).mpr (h.imp_right (ih htail))

/-- The numbers with `P` of one monomial add up to such a number, which is not zero for a monomial with
`H`. -/
structure Persistent (P : Monomial → Number → Prop) (H : Monomial → Prop) : Prop where
  add : ∀ {m : Monomial} {x y : Number}, P m x → P m y → P m (x + y)
  ne_zero : ∀ {m : Monomial} {x : Number}, H m → P m x → x.isZero = false

/-- In addition every number is fit to be a constant, and the constant monomial is not one with `H`. -/
structure PersistentBesideConstants (P : Monomial → Number → Prop) (H : Monomial → Prop) : Prop
    extends Persistent P H where
  constant : ∀ x, P [] x
  not_constant : ¬ H []

variable {P Q R : Monomial → Number → Prop} {H I J : Monomial → Prop} {m : Monomial} {x k : Number}

/-! ## Polynomials in parameters -/

namespace Symbolic

variable {s t : Symbolic} {l : List (Monomial × Number)}

/-- All monomials and their numbers have the property. -/
def Every (P : Monomial → Number → Prop) (s : Symbolic) : Prop :=
  ∀ e ∈ s.terms, P e.1 e.2

/-- Some monomial has the property. -/
def Has (H : Monomial → Prop) (s : Symbolic) : Prop :=
  ∃ e ∈ s.terms, H e.1

/-- A weaker property holds of all monomials as well. -/
theorem Every.mono (hs : s.Every P) (h : ∀ m x, P m x → Q m x) : s.Every Q :=
  fun e he => h _ _ (hs e he)

/-- There are no monomials in zero. -/
theorem every_zero : zero.Every P := by simp [Every, zero]

/-- A monomial with `H` is found together with what is known of all. -/
theorem Has.and_every (h : s.Has H) (hs : s.Every P) (hI : ∀ m x, H m → P m x → I m) : s.Has I := by
  obtain ⟨e, he, hH⟩ := h
  exact ⟨e, he, hI _ _ hH (hs e he)⟩

/-- A monomial with `P` is added. If it was there, the sum of its numbers has `P` too. -/
theorem Every.accumulate (hP : Persistent P H) (hs : s.Every P) (hx : P m x) :
    (s.accumulate m x).Every P := by
  rw [Symbolic.accumulate]
  split
  · exact hs
  refine Table.forall_mem_alter (P := fun e => P e.1 e.2) hs fun v hv => ?_
  cases hold : s.terms.get? m with
  | none =>
    rw [hold] at hv
    exact Option.some_inj.mp hv ▸ hx
  | some old =>
    simp only [hold] at hv
    split at hv
    · cases hv
    · exact Option.some_inj.mp hv ▸ hP.add (hs _ (Table.mem_of_get?_eq_some hold)) hx

/-- A monomial with `H` stays when another one is added, and an added one is there afterwards. -/
theorem has_accumulate (hP : Persistent P H) (hs : s.Every P) (hx : P m x) (h : s.Has H ∨ H m) :
    (s.accumulate m x).Has H := by
  rw [accumulate]
  split
  · rename_i h0
    refine h.resolve_right fun hm => ?_
    rw [hP.ne_zero hm hx] at h0
    cases h0
  refine Table.exists_mem_alter (A := P) (B := fun m _ => H m) hs (fun hm => ⟨x, rfl, hm⟩)
    (fun old hold hm => ?_) h
  have hm := hm.elim id id
  exact ⟨old + x, if_neg (by simp [hP.ne_zero hm (hP.add hold hx)]), hm⟩

/-- All monomials have `P` if those that are there and those that are added have it. -/
theorem Every.accumulateAll (hP : Persistent P H) (hs : s.Every P) (hl : ∀ e ∈ l, P e.1 e.2) :
    (l.foldl (fun s e => s.accumulate e.1 e.2) s).Every P :=
  List.foldlRecOn l _ hs fun _ hs e he => hs.accumulate hP (hl e he)

/-- One monomial with `H` among those that are there or are added is enough. -/
theorem has_accumulateAll (hP : Persistent P H) (hs : s.Every P) (hl : ∀ e ∈ l, P e.1 e.2)
    (h : s.Has H ∨ ∃ e ∈ l, H e.1) : (l.foldl (fun s e => s.accumulate e.1 e.2) s).Has H :=
  foldl_of_exists (K := (Every P ·)) (fun _ e he hs => hs.accumulate hP (hl e he))
    (fun _ e he hs => has_accumulate hP hs (hl e he)) hs h

/-- A constant has `P` if its number has it for the constant monomial. -/
theorem every_const (hP : Persistent P H) (hx : P [] x) : (const x).Every P :=
  every_zero.accumulate hP hx

/-- A parameter is the one monomial of its polynomial, with the number one. -/
theorem every_param {name : String} : (param name).Every P ↔ P [⟨name, 1⟩] 1 :=
  List.forall_mem_singleton

/-- A parameter has `H` if its monomial has. -/
theorem has_param {name : String} : (param name).Has H ↔ H [⟨name, 1⟩] := by
  simp [Has, param]

/-- A sum has `P` throughout if both operands have. -/
theorem Every.add (hP : Persistent P H) (hs : s.Every P) (ht : t.Every P) : (s + t).Every P :=
  hs.accumulateAll hP ht

/-- A monomial with `H` in one of the operands is not lost in the sum. -/
theorem has_add (hP : Persistent P H) (hs : s.Every P) (ht : t.Every P) (h : s.Has H ∨ t.Has H) :
    (s + t).Has H :=
  has_accumulateAll hP hs ht h

/-- What holds of the entries of a table after a change of its numbers. -/
theorem forall_mem_mapValues {f : Number → Number} (hs : s.Every P)
    (hf : ∀ m x, P m x → Q m (f x)) : ∀ e ∈ s.terms.mapValues f, Q e.1 e.2 :=
  List.forall_mem_map.mpr fun e he => hf _ _ (hs e he)

/-- If every number with `P` is changed into one with `Q`, the result has `Q` throughout. -/
theorem Every.mapCoefficients {f : Number → Number} (hQ : Persistent Q H) (hs : s.Every P)
    (hf : ∀ m x, P m x → Q m (f x)) : (s.mapCoefficients f).Every Q :=
  every_zero.accumulateAll hQ (forall_mem_mapValues hs hf)

/-- A monomial with `H` stays if the changed numbers are persistent. -/
theorem Has.mapCoefficients {f : Number → Number} (hQ : Persistent Q H) (h : s.Has H) (hs : s.Every P)
    (hf : ∀ m x, P m x → Q m (f x)) : (s.mapCoefficients f).Has H := by
  obtain ⟨e, he, hH⟩ := h
  exact has_accumulateAll hQ every_zero (forall_mem_mapValues hs hf)
    (.inr ⟨_, List.mem_map_of_mem he, hH⟩)

/-- A multiple has `Q` throughout if the factor is zero or turns all numbers with `P` into ones with `Q`.
-/
theorem Every.scale (hQ : Persistent Q H) (hs : s.Every P)
    (hf : k.isZero = false → ∀ m x, P m x → Q m (x * k)) : (s.scale k).Every Q := by
  rw [Symbolic.scale]
  split
  · exact every_zero
  · rename_i hk
    exact hs.mapCoefficients hQ (hf (by simpa using hk))

/-- A multiple by a number other than zero keeps a monomial with `H`. -/
theorem Has.scale (hQ : Persistent Q H) (h : s.Has H) (hs : s.Every P) (hk : k.isZero = false)
    (hf : ∀ m x, P m x → Q m (x * k)) : (s.scale k).Has H := by
  rw [Symbolic.scale, if_neg (by simp [hk])]
  exact h.mapCoefficients hQ hs hf

section Mul

variable (hR : Persistent R J) (hs : s.Every P) (ht : t.Every Q)
  (hmul : ∀ m x m' y, P m x → Q m' y → R (m.mul m') (x * y))

include hs ht hmul

/-- All products of monomials of the factors have `R`. -/
theorem forall_mem_products :
    ∀ e ∈ s.terms.flatMap fun u => t.terms.map fun v => (u.1.mul v.1, u.2 * v.2), R e.1 e.2 := by
  intro e he
  obtain ⟨u, hu, he⟩ := List.mem_flatMap.mp he
  obtain ⟨v, hv, rfl⟩ := List.mem_map.mp he
  exact hmul _ _ _ _ (hs u hu) (ht v hv)

include hR

/-- A product of polynomials has `R` throughout. -/
theorem Every.mul : (s * t).Every R := by
  rw [mul_eq]
  exact every_zero.accumulateAll hR (forall_mem_products hs ht hmul)

/-- A product of monomials that the factors have is found in the product. -/
theorem Has.mul (h : s.Has H) (h' : t.Has I) (hJ : ∀ m m', H m → I m' → J (m.mul m')) :
    (s * t).Has J := by
  obtain ⟨u, hu, hH⟩ := h
  obtain ⟨v, hv, hI⟩ := h'
  rw [mul_eq]
  exact has_accumulateAll hR every_zero (forall_mem_products hs ht hmul) (.inr ⟨_,
    List.mem_flatMap.mpr ⟨u, hu, List.mem_map_of_mem hv⟩, hJ _ _ hH hI⟩)

end Mul

end Symbolic

/-! ## Coefficients -/

namespace Coefficient

variable {a b : Coefficient} {s : Symbolic}

/-- All monomials and their numbers have the property. -/
def Every (P : Monomial → Number → Prop) (c : Coefficient) : Prop :=
  c.toSymbolic.Every P

/-- Some monomial has the property. -/
def Has (H : Monomial → Prop) (c : Coefficient) : Prop :=
  c.toSymbolic.Has H

/-- A number has every property that is open to constants. -/
theorem every_num (hP : PersistentBesideConstants P H) (x : Number) : (num x).Every P :=
  Symbolic.every_const hP.toPersistent (hP.constant x)

/-- In a number there is no monomial but the constant one. -/
theorem not_has_num (hH : ¬ H []) (x : Number) : ¬ (num x).Has H := by
  rintro ⟨e, he, hm⟩
  have hconstant := List.all_eq_true.mp (Symbolic.isConstant_const x) e he
  rw [List.isEmpty_iff.mp hconstant] at hm
  exact hH hm

/-- A coefficient with a monomial other than the constant one is a polynomial in parameters. -/
theorem Has.exists_sym (h : a.Has H) (hH : ¬ H []) : ∃ s, a = sym s ∧ s.Has H := by
  cases a with
  | num x => exact absurd h (not_has_num hH x)
  | sym s => exact ⟨s, rfl, h⟩

/-- A coefficient with a monomial other than the constant one is not zero. -/
theorem Has.isZero_eq_false (h : a.Has H) (hH : ¬ H []) : a.isZero = false := by
  obtain ⟨s, rfl, e, he, -⟩ := h.exists_sym hH
  exact List.isEmpty_eq_false_iff.mpr (List.ne_nil_of_mem he)

/-- A constant polynomial that is put back as a number keeps `P`. -/
theorem every_ofSymbolic (hP : PersistentBesideConstants P H) (hs : s.Every P) :
    (ofSymbolic s).Every P := by
  rw [ofSymbolic]
  split
  · exact every_num hP _
  · exact hs

/-- A polynomial with a monomial other than the constant one is not put back as a number. -/
theorem has_ofSymbolic (hs : s.Has H) (hH : ¬ H []) : (ofSymbolic s).Has H := by
  have hconstant : ¬ s.isConstant := by
    intro hall
    obtain ⟨e, he, hm⟩ := hs
    rw [List.isEmpty_iff.mp (List.all_eq_true.mp hall e he)] at hm
    exact hH hm
  rw [ofSymbolic, if_neg hconstant]
  exact hs

/-- A sum of coefficients has `P` throughout if both have, be they numbers or not. -/
theorem Every.add (hP : PersistentBesideConstants P H) (ha : a.Every P) (hb : b.Every P) :
    (a + b).Every P := by
  have hsum := every_ofSymbolic hP (Symbolic.Every.add hP.toPersistent ha hb)
  match a, b with
  | num x, num y => exact every_num hP (x + y)
  | num x, sym t => exact hsum
  | sym s, num y => exact hsum
  | sym s, sym t => exact hsum

/-- A sum of coefficients has a monomial with `H` if one of them has. -/
theorem has_add (hP : PersistentBesideConstants P H) (ha : a.Every P) (hb : b.Every P)
    (h : a.Has H ∨ b.Has H) : (a + b).Has H := by
  have hsum := has_ofSymbolic (Symbolic.has_add hP.toPersistent ha hb h) hP.not_constant
  match a, b with
  | num x, num y => exact (h.elim (not_has_num hP.not_constant x) (not_has_num hP.not_constant y)).elim
  | num x, sym t => exact hsum
  | sym s, num y => exact hsum
  | sym s, sym t => exact hsum

/-- The negative has `Q` throughout if the negative numbers have. -/
theorem Every.neg (hQ : PersistentBesideConstants Q H) (ha : a.Every P)
    (hneg : ∀ m x, P m x → Q m (-x)) : (-a).Every Q := by
  cases a with
  | num x => exact every_num hQ (-x)
  | sym s => exact Symbolic.Every.mapCoefficients hQ.toPersistent ha hneg

/-- The negative keeps a monomial with `H`. -/
theorem Has.neg (hQ : PersistentBesideConstants Q H) (h : a.Has H) (ha : a.Every P)
    (hneg : ∀ m x, P m x → Q m (-x)) : (-a).Has H := by
  obtain ⟨s, rfl, hs⟩ := h.exists_sym hQ.not_constant
  exact hs.mapCoefficients hQ.toPersistent ha hneg

/-- A number other than zero is the one entry of its polynomial. -/
theorem Every.of_num (h : (num k).Every P) (hk : k.isZero = false) : P [] k := by
  refine h ([], k) ?_
  rw [toSymbolic, Symbolic.const, Symbolic.accumulate, if_neg (by simp [hk])]
  exact List.mem_singleton_self _

/-- Products of monomials with `P` and `Q` have `R`. Where one of them is a number, it stands on the right
in the product of the numbers. -/
structure Multiplies (P Q R : Monomial → Number → Prop) : Prop where
  mul : ∀ m x m' y, P m x → Q m' y → R (m.mul m') (x * y)
  right : ∀ m x k, P m x → Q [] k → R m (x * k)
  left : ∀ m x k, Q m x → P [] k → R m (x * k)

section Mul

variable (hR : PersistentBesideConstants R J) (ha : a.Every P) (hb : b.Every Q) (h : Multiplies P Q R)

include hR ha hb h

/-- A product of coefficients has `R` throughout, with numbers on either side. -/
theorem Every.mul : (a * b).Every R := by
  match a, b with
  | num x, num y => exact every_num hR (x * y)
  | num k, sym t =>
    exact every_ofSymbolic hR (Symbolic.Every.scale hR.toPersistent hb fun hk m x hx =>
      h.left m x k hx (ha.of_num hk))
  | sym s, num k =>
    exact every_ofSymbolic hR (Symbolic.Every.scale hR.toPersistent ha fun hk m x hx =>
      h.right m x k hx (hb.of_num hk))
  | sym s, sym t => exact every_ofSymbolic hR (Symbolic.Every.mul hR.toPersistent ha hb h.mul)

/-- The product of two monomials is found in the product of the coefficients, if none of them is constant.
-/
theorem Has.mul (haH : a.Has H) (hbI : b.Has I) (hH : ¬ H []) (hI : ¬ I [])
    (hJ : ∀ m m', H m → I m' → J (m.mul m')) : (a * b).Has J := by
  obtain ⟨s, rfl, hs⟩ := haH.exists_sym hH
  obtain ⟨t, rfl, ht⟩ := hbI.exists_sym hI
  exact has_ofSymbolic (hs.mul hR.toPersistent ha hb h.mul ht hJ) hR.not_constant

/-- A factor on the right that is a number other than zero keeps a monomial with `J`. -/
theorem Has.mul_num (haJ : a.Has J) (hk : k.isZero = false) (hnum : b = num k) : (a * b).Has J := by
  obtain ⟨s, rfl, hs⟩ := haJ.exists_sym hR.not_constant
  subst hnum
  exact has_ofSymbolic (hs.scale hR.toPersistent ha hk fun m x hx =>
    h.right m x k hx (hb.of_num hk)) hR.not_constant

/-- A factor on the left that is a number other than zero keeps a monomial with `J`. -/
theorem Has.num_mul (hbJ : b.Has J) (hk : k.isZero = false) (hnum : a = num k) : (a * b).Has J := by
  obtain ⟨t, rfl, ht⟩ := hbJ.exists_sym hR.not_constant
  subst hnum
  exact has_ofSymbolic (ht.scale hR.toPersistent hb hk fun m x hx =>
    h.left m x k hx (ha.of_num hk)) hR.not_constant

end Mul

end Coefficient

/-! ## Polynomials -/

namespace Polynomial

variable {d : Domain} {V : Type} {p q : Polynomial d V} {c : Coefficient} {l : List (Term V × Coefficient)}
  {t : Term V}

/-- All monomials in the coefficients have the property with their numbers. -/
def Every (P : Monomial → Number → Prop) (p : Polynomial d V) : Prop :=
  ∀ e ∈ p.terms, e.2.Every P

/-- Some monomial in a coefficient has the property. -/
def Has (H : Monomial → Prop) (p : Polynomial d V) : Prop :=
  ∃ e ∈ p.terms, e.2.Has H

/-- A weaker property holds throughout a polynomial as well. -/
theorem Every.mono (hp : p.Every P) (h : ∀ m x, P m x → Q m x) : p.Every Q :=
  fun e he => Symbolic.Every.mono (hp e he) h

/-- Without terms there are no monomials. -/
theorem every_cleared (p : Polynomial d V) : p.cleared.Every P := by simp [Every, cleared]

/-- There are no monomials in the polynomial without terms. -/
theorem every_empty : (empty : Polynomial d V).Every P := by simp [Every, empty]

/-- Only numbers as coefficients. -/
theorem every_of_num (hP : PersistentBesideConstants P H) (hp : ∀ e ∈ p.terms, ∃ x, e.2 = .num x) :
    p.Every P := by
  intro e he
  obtain ⟨x, hx⟩ := hp e he
  exact hx ▸ Coefficient.every_num hP x

variable [Variable V]

/-- A coefficient with `P` throughout is added to that of a term, and so is the sum. -/
theorem Every.accumulate (hP : PersistentBesideConstants P H) (hp : p.Every P) (hc : c.Every P) :
    (p.accumulate t c).Every P := by
  rw [Polynomial.accumulate]
  split
  · exact hp
  refine Table.forall_mem_alter (P := fun e : Term V × Coefficient => e.2.Every P) hp fun v hv => ?_
  cases hold : p.terms.get? t with
  | none =>
    simp only [hold] at hv
    split at hv
    · cases hv
    · exact Option.some_inj.mp hv ▸ hc
  | some old =>
    simp only [hold] at hv
    split at hv
    · cases hv
    · exact Option.some_inj.mp hv ▸ .add hP (hp _ (Table.mem_of_get?_eq_some hold)) hc

/-- A monomial with `H` in a polynomial stays when a coefficient is added to one of its terms. -/
theorem has_accumulate (hP : PersistentBesideConstants P H) (hp : p.Every P) (hc : c.Every P)
    (h : p.Has H ∨ c.Has H) : (p.accumulate t c).Has H := by
  rw [accumulate]
  split
  · rename_i h0
    refine h.resolve_right fun hH => ?_
    rw [hH.isZero_eq_false hP.not_constant] at h0
    cases h0
  refine Table.exists_mem_alter (A := fun _ c => Coefficient.Every P c)
    (B := fun _ c => Coefficient.Has H c) hp (fun hH => ⟨c, ?_, hH⟩) (fun old hold hH => ?_) h
  · exact if_neg (by simp [hH.isZero_eq_false hP.not_constant])
  · have hsum := Coefficient.has_add hP hold hc hH
    exact ⟨old + c, if_neg (by simp [hsum.isZero_eq_false hP.not_constant]), hsum⟩

/-- Coefficients with `P` throughout are added one by one. -/
theorem Every.accumulateList (hP : PersistentBesideConstants P H) (hp : p.Every P)
    (hl : ∀ e ∈ l, e.2.Every P) : (p.accumulateList l).Every P :=
  List.foldlRecOn l _ hp fun _ hp e he => hp.accumulate hP (hl e he)

/-- One coefficient with `H` among those that are there or are added is enough. -/
theorem has_accumulateList (hP : PersistentBesideConstants P H) (hp : p.Every P)
    (hl : ∀ e ∈ l, e.2.Every P) (h : p.Has H ∨ ∃ e ∈ l, e.2.Has H) : (p.accumulateList l).Has H :=
  foldl_of_exists (K := (Every P ·)) (fun _ e he hp => hp.accumulate hP (hl e he))
    (fun _ e he hp => has_accumulate hP hp (hl e he)) hp h

/-- A constant with `P` throughout can be added. -/
theorem Every.addConstant (hP : PersistentBesideConstants P H) (hp : p.Every P) (hc : c.Every P) :
    (p.addConstant c).Every P :=
  hp.accumulate hP hc

/-- A sum of polynomials has `P` throughout if both operands have. -/
theorem Every.add (hP : PersistentBesideConstants P H) (hp : p.Every P) (hq : q.Every P) :
    (p + q).Every P :=
  Every.accumulateList (p := p.adopt q) hP hp hq

/-- A sum of polynomials has a monomial with `H` if one of them has. -/
theorem has_add (hP : PersistentBesideConstants P H) (hp : p.Every P) (hq : q.Every P)
    (h : p.Has H ∨ q.Has H) : (p + q).Has H :=
  has_accumulateList (p := p.adopt q) hP hp hq h

section Map

variable {f : Coefficient → Coefficient} (hQ : PersistentBesideConstants Q I)
  (hf : ∀ e ∈ p.terms, (f e.2).Every Q)

include hQ hf

/-- If all changed coefficients have `Q` throughout, so has the polynomial. -/
theorem every_mapCoefficients : (p.mapCoefficients f).Every Q := by
  rw [mapCoefficients_eq]
  exact (every_cleared p).accumulateList hQ (List.forall_mem_map.mpr hf)

/-- One coefficient with `I` after the change is enough. -/
theorem has_mapCoefficients (h : ∃ e ∈ p.terms, (f e.2).Has I) : (p.mapCoefficients f).Has I := by
  obtain ⟨e, he, hI⟩ := h
  rw [mapCoefficients_eq]
  exact has_accumulateList hQ (every_cleared p) (List.forall_mem_map.mpr hf)
    (.inr ⟨_, List.mem_map_of_mem he, hI⟩)

end Map

section Mul

variable (hR : PersistentBesideConstants R J) (hp : p.Every P) (hq : q.Every Q)
  (h : Coefficient.Multiplies P Q R)

include hR hp hq h

/-- The products of coefficients have `R` for all pairs of terms. -/
theorem forall_mem_productTerms : ∀ e ∈ productTerms p q, e.2.Every R := by
  intro e he
  obtain ⟨s, hs, he⟩ := List.mem_flatMap.mp he
  obtain ⟨t, ht, rfl⟩ := List.mem_map.mp he
  exact .mul hR (hp s hs) (hq t ht) h

/-- A product of polynomials has `R` throughout. -/
theorem Every.mul : (p * q).Every R := by
  rw [mul_eq]
  exact Every.accumulateList (p := p.cleared.adopt q) hR (every_cleared p)
    (forall_mem_productTerms hR hp hq h)

/-- What the product of two coefficients has is found in the product, whatever terms are equal. -/
theorem has_mul (hJ : ∃ s ∈ p.terms, ∃ t ∈ q.terms, (s.2 * t.2).Has J) : (p * q).Has J := by
  obtain ⟨s, hs, t, ht, hst⟩ := hJ
  rw [mul_eq]
  exact has_accumulateList (p := p.cleared.adopt q) hR (every_cleared p)
    (forall_mem_productTerms hR hp hq h)
    (.inr ⟨_, List.mem_flatMap.mpr ⟨s, hs, List.mem_map_of_mem ht⟩, hst⟩)

end Mul

end Polynomial

end PseudoBoolean

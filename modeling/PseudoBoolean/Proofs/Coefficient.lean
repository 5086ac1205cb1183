import PseudoBoolean.Coefficient
import PseudoBoolean.Proofs.Symbolic

/-!
# Coefficients as functions of the parameters

A coefficient in normal form is an exact number, or a normal symbolic value that does contain a
parameter. Under a valuation of the parameters the arithmetic of such coefficients is that of the
rational numbers, and it leads to normal forms again. A normal form is zero only as the number zero
(`Coefficient.Normal.isZero_iff`), and normal forms with equal values are equal
(`Coefficient.Normal.ext`).
-/

namespace PseudoBoolean

/-- A sequence of steps that succeeds consists of steps that succeed. -/
theorem exists_of_bind_eq_ok {ε α β : Type} {x : Except ε α} {f : α → Except ε β} {b : β}
    (h : x >>= f = .ok b) : ∃ a, x = .ok a ∧ f a = .ok b := by
  cases x with
  | error e => cases h
  | ok a => exact ⟨a, rfl, h⟩

/-- A sequence of two steps succeeds if both do. -/
theorem bind_eq_ok_iff {ε α β : Type} {x : Except ε α} {f : α → Except ε β} {b : β} :
    x >>= f = .ok b ↔ ∃ a, x = .ok a ∧ f a = .ok b :=
  ⟨exists_of_bind_eq_ok, fun ⟨_, hx, hf⟩ => hx ▸ hf⟩

/-- The result of a mapped computation comes from a result of the computation. -/
theorem exists_of_map_eq_ok {ε α β : Type} {x : Except ε α} {f : α → β} {b : β}
    (h : x.map f = .ok b) : ∃ a, x = .ok a ∧ f a = b := by
  cases x with
  | error e => cases h
  | ok a => exact ⟨a, rfl, Except.ok.inj h⟩

/-- A list is read if each of its items is. -/
theorem forall₂_of_mapM {ε α β : Type} {f : α → Except ε β} {l : List α} {l' : List β}
    (h : l.mapM f = .ok l') : List.Forall₂ (fun a b => f a = .ok b) l l' := by
  induction l generalizing l' with
  | nil => exact Except.ok.inj h ▸ .nil
  | cons a l ih =>
    rw [List.mapM_cons] at h
    obtain ⟨b, hb, h⟩ := exists_of_bind_eq_ok h
    obtain ⟨bs, hbs, h⟩ := exists_of_bind_eq_ok h
    exact Except.ok.inj h ▸ .cons hb (ih hbs)

/-- A list is read item by item if no item fails. -/
theorem mapM_eq_ok {ε α β : Type} {f : α → Except ε β} {g : α → β} {l : List α}
    (h : ∀ a ∈ l, f a = .ok (g a)) : l.mapM f = .ok (l.map g) := by
  induction l with
  | nil => rfl
  | cons a l ih =>
    obtain ⟨ha, hl⟩ := List.forall_mem_cons.mp h
    rw [List.mapM_cons, ha, ih hl]
    rfl

/-- A list can be read if each of its items can be. -/
theorem exists_mapM_eq_ok {ε α β : Type} {f : α → Except ε β} {l : List α}
    (h : ∀ a ∈ l, ∃ b, f a = .ok b) : ∃ l', l.mapM f = .ok l' := by
  induction l with
  | nil => exact ⟨[], rfl⟩
  | cons a l ih =>
    obtain ⟨⟨b, hb⟩, hl⟩ := List.forall_mem_cons.mp h
    obtain ⟨bs, hbs⟩ := ih hl
    exact ⟨b :: bs, by rw [List.mapM_cons, hb, hbs]; rfl⟩

/-- In related lists every item of one has a partner in the other. -/
theorem exists_mem_of_forall₂ {α β : Type} {R : α → β → Prop} {l : List α} {l' : List β}
    (h : List.Forall₂ R l l') : (∀ a ∈ l, ∃ b ∈ l', R a b) ∧ ∀ b ∈ l', ∃ a ∈ l, R a b := by
  induction h with
  | nil => simp
  | @cons a b l l' hab _ ih =>
    refine ⟨List.forall_mem_cons.mpr ⟨⟨b, List.mem_cons_self, hab⟩, fun a' ha' => ?_⟩,
      List.forall_mem_cons.mpr ⟨⟨a, List.mem_cons_self, hab⟩, fun b' hb' => ?_⟩⟩
    · exact (ih.1 a' ha').imp fun _ h => ⟨List.mem_cons_of_mem _ h.1, h.2⟩
    · exact (ih.2 b' hb').imp fun _ h => ⟨List.mem_cons_of_mem _ h.1, h.2⟩

namespace Symbolic

variable {s : Symbolic} {ρ : String → ℚ}

/-- A normal form without parameters is the constant of its constant part. -/
theorem Normal.eq_const_of_isConstant (hs : s.Normal) (h : s.isConstant) :
    s.constantPart.isExact ∧ s = Symbolic.const s.constantPart := by
  obtain ⟨l⟩ := s
  have hempty : ∀ e ∈ l, e.1 = [] := by simpa [isConstant] using h
  match l, hempty, hs with
  | [], _, _ => exact ⟨rfl, rfl⟩
  | [(m, c)], hempty, hs =>
    obtain rfl : m = [] := hempty (m, c) (by simp)
    obtain ⟨-, hc, hne⟩ := hs.entries ([], c) (by simp)
    have h0 : c.isZero = false := (Number.isZero_eq_false_iff hc).mpr hne
    exact ⟨hc, by simp [Symbolic.const, Symbolic.accumulate, Symbolic.zero, constantPart,
      Table.get?, Table.alter, h0]⟩
  | e :: e' :: l, hempty, hs =>
    have hlt := (Table.sorted_cons.mp hs.sorted).1 e' (by simp)
    rw [hempty e (by simp), hempty e' (by simp)] at hlt
    simp at hlt

/-- No parameter occurs in a constant. -/
theorem isConstant_const (c : Number) : (Symbolic.const c).isConstant := by
  rw [const, accumulate]
  split <;> simp [isConstant, zero, Table.alter]

end Symbolic

namespace Coefficient

variable {a b c : Coefficient} {s : Symbolic} {k : Number} {ρ : String → ℚ}

/-- An exact number, or a normal symbolic value that contains a parameter. -/
def Normal : Coefficient → Prop
  | num n => n.isExact
  | sym s => s.Normal ∧ s.isConstant = false

/-- The value under a valuation of the parameters. -/
def eval (ρ : String → ℚ) : Coefficient → ℚ
  | num n => n.rat
  | sym s => s.eval ρ

/-- The value of a number is the number, under any valuation. -/
@[simp]
theorem eval_num (n : Number) : eval ρ (num n) = n.rat := rfl

/-- Exact numbers are normal. -/
@[simp]
theorem normal_exact (q : ℚ) : Normal (num (.exact q)) := rfl

/-- A parameter is normal. -/
theorem normal_param (name : String) : Normal (param name) :=
  ⟨Symbolic.Normal.param name, rfl⟩

@[simp]
theorem eval_zero : eval ρ 0 = 0 := rfl

@[simp]
theorem eval_one : eval ρ 1 = 1 := rfl

/-- The value of a parameter is what the valuation gives it. -/
@[simp]
theorem eval_param (name : String) : eval ρ (param name) = ρ name := by
  simp [param, eval, Symbolic.param, Symbolic.eval, Monomial.eval, show Number.rat 1 = 1 from rfl]

/-! ## Between the two forms -/

/-- A normal coefficient is a normal polynomial in parameters. -/
theorem Normal.toSymbolic (hc : c.Normal) : c.toSymbolic.Normal := by
  cases c with
  | num n => exact Symbolic.Normal.const hc
  | sym s => exact hc.1

/-- A coefficient keeps its value as a polynomial in parameters. -/
theorem eval_toSymbolic (hc : c.Normal) : c.toSymbolic.eval ρ = c.eval ρ := by
  cases c with
  | num n => exact Symbolic.eval_const hc
  | sym s => rfl

/-- A normal polynomial becomes a normal coefficient, which is a number if no parameter occurs. -/
theorem normal_ofSymbolic (hs : s.Normal) : (ofSymbolic s).Normal := by
  rw [ofSymbolic]
  split
  · rename_i h
    exact (hs.eq_const_of_isConstant h).1
  · rename_i h
    exact ⟨hs, by simpa using h⟩

/-- A polynomial in parameters keeps its value as a coefficient. -/
theorem eval_ofSymbolic (hs : s.Normal) : (ofSymbolic s).eval ρ = s.eval ρ := by
  rw [ofSymbolic]
  split
  · rename_i h
    obtain ⟨hexact, heq⟩ := hs.eq_const_of_isConstant h
    conv_rhs => rw [heq, Symbolic.eval_const hexact]
    rfl
  · rfl

/-! ## Arithmetic -/

/-- The sum of normal coefficients is normal. -/
theorem Normal.add (ha : a.Normal) (hb : b.Normal) : (a + b).Normal := by
  match a, b, ha, hb with
  | num x, num y, ha, hb => exact Number.isExact_add ha hb
  | num x, sym t, ha, hb => exact normal_ofSymbolic (ha.toSymbolic.add hb.toSymbolic)
  | sym s, num y, ha, hb => exact normal_ofSymbolic (ha.toSymbolic.add hb.toSymbolic)
  | sym s, sym t, ha, hb => exact normal_ofSymbolic (ha.toSymbolic.add hb.toSymbolic)

/-- The value of a sum is the sum of the values. -/
theorem eval_add (ha : a.Normal) (hb : b.Normal) : eval ρ (a + b) = eval ρ a + eval ρ b := by
  have hsym : (Coefficient.ofSymbolic (a.toSymbolic + b.toSymbolic)).eval ρ =
      eval ρ a + eval ρ b := by
    rw [eval_ofSymbolic (ha.toSymbolic.add hb.toSymbolic),
      Symbolic.eval_add ha.toSymbolic hb.toSymbolic, eval_toSymbolic ha, eval_toSymbolic hb]
  match a, b, ha, hb with
  | num x, num y, ha, hb => exact Number.rat_add ha hb
  | num x, sym t, _, _ => exact hsym
  | sym s, num y, _, _ => exact hsym
  | sym s, sym t, _, _ => exact hsym

/-- A magnitude is a number, and that of an exact number is exact. -/
theorem Normal.abs {n : Number} (ha : a.Normal) (h : a.abs = .ok n) : (num n).Normal := by
  cases a with
  | num x =>
    obtain ⟨q, rfl⟩ := Number.isExact_iff.mp ha
    obtain rfl := Except.ok.inj h
    rfl
  | sym s => cases h

/-- The negative of a normal coefficient is normal. -/
theorem Normal.neg (ha : a.Normal) : (-a).Normal := by
  cases a with
  | num x => exact Number.isExact_neg ha
  | sym s =>
    refine ⟨ha.1.neg, ?_⟩
    by_contra hconst
    rw [Bool.not_eq_false] at hconst
    -- the negation of a constant is a constant, so `s` would be one
    obtain ⟨hexact, heq⟩ := ha.1.neg.eq_const_of_isConstant hconst
    have hs : s = Symbolic.const (-(-s).constantPart) := by
      refine ha.1.ext (Symbolic.Normal.const (Number.isExact_neg hexact)) fun ρ => ?_
      have hval : Symbolic.eval ρ (-s) = (-s).constantPart.rat := by
        conv_lhs => rw [heq, Symbolic.eval_const hexact]
      rw [Symbolic.eval_const (Number.isExact_neg hexact), Number.rat_neg hexact, ← hval,
        Symbolic.eval_neg ha.1, neg_neg]
    have hfalse := ha.2
    rw [hs, Symbolic.isConstant_const] at hfalse
    exact absurd hfalse (by decide)

/-- The value of the negative is the negative value. -/
theorem eval_neg (ha : a.Normal) : eval ρ (-a) = -eval ρ a := by
  cases a with
  | num x => exact Number.rat_neg ha
  | sym s => exact Symbolic.eval_neg ha.1

/-- The difference of normal coefficients is normal. -/
theorem Normal.sub (ha : a.Normal) (hb : b.Normal) : (a - b).Normal := by
  match a, b, ha, hb with
  | num x, num y, ha, hb =>
    obtain ⟨p, rfl⟩ := Number.isExact_iff.mp ha
    obtain ⟨q, rfl⟩ := Number.isExact_iff.mp hb
    rfl
  | num x, sym t, ha, hb => exact normal_ofSymbolic (ha.toSymbolic.sub hb.toSymbolic)
  | sym s, num y, ha, hb => exact normal_ofSymbolic (ha.toSymbolic.sub hb.toSymbolic)
  | sym s, sym t, ha, hb => exact normal_ofSymbolic (ha.toSymbolic.sub hb.toSymbolic)

/-- The value of a difference is the difference of the values. -/
theorem eval_sub (ha : a.Normal) (hb : b.Normal) : eval ρ (a - b) = eval ρ a - eval ρ b := by
  have hsym : (Coefficient.ofSymbolic (a.toSymbolic - b.toSymbolic)).eval ρ =
      eval ρ a - eval ρ b := by
    rw [eval_ofSymbolic (ha.toSymbolic.sub hb.toSymbolic),
      Symbolic.eval_sub ha.toSymbolic hb.toSymbolic, eval_toSymbolic ha, eval_toSymbolic hb]
  match a, b, ha, hb with
  | num x, num y, ha, hb =>
    obtain ⟨p, rfl⟩ := Number.isExact_iff.mp ha
    obtain ⟨q, rfl⟩ := Number.isExact_iff.mp hb
    rfl
  | num x, sym t, _, _ => exact hsym
  | sym s, num y, _, _ => exact hsym
  | sym s, sym t, _, _ => exact hsym

/-- The product of normal coefficients is normal. -/
theorem Normal.mul (ha : a.Normal) (hb : b.Normal) : (a * b).Normal := by
  match a, b, ha, hb with
  | num x, num y, ha, hb => exact Number.isExact_mul ha hb
  | num x, sym t, ha, hb => exact normal_ofSymbolic (hb.1.scale ha)
  | sym s, num y, ha, hb => exact normal_ofSymbolic (ha.1.scale hb)
  | sym s, sym t, ha, hb => exact normal_ofSymbolic (ha.1.mul hb.1)

/-- The value of a product is the product of the values. -/
theorem eval_mul (ha : a.Normal) (hb : b.Normal) : eval ρ (a * b) = eval ρ a * eval ρ b := by
  match a, b, ha, hb with
  | num x, num y, ha, hb => exact Number.rat_mul ha hb
  | num x, sym t, ha, hb =>
    exact (eval_ofSymbolic (hb.1.scale ha)).trans
      ((Symbolic.eval_scale hb.1 ha).trans (mul_comm _ _))
  | sym s, num y, ha, hb =>
    exact (eval_ofSymbolic (ha.1.scale hb)).trans (Symbolic.eval_scale ha.1 hb)
  | sym s, sym t, ha, hb =>
    exact (eval_ofSymbolic (ha.1.mul hb.1)).trans (Symbolic.eval_mul ha.1 hb.1)

/-! ## Equality of values -/

/-- Normal forms with the same value under every valuation are equal. -/
theorem Normal.ext (ha : a.Normal) (hb : b.Normal) (h : ∀ ρ, eval ρ a = eval ρ b) : a = b := by
  have hsym : a.toSymbolic = b.toSymbolic := ha.toSymbolic.ext hb.toSymbolic fun ρ => by
    rw [eval_toSymbolic ha, eval_toSymbolic hb, h]
  match a, b, ha, hb with
  | num x, num y, ha, hb =>
    have hrat : x.rat = y.rat := h 0
    rw [Number.eq_exact_rat ha, Number.eq_exact_rat hb, hrat]
  | num x, sym t, _, hb =>
    have hconst : t.isConstant = false := hb.2
    rw [show t = Symbolic.const x from hsym.symm, Symbolic.isConstant_const] at hconst
    exact absurd hconst (by decide)
  | sym s, num y, ha, _ =>
    have hconst : s.isConstant = false := ha.2
    rw [show s = Symbolic.const y from hsym, Symbolic.isConstant_const] at hconst
    exact absurd hconst (by decide)
  | sym s, sym t, _, _ => exact congrArg sym hsym

/-- A normal form is zero if its value is zero under every valuation. -/
theorem Normal.isZero_iff (ha : a.Normal) : a.isZero ↔ ∀ ρ, eval ρ a = 0 := by
  cases a with
  | num x =>
    rw [isZero, Number.isZero_iff ha]
    exact ⟨fun h _ => h, fun h => h 0⟩
  | sym s =>
    have hne : (sym s).isZero = false := by
      by_contra h
      simp only [isZero, Symbolic.isZero, Bool.not_eq_false, List.isEmpty_iff] at h
      have := ha.2
      simp [Symbolic.isConstant, h] at this
    rw [hne]
    refine iff_of_false (by decide) fun h => ?_
    have heq : sym s = num (.exact 0) := ha.ext (normal_exact 0) h
    simp at heq

/-- A coefficient that tests as zero has the value zero. -/
theorem eval_eq_zero_of_isZero (ha : a.Normal) (h : a.isZero) (ρ : String → ℚ) : eval ρ a = 0 :=
  ha.isZero_iff.mp h ρ

/-- The negative tests as zero if and only if the coefficient does. -/
theorem Normal.isZero_neg (ha : a.Normal) : (-a).isZero = a.isZero := by
  rw [Bool.eq_iff_iff, ha.neg.isZero_iff, ha.isZero_iff]
  simp only [eval_neg ha, neg_eq_zero]

/-- The negative is a number if and only if the coefficient is, and then the negative one. -/
theorem Normal.toNumber_neg (ha : a.Normal) : (-a).toNumber = a.toNumber.map (- ·) := by
  cases a with
  | num n => rfl
  | sym s => exact congrArg (fun names => Except.error (CoefficientError.unresolved names)) ha.1.params_neg

/-- The negative of a sum is the sum of the negatives. -/
theorem Normal.neg_add (ha : a.Normal) (hb : b.Normal) : -a + -b = -(a + b) :=
  (ha.neg.add hb.neg).ext (ha.add hb).neg fun ρ => by
    rw [eval_add ha.neg hb.neg, eval_neg ha, eval_neg hb, eval_neg (ha.add hb), eval_add ha hb]
    ring

/-- The negative of a difference is the difference of the negatives. -/
theorem Normal.neg_sub (ha : a.Normal) (hb : b.Normal) : -a - -b = -(a - b) :=
  (ha.neg.sub hb.neg).ext (ha.sub hb).neg fun ρ => by
    rw [eval_sub ha.neg hb.neg, eval_neg ha, eval_neg hb, eval_neg (ha.sub hb), eval_sub ha hb]
    ring

/-! ## Rational coefficients -/

/-- The coefficient is an exact number. -/
def IsRational (c : Coefficient) : Prop :=
  ∃ q : ℚ, c = num (.exact q)

instance : DecidablePred IsRational
  | num (.exact q) => .isTrue ⟨q, rfl⟩
  | num (.float _) => .isFalse fun ⟨_, h⟩ => nomatch h
  | sym _ => .isFalse fun ⟨_, h⟩ => nomatch h

/-- Rational numbers are normal. -/
theorem IsRational.normal (h : c.IsRational) : c.Normal := by
  obtain ⟨q, rfl⟩ := h
  rfl

/-- A number in normal form is rational. -/
theorem Normal.isRational_num {n : Number} (h : (num n).Normal) : (num n).IsRational :=
  ⟨n.rat, congrArg num (Number.eq_exact_rat h)⟩

/-- The magnitude of a rational number is one. -/
theorem IsRational.abs {n : Number} (ha : a.IsRational) (h : a.abs = .ok n) :
    (num n).IsRational := by
  obtain ⟨p, rfl⟩ := ha
  obtain rfl := Except.ok.inj h
  exact ⟨_, rfl⟩

/-- A rational number is its value under any valuation. -/
theorem IsRational.eq_eval (h : c.IsRational) (ρ : String → ℚ) : c = num (.exact (eval ρ c)) := by
  obtain ⟨q, rfl⟩ := h
  rfl

/-- Rational numbers are closed under addition. -/
theorem IsRational.add (ha : a.IsRational) (hb : b.IsRational) : (a + b).IsRational := by
  obtain ⟨p, rfl⟩ := ha
  obtain ⟨q, rfl⟩ := hb
  exact ⟨p + q, rfl⟩

/-- Rational numbers are closed under subtraction. -/
theorem IsRational.sub (ha : a.IsRational) (hb : b.IsRational) : (a - b).IsRational := by
  obtain ⟨p, rfl⟩ := ha
  obtain ⟨q, rfl⟩ := hb
  exact ⟨p - q, rfl⟩

/-- Rational numbers are closed under multiplication. -/
theorem IsRational.mul (ha : a.IsRational) (hb : b.IsRational) : (a * b).IsRational := by
  obtain ⟨p, rfl⟩ := ha
  obtain ⟨q, rfl⟩ := hb
  exact ⟨p * q, rfl⟩

/-- Rational numbers are closed under negation. -/
theorem IsRational.neg (ha : a.IsRational) : (-a).IsRational := by
  obtain ⟨p, rfl⟩ := ha
  exact ⟨-p, rfl⟩

end Coefficient

end PseudoBoolean

import PseudoBoolean.Polynomial.Evaluation
import PseudoBoolean.Proofs.Polynomial.WellFormed

/-!
# Values and bounds

An assignment that gives every occurring variable a value of the domain determines a point
(`Assignment.point`). The value of the polynomial at the assignment is then defined, and it is the
coefficient whose value is that of the polynomial at the point (`value_eq`); without parameters it is
the exact number (`valueNumber_eq`). If an occurring variable is left out, there is no value
(`exists_valueNumber_iff`). The computed bounds enclose the values at all points (`bounds_eq`).
-/

namespace PseudoBoolean

/-! ## Assignments as points -/

namespace Assignment

variable {d : Domain} {V : Type} [Variable V] {a b : Assignment V} {vars : List V} {v : V}

/-- Every variable of a list has a value of the domain. -/
def Covers (d : Domain) (vars : List V) (a : Assignment V) : Prop :=
  ∀ v ∈ vars, ∃ n, a.get? v = some n ∧ d.contains n

/-- The point that an assignment stands for. Where it has no value of the domain, the first counts. -/
def point (d : Domain) (a : Assignment V) (v : V) : ℚ :=
  match a.get? v with
  | some n => if d.contains n then n else (d.ofBit false : ℤ)
  | none => (d.ofBit false : ℤ)

/-- An assignment gives a point of the domain, with a default where it gives nothing in the domain. -/
theorem isPoint_point (d : Domain) (a : Assignment V) : d.IsPoint (a.point d) := fun v => by
  rw [point]
  split
  · split
    · rename_i h
      exact Domain.isValue_of_contains h
    · exact Domain.isValue_ofBit d false
  · exact Domain.isValue_ofBit d false

theorem point_eq {n : ℤ} (h : a.get? v = some n) (hn : d.contains n) : a.point d v = n := by
  rw [point, h]
  exact if_pos hn

/-- An assignment that covers variables covers fewer of them. -/
theorem Covers.mono {vars' : List V} (h : Covers d vars a) (hsub : ∀ v ∈ vars', v ∈ vars) :
    Covers d vars' a :=
  fun v hv => h v (hsub v hv)

/-- The assignment with the values of a function on some variables. -/
def override (vars : List V) (f : V → ℤ) (a : Assignment V) : Assignment V :=
  vars.foldl (fun a v => Table.insert v (f v) a) a

/-- Overriding sets the variables listed and leaves the others. -/
theorem get?_override (vars : List V) (f : V → ℤ) (a : Assignment V) (v : V) :
    (override vars f a).get? v = if v ∈ vars then some (f v) else a.get? v := by
  induction vars generalizing a with
  | nil => rfl
  | cons w vars ih =>
    have hstep : (override (w :: vars) f a).get? v =
        if v ∈ vars then some (f v) else (Table.insert w (f w) a).get? v := ih _
    rw [hstep]
    by_cases hv : v ∈ vars
    · rw [if_pos hv, if_pos (List.mem_cons_of_mem w hv)]
    · rw [if_neg hv]
      by_cases hw : v = w
      · subst hw
        rw [if_pos List.mem_cons_self, Table.get?_insert_self]
      · rw [if_neg (by simp [hw, hv]), Table.get?_insert_of_ne hw]

/-- An assignment can be given the values of a point on finitely many variables. -/
theorem exists_override {x : V → ℚ} (hx : d.IsPoint x) (vars : List V) (a : Assignment V) :
    ∃ b : Assignment V, Covers d vars b ∧ (∀ v ∈ vars, b.point d v = x v) ∧
      ∀ v ∉ vars, b.get? v = a.get? v := by
  choose f hf using hx
  have hget : ∀ v ∈ vars, (override vars (fun v => d.ofBit (f v)) a).get? v = some (d.ofBit (f v)) :=
    fun v hv => by rw [get?_override, if_pos hv]
  have hcontains : ∀ v, d.contains (d.ofBit (f v)) := fun v => Domain.contains_iff.mpr ⟨_, rfl⟩
  refine ⟨_, fun v hv => ⟨_, hget v hv, hcontains v⟩, fun v hv => ?_, fun v hv => ?_⟩
  · rw [point_eq (hget v hv) (hcontains v), hf v]
  · rw [get?_override, if_neg hv]

theorem point_congr (h : b.get? v = a.get? v) : b.point d v = a.point d v := by
  rw [point, point, h]

/-- A sorted assignment that has exactly some variables, all with values of the domain. -/
structure IsOn (d : Domain) (P : V → Prop) (a : Assignment V) : Prop where
  sorted : a.Sorted
  keys : ∀ v, v ∈ Table.keys a ↔ P v
  values : ∀ e ∈ a, d.contains e.2

namespace IsOn

variable {P : V → Prop} {n : ℤ}

/-- An assignment on a set of variables gives each of them a value of the domain. -/
theorem exists_get? (h : IsOn d P a) (hv : P v) : ∃ b, a.get? v = some (d.ofBit b) := by
  obtain ⟨n, hn⟩ := Table.mem_keys.mp ((h.keys v).mpr hv)
  obtain ⟨b, rfl⟩ := Domain.contains_iff.mp (h.values _ hn)
  exact ⟨b, (Table.get?_eq_some_iff h.sorted).mpr hn⟩

/-- An assignment on a set of variables covers any list of them. -/
theorem covers (h : IsOn d P a) (hvars : ∀ v ∈ vars, P v) : Covers d vars a := by
  intro v hv
  obtain ⟨b, hb⟩ := h.exists_get? (hvars v hv)
  exact ⟨_, hb, Domain.contains_iff.mpr ⟨b, rfl⟩⟩

theorem congr {Q : V → Prop} (h : IsOn d P a) (hPQ : ∀ v, P v ↔ Q v) : IsOn d Q a :=
  ⟨h.sorted, fun v => (h.keys v).trans (hPQ v), h.values⟩

/-- The value of a variable is that of the point. -/
theorem point_eq (h : IsOn d P a) (hn : (v, n) ∈ a) : a.point d v = n :=
  Assignment.point_eq ((Table.get?_eq_some_iff h.sorted).mpr hn) (h.values _ hn)

/-- Two assignments on the same variables that agree as points have the same entries. -/
theorem mem_of_mem (ha : IsOn d P a) (hb : IsOn d P b) (h : ∀ v, P v → a.point d v = b.point d v)
    (hn : (v, n) ∈ a) : (v, n) ∈ b := by
  have hv := (ha.keys v).mp (Table.mem_keys.mpr ⟨n, hn⟩)
  obtain ⟨n', hn'⟩ := Table.mem_keys.mp ((hb.keys v).mpr hv)
  have hsame := h v hv
  rw [ha.point_eq hn, hb.point_eq hn', Int.cast_inj] at hsame
  rwa [hsame]

/-- Such an assignment is determined by its point. -/
theorem ext (ha : IsOn d P a) (hb : IsOn d P b) (h : ∀ v, P v → a.point d v = b.point d v) :
    a = b := by
  apply ha.sorted.ext hb.sorted
  intro v n
  constructor
  · exact ha.mem_of_mem hb h
  · exact hb.mem_of_mem ha fun w hw => (h w hw).symm

end IsOn

end Assignment

namespace Polynomial

variable {d : Domain} {V : Type} [Variable V] {K : Coefficient → Prop} [Coefficient.Kind K]
  {p : Polynomial d V} {a b : Assignment V} {ρ : String → ℚ}

/-! ## Values -/

/-- A variable that is given a value of the domain has this value. -/
theorem valueOf_eq {v : V} {n : ℤ} (h : a.get? v = some n) (hn : d.contains n) :
    valueOf d a v = .ok n := by
  simp [valueOf, h, hn]

/-- The value of a term is a product of values of the domain: zero, one or minus one. -/
theorem termValue_eq {t : Term V} (h : Assignment.Covers d t a) :
    ∃ n : ℤ, termValue d a t = .ok n ∧ (n : ℚ) = Term.eval (a.point d) t ∧
      (n = 0 ∨ n = 1 ∨ n = -1) := by
  have key : ∀ (t : Term V) (m : ℤ), Assignment.Covers d t a → (m = 0 ∨ m = 1 ∨ m = -1) →
      ∃ n : ℤ, t.foldlM (fun product v => do return product * (← valueOf d a v)) m =
          (.ok n : Except Error ℤ) ∧
        (n : ℚ) = m * Term.eval (a.point d) t ∧ (n = 0 ∨ n = 1 ∨ n = -1) := by
    intro t
    induction t with
    | nil => exact fun m _ hm => ⟨m, rfl, by simp, hm⟩
    | cons v t ih =>
      intro m h hm
      obtain ⟨⟨k, hk, hdom⟩, ht⟩ := List.forall_mem_cons.mp h
      have hmk : m * k = 0 ∨ m * k = 1 ∨ m * k = -1 := by
        obtain ⟨b, rfl⟩ := Domain.contains_iff.mp hdom
        rcases hm with rfl | rfl | rfl <;> cases d <;> cases b <;> simp [Domain.ofBit]
      obtain ⟨n, hn, heval, hvalue⟩ := ih (m * k) ht hmk
      refine ⟨n, ?_, ?_, hvalue⟩
      · rw [List.foldlM_cons, valueOf_eq hk hdom]
        exact hn
      · rw [heval, Term.eval_cons, Assignment.point_eq hk hdom]
        push_cast
        ring
  obtain ⟨n, hn, heval, hvalue⟩ := key t 1 h (.inr (.inl rfl))
  exact ⟨n, hn, by simpa using heval, hvalue⟩

/-- Adding a coefficient times a sign keeps its kind and is evaluated so. -/
theorem addSigned_spec {sum c : Coefficient} {n : ℤ} (hsum : K sum) (hc : K c)
    (hn : n = 0 ∨ n = 1 ∨ n = -1) :
    K (addSigned sum n c) ∧ ∀ ρ, (addSigned sum n c).eval ρ = sum.eval ρ + c.eval ρ * n := by
  have hnormal := Coefficient.Kind.normal hsum
  have hnormal' := Coefficient.Kind.normal hc
  rcases hn with rfl | rfl | rfl
  · exact ⟨hsum, fun ρ => by simp [addSigned]⟩
  · exact ⟨Coefficient.Closed.add hsum hc, fun ρ => by
      rw [addSigned, if_pos rfl, Coefficient.eval_add hnormal hnormal']
      simp⟩
  · exact ⟨Coefficient.Closed.sub hsum hc, fun ρ => by
      rw [addSigned, if_neg (by decide), if_pos rfl, Coefficient.eval_sub hnormal hnormal']
      push_cast
      ring⟩

/-- At an assignment of all occurring variables the value is defined, and it is the value at the
point. -/
theorem value_eq (hp : p.WellFormed K) (h : Assignment.Covers d p.vars a) :
    ∃ c, p.value a = .ok c ∧ K c ∧ ∀ ρ, c.eval ρ = p.eval ρ (a.point d) := by
  have key : ∀ (l : List (Term V × Coefficient)) (sum : Coefficient), K sum → Addable K l →
      (∀ e ∈ l, Assignment.Covers d e.1 a) →
      ∃ c, l.foldlM (fun sum t => do return addSigned sum (← termValue d a t.1) t.2) sum =
          (.ok c : Except Error Coefficient) ∧ K c ∧
        ∀ ρ, c.eval ρ = sum.eval ρ + weighted ρ (Term.eval (a.point d)) l := by
    intro l
    induction l with
    | nil => exact fun sum hsum _ _ => ⟨sum, rfl, hsum, by simp⟩
    | cons e l ih =>
      intro sum hsum hl hcovers
      obtain ⟨⟨-, hc⟩, hl⟩ := List.forall_mem_cons.mp hl
      obtain ⟨he, hcovers⟩ := List.forall_mem_cons.mp hcovers
      obtain ⟨n, hn, heval, hvalue⟩ := termValue_eq he
      obtain ⟨hstep, hstepEval⟩ := addSigned_spec hsum hc hvalue
      obtain ⟨c, hok, hK, hcEval⟩ := ih _ hstep hl hcovers
      refine ⟨c, ?_, hK, fun ρ => ?_⟩
      · rw [List.foldlM_cons, hn]
        exact hok
      · rw [hcEval, hstepEval, weighted_cons, heval]
        ring
  obtain ⟨c, hok, hK, hc⟩ := key p.terms 0 (Coefficient.kind_ofNat 0) hp.terms.addable
    fun e he v hv => h v (mem_vars.mpr ⟨e, he, hv⟩)
  exact ⟨c, hok, hK, fun ρ => by rw [hc, Coefficient.eval_zero, zero_add, Polynomial.eval]⟩

/-- Without parameters the value is the exact number. -/
theorem valueNumber_eq (hp : p.WellFormed Coefficient.IsRational)
    (h : Assignment.Covers d p.vars a) (ρ : String → ℚ) :
    p.valueNumber a = .ok (.exact (p.eval ρ (a.point d))) := by
  obtain ⟨c, hok, hc, heval⟩ := value_eq hp h
  rw [valueNumber, hok, ← heval, hc.eq_eval ρ]
  rfl

theorem valueOf_congr {v : V} (h : b.get? v = a.get? v) : valueOf d b v = valueOf d a v := by
  rw [valueOf, valueOf, h]

/-- The value, or the error, depends on the occurring variables alone. -/
theorem valueNumber_congr (h : ∀ v ∈ p.vars, b.get? v = a.get? v) :
    p.valueNumber b = p.valueNumber a := by
  have hterm : ∀ e ∈ p.terms, termValue d b e.1 = termValue d a e.1 := fun e he =>
    foldlM_congr (fun product v hv => by rw [valueOf_congr (h v (mem_vars.mpr ⟨e, he, hv⟩))]) 1
  have hvalue : p.value b = p.value a :=
    foldlM_congr (fun sum e he => by rw [hterm e he]) 0
  rw [valueNumber, valueNumber, hvalue]

/-- A value that is a number is an exact number, with parameters as well. -/
theorem exists_exact_of_valueNumber (hp : p.WellFormed Coefficient.Normal)
    (h : Assignment.Covers d p.vars a) {x : Number} (hx : p.valueNumber a = .ok x) :
    ∃ q : ℚ, x = .exact q := by
  obtain ⟨c, hok, hc, -⟩ := value_eq hp h
  rw [valueNumber, hok] at hx
  cases c with
  | num n =>
    obtain rfl := Except.ok.inj hx
    exact Number.isExact_iff.mp hc
  | sym s => cases hx

/-- There is a value only if all occurring variables have one. -/
theorem exists_get?_of_valueNumber {x : Number} (h : p.valueNumber a = .ok x) {v : V}
    (hv : v ∈ p.vars) : ∃ n, a.get? v = some n := by
  obtain ⟨e, he, hve⟩ := mem_vars.mp hv
  obtain ⟨c, hc⟩ : ∃ c, p.value a = .ok c := by
    cases hc : p.value a with
    | ok c => exact ⟨c, rfl⟩
    | error e =>
      rw [valueNumber, hc] at h
      cases h
  obtain ⟨sum, next, hstep⟩ := exists_step_of_foldlM hc he
  obtain ⟨k, hk⟩ : ∃ k, termValue d a e.1 = .ok k := by
    cases hk : termValue d a e.1 with
    | ok k => exact ⟨k, rfl⟩
    | error e =>
      rw [hk] at hstep
      cases hstep
  obtain ⟨product, next', hstep'⟩ := exists_step_of_foldlM hk hve
  cases hget : a.get? v with
  | some n => exact ⟨n, rfl⟩
  | none =>
    rw [valueOf, hget] at hstep'
    cases hstep'

/-- An assignment of some variables gives a polynomial a value exactly if all that occur are among
them. -/
theorem exists_valueNumber_iff {P : V → Prop} (hp : p.WellFormed Coefficient.IsRational)
    (ha : a.IsOn d P) :
    (∃ q : ℚ, p.valueNumber a = .ok (.exact q)) ↔ ∀ v ∈ p.vars, P v := by
  constructor
  · rintro ⟨q, hq⟩ v hv
    obtain ⟨n, hn⟩ := exists_get?_of_valueNumber hq hv
    exact (ha.keys v).mp (Table.mem_keys.mpr ⟨n, Table.mem_of_get?_eq_some hn⟩)
  · exact fun h => ⟨_, valueNumber_eq hp (ha.covers h) fun _ => 0⟩

/-- Every value at an assignment of the occurring variables is exact and has a property. -/
def AllValues (p : Polynomial d V) (P : ℚ → Prop) : Prop :=
  ∀ a, Assignment.Covers d p.vars a → ∃ v : ℚ, p.valueNumber a = .ok (.exact v) ∧ P v

/-- The values at assignments are the values at points. -/
theorem allValues_iff (hp : p.WellFormed Coefficient.IsRational) {P : ℚ → Prop} (ρ : String → ℚ) :
    p.AllValues P ↔ ∀ x, d.IsPoint x → P (p.eval ρ x) := by
  constructor
  · intro h x hx
    obtain ⟨a, ha, hax, -⟩ := Assignment.exists_override hx p.vars []
    obtain ⟨v, hv, hP⟩ := h a ha
    rw [valueNumber_eq hp ha ρ] at hv
    obtain rfl := Number.exact.inj (Except.ok.inj hv)
    rwa [eval_congr hax] at hP
  · exact fun h a ha => ⟨_, valueNumber_eq hp ha ρ, h _ (Assignment.isPoint_point d a)⟩

/-- With whole coefficients all values are whole. -/
theorem allValues_whole (hp : p.WellFormed Coefficient.IsRational)
    (hwhole : ∀ e ∈ p.terms, ∃ n : ℤ, e.2 = .num (.exact n)) :
    p.AllValues fun v => ∃ n : ℤ, v = n := by
  rw [allValues_iff hp fun _ => 0]
  intro x hx
  rw [Polynomial.eval]
  generalize p.terms = terms at hwhole
  induction terms with
  | nil => exact ⟨0, by simp⟩
  | cons e terms ih =>
    obtain ⟨⟨n, hn⟩, hrest⟩ := List.forall_mem_cons.mp hwhole
    obtain ⟨k, hk⟩ := ih hrest
    obtain ⟨j, hj⟩ := Term.exists_eval_eq hx e.1
    refine ⟨n * j + k, ?_⟩
    have hcoefficient : e.2.eval (fun _ => 0) = n := by
      rw [hn]
      rfl
    rw [weighted_cons, hk, hj, hcoefficient]
    push_cast
    ring

/-! ## Minimizers -/

/-- The assignment has the least value among all assignments of some variables. -/
def Minimizes (p : Polynomial d V) (vars : List V) (a : Assignment V) : Prop :=
  Assignment.Covers d vars a ∧ ∀ b, Assignment.Covers d vars b → ∃ m n : ℚ,
    p.valueNumber a = .ok (.exact m) ∧ p.valueNumber b = .ok (.exact n) ∧ m ≤ n

/-- An assignment is a minimizer if the value at its point is the least of the values at all points. -/
theorem minimizes_iff (hp : p.WellFormed Coefficient.IsRational) {vars : List V}
    (hvars : ∀ v ∈ p.vars, v ∈ vars) (ha : Assignment.Covers d vars a) (ρ : String → ℚ) :
    p.Minimizes vars a ↔ ∀ x, d.IsPoint x → p.eval ρ (a.point d) ≤ p.eval ρ x := by
  have hvalue : ∀ b, Assignment.Covers d vars b →
      p.valueNumber b = .ok (.exact (p.eval ρ (b.point d))) := fun b hb =>
    valueNumber_eq hp (hb.mono hvars) ρ
  constructor
  · rintro ⟨-, h⟩ x hx
    obtain ⟨b, hb, hbx, -⟩ := Assignment.exists_override hx vars []
    obtain ⟨m, n, hm, hn, hle⟩ := h b hb
    rw [hvalue a ha] at hm
    rw [hvalue b hb] at hn
    obtain rfl := Number.exact.inj (Except.ok.inj hm)
    obtain rfl := Number.exact.inj (Except.ok.inj hn)
    rwa [eval_congr fun v hv => hbx v (hvars v hv)] at hle
  · exact fun h => ⟨ha, fun b hb => ⟨_, _, hvalue a ha, hvalue b hb,
      h _ (Assignment.isPoint_point d b)⟩⟩

/-! ## Numeric terms and bounds -/

/-- The terms with their coefficients as rational numbers. -/
def rationalTerms (ρ : String → ℚ) (p : Polynomial d V) : Table (Term V) Number :=
  p.terms.map fun t => (t.1, .exact (t.2.eval ρ))

/-- The numeric terms of a rational polynomial are its rational values. -/
theorem numericTerms_eq (hp : p.WellFormed Coefficient.IsRational) (ρ : String → ℚ) :
    p.numericTerms = .ok (p.rationalTerms ρ) := by
  refine mapM_eq_ok fun t ht => ?_
  rw [(hp.terms.entries t ht).kind.eq_eval ρ]
  rfl

omit [Variable V] in
/-- A term contributes to a value between the ends of its range. -/
theorem termRange_eq (d : Domain) (c : ℚ) :
    ∃ l u : ℚ, d.termRange (.exact c) = (.exact l, .exact u) ∧
      ∀ (x : V → ℚ) (t : Term V), d.IsPoint x →
        l ≤ c * Term.eval x t ∧ c * Term.eval x t ≤ u := by
  cases d with
  | binary =>
    by_cases hc : c < 0
    · refine ⟨c, 0, ?_, fun x t hx => ?_⟩
      · simp only [Domain.termRange, Number.isNegative, hc, decide_true, if_true]
        rfl
      · have h0 := Term.eval_nonneg hx t
        have h1 := Term.eval_le_one hx t
        constructor <;> nlinarith
    · refine ⟨0, c, ?_, fun x t hx => ?_⟩
      · simp only [Domain.termRange, Number.isNegative, decide_eq_true_eq, if_neg hc]
        rfl
      · have hc := not_lt.mp hc
        exact ⟨mul_nonneg hc (Term.eval_nonneg hx t),
          mul_le_of_le_one_right hc (Term.eval_le_one hx t)⟩
  | spin =>
    refine ⟨-|c|, |c|, ?_, fun x t hx => ?_⟩
    · have hif : (if c < 0 then -c else c) = |c| := by
        split
        · rename_i h
          exact (abs_of_neg h).symm
        · rename_i h
          exact (abs_of_nonneg (not_lt.mp h)).symm
      rw [← hif]
      rfl
    · have habs : |c * Term.eval x t| = |c| := by rw [abs_mul, Term.abs_eval hx, mul_one]
      exact abs_le.mp habs.le

/-- A range after one more term. -/
def addRange (d : Domain) (range : Number × Number) (t : Term V × Number) : Number × Number :=
  if t.1.isEmpty then (range.1 + t.2, range.2 + t.2)
  else (range.1 + (d.termRange t.2).1, range.2 + (d.termRange t.2).2)

omit [Variable V] in
/-- A term adds an interval that encloses its contribution. -/
theorem exists_addRange_eq (d : Domain) (t : Term V) (lower upper c : ℚ) :
    ∃ a b : ℚ, addRange d (.exact lower, .exact upper) (t, .exact c) =
        (.exact (lower + a), .exact (upper + b)) ∧
      ∀ x, d.IsPoint x → a ≤ c * Term.eval x t ∧ c * Term.eval x t ≤ b := by
  by_cases ht : t.isEmpty
  · refine ⟨c, c, by rw [addRange, if_pos ht]; rfl, fun x _ => ?_⟩
    rw [List.isEmpty_iff.mp ht, Term.eval_nil, mul_one]
    exact ⟨le_rfl, le_rfl⟩
  · obtain ⟨a, b, hrange, hab⟩ := termRange_eq (V := V) d c
    exact ⟨a, b, by rw [addRange, if_neg ht, hrange]; rfl, fun x hx => hab x t hx⟩

omit [Variable V] in
/-- A list of terms adds an interval that encloses their sum. -/
theorem exists_foldl_addRange_eq (d : Domain) (ρ : String → ℚ) (l : List (Term V × Coefficient))
    (lower upper : ℚ) :
    ∃ lower' upper' : ℚ,
      (l.map fun t => (t.1, Number.exact (t.2.eval ρ))).foldl (addRange d)
        (.exact lower, .exact upper) = (.exact lower', .exact upper') ∧
      ∀ x, d.IsPoint x → lower' ≤ lower + weighted ρ (Term.eval x) l ∧
        upper + weighted ρ (Term.eval x) l ≤ upper' := by
  induction l generalizing lower upper with
  | nil => exact ⟨lower, upper, rfl, fun _ _ => by simp⟩
  | cons e l ih =>
    obtain ⟨a, b, hstep, hab⟩ := exists_addRange_eq d e.1 lower upper (e.2.eval ρ)
    obtain ⟨lower', upper', hfold, hbounds⟩ := ih (lower + a) (upper + b)
    refine ⟨lower', upper', ?_, fun x hx => ?_⟩
    · rw [List.map_cons, List.foldl_cons, hstep, hfold]
    · obtain ⟨ha, hb⟩ := hab x hx
      obtain ⟨hl, hu⟩ := hbounds x hx
      rw [weighted_cons]
      constructor <;> linarith

/-- The bounds of a polynomial without parameters are exact and enclose its values at all points. -/
theorem bounds_eq (hp : p.WellFormed Coefficient.IsRational) (ρ : String → ℚ) :
    ∃ l u : ℚ, p.bounds = .ok (.exact l, .exact u) ∧
      ∀ x, d.IsPoint x → l ≤ p.eval ρ x ∧ p.eval ρ x ≤ u := by
  obtain ⟨l, u, hfold, hbounds⟩ := exists_foldl_addRange_eq d ρ p.terms 0 0
  refine ⟨l, u, ?_, fun x hx => ?_⟩
  · rw [bounds, numericTerms_eq hp ρ]
    exact congrArg Except.ok hfold
  · simpa [Polynomial.eval] using hbounds x hx

end Polynomial

end PseudoBoolean

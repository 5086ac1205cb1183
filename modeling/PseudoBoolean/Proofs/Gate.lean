import Mathlib.Data.List.Forall2
import PseudoBoolean.Gate
import PseudoBoolean.Proofs.Polynomial.ValueArithmetic

/-!
# Gates compute their truth functions

Operands of a gate are arbitrary binary polynomials, which may share variables. At an assignment where each
of them has the value 0 or 1 every gate has the value of its truth function, and this is again 0 or 1
(`gates_compute`). A gate is a fold over its operands, so there is one lemma for a step of the fold
(`HasTruth.mul`, `HasTruth.xorPair`) and one for the list (`hasTruth_foldl_mul`, `hasTruth_foldl_xorPair`).
What the operands look like does not matter for a step, only their values do. So gates can be nested to any
depth (`Circuit.hasTruth`).
-/

namespace PseudoBoolean.Gate

variable {V : Type} [Variable V] {a : Assignment V} {p q : Proposition V} {ps : List (Proposition V)}
  {b c : Bool} {bs : List Bool}

/-! ## Truth values -/

/-- A truth value as a coefficient. -/
def bit (b : Bool) : Coefficient :=
  if b then 1 else 0

/-- Zero and one are normal coefficients. -/
theorem normal_bit (b : Bool) : (bit b).Normal := by
  cases b <;> exact Coefficient.normal_exact _

/-- The complement of a bit is one less the bit. -/
theorem one_sub_bit (b : Bool) : 1 - bit b = bit !b := by
  cases b <;> decide +kernel

/-- The polynomial has the value 1 at the assignment. -/
def holdsAt (a : Assignment V) (p : Proposition V) : Bool :=
  p.value a = .ok 1

/-- An exact polynomial whose variables all have a binary value in the assignment, and which has the value
0 or 1 there. -/
structure IsTruthValued (a : Assignment V) (p : Proposition V) : Prop where
  wellFormed : p.WellFormed Coefficient.Normal
  covers : Assignment.Covers .binary p.vars a
  value : p.value a = .ok 0 ∨ p.value a = .ok 1

/-- The value at the assignment is that of `b`. -/
def HasTruth (a : Assignment V) (p : Proposition V) (b : Bool) : Prop :=
  p.HasValue a (bit b)

/-- A proposition with a value of zero or one has a truth value. -/
theorem IsTruthValued.hasTruth (h : IsTruthValued a p) : HasTruth a p (holdsAt a p) := by
  obtain ⟨u, hu⟩ := h.wellFormed.exists_hasValue h.covers
  have hbit : u = bit (holdsAt a p) := by
    have hvalue := h.value
    rw [hu.value_eq, Except.ok.injEq, Except.ok.injEq] at hvalue
    rw [holdsAt, hu.value_eq]
    rcases hvalue with rfl | rfl <;> rfl
  rwa [hbit] at hu

/-- A proposition with a truth value has a value of zero or one. -/
theorem HasTruth.isTruthValued (h : HasTruth a p b) : IsTruthValued a p where
  wellFormed := h.wellFormed
  covers := h.covers
  value := by
    rw [h.value_eq]
    cases b
    · exact .inl rfl
    · exact .inr rfl

/-! ## Steps of the gates -/

/-- The constant one is true. -/
theorem hasTruth_one : HasTruth a (.const 1) true :=
  .const (normal_bit true)

/-- A literal is a single variable. -/
theorem terms_literal (v : V) : (literal v).terms = [([v], 1)] := rfl

/-- A literal is true if its variable is one. -/
theorem hasTruth_literal {v : V} (hv : a.get? v = some (Domain.binary.ofBit b)) :
    HasTruth a (literal v) b where
  wellFormed := Polynomial.WellFormed.empty.addTerm [v] (Coefficient.kind_ofNat 1)
  covers w hw := by
    obtain rfl : w = v := by simpa [Polynomial.mem_vars, terms_literal] using hw
    exact ⟨_, hv, Domain.contains_iff.mpr ⟨b, rfl⟩⟩
  normal := normal_bit b
  eval_eq ρ := by
    have hpoint : a.point .binary v = Domain.binary.ofBit b :=
      Assignment.point_eq hv (Domain.contains_iff.mpr ⟨b, rfl⟩)
    have heval : (literal v).eval ρ (a.point .binary) = a.point .binary v := by
      rw [Polynomial.eval, terms_literal]
      simp
    rw [heval, hpoint]
    cases b <;> rfl

/-- Negation inverts the truth value. -/
theorem HasTruth.not (hp : HasTruth a p b) : HasTruth a (Gate.not p) !b := by
  have hvalue := Polynomial.HasValue.constantSub (normal_bit true) hp
  have hbit : bit true - bit b = bit !b := one_sub_bit b
  rwa [hbit] at hvalue

/-- The product is the conjunction. -/
theorem HasTruth.mul (hp : HasTruth a p b) (hq : HasTruth a q c) : HasTruth a (p * q) (b && c) := by
  have hvalue := Polynomial.HasValue.mul hp hq
  have hbit : bit b * bit c = bit (b && c) := by cases b <;> cases c <;> decide +kernel
  rwa [hbit] at hvalue

/-- The polynomial for two operands is their exclusive disjunction. -/
theorem HasTruth.xorPair (hp : HasTruth a p b) (hq : HasTruth a q c) :
    HasTruth a (Gate.xorPair p q) (b ^^ c) := by
  have htwo : (2 : Coefficient).Normal := Coefficient.normal_exact 2
  have hvalue := (Polynomial.HasValue.add hp hq).sub ((Polynomial.HasValue.mul hp hq).scale htwo)
  have hbit : bit b + bit c - 2 * (bit b * bit c) = bit (b ^^ c) := by
    cases b <;> cases c <;> decide +kernel
  rwa [hbit] at hvalue

/-! ## Gates of lists -/

/-- What the operands are at an assignment. -/
theorem forall₂_hasTruth (h : ∀ p ∈ ps, IsTruthValued a p) :
    List.Forall₂ (HasTruth a) ps (ps.map (holdsAt a)) := by
  rw [List.forall₂_map_right_iff, List.forall₂_same]
  exact fun p hp => (h p hp).hasTruth

/-- A product of propositions is true if all of them are. -/
theorem hasTruth_foldl_mul (h : List.Forall₂ (HasTruth a) ps bs) (hp : HasTruth a p b) :
    HasTruth a (ps.foldl (· * ·) p) (b && bs.all id) := by
  induction h generalizing p b with
  | nil => rwa [List.all_nil, Bool.and_true]
  | cons hq _ ih =>
    rw [List.foldl_cons, List.all_cons, ← Bool.and_assoc]
    exact ih (hp.mul hq)

/-- A chain of exclusive disjunctions is true if an odd number of the operands is. -/
theorem hasTruth_foldl_xorPair (h : List.Forall₂ (HasTruth a) ps bs) (hp : HasTruth a p b) :
    HasTruth a (ps.foldl Gate.xorPair p) (decide (Odd ((b :: bs).countP id))) := by
  induction h generalizing p b with
  | nil =>
    have hb : decide (Odd ([b].countP id)) = b := by cases b <;> decide
    rwa [hb]
  | @cons q c ps bs hq _ ih =>
    have hcount : decide (Odd ((b :: c :: bs).countP id)) =
        decide (Odd (((b ^^ c) :: bs).countP id)) := by
      cases b <;> cases c <;> simp [Nat.odd_add_one]
    rw [List.foldl_cons, hcount]
    exact ih (hp.xorPair hq)

/-- A conjunction is true if all operands are, and so is the one of no operands. -/
theorem hasTruth_and (h : List.Forall₂ (HasTruth a) ps bs) : HasTruth a (and ps) (bs.all id) :=
  hasTruth_foldl_mul h hasTruth_one

/-- The product of the negated operands is negated. -/
theorem or_eq_not_and (h : ps ≠ []) : or ps = Gate.not (and (ps.map Gate.not)) := by
  rw [or, and, List.foldl_map, if_neg (by rwa [List.isEmpty_iff])]

/-- A disjunction is true if some operand is, and the one of no operands is true by convention. -/
theorem hasTruth_or (h : List.Forall₂ (HasTruth a) ps bs) :
    HasTruth a (or ps) (bs.isEmpty || bs.any id) := by
  cases h with
  | nil => exact hasTruth_one
  | @cons p b ps bs hp h =>
    have hnegated : List.Forall₂ (HasTruth a) ((p :: ps).map Gate.not) ((b :: bs).map (!·)) := by
      rw [List.forall₂_map_left_iff, List.forall₂_map_right_iff]
      exact (List.Forall₂.cons hp h).imp fun _ _ => HasTruth.not
    have hany : (!((b :: bs).map (!·)).all id) = (b :: bs).any id := by
      rw [List.all_map, List.not_all_eq_any_not]
      simp only [Function.comp, id, Bool.not_not]
      rfl
    rw [or_eq_not_and (List.cons_ne_nil p ps), List.isEmpty_cons, Bool.false_or, ← hany]
    exact (hasTruth_and hnegated).not

/-- An exclusive disjunction is true if an odd number of operands is, or if there are none. -/
theorem hasTruth_xor (h : List.Forall₂ (HasTruth a) ps bs) :
    HasTruth a (xor ps) (bs.isEmpty || decide (Odd (bs.countP id))) := by
  cases h with
  | nil => exact hasTruth_one
  | cons hp h => exact hasTruth_foldl_xorPair h hp

/-! ## Nested gates

A gate has a list of circuits as its operands. So a function on circuits comes with one on lists of circuits,
and so does the induction.
-/

/-- The gates that take a list of operands. -/
inductive Connective where
  | and
  | nand
  | or
  | nor
  | xor
  | xnor

namespace Connective

/-- The gate as a polynomial. -/
def proposition : Connective → List (Proposition V) → Proposition V
  | .and => Gate.and
  | .nand => Gate.nand
  | .or => Gate.or
  | .nor => Gate.nor
  | .xor => Gate.xor
  | .xnor => Gate.xnor

/-- The truth function of a gate. Disjunction and parity of no operands are counted as true. -/
def truth : Connective → List Bool → Bool
  | .and, bs => bs.all id
  | .nand, bs => !bs.all id
  | .or, bs => bs.isEmpty || bs.any id
  | .nor, bs => !(bs.isEmpty || bs.any id)
  | .xor, bs => bs.isEmpty || decide (Odd (bs.countP id))
  | .xnor, bs => !(bs.isEmpty || decide (Odd (bs.countP id)))

/-- Every connective computes its truth function. -/
theorem hasTruth (g : Connective) (h : List.Forall₂ (HasTruth a) ps bs) :
    HasTruth a (g.proposition ps) (g.truth bs) := by
  cases g with
  | and => exact hasTruth_and h
  | nand => exact (hasTruth_and h).not
  | or => exact hasTruth_or h
  | nor => exact (hasTruth_or h).not
  | xor => exact hasTruth_xor h
  | xnor => exact (hasTruth_xor h).not

end Connective

/-- Gates on gates, to any depth, with operands at the leaves. -/
inductive Circuit (ι : Type) where
  | operand (i : ι)
  | not (circuit : Circuit ι)
  | gate (g : Connective) (circuits : List (Circuit ι))

namespace Circuit

variable {ι : Type}

mutual

/-- The circuit as a polynomial. -/
def proposition (operands : ι → Proposition V) : Circuit ι → Proposition V
  | .operand i => operands i
  | .not circuit => Gate.not (circuit.proposition operands)
  | .gate g circuits => g.proposition (propositions operands circuits)

def propositions (operands : ι → Proposition V) : List (Circuit ι) → List (Proposition V)
  | [] => []
  | circuit :: circuits => circuit.proposition operands :: propositions operands circuits

end

mutual

/-- What the circuit computes from the truth values of its operands. -/
def truth (operands : ι → Bool) : Circuit ι → Bool
  | .operand i => operands i
  | .not circuit => !circuit.truth operands
  | .gate g circuits => g.truth (truths operands circuits)

def truths (operands : ι → Bool) : List (Circuit ι) → List Bool
  | [] => []
  | circuit :: circuits => circuit.truth operands :: truths operands circuits

end

variable {f : ι → Proposition V} {x : ι → Bool}

mutual

/-- Every circuit computes its truth function, by induction on its gates. -/
theorem hasTruth (h : ∀ i, HasTruth a (f i) (x i)) :
    ∀ circuit : Circuit ι, HasTruth a (circuit.proposition f) (circuit.truth x)
  | .operand i => h i
  | .not circuit => (hasTruth h circuit).not
  | .gate g circuits => g.hasTruth (hasTruths h circuits)

theorem hasTruths (h : ∀ i, HasTruth a (f i) (x i)) :
    ∀ circuits : List (Circuit ι),
      List.Forall₂ (HasTruth a) (propositions f circuits) (truths x circuits)
  | [] => .nil
  | circuit :: circuits => .cons (hasTruth h circuit) (hasTruths h circuits)

end

end Circuit

/-- Gates compute their truth functions, and they compose. Let operands have the value 0 or 1 at an
assignment. Conjunction, disjunction and parity of no operands are 1; of other operands they are those of
the operands' values, and the negated gates are 1 minus these. Every gate has the value 0 or 1, and so has
every circuit of gates over these operands, the one that follows from the truth functions. -/
theorem gates_compute (h : ∀ p ∈ ps, IsTruthValued a p) :
    (and ps).value a = .ok (bit (ps.all (holdsAt a))) ∧
    (or ps).value a = .ok (bit (ps.isEmpty || ps.any (holdsAt a))) ∧
    (xor ps).value a = .ok (bit (ps.isEmpty || decide (Odd (ps.countP (holdsAt a))))) ∧
    (nand ps).value a = .ok (1 - bit (ps.all (holdsAt a))) ∧
    (nor ps).value a = .ok (1 - bit (ps.isEmpty || ps.any (holdsAt a))) ∧
    (xnor ps).value a = .ok (1 - bit (ps.isEmpty || decide (Odd (ps.countP (holdsAt a))))) ∧
    ∀ circuit : Circuit (Fin ps.length),
      IsTruthValued a (circuit.proposition ps.get) ∧
        (circuit.proposition ps.get).value a =
          .ok (bit (circuit.truth fun i => holdsAt a (ps.get i))) := by
  have hps := forall₂_hasTruth h
  have hand := hasTruth_and hps
  have hor := hasTruth_or hps
  have hxor := hasTruth_xor hps
  rw [List.all_map, Function.id_comp] at hand
  rw [List.isEmpty_map, List.any_map, Function.id_comp] at hor
  rw [List.isEmpty_map, List.countP_map, Function.id_comp] at hxor
  simp only [one_sub_bit]
  refine ⟨hand.value_eq, hor.value_eq, hxor.value_eq, hand.not.value_eq, hor.not.value_eq,
    hxor.not.value_eq, fun circuit => ?_⟩
  have hcircuit := circuit.hasTruth fun i => (h _ (ps.get_mem i)).hasTruth
  exact ⟨hcircuit.isTruthValued, hcircuit.value_eq⟩

/-- Propositions with common variables: both variables are 1, the second is not, one of them is. -/
def overlapping : List (Proposition ℕ) :=
  [literal 0 * literal 1, Gate.not (literal 1), or [literal 0, literal 1]]

/-- Where both variables are 1, the first and the last of these propositions hold. So their number is even,
and `nand` of the last with `xor` of the first two has the value 0. -/
theorem gates_compute_overlapping :
    (and overlapping).value [(0, 1), (1, 1)] = .ok 0 ∧
      (or overlapping).value [(0, 1), (1, 1)] = .ok 1 ∧
      (xnor overlapping).value [(0, 1), (1, 1)] = .ok 1 ∧
      (nand [xor [literal 0 * literal 1, Gate.not (literal 1)], or [literal 0, literal 1]]).value
        [(0, 1), (1, 1)] = .ok 0 := by
  have h0 : HasTruth [(0, 1), (1, 1)] (literal 0) true := hasTruth_literal rfl
  have h1 : HasTruth [(0, 1), (1, 1)] (literal 1) true := hasTruth_literal rfl
  have h : ∀ p ∈ overlapping, IsTruthValued [(0, 1), (1, 1)] p := by
    refine List.forall_mem_cons.mpr ⟨(h0.mul h1).isTruthValued, List.forall_mem_cons.mpr
      ⟨h1.not.isTruthValued, List.forall_mem_singleton.mpr ?_⟩⟩
    exact (hasTruth_or (.cons h0 (.cons h1 .nil))).isTruthValued
  obtain ⟨hand, hor, -, -, -, hxnor, hcircuit⟩ := gates_compute h
  have hnested := (hcircuit (.gate .nand
    [.gate .xor [.operand (0 : Fin 3), .operand (1 : Fin 3)], .operand (2 : Fin 3)])).2
  refine ⟨hand.trans ?_, hor.trans ?_, hxnor.trans ?_, hnested.trans ?_⟩ <;> decide +kernel

end PseudoBoolean.Gate

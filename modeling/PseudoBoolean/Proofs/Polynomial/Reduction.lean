import Mathlib.Logic.Function.Basic
import PseudoBoolean.Proofs.Polynomial.Evaluation
import PseudoBoolean.Proofs.Polynomial.ReductionRound

/-!
# Degree reduction

`Reduction` describes the rounds of a reduction without a bound on their number. The excess decreases in
every round, so the rounds that `reduce` allows always suffice (`exists_reduction`).

What one round does to values and variables carries over to a whole run by induction. The variables that
a run introduces are numbered on from the first free number, each with the pair that it stands for; both
factors have smaller numbers, so every point extends to one where all of them are the products of their
pairs (`exists_consistent`).
-/

namespace PseudoBoolean.Polynomial

variable {p q r : Polynomial .binary ℕ} {target next x y : ℕ} {weight : ReductionWeight}
  {pairs : List (ℕ × ℕ)} {K : Coefficient → Prop} [Coefficient.Closed K] {ρ : String → ℚ}
  {X : ℕ → ℚ} {v : ℕ}

/-! ## Runs -/

/-- The rounds of a reduction: the first free number, the polynomial, the pairs that are replaced and
the outcome. -/
inductive Reduction (target : ℕ) (weight : ReductionWeight) :
    ℕ → Polynomial .binary ℕ → List (ℕ × ℕ) → Except Error (Polynomial .binary ℕ) → Prop
  | done {next : ℕ} {p : Polynomial .binary ℕ} : p.degree ≤ target →
      Reduction target weight next p [] (.ok p)
  | fail {next x y : ℕ} {p : Polynomial .binary ℕ} {e : Error} : target < p.degree →
      p.mostFrequentPair? target = some (x, y) →
      p.replaceProduct target x y next weight = .error e →
      Reduction target weight next p [] (.error e)
  | round {next x y : ℕ} {p q : Polynomial .binary ℕ} {pairs : List (ℕ × ℕ)}
      {outcome : Except Error (Polynomial .binary ℕ)} : target < p.degree →
      p.mostFrequentPair? target = some (x, y) →
      p.replaceProduct target x y next weight = .ok q →
      Reduction target weight (next + 1) q pairs outcome →
      Reduction target weight next p ((x, y) :: pairs) outcome

/-- The variables of a run, each with the pair that it stands for. -/
def introduced (next : ℕ) (pairs : List (ℕ × ℕ)) : List ((ℕ × ℕ) × ℕ) :=
  pairs.zipIdx next

/-- The value of an introduced variable is the product of the values of its pair. -/
def Consistent (X : ℕ → ℚ) (e : (ℕ × ℕ) × ℕ) : Prop :=
  X e.2 = X e.1.1 * X e.1.2

instance (X : ℕ → ℚ) : DecidablePred (Consistent X) := fun e =>
  inferInstanceAs (Decidable (X e.2 = X e.1.1 * X e.1.2))

/-- How many introduced variables differ from the product of their pair. -/
def violations (X : ℕ → ℚ) (vars : List ((ℕ × ℕ) × ℕ)) : ℕ :=
  vars.countP fun e => ¬ Consistent X e

theorem introduced_cons (next : ℕ) (pair : ℕ × ℕ) (pairs : List (ℕ × ℕ)) :
    introduced next (pair :: pairs) = (pair, next) :: introduced (next + 1) pairs :=
  List.zipIdx_cons

/-- No number is introduced below the next one. -/
theorem le_of_mem_introduced {e : (ℕ × ℕ) × ℕ} (h : e ∈ introduced next pairs) : next ≤ e.2 :=
  List.le_snd_of_mem_zipIdx h

/-! ## One round of a run -/

/-- A weight with a coefficient of a kind, or the automatic one. -/
def WeightOf (K : Coefficient → Prop) : ReductionWeight → Prop
  | .auto => True
  | .fixed w => K w

omit [Coefficient.Closed K] in
theorem weightOf_auto : WeightOf K .auto := trivial

/-- The weight of a round is of the kind of the coefficients. -/
theorem kind_forTerms {l : List (Term ℕ × Coefficient)} {w : Coefficient}
    (hl : ∀ e ∈ l, K e.2) (hweight : WeightOf K weight)
    (h : ReductionWeight.forTerms weight l = .ok w) : K w := by
  cases weight with
  | fixed w' => exact Except.ok.inj h ▸ hweight
  | auto =>
    rw [ReductionWeight.forTerms] at h
    cases hsum : l.foldlM (fun (sum : Number) t => do
        return sum + (← Error.ofCoefficient t.2.abs)) 1 with
    | error e =>
      rw [hsum] at h
      cases h
    | ok s =>
      rw [hsum] at h
      rw [← Except.ok.inj h]
      refine invariant_of_foldlM (fun s : Number => K (.num s)) (fun a e he next ha hstep => ?_)
        (Coefficient.Closed.exact 1) hsum
      cases habs : e.2.abs with
      | error _ =>
        rw [habs] at hstep
        cases hstep
      | ok n =>
        rw [habs] at hstep
        rw [← Except.ok.inj hstep]
        exact Coefficient.Closed.add ha (Coefficient.Closed.abs (hl e he) habs)

/-- A round that succeeds puts the next number in the place of a pair, with a weight of the kind. -/
theorem exists_withProduct (hp : p.WellFormed K) (h2 : 2 ≤ target) (hweight : WeightOf K weight)
    (hfresh : ∀ v ∈ p.vars, v < next) (hdeg : target < p.degree)
    (hpair : p.mostFrequentPair? target = some (x, y))
    (hround : p.replaceProduct target x y next weight = .ok q) :
    p.CanIntroduce target x y next ∧ ∃ w, K w ∧
      ReductionWeight.forTerms weight (p.termsWithPair target x y) = .ok w ∧
      q = p.withProduct target x y next w := by
  obtain ⟨x', y', hpair', hIsPair⟩ := mostFrequentPair?_spec hp h2 hdeg
  rw [hpair] at hpair'
  obtain ⟨rfl, rfl⟩ := Prod.mk.inj (Option.some_inj.mp hpair')
  refine ⟨⟨hIsPair, hfresh⟩, ?_⟩
  rw [replaceProduct_eq] at hround
  cases hw : ReductionWeight.forTerms weight (p.termsWithPair target x y) with
  | error e =>
    rw [hw] at hround
    cases hround
  | ok w =>
    rw [hw] at hround
    exact ⟨w, kind_forTerms (fun e he =>
      (hp.terms.entries e (mem_termsWithPair.mp he).1).kind) hweight hw, rfl,
      (Except.ok.inj hround).symm⟩

/-- The new number is above all variables afterwards. -/
theorem lt_succ_of_mem_withProduct {w : Coefficient} (h : p.CanIntroduce target x y next)
    (hv : v ∈ (p.withProduct target x y next w).vars) : v < next + 1 := by
  rcases mem_vars_of_mem_withProduct h hv with hv | rfl
  · exact (h.fresh v hv).trans (Nat.lt_succ_self _)
  · exact Nat.lt_succ_self _

/-! ## Termination -/

/-- As many rounds as the excess are enough: the bounded loop ends as the unbounded one does. -/
theorem reduction_reduceRounds {rounds : ℕ} (hp : p.WellFormed K) (h2 : 2 ≤ target)
    (hweight : WeightOf K weight) (hfresh : ∀ v ∈ p.vars, v < next)
    (hrounds : p.excess target ≤ rounds) :
    ∃ pairs, Reduction target weight next p pairs (reduceRounds target weight rounds next p) := by
  induction rounds generalizing p next with
  | zero =>
    -- no excess means that no term has more variables than the target
    refine ⟨[], .done (degree_le_iff.mpr fun t ht => ?_)⟩
    have hzero : p.terms.foldr (fun t n => t.1.length - target + n) 0 = 0 := Nat.le_zero.mp hrounds
    have hle : ∀ l : List (Term ℕ × Coefficient), t ∈ l →
        t.1.length - target ≤ l.foldr (fun t n => t.1.length - target + n) 0 := by
      intro l
      induction l with
      | nil => simp
      | cons s l ih =>
        intro h
        rw [List.foldr_cons]
        rcases List.mem_cons.mp h with rfl | h
        · exact Nat.le_add_right _ _
        · exact (ih h).trans (Nat.le_add_left _ _)
    have := hle _ ht
    omega
  | succ rounds ih =>
    by_cases hdeg : p.degree ≤ target
    · exact ⟨[], by rw [reduceRounds, if_pos hdeg]; exact .done hdeg⟩
    · rw [not_le] at hdeg
      obtain ⟨x, y, hpair, -⟩ := mostFrequentPair?_spec hp h2 hdeg
      have hstep : reduceRounds target weight (rounds + 1) next p =
          (p.replaceProduct target x y next weight >>=
            reduceRounds target weight rounds (next + 1)) := by
        rw [reduceRounds, if_neg (not_le.mpr hdeg), hpair]
      rw [hstep]
      cases hround : p.replaceProduct target x y next weight with
      | error e => exact ⟨[], .fail hdeg hpair hround⟩
      | ok q =>
        obtain ⟨hintro, w, hw, -, rfl⟩ := exists_withProduct hp h2 hweight hfresh hdeg hpair hround
        -- the excess has become less, so the rounds that are left suffice
        have hlt := excess_withProduct_lt (w := w) hp hintro h2
        obtain ⟨pairs, hrun⟩ := ih (hp.withProduct hintro hw)
          (fun v hv => lt_succ_of_mem_withProduct hintro hv) (by omega)
        exact ⟨(x, y) :: pairs, .round hdeg hpair hround hrun⟩

/-- Every variable that occurs is below the first free number. -/
theorem lt_firstFree (hv : v ∈ p.vars) : v < p.firstFree := by
  have key : ∀ (l : List ℕ) (n : ℕ), n ≤ l.foldl (fun n v => max n (v + 1)) n ∧
      ∀ v ∈ l, v < l.foldl (fun n v => max n (v + 1)) n := by
    intro l
    induction l with
    | nil => simp
    | cons w l ih =>
      intro n
      obtain ⟨hle, hlt⟩ := ih (max n (w + 1))
      rw [List.foldl_cons]
      refine ⟨(Nat.le_max_left _ _).trans hle, List.forall_mem_cons.mpr ⟨?_, hlt⟩⟩
      exact (Nat.le_max_right n (w + 1)).trans hle
  exact ((key p.vars 0).2 v hv).trans_le (Nat.le_max_left _ _)

theorem size_le_firstFree (p : Polynomial .binary ℕ) : p.index.size ≤ p.firstFree :=
  Nat.le_max_right _ _

/-- A reduction ends, and `reduce` has its outcome. -/
theorem exists_reduction (hp : p.WellFormed K) (h2 : 2 ≤ target) (hweight : WeightOf K weight) :
    ∃ pairs, Reduction target weight p.firstFree p pairs (p.reduce (some target) weight) := by
  have hcheck : checkTarget target = .ok () := by
    exact if_neg (not_lt.mpr h2)
  have hreduce : p.reduce (some target) weight =
      reduceRounds target weight (p.excess target) p.firstFree p := by
    rw [reduce, hcheck]
    rfl
  rw [hreduce]
  exact reduction_reduceRounds hp h2 hweight (fun v hv => lt_firstFree hv) le_rfl

/-- What every round keeps holds of the outcome of a run, after as many numbers as there are rounds. It
includes that the polynomial is well-formed and that all its variables are below the next number. -/
theorem Reduction.invariant {P : ℕ → Polynomial .binary ℕ → Prop}
    (hrun : Reduction target weight next p pairs (.ok r)) (h2 : 2 ≤ target)
    (hweight : WeightOf K weight)
    (hfit : ∀ {next p}, P next p → p.WellFormed K ∧ ∀ v ∈ p.vars, v < next)
    (hround : ∀ {next p x y w}, P next p → p.CanIntroduce target x y next → K w →
      P (next + 1) (p.withProduct target x y next w))
    (h : P next p) : P (next + pairs.length) r := by
  generalize houtcome : Except.ok r = outcome at hrun
  induction hrun with
  | done =>
    obtain rfl := Except.ok.inj houtcome
    exact h
  | fail => cases houtcome
  | @round next _ _ _ _ pairs _ hdeg hpair hok _ ih =>
    obtain ⟨hp, hfresh⟩ := hfit h
    obtain ⟨hintro, w, hw, -, rfl⟩ := exists_withProduct hp h2 hweight hfresh hdeg hpair hok
    rw [List.length_cons, Nat.add_comm pairs.length, ← Nat.add_assoc]
    exact ih (hround h hintro hw) houtcome

/-! ## What a run leaves -/

/-- What holds of the outcome of a run. -/
structure Reduced (K : Coefficient → Prop) (target next : ℕ) (p : Polynomial .binary ℕ)
    (pairs : List (ℕ × ℕ)) (r : Polynomial .binary ℕ) : Prop where
  wellFormed : r.WellFormed K
  degree_le : r.degree ≤ target
  vars : ∀ v ∈ r.vars, v ∈ p.vars ∨ ∃ e ∈ introduced next pairs, e.2 = v
  labels : p.index.labels <+: r.index.labels
  /-- The factors of a product are ordered, and occur or were introduced before. -/
  factors : ∀ e ∈ introduced next pairs, e.1.1 < e.1.2 ∧ e.1.2 < e.2
  occurring : ∀ e ∈ introduced next pairs, ∀ v, v = e.1.1 ∨ v = e.1.2 →
    v ∈ p.vars ∨ ∃ e' ∈ introduced next pairs, e'.2 = v
  recorded : ∀ e ∈ introduced next pairs, r.ancillas.get? e.2 = some (.product e.1.1 e.1.2)
  others : ∀ v, (∀ e ∈ introduced next pairs, e.2 ≠ v) →
    r.ancillas.get? v = p.ancillas.get? v

/-- A successful run has a reduced outcome. -/
theorem Reduction.reduced (h : Reduction target weight next p pairs (.ok r)) (hp : p.WellFormed K)
    (h2 : 2 ≤ target) (hweight : WeightOf K weight) (hfresh : ∀ v ∈ p.vars, v < next) :
    Reduced K target next p pairs r := by
  generalize houtcome : Except.ok r = outcome at h
  induction h with
  | done hdeg =>
    obtain rfl := Except.ok.inj houtcome
    exact ⟨hp, hdeg, fun v hv => .inl hv, List.prefix_rfl, by simp [introduced],
      by simp [introduced], by simp [introduced], fun _ _ => rfl⟩
  | fail => cases houtcome
  | @round next x y p q pairs outcome hdeg hpair hround _ ih =>
    obtain ⟨hintro, w, hw, -, rfl⟩ := exists_withProduct hp h2 hweight hfresh hdeg hpair hround
    have hrest := ih (hp.withProduct hintro hw) (fun v hv => lt_succ_of_mem_withProduct hintro hv)
      houtcome
    have hfactor : ∀ v, v = x ∨ v = y → v ∈ p.vars := by
      obtain ⟨-, t, ht, -, hx, hy⟩ := hintro.pair
      rintro v (rfl | rfl)
      · exact mem_vars.mpr ⟨t, ht, hx⟩
      · exact mem_vars.mpr ⟨t, ht, hy⟩
    -- a variable after the first round occurred before or is the new one
    have hvars : ∀ v, (v ∈ (p.withProduct target x y next w).vars ∨
        ∃ e ∈ introduced (next + 1) pairs, e.2 = v) →
        v ∈ p.vars ∨ ∃ e ∈ introduced next ((x, y) :: pairs), e.2 = v := by
      rw [introduced_cons]
      rintro v (hv | ⟨e, he, heq⟩)
      · rcases mem_vars_of_mem_withProduct hintro hv with hv | rfl
        · exact .inl hv
        · exact .inr ⟨_, List.mem_cons_self, rfl⟩
      · exact .inr ⟨e, List.mem_cons_of_mem _ he, heq⟩
    have hne : ∀ e ∈ introduced (next + 1) pairs, e.2 ≠ next := fun e he heq => by
      have := le_of_mem_introduced he
      omega
    refine ⟨hrest.wellFormed, hrest.degree_le, fun v hv => hvars v (hrest.vars v hv),
      (labels_prefix_withProduct hintro).trans hrest.labels, ?_, ?_, ?_, ?_⟩
    · rw [introduced_cons]
      exact List.forall_mem_cons.mpr ⟨⟨hintro.pair.1, hintro.right_lt⟩, hrest.factors⟩
    · intro e he v hv
      rw [introduced_cons] at he
      rcases List.mem_cons.mp he with rfl | he
      · exact .inl (hfactor v hv)
      · exact hvars v (hrest.occurring e he v hv)
    · rw [introduced_cons]
      refine List.forall_mem_cons.mpr ⟨?_, hrest.recorded⟩
      rw [hrest.others next hne, get?_ancillas_withProduct hintro, if_pos rfl]
    · intro v hv
      rw [introduced_cons] at hv
      obtain ⟨hv, hvs⟩ := List.forall_mem_cons.mp hv
      rw [hrest.others v hvs, get?_ancillas_withProduct hintro, if_neg (Ne.symm hv)]

omit [Coefficient.Closed K] in
/-- A run changes no value where every introduced variable is the product of its pair. -/
theorem Reduction.eval_of_consistent [Coefficient.Kind K]
    (h : Reduction target weight next p pairs (.ok r)) (hp : p.WellFormed K) (h2 : 2 ≤ target)
    (hweight : WeightOf K weight) (hfresh : ∀ v ∈ p.vars, v < next)
    (hX : Domain.binary.IsPoint X) (hconsistent : ∀ e ∈ introduced next pairs, Consistent X e) :
    r.eval ρ X = p.eval ρ X := by
  generalize houtcome : Except.ok r = outcome at h
  induction h with
  | done =>
    obtain rfl := Except.ok.inj houtcome
    rfl
  | fail => cases houtcome
  | @round next x y p q pairs outcome hdeg hpair hround _ ih =>
    obtain ⟨hintro, w, hw, -, rfl⟩ := exists_withProduct hp h2 hweight hfresh hdeg hpair hround
    rw [introduced_cons] at hconsistent
    obtain ⟨hfirst, hconsistent⟩ := List.forall_mem_cons.mp hconsistent
    rw [ih (hp.withProduct hintro hw) (fun v hv => lt_succ_of_mem_withProduct hintro hv)
      hconsistent houtcome, eval_withProduct_of_consistent hp hintro hw hX hfirst]

/-! ## The automatic weight -/

/-- Without parameters, a reduction with the automatic weight succeeds. -/
theorem Reduction.exists_ok {outcome : Except Error (Polynomial .binary ℕ)}
    (h : Reduction target .auto next p pairs outcome) (hp : p.WellFormed Coefficient.IsRational)
    (h2 : 2 ≤ target) (hfresh : ∀ v ∈ p.vars, v < next) : ∃ r, outcome = .ok r := by
  induction h with
  | @done _ p _ => exact ⟨p, rfl⟩
  | @fail next x y p e hdeg hpair hround =>
    rw [replaceProduct_eq, forTerms_auto_termsWithPair hp fun _ => 0] at hround
    cases hround
  | round hdeg hpair hround _ ih =>
    obtain ⟨hintro, w, hw, -, rfl⟩ := exists_withProduct hp h2 weightOf_auto hfresh
      hdeg hpair hround
    exact ih (hp.withProduct hintro hw) fun v hv => lt_succ_of_mem_withProduct hintro hv

/-- Every introduced variable that differs from the product of its pair costs at least one. -/
theorem Reduction.eval_add_violations_le (h : Reduction target .auto next p pairs (.ok r))
    (hp : p.WellFormed Coefficient.IsRational) (h2 : 2 ≤ target) (hfresh : ∀ v ∈ p.vars, v < next)
    (hX : Domain.binary.IsPoint X) :
    p.eval ρ X + violations X (introduced next pairs) ≤ r.eval ρ X := by
  generalize houtcome : Except.ok r = outcome at h
  induction h with
  | done =>
    obtain rfl := Except.ok.inj houtcome
    simp [introduced, violations]
  | fail => cases houtcome
  | @round next x y p q pairs outcome hdeg hpair hround _ ih =>
    obtain ⟨hintro, w, hw, hforTerms, rfl⟩ := exists_withProduct hp h2 weightOf_auto
      hfresh hdeg hpair hround
    have hrest := ih (hp.withProduct hintro hw) (fun v hv => lt_succ_of_mem_withProduct hintro hv)
      houtcome
    rw [forTerms_auto_termsWithPair hp ρ] at hforTerms
    obtain rfl := Except.ok.inj hforTerms
    rw [introduced_cons, violations, List.countP_cons, ← violations]
    -- a round keeps the value where its variable is the product, and else adds at least one
    by_cases hz : Consistent X ((x, y), next)
    · have hstep := eval_withProduct_of_consistent (ρ := ρ) hp hintro hw hX hz
      simp only [hz, not_true, decide_false, Bool.false_eq_true, if_false, Nat.add_zero]
      rwa [← hstep]
    · have hstep := eval_withProduct_ge (ρ := ρ) hp hintro hw le_rfl hX hz
      simp only [hz, not_false_eq_true, decide_true, if_true, Nat.cast_add, Nat.cast_one]
      linarith

/-- No variable is lost in a run with the automatic weight. -/
theorem Reduction.mem_vars (h : Reduction target .auto next p pairs (.ok r))
    (hp : p.WellFormed Coefficient.IsRational) (h2 : 2 ≤ target) (hfresh : ∀ v ∈ p.vars, v < next)
    (hv : v ∈ p.vars) : v ∈ r.vars := by
  generalize houtcome : Except.ok r = outcome at h
  induction h with
  | done =>
    obtain rfl := Except.ok.inj houtcome
    exact hv
  | fail => cases houtcome
  | @round next x y p q pairs outcome hdeg hpair hround _ ih =>
    obtain ⟨hintro, w, hw, hforTerms, rfl⟩ := exists_withProduct hp h2 weightOf_auto
      hfresh hdeg hpair hround
    refine ih (hp.withProduct hintro hw) (fun v hv => lt_succ_of_mem_withProduct hintro hv)
      (mem_vars_withProduct hp hintro hw ⟨fun _ => 0, ?_⟩ hv) houtcome
    rw [forTerms_auto_termsWithPair hp fun _ => 0] at hforTerms
    obtain rfl := Except.ok.inj hforTerms
    have := magnitude_nonneg (ρ := fun _ => 0) (p.termsWithPair target x y)
    rw [Coefficient.eval_num, Number.rat_exact]
    linarith

/-! ## Consistent points -/

/-- Every point extends to the introduced variables so that each is the product of its pair. -/
theorem exists_consistent (hfactors : ∀ e ∈ introduced next pairs, e.1.1 < e.2 ∧ e.1.2 < e.2)
    (hX : Domain.binary.IsPoint X) :
    ∃ X', Domain.binary.IsPoint X' ∧ (∀ v < next, X' v = X v) ∧
      ∀ e ∈ introduced next pairs, Consistent X' e := by
  induction pairs generalizing next X with
  | nil => exact ⟨X, hX, fun _ _ => rfl, by simp [introduced]⟩
  | cons pair pairs ih =>
    obtain ⟨x, y⟩ := pair
    rw [introduced_cons] at hfactors ⊢
    obtain ⟨⟨hx, hy⟩, hfactors⟩ := List.forall_mem_cons.mp hfactors
    have hpoint : Domain.binary.IsPoint (Function.update X next (X x * X y)) := fun v => by
      by_cases hv : v = next
      · rw [hv, Function.update_self]
        rcases Domain.isValue_binary.mp (hX x) with h | h <;> rw [h]
        · simp [Domain.isValue_binary]
        · simpa using hX y
      · rw [Function.update_of_ne hv]
        exact hX v
    -- later rounds leave the variables alone that are numbered by now
    obtain ⟨X', hX', hsame, hconsistent⟩ := ih hfactors hpoint
    have hold : ∀ v < next, X' v = X v := fun v hv => by
      rw [hsame v (hv.trans (Nat.lt_succ_self _)), Function.update_of_ne hv.ne]
    refine ⟨X', hX', hold, List.forall_mem_cons.mpr ⟨?_, hconsistent⟩⟩
    rw [Consistent, hsame next (Nat.lt_succ_self _), Function.update_self, hold x hx, hold y hy]

/-! ## Exactness -/

/-- The variables of a reduction: those that occur and those that were introduced. -/
def reductionVars (p : Polynomial .binary ℕ) (pairs : List (ℕ × ℕ)) : List ℕ :=
  p.vars ++ (introduced p.firstFree pairs).map (·.2)

omit [Coefficient.Closed K] in
/-- The reduced polynomial has the old variables and the new ones. -/
theorem Reduced.vars_subset (h : Reduced K target p.firstFree p pairs r) :
    ∀ v ∈ r.vars, v ∈ p.reductionVars pairs := fun v hv => by
  refine List.mem_append.mpr ((h.vars v hv).imp_right ?_)
  rintro ⟨e, he, rfl⟩
  exact List.mem_map_of_mem he

theorem vars_subset_reductionVars : ∀ v ∈ p.vars, v ∈ p.reductionVars pairs :=
  fun _ hv => List.mem_append_left _ hv

omit [Coefficient.Closed K] in
/-- At a consistent assignment both polynomials have the same value, as a coefficient. -/
theorem Reduction.exists_value_eq [Coefficient.Kind K]
    (h : Reduction target weight p.firstFree p pairs (.ok r)) (hp : p.WellFormed K) (h2 : 2 ≤ target)
    (hweight : WeightOf K weight) {a : Assignment ℕ}
    (ha : Assignment.Covers .binary (p.reductionVars pairs) a)
    (hconsistent : ∀ e ∈ introduced p.firstFree pairs, Consistent (a.point .binary) e) :
    ∃ c, p.value a = .ok c ∧ r.value a = .ok c := by
  have hr := h.reduced hp h2 hweight fun v hv => lt_firstFree hv
  obtain ⟨c, hc, hcK, hceval⟩ := value_eq hp (ha.mono vars_subset_reductionVars)
  obtain ⟨c', hc', hcK', hceval'⟩ := value_eq hr.wellFormed (ha.mono hr.vars_subset)
  have hcc : c = c' := (Coefficient.Kind.normal hcK).ext (Coefficient.Kind.normal hcK') fun ρ => by
    rw [hceval, hceval', h.eval_of_consistent hp h2 hweight (fun v hv => lt_firstFree hv)
      (Assignment.isPoint_point _ a) hconsistent]
  exact ⟨c, hc, hcc ▸ hc'⟩

/-- The minimizers of the reduced polynomial are the consistent ones of the polynomial. -/
theorem Reduction.minimizes_iff (h : Reduction target .auto p.firstFree p pairs (.ok r))
    (hp : p.WellFormed Coefficient.IsRational) (h2 : 2 ≤ target) {a : Assignment ℕ}
    (ha : Assignment.Covers .binary (p.reductionVars pairs) a) :
    r.Minimizes (p.reductionVars pairs) a ↔
      p.Minimizes p.vars a ∧
        ∀ e ∈ introduced p.firstFree pairs, Consistent (a.point .binary) e := by
  have hfresh : ∀ v ∈ p.vars, v < p.firstFree := fun v hv => lt_firstFree hv
  have hr := h.reduced hp h2 weightOf_auto hfresh
  have hlower : ∀ X, Domain.binary.IsPoint X →
      p.eval (fun _ => 0) X + violations X (introduced p.firstFree pairs) ≤
        r.eval (fun _ => 0) X := fun X hX => h.eval_add_violations_le hp h2 hfresh hX
  have hnonneg : ∀ X, (0 : ℚ) ≤ violations X (introduced p.firstFree pairs) := fun _ =>
    Nat.cast_nonneg _
  rw [Polynomial.minimizes_iff hr.wellFormed hr.vars_subset ha fun _ => 0,
    Polynomial.minimizes_iff hp (fun _ hv => hv) (ha.mono vars_subset_reductionVars) fun _ => 0]
  have hpoint := Assignment.isPoint_point .binary a
  constructor
  · intro hmin
    -- the reduced polynomial takes every value of the other one
    have hle : ∀ X, Domain.binary.IsPoint X →
        r.eval (fun _ => 0) (a.point .binary) ≤ p.eval (fun _ => 0) X := fun X hX => by
      obtain ⟨X', hX', hsame, hconsistent⟩ := exists_consistent
        (fun e he => ⟨(hr.factors e he).1.trans (hr.factors e he).2, (hr.factors e he).2⟩) hX
      rw [← eval_congr fun v hv => hsame v (hfresh v hv),
        ← h.eval_of_consistent hp h2 weightOf_auto hfresh hX' hconsistent]
      exact hmin X' hX'
    have hnone : violations (a.point .binary) (introduced p.firstFree pairs) = 0 := by
      have h1 := hlower _ hpoint
      have h2 := hle _ hpoint
      have h3 := hnonneg (a.point .binary)
      exact Nat.cast_eq_zero.mp (le_antisymm (by linarith) h3)
    refine ⟨fun X hX => ?_, fun e he => ?_⟩
    · have h1 := hlower _ hpoint
      have h2 := hle X hX
      have h3 := hnonneg (a.point .binary)
      linarith
    · simpa using List.countP_eq_zero.mp hnone e he
  · rintro ⟨hmin, hconsistent⟩ X hX
    rw [h.eval_of_consistent hp h2 weightOf_auto hfresh hpoint hconsistent]
    have h1 := hlower X hX
    have h2 := hmin X hX
    have h3 := hnonneg X
    linarith

/-- Degree reduction is exact. It ends for all coefficients and weights, with terms within the target
and a record of every introduced variable. With exact coefficients no value changes at consistent
assignments. With the automatic weight and no parameters every inconsistent variable costs at least one,
so that the minimizers are those of the polynomial, extended consistently. -/
theorem reduce_exact (p : Polynomial .binary ℕ) (hp : p.WellFormed Coefficient.Any) (target : ℕ)
    (h2 : 2 ≤ target) (weight : ReductionWeight) :
    ∃ pairs, Reduction target weight p.firstFree p pairs (p.reduce (some target) weight) ∧
      (∀ r, p.reduce (some target) weight = .ok r →
        (∀ t ∈ r.terms, t.1.length ≤ target) ∧
        (∀ e ∈ introduced p.firstFree pairs, r.ancillas.get? e.2 = some (.product e.1.1 e.1.2) ∧
          e.1.1 < e.1.2 ∧ e.1.2 < e.2) ∧
        ∀ v, (∀ e ∈ introduced p.firstFree pairs, e.2 ≠ v) →
          r.ancillas.get? v = p.ancillas.get? v) ∧
      (p.WellFormed Coefficient.Normal → WeightOf Coefficient.Normal weight →
        ∀ r, p.reduce (some target) weight = .ok r →
          ∀ a, Assignment.Covers .binary (p.reductionVars pairs) a →
            (∀ e ∈ introduced p.firstFree pairs, Consistent (a.point .binary) e) →
            ∃ c, p.value a = .ok c ∧ r.value a = .ok c) ∧
      (p.WellFormed Coefficient.IsRational → weight = .auto →
        ∃ r, p.reduce (some target) weight = .ok r ∧
          ∀ a, Assignment.Covers .binary (p.reductionVars pairs) a →
            (∃ m n : ℚ, p.valueNumber a = .ok (.exact m) ∧ r.valueNumber a = .ok (.exact n) ∧
              m + violations (a.point .binary) (introduced p.firstFree pairs) ≤ n) ∧
            (r.Minimizes (p.reductionVars pairs) a ↔
              p.Minimizes p.vars a ∧
                ∀ e ∈ introduced p.firstFree pairs, Consistent (a.point .binary) e)) := by
  have hfresh : ∀ v ∈ p.vars, v < p.firstFree := fun v hv => lt_firstFree hv
  have hany : WeightOf Coefficient.Any weight := by cases weight <;> trivial
  obtain ⟨pairs, hrun⟩ := exists_reduction hp h2 hany
  refine ⟨pairs, hrun, fun r hr => ?_, fun hnormal hweight r hr a ha hconsistent => ?_,
    fun hrational hauto => ?_⟩
  · rw [hr] at hrun
    have hreduced := hrun.reduced hp h2 hany hfresh
    exact ⟨degree_le_iff.mp hreduced.degree_le, fun e he => ⟨hreduced.recorded e he,
      hreduced.factors e he⟩, hreduced.others⟩
  · rw [hr] at hrun
    exact hrun.exists_value_eq hnormal h2 hweight ha hconsistent
  · subst hauto
    obtain ⟨r, hr⟩ := hrun.exists_ok hrational h2 hfresh
    rw [hr] at hrun
    have hreduced := hrun.reduced hrational h2 weightOf_auto hfresh
    refine ⟨r, hr, fun a ha => ⟨⟨_, _,
      valueNumber_eq hrational (ha.mono vars_subset_reductionVars) fun _ => 0,
      valueNumber_eq hreduced.wellFormed (ha.mono hreduced.vars_subset) fun _ => 0, ?_⟩,
      hrun.minimizes_iff hrational h2 ha⟩⟩
    exact hrun.eval_add_violations_le hrational h2 hfresh (Assignment.isPoint_point _ a)

/-- A term with three variables, brought to two of them. -/
theorem reduce_exact_cubic :
    ∃ pairs r, (ofTerms [([0, 1, 2], 1)] : Polynomial .binary ℕ).reduce (some 2) .auto = .ok r ∧
      (∀ t ∈ r.terms, t.1.length ≤ 2) ∧
      (∀ e ∈ introduced (firstFree (ofTerms [([0, 1, 2], 1)])) pairs,
        r.ancillas.get? e.2 = some (.product e.1.1 e.1.2) ∧ e.1.1 < e.1.2 ∧ e.1.2 < e.2) ∧
      (∀ a, Assignment.Covers .binary (reductionVars (ofTerms [([0, 1, 2], 1)]) pairs) a →
        (∀ e ∈ introduced (firstFree (ofTerms [([0, 1, 2], 1)])) pairs,
          Consistent (a.point .binary) e) →
        ∃ c, (ofTerms [([0, 1, 2], 1)] : Polynomial .binary ℕ).value a = .ok c ∧
          r.value a = .ok c) ∧
      ∀ a, Assignment.Covers .binary (reductionVars (ofTerms [([0, 1, 2], 1)]) pairs) a →
        (∃ m n : ℚ, (ofTerms [([0, 1, 2], 1)] : Polynomial .binary ℕ).valueNumber a = .ok (.exact m) ∧
          r.valueNumber a = .ok (.exact n) ∧
          m + violations (a.point .binary)
            (introduced (firstFree (ofTerms [([0, 1, 2], 1)])) pairs) ≤ n) ∧
        (r.Minimizes (reductionVars (ofTerms [([0, 1, 2], 1)]) pairs) a ↔
          (ofTerms [([0, 1, 2], 1)] : Polynomial .binary ℕ).Minimizes
              (vars (ofTerms [([0, 1, 2], 1)] : Polynomial .binary ℕ)) a ∧
            ∀ e ∈ introduced (firstFree (ofTerms [([0, 1, 2], 1)])) pairs,
              Consistent (a.point .binary) e) := by
  have hrational : (ofTerms [([0, 1, 2], 1)] : Polynomial .binary ℕ).WellFormed
      Coefficient.IsRational :=
    WellFormed.ofTerms (List.forall_mem_singleton.mpr ⟨1, rfl⟩)
  obtain ⟨pairs, -, hstructure, hvalue, hauto⟩ := reduce_exact (ofTerms [([0, 1, 2], 1)])
    (WellFormed.ofTerms fun _ _ => trivial) 2 le_rfl .auto
  obtain ⟨r, hr, hminimizes⟩ := hauto hrational rfl
  obtain ⟨hdegree, hrecorded, -⟩ := hstructure r hr
  exact ⟨pairs, r, hr, hdegree, hrecorded, hvalue hrational.normal trivial r hr, hminimizes⟩

end PseudoBoolean.Polynomial

import PseudoBoolean.Label
import PseudoBoolean.Proofs.Polynomial.Minimum

/-!
# The two evaluators form the same sum

A search evaluates compiled terms, whose masks it tests against a code; the plain evaluation multiplies
the values of the variables of each term. That both have the same value in the rational numbers is not
enough as soon as a coefficient is a double: a sum of doubles depends on the order in which it is formed.

Both evaluations form their sum by steps, each of which adds or subtracts a number (`SumStep`). The plain
one makes the steps `Polynomial.steps` (`valueNumber_eq_run`), and the compiled one the steps
`Compiled.steps` (`Compiled.eval_eq_run`). At every code the second list is the first one without the
constant, which has been taken into the offset before; it comes first because the terms are sorted. So the
values are the same number (`compiled_steps`), and no law of arithmetic is needed for it.
-/

namespace PseudoBoolean

/-! ## Sums by steps -/

/-- A step by which a sum is formed: a number is added or subtracted. -/
inductive SumStep where
  | plus (c : Number)
  | minus (c : Number)
  deriving DecidableEq

namespace SumStep

/-- The sum after a step. -/
def apply (sum : Number) : SumStep → Number
  | plus c => sum + c
  | minus c => sum - c

/-- The sum after some steps, one after the other. -/
def run (sum : Number) (steps : List SumStep) : Number :=
  steps.foldl apply sum

/-- The steps for a coefficient whose term has a value: none if it is neither one nor minus one. -/
def ofValue (value : ℤ) (c : Number) : List SumStep :=
  if value = 1 then [plus c] else if value = -1 then [minus c] else []

/-- The steps for a coefficient whose term is given by a mask. -/
def ofMask (d : Domain) (code mask : Mask) (c : Number) : List SumStep :=
  match d with
  | .binary => if code.includes mask then [plus c] else []
  | .spin => if Mask.size (code &&& mask) % 2 = 1 then [minus c] else [plus c]

/-- Steps one after the other run one after the other. -/
theorem run_append (sum : Number) (steps rest : List SumStep) :
    run sum (steps ++ rest) = run (run sum steps) rest :=
  List.foldl_append

theorem addSigned_num (sum c : Number) (value : ℤ) :
    Polynomial.addSigned (.num sum) value (.num c) = .num (run sum (ofValue value c)) := by
  unfold Polynomial.addSigned ofValue
  split
  · rfl
  · split
    · rfl
    · rfl

/-- Adding a compiled term to the sum is running its steps. -/
theorem addTerm_eq_run (d : Domain) (code mask : Mask) (sum c : Number) :
    Compiled.addTerm d code sum mask c = run sum (ofMask d code mask c) := by
  cases d with
  | binary =>
    simp only [Compiled.addTerm, ofMask]
    split
    · rfl
    · rfl
  | spin =>
    simp only [Compiled.addTerm, ofMask]
    split
    · rfl
    · rfl

/-- The mask of the empty term adds its coefficient. -/
theorem ofMask_ofPositions_nil (d : Domain) (code : Mask) (c : Number) :
    ofMask d code (.ofPositions []) c = [plus c] := by
  cases d with
  | binary => simp [ofMask, Mask.ofPositions, Mask.includes]
  | spin => simp [ofMask, Mask.ofPositions, Mask.size, Mask.countBelow]

end SumStep

/-! ## The steps of the plain evaluation -/

namespace Polynomial

variable {d : Domain} {V : Type} [Variable V] {p : Polynomial d V} {a : Assignment V}
  {terms : List (Term V × Number)}

/-- Sorted terms in normal form, all of them with numbers as coefficients. -/
structure IsNumeric (p : Polynomial d V) : Prop where
  sorted : p.terms.Sorted
  increasing : ∀ e ∈ p.terms, Increasing e.1
  numeric : ∀ e ∈ p.terms, e.2.isNumeric

/-- The steps for a term with its coefficient. -/
def termSteps (d : Domain) (a : Assignment V) (t : Term V × Number) : Except Error (List SumStep) := do
  return SumStep.ofValue (← termValue d a t.1) t.2

/-- The steps by which the value at an assignment is formed, one term after the other. -/
def steps (p : Polynomial d V) (a : Assignment V) : Except Error (List SumStep) := do
  return (← (← p.numericTerms).mapM (termSteps d a)).flatten

omit [Variable V] in
/-- A polynomial with numbers for coefficients has a list of numeric terms. -/
theorem exists_numericTerms (h : ∀ e ∈ p.terms, e.2.isNumeric) :
    ∃ terms, p.numericTerms = .ok terms ∧ p.terms = terms.map fun t => (t.1, .num t.2) := by
  rw [numericTerms]
  generalize p.terms = entries at h
  induction entries with
  | nil => exact ⟨[], rfl, rfl⟩
  | cons e entries ih =>
    obtain ⟨he, hentries⟩ := List.forall_mem_cons.mp h
    obtain ⟨terms, hok, rfl⟩ := ih hentries
    obtain ⟨t, c⟩ := e
    cases c with
    | num n => exact ⟨(t, n) :: terms, by rw [List.mapM_cons, hok]; rfl, rfl⟩
    | sym s => cases he

/-- The direct evaluation adds the steps of each term to the sum, or fails where a term fails. -/
theorem foldlM_eq_run (d : Domain) (a : Assignment V) (terms : List (Term V × Number)) (sum : Number) :
    (terms.map fun t => (t.1, Coefficient.num t.2)).foldlM
        (fun sum t => do return addSigned sum (← termValue d a t.1) t.2) (.num sum) =
      (terms.mapM (termSteps d a)).map fun steps => .num (SumStep.run sum steps.flatten) := by
  induction terms generalizing sum with
  | nil => rfl
  | cons t terms ih =>
    rw [List.map_cons, List.foldlM_cons, List.mapM_cons, termSteps]
    cases termValue d a t.1 with
    | error e => rfl
    | ok value =>
      have hstep := ih (SumStep.run sum (SumStep.ofValue value t.2))
      rw [← SumStep.addSigned_num] at hstep
      refine hstep.trans ?_
      cases terms.mapM (termSteps d a) with
      | error e => rfl
      | ok steps =>
        refine congrArg (fun total => Except.ok (Coefficient.num total)) ?_
        exact (SumStep.run_append sum _ _).symm

/-- The steps of a polynomial are those of its terms one after the other. -/
theorem steps_eq (h : p.numericTerms = .ok terms) (a : Assignment V) :
    p.steps a = (terms.mapM (termSteps d a)).map List.flatten := by
  rw [steps, h]
  rfl

/-- The plain evaluation carries out its steps from zero, or fails where they do. -/
theorem valueNumber_eq_run (h : ∀ e ∈ p.terms, e.2.isNumeric) (a : Assignment V) :
    p.valueNumber a = (p.steps a).map (SumStep.run 0) := by
  obtain ⟨terms, hok, hterms⟩ := exists_numericTerms h
  have hvalue : p.value a =
      (terms.mapM (termSteps d a)).map fun steps => .num (SumStep.run 0 steps.flatten) := by
    rw [value, hterms]
    exact foldlM_eq_run d a terms 0
  rw [valueNumber, hvalue, steps_eq hok]
  cases terms.mapM (termSteps d a) with
  | error e => rfl
  | ok steps => rfl

end Polynomial

/-! ## The steps of the compiled evaluation -/

namespace Compiled

variable {d : Domain} {V : Type} [Variable V] {vars : List V} {code : ℕ} {t : Term V}
  {terms : List (Term V × Number)}

/-- The steps of the evaluation at a code, which starts from the offset. -/
def steps (d : Domain) (compiled : Compiled) (code : Mask) : List SumStep :=
  compiled.terms.flatMap fun t => SumStep.ofMask d code t.1 t.2

/-- The compiled evaluation starts at the offset and runs the compiled steps. -/
theorem eval_eq_run (d : Domain) (compiled : Compiled) (code : Mask) :
    compiled.eval d code = SumStep.run compiled.offset (compiled.steps d code) := by
  rw [eval, steps, SumStep.run, List.foldl_flatMap]
  congr 1
  funext sum t
  exact SumStep.addTerm_eq_run d code t.1 sum t.2

/-- A mask makes the steps of the value of its term at the point of the code. -/
theorem ofMask_eq_ofValue (hlength : vars.length ≤ 64) (h : ∀ v ∈ t, v ∈ vars) (hnodup : t.Nodup)
    (hcode : code < 2 ^ 64) {value : ℤ} (hvalue : (value : ℚ) = Term.eval (codePoint d vars code) t)
    (c : Number) :
    SumStep.ofMask d (.ofNat code) (.ofPositions (t.map vars.idxOf)) c = SumStep.ofValue value c := by
  have hpositions : ∀ i ∈ t.map vars.idxOf, i < 64 :=
    List.forall_mem_map.mpr fun v hv => (List.idxOf_lt_length_of_mem (h v hv)).trans_le hlength
  have hdistinct : (t.map vars.idxOf).Nodup :=
    hnodup.map_on fun v hv _ _ heq => (List.idxOf_inj (h v hv)).mp heq
  have hword : (UInt64.ofNat code).toNat = code := Mask.toNat_ofNat hcode
  cases d with
  | binary =>
    simp only [SumStep.ofMask, Mask.includes_ofPositions hpositions, hword]
    rw [eval_codePoint_binary] at hvalue
    split
    · rename_i hset
      rw [if_pos hset] at hvalue
      have hone : value = 1 := by exact_mod_cast hvalue
      rw [hone]
      rfl
    · rename_i hset
      rw [if_neg hset] at hvalue
      have hzero : value = 0 := by exact_mod_cast hvalue
      rw [hzero]
      rfl
  | spin =>
    simp only [SumStep.ofMask, Mask.size_and_ofPositions hpositions hdistinct, hword]
    rw [eval_codePoint_spin] at hvalue
    split
    · rename_i hodd
      rw [if_pos hodd] at hvalue
      have hminus : value = -1 := by exact_mod_cast hvalue
      rw [hminus]
      rfl
    · rename_i hodd
      rw [if_neg hodd] at hvalue
      have hone : value = 1 := by exact_mod_cast hvalue
      rw [hone]
      rfl

/-- The constants and the masks of some terms. -/
def ofTerms (vars : List V) (terms : List (Term V × Number)) : Compiled where
  offset := SumStep.run 0 ((terms.filter fun t => t.1.isEmpty).map fun t => .plus t.2)
  terms := (terms.filter fun t => !t.1.isEmpty).map fun t =>
    (.ofPositions (t.1.map vars.idxOf), t.2)

/-- A polynomial whose variables are listed compiles to its numeric terms. -/
theorem ofPolynomial_eq {p : Polynomial d V} (hterms : p.numericTerms = .ok terms)
    (h : ∀ t ∈ terms, ∀ v ∈ t.1, v ∈ vars) : ofPolynomial p vars = .ok (ofTerms vars terms) := by
  have hoffset : (terms.filter fun t => t.1.isEmpty).foldl (fun sum t => sum + t.2) 0 =
      SumStep.run 0 ((terms.filter fun t => t.1.isEmpty).map fun t => .plus t.2) := by
    rw [SumStep.run, List.foldl_map]
    rfl
  have hmasks : (terms.filter fun t => !t.1.isEmpty).mapM
        (fun t => do return (Mask.ofPositions (← positions vars t.1), t.2)) =
      Except.ok ((terms.filter fun t => !t.1.isEmpty).map fun t =>
        (Mask.ofPositions (t.1.map vars.idxOf), t.2)) := by
    refine mapM_eq_ok fun t ht => ?_
    rw [positions_eq (h t (List.mem_of_mem_filter ht))]
    rfl
  rw [ofPolynomial, hterms, ofTerms, ← hoffset]
  exact congrArg (Except.map fun masks => (⟨_, masks⟩ : Compiled)) hmasks

end Compiled

namespace Polynomial

variable {d : Domain} {V : Type} [Variable V] {p : Polynomial d V} {vars : List V} {code : ℕ}
  {terms : List (Term V × Number)}

theorem compare_nil_ne_lt (t : Term V) : compare t [] ≠ .lt := by
  cases t with
  | nil => simp
  | cons v t => simp

/-- The empty term precedes all others. -/
theorem filter_isEmpty_append (h : Table.Sorted terms) :
    (terms.filter fun t => t.1.isEmpty) ++ (terms.filter fun t => !t.1.isEmpty) = terms := by
  cases terms with
  | nil => rfl
  | cons t terms =>
    -- nothing precedes the empty term, so only the first term can be empty
    have hlater : ∀ s ∈ terms, s.1.isEmpty = false := by
      intro s hs
      have hlt : compare t.1 s.1 = .lt := (List.pairwise_cons.mp h).1 s hs
      rw [List.isEmpty_eq_false_iff]
      intro hempty
      rw [hempty] at hlt
      exact compare_nil_ne_lt t.1 hlt
    have hnone : (terms.filter fun t => t.1.isEmpty) = [] :=
      List.filter_eq_nil_iff.mpr fun s hs => by simp [hlater s hs]
    have hall : (terms.filter fun t => !t.1.isEmpty) = terms :=
      List.filter_eq_self.mpr fun s hs => by simp [hlater s hs]
    rw [List.filter_cons, List.filter_cons, hnone, hall]
    by_cases ht : t.1.isEmpty
    · simp [ht]
    · simp [ht]

/-- The steps for a term at a decoded assignment are those of its mask. -/
theorem termSteps_decode {t : Term V} (hnodup : vars.Nodup) (hlength : vars.length ≤ 64)
    (hcode : code < 2 ^ 64) (ht : t.Nodup) (h : ∀ v ∈ t, v ∈ vars) (c : Number) :
    termSteps d (decode d vars code) (t, c) =
      .ok (SumStep.ofMask d (.ofNat code) (.ofPositions (t.map vars.idxOf)) c) := by
  have hcovers : Assignment.Covers d vars (decode d vars code) := covers_decode hnodup
  obtain ⟨value, hvalue, heval, -⟩ := termValue_eq (hcovers.mono h)
  have hpoint : Term.eval ((decode d vars code).point d) t = Term.eval (codePoint d vars code) t :=
    Term.eval_congr fun v hv => point_decode hnodup (h v hv)
  rw [termSteps, hvalue, Compiled.ofMask_eq_ofValue hlength h ht hcode (heval.trans hpoint) c]
  rfl

/-- At a code the plain evaluation adds the constants and then makes the steps of the compiled one. -/
theorem steps_decode (hp : p.IsNumeric) (hterms : p.numericTerms = .ok terms)
    (heq : p.terms = terms.map fun t => (t.1, .num t.2)) (hnodup : vars.Nodup)
    (h : ∀ v ∈ p.vars, v ∈ vars) (hlength : vars.length ≤ 64) (hcode : code < 2 ^ 64) :
    p.steps (decode d vars code) =
      .ok (((terms.filter fun t => t.1.isEmpty).map fun t => .plus t.2) ++
        (Compiled.ofTerms vars terms).steps d (.ofNat code)) := by
  let maskSteps : Term V × Number → List SumStep := fun t =>
    SumStep.ofMask d (.ofNat code) (.ofPositions (t.1.map vars.idxOf)) t.2
  have hmem : ∀ t ∈ terms, (t.1, Coefficient.num t.2) ∈ p.terms := by
    intro t ht
    rw [heq]
    exact List.mem_map.mpr ⟨t, ht, rfl⟩
  have hsorted : Table.Sorted terms := by
    have hsorted := hp.sorted
    rw [heq] at hsorted
    exact List.pairwise_map.mp hsorted
  have hstep : ∀ t ∈ terms, termSteps d (decode d vars code) t = .ok (maskSteps t) := fun t ht =>
    termSteps_decode hnodup hlength hcode (hp.increasing _ (hmem t ht)).nodup
      (fun v hv => h v (mem_vars.mpr ⟨_, hmem t ht, hv⟩)) t.2
  have hconstant : ∀ t ∈ terms.filter fun t => t.1.isEmpty, maskSteps t = [.plus t.2] := by
    intro t ht
    have hempty : t.1 = [] := List.isEmpty_iff.mp (List.mem_filter.mp ht).2
    show SumStep.ofMask d (.ofNat code) (.ofPositions (t.1.map vars.idxOf)) t.2 = [.plus t.2]
    rw [hempty]
    exact SumStep.ofMask_ofPositions_nil d (.ofNat code) t.2
  rw [steps_eq hterms, mapM_eq_ok hstep]
  refine congrArg Except.ok ?_
  calc (terms.map maskSteps).flatten
      = terms.flatMap maskSteps := List.flatMap_def.symm
    _ = (terms.filter fun t => t.1.isEmpty).flatMap maskSteps ++
          (terms.filter fun t => !t.1.isEmpty).flatMap maskSteps := by
        rw [← List.flatMap_append, filter_isEmpty_append hsorted]
    _ = _ := by
        rw [List.flatMap_congr hconstant, ← List.map_eq_flatMap, Compiled.steps, Compiled.ofTerms,
          List.flatMap_map]

/-- If all coefficients are numbers, exact or not, a search of at most 63 variables evaluates as the plain
evaluation does. The constants are added first, which makes the offset. At every code, the plain evaluation
of the decoded assignment makes these additions and then the steps of the compiled evaluation, in the same
order, so that both return the same number. -/
theorem compiled_same_steps (hp : p.IsNumeric) (hnodup : vars.Nodup) (h : ∀ v ∈ p.vars, v ∈ vars)
    (hlength : vars.length ≤ enumerationLimit) :
    ∃ (compiled : Compiled) (constants : List Number), Compiled.ofPolynomial p vars = .ok compiled ∧
      compiled.offset = SumStep.run 0 (constants.map .plus) ∧
      ∀ code < 2 ^ vars.length,
        (p.steps (decode d vars code) =
          .ok (constants.map .plus ++ compiled.steps d (.ofNat code))) ∧
        p.valueNumber (decode d vars code) = (p.steps (decode d vars code)).map (SumStep.run 0) ∧
        compiled.eval d (.ofNat code) = SumStep.run compiled.offset (compiled.steps d (.ofNat code)) ∧
        p.valueNumber (decode d vars code) = .ok (compiled.eval d (.ofNat code)) := by
  obtain ⟨terms, hterms, heq⟩ := exists_numericTerms hp.numeric
  have hword : vars.length < 64 := Nat.lt_succ_of_le hlength
  have hvars : ∀ t ∈ terms, ∀ v ∈ t.1, v ∈ vars := by
    intro t ht v hv
    refine h v (mem_vars.mpr ⟨(t.1, .num t.2), ?_, hv⟩)
    rw [heq]
    exact List.mem_map.mpr ⟨t, ht, rfl⟩
  let constants := (terms.filter fun t => t.1.isEmpty).map (·.2)
  have hconstants : ((terms.filter fun t => t.1.isEmpty).map fun t => SumStep.plus t.2) =
      constants.map .plus := by
    rw [List.map_map]
    rfl
  have hoffset : (Compiled.ofTerms vars terms).offset = SumStep.run 0 (constants.map .plus) := by
    rw [← hconstants]
    rfl
  refine ⟨_, constants, Compiled.ofPolynomial_eq hterms hvars, hoffset, fun code hcode => ?_⟩
  have hsteps := steps_decode hp hterms heq hnodup h hword.le
    (hcode.trans (Nat.pow_lt_pow_right Nat.one_lt_two hword))
  have hvalue := valueNumber_eq_run hp.numeric (decode d vars code)
  have heval := Compiled.eval_eq_run d (Compiled.ofTerms vars terms) (.ofNat code)
  rw [hconstants] at hsteps
  refine ⟨hsteps, hvalue, heval, ?_⟩
  rw [hvalue, hsteps, heval, hoffset, ← SumStep.run_append]
  rfl

/-- One constant and two coefficients, the last of them exact. -/
def tenths : Polynomial .spin Label :=
  ofTerms [([], .num (.float 0.1)), ([.name "x"], .num (.float 0.2)),
    ([.name "x", .name "y"], .num (.exact (3 / 10)))]

/-- Where `y` has the value minus one, the sum is that of `0.1` and `0.2` less `0.3`: the steps round, so it
is not zero. -/
theorem compiled_same_steps_tenths :
    ∃ compiled, Compiled.ofPolynomial tenths [.name "y", .name "x"] = .ok compiled ∧
      tenths.valueNumber (decode .spin [.name "y", .name "x"] 1) = .ok (compiled.eval .spin 1) ∧
      compiled.eval .spin 1 = .float 5.551115123125783e-17 := by
  have hnumeric : tenths.IsNumeric := by
    have hterms : tenths.WellFormed Coefficient.Any := WellFormed.ofTerms fun _ _ => trivial
    exact ⟨hterms.terms.sorted, fun e he => (hterms.terms.entries e he).increasing, by decide +kernel⟩
  have hvars : ∀ v ∈ tenths.vars, v ∈ [Label.name "y", .name "x"] := by decide +kernel
  obtain ⟨compiled, constants, hok, -, hcodes⟩ :=
    compiled_same_steps hnumeric (by decide) hvars (by decide)
  obtain ⟨-, -, -, hvalue⟩ := hcodes 1 (by decide)
  have heval : (Compiled.ofPolynomial tenths [.name "y", .name "x"]).map (·.eval .spin 1) =
      .ok (.float 5.551115123125783e-17) := by decide +kernel
  rw [hok] at heval
  exact ⟨compiled, hok, hvalue, Except.ok.inj heval⟩

end Polynomial

end PseudoBoolean

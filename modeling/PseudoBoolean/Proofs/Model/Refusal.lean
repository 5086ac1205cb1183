import PseudoBoolean.Proofs.Model.Run

/-!
# What a refused constraint leaves behind

A constraint is refused before its range is found, or because its slack has no range. In the first case
the model stays as it is. In the second, the number of the next slack bit has been raised above the
ancillas of the constraint before, and it stays there. Everything else is as it was
(`addConstraint_refused`).

The next inequality raises that number too, at least to where its slack starts (`nextSlack`). So two models
that otherwise have the same data, and in which the slack starts at the same number, cannot be told apart
by what is done to them later: each operation gives the same answer and keeps them so
(`Agrees.apply`), and so does every sequence of operations (`Agrees.results_eq`). A refused constraint
whose ancillas the slack would have passed in any case leaves no trace.
-/

namespace PseudoBoolean

open PseudoBoolean.Polynomial

namespace Model

variable {d : Domain} {m m' after : Model d} {r : Relation} {p : Polynomial d Label}
  {options : ConstraintOptions} {e : Error}

/-! ## Where the next slack starts -/

/-- The number from which the slack of an inequality without ancillas is numbered. -/
def nextSlack (m : Model d) : UInt32 :=
  max m.nextAncilla (nextFree m.objective.index.labels)

theorem skipAncillas_eq (m : Model d) (p : Polynomial d Label) :
    m.skipAncillas p = { m with nextAncilla := max m.nextSlack (nextFree p.index.labels) } := by
  have hassoc : max m.nextAncilla (max (nextFree m.objective.index.labels) (nextFree p.index.labels)) =
      max m.nextSlack (nextFree p.index.labels) := by
    apply UInt32.toNat_inj.mp
    rw [nextSlack, toNat_max, toNat_max, toNat_max, toNat_max]
    omega
  rw [← hassoc]
  rfl

/-- Ancillas that the next slack would have passed in any case make no difference. -/
theorem nextSlack_skipAncillas (h : nextFree p.index.labels ≤ m.nextSlack) :
    (m.skipAncillas p).nextSlack = m.nextSlack := by
  apply UInt32.toNat_inj.mp
  rw [UInt32.le_iff_toNat_le, nextSlack, toNat_max] at h
  rw [skipAncillas, nextSlack, nextSlack, toNat_max, toNat_max, toNat_max, toNat_max]
  dsimp only
  omega

/-! ## Models that cannot be told apart -/

/-- The models have the same data, and in both the next slack starts at the same number. -/
structure Agrees (m m' : Model d) : Prop where
  objective : m.objective = m'.objective
  constraints : m.constraints = m'.constraints
  diagnostics : m.diagnostics = m'.diagnostics
  nextSlack : m.nextSlack = m'.nextSlack

theorem Agrees.refl (m : Model d) : m.Agrees m :=
  ⟨rfl, rfl, rfl, rfl⟩

/-- The same happens to the data of both, and no variable of the objective loses its number. -/
theorem Agrees.grow {after' : Model d} (h : m.Agrees m') (hobjective : after.objective = after'.objective)
    (hconstraints : after.constraints = after'.constraints)
    (hdiagnostics : after.diagnostics = after'.diagnostics)
    (hnext : after.nextAncilla = m.nextAncilla) (hnext' : after'.nextAncilla = m'.nextAncilla)
    (hlabels : m.objective.index.labels ⊆ after.objective.index.labels) : after.Agrees after' := by
  refine ⟨hobjective, hconstraints, hdiagnostics, UInt32.toNat_inj.mp ?_⟩
  have hmono := UInt32.le_iff_toNat_le.mp (nextFree_mono hlabels)
  have hbefore := congrArg UInt32.toNat h.nextSlack
  rw [Model.nextSlack, Model.nextSlack, toNat_max, toNat_max, ← h.objective] at hbefore
  rw [Model.nextSlack, Model.nextSlack, toNat_max, toNat_max, hnext, hnext', ← hobjective]
  omega

/-- An inequality is compiled in the same model. -/
theorem Agrees.skipAncillas (h : m.Agrees m') (p : Polynomial d Label) :
    m.skipAncillas p = m'.skipAncillas p := by
  rw [skipAncillas_eq, skipAncillas_eq, h.nextSlack, h.objective, h.constraints, h.diagnostics]

theorem Agrees.addEquality (h : m.Agrees m') (p : Polynomial d Label) (options : ConstraintOptions) :
    (m.addConstraint .eq p options).2 = (m'.addConstraint .eq p options).2 ∧
      (m.addConstraint .eq p options).1.Agrees (m'.addConstraint .eq p options).1 := by
  simp only [addConstraint, Model.addEquality, h.constraints]
  cases equalityRange p options with
  | error e => exact ⟨rfl, h⟩
  | ok range =>
    refine ⟨rfl, h.grow ?_ ?_ ?_ rfl rfl (labels_subset_addPenalty m p options.weight).1⟩
    · exact congrArg (· + (p.pow 2).scale options.weight) h.objective
    · exact congrArg (· ++ [⟨.eq, p⟩]) h.constraints
    · exact congrArg (· ++ _) h.diagnostics

/-- An inequality makes the models equal, unless it is refused before its range is found. -/
theorem Agrees.addConstraint (h : m.Agrees m') (r : Relation) (p : Polynomial d Label)
    (options : ConstraintOptions) :
    (m.addConstraint r p options).2 = (m'.addConstraint r p options).2 ∧
      (m.addConstraint r p options).1.Agrees (m'.addConstraint r p options).1 := by
  cases r with
  | eq => exact h.addEquality p options
  | _ =>
    simp only [Model.addConstraint, h.skipAncillas p]
    cases options.bounds.elim p.bounds .ok with
    | error e => exact ⟨rfl, h⟩
    | ok range => exact ⟨rfl, .refl _⟩

/-! ## Later operations -/

/-- What is done to a model: a constraint is added, parameters get values, or the objective is changed in
place, which takes no number away from a variable. -/
inductive Operation (d : Domain) where
  | addConstraint (r : Relation) (p : Polynomial d Label) (options : ConstraintOptions)
  | substitute (values : Table String Coefficient)
  | change (f : Polynomial d Label → Polynomial d Label)
      (hf : ∀ q, q.index.labels ⊆ (f q).index.labels)

/-- What an operation shows: the answer to a constraint, and the data of the model afterwards. All that can
be asked of a model depends on these data alone. -/
structure Result (d : Domain) where
  answer : Option (Except Error (Option Diagnostic))
  objective : Polynomial d Label
  constraints : List (Constraint d)
  diagnostics : List Diagnostic

/-- The model after an operation, and the answer. -/
def Operation.apply (m : Model d) :
    Operation d → Model d × Option (Except Error (Option Diagnostic))
  | .addConstraint r p options =>
    let (after, answer) := m.addConstraint r p options
    (after, some answer)
  | .substitute values => (m.substitute values, none)
  | .change f _ => ({ m with objective := f m.objective }, none)

/-- What a sequence of operations shows. -/
def results (m : Model d) : List (Operation d) → List (Result d)
  | [] => []
  | operation :: rest =>
    let (after, answer) := operation.apply m
    ⟨answer, after.objective, after.constraints, after.diagnostics⟩ :: after.results rest

/-- One operation gives the same answer, and its results cannot be told apart either. -/
theorem Agrees.apply (h : m.Agrees m') (operation : Operation d) :
    (operation.apply m).2 = (operation.apply m').2 ∧
      (operation.apply m).1.Agrees (operation.apply m').1 := by
  cases operation with
  | addConstraint r p options =>
    obtain ⟨hanswer, hafter⟩ := h.addConstraint r p options
    exact ⟨congrArg some hanswer, hafter⟩
  | substitute values =>
    refine ⟨rfl, h.grow ?_ ?_ h.diagnostics rfl rfl (labels_prefix_mapCoefficients _ _).subset⟩
    · exact congrArg (·.substitute values) h.objective
    · exact congrArg (List.map fun c => { c with polynomial := c.polynomial.substitute values })
        h.constraints
  | change f hf =>
    exact ⟨rfl, h.grow (congrArg f h.objective) h.constraints h.diagnostics rfl rfl (hf _)⟩

/-- Whatever is done, the models show the same. -/
theorem Agrees.results_eq (h : m.Agrees m') (operations : List (Operation d)) :
    m.results operations = m'.results operations := by
  induction operations generalizing m m' with
  | nil => rfl
  | cons operation rest ih =>
    obtain ⟨hanswer, hafter⟩ := h.apply operation
    rw [results, results]
    simp only [hanswer, hafter.objective, hafter.constraints, hafter.diagnostics, ih hafter]

/-! ## Refused constraints -/

/-- The slack of an inequality starts above the ancillas that were skipped before. -/
theorem nextAncilla_skipAncillas_skipAncillas (m : Model d) (p q : Polynomial d Label) :
    ((m.skipAncillas p).skipAncillas q).nextAncilla =
      max (m.skipAncillas q).nextAncilla (nextFree p.index.labels) := by
  apply UInt32.toNat_inj.mp
  simp only [skipAncillas, toNat_max]
  omega

/-- A constraint that is refused leaves the objective, the constraints and the diagnostics as they were. If
it is an equation or its range was not found, it leaves the model as it was. Otherwise the slack of later
inequalities starts above its ancillas. If the slack would have started there in any case, no sequence of
later operations shows that there was a refused constraint. -/
theorem addConstraint_refused (m : Model d) (r : Relation) (p : Polynomial d Label)
    (options : ConstraintOptions) (h : m.addConstraint r p options = (after, .error e)) :
    after = { m with nextAncilla := after.nextAncilla } ∧
      ((r = .eq ∨ ∃ e', options.bounds.elim p.bounds .ok = .error e') → after = m) ∧
      (¬ (r = .eq ∨ ∃ e', options.bounds.elim p.bounds .ok = .error e') → ∀ q,
        (after.skipAncillas q).nextAncilla =
          max (m.skipAncillas q).nextAncilla (nextFree p.index.labels)) ∧
      (nextFree p.index.labels ≤ m.nextSlack →
        ∀ operations, after.results operations = m.results operations) := by
  cases refused_of_error h with
  | early hearly => exact ⟨rfl, fun _ => rfl, fun hfound => absurd hearly hfound, fun _ _ => rfl⟩
  | late hr hrange =>
    refine ⟨rfl, fun hearly => ?_, fun _ q => nextAncilla_skipAncillas_skipAncillas m p q,
      fun hskipped => ?_⟩
    · obtain ⟨e', he⟩ := hearly.resolve_left hr
      rw [he] at hrange
      cases hrange
    · exact Agrees.results_eq ⟨rfl, rfl, rfl, nextSlack_skipAncillas hskipped⟩

/-- An ancilla less one half. -/
def ancillaBelow : Polynomial .binary Label :=
  ofTerms [([.ancilla 5], 1), ([], .num (.exact (-1 / 2)))]

/-- An objective with a later ancilla. -/
def laterAncilla : Model .binary :=
  ofObjective (ofTerms [([.name "x"], 1), ([.ancilla 7], 1)])

/-- That the ancilla is below one half is refused, and no one can tell. -/
theorem addConstraint_refused_laterAncilla :
    ∃ after e, laterAncilla.addConstraint .lt ancillaBelow {} = (after, .error e) ∧
      ∀ operations, after.results operations = laterAncilla.results operations := by
  have hrefused : (laterAncilla.addConstraint .lt ancillaBelow {}).2 =
      .error (.malformed (.slackRange (.exact (-1)))) := by decide +kernel
  obtain ⟨-, -, -, hresults⟩ := addConstraint_refused laterAncilla .lt ancillaBelow {}
    (Prod.ext rfl hrefused)
  exact ⟨_, _, Prod.ext rfl hrefused, hresults (by decide +kernel)⟩

/-- In a model without ancillas it leaves a trace: the next slack bit has the number 6 and not 0. -/
theorem addConstraint_refused_ne :
    ∃ after e, (empty : Model .binary).addConstraint .lt ancillaBelow {} = (after, .error e) ∧
      after ≠ empty ∧
      ((empty : Model .binary).addConstraint .le atMostOne {}).1.objective.ancillas.keys = [.ancilla 0] ∧
      (after.addConstraint .le atMostOne {}).1.objective.ancillas.keys = [.ancilla 6] := by
  have hrefused : ((empty : Model .binary).addConstraint .lt ancillaBelow {}).2 =
      .error (.malformed (.slackRange (.exact (-1)))) := by decide +kernel
  refine ⟨_, _, Prod.ext rfl hrefused, fun h => ?_, by decide +kernel, by decide +kernel⟩
  have hnext : ((empty : Model .binary).addConstraint .lt ancillaBelow {}).1.nextAncilla = 6 := by
    decide +kernel
  exact absurd (hnext.symm.trans (congrArg Model.nextAncilla h)) (by decide)

end Model

end PseudoBoolean

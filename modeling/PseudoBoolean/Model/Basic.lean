import PseudoBoolean.Diagnostic
import PseudoBoolean.Model.Slack
import PseudoBoolean.Polynomial.Evaluation

/-! # Models

A model is an objective with constraints. A constraint is compiled into the objective as a penalty, and
it is kept as well, so that a solution can be checked against what was demanded.

- `P = 0` adds `λ * P ^ 2`.
- `P ≤ 0` adds `λ * (P + s) ^ 2`, where `s` is a slack of fresh bits that covers the range of `-P`.
- `P < 0` is taken as `P + 1 ≤ 0`, and `P ≥ 0` and `P > 0` as `-P ≤ 0` and `-P < 0`.

A constraint that its range decides needs no slack: nothing is added if it always holds, and the penalty
`λ * q ^ 2` of the polynomial `q` that is to be at most zero if it never does.
-/

namespace PseudoBoolean

/-- A constraint as it was demanded. -/
structure Constraint (d : Domain) where
  relation : Relation
  polynomial : Polynomial d Label

/-- How a constraint is compiled. -/
structure ConstraintOptions where
  /-- The weight of the penalty. -/
  weight : Coefficient := 1
  /-- Whether the slack has weights `1, 2, 4, …` rather than ones. -/
  logarithmic : Bool := true
  /-- The range of the polynomial, in place of the computed bounds. -/
  bounds : Option (Number × Number) := none
  deriving DecidableEq

/-- An objective with its constraints. -/
structure Model (d : Domain) where
  /-- The objective with the penalties of all constraints. -/
  objective : Polynomial d Label
  constraints : List (Constraint d)
  /-- The number of the next slack bit. -/
  nextAncilla : UInt32
  diagnostics : List Diagnostic

namespace Model

variable {d : Domain}

/-- Whether the exponents in all coefficients can be kept. -/
def fits (m : Model d) : Bool :=
  m.objective.fits && m.constraints.all (·.polynomial.fits)

/-- The model without objective and constraints. -/
def empty : Model d := ⟨.empty, [], 0, []⟩

/-- The least number above the ancillas of a list of labels. -/
def nextFree (labels : List Label) : UInt32 :=
  labels.foldl (fun (n : UInt32) label => match label with
    | .ancilla m => max n (m + 1)
    | _ => n) 0

/-- The model of an objective without constraints. -/
def ofObjective (p : Polynomial d Label) : Model d :=
  ⟨p, [], nextFree p.index.labels, []⟩

/-- The diagnostics of constraints that no assignment satisfies. -/
def unsatisfiable (m : Model d) : List Diagnostic :=
  m.diagnostics.filter (·.verdict = .neverSatisfied)

/-! ## Adding a constraint -/

/-- Records a constraint together with what its range says about it. -/
def recordConstraint (m : Model d) (r : Relation) (p : Polynomial d Label)
    (diagnostic : Option Diagnostic) : Model d :=
  { m with
    constraints := m.constraints ++ [⟨r, p⟩]
    diagnostics := m.diagnostics ++ diagnostic.toList }

/-- Adds a weighted square to the objective. -/
def addPenalty (m : Model d) (q : Polynomial d Label) (weight : Coefficient) : Model d :=
  { m with objective := m.objective + (q.pow 2).scale weight }

/-- The range by which a constraint `P = 0` is judged, if there is one: parameters in the coefficients
leave it open. -/
def equalityRange (p : Polynomial d Label) (options : ConstraintOptions) :
    Except Error (Option (Number × Number)) :=
  match options.bounds with
  | some range => .ok (some range)
  | none => if p.params.isEmpty then p.bounds.map some else .ok none

/-- Adds the constraint `P = 0`. -/
def addEquality (m : Model d) (p : Polynomial d Label) (options : ConstraintOptions) :
    Except Error (Model d × Option Diagnostic) := do
  let diagnostic := (← equalityRange p options).bind fun (lower, upper) =>
    Diagnostic.ofRange? m.constraints.length .eq lower upper
  return ((m.addPenalty p options.weight).recordConstraint .eq p diagnostic, diagnostic)

/-- The polynomial that is to be at most zero for an inequality to hold, with its lower bound. -/
def atMostZero (r : Relation) (p : Polynomial d Label) (lower upper : Number) :
    Polynomial d Label × Number :=
  match r with
  | .lt => (p.addConstant 1, lower + 1)
  | .ge => (-p, -upper)
  | .gt => ((-p).addConstant 1, -upper + 1)
  | .le | .eq => (p, lower)

/-- The greatest slack that a polynomial with a given lower bound can need. -/
def slackRange (lower : Number) : Except Error Nat :=
  let range := (-lower).floor
  match range.toInt64? with
  | some (.ofNat n) => .ok n
  | _ => .error (.malformed (.slackRange range))

/-- Adds the penalty of `q ≤ 0` with a slack of fresh bits. -/
def addSlackPenalty (m : Model d) (q : Polynomial d Label) (lower : Number)
    (options : ConstraintOptions) : Except Error (Model d) := do
  let weights ← Slack.weights (← slackRange lower) options.logarithmic
  let bits := Slack.bits m.nextAncilla weights
  let objective := { m.objective with
    ancillas := Slack.record m.constraints.length bits m.objective.ancillas }
  return { m with objective, nextAncilla := m.nextAncilla + UInt32.ofNat weights.length }.addPenalty
    (q + Slack.polynomial d bits) options.weight

/-- Raises the number of the next slack bit above all ancillas that the objective or a polynomial has
numbered. -/
def skipAncillas (m : Model d) (p : Polynomial d Label) : Model d :=
  let free := max (nextFree m.objective.index.labels) (nextFree p.index.labels)
  { m with nextAncilla := max m.nextAncilla free }

/-- Compiles an inequality, in a model whose next slack bit is free, given the range of its polynomial. -/
def compileInequality (m : Model d) (r : Relation) (p : Polynomial d Label) (lower upper : Number)
    (options : ConstraintOptions) : Except Error (Model d × Option Diagnostic) := do
  let diagnostic := Diagnostic.ofRange? m.constraints.length r lower upper
  let (q, least) := atMostZero r p lower upper
  let compiled ← match diagnostic.map Diagnostic.verdict with
    | some .alwaysSatisfied => pure m
    | some .neverSatisfied => pure (m.addPenalty q options.weight)
    | none => m.addSlackPenalty q least options
  return (compiled.recordConstraint r p diagnostic, diagnostic)

/-- Adds a constraint, and tells what its range says about it. The model that is left behind is given in
any case: a constraint that is refused after its range was found has still moved the number of the next
slack bit past the ancillas that it mentions. -/
def addConstraint (m : Model d) (r : Relation) (p : Polynomial d Label) (options : ConstraintOptions) :
    Model d × Except Error (Option Diagnostic) :=
  let settle (before : Model d) : Except Error (Model d × Option Diagnostic) →
      Model d × Except Error (Option Diagnostic)
    | .ok (after, diagnostic) => (after, .ok diagnostic)
    | .error e => (before, .error e)
  match r with
  | .eq => settle m (m.addEquality p options)
  | _ =>
    match options.bounds.elim p.bounds .ok with
    | .error e => (m, .error e)
    | .ok (lower, upper) =>
      let ready := m.skipAncillas p
      settle ready (ready.compileInequality r p lower upper options)

/-! ## Parameters -/

/-- Gives parameters their values in the objective and in all constraints. -/
def substitute (m : Model d) (values : Table String Coefficient) : Model d :=
  { m with
    objective := m.objective.substitute values
    constraints := m.constraints.map fun c => { c with polynomial := c.polynomial.substitute values } }

end Model

end PseudoBoolean

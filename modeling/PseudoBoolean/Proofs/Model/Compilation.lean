import PseudoBoolean.Model.Basic
import PseudoBoolean.Proofs.Model.Slack
import PseudoBoolean.Proofs.Polynomial.Evaluation
import PseudoBoolean.Proofs.Relation

/-!
# Compiled constraints

A constraint is refused, which leaves one of two models behind (`Refused`), or it is compiled in one of
four ways (`addConstraint_cases`): with the penalty `λ * P ^ 2` for an equation, and for an inequality with
nothing, with `λ * q ^ 2` or with `λ * (q + s) ^ 2`, where `q` is to be at most zero in the place of the
constraint (`atMostZero_spec`).

The slack bits get labels above all ancillas of the objective and the constraint, so their values can be
chosen without a change of either (`notMem_of_mem_slackLabels`). There is one for each of the
`slackWeights`, and all of them are recorded (`Compiled.records`).
-/

namespace PseudoBoolean

open PseudoBoolean.Polynomial

/-! ## Free labels -/

namespace Model

theorem toNat_max (a b : UInt32) : (max a b).toNat = max a.toNat b.toNat := by
  rw [show max a b = if a ≤ b then b else a from rfl]
  split <;> rename_i h <;> rw [UInt32.le_iff_toNat_le] at h <;> omega

/-- The next free number is the least one that is above every ancilla. -/
theorem nextFree_le_iff {labels : List Label} {k : ℕ} :
    (nextFree labels).toNat ≤ k ↔ ∀ n : UInt32, .ancilla n ∈ labels → (n + 1).toNat ≤ k := by
  -- the number from which the fold starts is one more that is not to be exceeded
  have key : ∀ step : UInt32 → Label → UInt32, (∀ start m, step start (.ancilla m) = max start (m + 1)) →
      (∀ start i, step start (.int i) = start) → (∀ start s, step start (.name s) = start) →
      ∀ start : UInt32, (labels.foldl step start).toNat ≤ k ↔
        start.toNat ≤ k ∧ ∀ n : UInt32, .ancilla n ∈ labels → (n + 1).toNat ≤ k := by
    intro step hancilla hint hname
    induction labels with
    | nil => simp
    | cons label labels ih =>
      intro start
      rw [List.foldl_cons, ih]
      cases label with
      | int i => simp [hint]
      | name s => simp [hname]
      | ancilla m =>
        rw [hancilla, toNat_max, Nat.max_le, and_assoc]
        simp
  rw [nextFree]
  refine (key _ (fun _ _ => rfl) (fun _ _ => rfl) (fun _ _ => rfl) 0).trans ?_
  exact and_iff_right (Nat.zero_le k)

/-- The next free number is above every ancilla, unless the number of one is the last. -/
theorem lt_nextFree {labels : List Label} {n : UInt32} (h : .ancilla n ∈ labels)
    (hn : n.toNat < 2 ^ 32 - 1) : n < nextFree labels := by
  have hle := nextFree_le_iff.mp le_rfl n h
  have hsucc : (n + 1).toNat = n.toNat + 1 := Slack.toNat_add_ofNat (i := 1) (by omega)
  rw [UInt32.lt_iff_toNat_lt]
  omega

/-- More labels do not lower the next free number. -/
theorem nextFree_mono {labels labels' : List Label} (h : labels ⊆ labels') :
    nextFree labels ≤ nextFree labels' :=
  UInt32.le_iff_toNat_le.mpr (nextFree_le_iff.mpr fun n hn => nextFree_le_iff.mp le_rfl n (h hn))

variable {d : Domain} {m : Model d} {p : Polynomial d Label}

/-- The labels of slack bits that a constraint introduces, given the model afterwards. -/
def slackLabels (m : Model d) (p : Polynomial d Label) (after : Model d) : List Label :=
  Slack.labels (m.skipAncillas p).nextAncilla after.nextAncilla

/-- The labels of ancillas are small enough for further ones to be counted. -/
def HasRoom (labels : List Label) : Prop :=
  ∀ n : UInt32, .ancilla n ∈ labels → n.toNat < 2 ^ 32 - 1

/-- Room for labels can be checked label by label. -/
theorem hasRoom_iff {labels : List Label} :
    (labels.all fun v => match v with
      | .ancilla n => n.toNat < 2 ^ 32 - 1
      | _ => true) ↔ HasRoom labels := by
  rw [List.all_eq_true]
  constructor
  · exact fun h n hn => of_decide_eq_true (h (.ancilla n) hn)
  · intro h v hv
    cases v with
    | ancilla n => exact decide_eq_true (h n hv)
    | int k => rfl
    | name s => rfl

instance (labels : List Label) : Decidable (HasRoom labels) :=
  decidable_of_iff _ hasRoom_iff

/-- Skipping ancillas does not lower the next free number. -/
theorem nextAncilla_le_skipAncillas : m.nextAncilla ≤ (m.skipAncillas p).nextAncilla := by
  rw [UInt32.le_iff_toNat_le, skipAncillas, toNat_max]
  exact Nat.le_max_left _ _

/-- The slack labels are new to the objective and to the constraint. -/
theorem notMem_of_mem_slackLabels {after : Model d} {v : Label}
    (hv : v ∈ m.slackLabels p after) (hroom : HasRoom m.objective.index.labels)
    (hroom' : HasRoom p.index.labels) :
    v ∉ m.objective.index.labels ∧ v ∉ p.index.labels := by
  obtain ⟨n, rfl, hle⟩ := Slack.isAncilla_of_mem_labels hv
  have hnext : (m.skipAncillas p).nextAncilla.toNat = max m.nextAncilla.toNat
      (max (nextFree m.objective.index.labels).toNat (nextFree p.index.labels).toNat) := by
    rw [skipAncillas, toNat_max, toNat_max]
  rw [UInt32.le_iff_toNat_le, hnext] at hle
  constructor
  · intro hmem
    have := UInt32.lt_iff_toNat_lt.mp (lt_nextFree hmem (hroom n hmem))
    omega
  · intro hmem
    have := UInt32.lt_iff_toNat_lt.mp (lt_nextFree hmem (hroom' n hmem))
    omega

/-! ## What adding a constraint can do -/

variable {r : Relation} {options : ConstraintOptions} {after : Model d} {diagnostic : Option Diagnostic}

/-- The bits of the slack of the next inequality. -/
def nextBits (m : Model d) (range : ℕ) (logarithmic : Bool) : List (Label × ℕ) :=
  Slack.bits m.nextAncilla (Slack.parts range logarithmic)

/-- The model with the slack bits of the next inequality recorded and counted. -/
def withBits (m : Model d) (range : ℕ) (logarithmic : Bool) : Model d :=
  { m with
    objective := { m.objective with
      ancillas := Slack.record m.constraints.length (m.nextBits range logarithmic)
        m.objective.ancillas }
    nextAncilla := m.nextAncilla + UInt32.ofNat (Slack.parts range logarithmic).length }

/-- The model with the penalty of an inequality whose slack has a given range. -/
def withSlack (m : Model d) (q : Polynomial d Label) (range : ℕ) (options : ConstraintOptions) :
    Model d :=
  (m.withBits range options.logarithmic).addPenalty
    (q + Slack.polynomial d (m.nextBits range options.logarithmic)) options.weight

/-- A slack whose weights cannot be had is refused with their error. -/
theorem addSlackPenalty_error {q : Polynomial d Label} {lower : Number} {range : ℕ} {e : Error}
    (hrange : slackRange lower = .ok range)
    (hweights : Slack.weights range options.logarithmic = .error e) :
    m.addSlackPenalty q lower options = .error e := by
  simp only [addSlackPenalty, hrange, hweights, bind, Except.bind]

/-- If the weights are found, the penalty is that of a slack with the parts of its range. -/
theorem addSlackPenalty_ok {q : Polynomial d Label} {lower : Number} {range : ℕ}
    (hrange : slackRange lower = .ok range)
    (hweights : Slack.weights range options.logarithmic =
      .ok (Slack.parts range options.logarithmic)) :
    m.addSlackPenalty q lower options = .ok (m.withSlack q range options) :=
  bind_eq_ok_iff.mpr ⟨range, hrange, bind_eq_ok_iff.mpr ⟨_, hweights, rfl⟩⟩

/-- The ways in which a constraint is compiled. -/
inductive Compiled (m : Model d) (r : Relation) (p : Polynomial d Label)
    (options : ConstraintOptions) : Model d → Prop
  | equality : r = .eq → Compiled m r p options (m.addPenalty p options.weight)
  | always {lower upper : Number} : r ≠ .eq → options.bounds.elim p.bounds .ok = .ok (lower, upper) →
      r.classify lower upper = some .alwaysSatisfied →
      Compiled m r p options (m.skipAncillas p)
  | never {lower upper : Number} : r ≠ .eq → options.bounds.elim p.bounds .ok = .ok (lower, upper) →
      r.classify lower upper = some .neverSatisfied →
      Compiled m r p options
        ((m.skipAncillas p).addPenalty (atMostZero r p lower upper).1 options.weight)
  | slack {lower upper : Number} {range : ℕ} : r ≠ .eq →
      options.bounds.elim p.bounds .ok = .ok (lower, upper) →
      r.classify lower upper = none → slackRange (atMostZero r p lower upper).2 = .ok range →
      Slack.weights range options.logarithmic = .ok (Slack.parts range options.logarithmic) →
      Compiled m r p options
        ((m.skipAncillas p).withSlack (atMostZero r p lower upper).1 range options)

/-- An inequality that was compiled went through one of the compiled forms and was recorded. -/
theorem exists_compiled_of_compileInequality {lower upper : Number} (hr : r ≠ .eq)
    (hbounds : options.bounds.elim p.bounds .ok = .ok (lower, upper))
    (h : (m.skipAncillas p).compileInequality r p lower upper options = .ok (after, diagnostic)) :
    ∃ compiled, Compiled m r p options compiled ∧
      after = compiled.recordConstraint r p diagnostic := by
  rw [compileInequality] at h
  simp only [Diagnostic.ofRange?] at h
  cases hverdict : r.classify lower upper with
  | none =>
    simp only [hverdict, Option.map_none] at h
    cases hrange : slackRange (atMostZero r p lower upper).2 with
    | error e =>
      rw [addSlackPenalty, hrange] at h
      cases h
    | ok range =>
      cases hweights : Slack.weights range options.logarithmic with
      | error e =>
        rw [addSlackPenalty_error hrange hweights] at h
        cases h
      | ok weights =>
        obtain rfl := Slack.eq_parts hweights
        rw [addSlackPenalty_ok hrange hweights] at h
        obtain ⟨rfl, rfl⟩ := Prod.mk.inj (Except.ok.inj h)
        exact ⟨_, .slack hr hbounds hverdict hrange hweights, rfl⟩
  | some verdict =>
    simp only [hverdict, Option.map_some] at h
    cases verdict with
    | alwaysSatisfied =>
      obtain ⟨rfl, rfl⟩ := Prod.mk.inj (Except.ok.inj h)
      exact ⟨_, .always hr hbounds hverdict, rfl⟩
    | neverSatisfied =>
      obtain ⟨rfl, rfl⟩ := Prod.mk.inj (Except.ok.inj h)
      exact ⟨_, .never hr hbounds hverdict, rfl⟩

/-- The models that a refused constraint leaves behind: the one before, or the one in which the ancillas of
an inequality are skipped, if its range was found. -/
inductive Refused (m : Model d) (r : Relation) (p : Polynomial d Label)
    (options : ConstraintOptions) : Model d → Prop
  | early : (r = .eq ∨ ∃ e, options.bounds.elim p.bounds .ok = .error e) → Refused m r p options m
  | late {range : Number × Number} : r ≠ .eq → options.bounds.elim p.bounds .ok = .ok range →
      Refused m r p options (m.skipAncillas p)

/-- A constraint is refused, or compiled in one of these ways and recorded. -/
theorem addConstraint_cases (m : Model d) (r : Relation) (p : Polynomial d Label)
    (options : ConstraintOptions) :
    (∃ (refused : Model d) (e : Error), Refused m r p options refused ∧
        m.addConstraint r p options = (refused, .error e)) ∨
      ∃ (compiled : Model d) (diagnostic : Option Diagnostic), Compiled m r p options compiled ∧
        m.addConstraint r p options =
          (compiled.recordConstraint r p diagnostic, .ok diagnostic) := by
  by_cases hr : r = .eq
  · subst hr
    simp only [addConstraint]
    cases hequality : m.addEquality p options with
    | error e => exact .inl ⟨m, e, .early (.inl rfl), rfl⟩
    | ok result =>
      obtain ⟨range, -, hresult⟩ := exists_of_bind_eq_ok hequality
      obtain rfl := Except.ok.inj hresult
      exact .inr ⟨_, _, .equality rfl, rfl⟩
  · -- all other relations take the same path
    rw [addConstraint]
    swap
    · exact hr
    cases hbounds : options.bounds.elim p.bounds .ok with
    | error e => exact .inl ⟨m, e, .early (.inr ⟨e, hbounds⟩), rfl⟩
    | ok range =>
      dsimp only
      cases hcompile : (m.skipAncillas p).compileInequality r p range.1 range.2 options with
      | error e => exact .inl ⟨m.skipAncillas p, e, .late hr hbounds, rfl⟩
      | ok result =>
        obtain ⟨compiled, hcompiled, hafter⟩ :=
          exists_compiled_of_compileInequality hr hbounds hcompile
        exact .inr ⟨compiled, result.2, hcompiled, by rw [← hafter]⟩

/-- A constraint that is accepted is compiled in one of these ways and recorded. -/
theorem exists_compiled (h : m.addConstraint r p options = (after, .ok diagnostic)) :
    ∃ compiled, Compiled m r p options compiled ∧
      after = compiled.recordConstraint r p diagnostic := by
  rcases addConstraint_cases m r p options with
    ⟨refused, e, -, herror⟩ | ⟨compiled, diagnostic', hcompiled, hok⟩
  · rw [herror] at h
    cases (Prod.mk.inj h).2
  · rw [hok] at h
    obtain ⟨rfl, hdiagnostic⟩ := Prod.mk.inj h
    obtain rfl := Except.ok.inj hdiagnostic
    exact ⟨compiled, hcompiled, rfl⟩

/-- A constraint that is not accepted leaves one of the two models behind. -/
theorem refused_of_error {e : Error} (h : m.addConstraint r p options = (after, .error e)) :
    Refused m r p options after := by
  rcases addConstraint_cases m r p options with
    ⟨refused, e', hrefused, herror⟩ | ⟨compiled, diagnostic', -, hok⟩
  · rw [herror] at h
    exact (Prod.mk.inj h).1 ▸ hrefused
  · rw [hok] at h
    cases (Prod.mk.inj h).2

/-! ## Labels and ancillas of the compiled objective -/

/-- A penalty keeps the labels of the objective and adds those of its polynomial. -/
theorem labels_subset_addPenalty (m : Model d) (q : Polynomial d Label) (weight : Coefficient) :
    m.objective.index.labels ⊆ (m.addPenalty q weight).objective.index.labels ∧
      q.index.labels ⊆ (m.addPenalty q weight).objective.index.labels := by
  have hpower : q.index.labels ⊆ ((q.pow 2).scale weight).index.labels := fun v hv =>
    (labels_prefix_mapCoefficients _ _).subset ((labels_prefix_pow q 2).subset hv)
  exact ⟨(labels_prefix_add _ _).subset, fun v hv => labels_subset_add _ _ (hpower hv)⟩

/-- A penalty brings the records of the polynomial that is squared. -/
theorem ancillas_addPenalty {q : Polynomial d Label} (hq : q.ancillas.Sorted) (weight : Coefficient) :
    (m.addPenalty q weight).objective.ancillas = m.objective.ancillas.merge q.ancillas := by
  have hpenalty : ((q.pow 2).scale weight).ancillas = q.ancillas :=
    (ancillas_mapCoefficients _ _).trans (ancillas_pow hq 2)
  have hsum : (m.addPenalty q weight).objective.ancillas =
      m.objective.ancillas.merge ((q.pow 2).scale weight).ancillas := ancillas_add _ _
  rw [hsum, hpenalty]

/-- Bits whose labels leave room are numbered without an overflow. -/
theorem HasRoom.no_overflow {labels : List Label} (h : HasRoom labels) {first : UInt32}
    {weights : List ℕ} (hbits : ∀ v ∈ (Slack.bits first weights).map (·.1), v ∈ labels) :
    first.toNat + weights.length < 2 ^ 32 := by
  by_contra hlarge
  have hfirst := first.toNat_lt
  -- the bit whose number is the last one has no room
  obtain ⟨i, hi⟩ : ∃ i, first.toNat + i = 2 ^ 32 - 1 := ⟨2 ^ 32 - 1 - first.toNat, by omega⟩
  have hmem : Label.ancilla (first + .ofNat i) ∈ (Slack.bits first weights).map (·.1) := by
    rw [Slack.bits, List.map_map]
    have hlength : i < weights.length := by omega
    exact List.mem_map.mpr ⟨(weights[i], i),
      List.mk_mem_zipIdx_iff_getElem?.mpr (List.getElem?_eq_getElem hlength), rfl⟩
  have hlast := h _ (hbits _ hmem)
  rw [Slack.toNat_add_ofNat (by omega)] at hlast
  omega

/-- The polynomial that is to be at most zero is about the same variables. -/
theorem atMostZero_frame (r : Relation) (p : Polynomial d Label) (lower upper : Number) :
    (∀ v ∈ (atMostZero r p lower upper).1.vars, v ∈ p.vars) ∧
      p.index.labels <+: (atMostZero r p lower upper).1.index.labels ∧
      (atMostZero r p lower upper).1.ancillas = p.ancillas := by
  have hneg : (∀ v ∈ (-p).vars, v ∈ p.vars) ∧ p.index.labels <+: (-p).index.labels ∧
      (-p).ancillas = p.ancillas :=
    ⟨fun v hv => mem_vars_of_mem_mapCoefficients hv, labels_prefix_mapCoefficients _ p,
      ancillas_mapCoefficients _ p⟩
  cases r with
  | eq => exact ⟨fun _ h => h, List.prefix_rfl, rfl⟩
  | le => exact ⟨fun _ h => h, List.prefix_rfl, rfl⟩
  | lt =>
    exact ⟨fun v hv => mem_vars_of_mem_addConstant hv, labels_prefix_accumulate p _ _,
      ancillas_accumulate p _ _⟩
  | ge => exact hneg
  | gt =>
    exact ⟨fun v hv => hneg.1 v (mem_vars_of_mem_addConstant hv),
      hneg.2.1.trans (labels_prefix_accumulate (-p) _ _),
      (ancillas_accumulate (-p) _ _).trans hneg.2.2⟩

section WithSlack

variable {q : Polynomial d Label} {range : ℕ}

/-- A penalty with slack adds the labels of the polynomial and of the slack bits. -/
theorem labels_subset_withSlack (m : Model d) (q : Polynomial d Label) (range : ℕ)
    (options : ConstraintOptions) :
    m.objective.index.labels ⊆ (m.withSlack q range options).objective.index.labels ∧
      q.index.labels ⊆ (m.withSlack q range options).objective.index.labels ∧
      (m.nextBits range options.logarithmic).map (·.1) ⊆
        (m.withSlack q range options).objective.index.labels := by
  obtain ⟨hobjective, hsum⟩ := labels_subset_addPenalty (m.withBits range options.logarithmic)
    (q + Slack.polynomial d (m.nextBits range options.logarithmic)) options.weight
  have hslack := Slack.isSlack_polynomial d (m.nextBits range options.logarithmic)
  exact ⟨hobjective, fun v hv => hsum ((labels_prefix_add _ _).subset hv),
    fun v hv => hsum (labels_subset_add _ _ (hslack.indexed v hv))⟩

/-- If the labels leave room, the bits of the slack are numbered without an overflow. -/
theorem no_overflow_withSlack
    (hroom : HasRoom (m.withSlack q range options).objective.index.labels) :
    m.nextAncilla.toNat + (Slack.parts range options.logarithmic).length < 2 ^ 32 :=
  hroom.no_overflow fun _ hv => (labels_subset_withSlack m q range options).2.2 hv

/-- The slack labels of a penalty are its new bits. -/
theorem slackLabels_withSlack
    (hroom : HasRoom ((m.skipAncillas p).withSlack q range options).objective.index.labels) :
    m.slackLabels p ((m.skipAncillas p).withSlack q range options) =
      ((m.skipAncillas p).nextBits range options.logarithmic).map (·.1) :=
  (Slack.map_fst_bits (no_overflow_withSlack hroom)).symm

/-- The bits are recorded before the penalty brings the records of the polynomial, which therefore do not
count for them. -/
theorem ancillas_withSlack (hq : q.ancillas.Sorted) :
    (m.withSlack q range options).objective.ancillas =
      (Slack.record m.constraints.length (m.nextBits range options.logarithmic)
        m.objective.ancillas).merge q.ancillas := by
  have hsum : (q + Slack.polynomial d (m.nextBits range options.logarithmic)).ancillas =
      q.ancillas := by
    rw [ancillas_add, (Slack.isSlack_polynomial d _).ancillas]
    rfl
  rw [withSlack, ancillas_addPenalty (hsum ▸ hq), hsum]
  rfl

end WithSlack

@[simp]
theorem nextAncilla_addPenalty (m : Model d) (q : Polynomial d Label) (weight : Coefficient) :
    (m.addPenalty q weight).nextAncilla = m.nextAncilla := rfl

/-- Without a new number there are no slack labels. -/
theorem slackLabels_eq_nil (h : after.nextAncilla ≤ (m.skipAncillas p).nextAncilla) :
    m.slackLabels p after = [] := by
  rw [UInt32.le_iff_toNat_le] at h
  rw [slackLabels, Slack.labels, Nat.sub_eq_zero_of_le h]
  rfl

/-- A penalty without slack has no slack labels. -/
@[simp]
theorem slackLabels_addPenalty (m : Model d) (p q : Polynomial d Label) (weight : Coefficient) :
    m.slackLabels p (m.addPenalty q weight) = [] := by
  apply slackLabels_eq_nil
  rw [nextAncilla_addPenalty]
  exact nextAncilla_le_skipAncillas

@[simp]
theorem slackLabels_skipAncillas (m : Model d) (p : Polynomial d Label) :
    m.slackLabels p (m.skipAncillas p) = [] :=
  slackLabels_eq_nil (UInt32.le_refl _)

@[simp]
theorem slackLabels_skipAncillas_addPenalty (m : Model d) (p q : Polynomial d Label)
    (weight : Coefficient) : m.slackLabels p ((m.skipAncillas p).addPenalty q weight) = [] := by
  apply slackLabels_eq_nil
  rw [nextAncilla_addPenalty]
  exact UInt32.le_refl _

/-- Compiling a constraint loses no label of the objective. -/
theorem Compiled.labels_subset (h : Compiled m r p options after) :
    m.objective.index.labels ⊆ after.objective.index.labels := by
  cases h with
  | equality => exact (labels_subset_addPenalty m _ _).1
  | always => exact List.Subset.refl _
  | never => exact (labels_subset_addPenalty (m.skipAncillas p) _ _).1
  | slack => exact (labels_subset_withSlack (m.skipAncillas p) _ _ _).1

/-- The slack bits of a constraint are new to the objective and to the constraint. -/
theorem Compiled.notMem_labels (h : Compiled m r p options after)
    (hroom : HasRoom after.objective.index.labels) {v : Label} (hv : v ∈ m.slackLabels p after) :
    v ∉ m.objective.index.labels ∧ v ∉ p.index.labels := by
  have hobjective : HasRoom m.objective.index.labels := fun n hn => hroom n (h.labels_subset hn)
  cases h with
  | equality => simp at hv
  | always => simp at hv
  | never => simp at hv
  | slack =>
    refine notMem_of_mem_slackLabels hv hobjective fun n hn => hroom n ?_
    apply (labels_subset_withSlack (m.skipAncillas p) _ _ _).2.1
    exact (atMostZero_frame r p _ _).2.1.subset hn

/-- A label is recorded as a bit of some slack. -/
def IsSlackBit (m : Model d) (v : Label) : Prop :=
  ∃ constraint weight, m.objective.ancillas.get? v = some (.slack constraint weight)

/-- The weights of the slack of a constraint. An equation has no slack, and an inequality that its range
decides has none either; a constraint that is refused has no weights. -/
def slackWeights (r : Relation) (p : Polynomial d Label) (options : ConstraintOptions) : List ℕ :=
  match options.bounds.elim p.bounds .ok with
  | .error _ => []
  | .ok (lower, upper) =>
    if r = .eq ∨ (r.classify lower upper).isSome then []
    else
      match slackRange (atMostZero r p lower upper).2 >>= (Slack.weights · options.logarithmic) with
      | .error _ => []
      | .ok weights => weights

/-- Equalities and decided inequalities take no slack. -/
theorem slackWeights_eq_nil {lower upper : Number}
    (hbounds : options.bounds.elim p.bounds .ok = .ok (lower, upper))
    (hnone : r = .eq ∨ (r.classify lower upper).isSome) : slackWeights r p options = [] := by
  simp only [slackWeights, hbounds]
  exact if_pos hnone

/-- An undecided inequality takes the parts of its slack range. -/
theorem slackWeights_eq {lower upper : Number} {range : ℕ} (hr : r ≠ .eq)
    (hbounds : options.bounds.elim p.bounds .ok = .ok (lower, upper))
    (hverdict : r.classify lower upper = none)
    (hrange : slackRange (atMostZero r p lower upper).2 = .ok range)
    (hweights : Slack.weights range options.logarithmic =
      .ok (Slack.parts range options.logarithmic)) :
    slackWeights r p options = Slack.parts range options.logarithmic := by
  have hfound : (slackRange (atMostZero r p lower upper).2 >>=
      (Slack.weights · options.logarithmic)) = .ok (Slack.parts range options.logarithmic) := by
    rw [hrange]
    exact hweights
  simp only [slackWeights, hbounds]
  rw [if_neg (by simp [hr, hverdict]), hfound]

/-- An equality takes no slack. -/
theorem slackWeights_equality : slackWeights .eq p options = [] := by
  cases hbounds : options.bounds.elim p.bounds .ok with
  | error e => simp only [slackWeights, hbounds]
  | ok range => exact slackWeights_eq_nil hbounds (.inl rfl)

/-- The records that a constraint adds: one for each slack bit, with its weight and the position of the
constraint, and those that the constraint brings for labels that had none. -/
theorem Compiled.records (h : Compiled m r p options after) (hp : p.ancillas.Sorted)
    (hroom : HasRoom after.objective.index.labels) :
    (∃ bits : List (Label × ℕ), bits.map (·.1) = m.slackLabels p after ∧
        bits.map (·.2) = slackWeights r p options ∧
        ∀ e ∈ bits,
          after.objective.ancillas.get? e.1 = some (.slack m.constraints.length (.ofInt e.2))) ∧
      ∀ v ∉ m.slackLabels p after,
        after.objective.ancillas.get? v = m.objective.ancillas.get? v ∨
          m.objective.ancillas.get? v = none ∧
            after.objective.ancillas.get? v = p.ancillas.get? v := by
  have hframe : ∀ lower upper, (atMostZero r p lower upper).1.ancillas = p.ancillas :=
    fun lower upper => (atMostZero_frame r p lower upper).2.2
  cases h with
  | equality hr =>
    subst hr
    refine ⟨⟨[], (slackLabels_addPenalty m p p _).symm, slackWeights_equality.symm, by simp⟩,
      fun v _ => ?_⟩
    rw [ancillas_addPenalty hp]
    exact AncillaTable.get?_merge_cases hp v
  | always hr hbounds hverdict =>
    have hnone := slackWeights_eq_nil (r := r) hbounds (.inr (hverdict ▸ rfl))
    exact ⟨⟨[], (slackLabels_skipAncillas m p).symm, hnone.symm, by simp⟩, fun v _ => .inl rfl⟩
  | @never lower upper hr hbounds hverdict =>
    have hnone := slackWeights_eq_nil (r := r) hbounds (.inr (hverdict ▸ rfl))
    refine ⟨⟨[], (slackLabels_skipAncillas_addPenalty m p _ _).symm, hnone.symm, by simp⟩,
      fun v _ => ?_⟩
    rw [ancillas_addPenalty (hframe lower upper ▸ hp), hframe]
    exact AncillaTable.get?_merge_cases (a := m.objective.ancillas) hp v
  | @slack lower upper range hr hbounds hverdict hrange hweights =>
    have hlabels := slackLabels_withSlack hroom
    have hnodup : (((m.skipAncillas p).nextBits range options.logarithmic).map (·.1)).Nodup :=
      hlabels ▸ Slack.nodup_labels _ _
    rw [ancillas_withSlack (hframe lower upper ▸ hp), hframe]
    refine ⟨⟨_, hlabels.symm, ?_, fun e he => ?_⟩, fun v hv => ?_⟩
    · rw [slackWeights_eq hr hbounds hverdict hrange hweights]
      exact Slack.map_snd_bits _ _
    · rw [AncillaTable.get?_merge hp, Slack.get?_record_of_mem hnodup he]
      rfl
    · have hmerged := AncillaTable.get?_merge_cases (a := Slack.record m.constraints.length
        ((m.skipAncillas p).nextBits range options.logarithmic) m.objective.ancillas) hp v
      rwa [Slack.get?_record_of_notMem (hlabels ▸ hv)] at hmerged

/-- If the constraint brings no ancillas of its own, its slack bits are recorded, and nothing else. -/
theorem Compiled.get?_ancillas (h : Compiled m r p options after) (hp : p.ancillas = [])
    (hroom : HasRoom after.objective.index.labels) (v : Label) :
    (v ∈ m.slackLabels p after ∧ after.IsSlackBit v) ∨
      (v ∉ m.slackLabels p after ∧
        after.objective.ancillas.get? v = m.objective.ancillas.get? v) := by
  obtain ⟨⟨bits, hlabels, -, hbits⟩, hother⟩ := h.records (hp ▸ List.Pairwise.nil) hroom
  by_cases hv : v ∈ m.slackLabels p after
  · refine .inl ⟨hv, ?_⟩
    rw [← hlabels] at hv
    obtain ⟨e, he, rfl⟩ := List.mem_map.mp hv
    exact ⟨_, _, hbits e he⟩
  · refine .inr ⟨hv, (hother v hv).elim id fun ⟨hnone, hget⟩ => ?_⟩
    rw [hget, hnone, hp]
    rfl

/-- Compiling records no constraint yet. -/
theorem Compiled.constraints (h : Compiled m r p options after) :
    after.constraints = m.constraints := by
  cases h <;> rfl

/-! ## Inequalities as `q ≤ 0` -/

/-- What an inequality makes of a value, to be at most zero. -/
def shifted : Relation → ℚ → ℚ
  | .lt, v => v + 1
  | .ge, v => -v
  | .gt, v => -v + 1
  | .le, v | .eq, v => v

/-- The polynomial that is to be at most zero has an exact value at every point, and so has its lower
bound. -/
theorem atMostZero_spec (hp : p.WellFormed Coefficient.IsRational) (r : Relation) (l u : ℚ) :
    ∃ (q : Polynomial d Label) (least : ℚ),
      atMostZero r p (.exact l) (.exact u) = (q, .exact least) ∧
      q.WellFormed Coefficient.IsRational ∧
      (∀ ρ x, q.eval ρ x = shifted r (p.eval ρ x)) ∧
      ∀ v, l ≤ v → v ≤ u → least ≤ shifted r v := by
  have hone : Coefficient.IsRational 1 := ⟨1, rfl⟩
  have hneg : (-p).WellFormed Coefficient.IsRational := hp.neg
  cases r with
  | eq => exact ⟨p, l, rfl, hp, fun _ _ => rfl, fun _ h _ => h⟩
  | le => exact ⟨p, l, rfl, hp, fun _ _ => rfl, fun _ h _ => h⟩
  | lt =>
    refine ⟨p.addConstant 1, l + 1, rfl, hp.addConstant hone, fun ρ x => ?_,
      fun v hl _ => add_le_add_left hl 1⟩
    rw [eval_addConstant hp hone, Coefficient.eval_one, shifted]
  | ge => exact ⟨-p, -u, rfl, hneg, fun ρ x => eval_neg hp, fun v _ hu => neg_le_neg hu⟩
  | gt =>
    refine ⟨(-p).addConstant 1, -u + 1, rfl, hneg.addConstant hone, fun ρ x => ?_,
      fun v _ hu => add_le_add_left (neg_le_neg hu) 1⟩
    rw [eval_addConstant hneg hone, eval_neg hp, Coefficient.eval_one, shifted]

/-- The range of the slack is the floor of what the lower bound is below zero, if that is a number. -/
theorem slackRange_exact (q : ℚ) :
    slackRange (.exact q) =
      if 0 ≤ (-q).floor ∧ (-q).floor < 2 ^ 63 then .ok (-q).floor.toNat
      else .error (.malformed (.slackRange (.exact (-q).floor))) := by
  have hfloor : (-Number.exact q).floor = .exact (-q).floor := rfl
  have hinteger : (Number.exact ((-q).floor : ℚ)).toInt? = some (-q).floor := rfl
  have hmin : Int64.minValue.toInt = -2 ^ 63 := rfl
  have hmax : Int64.maxValue.toInt = 2 ^ 63 - 1 := rfl
  rw [slackRange, hfloor, Number.toInt64?, hinteger, Option.filter_some, hmin, hmax]
  generalize (-q).floor = n
  simp only [decide_eq_true_eq]
  cases n with
  | ofNat k =>
    have hcast : Int.ofNat k = (k : ℤ) := rfl
    by_cases hk : (k : ℤ) < 2 ^ 63
    · rw [if_pos (by omega), if_pos (by omega)]
      rfl
    · rw [if_neg (by omega), if_neg (by omega)]
  | negSucc k =>
    rw [if_neg (by omega : ¬ (0 ≤ Int.negSucc k ∧ Int.negSucc k < 2 ^ 63))]
    split <;> rename_i heq
    · split at heq <;> cases heq
    · rfl

/-- A violated inequality shows in the shifted value. -/
theorem shifted_pos {v : ℚ} (hr : r ≠ .eq) (h : ¬ r.Holds v) : 0 < shifted r v := by
  cases r <;> simp only [Relation.Holds, shifted, not_lt, not_le] at h ⊢ <;>
    first | exact absurd rfl hr | linarith

/-- If the inequality is strict or the value is whole, it is at least one. -/
theorem one_le_shifted {v : ℚ} (hr : r ≠ .eq) (h : ¬ r.Holds v)
    (hgap : (∃ n : ℤ, v = n) ∨ r = .lt ∨ r = .gt) : 1 ≤ shifted r v := by
  cases r with
  | eq => exact absurd rfl hr
  | lt =>
    have := not_lt.mp h
    rw [shifted]
    linarith
  | gt =>
    have := not_lt.mp h
    rw [shifted]
    linarith
  | le =>
    obtain ⟨n, rfl⟩ := hgap.resolve_right (by simp)
    have hpos : 0 < n := by exact_mod_cast not_le.mp h
    rw [shifted]
    exact_mod_cast hpos
  | ge =>
    obtain ⟨n, rfl⟩ := hgap.resolve_right (by simp)
    have hneg : n < 0 := by exact_mod_cast not_le.mp h
    rw [shifted, ← Int.cast_neg]
    exact_mod_cast (by omega : 1 ≤ -n)

/-- A whole value that satisfies a constraint leaves a whole slack. -/
theorem exists_slack {n : ℤ} (h : r.Holds n) :
    ∃ k : ℕ, shifted r n = -(k : ℚ) := by
  have key : ∀ z : ℤ, z ≤ 0 → ∃ k : ℕ, (z : ℚ) = -(k : ℚ) := fun z hz =>
    ⟨(-z).toNat, by
      rw [← Int.cast_natCast, Int.toNat_of_nonneg (by omega)]
      push_cast
      ring⟩
  cases r with
  | eq => exact key n (Int.cast_eq_zero.mp h).le
  | le => exact key n (Int.cast_nonpos.mp h)
  | lt =>
    have hn : n < 0 := Int.cast_lt_zero.mp h
    simpa [shifted] using key (n + 1) (by omega)
  | ge =>
    have hn : 0 ≤ n := Int.cast_nonneg_iff.mp h
    simpa [shifted] using key (-n) (by omega)
  | gt =>
    have hn : 0 < n := Int.cast_pos.mp h
    simpa [shifted] using key (-n + 1) (by omega)

end Model

end PseudoBoolean

import PseudoBoolean.Proofs.Model.Compilation

/-!
# Penalties separate

A compiled constraint is measured by a polynomial (`IsMeasure`): it is not zero where the constraint is
violated, and zero where the constraint is satisfied and the slack bits are chosen well. For an equation
this is `P` itself. For an inequality it is `q`, which has to be at most zero, if the range of `P` rules
the constraint out, and else `q + s`, where the slack `s` is never negative and takes every whole value
that `-q` can have.

The weighted square of a measure is added to the objective. This is a charge (`IsCharge`), which takes
nothing away from the objective anywhere and adds nothing where the constraint is satisfied, for some
values of the slack bits. With a positive weight it is a penalty (`IsPenalty`), as something is added where
the constraint is violated (`addConstraint_separates`).
-/

namespace PseudoBoolean.Model

open PseudoBoolean.Polynomial

variable {d : Domain} {m after : Model d} {r : Relation} {p q : Polynomial d Label}
  {options : ConstraintOptions} {slack : List Label} {ρ : String → ℚ} {lam : ℚ}

/-! ## Measures -/

/-- What the polynomial that is squared has to do with the constraint. -/
structure IsMeasure (ρ : String → ℚ) (r : Relation) (p q : Polynomial d Label) (slack : List Label) :
    Prop where
  wellFormed : q.WellFormed Coefficient.IsRational
  vars : ∀ v ∈ q.vars, v ∈ p.vars ∨ v ∈ slack
  ne_zero : ∀ x, d.IsPoint x → ¬ r.Holds (p.eval ρ x) → q.eval ρ x ≠ 0
  one_le_abs : ∀ x, d.IsPoint x → ¬ r.Holds (p.eval ρ x) →
    ((∃ n : ℤ, p.eval ρ x = n) ∨ r = .lt ∨ r = .gt) → 1 ≤ |q.eval ρ x|
  zero_iff : ∀ x, d.IsPoint x → r.Holds (p.eval ρ x) →
    ((∃ y, d.IsPoint y ∧ (∀ v ∉ slack, y v = x v) ∧ q.eval ρ y = 0) ↔
      ∃ k : ℕ, shifted r (p.eval ρ x) = -(k : ℚ))

/-- Where a constraint is satisfied with a whole value, its measure can be brought to zero. -/
theorem IsMeasure.exists_zero (h : IsMeasure ρ r p q slack) {x : Label → ℚ} (hx : d.IsPoint x)
    (hholds : r.Holds (p.eval ρ x)) (hn : ∃ n : ℤ, p.eval ρ x = n) :
    ∃ y, d.IsPoint y ∧ (∀ v ∉ slack, y v = x v) ∧ q.eval ρ y = 0 := by
  refine (h.zero_iff x hx hholds).mpr ?_
  obtain ⟨n, hn⟩ := hn
  rw [hn] at hholds ⊢
  exact exists_slack hholds

theorem isMeasure_equality (hp : p.WellFormed Coefficient.IsRational) : IsMeasure ρ .eq p p [] where
  wellFormed := hp
  vars _ hv := .inl hv
  ne_zero _ _ h := h
  one_le_abs x _ h hgap := by
    obtain ⟨n, hn⟩ := hgap.resolve_right (by simp)
    rw [Relation.Holds, hn, Int.cast_eq_zero] at h
    rw [hn]
    exact_mod_cast Int.one_le_abs h
  zero_iff x hx h := by
    refine iff_of_true ⟨x, hx, fun _ _ => rfl, h⟩ ⟨0, ?_⟩
    rw [shifted, Nat.cast_zero, neg_zero]
    exact h

/-- An inequality that is never satisfied needs no slack. -/
theorem isMeasure_never (hr : r ≠ .eq) (hq : q.WellFormed Coefficient.IsRational)
    (hvars : ∀ v ∈ q.vars, v ∈ p.vars) (heval : ∀ x, q.eval ρ x = shifted r (p.eval ρ x))
    (hnever : ∀ x, d.IsPoint x → ¬ r.Holds (p.eval ρ x)) : IsMeasure ρ r p q [] where
  wellFormed := hq
  vars v hv := .inl (hvars v hv)
  ne_zero x _ h := by
    rw [heval]
    exact (shifted_pos hr h).ne'
  one_le_abs x _ h hgap := by
    rw [heval]
    exact (one_le_shifted hr h hgap).trans (le_abs_self _)
  zero_iff x hx h := absurd h (hnever x hx)

/-- The range of the slack is the greatest whole number that it may have to reach. -/
theorem le_slackRange {least : ℚ} {range k : ℕ} (h : slackRange (.exact least) = .ok range)
    (hk : least ≤ -(k : ℚ)) : k ≤ range := by
  have hle : (k : ℤ) ≤ (-least).floor := by
    rw [Rat.le_floor_iff]
    push_cast
    linarith
  rw [slackRange_exact] at h
  split at h
  · obtain rfl := Except.ok.inj h
    omega
  · cases h

/-- The slack makes up for every whole value below zero, and never brings a value above zero down. -/
theorem isMeasure_slack {first : UInt32} {range : ℕ} {logarithmic : Bool} {least : ℚ} (hr : r ≠ .eq)
    (hq : q.WellFormed Coefficient.IsRational) (hvars : ∀ v ∈ q.vars, v ∈ p.vars)
    (heval : ∀ x, q.eval ρ x = shifted r (p.eval ρ x))
    (hleast : ∀ x, d.IsPoint x → least ≤ shifted r (p.eval ρ x))
    (hrange : slackRange (.exact least) = .ok range)
    (hroom : first.toNat + (Slack.parts range logarithmic).length < 2 ^ 32)
    (hslack : ∀ v ∈ (Slack.bits first (Slack.parts range logarithmic)).map (·.1), v ∉ p.vars) :
    IsMeasure ρ r p
      (q + Slack.polynomial d (Slack.bits first (Slack.parts range logarithmic)))
      ((Slack.bits first (Slack.parts range logarithmic)).map (·.1)) := by
  have hs := Slack.isSlack_polynomial d (Slack.bits first (Slack.parts range logarithmic))
  generalize Slack.polynomial d (Slack.bits first (Slack.parts range logarithmic)) = s at hs ⊢
  have hsum : ∀ x, (q + s).eval ρ x = shifted r (p.eval ρ x) + s.eval ρ x := fun x => by
    rw [eval_add hq hs.wellFormed, heval]
  -- the bits do not occur in the constraint
  have hsame : ∀ {x y : Label → ℚ},
      (∀ v ∉ (Slack.bits first (Slack.parts range logarithmic)).map (·.1), y v = x v) →
      p.eval ρ y = p.eval ρ x := fun h => eval_congr fun v hv => h v fun hmem => hslack v hmem hv
  refine ⟨hq.add hs.wellFormed, fun v hv => ?_, fun x hx h => ?_, fun x hx h hgap => ?_,
    fun x hx h => ⟨?_, ?_⟩⟩
  · exact (mem_vars_of_mem_add hv).imp (hvars v) (hs.vars v)
  · rw [hsum]
    exact (add_pos_of_pos_of_nonneg (shifted_pos hr h) (hs.eval_nonneg hx)).ne'
  · rw [hsum]
    refine le_trans ?_ (le_abs_self _)
    have hone := one_le_shifted hr h hgap
    have hnonneg := hs.eval_nonneg (ρ := ρ) hx
    linarith
  · rintro ⟨y, hy, hyx, hzero⟩
    obtain ⟨k, hk⟩ := hs.exists_eval_eq (ρ := ρ) hy
    rw [hsum, hsame hyx, hk] at hzero
    exact ⟨k, eq_neg_of_add_eq_zero_left hzero⟩
  · rintro ⟨k, hk⟩
    have hle : k ≤ range := le_slackRange hrange (by rw [← hk]; exact hleast x hx)
    obtain ⟨choice, hchoice⟩ := Slack.exists_chosen hle logarithmic
    -- the bits of this choice add up to the slack that is left
    rw [Slack.map_fst_bits hroom] at hsame ⊢
    have hoff : ∀ v ∉ Slack.labels first (first + .ofNat (Slack.parts range logarithmic).length),
        Slack.withBits d (Slack.labels first
          (first + .ofNat (Slack.parts range logarithmic).length)) choice x v = x v :=
      fun v hv => if_neg hv
    refine ⟨_, Slack.isPoint_withBits hx _ choice, hoff, ?_⟩
    rw [hsum, hsame hoff, hk, hs.eval_withBits hroom, hchoice, neg_add_cancel]

/-! ## Penalties -/

/-- `T` is nowhere below `f`. Where the constraint is violated it is above by the weight, if values are a
whole number apart, and where it is satisfied and the slack bits are chosen well it is the same. -/
structure IsCharge (ρ : String → ℚ) (r : Relation) (p f T : Polynomial d Label) (slack : List Label)
    (lam : ℚ) : Prop where
  wellFormed : T.WellFormed Coefficient.IsRational
  vars : ∀ v ∈ T.vars, v ∈ f.vars ∨ v ∈ p.vars ∨ v ∈ slack
  le : ∀ x, d.IsPoint x → f.eval ρ x ≤ T.eval ρ x
  gap : ∀ x, d.IsPoint x → ¬ r.Holds (p.eval ρ x) →
    ((∃ n : ℤ, p.eval ρ x = n) ∨ r = .lt ∨ r = .gt) → f.eval ρ x + lam ≤ T.eval ρ x
  attained : ∀ x, d.IsPoint x → r.Holds (p.eval ρ x) → (∃ n : ℤ, p.eval ρ x = n) →
    ∃ y, d.IsPoint y ∧ (∀ v ∉ slack, y v = x v) ∧ T.eval ρ y = f.eval ρ y

/-- A charge that is felt wherever the constraint is violated. -/
structure IsPenalty (ρ : String → ℚ) (r : Relation) (p f T : Polynomial d Label) (slack : List Label)
    (lam : ℚ) : Prop extends IsCharge ρ r p f T slack lam where
  lt : ∀ x, d.IsPoint x → ¬ r.Holds (p.eval ρ x) → f.eval ρ x < T.eval ρ x

/-- Nothing is added for a constraint that always holds. -/
theorem isPenalty_always {f : Polynomial d Label} (hf : f.WellFormed Coefficient.IsRational)
    (halways : ∀ x, d.IsPoint x → r.Holds (p.eval ρ x)) (lam : ℚ) : IsPenalty ρ r p f f [] lam where
  wellFormed := hf
  vars _ hv := .inl hv
  le _ _ := le_rfl
  lt x hx h := absurd (halways x hx) h
  gap x hx h _ := absurd (halways x hx) h
  attained x hx _ _ := ⟨x, hx, fun _ _ => rfl, rfl⟩

theorem eval_addPenalty (hm : m.objective.WellFormed Coefficient.IsRational)
    (hq : q.WellFormed Coefficient.IsRational) {x : Label → ℚ} (hx : d.IsPoint x) :
    (m.addPenalty q (.num (.exact lam))).objective.eval ρ x =
      m.objective.eval ρ x + q.eval ρ x ^ 2 * lam := by
  have hweight : Coefficient.IsRational (.num (.exact lam)) := ⟨lam, rfl⟩
  rw [addPenalty, eval_add hm ((hq.pow 2).scale hweight), eval_scale (hq.pow 2) hweight,
    eval_pow hq 2 hx]
  rfl

/-- The weighted square of a measure is a charge. -/
theorem IsMeasure.isCharge (h : IsMeasure ρ r p q slack)
    (hm : m.objective.WellFormed Coefficient.IsRational) (hlam : 0 ≤ lam) :
    IsCharge ρ r p m.objective (m.addPenalty q (.num (.exact lam))).objective slack lam := by
  -- a square is never negative, so all parts follow from how far the measure is from zero
  refine ⟨hm.add ((h.wellFormed.pow 2).scale ⟨lam, rfl⟩), fun v hv => ?_, fun x hx => ?_,
    fun x hx hviolated hgap => ?_, fun x hx hholds hn => ?_⟩
  · rcases mem_vars_of_mem_add hv with hv | hv
    · exact .inl hv
    · exact .inr (h.vars v (mem_vars_of_mem_pow (mem_vars_of_mem_mapCoefficients hv)))
  · rw [eval_addPenalty hm h.wellFormed hx]
    have := mul_nonneg (sq_nonneg (q.eval ρ x)) hlam
    linarith
  · rw [eval_addPenalty hm h.wellFormed hx]
    have hone : 1 ≤ q.eval ρ x ^ 2 :=
      (one_le_sq_iff_one_le_abs _).mpr (h.one_le_abs x hx hviolated hgap)
    have := mul_le_mul_of_nonneg_right hone hlam
    linarith
  · obtain ⟨y, hy, hsame, hzero⟩ := h.exists_zero hx hholds hn
    refine ⟨y, hy, hsame, ?_⟩
    rw [eval_addPenalty hm h.wellFormed hy, hzero]
    ring

/-- With a positive weight it is a penalty. -/
theorem IsMeasure.isPenalty (h : IsMeasure ρ r p q slack)
    (hm : m.objective.WellFormed Coefficient.IsRational) (hlam : 0 < lam) :
    IsPenalty ρ r p m.objective (m.addPenalty q (.num (.exact lam))).objective slack lam := by
  refine ⟨h.isCharge hm hlam.le, fun x hx hviolated => ?_⟩
  rw [eval_addPenalty hm h.wellFormed hx]
  have := mul_pos (sq_pos_of_ne_zero (h.ne_zero x hx hviolated)) hlam
  linarith

/-! ## The penalty of a constraint -/

/-- The range by which a constraint is judged is exact and encloses the values at all points. -/
theorem exists_bounds (hp : p.WellFormed Coefficient.IsRational)
    (hbounds : ∀ range ∈ options.bounds, ∃ l u : ℚ, range = (.exact l, .exact u) ∧
      ∀ x, d.IsPoint x → l ≤ p.eval ρ x ∧ p.eval ρ x ≤ u) :
    ∃ l u : ℚ, options.bounds.elim p.bounds .ok = .ok (.exact l, .exact u) ∧
      ∀ x, d.IsPoint x → l ≤ p.eval ρ x ∧ p.eval ρ x ≤ u := by
  cases h : options.bounds with
  | none => exact bounds_eq hp ρ
  | some range =>
    obtain ⟨l, u, rfl, hencloses⟩ := hbounds range h
    exact ⟨l, u, rfl, hencloses⟩

/-- The slack bits occur neither in the objective before nor in the constraint. -/
theorem Compiled.notMem_vars (h : Compiled m r p options after)
    (hm : m.objective.WellFormed Coefficient.IsRational) (hp : p.WellFormed Coefficient.IsRational)
    (hroom : HasRoom after.objective.index.labels) {v : Label} (hv : v ∈ m.slackLabels p after) :
    v ∉ m.objective.vars ∧ v ∉ p.vars := by
  obtain ⟨hobjective, hconstraint⟩ := h.notMem_labels hroom hv
  exact ⟨fun hmem => hobjective (hm.mem_labels hmem), fun hmem => hconstraint (hp.mem_labels hmem)⟩

/-- The model with other records of ancillas, which change no value of the objective. -/
def withRecords (m : Model d) (ancillas : AncillaTable Label) : Model d :=
  { m with objective := { m.objective with ancillas } }

/-- Each way of compiling a constraint adds the weighted square of a measure, or nothing if the range of
an inequality shows that it always holds. -/
theorem Compiled.exists_measure (h : Compiled m r p options after)
    (hm : m.objective.WellFormed Coefficient.IsRational) (hp : p.WellFormed Coefficient.IsRational)
    {l u : ℚ} (hrange : options.bounds.elim p.bounds .ok = .ok (.exact l, .exact u))
    (hencloses : ∀ x, d.IsPoint x → l ≤ p.eval ρ x ∧ p.eval ρ x ≤ u)
    (hroom : HasRoom after.objective.index.labels) :
    (r.classify (.exact l) (.exact u) = some .alwaysSatisfied ∧ after.objective = m.objective ∧
        m.slackLabels p after = []) ∨
      (r = .eq ∨ r.classify (.exact l) (.exact u) ≠ some .alwaysSatisfied) ∧
        ∃ (ancillas : AncillaTable Label) (q : Polynomial d Label),
          after.objective = ((m.withRecords ancillas).addPenalty q options.weight).objective ∧
          IsMeasure ρ r p q (m.slackLabels p after) := by
  obtain ⟨q, least, hatMost, hq, heval, hleast⟩ := atMostZero_spec hp r l u
  have hvars : ∀ v ∈ q.vars, v ∈ p.vars := by
    have := (atMostZero_frame r p (.exact l) (.exact u)).1
    rwa [hatMost] at this
  have hdisjoint : ∀ v ∈ m.slackLabels p after, v ∉ p.vars := fun v hv =>
    (h.notMem_vars hm hp hroom hv).2
  cases h with
  | equality hr =>
    subst hr
    refine .inr ⟨.inl rfl, m.objective.ancillas, p, rfl, ?_⟩
    rw [slackLabels_addPenalty]
    exact isMeasure_equality hp
  | always hr hsame hverdict =>
    obtain ⟨rfl, rfl⟩ := Prod.mk.inj (Except.ok.inj (hsame.symm.trans hrange))
    exact .inl ⟨hverdict, rfl, slackLabels_skipAncillas m p⟩
  | never hr hsame hverdict =>
    obtain ⟨rfl, rfl⟩ := Prod.mk.inj (Except.ok.inj (hsame.symm.trans hrange))
    refine .inr ⟨.inr (by simp [hverdict]), m.objective.ancillas, q, by rw [hatMost]; rfl, ?_⟩
    rw [slackLabels_skipAncillas_addPenalty]
    refine isMeasure_never hr hq hvars (heval ρ) fun x hx => ?_
    exact Relation.classify_neverSatisfied hverdict (hencloses x hx).1 (hencloses x hx).2
  | @slack _ _ range hr hsame hverdict hslackRange _ =>
    obtain ⟨rfl, rfl⟩ := Prod.mk.inj (Except.ok.inj (hsame.symm.trans hrange))
    rw [hatMost] at hslackRange hroom hdisjoint ⊢
    rw [slackLabels_withSlack hroom] at hdisjoint ⊢
    -- the bits are recorded before the penalty is added
    exact .inr ⟨.inr (by simp [hverdict]),
      ((m.skipAncillas p).withBits range options.logarithmic).objective.ancillas, _, rfl,
      isMeasure_slack hr hq hvars (heval ρ) (fun x hx => hleast _ (hencloses x hx).1 (hencloses x hx).2)
        hslackRange (no_overflow_withSlack hroom) hdisjoint⟩

/-- Each way of compiling a constraint adds a charge. -/
theorem Compiled.isCharge (h : Compiled m r p options after)
    (hm : m.objective.WellFormed Coefficient.IsRational) (hp : p.WellFormed Coefficient.IsRational)
    (hweight : options.weight = .num (.exact lam)) (hlam : 0 ≤ lam)
    (hbounds : ∀ range ∈ options.bounds, ∃ l u : ℚ, range = (.exact l, .exact u) ∧
      ∀ x, d.IsPoint x → l ≤ p.eval ρ x ∧ p.eval ρ x ≤ u)
    (hroom : HasRoom after.objective.index.labels) :
    IsCharge ρ r p m.objective after.objective (m.slackLabels p after) lam := by
  obtain ⟨l, u, hrange, hencloses⟩ := exists_bounds hp hbounds
  rcases h.exists_measure hm hp hrange hencloses hroom with
    ⟨hverdict, hsame, hslack⟩ | ⟨-, ancillas, q, hafter, hmeasure⟩
  · have halways : ∀ x, d.IsPoint x → r.Holds (p.eval ρ x) := fun x hx =>
      Relation.classify_alwaysSatisfied hverdict (hencloses x hx).1 (hencloses x hx).2
    rw [hsame, hslack]
    exact (isPenalty_always hm halways lam).toIsCharge
  · have hcharge := hmeasure.isCharge (m := m.withRecords ancillas)
      ⟨hm.terms, hm.distinct, hm.indexed⟩ hlam
    rw [hafter, hweight]
    exact ⟨hcharge.wellFormed, hcharge.vars, hcharge.le, hcharge.gap, hcharge.attained⟩

/-- Each way of compiling a constraint with a positive weight adds a penalty. -/
theorem Compiled.isPenalty (h : Compiled m r p options after)
    (hm : m.objective.WellFormed Coefficient.IsRational) (hp : p.WellFormed Coefficient.IsRational)
    (hweight : options.weight = .num (.exact lam)) (hlam : 0 < lam)
    (hbounds : ∀ range ∈ options.bounds, ∃ l u : ℚ, range = (.exact l, .exact u) ∧
      ∀ x, d.IsPoint x → l ≤ p.eval ρ x ∧ p.eval ρ x ≤ u)
    (hroom : HasRoom after.objective.index.labels) :
    IsPenalty ρ r p m.objective after.objective (m.slackLabels p after) lam := by
  refine ⟨h.isCharge hm hp hweight hlam.le hbounds hroom, ?_⟩
  obtain ⟨l, u, hrange, hencloses⟩ := exists_bounds hp hbounds
  rcases h.exists_measure hm hp hrange hencloses hroom with
    ⟨hverdict, hsame, -⟩ | ⟨-, ancillas, q, hafter, hmeasure⟩
  · rw [hsame]
    exact fun x hx hviolated => absurd
      (Relation.classify_alwaysSatisfied hverdict (hencloses x hx).1 (hencloses x hx).2) hviolated
  · have hpenalty := hmeasure.isPenalty (m := m.withRecords ancillas)
      ⟨hm.terms, hm.distinct, hm.indexed⟩ hlam
    rw [hafter, hweight]
    exact hpenalty.lt

/-- The values of the slack bits at a point where nothing is added, put into an assignment. -/
theorem IsPenalty.exists_assignment_of_eval_eq {f T : Polynomial d Label}
    (h : IsPenalty ρ r p f T slack lam) (hnew : ∀ v ∈ slack, v ∉ f.vars) {a : Assignment Label}
    (ha : Assignment.Covers d (f.vars ++ p.vars ++ slack) a) {y : Label → ℚ} (hy : d.IsPoint y)
    (hsame : ∀ v ∉ slack, y v = a.point d v) (heq : T.eval ρ y = f.eval ρ y) :
    ∃ b, Assignment.Covers d (f.vars ++ p.vars ++ slack) b ∧
      (∀ w ∉ slack, b.get? w = a.get? w) ∧
      T.valueNumber b = .ok (.exact (f.eval ρ (a.point d))) := by
  obtain ⟨b, hcovers, hby, hba⟩ := Assignment.exists_override hy slack a
  have hpoint : b.point d = y := by
    funext v
    by_cases hv : v ∈ slack
    · exact hby v hv
    · rw [Assignment.point_congr (hba v hv), hsame v hv]
  have hb : Assignment.Covers d (f.vars ++ p.vars ++ slack) b := by
    intro v hv
    by_cases hslack : v ∈ slack
    · exact hcovers v hslack
    · rw [hba v hslack]
      exact ha v hv
  -- the objective does not see the bits
  have hvalue : T.eval ρ (b.point d) = f.eval ρ (a.point d) := by
    rw [hpoint, heq]
    exact eval_congr fun v hv => hsame v fun hslack => hnew v hslack hv
  refine ⟨b, hb, hba, ?_⟩
  rw [← hvalue]
  exact valueNumber_eq h.wellFormed (hb.mono fun v hv => by simpa [or_assoc] using h.vars v hv) ρ

/-- The values of the slack bits that make up for a satisfied constraint, put into an assignment. -/
theorem IsPenalty.exists_assignment {f T : Polynomial d Label} (h : IsPenalty ρ r p f T slack lam)
    (hnew : ∀ v ∈ slack, v ∉ f.vars) {a : Assignment Label}
    (ha : Assignment.Covers d (f.vars ++ p.vars ++ slack) a)
    (hholds : r.Holds (p.eval ρ (a.point d))) (hwhole : ∃ n : ℤ, p.eval ρ (a.point d) = n) :
    ∃ b, Assignment.Covers d (f.vars ++ p.vars ++ slack) b ∧
      (∀ w ∉ slack, b.get? w = a.get? w) ∧
      T.valueNumber b = .ok (.exact (f.eval ρ (a.point d))) := by
  obtain ⟨y, hy, hsame, heq⟩ := h.attained _ (Assignment.isPoint_point d a) hholds hwhole
  exact h.exists_assignment_of_eval_eq hnew ha hy hsame heq

/-- A constraint separates. The slack bits are new variables, and at every assignment the objective with
the constraint is not below the one without it. Where the constraint is violated it is above, by the
weight at least if the relation is strict or the value of the constraint is whole. Where the constraint is
satisfied with a whole value, other values of the slack bits make the two equal. -/
theorem addConstraint_separates (m : Model d) (r : Relation) (p : Polynomial d Label)
    (options : ConstraintOptions) {diagnostic : Option Diagnostic}
    (hm : m.objective.WellFormed Coefficient.IsRational) (hp : p.WellFormed Coefficient.IsRational)
    (hweight : options.weight = .num (.exact lam)) (hlam : 0 < lam)
    (hbounds : ∀ range ∈ options.bounds, ∃ l u : ℚ, range = (.exact l, .exact u) ∧
      p.AllValues fun v => l ≤ v ∧ v ≤ u)
    (h : m.addConstraint r p options = (after, .ok diagnostic))
    (hroom : HasRoom after.objective.index.labels) :
    (∀ v ∈ m.slackLabels p after, v ∉ m.objective.vars ∧ v ∉ p.vars) ∧
      ∀ a, Assignment.Covers d (m.objective.vars ++ p.vars ++ m.slackLabels p after) a →
        ∃ y v t : ℚ, m.objective.valueNumber a = .ok (.exact y) ∧
          p.valueNumber a = .ok (.exact v) ∧ after.objective.valueNumber a = .ok (.exact t) ∧
          y ≤ t ∧ (¬ r.Holds v → y < t) ∧
          (¬ r.Holds v → ((∃ n : ℤ, v = n) ∨ r = .lt ∨ r = .gt) → y + lam ≤ t) ∧
          (r.Holds v → (∃ n : ℤ, v = n) →
            ∃ b, Assignment.Covers d (m.objective.vars ++ p.vars ++ m.slackLabels p after) b ∧
              (∀ w ∉ m.slackLabels p after, b.get? w = a.get? w) ∧
              after.objective.valueNumber b = .ok (.exact y)) := by
  obtain ⟨compiled, hcompiled, rfl⟩ := exists_compiled h
  have hpenalty := hcompiled.isPenalty (ρ := fun _ => 0) hm hp hweight hlam
    (fun range hrange => by
      obtain ⟨l, u, heq, hvalues⟩ := hbounds range hrange
      exact ⟨l, u, heq, (allValues_iff hp _).mp hvalues⟩) hroom
  have hnew : ∀ v ∈ m.slackLabels p compiled, v ∉ m.objective.vars ∧ v ∉ p.vars := fun v hv =>
    hcompiled.notMem_vars hm hp hroom hv
  refine ⟨hnew, fun a ha => ?_⟩
  have hobjective : ∀ v ∈ m.objective.vars,
      v ∈ m.objective.vars ++ p.vars ++ m.slackLabels p compiled := fun v hv => by simp [hv]
  have hvars : ∀ v ∈ compiled.objective.vars,
      v ∈ m.objective.vars ++ p.vars ++ m.slackLabels p compiled := fun v hv => by
    simpa [or_assoc] using hpenalty.vars v hv
  have hx := Assignment.isPoint_point d a
  refine ⟨_, _, _, valueNumber_eq hm (ha.mono hobjective) _,
    valueNumber_eq hp (ha.mono fun v hv => by simp [hv]) _,
    valueNumber_eq hpenalty.wellFormed (ha.mono hvars) _, hpenalty.le _ hx, hpenalty.lt _ hx,
    hpenalty.gap _ hx, fun hholds hwhole => ?_⟩
  exact hpenalty.exists_assignment (fun v hv => (hnew v hv).1) ha hholds hwhole

/-- The sum of two spins. -/
def spinSum : Polynomial .spin Label :=
  ofTerms [([.name "x"], 1), ([.name "y"], 1)]

/-- A spin as objective, with the demand that the sum is below zero. This takes one slack bit. -/
def spinModel : Model .spin :=
  ((ofObjective (var (.name "x"))).addConstraint .lt spinSum { weight := 3 }).1

/-- Two spins that are both 1 violate the demand, and this costs the weight. -/
theorem addConstraint_separates_sum :
    ∃ y t : ℚ,
      (var (.name "x") : Polynomial .spin Label).valueNumber
        [(.name "x", 1), (.name "y", 1), (.ancilla 0, 1)] = .ok (.exact y) ∧
      spinModel.objective.valueNumber
        [(.name "x", 1), (.name "y", 1), (.ancilla 0, 1)] = .ok (.exact t) ∧
      y + 3 ≤ t := by
  have hone : Coefficient.IsRational 1 := ⟨1, rfl⟩
  have hok : ((ofObjective (var (.name "x"))).addConstraint .lt spinSum { weight := 3 }).2 =
      .ok none := by decide +kernel
  have hlabels : spinModel.objective.index.labels = [.name "x", .name "y", .ancilla 0] := by
    decide +kernel
  have hroom : HasRoom spinModel.objective.index.labels := by
    intro n hn
    rw [hlabels] at hn
    obtain rfl : n = 0 := by simpa using hn
    decide
  obtain ⟨-, hvalues⟩ := addConstraint_separates (ofObjective (var (.name "x"))) .lt spinSum
    { weight := 3 } (WellFormed.empty.addTerm _ hone) (WellFormed.ofTerms (by simp [hone]))
    (rfl : _ = Coefficient.num (.exact 3)) (by norm_num) (by simp) (Prod.ext rfl hok) hroom
  have hget : ∀ v ∈ (ofObjective (var (.name "x") : Polynomial .spin Label)).objective.vars ++
      spinSum.vars ++ (ofObjective (var (.name "x"))).slackLabels spinSum spinModel,
      Table.get? v [(.name "x", (1 : ℤ)), (.name "y", 1), (.ancilla 0, 1)] = some 1 := by
    decide +kernel
  obtain ⟨y, v, t, hy, hv, ht, -, -, hgap, -⟩ := hvalues
    [(.name "x", 1), (.name "y", 1), (.ancilla 0, 1)] fun v hv => ⟨1, hget v hv, rfl⟩
  have hsum : spinSum.valueNumber [(.name "x", 1), (.name "y", 1), (.ancilla 0, 1)] =
      .ok (.exact 2) := by decide +kernel
  rw [hsum] at hv
  obtain rfl := Number.exact.inj (Except.ok.inj hv)
  exact ⟨y, t, hy, ht, hgap (not_lt.mpr zero_le_two) (.inr (.inl rfl))⟩

end PseudoBoolean.Model

import PseudoBoolean.Proofs.Document.SlackLabels
import PseudoBoolean.Proofs.Label
import PseudoBoolean.Proofs.Model.Silent

/-!
# The variables that a model is about

A polynomial that is made of polynomials about some variables is about these variables
(`Polynomial.IsAbout`), and so is a model, whose slack bits come in addition (`Model.IsAbout`). The
variables of a document are labels that have been read, so all labels of its model can be told apart as
read labels can (`ModelDocument.isAbout_isRead`).
-/

namespace PseudoBoolean

/-! ## Polynomials -/

namespace Polynomial

variable {d : Domain} {V : Type} [Variable V] {P : V → Prop} {p q : Polynomial d V}

/-- All variables that a polynomial has numbered, and all that occur in it, have a property. -/
structure IsAbout (P : V → Prop) (p : Polynomial d V) : Prop where
  numbered : ∀ v ∈ p.index.labels, P v
  occurring : ∀ v ∈ p.vars, P v

/-- There are no labels in the polynomial without terms. -/
theorem IsAbout.empty : (empty : Polynomial d V).IsAbout P :=
  ⟨fun _ hv => absurd hv List.not_mem_nil, fun _ hv => absurd hv List.not_mem_nil⟩

/-- A polynomial stays about the same labels without its terms. -/
theorem IsAbout.cleared (hp : p.IsAbout P) : p.cleared.IsAbout P :=
  ⟨hp.numbered, fun _ hv => absurd hv List.not_mem_nil⟩

/-- Taking over the variables of another polynomial brings its labels. -/
theorem IsAbout.adopt (hp : p.IsAbout P) (hq : q.IsAbout P) : (p.adopt q).IsAbout P where
  numbered v hv := (mem_insertAll_iff.mp hv).elim (hp.numbered v) (hq.numbered v)
  occurring := hp.occurring

/-- Terms that are added bring their own labels only. -/
theorem IsAbout.accumulateList {l : List (Term V × Coefficient)} (hp : p.IsAbout P)
    (hl : ∀ e ∈ l, ∀ v ∈ e.1, P v) : (p.accumulateList l).IsAbout P where
  numbered v hv := (mem_labels_accumulateList.mp hv).elim (hp.numbered v)
    fun ⟨e, he, _, hv⟩ => hl e he v hv
  occurring v hv := (mem_vars_of_mem_accumulateList hv).elim (hp.occurring v)
    fun ⟨e, he, hv⟩ => hl e he v hv

/-- The labels of a term are among those that the polynomial is about. -/
theorem IsAbout.of_mem (hp : p.IsAbout P) {e : Term V × Coefficient} (he : e ∈ p.terms) :
    ∀ v ∈ e.1, P v :=
  fun v hv => hp.occurring v (mem_vars.mpr ⟨e, he, hv⟩)

/-- A change of coefficients brings no labels. -/
theorem IsAbout.mapCoefficients (hp : p.IsAbout P) (f : Coefficient → Coefficient) :
    (p.mapCoefficients f).IsAbout P := by
  rw [mapCoefficients_eq]
  refine hp.cleared.accumulateList fun e he => ?_
  obtain ⟨e', he', rfl⟩ := List.mem_map.mp he
  exact fun v hv => hp.of_mem he' v hv

/-- A constant brings no labels. -/
theorem IsAbout.addConstant (hp : p.IsAbout P) (c : Coefficient) : (p.addConstant c).IsAbout P :=
  hp.accumulateList (l := [([], c)]) fun _ he _ hv => by
    rw [List.mem_singleton.mp he] at hv
    exact absurd hv List.not_mem_nil

/-- A sum is about the labels of its operands. -/
theorem IsAbout.add (hp : p.IsAbout P) (hq : q.IsAbout P) : (p + q).IsAbout P :=
  (hp.adopt hq).accumulateList fun _ he => hq.of_mem he

/-- A product is about the labels of its factors. -/
theorem IsAbout.mul (hp : p.IsAbout P) (hq : q.IsAbout P) : (p * q).IsAbout P := by
  rw [mul_eq]
  refine (hp.cleared.adopt hq).accumulateList fun e he v hv => ?_
  obtain ⟨s, hs, he⟩ := List.mem_flatMap.mp he
  obtain ⟨t, ht, rfl⟩ := List.mem_map.mp he
  exact (List.mem_append.mp (Term.mem_of_mem_normalize hv)).elim (hp.of_mem hs v) (hq.of_mem ht v)

/-- A power is about the labels of its base. -/
theorem IsAbout.pow (hp : p.IsAbout P) (n : ℕ) : (p.pow n).IsAbout P :=
  isPowerLoop.invariant (P := IsAbout P) (Q := IsAbout P) (fun _ _ => .mul) (fun _ h => h.mul h)
    (hp.cleared.addConstant 1) hp

/-- A polynomial is about the labels of the products that it is made of. -/
theorem IsAbout.ofTerms {entries : List (List V × Coefficient)} (h : ∀ e ∈ entries, ∀ v ∈ e.1, P v) :
    (ofTerms entries : Polynomial d V).IsAbout P := by
  rw [ofTerms_eq]
  refine IsAbout.empty.accumulateList fun e he v hv => ?_
  obtain ⟨e', he', rfl⟩ := List.mem_map.mp he
  exact h e' he' v (Term.mem_of_mem_normalize hv)

end Polynomial

open PseudoBoolean.Polynomial

/-- A slack is about the labels of its bits. -/
theorem Slack.isAbout_polynomial {d : Domain} {P : Label → Prop} {bits : List (Label × ℕ)}
    (h : ∀ e ∈ bits, P e.1) : (Slack.polynomial d bits).IsAbout P := by
  apply List.foldlRecOn bits _ IsAbout.empty
  intro p hp e he
  have hbit : (Slack.bit d e.1).IsAbout P := by
    constructor
    · rw [Slack.labels_bit]
      exact List.forall_mem_singleton.mpr (h e he)
    · exact fun v hv => Slack.mem_vars_bit hv ▸ h e he
  exact hp.add (hbit.mapCoefficients _)

/-! ## Models -/

namespace Model

variable {d : Domain} {m after : Model d} {r : Relation} {p q f : Polynomial d Label}
  {options : ConstraintOptions} {diagnostic : Option Diagnostic} {P : Label → Prop}
  {demands : List (Demand d)}

/-- The objective and all constraints are about variables with a property. -/
structure IsAbout (P : Label → Prop) (m : Model d) : Prop where
  objective : m.objective.IsAbout P
  constraints : ∀ c ∈ m.constraints, c.polynomial.IsAbout P

/-- What is to be at most zero in the place of a constraint is about the same labels, and slack bits. -/
theorem StandsFor.isAbout (h : StandsFor r p q) (hp : p.IsAbout P) (hP : ∀ n, P (.ancilla n)) :
    q.IsAbout P := by
  have hleast : ∀ lower upper, (atMostZero r p lower upper).1.IsAbout P := fun lower upper => by
    cases r with
    | eq | le => exact hp
    | lt => exact hp.addConstant 1
    | ge => exact hp.mapCoefficients _
    | gt => exact (hp.mapCoefficients _).addConstant 1
  cases h with
  | plain lower upper => exact hleast lower upper
  | slack lower upper first weights =>
    refine (hleast lower upper).add (Slack.isAbout_polynomial fun e he => ?_)
    obtain ⟨w, -, rfl⟩ := List.mem_map.mp he
    exact hP _

/-- A constraint brings its own labels and slack bits into a model. -/
theorem IsAbout.addConstraint (hm : m.IsAbout P) (hp : p.IsAbout P) (hP : ∀ n, P (.ancilla n))
    (h : m.addConstraint r p options = (after, .ok diagnostic)) : after.IsAbout P := by
  constructor
  · rcases silent_or_penalty_of_addConstraint h with ⟨-, hsame, -⟩ | ⟨base, q, hterms, hindex, hq, hafter⟩
    · exact hsame ▸ hm.objective
    · have hbase : base.IsAbout P :=
        ⟨hindex ▸ hm.objective.numbered, by
          rw [Polynomial.vars, hterms]
          exact hm.objective.occurring⟩
      rw [hafter]
      exact hbase.add (((hq.isAbout hp hP).pow 2).mapCoefficients _)
  · obtain ⟨compiled, hcompiled, rfl⟩ := exists_compiled h
    rw [recordConstraint, hcompiled.constraints]
    exact List.forall_mem_append.mpr ⟨hm.constraints, List.forall_mem_singleton.mpr hp⟩

/-- A model that is built is about the labels of its objective and its demands, and slack bits. -/
theorem Built.isAbout (h : Built f demands m) (hf : f.IsAbout P) (hP : ∀ n, P (.ancilla n))
    (hdemands : ∀ demand ∈ demands, demand.polynomial.IsAbout P) : m.IsAbout P := by
  induction h with
  | base => exact ⟨hf, fun _ hc => absurd hc List.not_mem_nil⟩
  | add _ hadd ih =>
    obtain ⟨hold, hnew⟩ := List.forall_mem_append.mp hdemands
    exact (ih hold).addConstraint (hnew _ (List.mem_singleton.mpr rfl)) hP hadd

/-- Values of parameters bring no labels. -/
theorem IsAbout.substitute (hm : m.IsAbout P) (values : Table String Coefficient) :
    (m.substitute values).IsAbout P where
  objective := hm.objective.mapCoefficients _
  constraints := List.forall_mem_map.mpr fun c hc => (hm.constraints c hc).mapCoefficients _

/-- A search goes through these variables only. -/
theorem IsAbout.of_mem_enumeratedVariables (hm : m.IsAbout P) {v : Label}
    (hv : v ∈ m.enumeratedVariables) : P v := by
  rw [enumeratedVariables_eq, mem_insertAll_iff, List.mem_flatMap] at hv
  rcases hv with hv | ⟨c, hc, hv⟩
  · exact hm.objective.numbered v hv
  · exact (hm.constraints c hc).occurring v hv

end Model

/-! ## Documents -/

/-- A label from a JSON value is one that a text is read as. -/
theorem Label.isRead_of_ofJson? {j : Json} {v : Label} (h : Label.ofJson? j = some v) : v.IsRead := by
  cases j with
  | integer n =>
    simp only [Label.ofJson?, Option.ite_none_right_eq_some] at h
    obtain rfl := Option.some_inj.mp h.2
    trivial
  | string s =>
    obtain rfl := Option.some_inj.mp h
    exact Label.isRead_ofText s
  | _ => cases h

/-- Each item of a list that is read comes from an item that is read as it. -/
theorem exists_of_mem_mapM {α β : Type} {f : α → Option β} {l : List α} {l' : List β}
    (h : l.mapM f = some l') : ∀ b ∈ l', ∃ a ∈ l, f a = some b := by
  induction l generalizing l' with
  | nil =>
    obtain rfl := Option.some_inj.mp h
    simp
  | cons a l ih =>
    rw [List.mapM_cons] at h
    obtain ⟨b, hb, h⟩ := Option.bind_eq_some_iff.mp h
    obtain ⟨bs, hbs, h⟩ := Option.bind_eq_some_iff.mp h
    obtain rfl := Option.some_inj.mp h
    exact List.forall_mem_cons.mpr ⟨⟨a, List.mem_cons_self, hb⟩, fun b' hb' =>
      (ih hbs b' hb').imp fun _ h => ⟨List.mem_cons_of_mem _ h.1, h.2⟩⟩

/-- The labels of a written term have all been read. -/
theorem WrittenTerm.isRead_of_labels {t : WrittenTerm} {key : List Label} (h : t.labels = .ok key) :
    ∀ v ∈ key, v.IsRead := by
  rw [labels] at h
  split at h
  · rename_i labels hlabels
    obtain rfl := Except.ok.inj h
    split at hlabels
    · intro v hv
      obtain ⟨j, -, hj⟩ := exists_of_mem_mapM hlabels v hv
      exact Label.isRead_of_ofJson? hj
    · cases hlabels
  · cases h

/-- A polynomial from a document is about labels that have been read. -/
theorem WrittenTerm.isAbout_polynomial {d : Domain} {terms : List WrittenTerm}
    {p : Polynomial d Label} (h : WrittenTerm.polynomial d terms = .ok p) : p.IsAbout Label.IsRead := by
  obtain ⟨entries, hentries, hp⟩ := exists_of_bind_eq_ok h
  obtain rfl := Except.ok.inj hp
  refine .ofTerms fun e he => ?_
  obtain ⟨t, -, hte⟩ := (exists_mem_of_forall₂ (forall₂_of_mapM hentries)).2 e he
  obtain ⟨key, hkey, he⟩ := exists_of_bind_eq_ok hte
  obtain rfl := Except.ok.inj he
  exact isRead_of_labels hkey

/-- All labels of the model of a document have been read, or they are slack bits. -/
theorem ModelDocument.isAbout_isRead {document : ModelDocument} {defaults : ConstraintOptions}
    {bare : Model document.domain} (h : document.toModel defaults = .ok bare) :
    bare.IsAbout Label.IsRead := by
  obtain ⟨f, demands, hf, hdemands, hbuilt⟩ := exists_built h
  refine hbuilt.isAbout (WrittenTerm.isAbout_polynomial hf) (fun _ => trivial) fun demand hmem => ?_
  obtain ⟨c, -, hdemand⟩ := (exists_mem_of_forall₂ hdemands).2 demand hmem
  exact WrittenTerm.isAbout_polynomial hdemand.polynomial

end PseudoBoolean

import PseudoBoolean.Label
import PseudoBoolean.Proofs.Polynomial.Minimum

/-!
# What an exhaustive search returns

The search goes through the codes in counting order, passes over the codes with a larger value than the best
one so far, and asks whether an assignment is admitted only if it could change the result. What it returns does
not depend on this course: the least value that an admitted assignment has, and the assignments that have it
(`minimizeWhere_exhaustive`).

All of this is done in words of 64 bits. `FitsWords` lists what a search shifts, indexes and counts: over at
most 63 variables all of it is in the range of its word (`fitsWords`).
-/

namespace PseudoBoolean.Polynomial

variable {d : Domain} {V : Type} [Variable V] {p : Polynomial d V} {vars : List V}
  {admitted : Assignment V → Bool}

/-! ## Words -/

/-- What a search over some variables shifts, indexes and counts is in the range of its word: the number of
codes, the positions of the variables of a term with their mask, and the codes with their bits. -/
structure FitsWords (p : Polynomial d V) (vars : List V) : Prop where
  limit : vars.length < 64 ∧ (Mask.single vars.length).toNat = 2 ^ vars.length
  positions : ∀ e ∈ p.terms, ∃ positions, Compiled.positions vars e.1 = .ok positions ∧
    (∀ i ∈ positions, i < 64 ∧ (Mask.single i).toNat = 2 ^ i) ∧
    (Mask.ofPositions positions).toNat < 2 ^ vars.length
  codes : ∀ code < 2 ^ vars.length, (UInt64.ofNat code).toNat = code
  bits : ∀ code < 2 ^ vars.length, ∀ i < vars.length,
    UInt64.ofNat code >>> UInt64.ofNat i &&& 1 = if code.testBit i then 1 else 0

theorem fitsWords (h : ∀ v ∈ p.vars, v ∈ vars) (hlength : vars.length ≤ enumerationLimit) :
    p.FitsWords vars := by
  have hword : vars.length < 64 := Nat.lt_succ_of_le hlength
  have hcode : ∀ code < 2 ^ vars.length, code < 2 ^ 64 := fun code hcode =>
    hcode.trans (Nat.pow_lt_pow_right Nat.one_lt_two hword)
  refine ⟨⟨hword, Mask.toNat_single hword⟩, fun e he => ?_, fun code hlt =>
    Mask.toNat_ofNat (hcode code hlt), fun code hlt i hi => Mask.bit_eq (hcode code hlt) (hi.trans hword)⟩
  have hvars : ∀ v ∈ e.1, v ∈ vars := fun v hv => h v (mem_vars.mpr ⟨e, he, hv⟩)
  have hpositions : ∀ i ∈ e.1.map vars.idxOf, i < vars.length :=
    List.forall_mem_map.mpr fun v hv => List.idxOf_lt_length_of_mem (hvars v hv)
  exact ⟨_, Compiled.positions_eq hvars,
    fun i hi => ⟨(hpositions i hi).trans hword, Mask.toNat_single ((hpositions i hi).trans hword)⟩,
    Mask.toNat_ofPositions_lt hpositions hword.le⟩

/-! ## The search -/

/-- The assignments among which a search chooses. -/
def Competes (d : Domain) (vars : List V) (admitted : Assignment V → Bool) (a : Assignment V) : Prop :=
  a.IsOn d (· ∈ vars) ∧ admitted a

/-- For a polynomial without parameters the search over at most 63 variables succeeds, and nothing in it
leaves its word. Every assignment of the variables has a value. The search returns the least value of those
that are admitted, which is missing exactly if none is, with all admitted assignments that have it in counting
order, or with the first of them. -/
theorem minimizeWhere_exhaustive (hp : p.WellFormed Coefficient.IsRational) (hnodup : vars.Nodup)
    (h : ∀ v ∈ p.vars, v ∈ vars) (hlength : vars.length ≤ enumerationLimit)
    (admitted : Assignment V → Bool) :
    p.FitsWords vars ∧ (∀ a, a.IsOn d (· ∈ vars) → ∃ v : ℚ, p.valueNumber a = .ok (.exact v)) ∧
    ∃ (least : Option ℚ) (found : List (Assignment V)),
      (∀ all, p.minimizeWhere vars all admitted =
        .ok (least.map Number.exact, if all then found else found.take 1)) ∧
      (least = none ↔ ∀ a, ¬ Competes d vars admitted a) ∧
      (∀ v, least = some v → IsLeast (p.valuesOn (Competes d vars admitted)) v) ∧
      (∀ a, a ∈ found ↔ Competes d vars admitted a ∧
        ∃ v, least = some v ∧ p.valueNumber a = .ok (.exact v)) ∧
      found.Pairwise fun a b => a.toCode d vars < b.toCode d vars := by
  refine ⟨fitsWords h hlength, fun a ha => ⟨_, valueNumber_eq hp (ha.covers h) fun _ => 0⟩, ?_⟩
  rcases minimizeWhere_minimizers hp hnodup h hlength admitted with
    ⟨hrejected, hok⟩ | ⟨v, found, hfound, hordered, hok⟩
  · have hnone : ∀ a, ¬ Competes d vars admitted a := fun a ⟨ha, hadmitted⟩ => by
      rw [hrejected a ha] at hadmitted
      cases hadmitted
    exact ⟨none, [], fun all => by simp [hok all], iff_of_true rfl hnone, nofun, by simp, .nil⟩
  · refine ⟨some v, found, hok, iff_of_false nofun fun hnone => ?_, fun w hw => ?_, fun a => ?_,
      hordered⟩
    · obtain ⟨a, ha⟩ := List.exists_mem_of_ne_nil found hfound.ne_nil
      exact hnone a ((hfound.mem_iff a).mp ha).1
    · exact Option.some_inj.mp hw ▸ hfound.isLeast
    · simp only [hfound.mem_iff, Option.some_inj, exists_eq_left', Competes]

/-- The product of two spins. -/
def coupling : Polynomial .spin Label :=
  ofTerms [([.name "x", .name "y"], 1)]

/-- Only assignments that give `x` and `y` the same spin are admitted, so the value `-1` is not found, and
`z`, which does not occur, doubles the solutions. -/
theorem minimizeWhere_exhaustive_aligned :
    ∃ found, (∀ all, coupling.minimizeWhere [.name "x", .name "y", .name "z"] all
        (fun a => a.get? (.name "x") = a.get? (.name "y")) =
        .ok (some 1, if all then found else found.take 1)) ∧
      found.map (fun a => a.map (·.2)) = [[1, 1, 1], [-1, -1, 1], [1, 1, -1], [-1, -1, -1]] := by
  have hcoupling : coupling.WellFormed Coefficient.IsRational :=
    WellFormed.ofTerms (List.forall_mem_singleton.mpr ⟨1, rfl⟩)
  have hnodup : [Label.name "x", .name "y", .name "z"].Nodup := by decide
  obtain ⟨-, -, least, found, hok, -⟩ := minimizeWhere_exhaustive hcoupling hnodup (by decide +kernel)
    (by decide) fun a => a.get? (.name "x") = a.get? (.name "y")
  have hall : (coupling.minimizeWhere [.name "x", .name "y", .name "z"] true
      fun a => a.get? (.name "x") = a.get? (.name "y")).map (fun r => (r.1, r.2.map fun a => a.map (·.2))) =
      .ok (some 1, [[1, 1, 1], [-1, -1, 1], [1, 1, -1], [-1, -1, -1]]) := by decide +kernel
  rw [hok true] at hall
  obtain ⟨hleast : least.map Number.exact = some 1, hfound⟩ := Prod.mk.inj (Except.ok.inj hall)
  exact ⟨found, fun all => hleast ▸ hok all, hfound⟩

end PseudoBoolean.Polynomial

import Mathlib.Data.Nat.Init
import Mathlib.Order.Bounds.Defs
import PseudoBoolean.Polynomial.Minimum
import PseudoBoolean.Proofs.Mask
import PseudoBoolean.Proofs.Polynomial.Evaluation
import PseudoBoolean.Proofs.Polynomial.Numbering

/-!
# Exhaustive minimization

A code determines a point, and every point agrees with that of some code on the enumerated variables
(`exists_code`). The compiled polynomial has at a code the value at its point (`eval_compiled`): up to 63
variables, neither a code nor a mask of positions loses a bit in its word.

The search keeps the least value so far together with the admitted codes that have it: after any list of
codes it holds what `Found.Correct` says. For a polynomial without parameters the search therefore
returns the least value and the assignments that have it, in counting order (`minimizeWhere_spec`). As
codes and assignments of the enumerated variables correspond to each other (`exists_decode_eq`,
`toCode_decode`), these are the minimizers, each of them once (`minimizeWhere_minimizers`).

A solution of a canonical form is brought back number by number. The variables whose numbers have values
get values, and no others (`convertSolution_spec`). A solution of the polynomial itself has values for the
numbered variables that are not recorded as ancillas (`isOn_of_solve`).
-/

namespace PseudoBoolean

/-! ## The search -/

namespace Found

variable {all : Bool} {admitted : ℕ → Bool} {value : ℕ → Number} {f : ℕ → ℚ} {codes : List ℕ}
  {c : ℕ} {m : ℚ} {found : Found}

/-- The admitted codes with a given value: all of them, or the first. -/
def codesWith (all : Bool) (admitted : ℕ → Bool) (f : ℕ → ℚ) (codes : List ℕ) (m : ℚ) : List ℕ :=
  let found := codes.filter fun c => admitted c && f c = m
  if all then found else found.take 1

/-- What a search has found after some codes, if their values are exact. -/
inductive Correct (all : Bool) (admitted : ℕ → Bool) (f : ℕ → ℚ) (codes : List ℕ) : Found → Prop
  | none : (∀ c ∈ codes, admitted c = false) → Correct all admitted f codes ⟨.none, []⟩
  | some {m : ℚ} {cs : List ℕ} : (∃ c ∈ codes, admitted c ∧ f c = m) →
      (∀ c ∈ codes, admitted c → m ≤ f c) → cs.reverse = codesWith all admitted f codes m →
      Correct all admitted f codes ⟨.some (.exact m), cs⟩

/-- One more code that does not go below the minimum joins the minimizers if it attains it. -/
theorem codesWith_append (hsome : ∃ c ∈ codes, admitted c ∧ f c = m) :
    codesWith all admitted f (codes ++ [c]) m =
      codesWith all admitted f codes m ++ if all && admitted c && f c = m then [c] else [] := by
  have hne : codes.filter (fun c => admitted c && f c = m) ≠ [] := by
    obtain ⟨c, hc, hadmitted, hm⟩ := hsome
    exact List.ne_nil_of_mem (List.mem_filter.mpr ⟨hc, by simp [hadmitted, hm]⟩)
  cases all with
  | true => by_cases hc : admitted c && f c = m <;> simp [codesWith, List.filter_append, hc]
  | false =>
    have hlen : 1 ≤ (codes.filter fun c => admitted c && f c = m).length :=
      List.length_pos_iff.mpr hne
    simp [codesWith, List.filter_append, List.take_append_of_le_length hlen]

/-- A code below all before it is the only minimizer so far. -/
theorem codesWith_first (hlt : ∀ c' ∈ codes, admitted c' → f c < f c') (hc : admitted c) :
    codesWith all admitted f (codes ++ [c]) (f c) = [c] := by
  have hempty : codes.filter (fun c' => admitted c' && f c' = f c) = [] := by
    refine List.filter_eq_nil_iff.mpr fun c' hc' h => ?_
    simp only [Bool.and_eq_true, decide_eq_true_eq] at h
    exact (hlt c' hc' h.1).ne' h.2
  cases all <;> simp [codesWith, List.filter_append, hempty, hc]

/-- The first admitted code is found. -/
theorem correct_consider_none (hnone : ∀ c' ∈ codes, admitted c' = false)
    (hvalue : value c = .exact (f c)) :
    Correct all admitted f (codes ++ [c]) ((⟨none, []⟩ : Found).consider all admitted value c) := by
  rw [Found.consider, hvalue]
  by_cases hc : admitted c
  · simp only [hc, if_true]
    have hrejected : ∀ c' ∈ codes, ¬ admitted c' := fun c' hc' => by simp [hnone c' hc']
    refine .some ⟨c, by simp, hc, rfl⟩ (List.forall_mem_append.mpr ⟨fun c' hc' hadmitted =>
      absurd hadmitted (hrejected c' hc'), List.forall_mem_singleton.mpr fun _ => le_rfl⟩) ?_
    exact (codesWith_first (fun c' hc' hadmitted => absurd hadmitted (hrejected c' hc')) hc).symm
  · simp only [hc]
    exact .none (List.forall_mem_append.mpr ⟨hnone,
      List.forall_mem_singleton.mpr (Bool.not_eq_true _ ▸ hc)⟩)

/-- A further code takes the place of the codes found, joins them or is passed over. -/
theorem correct_consider_some {m : ℚ} {cs : List ℕ} (hsome : ∃ c' ∈ codes, admitted c' ∧ f c' = m)
    (hleast : ∀ c' ∈ codes, admitted c' → m ≤ f c')
    (hcodes : cs.reverse = codesWith all admitted f codes m) (hvalue : value c = .exact (f c)) :
    Correct all admitted f (codes ++ [c])
      ((⟨some (.exact m), cs⟩ : Found).consider all admitted value c) := by
  have hsome' : ∃ c' ∈ codes ++ [c], admitted c' ∧ f c' = m := by
    obtain ⟨c', hc', h⟩ := hsome
    exact ⟨c', List.mem_append_left _ hc', h⟩
  have hleast' : (admitted c → m ≤ f c) → ∀ c' ∈ codes ++ [c], admitted c' → m ≤ f c' := fun h =>
    List.forall_mem_append.mpr ⟨hleast, List.forall_mem_singleton.mpr h⟩
  rw [Found.consider, hvalue]
  -- a smaller value starts the list of codes anew, an equal one lengthens it if all are wanted
  rcases lt_trichotomy (f c) m with hlt | heq | hgt
  · simp only [Number.compare?, hlt, if_true]
    by_cases hc : admitted c
    · simp only [hc, if_true]
      refine .some ⟨c, by simp, hc, rfl⟩ (List.forall_mem_append.mpr ⟨fun c' hc' hadmitted =>
        hlt.le.trans (hleast c' hc' hadmitted), List.forall_mem_singleton.mpr fun _ => le_rfl⟩) ?_
      exact (codesWith_first
        (fun c' hc' hadmitted => hlt.trans_le (hleast c' hc' hadmitted)) hc).symm
    · simp only [hc]
      refine .some hsome' (hleast' fun h => absurd h hc) ?_
      rw [hcodes, codesWith_append hsome]
      simp [hc]
  · simp only [Number.compare?, heq, lt_irrefl, if_true, if_false]
    by_cases hc : all && admitted c
    · simp only [hc, if_true]
      refine .some hsome' (hleast' fun _ => heq.ge) ?_
      rw [List.reverse_cons, hcodes, codesWith_append hsome, hc, heq]
      simp
    · simp only [hc]
      refine .some hsome' (hleast' fun _ => heq.ge) ?_
      rw [hcodes, codesWith_append hsome]
      simp [Bool.not_eq_true _ ▸ hc]
  · simp only [Number.compare?, not_lt.mpr hgt.le, hgt.ne', if_false]
    refine .some hsome' (hleast' fun _ => hgt.le) ?_
    rw [hcodes, codesWith_append hsome]
    simp [hgt.ne']

/-- One more code keeps the search correct. -/
theorem Correct.consider (h : Correct all admitted f codes found)
    (hvalue : value c = .exact (f c)) :
    Correct all admitted f (codes ++ [c]) (found.consider all admitted value c) := by
  cases h with
  | none hnone => exact correct_consider_none hnone hvalue
  | some hsome hleast hcodes => exact correct_consider_some hsome hleast hcodes hvalue

/-- The search is correct after any list of codes. -/
theorem correct_foldl (hvalue : ∀ c ∈ codes, value c = .exact (f c)) :
    Correct all admitted f codes (codes.foldl (Found.consider all admitted value) ⟨none, []⟩) := by
  induction codes using List.reverseRecOn with
  | nil => exact .none (by simp)
  | append_singleton codes c ih =>
    rw [List.foldl_concat]
    exact (ih fun c' hc' => hvalue c' (List.mem_append_left _ hc')).consider (hvalue c (by simp))

/-- If every code is admitted there is a code from the first one on, whatever the values are. -/
theorem codes_consider_ne_nil (h : found.best.isSome → found.codes ≠ []) :
    (found.consider all (fun _ => true) value c).codes ≠ [] := by
  rw [consider]
  cases hbest : found.best with
  | none => simp
  | some b =>
    have hcodes := h (by rw [hbest]; rfl)
    dsimp only
    split
    · exact hcodes
    · split
      · exact List.cons_ne_nil _ _
      · exact hcodes
    · exact List.cons_ne_nil _ _

theorem codes_foldl_ne_nil (h : codes ≠ []) :
    (codes.foldl (Found.consider all (fun _ => true) value) ⟨none, []⟩).codes ≠ [] := by
  obtain ⟨c, codes, rfl⟩ := List.exists_cons_of_ne_nil h
  rw [List.foldl_cons]
  refine List.foldlRecOn (motive := fun found : Found => found.codes ≠ []) codes _ ?_ ?_
  · exact codes_consider_ne_nil nofun
  · exact fun found hfound _ _ => codes_consider_ne_nil fun _ => hfound

end Found

/-! ## Codes -/

section Codes

variable {d : Domain} {V : Type} [Variable V] {vars : List V} {code : ℕ} {v : V}

/-- The point of a code: a variable has the value at its bit. -/
def codePoint (d : Domain) (vars : List V) (code : ℕ) (v : V) : ℚ :=
  (d.ofBit (code.testBit (vars.idxOf v)) : ℤ)

/-- A binary term has the value one at a code if the bits at all of its positions are set. -/
theorem eval_codePoint_binary (vars : List V) (code : ℕ) (t : Term V) :
    Term.eval (codePoint .binary vars code) t =
      if (t.map vars.idxOf).all code.testBit then 1 else 0 := by
  induction t with
  | nil => simp
  | cons v t ih =>
    rw [Term.eval_cons, ih, codePoint, List.map_cons, List.all_cons]
    cases code.testBit (vars.idxOf v) <;> simp [Domain.ofBit]

/-- A spin term has the value minus one at a code if an odd number of the bits at its positions is set. -/
theorem eval_codePoint_spin (vars : List V) (code : ℕ) (t : Term V) :
    Term.eval (codePoint .spin vars code) t =
      if (t.map vars.idxOf).countP code.testBit % 2 = 1 then -1 else 1 := by
  induction t with
  | nil => simp
  | cons v t ih =>
    rw [Term.eval_cons, ih, codePoint, List.map_cons, List.countP_cons]
    generalize (t.map vars.idxOf).countP code.testBit = n
    cases code.testBit (vars.idxOf v) with
    | false => simp [Domain.ofBit]
    | true =>
      rcases Nat.mod_two_eq_zero_or_one n with h | h
      · have hn : (n + 1) % 2 = 1 := by omega
        simp [Domain.ofBit, h, hn]
      · have hn : (n + 1) % 2 = 0 := by omega
        simp [Domain.ofBit, h, hn]

/-- Every point agrees with that of some code on the enumerated variables. -/
theorem exists_code {x : V → ℚ} (hx : d.IsPoint x) (vars : List V) :
    ∃ code < 2 ^ vars.length, ∀ v ∈ vars, codePoint d vars code v = x v := by
  choose f hf using hx
  refine ⟨Nat.ofBits fun i : Fin vars.length => f vars[i], Nat.ofBits_lt_two_pow _, fun v hv => ?_⟩
  have hi : vars.idxOf v < vars.length := List.idxOf_lt_length_of_mem hv
  rw [codePoint, Nat.testBit_ofBits_lt _ _ hi, hf v]
  simp

/-- The value of a variable in a decoded assignment is the bit at its position. -/
theorem get?_decode (hvars : vars.Nodup) (hv : v ∈ vars) :
    (decode d vars code).get? v = some (d.ofBit (code.testBit (vars.idxOf v))) := by
  refine Table.get?_ofList ?_ (List.mem_map.mpr ⟨(v, vars.idxOf v), ?_, rfl⟩)
  · rw [List.map_map]
    exact (List.zipIdx_map_fst 0 vars).symm ▸ hvars
  · rw [List.mk_mem_zipIdx_iff_getElem?, List.getElem?_eq_getElem (List.idxOf_lt_length_of_mem hv)]
    exact congrArg some (List.getElem_idxOf _)

/-- A decoded assignment covers the variables. -/
theorem covers_decode (hvars : vars.Nodup) : Assignment.Covers d vars (decode d vars code) :=
  fun _ hv => ⟨_, get?_decode hvars hv, Domain.contains_iff.mpr ⟨_, rfl⟩⟩

/-- All that is decoded are values of the domain, in a sorted table. -/
theorem sorted_decode (d : Domain) (vars : List V) (code : ℕ) : (decode d vars code).Sorted :=
  Table.sorted_ofList _

/-- A decoded assignment has values of the domain only. -/
theorem contains_of_mem_decode {e : V × ℤ} (h : e ∈ decode d vars code) : d.contains e.2 := by
  obtain ⟨⟨v, i⟩, -, heq⟩ := List.mem_map.mp (Table.mem_of_mem_ofList h)
  obtain rfl : _ = e := heq
  exact Domain.contains_iff.mpr ⟨_, rfl⟩

/-- A decoded assignment sets the variables and no others. -/
theorem mem_keys_decode (hvars : vars.Nodup) : v ∈ Table.keys (decode d vars code) ↔ v ∈ vars := by
  rw [Table.mem_keys]
  constructor
  · rintro ⟨n, hn⟩
    obtain ⟨⟨w, i⟩, hmem, heq⟩ := List.mem_map.mp (Table.mem_of_mem_ofList hn)
    obtain rfl : w = v := (Prod.mk.inj heq).1
    exact List.fst_mem_of_mem_zipIdx hmem
  · exact fun hv => ⟨_, Table.mem_of_get?_eq_some (get?_decode hvars hv)⟩

theorem point_decode (hvars : vars.Nodup) (hv : v ∈ vars) :
    (decode d vars code).point d v = codePoint d vars code v :=
  Assignment.point_eq (get?_decode hvars hv) (Domain.contains_iff.mpr ⟨_, rfl⟩)

/-- What is decoded is an assignment of the enumerated variables. -/
theorem isOn_decode (hvars : vars.Nodup) : (decode d vars code).IsOn d (· ∈ vars) where
  sorted := sorted_decode d vars code
  keys _ := mem_keys_decode hvars
  values _ := contains_of_mem_decode

/-- Every assignment of the enumerated variables is decoded from some code. -/
theorem exists_decode_eq (hvars : vars.Nodup) {a : Assignment V} (ha : a.IsOn d (· ∈ vars)) :
    ∃ code < 2 ^ vars.length, decode d vars code = a := by
  obtain ⟨code, hlt, hsame⟩ := exists_code (Assignment.isPoint_point d a) vars
  refine ⟨code, hlt, (isOn_decode hvars).ext ha fun v hv => ?_⟩
  rw [point_decode hvars hv, hsame v hv]

/-- The code of an assignment: a bit is set if the variable at its position has the second value of the
domain. -/
def Assignment.toCode (d : Domain) (vars : List V) (a : Assignment V) : ℕ :=
  Nat.ofBits fun i : Fin vars.length => a.get? vars[i] = some (d.ofBit true)

theorem Assignment.toCode_lt (d : Domain) (vars : List V) (a : Assignment V) :
    a.toCode d vars < 2 ^ vars.length :=
  Nat.ofBits_lt_two_pow _

/-- Encoding a decoded assignment gives back the code. -/
theorem toCode_decode (hvars : vars.Nodup) (hcode : code < 2 ^ vars.length) :
    (decode d vars code).toCode d vars = code := by
  refine Nat.eq_of_testBit_eq fun i => ?_
  by_cases hi : i < vars.length
  · -- the bit tells the value of the variable at its position
    have hget : (decode d vars code).get? vars[i] = some (d.ofBit (code.testBit i)) := by
      rw [get?_decode hvars (List.getElem_mem hi), hvars.idxOf_getElem i hi]
    rw [Assignment.toCode, Nat.testBit_ofBits_lt _ _ hi]
    simp only [Fin.getElem_fin, hget]
    cases d <;> cases code.testBit i <;> decide
  · have hle : 2 ^ vars.length ≤ 2 ^ i := Nat.pow_le_pow_right two_pos (Nat.not_lt.mp hi)
    rw [Nat.testBit_lt_two_pow ((Assignment.toCode_lt d vars _).trans_le hle),
      Nat.testBit_lt_two_pow (hcode.trans_le hle)]

end Codes

/-! ## The compiled polynomial -/

namespace Compiled

variable {d : Domain} {V : Type} [Variable V] {vars : List V} {code : ℕ} {t : Term V}

/-- The positions of the variables of a term are found if all are listed. -/
theorem positions_eq (h : ∀ v ∈ t, v ∈ vars) : positions vars t = .ok (t.map vars.idxOf) := by
  refine mapM_eq_ok fun v hv => ?_
  have hsome : (⟨vars⟩ : VariableIndex V).indexOf? v = some (vars.idxOf v) :=
    VariableIndex.indexOf?_eq (h v hv)
  rw [VariableIndex.indexOf?] at hsome
  rw [hsome]

/-- As words the positions of a term and a code tell which bits of the code the term looks at. -/
theorem addTerm_ofPositions {positions : List ℕ} (hpositions : ∀ i ∈ positions, i < 64)
    (hnodup : positions.Nodup) (hcode : code < 2 ^ 64) (sum c : Number) :
    addTerm d (.ofNat code) sum (.ofPositions positions) c =
      match d with
      | .binary => if positions.all code.testBit then sum + c else sum
      | .spin => if positions.countP code.testBit % 2 = 1 then sum - c else sum + c := by
  have hword : (UInt64.ofNat code).toNat = code := Mask.toNat_ofNat hcode
  cases d with
  | binary =>
    rw [addTerm]
    simp only [Mask.includes_ofPositions hpositions, hword]
  | spin =>
    rw [addTerm]
    simp only [Mask.size_and_ofPositions hpositions hnodup, hword]

/-- A term contributes its coefficient times its value at the point of the code. -/
theorem addTerm_eq (hlength : vars.length ≤ 64) (h : ∀ v ∈ t, v ∈ vars) (hnodup : t.Nodup)
    (hcode : code < 2 ^ 64) (sum c : ℚ) :
    addTerm d (.ofNat code) (.exact sum) (.ofPositions (t.map vars.idxOf)) (.exact c) =
      .exact (sum + c * Term.eval (codePoint d vars code) t) := by
  have hpositions : ∀ i ∈ t.map vars.idxOf, i < 64 :=
    List.forall_mem_map.mpr fun v hv => (List.idxOf_lt_length_of_mem (h v hv)).trans_le hlength
  have hdistinct : (t.map vars.idxOf).Nodup :=
    hnodup.map_on fun v hv _ _ heq => (List.idxOf_inj (h v hv)).mp heq
  rw [addTerm_ofPositions hpositions hdistinct hcode]
  cases d with
  | binary =>
    simp only [eval_codePoint_binary]
    split
    · simp
    · simp
  | spin =>
    simp only [eval_codePoint_spin]
    split
    · simp [sub_eq_add_neg]
    · simp

omit [Variable V] in
/-- The sum of the constant terms. -/
theorem foldl_constants (ρ : String → ℚ) (l : List (Term V × Coefficient)) (a : ℚ) :
    ((l.map fun t => (t.1, Number.exact (t.2.eval ρ))).filter fun t => t.1.isEmpty).foldl
        (fun sum t => sum + t.2) (.exact a) =
      .exact (a + Polynomial.weighted ρ (fun t => if t.isEmpty then 1 else 0) l) := by
  induction l generalizing a with
  | nil => simp
  | cons e l ih =>
    rw [List.map_cons, List.filter_cons, Polynomial.weighted_cons]
    by_cases he : e.1.isEmpty
    · rw [if_pos he, if_pos he, List.foldl_cons, Number.exact_add, ih, mul_one, add_assoc]
    · rw [if_neg he, if_neg he, ih, mul_zero, zero_add]

/-- The other terms are compiled to masks and contribute their values at the point of a code. -/
theorem exists_mapM_positions (d : Domain) (ρ : String → ℚ) (l : List (Term V × Coefficient))
    (hlength : vars.length ≤ 64) (h : ∀ e ∈ l, e.1.Nodup ∧ ∀ v ∈ e.1, v ∈ vars) :
    ∃ compiled : List (Mask × Number),
      ((l.map fun t => (t.1, Number.exact (t.2.eval ρ))).filter fun t => !t.1.isEmpty).mapM
          (fun t => do return (.ofPositions (← positions vars t.1), t.2)) =
        (.ok compiled : Except Error (List (Mask × Number))) ∧
      ∀ code < 2 ^ 64, ∀ a : ℚ,
        compiled.foldl (fun sum t => addTerm d (.ofNat code) sum t.1 t.2) (.exact a) =
          .exact (a + Polynomial.weighted ρ
            (fun t => if t.isEmpty then 0 else Term.eval (codePoint d vars code) t) l) := by
  induction l with
  | nil => exact ⟨[], rfl, by simp⟩
  | cons e l ih =>
    obtain ⟨⟨hnodup, he⟩, hl⟩ := List.forall_mem_cons.mp h
    obtain ⟨compiled, hok, hfold⟩ := ih hl
    rw [List.map_cons, List.filter_cons]
    -- the term without variables is not compiled and has its value in the offset
    by_cases hempty : e.1.isEmpty
    · refine ⟨compiled, ?_, fun code hcode a => ?_⟩
      · rw [if_neg (by simp [hempty]), hok]
      · rw [hfold code hcode, Polynomial.weighted_cons, if_pos hempty, mul_zero, zero_add]
    · refine ⟨(.ofPositions (e.1.map vars.idxOf), .exact (e.2.eval ρ)) :: compiled, ?_,
        fun code hcode a => ?_⟩
      · rw [if_pos (by simp [hempty]), List.mapM_cons, hok, positions_eq he]
        rfl
      · rw [List.foldl_cons, addTerm_eq hlength he hnodup hcode, hfold code hcode,
          Polynomial.weighted_cons, if_neg hempty, add_assoc]

/-- The compiled polynomial has at a code the value at its point. -/
theorem eval_compiled {p : Polynomial d V} (hp : p.WellFormed Coefficient.IsRational)
    (ρ : String → ℚ) (hlength : vars.length ≤ 64) (h : ∀ v ∈ p.vars, v ∈ vars) :
    ∃ compiled, ofPolynomial p vars = .ok compiled ∧
      ∀ code < 2 ^ 64,
        compiled.eval d (.ofNat code) = .exact (p.eval ρ (codePoint d vars code)) := by
  obtain ⟨compiled, hok, hfold⟩ := exists_mapM_positions d ρ p.terms hlength fun e he =>
    ⟨(hp.terms.entries e he).increasing.nodup, fun v hv => h v (Polynomial.mem_vars.mpr ⟨e, he, hv⟩)⟩
  have hoffset := foldl_constants ρ p.terms 0
  refine ⟨⟨.exact (0 + Polynomial.weighted ρ (fun t => if t.isEmpty then 1 else 0) p.terms),
    compiled⟩, ?_, fun code hcode => ?_⟩
  · rw [ofPolynomial, Polynomial.numericTerms_eq hp ρ, ← hoffset]
    rw [← Polynomial.rationalTerms] at hok
    exact congrArg (Except.map fun terms => (⟨((p.rationalTerms ρ).filter fun t => t.1.isEmpty).foldl
      (fun sum t => sum + t.2) 0, terms⟩ : Compiled)) hok
  · rw [eval, hfold code hcode, zero_add, ← Polynomial.weighted_add]
    refine congrArg Number.exact (Polynomial.weighted_congr fun e _ => ?_)
    by_cases he : e.1.isEmpty
    · simp [List.isEmpty_iff.mp he]
    · simp only [he]
      simp

end Compiled

/-! ## Minimization -/

namespace Polynomial

variable {d : Domain} {V : Type} [Variable V] {p : Polynomial d V} {vars : List V}

/-- The search over the admitted assignments to some variables has as its value the least one, with the
admitted codes that have it in counting order: all of them, or the first. -/
theorem minimizeWhere_spec (hp : p.WellFormed Coefficient.IsRational) (ρ : String → ℚ)
    (h : ∀ v ∈ p.vars, v ∈ vars) (hlength : vars.length ≤ enumerationLimit) (all : Bool)
    (admitted : Assignment V → Bool) :
    ∃ found, p.minimizeWhere vars all admitted =
        .ok (found.best, found.codes.reverse.map (decode d vars)) ∧
      Found.Correct all (fun code => admitted (decode d vars code))
        (fun code => p.eval ρ (codePoint d vars code)) (List.range (2 ^ vars.length)) found := by
  have hword : vars.length < 64 := Nat.lt_succ_of_le hlength
  obtain ⟨compiled, hok, heval⟩ := Compiled.eval_compiled hp ρ hword.le h
  refine ⟨_, ?_, Found.correct_foldl fun code hcode => heval code ?_⟩
  · rw [minimizeWhere, if_neg (Nat.not_lt.mpr hlength), hok, ← Mask.toNat_single hword]
    rfl
  · exact (List.mem_range.mp hcode).trans (Nat.pow_lt_pow_right Nat.one_lt_two hword)

/-- Either no assignment is admitted, or the search finds the least value of those that are, with all
assignments that have it or with the first. -/
theorem minimizeWhere_cases (hp : p.WellFormed Coefficient.IsRational) (ρ : String → ℚ)
    (h : ∀ v ∈ p.vars, v ∈ vars) (hlength : vars.length ≤ enumerationLimit)
    (admitted : Assignment V → Bool) :
    ((∀ code < 2 ^ vars.length, admitted (decode d vars code) = false) ∧
        ∀ all, p.minimizeWhere vars all admitted = .ok (none, [])) ∨
      ∃ (v : ℚ) (codes : List ℕ), codes ≠ [] ∧ codes.Pairwise (· < ·) ∧
        (∀ code, code ∈ codes ↔ code < 2 ^ vars.length ∧ admitted (decode d vars code) ∧
          p.eval ρ (codePoint d vars code) = v) ∧
        (∀ code < 2 ^ vars.length, admitted (decode d vars code) →
          v ≤ p.eval ρ (codePoint d vars code)) ∧
        ∀ all, p.minimizeWhere vars all admitted =
          .ok (some (.exact v), (if all then codes else codes.take 1).map (decode d vars)) := by
  have hspec := fun all => minimizeWhere_spec hp ρ h hlength all admitted
  obtain ⟨found, -, hcorrect⟩ := hspec true
  cases hcorrect with
  | none hnone =>
    have hrejected : ∀ code < 2 ^ vars.length, admitted (decode d vars code) = false :=
      fun code hlt => hnone code (List.mem_range.mpr hlt)
    refine .inl ⟨hrejected, fun all => ?_⟩
    obtain ⟨found', hok, hcorrect'⟩ := hspec all
    cases hcorrect' with
    | none => exact hok
    | some hsome =>
      obtain ⟨code, hmem, hadmitted, -⟩ := hsome
      rw [hnone code hmem] at hadmitted
      cases hadmitted
  | @some v cs hsome hleast hcodes =>
    refine .inr ⟨v, Found.codesWith true (fun code => admitted (decode d vars code))
      (fun code => p.eval ρ (codePoint d vars code)) (List.range (2 ^ vars.length)) v, ?_,
      List.pairwise_lt_range.filter _, fun code => ?_,
      fun code hlt => hleast code (List.mem_range.mpr hlt), fun all => ?_⟩
    · obtain ⟨code, hmem, hadmitted, hv⟩ := hsome
      exact List.ne_nil_of_mem (List.mem_filter.mpr ⟨hmem, by simp [hadmitted, hv]⟩)
    · rw [Found.codesWith, if_pos rfl, List.mem_filter, List.mem_range, Bool.and_eq_true,
        decide_eq_true_eq]
    · obtain ⟨found', hok, hcorrect'⟩ := hspec all
      cases hcorrect' with
      | none hnone =>
        obtain ⟨code, hmem, hadmitted, -⟩ := hsome
        rw [hnone code hmem] at hadmitted
        cases hadmitted
      | @some v' cs' hsome' hleast' hcodes' =>
        -- both values are attained, and neither is above the other
        obtain ⟨code, hmem, hadmitted, hv⟩ := hsome
        obtain ⟨code', hmem', hadmitted', hv'⟩ := hsome'
        obtain rfl : v' = v := le_antisymm (hv ▸ hleast' code hmem hadmitted)
          (hv' ▸ hleast code' hmem' hadmitted')
        rw [hok, hcodes']
        rfl

/-- The assignments with a property that have the least value, each of them once. -/
structure Minimizers (p : Polynomial d V) (P : Assignment V → Prop) (v : ℚ)
    (found : List (Assignment V)) : Prop where
  ne_nil : found ≠ []
  nodup : found.Nodup
  mem_iff : ∀ a, a ∈ found ↔ P a ∧ p.valueNumber a = .ok (.exact v)
  least : ∀ a, P a → ∃ w : ℚ, p.valueNumber a = .ok (.exact w) ∧ v ≤ w

/-- The values at the assignments with a property. -/
def valuesOn (p : Polynomial d V) (P : Assignment V → Prop) : Set ℚ :=
  {w | ∃ a, P a ∧ p.valueNumber a = .ok (.exact w)}

/-- The value of the minimizers is the least value. -/
theorem Minimizers.isLeast {P : Assignment V → Prop} {v : ℚ} {found : List (Assignment V)}
    (h : p.Minimizers P v found) : IsLeast (p.valuesOn P) v := by
  constructor
  · obtain ⟨a, ha⟩ := List.exists_mem_of_ne_nil found h.ne_nil
    exact ⟨a, (h.mem_iff a).mp ha⟩
  · rintro w ⟨a, ha, hw⟩
    obtain ⟨w', hw', hle⟩ := h.least a ha
    obtain rfl := Number.exact.inj (Except.ok.inj (hw.symm.trans hw'))
    exact hle

/-- The search finds the minimizers among the admitted assignments of the enumerated variables, if there
is one: all of them in counting order, or the first. -/
theorem minimizeWhere_minimizers (hp : p.WellFormed Coefficient.IsRational) (hnodup : vars.Nodup)
    (h : ∀ v ∈ p.vars, v ∈ vars) (hlength : vars.length ≤ enumerationLimit)
    (admitted : Assignment V → Bool) :
    ((∀ a, a.IsOn d (· ∈ vars) → admitted a = false) ∧
        ∀ all, p.minimizeWhere vars all admitted = .ok (none, [])) ∨
      ∃ (v : ℚ) (found : List (Assignment V)),
        p.Minimizers (fun a => a.IsOn d (· ∈ vars) ∧ admitted a) v found ∧
        found.Pairwise (fun a b => a.toCode d vars < b.toCode d vars) ∧
        ∀ all, p.minimizeWhere vars all admitted =
          .ok (some (.exact v), if all then found else found.take 1) := by
  have hvalue : ∀ code, p.valueNumber (decode d vars code) =
      .ok (.exact (p.eval (fun _ => 0) (codePoint d vars code))) := by
    intro code
    rw [valueNumber_eq hp ((isOn_decode hnodup).covers h) fun _ => 0,
      eval_congr fun v hv => point_decode hnodup (h v hv)]
  rcases minimizeWhere_cases hp (fun _ => 0) h hlength admitted with
    ⟨hrejected, hok⟩ | ⟨v, codes, hne, hordered, hcodes, hleast, hok⟩
  · refine .inl ⟨fun a ha => ?_, hok⟩
    obtain ⟨code, hlt, rfl⟩ := exists_decode_eq hnodup ha
    exact hrejected code hlt
  · have hcode : ∀ {code}, code ∈ codes → (decode d vars code).toCode d vars = code := fun hcode =>
      toCode_decode hnodup ((hcodes _).mp hcode).1
    have hcounting : (codes.map (decode d vars)).Pairwise fun a b => a.toCode d vars < b.toCode d vars := by
      refine List.pairwise_map.mpr (hordered.imp_of_mem fun hmem hmem' hlt => ?_)
      rwa [hcode hmem, hcode hmem']
    refine .inr ⟨v, codes.map (decode d vars), ⟨?_, ?_, fun a => ?_, ?_⟩, hcounting, fun all => ?_⟩
    · exact fun hnil => hne (List.map_eq_nil_iff.mp hnil)
    · exact hcounting.imp fun hlt heq => (heq ▸ hlt).ne rfl
    · rw [List.mem_map]
      constructor
      · rintro ⟨code, hcode, rfl⟩
        obtain ⟨-, hadmitted, rfl⟩ := (hcodes code).mp hcode
        exact ⟨⟨isOn_decode hnodup, hadmitted⟩, hvalue code⟩
      · rintro ⟨⟨ha, hadmitted⟩, hv⟩
        obtain ⟨code, hlt, rfl⟩ := exists_decode_eq hnodup ha
        rw [hvalue] at hv
        exact ⟨code, (hcodes code).mpr ⟨hlt, hadmitted, Number.exact.inj (Except.ok.inj hv)⟩, rfl⟩
    · rintro a ⟨ha, hadmitted⟩
      obtain ⟨code, hlt, rfl⟩ := exists_decode_eq hnodup ha
      exact ⟨_, hvalue code, hleast code hlt hadmitted⟩
    · rw [hok]
      cases all with
      | true => rfl
      | false => simp only [Bool.false_eq_true, if_false, List.map_take]

/-- What a search finds has been decoded. -/
theorem exists_decode_of_minimizeWhere {all : Bool} {admitted : Assignment V → Bool}
    {best : Option Number} {solutions : List (Assignment V)}
    (h : p.minimizeWhere vars all admitted = .ok (best, solutions)) :
    ∀ a ∈ solutions, ∃ code, a = decode d vars code := by
  unfold minimizeWhere at h
  split at h
  · cases h
  · obtain ⟨compiled, -, h⟩ := exists_of_bind_eq_ok h
    obtain ⟨-, rfl⟩ := Prod.mk.inj (Except.ok.inj h)
    intro a ha
    obtain ⟨code, -, rfl⟩ := List.mem_map.mp ha
    exact ⟨code, rfl⟩

/-- If every assignment is admitted the search finds one, whatever the values are. -/
theorem exists_decode_of_minimize {all : Bool} {value : Number} {solutions : List (Assignment V)}
    (h : p.minimize vars all = .ok (value, solutions)) :
    solutions ≠ [] ∧ ∀ a ∈ solutions, ∃ code, a = decode d vars code := by
  obtain ⟨⟨best, found⟩, hsearch, h⟩ := exists_of_bind_eq_ok h
  obtain ⟨-, rfl⟩ := Prod.mk.inj (Except.ok.inj h)
  refine ⟨?_, exists_decode_of_minimizeWhere hsearch⟩
  unfold minimizeWhere at hsearch
  split at hsearch
  · cases hsearch
  · rename_i hlength
    obtain ⟨compiled, -, hsearch⟩ := exists_of_bind_eq_ok hsearch
    obtain ⟨-, rfl⟩ := Prod.mk.inj (Except.ok.inj hsearch)
    have hword : vars.length < 64 := Nat.lt_succ_of_le (not_lt.mp hlength)
    have hcodes : List.range (Mask.single vars.length).toNat ≠ [] := by
      rw [Mask.toNat_single hword]
      exact List.range_eq_nil.not.mpr (Nat.two_pow_pos _).ne'
    simpa using Found.codes_foldl_ne_nil hcodes

/-- The search over all assignments to the occurring variables finds one with the least value. -/
theorem minimum_spec (hp : p.WellFormed Coefficient.IsRational) (ρ : String → ℚ)
    (hlength : p.vars.length ≤ enumerationLimit) :
    ∃ raw, p.minimum = .ok (.exact (p.eval ρ (raw.point d)), raw) ∧ raw.IsOn d (· ∈ p.vars) ∧
      ∀ x, d.IsPoint x → p.eval ρ (raw.point d) ≤ p.eval ρ x := by
  have hvars : p.vars.Nodup := (Table.increasing_sortedSet _).nodup
  rcases minimizeWhere_minimizers hp hvars (fun v hv => hv) hlength fun _ => true with
    ⟨hrejected, -⟩ | ⟨v, found, hfound, -, hok⟩
  · cases hrejected (decode d p.vars 0) (isOn_decode hvars)
  · obtain ⟨raw, rest, rfl⟩ := List.exists_cons_of_ne_nil hfound.ne_nil
    have hvalue : ∀ {a : Assignment V}, a.IsOn d (· ∈ p.vars) →
        p.valueNumber a = .ok (.exact (p.eval ρ (a.point d))) := fun ha =>
      valueNumber_eq hp (ha.covers fun v hv => hv) ρ
    obtain ⟨⟨hraw, -⟩, hv⟩ := (hfound.mem_iff raw).mp List.mem_cons_self
    rw [hvalue hraw] at hv
    obtain rfl := Number.exact.inj (Except.ok.inj hv)
    refine ⟨raw, by rw [minimum, minimize, hok]; rfl, hraw, fun x hx => ?_⟩
    -- the point agrees with that of a code, which is not below
    obtain ⟨code, -, hsame⟩ := exists_code hx p.vars
    have hcode : (decode d p.vars code).IsOn d (· ∈ p.vars) := isOn_decode hvars
    obtain ⟨w, hw, hle⟩ := hfound.least _ ⟨hcode, rfl⟩
    rw [hvalue hcode, eval_congr fun v hv => (point_decode hvars hv).trans (hsame v hv)] at hw
    obtain rfl := Number.exact.inj (Except.ok.inj hw)
    exact hle

/-! ## Solutions of canonical forms -/

omit [Variable V] in
/-- A bit keeps its meaning when it is converted to another domain. -/
theorem convert?_ofBit (e d : Domain) (b : Bool) : e.convert? d (e.ofBit b) = some (d.ofBit b) := by
  cases e <;> cases d <;> cases b <;> rfl

/-- A fold that gives every named entry its value, as far as one variable is concerned: the entry whose
number is that of the variable counts, of which there is at most one. -/
theorem exists_foldlM_assign {e : Domain} {step : Assignment V → ℕ × ℤ → Except Error (Assignment V)}
    (hp : p.index.labels.Nodup)
    (hstep : ∀ out i b, ∃ next, step out (i, e.ofBit b) = .ok next ∧ ∀ v,
      (p.index.label? i = some v → next.get? v = some (d.ofBit b)) ∧
      (p.index.label? i ≠ some v → next.get? v = out.get? v))
    (l : List (ℕ × ℤ)) (out : Assignment V) (hnodup : (l.map (·.1)).Nodup)
    (hl : ∀ entry ∈ l, e.contains entry.2) :
    ∃ sol, l.foldlM step out = .ok sol ∧ ∀ v,
      (∀ i b, p.index.label? i = some v → (i, e.ofBit b) ∈ l → sol.get? v = some (d.ofBit b)) ∧
      ((∀ i ∈ l.map (·.1), p.index.label? i ≠ some v) → sol.get? v = out.get? v) := by
  induction l generalizing out with
  | nil => exact ⟨out, rfl, by simp⟩
  | cons entry l ih =>
    obtain ⟨i, x⟩ := entry
    obtain ⟨hi, hrest⟩ := List.nodup_cons.mp hnodup
    obtain ⟨hx, hvalues⟩ := List.forall_mem_cons.mp hl
    obtain ⟨b, rfl⟩ := Domain.contains_iff.mp hx
    obtain ⟨next, hnext, hget⟩ := hstep out i b
    obtain ⟨sol, hok, hsol⟩ := ih next hrest hvalues
    refine ⟨sol, ?_, fun v => ⟨fun i' b' hlabel hb' => ?_, fun hnot => ?_⟩⟩
    · rw [List.foldlM_cons, hnext]
      exact hok
    · rcases List.mem_cons.mp hb' with heq | hmem
      · obtain ⟨rfl, hbit⟩ := Prod.mk.inj heq
        -- an entry later in the list has another number, and so it is for another variable
        have hother : ∀ j ∈ l.map (·.1), p.index.label? j ≠ some v := fun j hj hj' => by
          rw [← (VariableIndex.position_of_label? hp hj').2,
            (VariableIndex.position_of_label? hp hlabel).2] at hj
          exact hi hj
        rw [(hsol v).2 hother, (hget v).1 hlabel]
        cases e <;> cases b <;> cases b' <;> first | rfl | exact absurd hbit (by decide)
      · exact (hsol v).1 i' b' hlabel hmem
    · obtain ⟨hfirst, hothers⟩ := List.forall_mem_cons.mp hnot
      rw [(hsol v).2 hothers, (hget v).2 hfirst]

/-- A converted solution is sorted. -/
theorem sorted_convertSolution {e : Domain} {raw : Assignment ℕ} {sol : Assignment V}
    (h : p.convertSolution e raw = .ok sol) : sol.Sorted := by
  refine invariant_of_foldlM Table.Sorted (fun out entry _ next hout hstep => ?_) List.Pairwise.nil h
  dsimp only at hstep
  split at hstep
  · obtain rfl := Except.ok.inj hstep
    exact hout
  · split at hstep
    · obtain rfl := Except.ok.inj hstep
      exact hout.insert
    · cases hstep

/-- A numbered solution with values of its domain is brought back: exactly the variables whose numbers
have values get values, and they are carried over. -/
theorem convertSolution_spec (hp : p.index.labels.Nodup) {e : Domain} {P : ℕ → Prop}
    {raw : Assignment ℕ} (hraw : raw.IsOn e P) :
    ∃ sol, p.convertSolution e raw = .ok sol ∧
      sol.IsOn d (fun v => v ∈ p.index.labels ∧ P (p.index.position v)) ∧
      ∀ v ∈ p.index.labels, P (p.index.position v) →
        sol.point d v = d.carry e (raw.point e (p.index.position v)) := by
  obtain ⟨sol, hsol, hget⟩ : ∃ sol, p.convertSolution e raw = .ok sol ∧ ∀ v,
      (∀ i b, p.index.label? i = some v → (i, e.ofBit b) ∈ raw → sol.get? v = some (d.ofBit b)) ∧
      ((∀ i ∈ raw.map (·.1), p.index.label? i ≠ some v) → sol.get? v = none) := by
    refine exists_foldlM_assign hp (fun out i b => ?_) raw [] hraw.sorted.keys_nodup hraw.values
    dsimp only
    cases hlabel : p.index.label? i with
    | none => exact ⟨out, rfl, fun v => ⟨nofun, fun _ => rfl⟩⟩
    | some w =>
      refine ⟨Table.insert w (d.ofBit b) out, by rw [convert?_ofBit], fun v => ⟨fun h => ?_, fun h => ?_⟩⟩
      · rw [← Option.some_inj.mp h, Table.get?_insert_self]
      · exact Table.get?_insert_of_ne fun hvw => h (congrArg some hvw.symm)
  have hsorted := sorted_convertSolution hsol
  have hsome : ∀ v ∈ p.index.labels, P (p.index.position v) → ∃ b,
      raw.get? (p.index.position v) = some (e.ofBit b) ∧ sol.get? v = some (d.ofBit b) := by
    intro v hv hP
    obtain ⟨b, hb⟩ := hraw.exists_get? hP
    exact ⟨b, hb, (hget v).1 _ b (VariableIndex.label?_position hv) (Table.mem_of_get?_eq_some hb)⟩
  -- nothing else has a value
  have honly : ∀ v n, (v, n) ∈ sol → v ∈ p.index.labels ∧ P (p.index.position v) := by
    intro v n hn
    by_contra hnot
    have hnone := (hget v).2 fun i hi hlabel => hnot <| by
      obtain ⟨hv, rfl⟩ := VariableIndex.position_of_label? hp hlabel
      exact ⟨hv, (hraw.keys _).mp hi⟩
    rw [(Table.get?_eq_some_iff hsorted).mpr hn] at hnone
    cases hnone
  refine ⟨sol, hsol, ⟨hsorted, fun v => ⟨fun hv => ?_, fun ⟨hv, hP⟩ => ?_⟩, fun entry hentry => ?_⟩,
    fun v hv hP => ?_⟩
  · obtain ⟨n, hn⟩ := Table.mem_keys.mp hv
    exact honly v n hn
  · obtain ⟨b, -, hb⟩ := hsome v hv hP
    exact Table.mem_keys.mpr ⟨_, Table.mem_of_get?_eq_some hb⟩
  · obtain ⟨hv, hP⟩ := honly entry.1 entry.2 hentry
    obtain ⟨b, -, hb⟩ := hsome entry.1 hv hP
    have hentry := (Table.get?_eq_some_iff hsorted).mpr hentry
    rw [hb] at hentry
    exact Domain.contains_iff.mpr ⟨b, (Option.some_inj.mp hentry).symm⟩
  · obtain ⟨b, hraw', hb⟩ := hsome v hv hP
    rw [Assignment.point_eq hb (Domain.contains_iff.mpr ⟨b, rfl⟩),
      Assignment.point_eq hraw' (Domain.contains_iff.mpr ⟨b, rfl⟩), Domain.carry_ofBit]

/-- The values of variables that are not recorded as ancillas are kept. -/
theorem get?_withoutAncillas {a : Assignment V} {v : V} (ha : a.Sorted)
    (hv : p.ancillas.contains v = false) : (p.withoutAncillas a).get? v = a.get? v := by
  have hsorted : (p.withoutAncillas a).Sorted := List.Pairwise.filter _ ha
  refine Option.ext fun n => ?_
  rw [Table.get?_eq_some_iff hsorted, Table.get?_eq_some_iff ha, withoutAncillas, List.mem_filter]
  simp [hv]

/-- The other variables are left out. -/
theorem isOn_withoutAncillas {P : V → Prop} {a : Assignment V} (ha : a.IsOn d P) :
    (p.withoutAncillas a).IsOn d fun v => P v ∧ p.ancillas.contains v = false where
  sorted := List.Pairwise.filter _ ha.sorted
  keys v := by
    rw [← ha.keys, withoutAncillas, Table.mem_keys, Table.mem_keys]
    simp
  values e he := ha.values e (List.mem_of_mem_filter he)

/-- The solution has a value for every numbered variable that is not recorded as an ancilla, and for no
others. -/
theorem isOn_of_solve (hnodup : p.index.labels.Nodup) {a : Assignment V} (h : p.solve = .ok a) :
    a.IsOn d fun v => v ∈ p.index.labels ∧ p.ancillas.contains v = false := by
  obtain ⟨⟨value, solutions⟩, hminimize, h⟩ := exists_of_bind_eq_ok h
  obtain rfl := Except.ok.inj h
  obtain ⟨hne, hdecode⟩ := exists_decode_of_minimize hminimize
  obtain ⟨code, hlast⟩ := hdecode _ (List.getLast_mem hne)
  rw [List.getLast?_eq_some_getLast hne, Option.getD_some, hlast]
  exact isOn_withoutAncillas (isOn_decode hnodup)

/-- Removing ancillas leaves the other variables covered. -/
theorem covers_withoutAncillas {a : Assignment V} {vars : List V} (ha : a.Sorted)
    (hcovers : Assignment.Covers d vars a) (hvars : ∀ v ∈ vars, p.ancillas.contains v = false) :
    Assignment.Covers d vars (p.withoutAncillas a) := by
  intro v hv
  rw [get?_withoutAncillas ha (hvars v hv)]
  exact hcovers v hv

/-- The value of a polynomial without recorded ancillas is kept. -/
theorem eval_withoutAncillas {a : Assignment V} {q : Polynomial d V} {ρ : String → ℚ} (ha : a.Sorted)
    (hvars : ∀ v ∈ q.vars, p.ancillas.contains v = false) :
    q.eval ρ ((p.withoutAncillas a).point d) = q.eval ρ (a.point d) :=
  eval_congr fun v hv => Assignment.point_congr (get?_withoutAncillas ha (hvars v hv))

end Polynomial

end PseudoBoolean

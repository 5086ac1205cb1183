import PseudoBoolean.Model.Slack
import PseudoBoolean.Proofs.Polynomial.Arithmetic
import PseudoBoolean.Proofs.Polynomial.Conversion

/-!
# Slack

The weights are computed in words of 64 bits and stored in a list. `parts` are the same weights as numbers,
and `weights_logarithmic` and `weights_unary` say for which ranges nothing goes beyond a word and the list
fits into memory.

Every whole number up to the greatest slack is the sum of some of the weights (`exists_chosen`). The
slack as a polynomial has at a point the sum of the weights whose bits are set (`isSlack_polynomial`), so
every such number is its value at some point that differs in the bits only (`IsSlack.eval_withBits`).
-/

namespace PseudoBoolean

namespace Slack

/-! ## Weights as numbers -/

/-- The number of weights `1, 2, 4, …` whose sum does not exceed `range`. -/
def powerCount (range : ℕ) : ℕ :=
  Nat.log2 (range + 1)

/-- Powers of two and the rest that is left to the sum, or as many ones as needed. -/
def parts (range : ℕ) (logarithmic : Bool) : List ℕ :=
  if logarithmic then
    let count := powerCount range
    let rest := range - (Nat.pow 2 count - 1)
    (List.range count).map (Nat.pow 2) ++ (if rest = 0 then [] else [rest])
  else List.replicate range 1

theorem two_pow_powerCount_le (range : ℕ) : 2 ^ powerCount range ≤ range + 1 :=
  Nat.log2_self_le range.succ_ne_zero

theorem lt_two_pow_powerCount (range : ℕ) : range + 1 < 2 ^ (powerCount range + 1) :=
  Nat.lt_log2_self

/-! ### Words -/

/-- Shifting a one by less than the width of a word gives a power of two. -/
theorem shiftLeft_one {n : ℕ} (h : n < 64) : shiftLeft 1 n = .ok (2 ^ n) := by
  have hlt : 2 ^ n < 2 ^ 64 := Nat.pow_lt_pow_right Nat.one_lt_two h
  rw [shiftLeft, if_pos h, Nat.one_shiftLeft]
  exact Error.word_natCast hlt

/-- The powers are the shifted ones. -/
theorem mapM_shiftLeft {count : ℕ} (h : count ≤ 64) :
    (List.range count).mapM (shiftLeft 1) = .ok ((List.range count).map (Nat.pow 2)) :=
  mapM_eq_ok fun _ hi => shiftLeft_one ((List.mem_range.mp hi).trans_le h)

/-- The digits of a word after the first are as many as there are powers. -/
theorem word_powerCount {range : ℕ} (h : range + 1 < 2 ^ 64) :
    Error.word (63 - leadingZeros (range + 1)) = .ok (powerCount range) := by
  have hcount : powerCount range < 64 := Nat.log2_lt (Nat.succ_ne_zero range) |>.mpr h
  have hexact : (63 - leadingZeros (range + 1) : ℤ) = powerCount range := by
    rw [leadingZeros, if_neg (Nat.succ_ne_zero range)]
    simp only [powerCount] at hcount ⊢
    omega
  rw [hexact, Error.word_natCast (hcount.trans (by decide))]

/-- The powers cover the numbers below the next one. -/
theorem word_covered {range : ℕ} (h : range + 1 < 2 ^ 64) :
    Error.word ((2 ^ powerCount range : ℕ) - 1) = .ok (2 ^ powerCount range - 1) := by
  have hpower := two_pow_powerCount_le range
  have hlt : 2 ^ powerCount range - 1 < 2 ^ 64 := by omega
  rw [← Nat.cast_pred (Nat.two_pow_pos _), Error.word_natCast hlt]

/-- What they do not cover is left to the rest. -/
theorem word_rest {range : ℕ} (h : range + 1 < 2 ^ 64) :
    Error.word (range - (2 ^ powerCount range - 1 : ℕ)) = .ok (range - (2 ^ powerCount range - 1)) := by
  have hpower := two_pow_powerCount_le range
  have hlt : range - (2 ^ powerCount range - 1) < 2 ^ 64 := by omega
  rw [← Nat.cast_sub (by omega), Error.word_natCast hlt]

/-- Nothing goes beyond a word if the successor of the range is one. -/
theorem weights_of_word {range : ℕ} (h : range + 1 < 2 ^ 64) :
    weights range true = .ok (parts range true) := by
  have hcount : powerCount range < 64 := (Nat.log2_lt (Nat.succ_ne_zero range)).mpr h
  have hnext : Error.word (range + 1) = .ok (range + 1) := (Error.word_add_one range).trans (if_pos h)
  rw [weights, if_pos rfl]
  split
  · rename_i hrange
    rw [hrange]
    rfl
  · refine bind_eq_ok_iff.mpr ⟨_, hnext, ?_⟩
    refine bind_eq_ok_iff.mpr ⟨_, word_powerCount h, ?_⟩
    refine bind_eq_ok_iff.mpr ⟨_, mapM_shiftLeft hcount.le, ?_⟩
    refine bind_eq_ok_iff.mpr ⟨_, shiftLeft_one hcount, ?_⟩
    refine bind_eq_ok_iff.mpr ⟨_, word_covered h, ?_⟩
    refine bind_eq_ok_iff.mpr ⟨_, word_rest h, ?_⟩
    rw [parts, if_pos rfl]
    rfl

/-- The logarithmic weights are found exactly then. -/
theorem weights_logarithmic (range : ℕ) :
    weights range true =
      if range + 1 < 2 ^ 64 then .ok (parts range true) else .error (.stopped .word) := by
  by_cases h : range + 1 < 2 ^ 64
  · rw [if_pos h, weights_of_word h]
  · have hstopped : Error.word (range + 1) = .error (.stopped .word) :=
      (Error.word_add_one range).trans (if_neg h)
    rw [if_neg h, weights, if_neg (by omega), if_pos rfl, hstopped]
    rfl

/-- The ones are found if their list fits into memory. -/
theorem weights_unary (range : ℕ) :
    weights range false =
      if range ≤ capacity then .ok (parts range false) else .error (.stopped .memory) := by
  rw [weights]
  by_cases hrange : range = 0
  · subst hrange
    rw [if_pos rfl, if_pos (Nat.zero_le _)]
    rfl
  · rw [if_neg hrange]
    rfl

/-- Weights that are found are the parts of the range. -/
theorem eq_parts {range : ℕ} {logarithmic : Bool} {ws : List ℕ}
    (h : weights range logarithmic = .ok ws) : ws = parts range logarithmic := by
  cases logarithmic with
  | false =>
    rw [weights_unary] at h
    split at h
    · exact (Except.ok.inj h).symm
    · cases h
  | true =>
    rw [weights_logarithmic] at h
    split at h
    · exact (Except.ok.inj h).symm
    · cases h

/-- For a range that is a signed word, logarithmic weights are found, and ones if they fit into memory. -/
theorem weights_eq_parts {range : ℕ} {logarithmic : Bool} (h : range < 2 ^ 63)
    (hroom : logarithmic ∨ range ≤ capacity) :
    weights range logarithmic = .ok (parts range logarithmic) := by
  cases logarithmic with
  | false => exact (weights_unary range).trans (if_pos (hroom.resolve_left Bool.false_ne_true))
  | true => exact (weights_logarithmic range).trans (if_pos (by omega))

/-! ## Sums of weights -/

/-- The sum of the weights that are chosen by their positions. -/
def chosen (choice : ℕ → Bool) (weights : List ℕ) : ℕ :=
  (weights.zipIdx.map fun e => if choice e.2 then e.1 else 0).sum

/-- One more weight adds itself to the sum if it is chosen. -/
theorem chosen_append_singleton (choice : ℕ → Bool) (weights : List ℕ) (w : ℕ) :
    chosen choice (weights ++ [w]) =
      chosen choice weights + if choice weights.length then w else 0 := by
  simp [chosen, List.zipIdx_append]

/-- The sum depends on the choices for the weights only. -/
theorem chosen_congr {choice choice' : ℕ → Bool} {weights : List ℕ}
    (h : ∀ i < weights.length, choice i = choice' i) :
    chosen choice weights = chosen choice' weights := by
  refine congrArg List.sum (List.map_congr_left fun e he => ?_)
  rw [h e.2 (by have := List.snd_lt_add_of_mem_zipIdx he; omega)]

/-- The bits of a number choose powers of two that add up to it. -/
theorem chosen_powers (n count : ℕ) :
    chosen n.testBit ((List.range count).map (Nat.pow 2)) = n % 2 ^ count := by
  induction count with
  | zero => simp [chosen, Nat.mod_one]
  | succ count ih =>
    rw [List.range_succ, List.map_append, List.map_singleton, chosen_append_singleton, ih,
      List.length_map, List.length_range, Nat.mod_pow_succ, Nat.testBit_eq_decide_div_mod_eq]
    rcases Nat.mod_two_eq_zero_or_one (n / 2 ^ count) with h | h <;> simp [h]

/-- The first of several ones add up to their number. -/
theorem chosen_ones {n range : ℕ} (h : n ≤ range) :
    chosen (fun i => decide (i < n)) (List.replicate range 1) = n := by
  have key : chosen (fun i => decide (i < n)) (List.replicate range 1) = min n range := by
    clear h
    induction range with
    | zero => simp [chosen]
    | succ range ih =>
      rw [List.replicate_succ', chosen_append_singleton, ih, List.length_replicate]
      split <;> simp_all <;> omega
  rw [key, Nat.min_eq_left h]

/-- Every number up to the range is the sum of some weights. -/
theorem exists_chosen {n range : ℕ} (h : n ≤ range) (logarithmic : Bool) :
    ∃ choice, chosen choice (parts range logarithmic) = n := by
  cases logarithmic with
  | false => exact ⟨_, chosen_ones h⟩
  | true =>
    obtain ⟨count, hcount⟩ : ∃ count, powerCount range = count := ⟨_, rfl⟩
    have hle : 2 ^ count ≤ range + 1 := hcount ▸ two_pow_powerCount_le range
    have hlt : range + 1 < 2 ^ (count + 1) := hcount ▸ lt_two_pow_powerCount range
    rw [Nat.pow_succ] at hlt
    simp only [parts, hcount, if_true, Nat.pow_eq]
    have hpowers : ∀ k < 2 ^ count, ∀ choice : ℕ → Bool, (∀ i < count, choice i = k.testBit i) →
        chosen choice ((List.range count).map (Nat.pow 2)) = k := fun k hk choice hchoice => by
      rw [chosen_congr (by simpa using hchoice), chosen_powers, Nat.mod_eq_of_lt hk]
    by_cases hrest : range - (2 ^ count - 1) = 0
    · rw [if_pos hrest, List.append_nil]
      exact ⟨n.testBit, hpowers n (by omega) _ fun _ _ => rfl⟩
    · rw [if_neg hrest]
      -- the rest is needed for the numbers that the powers do not reach
      by_cases hn : n < 2 ^ count
      · refine ⟨fun i => decide (i < count) && n.testBit i, ?_⟩
        rw [chosen_append_singleton, hpowers n hn _ fun i hi => by simp [hi]]
        simp
      · refine ⟨fun i => decide (count ≤ i) || (n - (range - (2 ^ count - 1))).testBit i, ?_⟩
        rw [chosen_append_singleton, hpowers (n - (range - (2 ^ count - 1))) (by omega) _
          fun i hi => by simp [Nat.not_le.mpr hi]]
        simp only [List.length_map, List.length_range, le_refl, decide_true, Bool.true_or, if_true]
        omega

/-! ## Labels -/

/-- The labels of slack bits from `first` up to, but not including, `next`. -/
def labels (first next : UInt32) : List Label :=
  (List.range (next.toNat - first.toNat)).map fun i => .ancilla (first + .ofNat i)

theorem toNat_add_ofNat {first : UInt32} {i : ℕ} (h : first.toNat + i < 2 ^ 32) :
    (first + .ofNat i).toNat = first.toNat + i := by
  rw [UInt32.toNat_add, UInt32.toNat_ofNat', Nat.add_mod_mod, Nat.mod_eq_of_lt h]

/-- The ancillas of a range of numbers are the labels of the numbers in it. -/
theorem mem_labels {first next : UInt32} {n : UInt32} :
    .ancilla n ∈ labels first next ↔ first ≤ n ∧ n < next := by
  have hnext := next.toNat_lt
  rw [UInt32.le_iff_toNat_le, UInt32.lt_iff_toNat_lt]
  simp only [labels, List.mem_map, List.mem_range, Label.ancilla.injEq]
  constructor
  · rintro ⟨i, hi, rfl⟩
    rw [toNat_add_ofNat (by omega)]
    omega
  · rintro ⟨hfirst, hlt⟩
    refine ⟨n.toNat - first.toNat, by omega, UInt32.toNat_inj.mp ?_⟩
    rw [toNat_add_ofNat (by omega)]
    omega

theorem isAncilla_of_mem_labels {first next : UInt32} {label : Label}
    (h : label ∈ labels first next) : ∃ n, label = .ancilla n ∧ first ≤ n := by
  obtain ⟨i, -, rfl⟩ := List.mem_map.mp h
  exact ⟨_, rfl, (mem_labels.mp h).1⟩

/-- Without an overflow the bits have the labels up to the next number, each once. -/
theorem map_fst_bits {first : UInt32} {weights : List ℕ}
    (h : first.toNat + weights.length < 2 ^ 32) :
    (bits first weights).map (·.1) = labels first (first + .ofNat weights.length) := by
  rw [labels, toNat_add_ofNat h, Nat.add_sub_cancel_left, bits, List.map_map]
  have hindex : weights.zipIdx.map (·.2) = List.range weights.length := by
    rw [List.zipIdx_map_snd, List.range_eq_range']
  rw [← hindex, List.map_map]
  rfl

/-- The labels of a range are distinct. -/
theorem nodup_labels (first next : UInt32) : (labels first next).Nodup := by
  have hnext := next.toNat_lt
  refine List.Nodup.map_on (fun i hi j hj heq => ?_) List.nodup_range
  rw [List.mem_range] at hi hj
  have hnat := congrArg UInt32.toNat (Label.ancilla.inj heq)
  rw [toNat_add_ofNat (by omega), toNat_add_ofNat (by omega)] at hnat
  omega

theorem map_snd_bits (first : UInt32) (weights : List ℕ) : (bits first weights).map (·.2) = weights := by
  rw [bits, List.map_map]
  exact List.zipIdx_map_fst 0 weights

section Record

variable {constraint : ℕ} {bits : List (Label × ℕ)} {a : AncillaTable Label} {v : Label}

/-- Recording the slack bits inserts a record for each of them. -/
theorem record_eq (constraint : ℕ) (bits : List (Label × ℕ)) (a : AncillaTable Label) :
    record constraint bits a =
      (bits.map fun e => (e.1, Origin.slack constraint (.ofInt e.2))).foldl
        (fun a e => Table.insert e.1 e.2 a) a := by
  rw [record, List.foldl_map]

/-- Each bit is recorded as slack of the constraint, with its weight. -/
theorem get?_record_of_mem (hnodup : (bits.map (·.1)).Nodup) {e : Label × ℕ} (he : e ∈ bits) :
    (record constraint bits a).get? e.1 = some (.slack constraint (.ofInt e.2)) := by
  rw [record_eq]
  refine Table.get?_insertAll _ ?_ (List.mem_map_of_mem he)
  rw [List.map_map]
  exact hnodup

/-- Nothing else is recorded. -/
theorem get?_record_of_notMem (hv : v ∉ bits.map (·.1)) :
    (record constraint bits a).get? v = a.get? v := by
  rw [record_eq]
  refine Table.get?_insertAll_of_notMem _ ?_
  rw [List.map_map]
  exact hv

end Record

/-! ## The slack as a polynomial -/

section Polynomial

variable {d : Domain} {label : Label} {ρ : String → ℚ} {x : Label → ℚ}

open PseudoBoolean.Polynomial

theorem wellFormed_var : (Polynomial.var label : Polynomial .binary Label).WellFormed
    Coefficient.IsRational :=
  WellFormed.empty.addTerm [label] (Coefficient.kind_ofNat 1)

theorem terms_var :
    (Polynomial.var label : Polynomial .binary Label).terms = [([label], 1)] := rfl

/-- A slack bit is a well-formed polynomial. -/
theorem wellFormed_bit (d : Domain) (label : Label) :
    (bit d label).WellFormed Coefficient.IsRational :=
  wellFormed_var.toDomain d

/-- A bit has the binary value that corresponds to the value of its label. -/
theorem eval_bit : (bit d label).eval ρ x = Domain.binary.carry d (x label) := by
  rw [bit, eval_toDomain wellFormed_var, Polynomial.eval, terms_var]
  simp

theorem mem_vars_bit {v : Label} (h : v ∈ (bit d label).vars) : v = label := by
  rw [bit, mem_vars_toDomain wellFormed_var, mem_vars, terms_var] at h
  simpa using h

/-- A slack bit has its own label and no other. -/
theorem labels_bit (d : Domain) (label : Label) : (bit d label).index.labels = [label] := by
  rw [bit, index_toDomain wellFormed_var]
  rfl

theorem ancillas_bit (d : Domain) (label : Label) : (bit d label).ancillas = [] := by
  rw [bit, ancillas_toDomain]
  rfl

/-- What holds of a slack: its value is the weighted sum of its bits, and it records nothing. -/
structure IsSlack (p : Polynomial d Label) (bits : List (Label × ℕ)) : Prop where
  wellFormed : p.WellFormed Coefficient.IsRational
  vars : ∀ v ∈ p.vars, v ∈ bits.map (·.1)
  indexed : ∀ v ∈ bits.map (·.1), v ∈ p.index.labels
  ancillas : p.ancillas = []
  eval : ∀ ρ x, p.eval ρ x =
    (bits.map fun e => (e.2 : ℚ) * Domain.binary.carry d (x e.1)).sum

/-- One more bit. -/
theorem IsSlack.add {p : Polynomial d Label} {bits : List (Label × ℕ)} (h : IsSlack p bits)
    (label : Label) (w : ℕ) :
    IsSlack (p + (bit d label).scale (.num (.ofInt w))) (bits ++ [(label, w)]) := by
  have hweight : Coefficient.IsRational (.num (.ofInt w)) := ⟨_, rfl⟩
  have hscaled := (wellFormed_bit d label).scale hweight
  refine ⟨h.wellFormed.add hscaled, fun v hv => ?_, fun v hv => ?_, ?_, fun ρ x => ?_⟩
  · rw [List.map_append, List.mem_append]
    rcases mem_vars_of_mem_add hv with hv | hv
    · exact .inl (h.vars v hv)
    · exact .inr (List.mem_singleton.mpr (mem_vars_bit (mem_vars_of_mem_mapCoefficients hv)))
  · rw [List.map_append, List.mem_append] at hv
    rcases hv with hv | hv
    · exact (labels_prefix_add _ _).subset (h.indexed v hv)
    · refine labels_subset_add _ _ ((labels_prefix_mapCoefficients _ _).subset ?_)
      rw [labels_bit]
      exact hv
  · rw [ancillas_add, h.ancillas, scale, ancillas_mapCoefficients, ancillas_bit]
    rfl
  · rw [eval_add h.wellFormed hscaled, h.eval, eval_scale (wellFormed_bit d label) hweight, eval_bit,
      List.map_append, List.sum_append, List.map_singleton, List.sum_singleton, mul_comm]
    rfl

/-- What is built up bit by bit from the weights is a slack. -/
theorem isSlack_polynomial (d : Domain) (bits : List (Label × ℕ)) :
    IsSlack (polynomial d bits) bits := by
  have hempty : IsSlack (Polynomial.empty : Polynomial d Label) [] :=
    ⟨.empty, by simp [Polynomial.vars, Polynomial.empty], by simp, rfl, fun _ _ => rfl⟩
  have key : ∀ (done rest : List (Label × ℕ)) (p : Polynomial d Label), IsSlack p done →
      IsSlack (rest.foldl (fun p e => p + (bit d e.1).scale (.num (.ofInt e.2))) p)
        (done ++ rest) := by
    intro done rest
    induction rest generalizing done with
    | nil => exact fun p h => by simpa using h
    | cons e rest ih =>
      intro p h
      simpa using ih (done ++ [e]) _ (h.add e.1 e.2)
  exact key [] bits _ hempty

/-- The value of a slack is a natural number. -/
theorem IsSlack.exists_eval_eq {p : Polynomial d Label} {bits : List (Label × ℕ)} (h : IsSlack p bits)
    (hx : d.IsPoint x) : ∃ n : ℕ, p.eval ρ x = n := by
  rw [h.eval]
  clear h
  induction bits with
  | nil => exact ⟨0, by simp⟩
  | cons e bits ih =>
    obtain ⟨n, hn⟩ := ih
    rw [List.map_cons, List.sum_cons, hn]
    rcases Domain.isValue_binary.mp ((hx e.1).carry) with h | h <;> rw [h]
    · exact ⟨n, by simp⟩
    · exact ⟨e.2 + n, by simp⟩

/-- The slack is never negative. -/
theorem IsSlack.eval_nonneg {p : Polynomial d Label} {bits : List (Label × ℕ)} (h : IsSlack p bits)
    (hx : d.IsPoint x) : 0 ≤ p.eval ρ x := by
  obtain ⟨n, hn⟩ := h.exists_eval_eq (ρ := ρ) hx
  rw [hn]
  exact Nat.cast_nonneg n

/-- The point with other values of some labels, by their positions. -/
def withBits (d : Domain) (labels : List Label) (choice : ℕ → Bool) (x : Label → ℚ) (v : Label) : ℚ :=
  if v ∈ labels then (d.ofBit (choice (labels.idxOf v)) : ℤ) else x v

/-- Choosing values for the slack bits keeps a point of the domain. -/
theorem isPoint_withBits (hx : d.IsPoint x) (labels : List Label) (choice : ℕ → Bool) :
    d.IsPoint (withBits d labels choice x) := fun v => by
  rw [withBits]
  split
  · exact Domain.isValue_ofBit d _
  · exact hx v

/-- With the bits of a choice the slack is the sum of the chosen weights. -/
theorem IsSlack.eval_withBits {first : UInt32} {weights : List ℕ} {p : Polynomial d Label}
    (h : IsSlack p (bits first weights)) (hroom : first.toNat + weights.length < 2 ^ 32)
    (choice : ℕ → Bool) :
    p.eval ρ (withBits d (labels first (first + .ofNat weights.length)) choice x) =
      chosen choice weights := by
  have hposition : ∀ i < weights.length,
      withBits d (labels first (first + .ofNat weights.length)) choice x
        (.ancilla (first + .ofNat i)) = (d.ofBit (choice i) : ℤ) := by
    intro i hi
    have hlength : i < (labels first (first + .ofNat weights.length)).length := by
      rw [labels, toNat_add_ofNat hroom, List.length_map, List.length_range]
      omega
    have hget : (labels first (first + .ofNat weights.length))[i] =
        .ancilla (first + .ofNat i) := by simp [labels]
    rw [withBits, ← hget, if_pos (List.getElem_mem hlength),
      (nodup_labels _ _).idxOf_getElem i hlength]
  have hterm : ∀ (w i : ℕ), (w : ℚ) * Domain.binary.carry d (d.ofBit (choice i) : ℤ) =
      ((if choice i then w else 0 : ℕ) : ℚ) := fun w i => by
    rw [Domain.carry_ofBit]
    cases choice i <;> simp [Domain.ofBit]
  rw [h.eval, bits, List.map_map, chosen, Nat.cast_list_sum, List.map_map]
  refine congrArg List.sum (List.map_congr_left fun e he => ?_)
  simp only [Function.comp]
  rw [hposition e.2 (by have := List.snd_lt_add_of_mem_zipIdx he; omega), hterm]

end Polynomial

end Slack

end PseudoBoolean

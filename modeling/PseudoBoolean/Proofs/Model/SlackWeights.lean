import Mathlib.Data.Finset.Powerset
import Mathlib.Order.Bounds.Basic
import PseudoBoolean.Proofs.Model.Slack

/-!
# Slack weights

Some of the weights add up to a number exactly if the number is in the range, and no list of weights is
shorter than the logarithmic one (`weights_span`). That every number up to the range is reached is known from
`exists_chosen`; nothing beyond it is, because the weights add up to the range (`sum_parts`). A multiset of
`k` weights has at most `2 ^ k` sums (`lt_two_pow_card`), and there are as many weights as it takes for the
range to be below that.

The limits of words are never met for a range that is a signed word (`weights_eq_parts`), but the limit of
memory is: the ones for a range of `2 ^ 60` cannot be listed (`weights_beyond_capacity`).
-/

namespace PseudoBoolean.Slack

variable {range n : ℕ}

/-! ## Sums of weights -/

/-- The powers of two below a power add up to one less. -/
theorem sum_powers (count : ℕ) : ((List.range count).map (Nat.pow 2)).sum + 1 = 2 ^ count := by
  induction count with
  | zero => rfl
  | succ count ih =>
    rw [List.range_succ, List.map_append, List.sum_append, List.map_singleton, List.sum_singleton,
      Nat.pow_succ]
    simp only [Nat.pow_eq] at ih ⊢
    omega

/-- The parts of a range add up to it. -/
theorem sum_parts (range : ℕ) (logarithmic : Bool) : (parts range logarithmic).sum = range := by
  cases logarithmic with
  | false => simp [parts]
  | true =>
    have hpower := two_pow_powerCount_le range
    have hsum := sum_powers (powerCount range)
    simp only [parts, if_true, Nat.pow_eq, List.sum_append]
    split
    · rw [List.sum_nil]
      omega
    · rw [List.sum_singleton]
      omega

/-- No part is zero. -/
theorem one_le_of_mem_parts {logarithmic : Bool} {w : ℕ} (h : w ∈ parts range logarithmic) :
    1 ≤ w := by
  cases logarithmic with
  | false => exact (List.eq_of_mem_replicate h).ge
  | true =>
    rcases List.mem_append.mp h with h | h
    · obtain ⟨i, -, rfl⟩ := List.mem_map.mp h
      exact Nat.two_pow_pos i
    · split at h
      · cases h
      · rename_i hrest
        rw [List.mem_singleton.mp h]
        exact Nat.one_le_iff_ne_zero.mpr hrest

/-- The weights that are chosen are some of the weights. -/
theorem exists_le_sum_eq_chosen (choice : ℕ → Bool) (ws : List ℕ) :
    ∃ s ≤ (ws : Multiset ℕ), s.sum = chosen choice ws := by
  have hsub : ((ws.zipIdx.filter fun e => choice e.2).map (·.1)).Sublist ws := by
    have hmap := (List.filter_sublist (l := ws.zipIdx) (p := fun e => choice e.2)).map (·.1)
    rwa [List.zipIdx_map_fst] at hmap
  refine ⟨_, Multiset.coe_le.mpr hsub.subperm, ?_⟩
  rw [Multiset.sum_coe, chosen, List.sum_map_ite, List.map_const', List.sum_replicate]
  simp

/-- Some of the weights add up to a number exactly if it is in the range. -/
theorem exists_sum_eq_iff (logarithmic : Bool) :
    (∃ s ≤ (parts range logarithmic : Multiset ℕ), s.sum = n) ↔ n ≤ range := by
  constructor
  · rintro ⟨s, hs, rfl⟩
    obtain ⟨rest, hrest⟩ := Multiset.le_iff_exists_add.mp hs
    have hsum := congrArg Multiset.sum hrest
    rw [Multiset.sum_coe, sum_parts, Multiset.sum_add] at hsum
    omega
  · intro hn
    obtain ⟨choice, hchoice⟩ := exists_chosen hn logarithmic
    rw [← hchoice]
    exact exists_le_sum_eq_chosen choice _

/-! ## The number of weights -/

/-- A multiset of weights has at most as many sums as it has parts. -/
theorem lt_two_pow_card {weights : Multiset ℕ} (h : ∀ n ≤ range, ∃ s ≤ weights, s.sum = n) :
    range < 2 ^ weights.card := by
  have hsub : Finset.range (range + 1) ⊆ (weights.powerset.map Multiset.sum).toFinset := by
    intro n hn
    obtain ⟨s, hs, hsum⟩ := h n (Nat.lt_succ_iff.mp (Finset.mem_range.mp hn))
    rw [Multiset.mem_toFinset, Multiset.mem_map]
    exact ⟨s, Multiset.mem_powerset.mpr hs, hsum⟩
  calc range < (Finset.range (range + 1)).card := by rw [Finset.card_range]; exact range.lt_succ_self
    _ ≤ (weights.powerset.map Multiset.sum).toFinset.card := Finset.card_le_card hsub
    _ ≤ (weights.powerset.map Multiset.sum).card := Multiset.toFinset_card_le _
    _ = 2 ^ weights.card := by rw [Multiset.card_map, Multiset.card_powerset]

/-- The logarithmic encoding takes as few bits as can hold the range. -/
theorem isLeast_length_parts (range : ℕ) : IsLeast {k | range < 2 ^ k} (parts range true).length := by
  have hpower := two_pow_powerCount_le range
  have hlt := lt_two_pow_powerCount range
  have hleast : ∀ k, range < 2 ^ k → powerCount range ≤ k := fun k hk =>
    (Nat.pow_le_pow_iff_right Nat.one_lt_two).mp (hpower.trans hk)
  rw [parts, if_pos rfl]
  simp only [List.length_append, List.length_map, List.length_range, Nat.pow_eq]
  split
  · have hcovers : range < 2 ^ powerCount range := by omega
    exact ⟨hcovers, hleast⟩
  · have hcovers : range < 2 ^ (powerCount range + 1) := by omega
    -- the powers alone add up to less than the range
    have hmisses : ¬range < 2 ^ powerCount range := by omega
    refine ⟨hcovers, fun k hk => Nat.lt_of_le_of_ne (hleast k hk) fun heq => ?_⟩
    rw [heq] at hmisses
    exact hmisses hk

/-! ## Weights that are found -/

/-- The weights span the range: some of them add up to a number exactly if it is in the range, and each of
them counts. For a range that is a signed word the weights are found, without a result that goes beyond a
word; only ones that do not fit into memory are not. The logarithmic weights are as few as the range allows,
and no other weights that reach all numbers in the range are fewer. -/
theorem weights_span (range : ℕ) (h : range < 2 ^ 63) :
    (∀ logarithmic : Bool, logarithmic ∨ range ≤ capacity → ∃ ws, weights range logarithmic = .ok ws ∧
      (∀ n, (∃ s ≤ (ws : Multiset ℕ), s.sum = n) ↔ n ≤ range) ∧ (∀ w ∈ ws, 1 ≤ w) ∧
      (logarithmic → IsLeast {k | range < 2 ^ k} ws.length ∧
        ∀ ws' : Multiset ℕ, (∀ n ≤ range, ∃ s ≤ ws', s.sum = n) → ws.length ≤ ws'.card)) ∧
    (capacity < range → weights range false = .error (.stopped .memory)) := by
  refine ⟨fun logarithmic hroom => ⟨parts range logarithmic, weights_eq_parts h hroom,
    fun n => exists_sum_eq_iff logarithmic, fun w hw => one_le_of_mem_parts hw, ?_⟩, fun hlarge => ?_⟩
  · rintro rfl
    have hleast := isLeast_length_parts range
    exact ⟨hleast, fun ws' hws' => hleast.2 (lt_two_pow_card hws')⟩
  · exact (weights_unary range).trans (if_neg hlarge.not_ge)

/-- The largest range that a signed word holds has 63 logarithmic weights, and the largest one that has ones
for weights is still spanned by them. -/
theorem weights_span_largest :
    (∃ ws, weights (2 ^ 63 - 1) true = .ok ws ∧ ws.length = 63) ∧
      ∃ ws, weights capacity false = .ok ws ∧
        ∀ n, (∃ s ≤ (ws : Multiset ℕ), s.sum = n) ↔ n ≤ capacity := by
  obtain ⟨hspan, -⟩ := weights_span (2 ^ 63 - 1) (by norm_num)
  obtain ⟨ws, hws, -, -, hcount⟩ := hspan true (.inl rfl)
  obtain ⟨hones, -⟩ := weights_span capacity (by norm_num [capacity])
  obtain ⟨ones, hfound, hsums, -⟩ := hones false (.inr le_rfl)
  refine ⟨⟨ws, hws, (hcount rfl).1.unique ⟨by norm_num, fun k hk => ?_⟩⟩, ones, hfound, hsums⟩
  by_contra hlt
  have hle : 2 ^ k ≤ 2 ^ 62 := Nat.pow_le_pow_right Nat.two_pos (by omega)
  exact absurd (hk.trans_le hle) (by norm_num)

/-- A range that is a signed word can have no list of ones. -/
theorem weights_beyond_capacity :
    2 ^ 60 < 2 ^ 63 ∧ ¬ ∃ ws, weights (2 ^ 60) false = .ok ws := by
  have hstopped : weights (2 ^ 60) false = .error (.stopped .memory) :=
    (weights_unary (2 ^ 60)).trans (if_neg (by norm_num [capacity]))
  refine ⟨by norm_num, fun ⟨ws, hws⟩ => ?_⟩
  rw [hstopped] at hws
  cases hws

end PseudoBoolean.Slack

import Mathlib.Data.Nat.Size
import PseudoBoolean.Digits
import PseudoBoolean.Proofs.Polynomial.DomainExchange

/-!
# Numbers and rows of digits

Writing a number in base two and reading a row of digits are inverse to each other, in both domains
(`ofNumber_toNat_inverse`). The digits are produced from the last one on, and they are read from the first one
on. Both are compared with `ofDigits`, the number that a row of bits stands for: a number is what its own
digits stand for (`ofDigits_reverse_lowFirst`), digits zero in front do not count, and rows of one length that
stand for the same number are equal (`ofDigits_inj`). So the digits that fill up a given row are the row.
-/

namespace PseudoBoolean.Digits

variable {d : Domain} {bits bits' : List Bool} {row : List ℤ} {n : ℕ} {value : Number} {e : Error}

/-! ## Rows of bits -/

/-- The number that a row of bits stands for, the most significant first. -/
def ofDigits (bits : List Bool) : ℕ :=
  bits.foldl (fun n b => 2 * n + b.toNat) 0

/-- One more digit at the end doubles the value and adds the digit. -/
theorem ofDigits_concat (bits : List Bool) (b : Bool) :
    ofDigits (bits ++ [b]) = 2 * ofDigits bits + b.toNat :=
  List.foldl_concat ..

/-- Leading zeros do not change the value. -/
theorem ofDigits_replicate_append (k : ℕ) (bits : List Bool) :
    ofDigits (List.replicate k false ++ bits) = ofDigits bits := by
  induction k with
  | zero => rfl
  | succ k ih => exact ih

/-- A row of `k` digits stands for a number below `2 ^ k`. -/
theorem ofDigits_lt (bits : List Bool) : ofDigits bits < 2 ^ bits.length := by
  induction bits using List.reverseRecOn with
  | nil => exact Nat.one_pos
  | append_singleton bits b ih =>
    have hb := b.toNat_lt
    rw [ofDigits_concat, List.length_append, List.length_singleton, Nat.pow_succ]
    omega

/-- Rows of one length are told apart by their numbers. -/
theorem ofDigits_inj (hlength : bits.length = bits'.length) (h : ofDigits bits = ofDigits bits') :
    bits = bits' := by
  induction bits using List.reverseRecOn generalizing bits' with
  | nil => exact (List.length_eq_zero_iff.mp hlength.symm).symm
  | append_singleton bits b ih =>
    cases bits' using List.reverseRecOn with
    | nil => simp at hlength
    | append_singleton bits' b' =>
      have hlength : bits.length = bits'.length := by simpa using hlength
      rw [ofDigits_concat, ofDigits_concat] at h
      have hlast : b = b' := by
        cases b <;> cases b' <;> simp only [Bool.toNat_false, Bool.toNat_true] at h <;>
          first | rfl | omega
      rw [hlast, ih hlength (by rw [hlast] at h; omega)]

/-! ## The digits of a number -/

/-- The digits of a number, lowest first, give back the number. -/
theorem ofDigits_reverse_lowFirst (n : ℕ) : ofDigits (lowFirst n).reverse = n := by
  fun_induction lowFirst n with
  | case1 => rfl
  | case2 n _ ih =>
    have hbit : (n % 2 == 1).toNat = n % 2 := by
      rcases Nat.mod_two_eq_zero_or_one n with h | h <;> rw [h] <;> rfl
    rw [List.reverse_cons, ofDigits_concat, ih, hbit, Nat.div_add_mod]

theorem length_lowFirst (n : ℕ) : (lowFirst n).length = n.size := by
  fun_induction lowFirst n with
  | case1 => rfl
  | case2 n hn ih =>
    have hsize : (Nat.bit n.bodd n.div2).size = n.div2.size + 1 :=
      Nat.size_bit (by rwa [Nat.bit_bodd_div2])
    rw [Nat.bit_bodd_div2, Nat.div2_val] at hsize
    rw [List.length_cons, ih, hsize]

/-- Zero has one digit, and any other number as many as its size. -/
theorem length_binaryDigits (n : ℕ) : (binaryDigits n).length = max 1 n.size := by
  rw [binaryDigits]
  split
  · rename_i hn
    rw [hn]
    rfl
  · rename_i hn
    rw [length_lowFirst, max_eq_right (Nat.size_pos.mpr (Nat.pos_of_ne_zero hn))]

theorem ofDigits_reverse_binaryDigits (n : ℕ) : ofDigits (binaryDigits n).reverse = n := by
  rw [binaryDigits]
  split
  · rename_i hn
    exact hn.symm
  · exact ofDigits_reverse_lowFirst n

/-! ## Writing -/

/-- A number is refused if its digits do not fit. Otherwise they are written, filled up with zeros. -/
theorem ofNumber_cases (d : Domain) (h : value.toInt? = some (n : ℤ)) (width : Option ℕ) :
    (∃ w ∈ width, w < max 1 n.size ∧
        ofNumber d value width = .error (.malformed (.tooWide value (max 1 n.size) w))) ∨
      (∀ w ∈ width, max 1 n.size ≤ w) ∧ ∃ bits, bits.length = width.getD (max 1 n.size) ∧
        ofDigits bits = n ∧ ofNumber d value width = .ok (bits.map d.ofBit) := by
  have hlength := length_binaryDigits n
  have hdigits := ofDigits_reverse_binaryDigits n
  rw [ofNumber, h]
  cases width with
  | none =>
    exact .inr ⟨nofun, (binaryDigits n).reverse, by rw [List.length_reverse, hlength]; rfl, hdigits, rfl⟩
  | some w =>
    by_cases hw : w < max 1 n.size
    · exact .inl ⟨w, rfl, hw, by simp only [Option.filter_some, hlength, hw, decide_true, if_true]⟩
    · refine .inr ⟨fun _ hw' => Option.some_inj.mp hw' ▸ Nat.not_lt.mp hw,
        (binaryDigits n ++ List.replicate (w - (binaryDigits n).length) false).reverse, ?_, ?_, ?_⟩
      · rw [List.length_reverse, List.length_append, List.length_replicate, hlength]
        exact Nat.add_sub_of_le (Nat.not_lt.mp hw)
      · rw [List.reverse_append, List.reverse_replicate, ofDigits_replicate_append, hdigits]
      · simp only [Option.filter_some, hlength, hw, decide_false, Bool.false_eq_true, if_false]

/-- The digits are the same in both domains, with the values of the domain. -/
theorem ofNumber_spin (value : Number) (width : Option ℕ) :
    ofNumber .spin value width = (ofNumber .binary value width).map (List.map fun x => 1 - 2 * x) := by
  have hbits : ∀ bits : List Bool, bits.map Domain.spin.ofBit =
      (bits.map Domain.binary.ofBit).map fun x => 1 - 2 * x := by
    intro bits
    rw [List.map_map]
    exact List.map_congr_left fun b _ => by cases b <;> rfl
  rw [ofNumber, ofNumber]
  cases value.toInt? with
  | none => rfl
  | some n =>
    cases n with
    | negSucc n => rfl
    | ofNat n =>
      dsimp only
      split
      · rfl
      · exact congrArg Except.ok (hbits _)

/-! ## Reading -/

/-- A row in the alphabet of the domain is read as the number of its bits. -/
theorem toNat_map_ofBit (d : Domain) (bits : List Bool) :
    toNat d (bits.map d.ofBit) = .ok (ofDigits bits) := by
  have hdigit : ∀ b, digit d (d.ofBit b) = .ok b := fun b => by rw [digit, Domain.toBit?_ofBit]
  have key : ∀ start, (bits.map d.ofBit).foldlM (fun n x => do return 2 * n + (← digit d x).toNat) start =
      (.ok (bits.foldl (fun n b => 2 * n + b.toNat) start) : Except Error ℕ) := by
    induction bits with
    | nil => exact fun _ => rfl
    | cons b bits ih =>
      intro start
      rw [List.map_cons, List.foldlM_cons, hdigit]
      exact ih _
  exact key 0

/-- A row over the alphabet of the domain is the image of a row of bits. -/
theorem exists_bits (h : ∀ x ∈ row, d.contains x) : ∃ bits : List Bool, bits.map d.ofBit = row := by
  induction row with
  | nil => exact ⟨[], rfl⟩
  | cons x row ih =>
    obtain ⟨hx, hrow⟩ := List.forall_mem_cons.mp h
    obtain ⟨b, rfl⟩ := Domain.contains_iff.mp hx
    obtain ⟨bits, rfl⟩ := ih hrow
    exact ⟨b :: bits, rfl⟩

/-- A symbol outside the alphabet is refused and named. -/
theorem digit_of_not_contains {x : ℤ} (h : ¬d.contains x) :
    digit d x = .error (.malformed (.notInDomain x d)) := by
  have hne : x ≠ d.ofBit false ∧ x ≠ d.ofBit true := by simpa [Domain.contains, Domain.values] using h
  rw [digit, Domain.toBit?, if_neg hne.1, if_neg hne.2]

/-- A row is refused because of its first value that the domain does not have. -/
theorem toNat_eq_error_iff : toNat d row = .error e ↔
    ∃ x, row.find? (fun x => !d.contains x) = some x ∧ e = .malformed (.notInDomain x d) := by
  have key : ∀ start, row.foldlM (fun n x => do return 2 * n + (← digit d x).toNat) start = .error e ↔
      ∃ x, row.find? (fun x => !d.contains x) = some x ∧ e = .malformed (.notInDomain x d) := by
    induction row with
    | nil => exact fun _ => ⟨nofun, nofun⟩
    | cons x row ih =>
      intro start
      rw [List.foldlM_cons, List.find?_cons]
      by_cases hx : d.contains x
      · obtain ⟨b, rfl⟩ := Domain.contains_iff.mp hx
        rw [digit, Domain.toBit?_ofBit, hx]
        exact ih _
      · rw [digit_of_not_contains hx, Bool.eq_false_iff.mpr hx]
        simp [bind, Except.bind, eq_comm]
  exact key 0

/-! ## Both ways -/

/-- A number written as digits has the width asked for and is read back unchanged. -/
theorem toNat_ofNumber (h : value.toInt? = some (n : ℤ)) {width : Option ℕ}
    (hrow : ofNumber d value width = .ok row) :
    row.length = width.getD (max 1 n.size) ∧ toNat d row = .ok n := by
  rcases ofNumber_cases d h width with ⟨_, -, -, herror⟩ | ⟨-, bits, hlength, hn, hok⟩
  · cases herror.symm.trans hrow
  · obtain rfl := Except.ok.inj (hok.symm.trans hrow)
    rw [List.length_map, toNat_map_ofBit, hn]
    exact ⟨hlength, rfl⟩

/-- A number is refused exactly when the width asked for is too small for it. -/
theorem ofNumber_eq_error_iff (h : value.toInt? = some (n : ℤ)) {width : Option ℕ} :
    ofNumber d value width = .error e ↔
      ∃ w ∈ width, w < max 1 n.size ∧ e = .malformed (.tooWide value (max 1 n.size) w) := by
  rcases ofNumber_cases d h width with ⟨w, hw, hlt, herror⟩ | ⟨hfits, bits, -, -, hok⟩
  · rw [herror]
    constructor
    · exact fun he => ⟨w, hw, hlt, (Except.error.inj he).symm⟩
    · rintro ⟨w', hw', -, rfl⟩
      rw [Option.mem_unique hw hw']
  · rw [hok]
    refine ⟨nofun, ?_⟩
    rintro ⟨w, hw, hlt, -⟩
    exact absurd (hfits w hw) (Nat.not_le.mpr hlt)

/-- A row of values of the domain is what its own number is written as in as many digits. -/
theorem ofNumber_toNat (hne : row ≠ []) (hrow : ∀ x ∈ row, d.contains x) :
    ∃ n : ℕ, toNat d row = .ok n ∧ ofNumber d (.ofInt n) (some row.length) = .ok row := by
  obtain ⟨bits, rfl⟩ := exists_bits hrow
  have hone : 1 ≤ bits.length := List.length_pos_iff.mpr fun h => hne (by rw [h]; rfl)
  have hsize : (ofDigits bits).size ≤ bits.length := Nat.size_le.mpr (ofDigits_lt bits)
  have hvalue : (Number.ofInt (ofDigits bits)).toInt? = some (ofDigits bits : ℤ) := by
    simp [Number.ofInt, Number.toInt?, Number.toRat?]
  refine ⟨ofDigits bits, toNat_map_ofBit d bits, ?_⟩
  rw [List.length_map]
  rcases ofNumber_cases d hvalue (some bits.length) with ⟨w, hw, hlt, -⟩ | ⟨-, bits', hlength, hn, hok⟩
  · obtain rfl := Option.some_inj.mp hw
    exact absurd hlt (Nat.not_lt.mpr (max_le hone hsize))
  · rw [hok, ofDigits_inj hlength hn]

/-- Writing and reading are inverse to each other. A whole number is refused only if its digits do not fit
into the width. Otherwise the row has the width, or just the digits of the number, and reads as the number. A
row that is not empty reads as a number whose digits, in the width of the row, are the row, unless it has a
value that the domain does not have. Spin rows are the binary ones with 1 for 0 and -1 for 1. -/
theorem ofNumber_toNat_inverse :
    (∀ d : Domain,
      (∀ (value : Number) (n : ℕ), value.toInt? = some (n : ℤ) → ∀ width : Option ℕ,
        (∀ e, ofNumber d value width = .error e ↔ ∃ w ∈ width, w < max 1 n.size ∧
          e = .malformed (.tooWide value (max 1 n.size) w)) ∧
        ∀ row, ofNumber d value width = .ok row →
          row.length = width.getD (max 1 n.size) ∧ toNat d row = .ok n) ∧
      (∀ row : List ℤ, row ≠ [] → (∀ x ∈ row, d.contains x) →
        ∃ n : ℕ, toNat d row = .ok n ∧ ofNumber d (.ofInt n) (some row.length) = .ok row) ∧
      ∀ (row : List ℤ) e, toNat d row = .error e ↔
        ∃ x, row.find? (fun x => !d.contains x) = some x ∧ e = .malformed (.notInDomain x d)) ∧
    ∀ value width,
      ofNumber .spin value width = (ofNumber .binary value width).map (List.map fun x => 1 - 2 * x) := by
  refine ⟨fun d => ⟨fun value n h width => ?_, fun row hne hrow => ?_, fun row e => ?_⟩,
    fun value width => ?_⟩
  · exact ⟨fun e => ofNumber_eq_error_iff h, fun row hrow => toNat_ofNumber h hrow⟩
  · exact ofNumber_toNat hne hrow
  · exact toNat_eq_error_iff
  · exact ofNumber_spin value width

/-- The spin row of ten in seven digits. It reads as ten, and ten has no row of three digits. -/
theorem ofNumber_toNat_inverse_ten :
    ofNumber .spin 10 (some 7) = .ok [1, 1, 1, -1, 1, -1, 1] ∧
      toNat .spin [1, 1, 1, -1, 1, -1, 1] = .ok 10 ∧
      ofNumber .spin 10 (some 3) = .error (.malformed (.tooWide 10 4 3)) := by
  have hten : Number.toInt? 10 = some ((10 : ℕ) : ℤ) := by decide +kernel
  have hrow : ofNumber .spin 10 (some 7) = .ok [1, 1, 1, -1, 1, -1, 1] := by decide +kernel
  have hsize : max 1 (Nat.size 10) = 4 := by decide +kernel
  obtain ⟨hspin, -⟩ := ofNumber_toNat_inverse
  obtain ⟨hwritten, -, -⟩ := hspin .spin
  refine ⟨hrow, ((hwritten 10 10 hten (some 7)).2 _ hrow).2, ?_⟩
  rw [(hwritten 10 10 hten (some 3)).1, hsize]
  exact ⟨3, rfl, by decide, rfl⟩

end PseudoBoolean.Digits
